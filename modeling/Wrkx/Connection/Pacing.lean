import Wrkx.Connection.Response

/-!
# The pacing decision

`usec_to_next_send` keeps the connection either on its plan, one send per `1 / throughput`
since `thread_start`, or on the catch-up plan at twice the rate since it fell behind. It
returns zero exactly when both plans allow a send, and else the time until the earliest one.

## Main results

- `usecToNextSend_eq_zero_iff` — zero is returned exactly when a send is permitted
- `usecToNextSend_add` — the wait ends when the plan that holds the send back permits it
-/

namespace Wrkx

/-- The time from which on the plan permits the next send. -/
def planned (S : Setting) (c : Connection) : ℕ := c.threadStart + S.quot c.complete c.throughput

/-- The time from which on the catch-up plan permits the next send. -/
def caughtUpPlanned (S : Setting) (c : Connection) : ℕ :=
  c.catchUpStartTime +
    S.quot (Word.sub64 c.complete c.completeAtCatchUpStart) c.catchUpThroughput

/-- The connection is behind its plan, and the catch-up plan permits a send. -/
structure Permits (S : Setting) (now : ℕ) (c : Connection) : Prop where
  planned : planned S c ≤ now
  behind : c.caughtUp = false
  caughtUpPlanned : caughtUpPlanned S c ≤ now

/-- The last reading of the clock. -/
def lastClock : List Obs → Option ℕ
  | [] => none
  | .clock now :: _ => some now
  | _ :: older => lastClock older

variable {S : Setting} {now : Micros} {l : Local}

/-- `usec_to_next_send` before the planned time. -/
theorem usecToNextSend_of_lt (h : now < planned S l.c) :
    usecToNextSend S now l = (planned S l.c - now,
      { l.note (.clock now) with c := { l.c with caughtUp := true } }.note .onPace) := by
  simp only [planned] at h
  simp only [usecToNextSend, planned, Local.note_c, h, if_true]

/-- `usec_to_next_send` from the planned time on. -/
theorem usecToNextSend_of_le (h : planned S l.c ≤ now) :
    usecToNextSend S now l =
      (caughtUpPlanned S (fallBehind now (l.note (.clock now))).c - now,
        fallBehind now (l.note (.clock now))) := by
  simp only [planned] at h
  simp only [usecToNextSend, Local.note_c, not_lt.mpr h, if_false, caughtUpPlanned]
  split_ifs with hlt
  · rfl
  · rw [Nat.sub_eq_zero_of_le (not_lt.mp hlt)]

theorem fallBehind_caughtUp : (fallBehind now l).c.caughtUp = false := by
  simp only [fallBehind]
  split <;> simp_all

/-- What the pacing decision can do: the connection is on its plan, it has just fallen behind,
    or it was behind already. -/
theorem usecToNextSend_cases (S : Setting) (now : Micros) (l : Local) :
    (now < planned S l.c ∧ (usecToNextSend S now l).2 =
      { l.note (.clock now) with c := { l.c with caughtUp := true } }.note .onPace) ∨
    (planned S l.c ≤ now ∧ l.c.caughtUp = true ∧ (usecToNextSend S now l).2 =
      { l.note (.clock now) with c := { l.c with
        caughtUp := false
        catchUpStartTime := now
        completeAtCatchUpStart := l.c.complete } }.note (.fellBehind now l.c.complete)) ∨
    (planned S l.c ≤ now ∧ l.c.caughtUp = false ∧
      (usecToNextSend S now l).2 = l.note (.clock now)) := by
  rcases lt_or_ge (now : ℕ) (planned S l.c) with hlt | hle
  · exact .inl ⟨hlt, by rw [usecToNextSend_of_lt hlt]⟩
  · rw [usecToNextSend_of_le hle]
    by_cases hcaught : l.c.caughtUp = true
    · exact .inr (.inl ⟨hle, hcaught, by simp [fallBehind, hcaught]⟩)
    · exact .inr (.inr ⟨hle, by simpa using hcaught, by simp [fallBehind, hcaught]⟩)

@[simp]
theorem usecToNextSend_self : (usecToNextSend S now l).2.self = l.self := by
  rcases usecToNextSend_cases S now l with ⟨-, h⟩ | ⟨-, -, h⟩ | ⟨-, -, h⟩ <;> simp [h]

@[simp]
theorem usecToNextSend_tcp : (usecToNextSend S now l).2.tcp = l.tcp := by
  rcases usecToNextSend_cases S now l with ⟨-, h⟩ | ⟨-, -, h⟩ | ⟨-, -, h⟩ <;> simp [h]

@[simp]
theorem usecToNextSend_thread : (usecToNextSend S now l).2.thread = l.thread := by
  rcases usecToNextSend_cases S now l with ⟨-, h⟩ | ⟨-, -, h⟩ | ⟨-, -, h⟩ <;> simp [h]

@[simp]
theorem usecToNextSend_files : (usecToNextSend S now l).2.files = l.files := by
  rcases usecToNextSend_cases S now l with ⟨-, h⟩ | ⟨-, -, h⟩ | ⟨-, -, h⟩ <;> simp [h]

@[simp]
theorem usecToNextSend_kernel : (usecToNextSend S now l).2.kernel = l.kernel := by
  rcases usecToNextSend_cases S now l with ⟨-, h⟩ | ⟨-, -, h⟩ | ⟨-, -, h⟩ <;> simp [h]

@[simp]
theorem usecToNextSend_aborted : (usecToNextSend S now l).2.aborted = l.aborted := by
  rcases usecToNextSend_cases S now l with ⟨-, h⟩ | ⟨-, -, h⟩ | ⟨-, -, h⟩ <;> simp [h]

/-- The pacing decision changes only the fields of the connection that it keeps for itself. -/
theorem usecToNextSend_c : (usecToNextSend S now l).2.c = { l.c with
    caughtUp := (usecToNextSend S now l).2.c.caughtUp
    catchUpStartTime := (usecToNextSend S now l).2.c.catchUpStartTime
    completeAtCatchUpStart := (usecToNextSend S now l).2.c.completeAtCatchUpStart } := by
  rcases usecToNextSend_cases S now l with ⟨-, h⟩ | ⟨-, -, h⟩ | ⟨-, -, h⟩ <;> simp [h]

theorem usecToNextSend_written : (usecToNextSend S now l).2.c.written = l.c.written := by
  rw [usecToNextSend_c]

theorem planned_usecToNextSend : planned S (usecToNextSend S now l).2.c = planned S l.c := by
  rw [planned, usecToNextSend_c, planned]

/-- What the pacing decision adds to the history. -/
theorem usecToNextSend_history (S : Setting) (now : Micros) (l : Local) : ∃ noted : List Obs,
    (usecToNextSend S now l).2.history = noted ++ .clock now :: l.history ∧
      (noted = [] ∨ noted = [.onPace] ∨ noted = [.fellBehind now l.c.complete]) := by
  rcases usecToNextSend_cases S now l with ⟨-, h⟩ | ⟨-, -, h⟩ | ⟨-, -, h⟩ <;> rw [h]
  · exact ⟨[.onPace], by simp⟩
  · exact ⟨[.fellBehind now l.c.complete], by simp⟩
  · exact ⟨[], by simp⟩

theorem lastClock_usecToNextSend (S : Setting) (now : Micros) (l : Local) :
    lastClock (usecToNextSend S now l).2.history = some (now : ℕ) := by
  obtain ⟨noted, h, rfl | rfl | rfl⟩ := usecToNextSend_history S now l <;>
    simp [h, lastClock]

/-- `usec_to_next_send` returns zero exactly when a send is permitted. -/
theorem usecToNextSend_eq_zero_iff (S : Setting) (now : Micros) (l : Local) :
    (usecToNextSend S now l).1 = 0 ↔ Permits S now (usecToNextSend S now l).2.c := by
  constructor
  · intro hzero
    rcases lt_or_ge (now : ℕ) (planned S l.c) with hlt | hle
    · rw [usecToNextSend_of_lt hlt] at hzero
      simp only at hzero
      omega
    · refine ⟨planned_usecToNextSend.trans_le hle, ?_, ?_⟩ <;> rw [usecToNextSend_of_le hle] at *
      · exact fallBehind_caughtUp
      · exact Nat.sub_eq_zero_iff_le.mp hzero
  · rintro ⟨hplanned, -, hcaughtUp⟩
    rw [planned_usecToNextSend] at hplanned
    rw [usecToNextSend_of_le hplanned] at hcaughtUp ⊢
    exact Nat.sub_eq_zero_iff_le.mpr hcaughtUp

/-- The wait that `usec_to_next_send` asks for ends when the plan that holds the send back
    permits it. -/
theorem usecToNextSend_add (S : Setting) (now : Micros) (l : Local)
    (h : (usecToNextSend S now l).1 ≠ 0) : now + (usecToNextSend S now l).1 =
      if now < planned S l.c then planned S l.c
      else caughtUpPlanned S (usecToNextSend S now l).2.c := by
  rcases lt_or_ge (now : ℕ) (planned S l.c) with hlt | hle
  · rw [if_pos hlt, usecToNextSend_of_lt hlt]
    exact Nat.add_sub_cancel' hlt.le
  · rw [if_neg (not_lt.mpr hle)]
    rw [usecToNextSend_of_le hle] at h ⊢
    simp only at h ⊢
    omega

end Wrkx
