import Wrkx.Connection.Shape

/-!
# What a TCP connection carried

The bytes accepted on a TCP connection, the responses that came back on it and the timers that
were armed on it, as they can be read off a history.
-/

namespace Wrkx

open History

/-! ## Reading a history -/

/-- The bytes an entry says were accepted on a TCP connection. -/
def Obs.acceptedOn (n : ℕ) : Obs → Bytes
  | .wrote tcp _ _ bytes => if tcp = n then bytes else []
  | _ => []

/-- The bytes accepted on a TCP connection. -/
def stream (n : ℕ) : List Obs → Bytes
  | [] => []
  | o :: older => stream n older ++ o.acceptedOn n

/-- The time of a response. -/
def Obs.completedAt : Obs → Option ℕ
  | .complete _ now _ => some now
  | _ => none

/-- The TCP connection of a response. -/
def Obs.completedOn : Obs → Option ℕ
  | .complete n _ _ => some n
  | _ => none

/-- The TCP connection of a batch start. -/
def Obs.startedOn : Obs → Option ℕ
  | .batchStart n _ _ => some n
  | _ => none

/-- What `--c->pending` found. -/
def Obs.decremented : Obs → Option ℕ
  | .decrement _ pending => some pending
  | _ => none

/-- What `script_request` returned. -/
def Obs.requested : Obs → Option Bytes
  | .request bytes => some bytes
  | _ => none

/-- The time event that found a send due, and the TCP connection it was for. -/
def Obs.resumedOn : Obs → Option (ℕ × ℕ)
  | .resumed id n _ => some (id, n)
  | _ => none

/-- A call of `sock.write` that accepted bytes of a request from an offset on. -/
structure Write where
  tcp : ℕ
  offset : ℕ
  request : Bytes
  accepted : Bytes

def Obs.writes : Obs → Option Write
  | .wrote tcp offset r bytes => some ⟨tcp, offset, r, bytes⟩
  | _ => none

def Obs.completes (n : ℕ) : Obs → Bool
  | .complete tcp _ _ => decide (tcp = n)
  | _ => false

/-- The responses that came back on a TCP connection. -/
def answered (n : ℕ) (h : List Obs) : ℕ := h.countP (·.completes n)

def Obs.decrements (n : ℕ) : Obs → Bool
  | .decrement tcp _ => decide (tcp = n)
  | _ => false

/-- The responses of a TCP connection that `--c->pending` was executed for. -/
def counted (n : ℕ) (h : List Obs) : ℕ := h.countP (·.decrements n)

def Obs.begins (n : ℕ) : Obs → Bool
  | .wrote tcp offset _ bytes => decide (tcp = n ∧ offset = 0 ∧ bytes ≠ [])
  | _ => false

/-- The batches of a TCP connection that at least one byte was accepted of. -/
def begun (n : ℕ) (h : List Obs) : ℕ := h.countP (·.begins n)

/-- The request that an entry says was begun on a TCP connection. -/
def Obs.startsOn (n : ℕ) : Obs → List Bytes
  | .wrote tcp offset r bytes => if tcp = n ∧ offset = 0 ∧ bytes ≠ [] then [r] else []
  | _ => []

/-- The requests that were begun on a TCP connection. -/
def starts (n : ℕ) : List Obs → List Bytes
  | [] => []
  | o :: older => starts n older ++ o.startsOn n

/-- The last batch that was started on a TCP connection is written whole. -/
def writtenWhole (n : ℕ) : List Obs → Bool
  | [] => false
  | .finished tcp :: older => if tcp = n then true else writtenWhole n older
  | .batchStart tcp _ _ :: older => if tcp = n then false else writtenWhole n older
  | _ :: older => writtenWhole n older

section Reading

variable {n : ℕ} {h noted : List Obs}

theorem stream_append_of_none (hnoted : ∀ o ∈ noted, o.acceptedOn n = []) :
    stream n (noted ++ h) = stream n h := by
  induction noted with
  | nil => rfl
  | cons o noted ih =>
    rw [List.cons_append, stream, hnoted o (by simp), List.append_nil]
    exact ih fun o ho => hnoted o (by simp [ho])

theorem starts_append_of_none (hnoted : ∀ o ∈ noted, o.startsOn n = []) :
    starts n (noted ++ h) = starts n h := by
  induction noted with
  | nil => rfl
  | cons o noted ih =>
    rw [List.cons_append, starts, hnoted o (by simp), List.append_nil]
    exact ih fun o ho => hnoted o (by simp [ho])

theorem startsOn_eq_nil {o : Obs} (ho : o.begins n = false) : o.startsOn n = [] := by
  cases o with
  | wrote => exact if_neg (of_decide_eq_false ho)
  | _ => rfl

theorem answered_append_of_none (hnoted : ∀ o ∈ noted, o.completes n = false) :
    answered n (noted ++ h) = answered n h := by
  rw [answered, List.countP_append, answered, Nat.add_eq_right, List.countP_eq_zero]
  simpa using hnoted

theorem counted_append_of_none (hnoted : ∀ o ∈ noted, o.decrements n = false) :
    counted n (noted ++ h) = counted n h := by
  rw [counted, List.countP_append, counted, Nat.add_eq_right, List.countP_eq_zero]
  simpa using hnoted

theorem begun_append_of_none (hnoted : ∀ o ∈ noted, o.begins n = false) :
    begun n (noted ++ h) = begun n h := by
  rw [begun, List.countP_append, begun, Nat.add_eq_right, List.countP_eq_zero]
  simpa using hnoted

/-- An entry about another TCP connection or about none. -/
def Elsewhere (n : ℕ) (o : Obs) : Prop := o.tcp ≠ some n

theorem Elsewhere.of_none {o : Obs} (ho : o.tcp = none) : Elsewhere n o := by
  simp [Elsewhere, ho]

theorem Elsewhere.acceptedOn {o : Obs} (ho : Elsewhere n o) : o.acceptedOn n = [] := by
  cases o with
  | wrote tcp => exact if_neg fun heq => ho (congrArg some heq)
  | _ => rfl

theorem Elsewhere.completes {o : Obs} (ho : Elsewhere n o) : o.completes n = false := by
  cases o with
  | complete tcp => exact decide_eq_false fun heq => ho (congrArg some heq)
  | _ => rfl

theorem Elsewhere.decrements {o : Obs} (ho : Elsewhere n o) : o.decrements n = false := by
  cases o with
  | decrement tcp => exact decide_eq_false fun heq => ho (congrArg some heq)
  | _ => rfl

theorem Elsewhere.begins {o : Obs} (ho : Elsewhere n o) : o.begins n = false := by
  cases o with
  | wrote tcp => exact decide_eq_false fun h => ho (congrArg some h.1)
  | _ => rfl

theorem Elsewhere.writtenWhole {o : Obs} (ho : Elsewhere n o) :
    writtenWhole n (o :: h) = Wrkx.writtenWhole n h := by
  cases o with
  | finished tcp => exact if_neg fun heq => ho (congrArg some heq)
  | batchStart tcp => exact if_neg fun heq => ho (congrArg some heq)
  | _ => rfl

theorem writtenWhole_append (hnoted : ∀ o ∈ noted, Elsewhere n o) :
    writtenWhole n (noted ++ h) = writtenWhole n h := by
  induction noted with
  | nil => rfl
  | cons o noted ih =>
    rw [List.cons_append, (hnoted o (by simp)).writtenWhole]
    exact ih fun o ho => hnoted o (by simp [ho])

/-- Nothing was written, answered or finished on a TCP connection that no entry is about. -/
theorem stream_eq_nil (hh : ∀ o ∈ h, Elsewhere n o) : stream n h = [] := by
  simpa [stream] using stream_append_of_none (h := []) fun o ho => (hh o ho).acceptedOn

theorem counted_eq_zero (hh : ∀ o ∈ h, Elsewhere n o) : counted n h = 0 := by
  simpa [counted] using counted_append_of_none (h := []) fun o ho => (hh o ho).decrements

theorem starts_eq_nil (hh : ∀ o ∈ h, Elsewhere n o) : starts n h = [] := by
  simpa [starts] using starts_append_of_none (h := []) fun o ho => startsOn_eq_nil (hh o ho).begins

theorem begun_eq_zero (hh : ∀ o ∈ h, Elsewhere n o) : begun n h = 0 := by
  simpa [begun] using begun_append_of_none (h := []) fun o ho => (hh o ho).begins

theorem writtenWhole_eq_false (hh : ∀ o ∈ h, Elsewhere n o) : writtenWhole n h = false := by
  simpa [writtenWhole] using writtenWhole_append (h := []) hh

end Reading

end Wrkx
