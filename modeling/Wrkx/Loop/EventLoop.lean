import Mathlib.Data.Int.Notation
import Mathlib.Data.Nat.Notation
import Mathlib.Logic.Function.Basic

/-!
# The event loop

`ae.c` and `ae_epoll.c`: the file events of a loop, one entry for each descriptor number,
and its list of time events. The handlers are named by constructors of `FileProc` and
`TimeProc`.

## Design notes

`maxfd`, the fired array and the polling call are not kept: the calls that a loop can make
are those of the registered handlers, in any order. Time events that `processTimeEvents`
forces after a backward jump of the clock are those that a later reading makes due.
-/

namespace Wrkx

/-- A descriptor number. -/
abbrev Fd := ℕ

/-- A connection: entry `slot` of the array `cs` of a thread. -/
structure ConnId where
  thread : ℕ
  slot : ℕ
deriving DecidableEq

/-- The bits `AE_READABLE` and `AE_WRITABLE`. -/
structure Mask where
  readable : Bool
  writable : Bool
deriving DecidableEq

namespace Mask

/-- `AE_NONE`. -/
def none : Mask := ⟨false, false⟩

/-- `AE_READABLE`. -/
def read : Mask := ⟨true, false⟩

/-- `AE_WRITABLE`. -/
def write : Mask := ⟨false, true⟩

/-- `AE_READABLE | AE_WRITABLE`. -/
def both : Mask := ⟨true, true⟩

/-- `a | b`. -/
def union (a b : Mask) : Mask := ⟨a.readable || b.readable, a.writable || b.writable⟩

/-- `a & ~b`. -/
def diff (a b : Mask) : Mask := ⟨a.readable && !b.readable, a.writable && !b.writable⟩

end Mask

/-- The file event handlers of `wrk.c`. -/
inductive FileProc
  | socketConnected
  | socketWriteable
  | socketReadable
deriving DecidableEq

/-- `aeFileEvent`. -/
structure FileEvent where
  mask : Mask
  rfileProc : FileProc
  wfileProc : FileProc
  clientData : ConnId

/-- The time event handlers of `wrk.c`, with the connection they are given. -/
inductive TimeProc
  | delayedInitialConnect (c : ConnId)
  | delayRequest (c : ConnId)
  | calibrate
  | sampleRate
  | checkTimeouts
deriving DecidableEq

/-- The connection that a time event is about. -/
def TimeProc.conn : TimeProc → Option ConnId
  | .delayedInitialConnect c | .delayRequest c => some c
  | _ => none

/-- `aeTimeEvent`; `due` is `when_sec * 1000 + when_ms`. -/
structure TimeEvent where
  id : ℕ
  due : ℕ
  timeProc : TimeProc
deriving DecidableEq

/-- `aeEventLoop`. -/
structure EventLoop where
  setsize : ℕ
  timeEventNextId : ℕ
  events : Fd → FileEvent
  timeEvents : List TimeEvent
  stop : Bool

/-- `aeCreateEventLoop`. The handler fields of an event that is not set are never read. -/
def aeCreateEventLoop (setsize : ℕ) : EventLoop where
  setsize := setsize
  timeEventNextId := 0
  events := fun _ => ⟨.none, .socketConnected, .socketConnected, ⟨0, 0⟩⟩
  timeEvents := []
  stop := false

def aeStop (loop : EventLoop) : EventLoop := { loop with stop := true }

/-- `aeCreateFileEvent`; `none` for `AE_ERR`. `added` is the outcome of `epoll_ctl`. -/
def aeCreateFileEvent (loop : EventLoop) (added : Bool) (fd : Fd) (mask : Mask)
    (proc : FileProc) (clientData : ConnId) : Option EventLoop :=
  if loop.setsize ≤ fd then
    none
  else if !added then
    none
  else
    let fe := loop.events fd
    let fe : FileEvent :=
      { mask := fe.mask.union mask
        rfileProc := if mask.readable then proc else fe.rfileProc
        wfileProc := if mask.writable then proc else fe.wfileProc
        clientData }
    some { loop with events := Function.update loop.events fd fe }

def aeDeleteFileEvent (loop : EventLoop) (fd : Fd) (mask : Mask) : EventLoop :=
  let fe := loop.events fd
  if loop.setsize ≤ fd then
    loop
  else if fe.mask = .none then
    loop
  else
    { loop with events := Function.update loop.events fd { fe with mask := fe.mask.diff mask } }

/-- The time of a reading of the clock in milliseconds, as `aeGetTime` gives it. -/
def milliseconds (now : ℕ) : ℕ := now / 1000

/-- `aeAddMillisecondsToNow`. A time before zero is set to zero, which is as much in the past. -/
def aeAddMillisecondsToNow (now : ℕ) (ms : ℤ) : ℕ := (milliseconds now + ms).toNat

@[simp]
theorem aeAddMillisecondsToNow_natCast (now ms : ℕ) :
    aeAddMillisecondsToNow now ms = milliseconds now + ms := by
  rw [aeAddMillisecondsToNow, ← Int.natCast_add, Int.toNat_natCast]

def aeCreateTimeEvent (loop : EventLoop) (now : ℕ) (ms : ℤ) (proc : TimeProc) : EventLoop :=
  { loop with
    timeEventNextId := loop.timeEventNextId + 1
    timeEvents := ⟨loop.timeEventNextId, aeAddMillisecondsToNow now ms, proc⟩ :: loop.timeEvents }

/-- `aeDeleteTimeEvent`. Identifiers are not reused, so at most one entry has this one. -/
def aeDeleteTimeEvent (loop : EventLoop) (id : ℕ) : EventLoop :=
  { loop with timeEvents := loop.timeEvents.filter fun te => te.id ≠ id }

/-- What `processTimeEvents` does when a handler returns a delay in place of `AE_NOMORE`. -/
def aeRearmTimeEvent (loop : EventLoop) (id now : ℕ) (ms : ℤ) : EventLoop :=
  { loop with timeEvents := loop.timeEvents.map fun te =>
      if te.id = id then { te with due := aeAddMillisecondsToNow now ms } else te }

/-- A time event of the loop is due at a reading of the clock. -/
def EventLoop.IsDue (loop : EventLoop) (id now : ℕ) (proc : TimeProc) : Prop :=
  ∃ te ∈ loop.timeEvents, te.id = id ∧ te.timeProc = proc ∧ te.due ≤ milliseconds now

instance (loop : EventLoop) (id now : ℕ) (proc : TimeProc) : Decidable (loop.IsDue id now proc) :=
  inferInstanceAs (Decidable (∃ te ∈ loop.timeEvents, _))

/-- The loop holds a time event with this number and handler. -/
def EventLoop.Armed (loop : EventLoop) (id : ℕ) (proc : TimeProc) : Prop :=
  ∃ te ∈ loop.timeEvents, te.id = id ∧ te.timeProc = proc

namespace EventLoop

variable {loop : EventLoop} {id id' now : ℕ} {ms : ℤ} {proc proc' : TimeProc}

theorem IsDue.armed (h : loop.IsDue id now proc) : loop.Armed id proc := by
  obtain ⟨te, hte, hid, hproc, -⟩ := h
  exact ⟨te, hte, hid, hproc⟩

theorem armed_of_timeEvents {loop' : EventLoop} (h : loop'.timeEvents = loop.timeEvents) :
    loop'.Armed id proc ↔ loop.Armed id proc := by
  rw [Armed, Armed, h]

@[simp]
theorem armed_aeStop : (aeStop loop).Armed id proc ↔ loop.Armed id proc := Iff.rfl

@[simp]
theorem armed_aeCreateTimeEvent :
    (aeCreateTimeEvent loop now ms proc').Armed id proc ↔
      (loop.timeEventNextId = id ∧ proc' = proc) ∨ loop.Armed id proc := by
  simp [Armed, aeCreateTimeEvent]

@[simp]
theorem armed_aeDeleteTimeEvent :
    (aeDeleteTimeEvent loop id').Armed id proc ↔ loop.Armed id proc ∧ id ≠ id' := by
  constructor
  · rintro ⟨te, hte, rfl, rfl⟩
    obtain ⟨hmem, hne⟩ := List.mem_filter.mp hte
    exact ⟨⟨te, hmem, rfl, rfl⟩, by simpa using hne⟩
  · rintro ⟨⟨te, hte, rfl, rfl⟩, hne⟩
    exact ⟨te, List.mem_filter.mpr ⟨hte, by simpa using hne⟩, rfl, rfl⟩

@[simp]
theorem armed_aeRearmTimeEvent :
    (aeRearmTimeEvent loop id' now ms).Armed id proc ↔ loop.Armed id proc := by
  simp only [Armed, aeRearmTimeEvent, List.mem_map]
  constructor
  · rintro ⟨-, ⟨te, hte, rfl⟩, rfl, rfl⟩
    exact ⟨te, hte, by split <;> rfl, by split <;> rfl⟩
  · rintro ⟨te, hte, rfl, rfl⟩
    exact ⟨_, ⟨te, hte, rfl⟩, by split <;> rfl, by split <;> rfl⟩

/-! ## Numbers of time events -/

/-- The numbers of the armed time events were given out, each of them once. -/
structure Distinct (loop : EventLoop) : Prop where
  lt : ∀ id proc, loop.Armed id proc → id < loop.timeEventNextId
  unique : ∀ id proc proc', loop.Armed id proc → loop.Armed id proc' → proc = proc'

theorem Distinct.of_armed {loop' : EventLoop} (h : loop.Distinct)
    (harmed : ∀ id proc, loop'.Armed id proc → loop.Armed id proc)
    (hnext : loop.timeEventNextId ≤ loop'.timeEventNextId) : loop'.Distinct where
  lt id proc hproc := Nat.lt_of_lt_of_le (h.lt id proc (harmed id proc hproc)) hnext
  unique id proc proc' hproc hproc' :=
    h.unique id proc proc' (harmed id proc hproc) (harmed id proc' hproc')

theorem Distinct.aeCreateTimeEvent (h : loop.Distinct) :
    (aeCreateTimeEvent loop now ms proc).Distinct where
  lt id proc' harmed := by
    rcases armed_aeCreateTimeEvent.mp harmed with ⟨rfl, -⟩ | harmed
    · exact Nat.lt_succ_self _
    · exact Nat.lt_succ_of_lt (h.lt id proc' harmed)
  unique id proc₁ proc₂ h₁ h₂ := by
    rcases armed_aeCreateTimeEvent.mp h₁ with ⟨hid, rfl⟩ | h₁ <;>
      rcases armed_aeCreateTimeEvent.mp h₂ with ⟨hid', rfl⟩ | h₂
    · rfl
    · exact absurd (hid ▸ h.lt id _ h₂) (Nat.lt_irrefl _)
    · exact absurd (hid' ▸ h.lt id _ h₁) (Nat.lt_irrefl _)
    · exact h.unique id _ _ h₁ h₂

/-- Deleting a time event leaves those of other handlers. -/
theorem Distinct.armed_delete (h : loop.Distinct) (harmed : loop.Armed id' proc')
    (hne : proc ≠ proc') : (aeDeleteTimeEvent loop id').Armed id proc ↔ loop.Armed id proc := by
  rw [armed_aeDeleteTimeEvent, and_iff_left_iff_imp]
  rintro hproc rfl
  exact hne (h.unique id _ _ hproc harmed)

end EventLoop

end Wrkx
