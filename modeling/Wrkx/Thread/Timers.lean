import Wrkx.Connection.State

/-!
# The timers of a thread

`calibrate`, `check_timeouts` and `sample_rate` of `wrk.c`. Each returns a delay in
milliseconds after which it runs again, or `none` for `AE_NOMORE`.
-/

namespace Wrkx

open Word

/-- `CALIBRATE_DELAY_MS`. -/
def calibrateDelayMs : ℕ := 10000

/-- `TIMEOUT_INTERVAL_MS`. -/
def timeoutIntervalMs : ℕ := 2000

/-- `calibrate`; `none` when an assertion fails. `started` and `armed` are the readings for
    `thread->start` and for the new time event. -/
def calibrate (S : Setting) (started armed : Micros) (t : Thread) :
    Option (Option ℕ × Thread) := do
  let mean ← hdrMean t.latencyHistogram
  let percentile ← hdrValueAtPercentile t.latencyHistogram 90
  let latency : ℚ := percentile / 1000
  let interval : ℕ := max ⌊latency * 2⌋₊ 10
  if mean = some 0 then
    some (some calibrateDelayMs, t)
  else
    some (none, { t with
      mean := match mean with
        | none => S.nan
        | some mean => ⌊mean⌋₊
      latencyHistogram := hdrReset t.latencyHistogram
      uLatencyHistogram := hdrReset t.uLatencyHistogram
      start := started
      interval
      requests := 0
      loop := aeCreateTimeEvent t.loop armed interval .sampleRate
      calls := .calibrated :: t.calls })

/-- The age test of `check_timeouts`, for the `c->start` of each connection. -/
def countTimeouts (S : Setting) (now : ℕ) (starts : List ℕ) : ℕ :=
  starts.countP fun start => start < sub64 now (S.cfg.timeout * 1000)

/-- `check_timeouts`; `interrupted` is the flag `stop` that the signal handler sets. -/
def checkTimeouts (S : Setting) (now : Micros) (interrupted : Bool) (starts : List ℕ)
    (t : Thread) : ℕ × Thread :=
  let t := { t with
    errors := { t.errors with timeout := t.errors.timeout.add (countTimeouts S now starts) } }
  let t := if interrupted ∨ t.stopAt ≤ now.val then { t with loop := aeStop t.loop } else t
  (timeoutIntervalMs, t)

/-- `sample_rate`: the rate given to `stats_record` (`none` for a division by zero), the delay
    and the thread. -/
def sampleRate (now started : Micros) (t : Thread) : Option ℕ × ℕ × Thread :=
  let elapsedMs := sub64 now t.start / 1000
  let requests := if elapsedMs = 0 then none else some ⌊(t.requests : ℚ) / elapsedMs * 1000⌋₊
  (requests, t.interval, { t with requests := 0, start := started, calls := .sampled :: t.calls })

/-! ## Time events -/

/-- A timer of the thread with the readings of the clock it makes. -/
inductive TimerCall
  | calibrate (started armed : Micros)
  | checkTimeouts (now : Micros) (interrupted : Bool)
  | sampleRate (now started : Micros)

def TimerCall.proc : TimerCall → TimeProc
  | .calibrate .. => .calibrate
  | .checkTimeouts .. => .checkTimeouts
  | .sampleRate .. => .sampleRate

/-- What a timer of the thread returns, and the thread after it. -/
def TimerCall.call (S : Setting) (starts : List ℕ) (t : Thread) :
    TimerCall → Option (Option ℕ × Thread)
  | .calibrate started armed => Wrkx.calibrate S started armed t
  | .checkTimeouts now interrupted =>
    let (ms, t) := Wrkx.checkTimeouts S now interrupted starts t
    some (some ms, t)
  | .sampleRate now started =>
    let (_, ms, t) := Wrkx.sampleRate now started t
    some (some ms, t)

/-- What `processTimeEvents` does with what a time event returned. -/
def aeFinishTimeEvent (loop : EventLoop) (id : ℕ) (rearm : Micros) : Option ℕ → EventLoop
  | none => aeDeleteTimeEvent loop id
  | some ms => aeRearmTimeEvent loop id rearm ms

end Wrkx
