import Mathlib.Logic.Relation

/-!
# Runs

A machine is a partial function from an event and a state to the next state. `run` lets it
take the events of a list one after another. What holds of every run is proved by showing
that one event preserves it, or that each of the smaller acts an event is made of does.

## Main results

- `run_preserves` — what every event preserves holds after every run
- `reflTransGen_of_run` — a run is a chain of the acts its events are made of
- `states_preserves_of`, `trace_of_states` — a property of all states and a condition on all
  events
-/

namespace Run

variable {σ ε : Type*} {step : ε → σ → Option σ} {act : σ → σ → Prop} {P : σ → Prop} {s s' : σ}

/-- The state after the events of a list; `none` when one of them cannot happen. -/
def run (step : ε → σ → Option σ) : List ε → σ → Option σ
  | [], s => some s
  | event :: rest, s => (step event s).bind (run step rest)

theorem run_cons {event : ε} {rest : List ε} (h : run step (event :: rest) s = some s') :
    ∃ t, step event s = some t ∧ run step rest t = some s' :=
  Option.bind_eq_some_iff.mp h

/-- What every event preserves holds after every run. -/
theorem run_preserves (hstep : ∀ event s s', step event s = some s' → P s → P s')
    {events : List ε} (h : run step events s = some s') (hs : P s) : P s' := by
  induction events generalizing s with
  | nil =>
    obtain rfl : s = s' := Option.some.inj h
    exact hs
  | cons event rest ih =>
    obtain ⟨t, hfirst, hrest⟩ := run_cons h
    exact ih hrest (hstep event s t hfirst hs)

/-- What every act preserves holds after every chain of acts. -/
theorem preserves_of_reflTransGen (hact : ∀ s s', act s s' → P s → P s')
    (h : Relation.ReflTransGen act s s') (hs : P s) : P s' := by
  induction h with
  | refl => exact hs
  | tail _ hlast ih => exact hact _ _ hlast ih

/-- What every act preserves under a condition holds after every chain of acts that meets the
    condition in the end, if the condition holds of every earlier state with a later one. -/
theorem preserves_under {C : σ → Prop} (hC : ∀ s s', act s s' → C s' → C s)
    (hact : ∀ s s', act s s' → C s' → P s → P s')
    (h : Relation.ReflTransGen act s s') (hc : C s') (hs : P s) : P s' := by
  induction h with
  | refl => exact hs
  | tail _ hlast ih => exact hact _ _ hlast hc (ih (hC _ _ hlast hc))

/-- A run is a chain of the acts that its events are made of. What the acts preserve may be
    used to take the events apart. -/
theorem reflTransGen_of_run
    (hstep : ∀ event s s', step event s = some s' → P s → Relation.ReflTransGen act s s')
    (hact : ∀ s s', act s s' → P s → P s')
    {events : List ε} (h : run step events s = some s') (hs : P s) :
    Relation.ReflTransGen act s s' := by
  induction events generalizing s with
  | nil =>
    obtain rfl : s = s' := Option.some.inj h
    exact .refl
  | cons event rest ih =>
    obtain ⟨t, hfirst, hrest⟩ := run_cons h
    have hchain := hstep event s t hfirst hs
    exact hchain.trans (ih hrest (preserves_of_reflTransGen hact hchain hs))

/-- What every event preserves under a condition holds after every run that meets the condition
    in the end. -/
theorem run_preserves_under {C : σ → Prop} (hC : ∀ event s s', step event s = some s' → C s' → C s)
    (hstep : ∀ event s s', step event s = some s' → C s' → P s → P s')
    {events : List ε} (h : run step events s = some s') (hc : C s') (hs : P s) : P s' := by
  have hchain : Relation.ReflTransGen (fun s s' => ∃ event, step event s = some s') s s' :=
    reflTransGen_of_run (P := fun _ => True) (fun event _ _ h _ => .single ⟨event, h⟩)
      (fun _ _ _ _ => trivial) h trivial
  exact preserves_under (fun s s' ⟨event, h⟩ => hC event s s' h)
    (fun s s' ⟨event, h⟩ => hstep event s s' h) hchain hc hs

/-! ## Traces -/

/-- The events of a run, each with the state it happens in. -/
def trace (step : ε → σ → Option σ) : List ε → σ → List (σ × ε)
  | [], _ => []
  | event :: rest, s => (s, event) :: ((step event s).map (trace step rest)).getD []

theorem trace_cons {event : ε} {rest : List ε} {t : σ} (h : step event s = some t) :
    trace step (event :: rest) s = (s, event) :: trace step rest t := by
  simp [trace, h]

/-- A condition on the events of a trace, event by event. -/
theorem forall_trace_cons {C : σ → ε → Prop} {event : ε} {rest : List ε} {t : σ}
    (h : step event s = some t) (hfirst : C s event)
    (hrest : ∀ x ∈ trace step rest t, C x.1 x.2) :
    ∀ x ∈ trace step (event :: rest) s, C x.1 x.2 := by
  rw [trace_cons h]
  exact List.forall_mem_cons.mpr ⟨hfirst, hrest⟩

/-- What every event preserves under a condition holds in every state of a trace whose events
    all meet the condition. -/
theorem trace_preserves_of {C : σ → ε → Prop}
    (hstep : ∀ event s s', step event s = some s' → C s event → P s → P s')
    {events : List ε} (hs : P s) (hC : ∀ x ∈ trace step events s, C x.1 x.2) :
    ∀ x ∈ trace step events s, P x.1 := by
  induction events generalizing s with
  | nil => simp [trace]
  | cons event rest ih =>
    intro x hx
    cases hfirst : step event s with
    | none =>
      obtain rfl : x = (s, event) := by simpa [trace, hfirst] using hx
      exact hs
    | some t =>
      rw [trace_cons hfirst] at hx hC
      rcases List.mem_cons.mp hx with rfl | hx
      · exact hs
      · exact ih (hstep event s t hfirst (hC (s, event) (by simp)) hs)
          (fun y hy => hC y (by simp [hy])) x hx

/-- What every event preserves holds in every state of a trace. -/
theorem trace_preserves (hstep : ∀ event s s', step event s = some s' → P s → P s')
    {events : List ε} (hs : P s) : ∀ x ∈ trace step events s, P x.1 :=
  trace_preserves_of (C := fun _ _ => True) (fun event s s' h _ => hstep event s s' h) hs
    fun _ _ => trivial

/-- Two machines go through the same trace if they agree on the events that meet a condition and
    all events of one trace meet it. -/
theorem trace_congr {step' : ε → σ → Option σ} {C : σ → ε → Prop}
    (hagree : ∀ event s, C s event → step event s = step' event s)
    {events : List ε} (hC : ∀ x ∈ trace step events s, C x.1 x.2) :
    trace step' events s = trace step events s := by
  induction events generalizing s with
  | nil => rfl
  | cons event rest ih =>
    have hfirst := hagree event s (hC (s, event) (by simp [trace]))
    cases hnext : step event s with
    | none => simp [trace, ← hfirst, hnext]
    | some t =>
      rw [trace_cons hnext] at hC
      rw [trace_cons hnext, trace_cons (hfirst.symm.trans hnext),
        ih fun x hx => hC x (List.mem_cons_of_mem _ hx)]

/-! ## States -/

/-- Every state of a run, the first and the last one included. -/
def states (step : ε → σ → Option σ) : List ε → σ → List σ
  | [], s => [s]
  | event :: rest, s => s :: ((step event s).map (states step rest)).getD []

theorem states_cons {event : ε} {rest : List ε} {t : σ} (h : step event s = some t) :
    states step (event :: rest) s = s :: states step rest t := by
  simp [states, h]

theorem mem_states_self {events : List ε} : s ∈ states step events s := by
  cases events <;> simp [states]

theorem mem_states_of_run {events : List ε} (h : run step events s = some s') :
    s' ∈ states step events s := by
  induction events generalizing s with
  | nil =>
    obtain rfl : s = s' := Option.some.inj h
    exact mem_states_self
  | cons event rest ih =>
    obtain ⟨t, hfirst, hrest⟩ := run_cons h
    rw [states_cons hfirst]
    exact List.mem_cons_of_mem _ (ih hrest)

/-- What every event preserves under a condition holds in every state of a run whose events all
    meet the condition. -/
theorem states_preserves_of {C : σ → ε → Prop}
    (hstep : ∀ event s s', step event s = some s' → C s event → P s → P s')
    {events : List ε} (hs : P s) (hC : ∀ x ∈ trace step events s, C x.1 x.2) :
    ∀ t ∈ states step events s, P t := by
  induction events generalizing s with
  | nil => simpa [states] using hs
  | cons event rest ih =>
    intro u hu
    cases hfirst : step event s with
    | none =>
      obtain rfl : u = s := by simpa [states, hfirst] using hu
      exact hs
    | some t =>
      rw [trace_cons hfirst] at hC
      rw [states_cons hfirst] at hu
      rcases List.mem_cons.mp hu with rfl | hu
      · exact hs
      · exact ih (hstep event s t hfirst (hC (s, event) (by simp)) hs)
          (fun y hy => hC y (List.mem_cons_of_mem _ hy)) u hu

/-- The converse: if an event leads from a state with the property to one with the property only
    under the condition, then all events of a run meet it that keeps the property. -/
theorem trace_of_states {C : σ → ε → Prop}
    (hstep : ∀ event s, P s → (∀ s', step event s = some s' → P s') → C s event)
    {events : List ε} (hP : ∀ t ∈ states step events s, P t) :
    ∀ x ∈ trace step events s, C x.1 x.2 := by
  induction events generalizing s with
  | nil => simp [trace]
  | cons event rest ih =>
    have hnext : ∀ t, step event s = some t → ∀ u ∈ states step rest t, P u := by
      intro t ht u hu
      rw [states_cons ht] at hP
      exact hP u (List.mem_cons_of_mem _ hu)
    have hfirst : C s event :=
      hstep event s (hP s mem_states_self) fun t ht => hnext t ht t mem_states_self
    intro x hx
    cases ht : step event s with
    | none =>
      obtain rfl : x = (s, event) := by simpa [trace, ht] using hx
      exact hfirst
    | some t =>
      rw [trace_cons ht] at hx
      rcases List.mem_cons.mp hx with rfl | hx
      · exact hfirst
      · exact ih (hnext t ht) x hx

/-- A run goes through if every event happens in the states it can be in. -/
theorem run_total (hstep : ∀ event s, P s → ∃ s', step event s = some s' ∧ P s')
    (events : List ε) (hs : P s) : ∃ s', run step events s = some s' := by
  induction events generalizing s with
  | nil => exact ⟨s, rfl⟩
  | cons event rest ih =>
    obtain ⟨t, hfirst, ht⟩ := hstep event s hs
    obtain ⟨s', hrest⟩ := ih ht
    exact ⟨s', by simp [run, hfirst, hrest]⟩

/-- Every event of a run that goes through happens. -/
theorem trace_steps {events : List ε} (h : run step events s = some s') :
    ∀ x ∈ trace step events s, ∃ t, step x.2 x.1 = some t := by
  induction events generalizing s with
  | nil => simp [trace]
  | cons event rest ih =>
    obtain ⟨t, hfirst, hrest⟩ := run_cons h
    intro x hx
    rw [trace_cons hfirst] at hx
    rcases List.mem_cons.mp hx with rfl | hx
    · exact ⟨t, hfirst⟩
    · exact ih hrest x hx

end Run
