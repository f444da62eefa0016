import Mathlib.Data.List.Basic

/-!
# Runs of event-driven systems

A system is a total step function on states and events; the environment's
choices are part of the event. A run is a list of events, a condition on steps
may look at the state before the step, and an invariant kept by every step that
meets the condition holds after every run whose steps all meet it.
-/

namespace Runs

universe u v
variable {State : Type u} {Event : Type v}

def run (step : State → Event → State) (s : State) (events : List Event) : State :=
  events.foldl step s

/-- Every step of the run meets `cond` in the state in which it is taken. -/
def Meets (step : State → Event → State) (cond : State → Event → Prop) :
    State → List Event → Prop
  | _, [] => True
  | s, e :: rest => cond s e ∧ Meets step cond (step s e) rest

instance decidableMeets (step : State → Event → State) (cond : State → Event → Prop)
    [∀ s e, Decidable (cond s e)] : ∀ s events, Decidable (Meets step cond s events)
  | _, [] => isTrue trivial
  | s, e :: rest =>
    have := decidableMeets step cond (step s e) rest
    inferInstanceAs (Decidable (cond s e ∧ Meets step cond (step s e) rest))

variable {step : State → Event → State} {cond : State → Event → Prop}

@[simp] theorem run_nil (s : State) : run step s [] = s := rfl

@[simp] theorem run_cons (s : State) (e : Event) (rest : List Event) :
    run step s (e :: rest) = run step (step s e) rest := rfl

/-- A condition on events alone is met in whatever states they occur. -/
theorem meets_of_forall {ok : Event → Prop} {events : List Event} (all : ∀ e ∈ events, ok e)
    (s : State) : Meets step (fun _ e => ok e) s events := by
  induction events generalizing s with
  | nil => exact trivial
  | cons e rest ih =>
    obtain ⟨first, others⟩ := List.forall_mem_cons.mp all
    exact ⟨first, ih others (step s e)⟩

/-- The invariant rule: one step lemma gives the whole run. -/
theorem run_invariant (Inv : State → Prop)
    (keeps : ∀ s e, Inv s → cond s e → Inv (step s e)) {s : State} (start : Inv s)
    {events : List Event} (meets : Meets step cond s events) : Inv (run step s events) := by
  induction events generalizing s with
  | nil => exact start
  | cons e rest ih => exact ih (keeps s e start meets.1) meets.2

/-- The property holds in every state of the run, the first and the last included. -/
def Always (step : State → Event → State) (Inv : State → Prop) : State → List Event → Prop
  | s, [] => Inv s
  | s, e :: rest => Inv s ∧ Always step Inv (step s e) rest

/-- The invariant rule for every state of the run. -/
theorem always_of_meets {Inv : State → Prop}
    (keeps : ∀ s e, Inv s → cond s e → Inv (step s e)) {s : State} (start : Inv s)
    {events : List Event} (meets : Meets step cond s events) : Always step Inv s events := by
  induction events generalizing s with
  | nil => exact start
  | cons e rest ih => exact ⟨start, ih (keeps s e start meets.1) meets.2⟩

/-- The invariant rule for steps that keep the invariant unconditionally. -/
theorem always_of_step {Inv : State → Prop} (keeps : ∀ s e, Inv s → Inv (step s e)) {s : State}
    (start : Inv s) (events : List Event) : Always step Inv s events := by
  induction events generalizing s with
  | nil => exact start
  | cons e rest ih => exact ⟨start, ih (keeps s e start)⟩

theorem Always.mono {Inv Weaker : State → Prop} (implies : ∀ s, Inv s → Weaker s) {s : State}
    {events : List Event} (always : Always step Inv s events) : Always step Weaker s events := by
  induction events generalizing s with
  | nil => exact implies s always
  | cons e rest ih => exact ⟨implies s always.1, ih always.2⟩

theorem Always.start {Inv : State → Prop} {s : State} {events : List Event}
    (always : Always step Inv s events) : Inv s := by
  cases events with
  | nil => exact always
  | cons => exact always.1

theorem Always.next {Inv : State → Prop} {s : State} {e : Event} {rest : List Event}
    (always : Always step Inv s (e :: rest)) : Inv (step s e) := always.2.start

/-- What always holds holds at the end. -/
theorem Always.at_end {Inv : State → Prop} {s : State} {events : List Event}
    (always : Always step Inv s events) : Inv (run step s events) := by
  induction events generalizing s with
  | nil => exact always
  | cons e rest ih => exact ih always.2

/-- What always holds holds after every part of the run. -/
theorem always_iff_parts {Inv : State → Prop} {s : State} {events : List Event} :
    Always step Inv s events ↔
      ∀ done rest, events = done ++ rest → Inv (run step s done) := by
  induction events generalizing s with
  | nil =>
    constructor
    · intro start done rest split
      obtain ⟨rfl, -⟩ := List.append_eq_nil_iff.mp split.symm
      exact start
    · exact fun each => each [] [] rfl
  | cons e tail ih =>
    constructor
    · rintro ⟨start, more⟩ done rest split
      cases done with
      | nil => exact start
      | cons first done =>
        obtain ⟨rfl, rfl⟩ := List.cons.inj split
        exact ih.mp more done rest rfl
    · intro each
      exact ⟨each [] (e :: tail) rfl,
        ih.mpr fun done rest split => each (e :: done) rest (congrArg (e :: ·) split)⟩

/-- The exact invariant rule: a run keeps a property exactly if all its steps meet `cond`, where
`cond` is enough to keep a stronger invariant and needed to keep the property. -/
theorem always_iff_meets_of {Inv Weaker : State → Prop} (weaker : ∀ s, Inv s → Weaker s)
    (keeps : ∀ s e, Inv s → cond s e → Inv (step s e))
    (needs : ∀ s e, Inv s → Weaker (step s e) → cond s e) {s : State} (start : Inv s)
    (events : List Event) : Always step Weaker s events ↔ Meets step cond s events := by
  induction events generalizing s with
  | nil => exact ⟨fun _ => trivial, fun _ => weaker s start⟩
  | cons e rest ih =>
    constructor
    · rintro ⟨_, always⟩
      have meets := needs s e start always.start
      exact ⟨meets, (ih (keeps s e start meets)).mp always⟩
    · rintro ⟨meets, rest_meets⟩
      exact ⟨weaker s start, (ih (keeps s e start meets)).mpr rest_meets⟩

/-- Two conditions that agree in the states of an invariant are met by the same runs. -/
theorem meets_iff_meets {Inv : State → Prop} {ok : Event → Prop} {other : State → Event → Prop}
    (agree : ∀ s e, Inv s → ok e → (cond s e ↔ other s e))
    (keeps : ∀ s e, Inv s → ok e → other s e → Inv (step s e)) {s : State} (start : Inv s)
    {events : List Event} (each : ∀ e ∈ events, ok e) :
    Meets step cond s events ↔ Meets step other s events := by
  induction events generalizing s with
  | nil => exact Iff.rfl
  | cons e rest ih =>
    obtain ⟨first, others⟩ := List.forall_mem_cons.mp each
    have here := agree s e start first
    constructor
    · rintro ⟨meets, more⟩
      have next := keeps s e start first (here.mp meets)
      exact ⟨here.mp meets, (ih next others).mp more⟩
    · rintro ⟨meets, more⟩
      have next := keeps s e start first meets
      exact ⟨here.mpr meets, (ih next others).mpr more⟩

/-- If a step from a good state leads to a good state exactly under `cond`, then a run stays good
exactly if all its steps meet `cond`. -/
theorem always_iff_meets {Inv : State → Prop}
    (exact_step : ∀ s e, Inv s → (Inv (step s e) ↔ cond s e)) {s : State} (start : Inv s)
    (events : List Event) : Always step Inv s events ↔ Meets step cond s events :=
  always_iff_meets_of (fun _ good => good) (fun s e good => (exact_step s e good).mpr)
    (fun s e good => (exact_step s e good).mp) start events

end Runs
