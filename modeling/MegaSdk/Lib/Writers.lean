import Mathlib.Data.List.Basic

/-!
# Writers

Functions that change a state and may fail, of which each adds items to what the state has so
far. That a writer adds certain items is stated relative to a view of the state as a list of
items in some context, and is closed under sequences, choices and loops.
-/

namespace Writers

universe u v w x
variable {State : Type u} {Item : Type v} {α : Type w} {Context : Type x}

abbrev Writer (State : Type u) := State → Option State

/-- From any state that shows `items` in a context, the writer comes to one that shows `more`
behind them in this context. -/
def Adds (View : Context → List Item → State → Prop) (write : Writer State) (more : List Item) :
    Prop :=
  ∀ context items s, View context items s →
    ∃ s', write s = some s' ∧ View context (items ++ more) s'

def each (xs : List α) (body : α → Writer State) : Writer State := fun s =>
  xs.foldlM (fun s x => body x s) s

/-- An `if` without an `else`. -/
def only (c : Prop) [Decidable c] (write : Writer State) : Writer State := if c then write else some

variable {View : Context → List Item → State → Prop} {write next : Writer State} {xs ys : List Item}

theorem adds_nothing : Adds View some [] := by
  intro context items s view
  exact ⟨s, rfl, by rwa [List.append_nil]⟩

/-- One writer after the other. -/
theorem Adds.then (first : Adds View write xs) (second : Adds View next ys) :
    Adds View (write >=> next) (xs ++ ys) := by
  intro context items s view
  obtain ⟨s', wrote, between⟩ := first context items s view
  obtain ⟨s'', wrote', after⟩ := second context (items ++ xs) s' between
  refine ⟨s'', ?_, by rwa [← List.append_assoc]⟩
  show (write s).bind next = some s''
  rw [wrote]
  exact wrote'

theorem adds_each {body : α → Writer State} {part : α → List Item} {list : List α}
    (adds : ∀ x ∈ list, Adds View (body x) (part x)) :
    Adds View (each list body) (list.flatMap part) := by
  induction list with
  | nil => exact adds_nothing
  | cons x list ih =>
    obtain ⟨first, others⟩ := List.forall_mem_cons.mp adds
    have both := first.then (ih others)
    rwa [List.flatMap_cons]

def AddsGood (Good : Item → Prop) (View : Context → List Item → State → Prop)
    (write : Writer State) : Prop :=
  ∃ xs, (∀ x ∈ xs, Good x) ∧ Adds View write xs

variable {Good : Item → Prop}

theorem AddsGood.of_adds {x : Item} (good : Good x) (adds : Adds View write [x]) :
    AddsGood Good View write :=
  ⟨[x], by rwa [List.forall_mem_singleton], adds⟩

theorem addsGood_nothing : AddsGood Good View (some : Writer State) :=
  ⟨[], fun _ mem => absurd mem List.not_mem_nil, adds_nothing⟩

theorem AddsGood.then (first : AddsGood Good View write) (second : AddsGood Good View next) :
    AddsGood Good View (write >=> next) := by
  obtain ⟨xs, good, adds⟩ := first
  obtain ⟨ys, good', adds'⟩ := second
  exact ⟨xs ++ ys, List.forall_mem_append.mpr ⟨good, good'⟩, adds.then adds'⟩

theorem addsGood_each {body : α → Writer State} {list : List α}
    (adds : ∀ x ∈ list, AddsGood Good View (body x)) : AddsGood Good View (each list body) := by
  induction list with
  | nil => exact addsGood_nothing
  | cons x list ih =>
    obtain ⟨first, others⟩ := List.forall_mem_cons.mp adds
    exact first.then (ih others)

theorem addsGood_only {c : Prop} [Decidable c] (adds : c → AddsGood Good View write) :
    AddsGood Good View (only c write) := by
  rw [only]
  by_cases holds : c
  · rw [if_pos holds]
    exact adds holds
  · rw [if_neg holds]
    exact addsGood_nothing

end Writers
