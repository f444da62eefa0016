import Mathlib.Data.PEquiv
import Mathlib.Logic.Function.Basic

/-!
# Mutual pointers

Two partial maps that are meant to be inverse to each other, as the two pointers of an
association between objects. `Paired` maps are a partial equivalence; the lemmas say
which single writes keep them paired, and exactly when an attachment does.
-/

namespace PairedPointers

universe u v
variable {α : Type u} {β : Type v}

def Paired (left : α → Option β) (right : β → Option α) : Prop :=
  ∀ a b, left a = some b ↔ right b = some a

def Paired.toPEquiv {left : α → Option β} {right : β → Option α} (paired : Paired left right) :
    α ≃. β where
  toFun := left
  invFun := right
  inv := fun a b => (paired a b).symm

section Writes
variable {left : α → Option β} {right : β → Option α}

/-- No two sources share a target. -/
theorem Paired.inj (paired : Paired left right) {a a' : α} {b : β} (first : left a = some b)
    (second : left a' = some b) : a = a' :=
  paired.toPEquiv.inj first second

variable [DecidableEq α] [DecidableEq β]

/-- Clearing the pointer back from the target of `a`, if it has one. -/
def clearTarget (right : β → Option α) : Option β → β → Option α
  | none => right
  | some b => Function.update right b none

/-- Clearing both pointers of `a`. -/
theorem Paired.detach (paired : Paired left right) (a : α) :
    Paired (Function.update left a none) (clearTarget right (left a)) := by
  intro x y
  cases target : left a with
  | none =>
    by_cases same : x = a
    · subst same
      rw [Function.update_self]
      refine ⟨fun impossible => (by cases impossible), fun back => ?_⟩
      rw [(paired x y).mpr back] at target
      cases target
    · rw [Function.update_of_ne same]
      exact paired x y
  | some b =>
    have back := (paired a b).mp target
    by_cases same : x = a
    · subst same
      rw [Function.update_self]
      refine ⟨fun impossible => (by cases impossible), fun kept => ?_⟩
      rw [clearTarget] at kept
      by_cases hit : y = b
      · subst hit
        rw [Function.update_self] at kept
        cases kept
      · rw [Function.update_of_ne hit] at kept
        rw [(paired x y).mpr kept, Option.some.injEq] at target
        exact absurd target hit
    · rw [Function.update_of_ne same, clearTarget, paired x y]
      by_cases hit : y = b
      · subst hit
        rw [Function.update_self, back]
        simpa using fun eq => same eq.symm
      · rw [Function.update_of_ne hit]

/-- Attaching `a` to `b` after clearing the old target of `a` keeps the pointers paired exactly
if `b` was free or already belonged to `a`. -/
theorem Paired.attach_iff (paired : Paired left right) (a : α) (b : β) :
    Paired (Function.update left a (some b))
        (Function.update (clearTarget right (left a)) b (some a)) ↔
      right b = none ∨ right b = some a := by
  constructor
  · intro attached
    cases owner : right b with
    | none => exact .inl rfl
    | some x =>
      by_cases same : x = a
      · exact .inr (by rw [same])
      · have kept := (attached x b).mp
          (by rw [Function.update_of_ne same]; exact (paired x b).mpr owner)
        rw [Function.update_self, Option.some.injEq] at kept
        exact absurd kept.symm same
  · intro free x y
    have detached := paired.detach a x y
    by_cases same : x = a
    · subst same
      rw [Function.update_self, Option.some.injEq]
      by_cases hit : y = b
      · subst hit
        simp
      · rw [Function.update_of_ne hit, ← detached, Function.update_self]
        exact ⟨fun eq => absurd eq.symm hit, fun impossible => (by cases impossible)⟩
    · rw [Function.update_of_ne same]
      rw [Function.update_of_ne same] at detached
      by_cases hit : y = b
      · subst hit
        rw [Function.update_self]
        constructor
        · intro points
          rcases free with none | owned
          · rw [(paired x y).mp points] at none
            cases none
          · rw [(paired x y).mp points] at owned
            exact owned.symm
        · intro eq
          exact absurd (Option.some.inj eq).symm same
      · rw [Function.update_of_ne hit]
        exact detached

omit [DecidableEq α] in
/-- Clearing only the pointer back from `b` is harmless exactly if there was none. -/
theorem Paired.drop_iff (paired : Paired left right) (b : β) :
    Paired left (Function.update right b none) ↔ right b = none := by
  constructor
  · intro dropped
    cases owner : right b with
    | none => rfl
    | some a =>
      have kept := (dropped a b).mp ((paired a b).mpr owner)
      rw [Function.update_self] at kept
      cases kept
  · intro free
    rwa [← free, Function.update_eq_self]

end Writes

end PairedPointers
