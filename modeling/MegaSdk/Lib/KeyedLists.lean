import Mathlib.Data.List.Sort

/-!
# Maps as lists of entries

A map that is iterated in the order of its keys, as the list of its entries. What an entry is found
by is its key; the lemmas are about lists in which no key occurs twice.
-/

namespace KeyedLists

universe u v w
variable {Key : Type u} {Value : Type v}

def keys (l : List (Key × Value)) : List Key := l.map Prod.fst

section Operations
variable [DecidableEq Key]

def find (k : Key) (l : List (Key × Value)) : Option Value :=
  (l.find? fun entry => entry.1 = k).map Prod.snd

def change (k : Key) (f : Value → Value) (l : List (Key × Value)) : List (Key × Value) :=
  l.map fun entry => if entry.1 = k then (entry.1, f entry.2) else entry

def erase (k : Key) (l : List (Key × Value)) : List (Key × Value) :=
  l.filter fun entry => entry.1 ≠ k

end Operations

/-- A new entry, before the first one with a key that is not less. -/
def place [LE Key] [DecidableLE Key] (k : Key) (value : Value) (l : List (Key × Value)) :
    List (Key × Value) :=
  l.orderedInsert (fun a b => a.1 ≤ b.1) (k, value)

theorem mem_keys {k : Key} {value : Value} {l : List (Key × Value)} (mem : (k, value) ∈ l) :
    k ∈ keys l := List.mem_map_of_mem mem

section Lemmas
variable [DecidableEq Key] {k other : Key} {value : Value} {f : Value → Value}
variable {l : List (Key × Value)}

theorem mem_of_find (found : find k l = some value) : (k, value) ∈ l := by
  obtain ⟨entry, here, rfl⟩ := Option.map_eq_some_iff.mp found
  have key : entry.1 = k := by simpa using List.find?_some here
  exact key ▸ List.mem_of_find?_eq_some here

theorem not_mem_of_find (found : find k l = none) : k ∉ keys l := by
  rw [find, Option.map_eq_none_iff, List.find?_eq_none] at found
  intro mem
  obtain ⟨entry, here, rfl⟩ := List.mem_map.mp mem
  exact found entry here (decide_eq_true rfl)

@[simp] theorem keys_change (k : Key) (f : Value → Value) (l : List (Key × Value)) :
    keys (change k f l) = keys l := by
  rw [keys, keys, change, List.map_map]
  refine List.map_congr_left fun entry _ => ?_
  rw [Function.comp_apply]
  split <;> rfl

theorem keys_erase (k : Key) (l : List (Key × Value)) : (keys (erase k l)).Sublist (keys l) :=
  List.filter_sublist.map Prod.fst

theorem mem_change :
    (other, value) ∈ change k f l ↔
      if other = k then ∃ old, (other, old) ∈ l ∧ value = f old else (other, value) ∈ l := by
  rw [change, List.mem_map]
  constructor
  · rintro ⟨entry, mem, same⟩
    split at same
    · rename_i here
      cases same
      rw [if_pos here]
      exact ⟨entry.2, mem, rfl⟩
    · rename_i apart
      cases same
      rwa [if_neg apart]
  · split
    · rename_i here
      rintro ⟨old, mem, rfl⟩
      exact ⟨(other, old), mem, if_pos here⟩
    · rename_i apart
      intro mem
      exact ⟨(other, value), mem, if_neg apart⟩

theorem mem_erase {entry : Key × Value} : entry ∈ erase k l ↔ entry ∈ l ∧ entry.1 ≠ k := by
  rw [erase, List.mem_filter, decide_eq_true_eq]

/-- An entry, and the list without it. -/
theorem perm_erase (nodup : (keys l).Nodup) (found : find k l = some value) :
    l.Perm ((k, value) :: erase k l) := by
  induction l with
  | nil => cases found
  | cons entry l ih =>
    rw [keys, List.map_cons, List.nodup_cons] at nodup
    by_cases here : entry.1 = k
    · rw [find, List.find?_cons, decide_eq_true here] at found
      cases found
      have alone : ∀ e ∈ l, e.1 ≠ entry.1 := fun e mem same => nodup.1 (same ▸ mem_keys mem)
      have rest : erase k l = l := List.filter_eq_self.mpr fun e mem =>
        decide_eq_true fun same => alone e mem (same.trans here.symm)
      rw [erase, List.filter_cons_of_neg (by simp [here]), ← erase, rest, ← here]
    · have later : find k l = some value := by
        rwa [find, List.find?_cons, decide_eq_false here] at found
      rw [erase, List.filter_cons_of_pos (by simp [here]), ← erase]
      exact ((ih nodup.2 later).cons entry).trans (List.Perm.swap _ _ _)

end Lemmas

section Place
variable [LE Key] [DecidableLE Key] {k : Key} {value : Value} {l : List (Key × Value)}

theorem perm_place (k : Key) (value : Value) (l : List (Key × Value)) :
    (place k value l).Perm ((k, value) :: l) :=
  List.perm_orderedInsert _ _ _

theorem mem_place {entry : Key × Value} :
    entry ∈ place k value l ↔ entry = (k, value) ∨ entry ∈ l := by
  rw [(perm_place k value l).mem_iff, List.mem_cons]

theorem nodup_place (nodup : (keys l).Nodup) (absent : k ∉ keys l) :
    (keys (place k value l)).Nodup := by
  have same : (keys (place k value l)).Perm (k :: keys l) := (perm_place k value l).map Prod.fst
  rw [same.nodup_iff, List.nodup_cons]
  exact ⟨absent, nodup⟩

end Place

/-- Visiting keys one after the other: each visit keeps the invariant, achieves what it is for, and
leaves what the other visits achieved. -/
theorem visit_all {State : Type u} {Fault : Type w} {visit : State → Key → Except Fault State}
    {Inv : State → Prop} {Done : State → Key → Prop}
    (keeps : ∀ s k s', Inv s → visit s k = .ok s' → Inv s')
    (does : ∀ s k s', Inv s → visit s k = .ok s' → Done s' k)
    (stays : ∀ s k s' other, Inv s → visit s k = .ok s' → other ≠ k → Done s other → Done s' other)
    {ks : List Key} {s s' : State} (start : Inv s) (ends : ks.foldlM visit s = .ok s') :
    Inv s' ∧ ∀ k, (k ∈ ks ∨ Done s k) → Done s' k := by
  induction ks generalizing s with
  | nil =>
    cases ends
    exact ⟨start, fun k here => here.resolve_left (List.not_mem_nil)⟩
  | cons first ks ih =>
    rw [List.foldlM_cons] at ends
    cases visited : visit s first with
    | error fault =>
      rw [visited] at ends
      cases ends
    | ok middle =>
      rw [visited] at ends
      obtain ⟨inv, done⟩ := ih (keeps s first middle start visited) ends
      refine ⟨inv, fun k here => done k ?_⟩
      have achieved := does s first middle start visited
      rcases here with listed | before
      · rcases List.mem_cons.mp listed with rfl | later
        · exact .inr achieved
        · exact .inl later
      · refine .inr ?_
        by_cases same : k = first
        · exact same ▸ achieved
        · exact stays s first middle k start visited same before

end KeyedLists
