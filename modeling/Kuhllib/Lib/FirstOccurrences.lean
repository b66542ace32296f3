import Mathlib.Data.List.Induction
import Mathlib.Data.List.Nodup
import Mathlib.Data.List.Pairwise

/-!
# First occurrences

`List.eraseDups` keeps each element where it occurs first. Lists without repetitions are then
sets in an order: the union of two of them is what is left of the one behind the other.

* `eraseDups_concat`: one more element at the end.
* `nodup_eraseDups`, `pairwise_eraseDups`: each element once, in the order of the list.
* `eraseDups_append_left`, `eraseDups_append_right`, `eraseDups_flatten`: parts may be reduced
  before.
* `OrderedUnion`: the union of any number of lists.
-/

namespace FirstOccurrences

variable {σ : Type*} [DecidableEq σ] {a : σ} {l m : List σ}

theorem eraseDups_concat_of_mem (h : a ∈ l) : (l ++ [a]).eraseDups = l.eraseDups := by
  rw [List.eraseDups_append, List.removeAll, List.filter_cons_of_neg (by simpa using h)]
  simp

theorem eraseDups_concat (h : a ∉ l) : (l ++ [a]).eraseDups = l.eraseDups ++ [a] := by
  rw [List.eraseDups_append, List.removeAll, List.filter_cons_of_pos (by simpa using h)]
  simp [List.eraseDups_cons]

theorem nodup_eraseDups (l : List σ) : l.eraseDups.Nodup := by
  induction l using List.reverseRecOn with
  | nil => exact List.nodup_nil
  | append_singleton l a ih =>
    by_cases h : a ∈ l
    · rwa [eraseDups_concat_of_mem h]
    · rw [eraseDups_concat h]
      refine ih.append (List.nodup_singleton a) (List.disjoint_singleton.mpr ?_)
      rwa [List.mem_eraseDups]

theorem eraseDups_of_nodup (h : l.Nodup) : l.eraseDups = l := by
  induction l using List.reverseRecOn with
  | nil => rfl
  | append_singleton l a ih =>
    obtain ⟨hl, -, hdisjoint⟩ := List.nodup_append.mp h
    have ha : a ∉ l := fun ha => hdisjoint a ha a List.mem_cons_self rfl
    rw [eraseDups_concat ha, ih hl]

theorem eraseDups_idem (l : List σ) : l.eraseDups.eraseDups = l.eraseDups :=
  eraseDups_of_nodup (nodup_eraseDups l)

/-- The elements are in the order in which they occur first. -/
theorem pairwise_eraseDups (l : List σ) :
    l.eraseDups.Pairwise fun c d => l.idxOf c < l.idxOf d := by
  induction l using List.reverseRecOn with
  | nil => exact List.Pairwise.nil
  | append_singleton l a ih =>
    have hold : ∀ c ∈ l.eraseDups, (l ++ [a]).idxOf c = l.idxOf c := fun c hc =>
      List.idxOf_append_of_mem (List.mem_eraseDups.mp hc)
    have hkeep : l.eraseDups.Pairwise fun c d => (l ++ [a]).idxOf c < (l ++ [a]).idxOf d := by
      refine ih.imp_of_mem fun hc hd hlt => ?_
      rwa [hold _ hc, hold _ hd]
    by_cases h : a ∈ l
    · rwa [eraseDups_concat_of_mem h]
    · rw [eraseDups_concat h]
      refine List.pairwise_append.mpr ⟨hkeep, List.pairwise_singleton .., fun c hc d hd => ?_⟩
      have hlt := List.idxOf_lt_length_iff.mpr (List.mem_eraseDups.mp hc)
      rw [List.mem_singleton.mp hd, hold c hc, List.idxOf_append_of_notMem h]
      exact Nat.lt_of_lt_of_le hlt (Nat.le_add_right ..)

theorem eraseDups_filter (p : σ → Bool) (l : List σ) :
    (l.filter p).eraseDups = l.eraseDups.filter p := by
  induction l using List.reverseRecOn with
  | nil => rfl
  | append_singleton l a ih =>
    rw [List.filter_append, List.filter_singleton]
    cases hp : p a with
    | false =>
      by_cases h : a ∈ l
      · simp [eraseDups_concat_of_mem h, ih]
      · simp [eraseDups_concat h, ih, hp]
    | true =>
      by_cases h : a ∈ l
      · have hmem : a ∈ l.filter p := List.mem_filter.mpr ⟨h, hp⟩
        simp [eraseDups_concat_of_mem h, eraseDups_concat_of_mem hmem, ih]
      · have hmem : a ∉ l.filter p := fun ha => h (List.mem_filter.mp ha).1
        simp [eraseDups_concat h, eraseDups_concat hmem, ih, hp]

theorem eraseDups_append_left (l m : List σ) :
    (l.eraseDups ++ m).eraseDups = (l ++ m).eraseDups := by
  have hsame : m.removeAll l.eraseDups = m.removeAll l :=
    List.filter_congr fun c _ => by simp
  rw [List.eraseDups_append, List.eraseDups_append, eraseDups_idem, hsame]

theorem eraseDups_append_right (l m : List σ) :
    (l ++ m.eraseDups).eraseDups = (l ++ m).eraseDups := by
  rw [List.eraseDups_append, List.eraseDups_append, List.removeAll, List.removeAll,
    eraseDups_filter, eraseDups_filter, eraseDups_idem]

theorem eraseDups_flatten (ls : List (List σ)) :
    (ls.map List.eraseDups).flatten.eraseDups = ls.flatten.eraseDups := by
  induction ls with
  | nil => rfl
  | cons l ls ih =>
    rw [List.map_cons, List.flatten_cons, List.flatten_cons, eraseDups_append_left,
      ← eraseDups_append_right, ih, eraseDups_append_right]

/-- The elements of the lists, each once and in the order in which they occur first. -/
structure OrderedUnion (ls : List (List σ)) (m : List σ) : Prop where
  mem : ∀ c, c ∈ m ↔ ∃ l ∈ ls, c ∈ l
  nodup : m.Nodup
  ordered : m.Pairwise fun c d => ls.flatten.idxOf c < ls.flatten.idxOf d

theorem orderedUnion_eraseDups (ls : List (List σ)) : OrderedUnion ls ls.flatten.eraseDups :=
  ⟨fun _ => List.mem_eraseDups.trans List.mem_flatten, nodup_eraseDups _, pairwise_eraseDups _⟩

end FirstOccurrences
