import Kuhllib.Execution.CompletionSignatures
import Kuhllib.Lib.FirstOccurrences

/-!
# The union of completion signatures

`unique_completion_signatures` adds the signatures of one list to another one, and
`merge_completion_signatures` adds all its lists to the first one. Signatures are the same where
`std::same_as` says so.

Results:
1. `unique_of_nodup`, `merge_eq`: the first occurrences in the lists one behind the other.
2. `merge_of_lists`, `merge_of_other`: arguments that are no lists.
3. `merge_union`: the merged list is the ordered union, however the lists are grouped.
-/

namespace Kuhllib.CompletionSignatures

open CompletionSignaturesLemmas FirstOccurrences

variable {τ : Type} [DecidableEq τ]

/-! ## 1. First occurrences -/

section

variable {ts ss l : List (Signature τ)} {ls : List (List (Signature τ))}

theorem unique_of_nodup (h : ts.Nodup) (ss : List (Signature τ)) :
    unique_completion_signatures ts ss = (ts ++ ss).eraseDups := by
  induction ss generalizing ts with
  | nil => rw [unique_completion_signatures, List.append_nil, eraseDups_of_nodup h]
  | cons s ss ih =>
    rw [unique_completion_signatures, List.append_cons ts s ss]
    split
    · next hs =>
      rw [ih h, ← eraseDups_append_left (ts ++ [s]), eraseDups_concat_of_mem hs,
        eraseDups_append_left]
    · next hs => exact ih (h.append (List.nodup_singleton s) (List.disjoint_singleton.mpr hs))

theorem unique_nil (ss : List (Signature τ)) :
    unique_completion_signatures [] ss = ss.eraseDups :=
  unique_of_nodup List.nodup_nil ss

/-- What is in the list is not added again. -/
theorem unique_of_subset (h : ss ⊆ ts) : unique_completion_signatures ts ss = ts := by
  induction ss with
  | nil => rfl
  | cons s ss ih =>
    rw [unique_completion_signatures, if_pos (h List.mem_cons_self)]
    exact ih fun c hc => h (List.mem_cons_of_mem s hc)

/-- The first list has to be without repetitions: the others become so. -/
theorem merge_cons (h : l.Nodup) (ls : List (List (Signature τ))) :
    merge_completion_signatures (l :: ls) = (l ++ ls.flatten).eraseDups := by
  show ls.foldl unique_completion_signatures l = _
  induction ls generalizing l with
  | nil => rw [List.foldl_nil, List.flatten_nil, List.append_nil, eraseDups_of_nodup h]
  | cons l' ls ih =>
    rw [List.foldl_cons, unique_of_nodup h, ih (nodup_eraseDups _), eraseDups_append_left,
      List.flatten_cons, List.append_assoc]

theorem merge_eq (h : ∀ l ∈ ls, l.Nodup) :
    merge_completion_signatures ls = ls.flatten.eraseDups := by
  cases ls with
  | nil => rfl
  | cons l ls => exact merge_cons (h l List.mem_cons_self) ls

/-- Groups of lists are merged first. -/
theorem merge_groups (lss : List (List (List (Signature τ))))
    (h : ∀ ls ∈ lss, ∀ l ∈ ls, l.Nodup) :
    merge_completion_signatures (lss.map merge_completion_signatures) =
      merge_completion_signatures lss.flatten := by
  have hgroups : lss.map merge_completion_signatures =
      (lss.map List.flatten).map List.eraseDups := by
    rw [List.map_map]
    exact List.map_congr_left fun ls hls => merge_eq (h ls hls)
  have hnodup : ∀ l ∈ lss.map merge_completion_signatures, l.Nodup := by
    rw [hgroups]
    intro l hl
    obtain ⟨l', -, rfl⟩ := List.mem_map.mp hl
    exact nodup_eraseDups l'
  have hall : ∀ l ∈ lss.flatten, l.Nodup := fun l hl => by
    obtain ⟨ls, hls, hl⟩ := List.mem_flatten.mp hl
    exact h ls hls l hl
  rw [merge_eq hnodup, merge_eq hall, hgroups, eraseDups_flatten, List.flatten_flatten]

end

/-! ## 2. Other arguments -/

/-- `merge_completion_signatures_t<E, Lists...>`, where `none` is a type that is not a list, as
which the result is `dependent_completion_signatures<E>`. -/
def merge_completion_signatures_t :
    List (Option (List (Signature τ))) → Option (List (Signature τ))
  | [] => some []
  | [none] => none
  | [some l] => some l
  | [some l₁, some l₂] => some (unique_completion_signatures l₁ l₂)
  | [_, _] => none
  | l₁ :: l₂ :: head :: tail =>
    merge_completion_signatures_t (merge_completion_signatures_t [l₁, l₂] :: head :: tail)
termination_by ls => ls.length

section

variable {ls : List (Option (List (Signature τ)))}

theorem merge_of_two (l₁ l₂ head : Option (List (Signature τ)))
    (tail : List (Option (List (Signature τ)))) :
    merge_completion_signatures_t (l₁ :: l₂ :: head :: tail) =
      merge_completion_signatures_t (merge_completion_signatures_t [l₁, l₂] :: head :: tail) := by
  conv_lhs => rw [merge_completion_signatures_t]

theorem merge_of_lists (ls : List (List (Signature τ))) :
    merge_completion_signatures_t (ls.map some) = some (merge_completion_signatures ls) := by
  cases ls with
  | nil => rw [List.map_nil, merge_completion_signatures_t, merge_completion_signatures]
  | cons l ls =>
    induction ls generalizing l with
    | nil => simp [merge_completion_signatures_t, merge_completion_signatures]
    | cons l' ls ih =>
      cases ls with
      | nil => simp [merge_completion_signatures_t, merge_completion_signatures]
      | cons head tail =>
        rw [List.map_cons, List.map_cons, List.map_cons, merge_of_two]
        have hpair : merge_completion_signatures_t [some l, some l'] =
            some (unique_completion_signatures l l') := by rw [merge_completion_signatures_t]
        rw [hpair, ← List.map_cons, ← List.map_cons, ih]
        rfl

/-- One argument that is not a list makes the result dependent. -/
theorem merge_of_other (h : none ∈ ls) : merge_completion_signatures_t ls = none := by
  induction hn : ls.length generalizing ls with
  | zero => simp [List.eq_nil_of_length_eq_zero hn] at h
  | succ n ih =>
    match ls, h with
    | [none], _ => rw [merge_completion_signatures_t]
    | [none, l], _ => cases l <;> simp [merge_completion_signatures_t]
    | [some l, none], _ => simp [merge_completion_signatures_t]
    | l₁ :: l₂ :: head :: tail, h =>
      rw [merge_of_two]
      refine ih ?_ (by simpa using hn)
      rcases List.mem_cons.mp h with rfl | h
      · cases l₂ <;> simp [merge_completion_signatures_t]
      · rcases List.mem_cons.mp h with rfl | h
        · cases l₁ <;> simp [merge_completion_signatures_t]
        · exact List.mem_cons_of_mem _ h

end

/-! ## 3. The union -/

/-- Lists without repetitions are merged to their ordered union. Groups of them can be merged
before, and `unique_completion_signatures` gives the same for one list behind the other. What is
unique stays as it is. -/
theorem merge_union {ls : List (List (Signature τ))} (h : ∀ l ∈ ls, l.Nodup) :
    OrderedUnion ls (merge_completion_signatures ls) ∧
    (∀ lss : List (List (List (Signature τ))), lss.flatten = ls →
      merge_completion_signatures (lss.map merge_completion_signatures) =
        merge_completion_signatures ls) ∧
    (∀ a b c : List (Signature τ), a.Nodup → b.Nodup → c.Nodup →
      merge_completion_signatures [a, merge_completion_signatures [b, c]] =
        merge_completion_signatures [merge_completion_signatures [a, b], c]) ∧
    unique_completion_signatures [] ls.flatten = merge_completion_signatures ls ∧
    (∀ l : List (Signature τ), unique_completion_signatures []
      (unique_completion_signatures [] l) = unique_completion_signatures [] l) ∧
    ∀ ts ss : List (Signature τ), unique_completion_signatures
      (unique_completion_signatures ts ss) ss = unique_completion_signatures ts ss := by
  refine ⟨?_, ?_, fun a b c ha hb hc => ?_, ?_, fun l => ?_, fun ts ss => ?_⟩
  · rw [merge_eq h]
    exact orderedUnion_eraseDups ls
  · rintro lss rfl
    exact merge_groups lss fun ls hls l hl => h l (List.mem_flatten.mpr ⟨ls, hls, hl⟩)
  · have hall : ∀ l ∈ [a, b, c], l.Nodup := by simp [ha, hb, hc]
    calc merge_completion_signatures [a, merge_completion_signatures [b, c]]
        = merge_completion_signatures [a, b, c] :=
        merge_groups [[a], [b, c]] fun ls hls l hl =>
          hall l (List.mem_flatten.mpr ⟨ls, hls, hl⟩)
      _ = merge_completion_signatures [merge_completion_signatures [a, b], c] :=
        (merge_groups [[a, b], [c]] fun ls hls l hl =>
          hall l (List.mem_flatten.mpr ⟨ls, hls, hl⟩)).symm
  · rw [unique_nil, merge_eq h]
  · rw [unique_nil, unique_nil, eraseDups_idem]
  · exact unique_of_subset fun c hc => mem_unique.mpr (.inr hc)

/-- Two lists that have an error in common. -/
theorem merge_union_example :
    merge_completion_signatures [[.value [], .error .exception_ptr, .stopped],
      [.error .exception_ptr, .error (.other 1)]] =
        ([.value [], .error .exception_ptr, .stopped, .error (.other 1)] : List (Signature ℕ)) ∧
    OrderedUnion [[.value [], .error .exception_ptr, .stopped],
      [.error .exception_ptr, .error (.other 1)]]
        ([.value [], .error .exception_ptr, .stopped, .error (.other 1)] : List (Signature ℕ)) :=
  ⟨by decide, (merge_union (by decide)).1⟩

end Kuhllib.CompletionSignatures
