import Mathlib.Data.List.Nodup
import Mathlib.Data.Set.Insert
import Mathlib.Logic.Function.Basic

/-!
# Arrays whose elements know their places

`Places a index n h S`: the positions below `n`, except for the hole `h`, hold the
elements of `S`, each of them once, and `index` gives the position of an element.
There is no hole when `h` is `n`.
-/

namespace BackPointers

variable {α : Type*} {a : Nat → α} {index : α → Nat} {n h m : Nat} {S : Set α} {x : α}

structure Places (a : Nat → α) (index : α → Nat) (n h : Nat) (S : Set α) : Prop where
  at_place : ∀ i, i < n → i ≠ h → a i ∈ S ∧ index (a i) = i
  place_of : ∀ x ∈ S, index x < n ∧ index x ≠ h ∧ a (index x) = x

theorem Places.empty : Places a index 0 0 ∅ :=
  ⟨fun _ hi => absurd hi (Nat.not_lt_zero _), fun _ hx => absurd hx (Set.notMem_empty _)⟩

/-- The position behind the end becomes a hole. -/
theorem Places.grow (hp : Places a index n n S) : Places a index (n + 1) n S where
  at_place i hi hne := hp.at_place i (Nat.lt_of_le_of_ne (Nat.le_of_lt_succ hi) hne) hne
  place_of x hx :=
    have ⟨hlt, hne, he⟩ := hp.place_of x hx
    ⟨Nat.lt_succ_of_lt hlt, hne, he⟩

/-- A hole at the last position is given up. -/
theorem Places.shrink (hp : Places a index (n + 1) n S) : Places a index n n S where
  at_place i hi hne := hp.at_place i (Nat.lt_succ_of_lt hi) hne
  place_of x hx :=
    have ⟨hlt, hne, he⟩ := hp.place_of x hx
    ⟨Nat.lt_of_le_of_ne (Nat.le_of_lt_succ hlt) hne, hne, he⟩

/-- An element is taken out. -/
theorem Places.take (hp : Places a index n n S) (hh : h < n) :
    Places a index n h (S \ {a h}) where
  at_place i hi hne := by
    obtain ⟨hmem, hindex⟩ := hp.at_place i hi (Nat.ne_of_lt hi)
    refine ⟨⟨hmem, fun he => hne ?_⟩, hindex⟩
    rw [← hindex, he]
    exact (hp.at_place h hh (Nat.ne_of_lt hh)).2
  place_of x hx := by
    obtain ⟨hlt, -, he⟩ := hp.place_of x hx.1
    refine ⟨hlt, fun hih => hx.2 ?_, he⟩
    rw [← he, hih]
    exact Set.mem_singleton _

/-- Without a hole the array is an arrangement of the elements. -/
theorem Places.perm {xs : List α} (hp : Places a index n n {x | x ∈ xs}) (hx : xs.Nodup) :
    ((List.range n).map a).Perm xs := by
  have hindex : ∀ i ∈ List.range n, a i ∈ xs ∧ index (a i) = i := fun i hi =>
    have hlt := List.mem_range.mp hi
    hp.at_place i hlt (Nat.ne_of_lt hlt)
  have hnodup : ((List.range n).map a).Nodup := by
    refine List.nodup_range.map_on fun i hi j hj he => ?_
    rw [← (hindex i hi).2, he, (hindex j hj).2]
  refine (List.perm_ext_iff_of_nodup hnodup hx).mpr fun x => ?_
  rw [List.mem_map]
  constructor
  · rintro ⟨i, hi, rfl⟩
    exact (hindex i hi).1
  · intro hmem
    obtain ⟨hlt, -, he⟩ := hp.place_of x hmem
    exact ⟨index x, List.mem_range.mpr hlt, he⟩

variable [DecidableEq α]

/-- An element moves into the hole, which is then where it was. -/
theorem Places.move (hp : Places a index n h S) (hh : h < n) (hm : m < n) (hne : m ≠ h) :
    Places (Function.update a h (a m)) (Function.update index (a m) h) n m S := by
  obtain ⟨hmem, hindex⟩ := hp.at_place m hm hne
  refine ⟨fun i hi him => ?_, fun x hx => ?_⟩
  · by_cases hih : i = h
    · subst hih
      rw [Function.update_self, Function.update_self]
      exact ⟨hmem, rfl⟩
    · obtain ⟨hi₁, hi₂⟩ := hp.at_place i hi hih
      have hother : a i ≠ a m := fun he => him (by rw [← hi₂, he, hindex])
      rw [Function.update_of_ne hih, Function.update_of_ne hother]
      exact ⟨hi₁, hi₂⟩
  · by_cases hxm : x = a m
    · subst hxm
      rw [Function.update_self, Function.update_self]
      exact ⟨hh, hne.symm, rfl⟩
    · obtain ⟨hlt, hxh, he⟩ := hp.place_of x hx
      rw [Function.update_of_ne hxm, Function.update_of_ne hxh]
      exact ⟨hlt, fun him => hxm (by rw [← he, him]), he⟩

/-- A new element is written to the hole, which stays one. -/
theorem Places.mark (hp : Places a index n h S) (hx : x ∉ S) :
    Places (Function.update a h x) (Function.update index x h) n h S where
  at_place i hi hne := by
    obtain ⟨hmem, hindex⟩ := hp.at_place i hi hne
    have hother : a i ≠ x := fun he => hx (he ▸ hmem)
    rw [Function.update_of_ne hne, Function.update_of_ne hother]
    exact ⟨hmem, hindex⟩
  place_of y hy := by
    obtain ⟨hlt, hne, he⟩ := hp.place_of y hy
    have hother : y ≠ x := fun he => hx (he ▸ hy)
    rw [Function.update_of_ne hother, Function.update_of_ne hne]
    exact ⟨hlt, hne, he⟩

/-- A new element is put into the hole. -/
theorem Places.fill (hp : Places a index n h S) (hh : h < n) (hx : x ∉ S) :
    Places (Function.update a h x) (Function.update index x h) n n (insert x S) := by
  refine ⟨fun i hi _ => ?_, fun y hy => ?_⟩
  · by_cases hih : i = h
    · subst hih
      rw [Function.update_self, Function.update_self]
      exact ⟨Set.mem_insert _ _, rfl⟩
    · obtain ⟨hi₁, hi₂⟩ := hp.at_place i hi hih
      have hother : a i ≠ x := fun he => hx (he ▸ hi₁)
      rw [Function.update_of_ne hih, Function.update_of_ne hother]
      exact ⟨Set.mem_insert_of_mem _ hi₁, hi₂⟩
  · by_cases hyx : y = x
    · subst hyx
      rw [Function.update_self, Function.update_self]
      exact ⟨hh, Nat.ne_of_lt hh, rfl⟩
    · obtain ⟨hlt, hyh, he⟩ := hp.place_of y (Set.mem_of_mem_insert_of_ne hy hyx)
      rw [Function.update_of_ne hyx, Function.update_of_ne hyh]
      exact ⟨hlt, Nat.ne_of_lt hlt, he⟩

end BackPointers
