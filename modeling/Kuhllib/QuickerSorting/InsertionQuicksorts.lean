import Kuhllib.QuickerSorting.FatQuicksort

/-!
# `insertion_sentinel_quicksort` and `insertion_rotate_quicksort`

A quicksort leaves ranges of a few elements as they are. The first ones of its result are
sorted with a test for the beginning, and then stop the search for all other elements. That
works if a minimum is among them: `fat_quicksort` leaves everything in the first range that
has not been split in front of what it has put behind it.

Results:
1. `insert_behind_zero`: nothing stops the search at the beginning.
2. `insertion_sorts_iff`: the sizes for which the sorts do what they are for.
-/

namespace Kuhllib.InsertionQuicksorts

open RangeSort FatQuicksort

variable {α : Type}

/-! ## Model -/

section

variable [LT α] [DecidableLT α]

/-- The sort of the elements up to `end'`. -/
def insertion_sort (a : List α) (end' : Int) : Option (List α) :=
  insert_until (insert_swap true) (a.length + 1) a 0 end'

/-- `if (*it < it[-1]) ..` with a `do` loop, where `it[-1]` is always read. -/
def insert_rotate (a : List α) : Nat → Option (List α)
  | 0 => none
  | it + 1 => insert_move false a (it + 1)

/-- The loop from `begin` to the end of the range, where an insertion sees all elements. -/
def insert_behind (insert : List α → Nat → Option (List α)) (a : List α) (begin : Nat) :
    Option (List α) :=
  insert_until insert (a.length + 1) a begin a.length

def insertion_sort_sentinel : List α → Nat → Option (List α) :=
  insert_behind (insert_swap false)

def insertion_sort_rotate : List α → Nat → Option (List α) :=
  insert_behind insert_rotate

/-- A sort of the whole range, of its first elements, and of the `rest`. -/
def insertion_then (rest : List α → Nat → Option (List α)) (Size : Int)
    (sort : List α → Option (List α)) (a : List α) : Option (List α) := do
  if a.length < Size then insertion_sort a a.length
  else
    let a ← sort a
    let a ← insertion_sort a Size
    rest a Size.toNat

def insertion_sentinel_quicksort : Int → (List α → Option (List α)) → List α → Option (List α) :=
  insertion_then insertion_sort_sentinel

def insertion_rotate_quicksort : Int → (List α → Option (List α)) → List α → Option (List α) :=
  insertion_then insertion_sort_rotate

/-- The call returns the elements in order. -/
def Sorts (run : Nat → List α → Option (List α)) (a : List α) : Prop :=
  ∃ fuel out, run fuel a = some out ∧ out.Perm a ∧ out.Pairwise fun x y => ¬ y < x

end

/-! ## 1. Insertions -/

namespace InsertionQuicksortsLemmas

theorem insert_behind_eq (insert : List α → Nat → Option (List α)) {a : List α} {begin : Nat}
    (h : begin ≤ a.length) :
    insert_behind insert a begin = insert_all insert a begin (a.length - begin) := by
  have := insert_until_eq insert (Nat.lt_succ_of_le (Nat.sub_le a.length begin)) a begin
  rwa [Nat.add_sub_cancel' h] at this

/-- Nothing stops the search at the beginning. -/
theorem insert_behind_zero {insert : List α → Nat → Option (List α)} {a : List α}
    (h : insert a 0 = none) (ha : a ≠ []) : insert_behind insert a 0 = none := by
  have hne : ((0 : Nat) : Int) ≠ (a.length : Int) :=
    fun h => ha (List.length_eq_zero_iff.mp (Int.natCast_inj.mp h).symm)
  rw [insert_behind, insert_until, if_neg hne, h]
  rfl

section

variable [LT α] [DecidableLT α]

/-- The first element is where it belongs. -/
theorem insertion_sort_cons (x : α) (a : List α) {k : Nat} (hk : k ≤ a.length) :
    insertion_sort (x :: a) ((k + 1 : Nat) : Int) =
      insert_all (insert_swap true) (x :: a) 1 k := by
  have h := insert_until_eq (insert_swap true)
    (Nat.lt_succ_of_le (Nat.succ_le_succ hk) : k + 1 < (x :: a).length + 1) (x :: a) 0
  rw [Nat.zero_add] at h
  rw [insertion_sort, h, insert_all, List.range'_succ, List.foldlM_cons]
  rfl

theorem insertion_sort_zero (a : List α) : insertion_sort a 0 = some a := by
  rw [insertion_sort, insert_until, Int.natCast_zero, if_pos rfl]

end

section

variable [Preorder α] [@Std.Total α (· ≤ ·)] [DecidableLT α]

theorem inserts_rotate : Inserts false (insert_rotate (α := α)) := by
  intro pre tmp suf hs hne hg
  obtain ⟨l, r, h, hi⟩ := inserts_move false pre tmp suf hs hne hg
  obtain ⟨n, hn⟩ := Nat.exists_eq_succ_of_ne_zero (mt List.length_eq_zero_iff.mp hne)
  refine ⟨l, r, ?_, hi⟩
  rw [hn] at h ⊢
  exact h

theorem insertion_sort_spec (a : List α) :
    ∃ out, insertion_sort a a.length = some out ∧ out.Perm a ∧ out.Pairwise (· ≤ ·) := by
  cases a with
  | nil => exact ⟨[], rfl, .refl [], .nil⟩
  | cons x a =>
    obtain ⟨out, hout, hp, hs⟩ := insert_all_sorted (inserts_swap true) x a
    exact ⟨out, (insertion_sort_cons x a (Nat.le_refl _)).trans hout, hp, hs⟩

end

end InsertionQuicksortsLemmas

open InsertionQuicksortsLemmas

/-! ## 2. The whole sorts -/

namespace InsertionQuicksortsLemmas

section

variable [Preorder α] [@Std.Total α (· ≤ ·)] [DecidableLT α] {Size : Int}
  {partition : Partition}

omit [DecidableLT α] in
/-- The minimum of the first range is one of everything. -/
theorem leaves_early (hsize : 1 ≤ Size) :
    FatQuicksortLemmas.Leaves Size (Early (α := α) Size.toNat) where
  few a ha := .of_length_le (by omega)
  sorted a h := .of_sorted (by omega) h
  around l p r hl _ hlp hpr := .around (by omega) hl hlp hpr

theorem insertion_then_spec {insert : List α → Nat → Option (List α)} (h : Inserts false insert)
    (hsize : 1 ≤ Size) (hpartition : partition ≠ .internal_sentinel_partition) (a : List α) :
    ∃ out, insertion_then (insert_behind insert) Size
        (fat_quicksort Size partition (a.length + 1)) a = some out ∧ out.Perm a ∧
      out.Pairwise (· ≤ ·) := by
  unfold insertion_then
  split
  next hfew => exact insertion_sort_spec a
  next hfew =>
    obtain ⟨b, hb, hp, hearly⟩ := FatQuicksortLemmas.fat_quicksort_spec (leaves_early hsize)
      (Int.le_of_lt hsize) (Nat.lt_succ_self a.length) fun _ _ _ hq => absurd hq hpartition
    cases b with
    | nil =>
      rw [← hp.length_eq] at hfew
      exact absurd hsize hfew
    | cons x b =>
      obtain ⟨k, rfl⟩ : ∃ k : Nat, Size = ((k + 1 : Nat) : Int) := ⟨Size.toNat - 1, by omega⟩
      have hlen := hp.length_eq
      rw [List.length_cons] at hlen
      have hk : k ≤ b.length := by omega
      rw [Int.toNat_natCast] at hearly
      obtain ⟨first, out, hfirst, hlen', hout, hp', hs⟩ :=
        insert_first_spec (inserts_swap true) h x b hk hearly
      refine ⟨out, ?_, hp'.trans hp, hs⟩
      have hrest : first.length - (k + 1) = b.length - k := by omega
      simp only [hb, Option.bind_eq_bind, Option.bind_some, insertion_sort_cons x b hk, hfirst,
        Int.toNat_natCast]
      rw [insert_behind_eq insert (by omega), hrest]
      exact hout

theorem insertion_then_fails {insert : List α → Nat → Option (List α)}
    (h : ∀ a, insert a 0 = none) {a : List α} (hsize : ¬ (1 ≤ Size ∨ Size = 0 ∧ a = []))
    (fuel : Nat) :
    insertion_then (insert_behind insert) Size (fat_quicksort Size partition fuel) a = none := by
  have hfew : ¬ (a.length : Int) < Size := by omega
  unfold insertion_then
  rw [if_neg hfew]
  rcases lt_trichotomy Size 0 with hneg | rfl | hpos
  · rw [FatQuicksortLemmas.fat_quicksort_negative hneg]
    rfl
  · cases hb : fat_quicksort 0 partition fuel a with
    | none => rfl
    | some b =>
      have hne : b ≠ [] := by
        rintro rfl
        exact hsize (.inr ⟨rfl, List.nil_perm.mp (FatQuicksortLemmas.fat_quicksort_perm hb)⟩)
      simp only [Option.bind_eq_bind, Option.bind_some, insertion_sort_zero]
      exact insert_behind_zero (h b) hne
  · exact absurd (.inl hpos) hsize

theorem insertion_then_iff {insert : List α → Nat → Option (List α)} (h : Inserts false insert)
    (hzero : ∀ a, insert a 0 = none) (Size : Int)
    (hpartition : partition ≠ .internal_sentinel_partition) (a : List α) :
    (∃ fuel out, insertion_then (insert_behind insert) Size (fat_quicksort Size partition fuel) a =
        some out ∧ out.Perm a ∧ out.Pairwise (· ≤ ·)) ↔ 1 ≤ Size ∨ Size = 0 ∧ a = [] := by
  constructor
  · rintro ⟨fuel, out, hrun, -⟩
    by_contra hsize
    rw [insertion_then_fails hzero hsize] at hrun
    cases hrun
  · rintro (hsize | ⟨rfl, rfl⟩)
    · exact ⟨_, insertion_then_spec h hsize hpartition a⟩
    · exact ⟨1, [], rfl, .refl [], .nil⟩

end

end InsertionQuicksortsLemmas

/-- The first elements have to be there to stop the search. -/
theorem insertion_sorts_iff [LT α] [DecidableLT α] [IsStrictWeakOrder α (· < ·)] (Size : Int)
    (partition : Partition) (hpartition : partition ≠ .internal_sentinel_partition)
    (a : List α) :
    (Sorts (fun fuel => insertion_sentinel_quicksort Size (fat_quicksort Size partition fuel)) a ↔
        1 ≤ Size ∨ Size = 0 ∧ a = []) ∧
      (Sorts (fun fuel => insertion_rotate_quicksort Size (fat_quicksort Size partition fuel)) a ↔
        1 ≤ Size ∨ Size = 0 ∧ a = []) := by
  let := weakPreorder α
  have := weakPreorder_total (α := α)
  exact ⟨insertion_then_iff (inserts_swap false) (fun _ => rfl) Size hpartition a,
    insertion_then_iff inserts_rotate (fun _ => rfl) Size hpartition a⟩

theorem insertion_sorts_iff_example :
    Sorts (fun fuel => insertion_sentinel_quicksort 2 (fat_quicksort 2 .manual_partition fuel))
      [3, 1, 2, 1] :=
  ((@insertion_sorts_iff Nat _ _ _ 2 .manual_partition (by decide) [3, 1, 2, 1]).1).mpr
    (.inl (by decide))

/-- A single element is compared with what is in front of the range. -/
theorem not_insertion_sorts : ¬ ∀ (Size : Int) (partition : Partition) (a : List Nat),
    partition ≠ .internal_sentinel_partition →
      Sorts (fun fuel => insertion_sentinel_quicksort Size (fat_quicksort Size partition fuel)) a ∧
        Sorts (fun fuel => insertion_rotate_quicksort Size (fat_quicksort Size partition fuel))
          a := by
  intro h
  obtain ⟨⟨fuel, out, hrun, -⟩, -⟩ := h 0 .simple_partition [1] (by decide)
  have hnone := @insertion_then_fails Nat _ _ _ 0 .simple_partition (insert_swap false)
    (fun _ => rfl) [1] (by decide) fuel
  cases hnone.symm.trans hrun

end Kuhllib.InsertionQuicksorts
