import Kuhllib.Lib.RangePartition
import Kuhllib.QuickerSorting.Small
import Mathlib.Data.Int.Order.Basic
import Mathlib.Data.List.Sort

/-!
# `demo::monitor_swaps`

A function gets the list of the elements of its range and sees nothing else; an access
outside of the range fails. A nested call or another turn of the loop uses one unit of
fuel.

Results:
1. `incomplete_insertion_spec`: a sort that gives up leaves a permutation.
2. `sort_spec`: every array is sorted, without an access outside of it.
-/

namespace Kuhllib.MonitorSwaps

open RangeSort Small

def limit : Nat := 8

/-- The inner loop from where `c` has been decremented, and `*c = t` behind it. The count
is given back unless the limit is reached. -/
def incomplete_down (a : List Int) (t : Int) : Nat → Nat → Option (Option Nat × List Int)
  | 0, count => some (some count, a.set 0 t)
  | c + 1, count => do
    let x ← a[c]?
    if t < x then
      let a := a.set (c + 1) x
      if count + 1 = limit then some (none, a.set c t) else incomplete_down a t c (count + 1)
    else some (some count, a.set (c + 1) t)

/-- The body of the outer loop. -/
def incomplete_step (a : List Int) (it count : Nat) : Option (Option Nat × List Int) := do
  let t ← a[it]?
  let x ← a[it - 1]?
  if t < x then
    if count + 1 = limit then some (none, a)
    else incomplete_down (a.set it x) t (it - 1) (count + 1)
  else some (some count, a)

/-- The outer loop with the number of turns that are left. -/
def incomplete_loop : Nat → List Int → Nat → Nat → Option (Bool × List Int)
  | 0, a, _, _ => some (true, a)
  | n + 1, a, it, count => do
    let (count, a) ← incomplete_step a it count
    match count with
    | none => some (false, a)
    | some count => incomplete_loop n a (it + 1) count

def incomplete_insertion : List Int → Option (Bool × List Int)
  | [] => some (true, [])
  | [x] => some (true, [x])
  | [x, y] => some (true, if y < x then [y, x] else [x, y])
  | [p0, p1, p2] => some (true, sorted3 p0 p1 p2)
  | [p0, p1, p2, p3] => some (true, sorted4 p0 p1 p2 p3)
  | [p0, p1, p2, p3, p4] => some (true, sorted5 p0 p1 p2 p3 p4)
  | a => incomplete_loop (a.length - 1) a 1 0

/-- The partition around `p` in the last place, with the number of swaps. -/
def partition (a : List Int) (p : Int) : Option (Nat × Nat × List Int) := do
  let pred := fun arg => decide (arg < p)
  let pbegin := 0
  let pend := a.length
  let (pbegin, pend, swaps, a) ←
    if pbegin ≠ pend then do
      if pred (← a[pbegin]?) then pure (pbegin, pend, 0, a)
      else
        let pend ← scan_down_to pred a pbegin pend
        if pbegin ≠ pend then pure (pbegin + 1, pend, 1, ← iter_swap a pbegin pend)
        else pure (pbegin, pend, 0, a)
    else pure (pbegin, pend, 0, a)
  if pbegin ≠ pend then sentinel_loop pred (a.length + 1) a pbegin pend swaps
  else pure (pbegin, swaps, a)

/-- Behind the loop of `sort`. -/
def small_sort : List Int → Option (List Int)
  | [] => some []
  | [x] => some [x]
  | [x, y] => some (if y < x then [y, x] else [x, y])
  | [p0, p1, p2] => some (sorted3 p0 p1 p2)
  | [p0, p1, p2, p3] => some (sorted4 p0 p1 p2 p3)
  | a => insert_all (insert_move true) a 1 (a.length - 1)

/-- `swaps == 0 && incomplete_insertion(begin, mid) && incomplete_insertion(mid + 1, end)`,
with what it leaves in both parts. -/
def try_incomplete (swaps : Nat) (left right : List Int) :
    Option (Bool × List Int × List Int) := do
  if swaps = 0 then
    let (done, left) ← incomplete_insertion left
    if done then
      let (done, right) ← incomplete_insertion right
      pure (done, left, right)
    else pure (false, left, right)
  else pure (false, left, right)

/-- `sort(begin, end, depth, max)`. -/
def sort_range : Nat → List Int → Nat → Nat → Option (List Int)
  | 0, _, _, _ => none
  | fuel + 1, a, depth, max =>
    if 20 < a.length then
      let depth := depth + 1
      if depth < max then do
        let pivot := a.length - 1
        let a ← iter_swap a (a.length / 2) pivot
        let p ← a[pivot]?
        let (mid, swaps, a) ← partition a p
        let a ← iter_swap a mid pivot
        let m ← a[mid]?
        let (left, right) := (a.take mid, a.drop (mid + 1))
        let (done, left, right) ← try_incomplete swaps left right
        if done then pure (left ++ m :: right)
        else if left.length < right.length + 1 then do
          let left ← sort_range fuel left depth max
          let right ← sort_range fuel right depth max
          pure (left ++ m :: right)
        else do
          let right ← sort_range fuel right depth max
          let left ← sort_range fuel left depth max
          pure (left ++ m :: right)
      else some (a.mergeSort (· ≤ ·))
    else small_sort a

/-- `sort(begin, end)`, where the loop `while (size >>=1) ++max;` counts up to the logarithm. -/
def sort (a : List Int) : Option (List Int) :=
  sort_range (a.length + 1) a 0 (2 * a.length.log2)

/-! ## 1. Incomplete sorts -/

namespace MonitorSwapsLemmas

variable {pre : List Int} {t : Int}

/-- The element is inserted, or the elements moved so far make room for it. -/
theorem incomplete_down_spec (hs : pre.Pairwise (· ≤ ·)) (y : Int) (suf : List Int) (count : Nat) :
    (∃ n l r, incomplete_down (pre ++ y :: suf) t pre.length count =
      some (some n, l ++ t :: (r ++ suf)) ∧ Inserted pre t l r) ∨
    ∃ out, incomplete_down (pre ++ y :: suf) t pre.length count = some (none, out) ∧
      out.Perm (pre ++ t :: suf) := by
  induction pre using List.reverseRecOn generalizing y suf count with
  | nil =>
    exact .inl ⟨count, [], [], rfl, rfl, fun x hx => absurd hx List.not_mem_nil,
      fun x hx => absurd hx List.not_mem_nil⟩
  | append_singleton pre x ih =>
    have hread : (pre ++ [x] ++ y :: suf)[pre.length]? = some x := by
      rw [List.append_assoc]
      exact getElem?_length_append
    have hset : ∀ z, (pre ++ [x] ++ y :: suf).set (pre.length + 1) z = pre ++ x :: z :: suf := by
      intro z
      have := @set_length_append _ (pre ++ [x]) suf y z
      rw [List.length_append] at this
      rw [← List.length_singleton (a := x), this, List.append_assoc]
      rfl
    rw [List.length_append, List.length_singleton, incomplete_down]
    simp only [hread, hset, Option.bind_eq_bind, Option.bind_some, set_length_append]
    by_cases hx : t < x
    · rw [if_pos hx]
      split
      · refine .inr ⟨_, rfl, ?_⟩
        rw [List.append_assoc]
        exact (List.Perm.swap x t suf).append_left pre
      · rcases ih (List.pairwise_append.mp hs).1 x (x :: suf) (count + 1) with
          ⟨n, l, r, he, hi⟩ | ⟨out, he, hp⟩
        · refine .inl ⟨n, l, r ++ [x], ?_, hi.snoc hx⟩
          rw [he, List.append_assoc]
          rfl
        · refine .inr ⟨out, he, hp.trans ?_⟩
          rw [List.append_assoc]
          exact (List.Perm.swap x t suf).append_left pre
    · rw [if_neg hx]
      refine .inl ⟨count, pre ++ [x], [], ?_, .stop hs hx⟩
      rw [List.append_assoc]
      rfl

theorem incomplete_step_spec (hs : pre.Pairwise (· ≤ ·)) (hne : pre ≠ []) (suf : List Int)
    (count : Nat) :
    (∃ n l r, incomplete_step (pre ++ t :: suf) pre.length count =
      some (some n, l ++ t :: (r ++ suf)) ∧ Inserted pre t l r) ∨
    ∃ out, incomplete_step (pre ++ t :: suf) pre.length count = some (none, out) ∧
      out.Perm (pre ++ t :: suf) := by
  obtain ⟨pre, x, rfl⟩ : ∃ q x, pre = q ++ [x] :=
    ⟨_, _, (List.dropLast_concat_getLast hne).symm⟩
  have hlen : (pre ++ [x]).length - 1 = pre.length := by
    rw [List.length_append, List.length_singleton, Nat.add_sub_cancel]
  have hread : (pre ++ [x] ++ t :: suf)[pre.length]? = some x := by
    rw [List.append_assoc]
    exact getElem?_length_append
  unfold incomplete_step
  simp only [hlen, getElem?_length_append, hread, set_length_append, Option.bind_eq_bind,
    Option.bind_some]
  by_cases hx : t < x
  · rw [if_pos hx]
    split
    · exact .inr ⟨_, rfl, .refl _⟩
    · rw [List.append_assoc]
      obtain ⟨hs, -⟩ := List.pairwise_append.mp hs
      rcases incomplete_down_spec (t := t) hs x (x :: suf) (count + 1) with
        ⟨n, l, r, he, hi⟩ | ⟨out, he, hp⟩
      · refine .inl ⟨n, l, r ++ [x], ?_, hi.snoc hx⟩
        rw [List.append_assoc]
        exact he
      · refine .inr ⟨out, he, hp.trans ?_⟩
        rw [List.append_assoc]
        exact (List.Perm.swap x t suf).append_left pre
  · rw [if_neg hx]
    exact .inl ⟨count, pre ++ [x], [], rfl, .stop hs hx⟩

theorem incomplete_loop_spec {suf : List Int} (hs : pre.Pairwise (· ≤ ·)) (hne : pre ≠ [])
    (count : Nat) :
    ∃ done out, incomplete_loop suf.length (pre ++ suf) pre.length count = some (done, out) ∧
      out.Perm (pre ++ suf) ∧ (done = true → out.Pairwise (· ≤ ·)) := by
  induction suf generalizing pre count with
  | nil => exact ⟨true, _, rfl, .refl _, fun _ => by rwa [List.append_nil]⟩
  | cons t suf ih =>
    rw [List.length_cons, incomplete_loop]
    rcases incomplete_step_spec (t := t) hs hne suf count with ⟨n, l, r, he, hi⟩ | ⟨out, he, hp⟩
    · have hlen : (l ++ t :: r).length = pre.length + 1 := by
        rw [hi.split, List.length_append, List.length_append, List.length_cons, Nat.add_assoc]
      obtain ⟨done, out, hout, hp, hsorted⟩ := ih (hi.sorted hs) (by simp) n
      simp only [he, Option.bind_eq_bind, Option.bind_some]
      rw [hlen, List.append_assoc] at hout
      rw [List.append_assoc] at hp
      exact ⟨done, out, hout, hp.trans (hi.perm suf), hsorted⟩
    · simp only [he, Option.bind_eq_bind, Option.bind_some]
      exact ⟨false, out, rfl, hp, fun h => by cases h⟩

end MonitorSwapsLemmas

open MonitorSwapsLemmas

theorem incomplete_insertion_spec (a : List Int) :
    ∃ done out, incomplete_insertion a = some (done, out) ∧ out.Perm a ∧
      (done = true → out.Pairwise (· ≤ ·)) := by
  unfold incomplete_insertion
  split
  next => exact ⟨true, _, rfl, .refl _, fun _ => .nil⟩
  next x => exact ⟨true, _, rfl, .refl _, fun _ => List.pairwise_singleton _ x⟩
  next x y =>
    obtain ⟨hs, hp⟩ := sort2_spec x y
    exact ⟨true, _, rfl, hp, fun _ => hs⟩
  next p0 p1 p2 =>
    obtain ⟨hs, hp⟩ := sort3_spec p0 p1 p2
    exact ⟨true, _, rfl, hp, fun _ => hs⟩
  next p0 p1 p2 p3 =>
    obtain ⟨hs, hp⟩ := sort4_spec p0 p1 p2 p3
    exact ⟨true, _, rfl, hp, fun _ => hs⟩
  next p0 p1 p2 p3 p4 =>
    obtain ⟨hs, hp⟩ := sort5_spec p0 p1 p2 p3 p4
    exact ⟨true, _, rfl, hp, fun _ => hs⟩
  next hnil _ _ _ _ _ =>
    cases a with
    | nil => exact absurd rfl hnil
    | cons x a => exact @incomplete_loop_spec [x] a (List.pairwise_singleton _ x) (by simp) 0

/-! ## 2. Sorting -/

namespace MonitorSwapsLemmas

variable {a : List Int} {p : Int} {n : Nat}

theorem partition_spec (hn : a.length = n + 1) (hp : a[n]? = some p) :
    ∃ mid swaps a', partition a p = some (mid, swaps, a') ∧
      Partitioned (fun arg => decide (arg < p)) a a' mid := by
  have hpp : decide (p < p) = false := decide_eq_false (lt_irrefl p)
  have hpos : 0 < a.length := by
    rw [hn]
    exact Nat.succ_pos n
  have hx : a[0]? = some a[0] := List.getElem?_eq_getElem hpos
  have hback : ∀ i z, a.length ≤ i → a[i]? = some z → decide (z < p) = false := by
    intro i z hi hz
    rw [List.getElem?_eq_none hi] at hz
    cases hz
  have hturns : ∀ {e : Nat}, e ≤ a.length → e < a.length + 1 := fun h => Nat.lt_succ_of_le h
  unfold partition
  dsimp only
  rw [if_pos (Nat.ne_of_lt hpos), hx]
  simp only [Option.bind_eq_bind, Option.bind_some, Option.pure_def]
  by_cases hpx : decide (a[0] < p) = true
  · rw [if_pos hpx]
    rw [if_pos (Nat.ne_of_lt hpos)]
    obtain ⟨mid, swaps, a', hrun, hpart, -⟩ := @sentinel_loop_spec _ _ a 0 a.length _ 0
      (hturns (Nat.le_refl _)) (Nat.le_refl _)
      ⟨fun i _ hi => absurd hi (Nat.not_lt_zero i), hback⟩ ⟨n, p, Nat.zero_le n, hp, hpp⟩
      ⟨0, _, hpos, hx, hpx⟩
    exact ⟨mid, swaps, a', hrun, hpart⟩
  · rw [if_neg hpx]
    obtain ⟨e, he, hcase⟩ := sentinel_start hx (Bool.eq_false_iff.mpr hpx) (Nat.le_refl _) hback
    simp only [he, Option.bind_some]
    rcases hcase with ⟨rfl, hpart⟩ | ⟨he0, hen, a', y, hs, hperm, hparted, h0, hpy, hey, hkeep⟩
    · exact ⟨0, 0, a, rfl, hpart⟩
    · rw [if_pos (Nat.ne_of_lt he0)]
      simp only [hs, Option.bind_some, Nat.zero_add]
      have hlen : a'.length = a.length := hperm.length_eq
      split
      next hne =>
        have hle : e ≤ a.length := Nat.le_of_lt hen
        obtain ⟨mid, swaps, a'', hrun, hpart, -⟩ := @sentinel_loop_spec _ _ a' 1 e (a.length + 1) 1
          (hturns hle) (hlen.symm ▸ hle) hparted
          ⟨e, _, he0, hey, Bool.eq_false_iff.mpr hpx⟩ ⟨0, y, he0, h0, hpy⟩
        rw [hlen]
        exact ⟨mid, swaps, a'', hrun, hpart.after hperm hkeep⟩
      next heq =>
        obtain rfl : 1 = e := not_not.mp heq
        exact ⟨1, 1, a', rfl, (Partitioned.refl hparted).after hperm hkeep⟩

theorem small_sort_spec (a : List Int) :
    ∃ out, small_sort a = some out ∧ out.Perm a ∧ out.Pairwise (· ≤ ·) := by
  unfold small_sort
  split
  next => exact ⟨_, rfl, .refl _, .nil⟩
  next x => exact ⟨_, rfl, .refl _, List.pairwise_singleton _ x⟩
  next x y =>
    obtain ⟨hs, hp⟩ := sort2_spec x y
    exact ⟨_, rfl, hp, hs⟩
  next p0 p1 p2 =>
    obtain ⟨hs, hp⟩ := sort3_spec p0 p1 p2
    exact ⟨_, rfl, hp, hs⟩
  next p0 p1 p2 p3 =>
    obtain ⟨hs, hp⟩ := sort4_spec p0 p1 p2 p3
    exact ⟨_, rfl, hp, hs⟩
  next hnil _ _ _ _ =>
    cases a with
    | nil => exact absurd rfl hnil
    | cons x a => exact insert_all_sorted (inserts_move true) x a

theorem try_incomplete_spec (swaps : Nat) (left right : List Int) :
    ∃ done l r, try_incomplete swaps left right = some (done, l, r) ∧ l.Perm left ∧ r.Perm right ∧
      (done = true → l.Pairwise (· ≤ ·) ∧ r.Pairwise (· ≤ ·)) := by
  unfold try_incomplete
  split
  next =>
    obtain ⟨done, l, hl, hpl, hsl⟩ := incomplete_insertion_spec left
    simp only [hl, Option.bind_eq_bind, Option.bind_some]
    cases done with
    | false => exact ⟨false, l, right, rfl, hpl, .refl right, fun h => by cases h⟩
    | true =>
      obtain ⟨done, r, hr, hpr, hsr⟩ := incomplete_insertion_spec right
      simp only [hr, Option.bind_some, if_true]
      exact ⟨done, l, r, rfl, hpl, hpr, fun h => ⟨hsl rfl, hsr h⟩⟩
  next => exact ⟨false, left, right, rfl, .refl _, .refl _, fun h => by cases h⟩

/-- One turn of the loop up to the swap of the pivot. -/
theorem split_spec (hlen : 20 < a.length) :
    ∃ a₁ p mid swaps a₂ l r, iter_swap a (a.length / 2) (a.length - 1) = some a₁ ∧
      a₁[a.length - 1]? = some p ∧ partition a₁ p = some (mid, swaps, a₂) ∧
      iter_swap a₂ mid (a.length - 1) = some (l ++ p :: r) ∧ l.length = mid ∧
      (l ++ p :: r).Perm a ∧ (∀ x ∈ l, x ≤ p) ∧ ∀ x ∈ r, p ≤ x := by
  have hmid : a.length / 2 < a.length := by omega
  have hlast : a.length - 1 < a.length := by omega
  obtain ⟨a₁, h₁, hp₁, -, hx, -⟩ := iter_swap_spec (List.getElem?_eq_getElem hmid)
    (List.getElem?_eq_getElem hlast)
  have hn : a₁.length = a.length - 1 + 1 := by
    rw [hp₁.length_eq]
    omega
  obtain ⟨mid, swaps, a₂, h₂, hpart⟩ := partition_spec hn hx
  have hpivot : decide (a[a.length / 2] < a[a.length / 2]) = false := decide_eq_false (lt_irrefl _)
  obtain ⟨l, r, h₃, hl, hperm, hlp, hpr⟩ :=
    (hpart.pivoted hn hx hpivot).place_pivot hn hpivot
  refine ⟨a₁, _, mid, swaps, a₂, l, r, h₁, hx, h₂, h₃, hl, hperm.trans hp₁, fun x hl => ?_,
    fun x hr => ?_⟩
  · exact (of_decide_eq_true (hlp x hl)).le
  · exact not_lt.mp (of_decide_eq_false (hpr x hr))

theorem sort_range_spec {fuel : Nat} (hfuel : a.length < fuel) (depth max : Nat) :
    ∃ out, sort_range fuel a depth max = some out ∧ out.Perm a ∧ out.Pairwise (· ≤ ·) := by
  induction fuel generalizing a depth with
  | zero => exact absurd hfuel (Nat.not_lt_zero _)
  | succ fuel ih =>
    unfold sort_range
    split
    next hlen =>
      dsimp only
      split
      next =>
        obtain ⟨a₁, p, mid, swaps, a₂, l, r, h₁, hp, h₂, h₃, rfl, hperm, hlp, hpr⟩ :=
          split_spec hlen
        obtain ⟨done, l', r', htry, hpl, hpr', hdone⟩ := try_incomplete_spec swaps l r
        have hsplit := hperm.length_eq
        rw [List.length_append, List.length_cons, ← hpl.length_eq, ← hpr'.length_eq] at hsplit
        obtain ⟨lo, hlo, hplo, hslo⟩ := @ih l' (by omega) (depth + 1)
        obtain ⟨ro, hro, hpro, hsro⟩ := @ih r' (by omega) (depth + 1)
        -- sorted parts, however they were sorted
        have hout : ∀ {lo ro : List Int}, lo.Perm l' → ro.Perm r' → lo.Pairwise (· ≤ ·) →
            ro.Pairwise (· ≤ ·) → (lo ++ p :: ro).Perm a ∧ (lo ++ p :: ro).Pairwise (· ≤ ·) := by
          intro lo ro hlo hro hslo hsro
          have hlo := hlo.trans hpl
          have hro := hro.trans hpr'
          exact ⟨(hlo.append (hro.cons p)).trans hperm, sorted_around hlo hro hslo hsro hlp hpr⟩
        have hread : (l ++ p :: r)[l.length]? = some p := getElem?_length_append
        have hright : (l ++ p :: r).drop (l.length + 1) = r := by
          rw [List.append_cons, ← List.length_singleton (a := p), ← List.length_append,
            List.drop_left]
        simp only [h₁, hp, h₂, h₃, hread, hright, htry, List.take_left, Option.bind_eq_bind,
          Option.bind_some, Option.pure_def]
        split
        next h =>
          obtain ⟨hsl, hsr⟩ := hdone h
          exact ⟨_, rfl, hout (.refl _) (.refl _) hsl hsr⟩
        next =>
          split
          next =>
            simp only [hlo, hro, Option.bind_some]
            exact ⟨_, rfl, hout hplo hpro hslo hsro⟩
          next =>
            simp only [hlo, hro, Option.bind_some]
            exact ⟨_, rfl, hout hplo hpro hslo hsro⟩
      next => exact ⟨_, rfl, List.mergeSort_perm a _, List.pairwise_mergeSort' (· ≤ ·) a⟩
    next => exact small_sort_spec a

end MonitorSwapsLemmas

open MonitorSwapsLemmas

theorem sort_spec (a : List Int) :
    (∃ out, sort a = some out ∧ out.Perm a ∧ out.Pairwise (· ≤ ·)) ∧
      ∃ done out, incomplete_insertion a = some (done, out) ∧ out.Perm a ∧
        (done = true → out.Pairwise (· ≤ ·)) :=
  ⟨sort_range_spec (Nat.lt_succ_self a.length) 0 _, incomplete_insertion_spec a⟩

end Kuhllib.MonitorSwaps
