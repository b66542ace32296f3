import Kuhllib.Lib.RangePartition
import Mathlib.Logic.Relation

/-!
# `fat_quicksort`

A call gets the list of the elements of its range; an access outside of that range fails. A
nested call uses one unit of fuel. The predicates hold the value of `*pivot`: nothing writes
there while they are used.

The range is split around its last element. If nothing is less, a second partition moves
the elements that are equivalent to the front. Its predicate holds for the pivot, too, so
the pivot does not stop the scan of `internal_sentinel_partition`.

Results:
1. `fat_split_cases`: a range is split unless the second scan runs beyond its end.
2. `fat_sorts_iff`: the ranges on which the sort does what it is for. `not_fat_sorts`: not all.
-/

namespace Kuhllib.FatQuicksort

open RangeSort

variable {α : Type}

/-! ## Model -/

def simple_partition (pred : α → Bool) (a : List α) (end' : Nat) : Option (Nat × List α) :=
  simple_loop pred (end' + 1) a 0 end'

def manual_partition (pred : α → Bool) (a : List α) (end' : Nat) : Option (Nat × List α) :=
  manual_loop pred (end' + 1) a 0 end'

def internal_sentinel_partition (pred : α → Bool) (a : List α) (end' : Nat) :
    Option (Nat × List α) :=
  sentinel_partition pred (end' + 1) a end'

/-- The template argument. -/
inductive Partition where
  | simple_partition
  | manual_partition
  | internal_sentinel_partition
deriving DecidableEq

/-- The partition of `[begin, end)`. -/
def Partition.run : Partition → (α → Bool) → List α → Nat → Option (Nat × List α)
  | .simple_partition => FatQuicksort.simple_partition
  | .manual_partition => FatQuicksort.manual_partition
  | .internal_sentinel_partition => FatQuicksort.internal_sentinel_partition

section

variable [LT α] [DecidableLT α]

/-- Whether there are elements for a nested call in front of `mid`, and `mid` behind the
partitions. -/
def fat_split (partition : Partition) (a : List α) : Option (Bool × Nat × List α) := do
  let pivot := a.length - 1
  let p ← a[pivot]?
  let (mid, a) ← partition.run (fun arg => arg < p) a pivot
  if 0 ≠ mid then some (true, mid, a)
  else
    let p ← a[pivot]?
    let (mid, a) ← partition.run (fun arg => !decide (p < arg)) a pivot
    some (false, mid, a)

def fat_quicksort (Size : Int) (partition : Partition) : Nat → List α → Option (List α)
  | 0, _ => none
  | fuel + 1, a => do
    if Size < a.length then
      let pivot := a.length - 1
      let (below, mid, a) ← fat_split partition a
      let front ←
        if below then fat_quicksort Size partition fuel (a.take mid) else some (a.take mid)
      let a ← iter_swap (front ++ a.drop mid) mid pivot
      let back ← fat_quicksort Size partition fuel (a.drop (mid + 1))
      some (a.take (mid + 1) ++ back)
    else some a

/-- The call returns, and leaves the elements in order if no range of two is left as it is. -/
def Sorts (Size : Int) (partition : Partition) (a : List α) : Prop :=
  ∃ fuel out, fat_quicksort Size partition fuel a = some out ∧ out.Perm a ∧
    (Size ≤ 1 → out.Pairwise fun x y => ¬ y < x)

/-- A range and that of a nested call. -/
def Next (Size : Int) (partition : Partition) (a b : List α) : Prop :=
  Size < a.length ∧ ∃ below mid a', fat_split partition a = some (below, mid, a') ∧
    (below = true ∧ b = a'.take mid ∨
      ∃ a'', iter_swap a' mid (a.length - 1) = some a'' ∧ b = a''.drop (mid + 1))

/-- Not all elements are equivalent. -/
def Differs (a : List α) : Prop :=
  ∃ x ∈ a, ∃ y ∈ a, x < y

end

/-! ## 1. One call -/

namespace FatQuicksortLemmas

section

variable {pred : α → Bool} {front front' : List α} {p : α}

/-- The parts in front of the point and behind it. -/
theorem split_front {mid : Nat} {run : Option (Nat × List α)}
    (hrun : run = some (mid, front' ++ [p])) (hperm : front'.Perm front)
    (hparted : Parted pred front' mid mid) (hmid : mid ≤ front'.length) :
    ∃ l r, run = some (l.length, l ++ r ++ [p]) ∧ (l ++ r).Perm front ∧
      (∀ x ∈ l, pred x = true) ∧ ∀ x ∈ r, pred x = false := by
  refine ⟨front'.take mid, front'.drop mid, ?_, ?_, hparted.take, hparted.drop⟩
  · rw [List.take_append_drop, List.length_take, Nat.min_eq_left hmid]
    exact hrun
  · rwa [List.take_append_drop]

theorem parted_zero (pred : α → Bool) (front : List α) : Parted pred front 0 front.length :=
  ⟨fun i _ hi => absurd hi (Nat.not_lt_zero i), fun _ _ hi hx =>
    absurd (List.getElem?_eq_some_iff.mp hx).1 (Nat.not_lt.mpr hi)⟩

/-- The pivot stops the scan from the front. -/
theorem sentinel_last (hne : front ≠ []) (hp : pred p = false) :
    ∃ l r, internal_sentinel_partition pred (front ++ [p]) front.length =
        some (l.length, l ++ r ++ [p]) ∧ (l ++ r).Perm front ∧ (∀ x ∈ l, pred x = true) ∧
      ∀ x ∈ r, pred x = false := by
  have hlen : (front ++ [p]).length = front.length + 1 := List.length_append
  have hlast : (front ++ [p])[front.length]? = some p := getElem?_length_append
  have hnone := NoneFrom.last hlen hlast hp
  obtain ⟨mid, a', hrun, h⟩ := sentinel_partition_spec (List.length_pos_iff.mpr hne)
    (by rw [hlen]; exact Nat.le_succ _) (Nat.lt_succ_self front.length) hnone
    ⟨front.length, p, Nat.zero_le _, hlast, hp⟩
  have hpivoted := h.pivoted hlen hlast hp
  have hmid := hpivoted.mid_le hp
  -- the pivot stays behind the other elements
  have hsplit := split_at hpivoted.last
  have hrest : a'.drop (front.length + 1) = [] :=
    List.drop_eq_nil_of_le (Nat.le_of_eq (h.perm.length_eq.trans hlen))
  rw [hrest] at hsplit
  have hlen' : (a'.take front.length).length = front.length := by
    rw [List.length_take, h.perm.length_eq, hlen]
    exact Nat.min_eq_left (Nat.le_succ _)
  have hread : ∀ (i : Nat) (x : α), (a'.take front.length)[i]? = some x → a'[i]? = some x := by
    intro i x hx
    rw [hsplit]
    exact getElem?_append_of_some hx [p]
  have hperm := h.perm
  rw [hsplit] at hperm hrun
  exact split_front hrun ((List.perm_append_right_iff [p]).mp hperm)
    ⟨fun i x hi hx => h.parted.front i x hi (hread i x hx),
      fun i x hi hx => h.parted.back i x hi (hread i x hx)⟩ (by rwa [hlen'])

theorem run_spec (partition : Partition)
    (h : partition = .internal_sentinel_partition →
      front ≠ [] ∧ pred p = false ∨ ∃ x ∈ front, pred x = false) :
    ∃ l r, partition.run pred (front ++ [p]) front.length = some (l.length, l ++ r ++ [p]) ∧
      (l ++ r).Perm front ∧ (∀ x ∈ l, pred x = true) ∧ ∀ x ∈ r, pred x = false := by
  have hlen := Nat.le_refl front.length
  cases partition with
  | simple_partition =>
    obtain ⟨mid, front', hrun, hpart, hmid⟩ := simple_loop_spec (Nat.lt_succ_self _)
      (Nat.zero_le _) hlen (parted_zero pred front)
    exact split_front (simple_loop_append hrun) hpart.perm hpart.parted
      (by rwa [hpart.perm.length_eq])
  | manual_partition =>
    obtain ⟨mid, front', hrun, hpart, hmid⟩ := manual_loop_spec (Nat.lt_succ_self _)
      (Nat.zero_le _) hlen (parted_zero pred front)
    exact split_front (manual_loop_append hrun) hpart.perm hpart.parted
      (by rwa [hpart.perm.length_eq])
  | internal_sentinel_partition =>
    rcases h rfl with ⟨hne, hp⟩ | ⟨x, hx, hpx⟩
    · exact sentinel_last hne hp
    · -- the scan does not get as far as the pivot
      obtain ⟨i, hi⟩ := List.mem_iff_getElem?.mp hx
      obtain ⟨mid, front', hrun, hpart⟩ := sentinel_partition_spec
        (List.length_pos_of_mem hx) hlen (Nat.lt_succ_self _) (parted_zero pred front).back
        ⟨i, x, Nat.zero_le i, hi, hpx⟩
      exact split_front (sentinel_partition_append hrun) hpart.perm hpart.parted
        (Nat.le_of_lt (hpart.mid_lt ⟨x, hx, hpx⟩))

end

section

variable [Preorder α] [DecidableLT α]

/-- A range with the last element in place. -/
structure Level (partition : Partition) (a : List α) (below : Bool) (p : α) (l r : List α) :
    Prop where
  split : fat_split partition a = some (below, l.length, l ++ r ++ [p])
  perm : (l ++ r ++ [p]).Perm a
  left : ∀ x ∈ l, x ≤ p
  right : ∀ x ∈ r, p ≤ x
  level : below = false → ∀ x ∈ l, p ≤ x

/-- The first partition finds nothing, and the second one goes on with what it has left. -/
theorem fat_split_level {partition : Partition} {front front' : List α} {p : α}
    (hrun : partition.run (fun arg => decide (arg < p)) (front ++ [p]) front.length =
      some (0, front' ++ [p])) (hlen : front'.length = front.length) :
    fat_split partition (front ++ [p]) =
      (partition.run (fun arg => !decide (p < arg)) (front' ++ [p]) front'.length).bind
        fun (mid, a) => some (false, mid, a) := by
  unfold fat_split
  rw [List.length_append, List.length_singleton, Nat.add_sub_cancel]
  simp only [getElem?_length_append, Option.bind_eq_bind, Option.bind_some, hrun]
  rw [if_neg (not_not.mpr rfl), ← hlen, getElem?_length_append]
  rfl

/-- The scan from the front of the second partition runs beyond the pivot. -/
theorem fat_split_runs_off {front front' : List α} {p : α}
    (hrun : Partition.internal_sentinel_partition.run (fun arg => decide (arg < p)) (front ++ [p])
      front.length = some (0, front' ++ [p])) (hlen : front'.length = front.length)
    (h : ∀ x ∈ front', ¬ p < x) :
    fat_split .internal_sentinel_partition (front ++ [p]) = none := by
  have hnone := @sentinel_partition_all _ (fun arg => !decide (p < arg)) (front' ++ [p])
    (fun x hx => by
      rw [Bool.not_eq_true', decide_eq_false_iff_not]
      rcases List.mem_append.mp hx with hx | hx
      · exact h x hx
      · rw [List.mem_singleton.mp hx]
        exact lt_irrefl p) (front'.length + 1) front'.length
  rw [fat_split_level hrun hlen, Partition.run, internal_sentinel_partition, hnone]
  rfl

/-- The only element does not stop the scan from the end. -/
theorem fat_split_single (p : α) :
    fat_split .internal_sentinel_partition [p] = none := by
  have hnone := @sentinel_partition_empty α (fun arg => decide (arg < p)) [p] p 1 rfl
    (decide_eq_false (lt_irrefl p))
  unfold fat_split Partition.run internal_sentinel_partition
  simp only [List.length_singleton, Nat.sub_self, List.getElem?_cons_zero, Option.bind_eq_bind,
    Option.bind_some, hnone, Option.bind_none]

variable [@Std.Total α (· ≤ ·)]

/-- The first partition finds elements for the front. -/
theorem level_below {partition : Partition} {front l r : List α} {p : α} (hl : l ≠ [])
    (hrun : partition.run (fun arg => decide (arg < p)) (front ++ [p]) front.length =
      some (l.length, l ++ r ++ [p])) (hperm : (l ++ r).Perm front) (hlp : ∀ x ∈ l, x < p)
    (hpr : ∀ x ∈ r, ¬ x < p) : Level partition (front ++ [p]) true p l r := by
  refine ⟨?_, hperm.append_right [p], fun x hx => (hlp x hx).le,
    fun x hx => le_of_not_lt' (hpr x hx), fun h => by cases h⟩
  unfold fat_split
  rw [List.length_append, List.length_singleton, Nat.add_sub_cancel]
  simp only [getElem?_length_append, Option.bind_eq_bind, Option.bind_some, hrun]
  exact if_pos (Ne.symm (mt List.length_eq_zero_iff.mp hl))

/-- The second partition finds the elements for the front. -/
theorem level_equal {partition : Partition} {front front' : List α} {p : α}
    (hrun : partition.run (fun arg => decide (arg < p)) (front ++ [p]) front.length =
      some (0, front' ++ [p])) (hperm : front'.Perm front) (hmin : ∀ x ∈ front', ¬ x < p)
    (h : partition = .internal_sentinel_partition → ∃ x ∈ front', p < x) :
    ∃ l r, Level partition (front ++ [p]) false p l r := by
  obtain ⟨l, r, hrun', hperm', hlp, hpr⟩ :=
    @run_spec _ (fun arg => !decide (p < arg)) front' p partition fun hq => by
      obtain ⟨x, hx, hpx⟩ := h hq
      exact .inr ⟨x, hx, by rw [decide_eq_true hpx]; rfl⟩
  have hle : ∀ x ∈ l ++ r, p ≤ x := fun x hx => le_of_not_lt' (hmin x (hperm'.mem_iff.mp hx))
  refine ⟨l, r, ?_, (hperm'.trans hperm).append_right [p], fun x hx => ?_,
    fun x hx => hle x (List.mem_append_right l hx), fun _ x hx => hle x (List.mem_append_left r hx)⟩
  · rw [fat_split_level hrun hperm.length_eq, hrun']
    rfl
  · have := hlp x hx
    rw [Bool.not_eq_true', decide_eq_false_iff_not] at this
    exact le_of_not_lt' this

theorem fat_split_concat (partition : Partition) (front : List α) (p : α) :
    (fat_split partition (front ++ [p]) = none ∧ partition = .internal_sentinel_partition ∧
        ¬ Differs (front ++ [p])) ∨
      (partition = .internal_sentinel_partition → Differs (front ++ [p])) ∧
        ∃ below l r, Level partition (front ++ [p]) below p l r := by
  by_cases hempty : partition = .internal_sentinel_partition ∧ front = []
  · obtain ⟨rfl, rfl⟩ := hempty
    refine .inl ⟨fat_split_single p, rfl, ?_⟩
    rintro ⟨x, hx, y, hy, hxy⟩
    rw [List.mem_singleton.mp hx, List.mem_singleton.mp hy] at hxy
    exact lt_irrefl p hxy
  obtain ⟨l, r, hrun, hperm, hlp, hpr⟩ := @run_spec _ (fun arg => decide (arg < p)) front p
    partition fun hq => .inl ⟨fun h => hempty ⟨hq, h⟩, decide_eq_false (lt_irrefl p)⟩
  replace hlp : ∀ x ∈ l, x < p := fun x hx => of_decide_eq_true (hlp x hx)
  replace hpr : ∀ x ∈ r, ¬ x < p := fun x hx => of_decide_eq_false (hpr x hx)
  have hlast : p ∈ front ++ [p] := List.mem_append_right _ List.mem_cons_self
  by_cases hl : l = []
  · subst hl
    by_cases hgreater : ∃ x ∈ r, p < x
    · obtain ⟨x, hx, hpx⟩ := hgreater
      exact .inr ⟨fun _ => ⟨p, hlast, x, List.mem_append_left _ (hperm.mem_iff.mp hx), hpx⟩,
        false, level_equal hrun hperm hpr fun _ => ⟨x, hx, hpx⟩⟩
    · by_cases hq : partition = .internal_sentinel_partition
      · subst hq
        refine .inl ⟨fat_split_runs_off hrun hperm.length_eq fun x hx hpx => hgreater ⟨x, hx, hpx⟩,
          rfl, ?_⟩
        -- all elements are equivalent to the pivot
        have hequal : ∀ x ∈ front ++ [p], ¬ x < p ∧ ¬ p < x := by
          intro x hx
          rcases List.mem_append.mp hx with hx | hx
          · have hx' := hperm.mem_iff.mpr hx
            exact ⟨hpr x hx', fun hpx => hgreater ⟨x, hx', hpx⟩⟩
          · rw [List.mem_singleton.mp hx]
            exact ⟨lt_irrefl p, lt_irrefl p⟩
        rintro ⟨x, hx, y, hy, hxy⟩
        exact (hequal y hy).2 (lt_of_le_of_lt (le_of_not_lt' (hequal x hx).1) hxy)
      · exact .inr ⟨fun h => absurd h hq, false, level_equal hrun hperm hpr fun h => absurd h hq⟩
  · refine .inr ⟨fun _ => ?_, true, l, r, level_below hl hrun hperm hlp hpr⟩
    obtain ⟨x, hx⟩ := List.exists_mem_of_ne_nil l hl
    exact ⟨x, List.mem_append_left _ (hperm.mem_iff.mp (List.mem_append_left r hx)), p, hlast,
      hlp x hx⟩

end

end FatQuicksortLemmas

open FatQuicksortLemmas

section

variable [Preorder α] [@Std.Total α (· ≤ ·)] [DecidableLT α]

theorem fat_split_cases (partition : Partition) (a : List α) :
    (fat_split partition a = none ∧
        (a = [] ∨ partition = .internal_sentinel_partition ∧ ¬ Differs a)) ∨
      (partition = .internal_sentinel_partition → Differs a) ∧
        ∃ below p l r, Level partition a below p l r := by
  rcases List.eq_nil_or_concat a with rfl | ⟨front, p, rfl⟩
  · exact .inl ⟨rfl, .inl rfl⟩
  · rw [List.concat_eq_append]
    rcases fat_split_concat partition front p with ⟨hnone, h⟩ | ⟨h, below, l, r, hlevel⟩
    · exact .inl ⟨hnone, .inr h⟩
    · exact .inr ⟨h, below, p, l, r, hlevel⟩

end

/-! ## 2. The whole sort -/

namespace FatQuicksortLemmas

section

variable [Preorder α] [DecidableLT α] {Size : Int} {partition : Partition} {fuel : Nat}
  {a l r : List α} {below : Bool} {p : α}

theorem Level.length (h : Level partition a below p l r) :
    a.length = l.length + r.length + 1 := by
  rw [← h.perm.length_eq, List.length_append, List.length_append]
  rfl

theorem Level.swap (h : Level partition a below p l r) {lo : List α} (hlo : lo.length = l.length) :
    iter_swap (lo ++ (r ++ [p])) l.length (a.length - 1) = some (lo ++ p :: r.rotate 1) := by
  rw [h.length, Nat.add_sub_cancel, ← hlo, ← List.append_assoc]
  exact iter_swap_last lo r p

/-- The nested calls. -/
theorem Level.call (h : Level partition a below p l r) (hsize : Size < a.length)
    (hl : ∀ lo, fat_quicksort Size partition fuel l = some lo → lo.length = l.length) :
    fat_quicksort Size partition (fuel + 1) a =
      (if below then fat_quicksort Size partition fuel l else some l).bind fun lo =>
        (fat_quicksort Size partition fuel (r.rotate 1)).map (lo ++ p :: ·) := by
  have hrest : ∀ lo : List α, lo.length = l.length →
      ((iter_swap (lo ++ (r ++ [p])) l.length (a.length - 1)).bind fun a =>
        (fat_quicksort Size partition fuel (a.drop (l.length + 1))).bind fun back =>
          some (a.take (l.length + 1) ++ back)) =
      (fat_quicksort Size partition fuel (r.rotate 1)).map (lo ++ p :: ·) := by
    intro lo hlen
    rw [h.swap hlen, Option.bind_some, ← hlen, drop_pivot, take_pivot]
    cases fat_quicksort Size partition fuel (r.rotate 1) with
    | none => rfl
    | some ro =>
      rw [Option.bind_some, Option.map_some, List.append_assoc]
      rfl
  rw [fat_quicksort, if_pos hsize]
  simp only [h.split, Option.bind_eq_bind, Option.bind_some, List.append_assoc, List.take_left,
    List.drop_left]
  cases below with
  | false => exact hrest l rfl
  | true =>
    cases hlo : fat_quicksort Size partition fuel l with
    | none => rfl
    | some lo => exact hrest lo (hl lo hlo)

theorem Level.next_left (h : Level partition a true p l r) (hsize : Size < a.length) :
    Next Size partition a l :=
  ⟨hsize, true, _, _, h.split, .inl ⟨rfl, by rw [List.append_assoc, List.take_left]⟩⟩

theorem Level.next_right (h : Level partition a below p l r) (hsize : Size < a.length) :
    Next Size partition a (r.rotate 1) := by
  refine ⟨hsize, below, _, _, h.split, .inr ⟨_, ?_, (drop_pivot l _ p).symm⟩⟩
  rw [List.append_assoc]
  exact h.swap rfl

theorem Level.next_cases (h : Level partition a below p l r) {b : List α}
    (hnext : Next Size partition a b) : below = true ∧ b = l ∨ b = r.rotate 1 := by
  obtain ⟨-, below', mid, a', hsplit, hb⟩ := hnext
  rw [h.split, Option.some.injEq, Prod.mk.injEq, Prod.mk.injEq] at hsplit
  obtain ⟨rfl, rfl, rfl⟩ := hsplit
  rw [List.append_assoc] at hb
  rcases hb with ⟨hbelow, rfl⟩ | ⟨a'', hswap, rfl⟩
  · exact .inl ⟨hbelow, List.take_left⟩
  · rw [h.swap rfl, Option.some.injEq] at hswap
    rw [← hswap]
    exact .inr (drop_pivot l _ p)

/-- What is behind the last nested call is never reached. -/
theorem fat_quicksort_negative (hsize : Size < 0) (partition : Partition) (fuel : Nat)
    (a : List α) : fat_quicksort Size partition fuel a = none := by
  induction fuel generalizing a with
  | zero => rfl
  | succ fuel ih =>
    rw [fat_quicksort, if_pos (by omega)]
    simp only [ih, Option.bind_eq_bind, Option.bind_none, Option.bind_fun_none, ite_self]

variable [@Std.Total α (· ≤ ·)]

theorem fat_quicksort_perm {out : List α} (h : fat_quicksort Size partition fuel a = some out) :
    out.Perm a := by
  induction fuel generalizing a out with
  | zero => cases h
  | succ fuel ih =>
    by_cases hsize : Size < a.length
    · rcases fat_split_cases partition a with ⟨hnone, -⟩ | ⟨-, below, p, l, r, hlevel⟩
      · rw [fat_quicksort, if_pos hsize, hnone] at h
        cases h
      · rw [hlevel.call hsize fun lo hlo => (ih hlo).length_eq] at h
        obtain ⟨lo, hlo, h⟩ := Option.bind_eq_some_iff.mp h
        obtain ⟨ro, hro, rfl⟩ := Option.map_eq_some_iff.mp h
        have hpl : lo.Perm l := by
          split at hlo
          · exact ih hlo
          · rw [Option.some.inj hlo]
        have hpr : ro.Perm r := (ih hro).trans (r.rotate_perm 1)
        refine (hpl.append (hpr.cons p)).trans (List.Perm.trans ?_ hlevel.perm)
        rw [List.append_assoc]
        exact (@List.perm_append_comm _ [p] r).append_left l
    · rw [fat_quicksort, if_neg hsize] at h
      rw [Option.some.inj h]

/-- The result of a call, of the nested calls. -/
theorem Level.call_eq (h : Level partition a below p l r) (hsize : Size < a.length) :
    fat_quicksort Size partition (fuel + 1) a =
      (if below then fat_quicksort Size partition fuel l else some l).bind fun lo =>
        (fat_quicksort Size partition fuel (r.rotate 1)).map (lo ++ p :: ·) :=
  h.call hsize fun _ hlo => (fat_quicksort_perm hlo).length_eq

/-- What a call leaves, whatever the sizes of the ranges are. -/
structure Leaves (Size : Int) (P : List α → Prop) : Prop where
  few : ∀ a, a.length ≤ Size → P a
  sorted : ∀ a, a.Pairwise (· ≤ ·) → P a
  around : ∀ l p r, P l → P r → (∀ x ∈ l, x ≤ p) → (∀ x ∈ r, p ≤ x) → P (l ++ p :: r)

/-- A range all of whose parts can be split is sorted down to the size. -/
theorem fat_quicksort_spec {P : List α → Prop} (hP : Leaves Size P) (hsize : 0 ≤ Size)
    (hfuel : a.length < fuel)
    (h : ∀ b, Relation.ReflTransGen (Next Size partition) a b → Size < b.length →
      partition = .internal_sentinel_partition → Differs b) :
    ∃ out, fat_quicksort Size partition fuel a = some out ∧ out.Perm a ∧ P out := by
  induction fuel generalizing a with
  | zero => exact absurd hfuel (Nat.not_lt_zero _)
  | succ fuel ih =>
    by_cases hlt : Size < a.length
    · rcases fat_split_cases partition a with ⟨-, rfl | ⟨hq, hno⟩⟩ | ⟨-, below, p, l, r, hlevel⟩
      · exact absurd hlt (Int.not_lt.mpr hsize)
      · exact absurd (h a .refl hlt hq) hno
      · have hlen := hlevel.length
        obtain ⟨ro, hro, hpr, hPr⟩ := @ih (r.rotate 1) (by rw [List.length_rotate]; omega)
          fun b hb => h b (.head (hlevel.next_right hlt) hb)
        obtain ⟨lo, hlo, hpl, hPl⟩ : ∃ lo,
            (if below then fat_quicksort Size partition fuel l else some l) = some lo ∧
              lo.Perm l ∧ P lo := by
          cases below with
          | true => exact @ih l (by omega) fun b hb => h b (.head (hlevel.next_left hlt) hb)
          | false =>
            have hequal : l.Pairwise (· ≤ ·) := List.pairwise_of_forall_mem_list fun x hx y hy =>
              (hlevel.left x hx).trans (hlevel.level rfl y hy)
            exact ⟨l, rfl, .refl l, hP.sorted l hequal⟩
        have hpr' := hpr.trans (r.rotate_perm 1)
        have hout : fat_quicksort Size partition (fuel + 1) a = some (lo ++ p :: ro) := by
          rw [hlevel.call_eq hlt, hlo, Option.bind_some, hro, Option.map_some]
        exact ⟨_, hout, fat_quicksort_perm hout, hP.around lo p ro hPl hPr
          (fun x hx => hlevel.left x (hpl.mem_iff.mp hx))
          fun x hx => hlevel.right x (hpr'.mem_iff.mp hx)⟩
    · refine ⟨a, ?_, .refl a, hP.few a (Int.not_lt.mp hlt)⟩
      rw [fat_quicksort, if_neg hlt]

/-- A call that returns has split every range that it has reached. -/
theorem fat_quicksort_splits {out : List α}
    (h : fat_quicksort Size partition fuel a = some out) (b : List α)
    (hb : Relation.ReflTransGen (Next Size partition) a b) (hsize : Size < b.length)
    (hq : partition = .internal_sentinel_partition) : Differs b := by
  induction fuel generalizing a out with
  | zero => cases h
  | succ fuel ih =>
    by_cases hlt : Size < a.length
    · rcases fat_split_cases partition a with ⟨hnone, -⟩ | ⟨hdiffers, below, p, l, r, hlevel⟩
      · rw [fat_quicksort, if_pos hlt, hnone] at h
        cases h
      · rw [hlevel.call_eq hlt] at h
        obtain ⟨lo, hlo, h⟩ := Option.bind_eq_some_iff.mp h
        obtain ⟨ro, hro, -⟩ := Option.map_eq_some_iff.mp h
        rcases Relation.ReflTransGen.cases_head hb with rfl | ⟨c, hc, hb⟩
        · exact hdiffers hq
        · rcases hlevel.next_cases hc with ⟨rfl, rfl⟩ | rfl
          · exact ih hlo hb
          · exact ih hro hb
    · -- nothing is called
      rcases Relation.ReflTransGen.cases_head hb with rfl | ⟨c, hc, -⟩
      · exact absurd hsize hlt
      · exact absurd hc.1 hlt

omit [DecidableLT α] [@Std.Total α (· ≤ ·)] in
theorem leaves_sorted (hsize : Size ≤ 1) :
    Leaves Size fun a : List α => a.Pairwise (· ≤ ·) where
  few a ha := by
    cases a with
    | nil => exact .nil
    | cons x a =>
      obtain rfl : a = [] := List.eq_nil_of_length_eq_zero (by rw [List.length_cons] at ha; omega)
      exact List.pairwise_singleton _ x
  sorted _ h := h
  around l _ r hl hr hlp hpr := sorted_around (.refl l) (.refl r) hl hr hlp hpr

/-- No two elements are equivalent. -/
theorem differs_of_distinct (hsize : 1 ≤ Size) (h : a.Pairwise fun x y => x < y ∨ y < x)
    {b : List α} (hb : Relation.ReflTransGen (Next Size partition) a b)
    (hlt : Size < b.length) : Differs b := by
  induction hb using Relation.ReflTransGen.head_induction_on with
  | refl =>
    match b, h with
    | [], _ | [_], _ => simp only [List.length_nil, List.length_singleton] at hlt; omega
    | x :: y :: b, h =>
      rcases (List.pairwise_cons.mp h).1 y List.mem_cons_self with hxy | hyx
      · exact ⟨x, List.mem_cons_self, y, List.mem_cons_of_mem x List.mem_cons_self, hxy⟩
      · exact ⟨y, List.mem_cons_of_mem x List.mem_cons_self, x, List.mem_cons_self, hyx⟩
  | @head a c hc _ ih =>
    obtain ⟨-, below, mid, a', hsplit, hc'⟩ := id hc
    rcases fat_split_cases partition a with ⟨hnone, -⟩ | ⟨-, below', p, l, r, hlevel⟩
    · rw [hnone] at hsplit
      cases hsplit
    · have hsymm : ∀ {x y : α}, x < y ∨ y < x → y < x ∨ x < y := Or.symm
      have hparts := (hlevel.perm.pairwise_iff hsymm).mpr h
      rw [List.append_assoc, List.pairwise_append, List.pairwise_append] at hparts
      rcases hlevel.next_cases hc with ⟨-, rfl⟩ | rfl
      · exact ih hparts.1
      · exact ih (((r.rotate_perm 1).pairwise_iff hsymm).mpr hparts.2.1.1)

theorem sorts_of_preorder (Size : Int) (partition : Partition) (a : List α) :
    (∃ fuel out, fat_quicksort Size partition fuel a = some out ∧ out.Perm a ∧
      (Size ≤ 1 → out.Pairwise (· ≤ ·))) ↔
    0 ≤ Size ∧ (partition = .internal_sentinel_partition →
      ∀ b, Relation.ReflTransGen (Next Size partition) a b → Size < b.length → Differs b) := by
  constructor
  · rintro ⟨fuel, out, h, -⟩
    refine ⟨?_, fun hq b hb hsize => fat_quicksort_splits h b hb hsize hq⟩
    by_contra hneg
    rw [fat_quicksort_negative (Int.not_le.mp hneg)] at h
    cases h
  · rintro ⟨hsize, h⟩
    by_cases hone : Size ≤ 1
    · obtain ⟨out, hout, hp, hs⟩ := fat_quicksort_spec (leaves_sorted hone) hsize
        (Nat.lt_succ_self a.length) fun b hb hlt hq => h hq b hb hlt
      exact ⟨_, out, hout, hp, fun _ => hs⟩
    · have hleaves : Leaves Size fun _ : List α => True := ⟨by simp, by simp, by simp⟩
      obtain ⟨out, hout, hp, -⟩ := fat_quicksort_spec hleaves hsize
        (Nat.lt_succ_self a.length) fun b hb hlt hq => h hq b hb hlt
      exact ⟨_, out, hout, hp, fun h => absurd h hone⟩

end

end FatQuicksortLemmas

open FatQuicksortLemmas

/-- With the other partitions there is nothing to stop. -/
theorem fat_sorts_iff [LT α] [DecidableLT α] [IsStrictWeakOrder α (· < ·)] (Size : Int)
    (partition : Partition) (a : List α) :
    Sorts Size partition a ↔
      0 ≤ Size ∧ (partition = .internal_sentinel_partition →
        ∀ b, Relation.ReflTransGen (Next Size partition) a b → Size < b.length → Differs b) := by
  let := weakPreorder α
  have := weakPreorder_total (α := α)
  exact sorts_of_preorder Size partition a

theorem fat_sorts_iff_example : Sorts 1 .internal_sentinel_partition ([2, 3, 1] : List Nat) :=
  (@fat_sorts_iff Nat _ _ _ 1 .internal_sentinel_partition [2, 3, 1]).mpr
    ⟨by decide, fun _ _ hb hlt => differs_of_distinct (by decide) (by decide) hb hlt⟩

/-- Nothing stops the second partition of two equal elements. -/
theorem not_fat_sorts : ¬ ∀ (partition : Partition) (a : List Nat), Sorts 1 partition a := by
  intro h
  obtain ⟨fuel, out, hrun, -⟩ := h .internal_sentinel_partition [1, 1]
  obtain ⟨x, hx, y, hy, hxy⟩ := fat_quicksort_splits hrun [1, 1] .refl (by decide) rfl
  simp only [List.mem_cons, List.not_mem_nil, or_false, or_self] at hx hy
  exact absurd hxy (by rw [hx, hy]; decide)

end Kuhllib.FatQuicksort
