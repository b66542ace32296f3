import Kuhllib.QuickerSorting.IntQuicksorts
import Kuhllib.QuickerSorting.MonitorSwaps
import Mathlib.Algebra.Ring.Nat

/-!
# The sorts of `demo-sort.hpp`

The sorts before `monitor_swaps` are steps on the way to it. They share their shape: a short
range is a matter for the end, the pivot goes to the last place, the range is split around it,
and both parts are sorted, by calls or by going on with the loop. Each of them is `run` with the
choices that it makes. A result comes with the depth of the nested calls.

1. Choices.
2. One turn.
3. What a range comes to.
4. Depths of nested calls.
5. `demos_sort`: every one of them sorts every range. `stack_depth`: how deep they go.
-/

namespace Kuhllib.DemoSorts

open RangeSort Small

/-! ## 1. Choices -/

/-- `small::sort(p0, p1, p2)`, where two of the places may be the same. -/
def sort3_at (a : List Int) (p0 p1 p2 : Nat) : Option (List Int) := do
  let x0 ← a[p0]?
  let x1 ← a[p1]?
  let x2 ← a[p2]?
  if x1 < x0 then
    if x2 < x1 then iter_swap a p0 p2
    else if x2 < x0 then
      let a := a.set p0 x1
      let y ← a[p2]?
      some ((a.set p1 y).set p2 x0)
    else iter_swap a p0 p1
  else
    if x2 < x0 then
      let a := a.set p2 x1
      let y ← a[p0]?
      some ((a.set p1 y).set p0 x2)
    else if x2 < x1 then iter_swap a p1 p2
    else some a

/-- How the pivot gets to the last place. -/
inductive Choice where
  | last
  | before_mid
  | median
  | mid

def Choice.run (q : Choice) (a : List Int) : Option (List Int) :=
  match q with
  | .last => some a
  | .before_mid => iter_swap a ((a.length - 1) / 2) (a.length - 1)
  | .median => sort3_at a 0 (a.length - 1) (a.length / 2)
  | .mid => iter_swap a (a.length / 2) (a.length - 1)

/-- The partition of the range around `p`, which is its last element and stays there. -/
inductive Split where
  | std
  | manual
  | sentinel

def Split.run (std : IntQuicksorts.StdPartition) (q : Split) (a : List Int) (p : Int) :
    Option (Nat × List Int) :=
  let pred := fun arg => decide (arg < p)
  match q with
  | .std =>
    let (mid, front) := std.run pred (a.take (a.length - 1))
    some (mid, front ++ a.drop (a.length - 1))
  | .manual => manual_loop pred (a.length + 1) a 0 a.length
  | .sentinel => do
    let (mid, _, a) ← MonitorSwaps.partition a p
    some (mid, a)

/-- What is done with a short range. -/
inductive Small where
  | none
  | insertion
  | cases

def insertion_loop (a : List Int) : Option (List Int) :=
  if a = [] then some a else insert_all (insert_move true) a 1 (a.length - 1)

def Small.run : Small → List Int → Option (List Int)
  | .none, a => some a
  | .insertion, a => insertion_loop a
  | .cases, a => MonitorSwaps.small_sort a

structure Demo where
  /-- up to this length a range is short -/
  size : Nat
  choice : Choice
  split : Split
  small : Small
  /-- too many turns end in `std::stable_sort` -/
  intro : Bool
  /-- one part is sorted by going on with the loop -/
  loop : Bool
  /-- the shorter part is sorted first -/
  shorter : Bool
  /-- all elements are inserted in the end -/
  global : Bool

def simple : Demo := ⟨1, .last, .std, .none, false, false, false, false⟩
def simple_mid : Demo := ⟨1, .before_mid, .std, .none, false, false, false, false⟩
def simple_median : Demo := ⟨1, .median, .std, .none, false, false, false, false⟩
def intro : Demo := ⟨1, .mid, .std, .none, true, false, false, false⟩
def intro_local_insertion (Size : Nat) : Demo :=
  ⟨Size, .mid, .std, .insertion, true, false, false, false⟩
def intro_global_insertion (Size : Nat) : Demo :=
  ⟨Size, .mid, .std, .none, true, false, false, true⟩
def tail_recursion : Demo := ⟨20, .mid, .std, .insertion, true, true, false, false⟩
def tail_recursion1 : Demo := ⟨20, .mid, .std, .insertion, true, true, true, false⟩
def tail_recursion2 : Demo := ⟨20, .mid, .std, .insertion, true, true, true, false⟩
def partition1 : Demo := ⟨20, .mid, .manual, .insertion, true, true, true, false⟩
def partition2 : Demo := ⟨20, .mid, .manual, .insertion, true, true, true, false⟩
def partition_sentinel1 : Demo := ⟨20, .mid, .sentinel, .insertion, true, true, true, false⟩
def partition_sentinel2 : Demo := ⟨20, .mid, .sentinel, .insertion, true, true, true, false⟩
def partition_sentinel3 : Demo := ⟨20, .mid, .sentinel, .insertion, true, true, true, false⟩
def small_ranges : Demo := ⟨20, .mid, .sentinel, .cases, true, true, true, false⟩

/-- The partition of a turn, and the swap that puts the pivot between the parts. -/
def turn (std : IntQuicksorts.StdPartition) (q : Demo) (a : List Int) :
    Option (List Int × Int × List Int) := do
  let pivot := a.length - 1
  let a ← q.choice.run a
  let p ← a[pivot]?
  let (mid, a) ← q.split.run std a p
  let a ← iter_swap a mid pivot
  let m ← a[mid]?
  some (a.take mid, m, a.drop (mid + 1))

/-- The depth below a call whose parts go so deep. -/
def nested (loop : Bool) (first second : Nat) : Nat :=
  max (first + 1) (if loop then second else second + 1)

/-- `sort(begin, end, depth, max)`. -/
def sort_range (std : IntQuicksorts.StdPartition) (q : Demo) (max : Nat) :
    Nat → List Int → Nat → Option (List Int × Nat)
  | 0, _, _ => none
  | fuel + 1, a, depth =>
    if a.length ≤ q.size then do
      let a ← q.small.run a
      some (a, 0)
    else if q.intro = true ∧ ¬depth + 1 < max then some (a.mergeSort (· ≤ ·), 0)
    else do
      let (left, m, right) ← turn std q a
      if q.shorter = false ∨ left.length < right.length + 1 then
        let (left, first) ← sort_range std q max fuel left (depth + 1)
        let (right, second) ← sort_range std q max fuel right (depth + 1)
        some (left ++ m :: right, nested q.loop first second)
      else
        let (right, first) ← sort_range std q max fuel right (depth + 1)
        let (left, second) ← sort_range std q max fuel left (depth + 1)
        some (left ++ m :: right, nested q.loop first second)

/-- `run(begin, end)`. -/
def run (std : IntQuicksorts.StdPartition) (q : Demo) (a : List Int) :
    Option (List Int × Nat) := do
  let (a, stack) ← sort_range std q (2 * a.length.log2) (a.length + 1) a 0
  let a ← if q.global then insertion_loop a else some a
  some (a, stack)

/-! ## 2. One turn -/

section Turns

variable {a : List Int} {p : Int} {n : Nat}

theorem insertion_loop_spec (a : List Int) :
    ∃ out, insertion_loop a = some out ∧ out.Perm a ∧ out.Pairwise (· ≤ ·) := by
  unfold insertion_loop
  cases a with
  | nil => exact ⟨[], rfl, .refl _, .nil⟩
  | cons x a => exact insert_all_sorted (inserts_move true) x a

/-- Moving three values round is the same as two swaps. -/
theorem rotate_perm {i j k : Nat} {x y z : Int} (hi : a[i]? = some x) (hj : a[j]? = some y)
    (hk : (a.set i y)[k]? = some z) : (((a.set i y).set j z).set k x).Perm a := by
  obtain ⟨hilt, hx⟩ := List.getElem?_eq_some_iff.mp hi
  obtain ⟨hjlt, hy⟩ := List.getElem?_eq_some_iff.mp hj
  have hset := List.set_set_perm hilt hjlt
  rw [hx, hy] at hset
  refine .trans ?_ hset
  have hjlt' : j < ((a.set i y).set j x).length := by simpa using hjlt
  have hjx : ((a.set i y).set j x)[j]? = some x :=
    List.getElem?_set_self (by simpa using hjlt)
  obtain rfl | hne := eq_or_ne k j
  · rw [List.set_set]
  have hkz : ((a.set i y).set j x)[k]? = some z := by
    rw [List.getElem?_set_ne hne.symm]
    exact hk
  obtain ⟨hklt, hz⟩ := List.getElem?_eq_some_iff.mp hkz
  obtain ⟨hjlt', hx'⟩ := List.getElem?_eq_some_iff.mp hjx
  have hswap := List.set_set_perm hjlt' hklt
  rwa [hx', hz, List.set_set] at hswap

theorem sort3_at_perm {p0 p1 p2 : Nat} (h0 : p0 < a.length) (h1 : p1 < a.length)
    (h2 : p2 < a.length) : ∃ a', sort3_at a p0 p1 p2 = some a' ∧ a'.Perm a := by
  have hx0 := List.getElem?_eq_getElem h0
  have hx1 := List.getElem?_eq_getElem h1
  have hx2 := List.getElem?_eq_getElem h2
  have hswap : ∀ {i j : Nat}, i < a.length → j < a.length →
      ∃ a', iter_swap a i j = some a' ∧ a'.Perm a := by
    intro i j hi hj
    obtain ⟨a', hs, hp, -⟩ := iter_swap_spec (List.getElem?_eq_getElem hi)
      (List.getElem?_eq_getElem hj)
    exact ⟨a', hs, hp⟩
  unfold sort3_at
  simp only [hx0, hx1, hx2, Option.bind_eq_bind, Option.bind_some]
  split
  · split
    · exact hswap h0 h2
    · split
      · obtain ⟨y, hy⟩ : ∃ y, (a.set p0 a[p1])[p2]? = some y :=
          ⟨_, List.getElem?_eq_getElem (l := a.set p0 a[p1]) (by simpa using h2)⟩
        rw [hy]
        exact ⟨_, rfl, rotate_perm hx0 hx1 hy⟩
      · exact hswap h0 h1
  · split
    · obtain ⟨y, hy⟩ : ∃ y, (a.set p2 a[p1])[p0]? = some y :=
        ⟨_, List.getElem?_eq_getElem (l := a.set p2 a[p1]) (by simpa using h0)⟩
      rw [hy]
      exact ⟨_, rfl, rotate_perm hx2 hx1 hy⟩
    · split
      · exact hswap h1 h2
      · exact ⟨a, rfl, .refl a⟩

theorem Choice.run_perm (q : Choice) (hpos : 0 < a.length) :
    ∃ a', q.run a = some a' ∧ a'.Perm a := by
  have hlast : a.length - 1 < a.length := Nat.sub_lt hpos Nat.one_pos
  have hmid : a.length / 2 < a.length := Nat.div_lt_self hpos (by decide)
  have hbefore : (a.length - 1) / 2 < a.length := Nat.lt_of_le_of_lt (Nat.div_le_self ..) hlast
  have hswap : ∀ {i : Nat}, i < a.length →
      ∃ a', iter_swap a i (a.length - 1) = some a' ∧ a'.Perm a := by
    intro i hi
    obtain ⟨a', hs, hp, -⟩ := iter_swap_spec (List.getElem?_eq_getElem hi)
      (List.getElem?_eq_getElem hlast)
    exact ⟨a', hs, hp⟩
  cases q with
  | last => exact ⟨a, rfl, .refl a⟩
  | before_mid => exact hswap hbefore
  | median => exact sort3_at_perm hpos hlast hmid
  | mid => exact hswap hmid

theorem Split.run_spec (std : IntQuicksorts.StdPartition) (q : Split) (hn : a.length = n + 1)
    (hp : a[n]? = some p) :
    ∃ mid a', q.run std a p = some (mid, a') ∧
      Pivoted (fun arg => decide (arg < p)) a a' mid n p := by
  have hpp := IntQuicksorts.not_below p
  cases q with
  | std =>
    refine ⟨_, _, rfl, ?_⟩
    rw [hn]
    exact IntQuicksorts.std_partition_spec std hn hp hpp
  | manual =>
    have hstart : Parted (fun arg => decide (arg < p)) a 0 a.length :=
      ⟨fun i _ hi => absurd hi (Nat.not_lt_zero i), fun i z hi hz => by
        rw [List.getElem?_eq_none hi] at hz
        cases hz⟩
    obtain ⟨mid, a', hrun, h, -⟩ := manual_loop_spec (Nat.lt_succ_self (a.length - 0))
      (Nat.zero_le _) (Nat.le_refl _) hstart
    exact ⟨mid, a', hrun, h.pivoted hn hp hpp⟩
  | sentinel =>
    obtain ⟨mid, swaps, a', hrun, h⟩ := MonitorSwaps.MonitorSwapsLemmas.partition_spec hn hp
    refine ⟨mid, a', ?_, h.pivoted hn hp hpp⟩
    rw [Split.run]
    dsimp only
    rw [hrun]
    rfl

/-- The parts of a turn, with the pivot between them. -/
theorem turn_spec (std : IntQuicksorts.StdPartition) (q : Demo) (hpos : 0 < a.length) :
    ∃ l p r, turn std q a = some (l, p, r) ∧ (l ++ p :: r).Perm a ∧ (∀ x ∈ l, x < p) ∧
      ∀ x ∈ r, p ≤ x := by
  obtain ⟨a₁, h₁, hp₁⟩ := q.choice.run_perm hpos
  have hn : a₁.length = a.length - 1 + 1 := by
    rw [hp₁.length_eq]
    exact (Nat.succ_pred_eq_of_pos hpos).symm
  obtain ⟨p, hp⟩ : ∃ p, a₁[a.length - 1]? = some p :=
    ⟨_, List.getElem?_eq_getElem (by rw [hn]; exact Nat.lt_succ_self _)⟩
  obtain ⟨mid, a₂, h₂, hpart⟩ := q.split.run_spec std hn hp
  have hpp := IntQuicksorts.not_below p
  obtain ⟨l, r, h₃, rfl, hperm, hlp, hpr⟩ := hpart.place_pivot hn hpp
  have hread : (l ++ p :: r)[l.length]? = some p := getElem?_length_append
  refine ⟨l, p, r, ?_, hperm.trans hp₁, fun x hx => ?_, fun x hx => ?_⟩
  · unfold turn
    simp only [h₁, hp, h₂, h₃, hread, drop_pivot, List.take_left, Option.bind_eq_bind,
      Option.bind_some]
  · exact of_decide_eq_true (hlp x hx)
  · exact not_lt.mp (of_decide_eq_false (hpr x hx))

end Turns

/-! ## 3. Sorting -/

section Sorting

variable {std : IntQuicksorts.StdPartition} {q : Demo} {a : List Int} {max depth fuel : Nat}

/-- The choices leave sorted elements: short ranges are sorted, or they need no sort, or it is
made up for in the end. -/
def Demo.Sorts (q : Demo) : Prop :=
  q.small ≠ .none ∨ q.size ≤ 1 ∨ q.global = true

theorem Small.run_perm (q : Small) (a : List Int) : ∃ out, q.run a = some out ∧ out.Perm a := by
  cases q with
  | none => exact ⟨a, rfl, .refl a⟩
  | insertion =>
    obtain ⟨out, hout, hp, -⟩ := insertion_loop_spec a
    exact ⟨out, hout, hp⟩
  | cases =>
    obtain ⟨out, hout, hp, -⟩ := MonitorSwaps.MonitorSwapsLemmas.small_sort_spec a
    exact ⟨out, hout, hp⟩

theorem Small.run_sorted {q : Small} {out : List Int} (h : q ≠ .none ∨ a.length ≤ 1)
    (hout : q.run a = some out) : out.Pairwise (· ≤ ·) := by
  cases q with
  | none =>
    cases hout
    obtain h | h := h
    · exact absurd rfl h
    · match a, h with
      | [], _ => exact .nil
      | [x], _ => exact List.pairwise_singleton _ x
  | insertion =>
    obtain ⟨out', hout', -, hs⟩ := insertion_loop_spec a
    cases hout.symm.trans hout'
    exact hs
  | cases =>
    obtain ⟨out', hout', -, hs⟩ := MonitorSwaps.MonitorSwapsLemmas.small_sort_spec a
    cases hout.symm.trans hout'
    exact hs

/-- What a call does: it returns the elements, in order unless short ranges are left, and its
depth is bounded by what bounds the parts. -/
structure Result (q : Demo) (max : Nat) (a : List Int) (depth : Nat) (out : List Int)
    (stack : Nat) : Prop where
  perm : out.Perm a
  sorted : q.small ≠ .none ∨ q.size ≤ 1 → out.Pairwise (· ≤ ·)
  intro : q.intro = true → stack ≤ max - (depth + 1)
  small : q.loop = true → q.shorter = true → ∀ k, a.length < (q.size + 1) * 2 ^ k → stack ≤ k

theorem Result.leaf {out : List Int} (hp : out.Perm a)
    (hs : q.small ≠ .none ∨ q.size ≤ 1 → out.Pairwise (· ≤ ·)) : Result q max a depth out 0 :=
  ⟨hp, hs, fun _ => Nat.zero_le _, fun _ _ _ _ => Nat.zero_le _⟩

/-- The parts of a range that is not short. The first one is sorted by a nested call. -/
theorem Result.parts {l r first_out second_out out : List Int} {first second : Nat}
    (hlong : q.size < a.length) (hmax : q.intro = true → depth + 1 < max)
    (hlength : a.length = l.length + r.length + 1)
    (hshort : q.shorter = true → l.length ≤ r.length)
    (h₁ : Result q max l (depth + 1) first_out first)
    (h₂ : Result q max r (depth + 1) second_out second)
    (hp : out.Perm a) (hs : q.small ≠ .none ∨ q.size ≤ 1 → out.Pairwise (· ≤ ·)) :
    Result q max a depth out (nested q.loop first second) := by
  refine ⟨hp, hs, fun hi => ?_, fun hloop hshorter k hk => ?_⟩
  · have hlt := hmax hi
    have hfirst := h₁.intro hi
    have hsecond := h₂.intro hi
    unfold nested
    split <;> omega
  · cases k with
    | zero =>
      rw [Nat.pow_zero, Nat.mul_one] at hk
      exact absurd hlong (Nat.not_lt.mpr (Nat.le_of_lt_succ hk))
    | succ k =>
      have hfirst := h₁.small hloop hshorter k (by
        have hle := hshort hshorter
        rw [Nat.pow_succ, ← Nat.mul_assoc] at hk
        omega)
      have hsecond := h₂.small hloop hshorter (k + 1) (by omega)
      rw [nested, hloop, if_pos rfl]
      omega

theorem sort_range_spec (std : IntQuicksorts.StdPartition) (q : Demo) (hfuel : a.length < fuel)
    (depth max : Nat) :
    ∃ out stack, sort_range std q max fuel a depth = some (out, stack) ∧
      Result q max a depth out stack := by
  induction fuel generalizing a depth with
  | zero => exact absurd hfuel (Nat.not_lt_zero _)
  | succ fuel ih =>
    rw [sort_range]
    split
    · rename_i hshort
      obtain ⟨out, hout, hp⟩ := q.small.run_perm a
      refine ⟨out, 0, by rw [hout]; rfl, .leaf hp fun hs => ?_⟩
      exact Small.run_sorted (hs.imp_right hshort.trans) hout
    rename_i hlong
    rw [not_le] at hlong
    split
    · exact ⟨_, 0, rfl, .leaf (List.mergeSort_perm a _) fun _ => List.pairwise_mergeSort' (· ≤ ·) a⟩
    rename_i hmax
    have hmax' : q.intro = true → depth + 1 < max := fun hi => by
      by_contra hn
      exact hmax ⟨hi, hn⟩
    obtain ⟨l, p, r, hturn, hperm, hlp, hpr⟩ := turn_spec std q (Nat.zero_lt_of_lt hlong)
    have hlength : a.length = l.length + r.length + 1 := by
      rw [← hperm.length_eq, List.length_append, List.length_cons, Nat.add_assoc]
    obtain ⟨lo, sl, hlo, hl⟩ := @ih l (by omega) (depth + 1)
    obtain ⟨ro, sr, hro, hr⟩ := @ih r (by omega) (depth + 1)
    have hp : (lo ++ p :: ro).Perm a := (hl.perm.append (hr.perm.cons p)).trans hperm
    have hs : q.small ≠ .none ∨ q.size ≤ 1 → (lo ++ p :: ro).Pairwise (· ≤ ·) := fun hs =>
      sorted_around hl.perm hr.perm (hl.sorted hs) (hr.sorted hs) (fun x hx => (hlp x hx).le) hpr
    simp only [hturn, hlo, hro, Option.bind_eq_bind, Option.bind_some]
    split
    · rename_i hfirst
      refine ⟨_, _, rfl, .parts hlong hmax' hlength (fun hsh => ?_) hl hr hp hs⟩
      rw [hsh] at hfirst
      exact Nat.le_of_lt_succ (hfirst.resolve_left nofun)
    · rename_i hfirst
      refine ⟨_, _, rfl, .parts hlong hmax' (by omega) (fun hsh => ?_) hr hl hp hs⟩
      exact Nat.le_of_succ_le (Nat.not_lt.mp fun hlt => hfirst (.inr hlt))

end Sorting

theorem run_spec (std : IntQuicksorts.StdPartition) (q : Demo) (a : List Int) :
    ∃ out stack, run std q a = some (out, stack) ∧ out.Perm a ∧
      (q.Sorts → out.Pairwise (· ≤ ·)) ∧
      (q.intro = true → stack ≤ 2 * a.length.log2 - 1) ∧
      (q.loop = true → q.shorter = true → ∀ k, a.length < (q.size + 1) * 2 ^ k → stack ≤ k) := by
  obtain ⟨out, stack, hout, hr⟩ := sort_range_spec std q (Nat.lt_succ_self a.length) 0
    (2 * a.length.log2)
  unfold run
  simp only [hout, Option.bind_eq_bind, Option.bind_some]
  cases hglobal : q.global with
  | true =>
    obtain ⟨out', hout', hp, hs⟩ := insertion_loop_spec out
    rw [if_pos rfl, hout']
    exact ⟨out', stack, rfl, hp.trans hr.perm, fun _ => hs, hr.intro, hr.small⟩
  | false =>
    rw [if_neg Bool.false_ne_true]
    refine ⟨out, stack, rfl, hr.perm, fun hq => hr.sorted ?_, hr.intro, hr.small⟩
    obtain h | h | h := hq
    · exact .inl h
    · exact .inr h
    · exact absurd (hglobal.symm.trans h) Bool.false_ne_true

/-! ## 4. Depths -/

section Depths

variable {std : IntQuicksorts.StdPartition} {q : Demo}

/-- What the sorts without choices between them have in common. -/
def Demo.Plain (q : Demo) : Prop :=
  q.size = 1 ∧ q.small = .none ∧ q.intro = false ∧ q.loop = false ∧ q.shorter = false ∧
    q.global = false

/-- Equal elements are all behind the pivot. -/
theorem turn_equal (std : IntQuicksorts.StdPartition) (q : Demo) (n : Nat) (x : Int) :
    turn std q (List.replicate (n + 1) x) = some ([], x, List.replicate n x) := by
  obtain ⟨l, p, r, hturn, hperm, hl, -⟩ := turn_spec (a := List.replicate (n + 1) x) std q
    (by rw [List.length_replicate]; exact Nat.succ_pos n)
  have hsame : ∀ y ∈ l ++ p :: r, y = x := fun y hy =>
    List.eq_of_mem_replicate (hperm.subset hy)
  obtain rfl : p = x := hsame p (by simp)
  obtain rfl : l = [] := by
    rw [List.eq_nil_iff_forall_not_mem]
    intro y hy
    exact absurd (hl y hy) (by rw [hsame y (List.mem_append_left _ hy)]; exact lt_irrefl p)
  obtain rfl : r = List.replicate n p := by
    refine List.eq_replicate_iff.mpr ⟨?_, fun y hy => hsame y (List.mem_cons_of_mem p hy)⟩
    simpa using hperm.length_eq
  exact hturn

/-- Each of them but one is the pivot of a call. -/
theorem sort_range_equal (std : IntQuicksorts.StdPartition) (hq : q.Plain) {fuel n : Nat}
    (hfuel : n < fuel) (depth max : Nat) (x : Int) :
    sort_range std q max fuel (List.replicate n x) depth =
      some (List.replicate n x, n - 1) := by
  obtain ⟨hsize, hsmall, hintro, hloop, hshorter, -⟩ := hq
  have hend : ∀ {n fuel : Nat} (depth : Nat), n ≤ 1 → 0 < fuel →
      sort_range std q max fuel (List.replicate n x) depth =
        some (List.replicate n x, 0) := by
    intro n fuel depth hn hfuel
    obtain ⟨fuel, rfl⟩ := Nat.exists_eq_add_one.mpr hfuel
    rw [sort_range, List.length_replicate, hsize, if_pos hn, hsmall]
    rfl
  induction fuel generalizing n depth with
  | zero => exact absurd hfuel (Nat.not_lt_zero n)
  | succ fuel ih =>
    match n with
    | 0 => exact hend depth (Nat.zero_le 1) (Nat.succ_pos fuel)
    | 1 => exact hend depth (Nat.le_refl 1) (Nat.succ_pos fuel)
    | n + 2 =>
      have hpos : 0 < fuel := Nat.zero_lt_of_lt (Nat.lt_of_succ_lt_succ hfuel)
      have hlong : ¬(List.replicate (n + 2) x).length ≤ q.size := by
        rw [List.length_replicate, hsize]
        exact Nat.not_le.mpr (Nat.le_add_left 2 n)
      have hleft := hend (n := 0) (depth + 1) (Nat.zero_le 1) hpos
      have hright := ih (Nat.lt_of_succ_lt_succ hfuel) (depth + 1)
      rw [List.replicate_zero] at hleft
      rw [sort_range, if_neg hlong, if_neg (by simp [hintro]), turn_equal]
      simp only [hleft, hright, Option.bind_eq_bind, Option.bind_some]
      rw [if_pos (.inl hshorter), nested, hloop]
      simp [List.replicate_succ]

end Depths

/-! ## 5. All of them -/

def simples : List Demo := [simple, simple_mid, simple_median]

def intros (Size : Nat) : List Demo :=
  [intro, intro_local_insertion Size, intro_global_insertion Size, tail_recursion]

def shorters : List Demo :=
  [tail_recursion1, tail_recursion2, partition1, partition2, partition_sentinel1,
    partition_sentinel2, partition_sentinel3, small_ranges]

def demos (Size : Nat) : List Demo := simples ++ intros Size ++ shorters

theorem demos_sorts (Size : Nat) : ∀ q ∈ demos Size, q.Sorts := by
  simp [demos, simples, intros, shorters, Demo.Sorts, simple, simple_mid, simple_median, intro,
    intro_local_insertion, intro_global_insertion, tail_recursion, tail_recursion1,
    tail_recursion2, partition1, partition2, partition_sentinel1, partition_sentinel2,
    partition_sentinel3, small_ranges]

theorem simples_plain : ∀ q ∈ simples, q.Plain := by
  simp [simples, Demo.Plain, simple, simple_mid, simple_median]

theorem intros_intro (Size : Nat) : ∀ q ∈ intros Size ++ shorters, q.intro = true := by
  simp [intros, shorters, intro, intro_local_insertion, intro_global_insertion, tail_recursion,
    tail_recursion1, tail_recursion2, partition1, partition2, partition_sentinel1,
    partition_sentinel2, partition_sentinel3, small_ranges]

theorem shorters_shorter : ∀ q ∈ shorters, q.size = 20 ∧ q.loop = true ∧ q.shorter = true := by
  simp [shorters, tail_recursion1, tail_recursion2, partition1, partition2, partition_sentinel1,
    partition_sentinel2, partition_sentinel3, small_ranges]

/-- All of them sort, whatever `std::partition` does with the order of the elements. -/
theorem demos_sort (std : IntQuicksorts.StdPartition) (Size : Nat) (q : Demo)
    (hq : q ∈ demos Size) (a : List Int) :
    ∃ out stack, run std q a = some (out, stack) ∧ out.Perm a ∧ out.Pairwise (· ≤ ·) := by
  obtain ⟨out, stack, hrun, hp, hs, -⟩ := run_spec std q a
  exact ⟨out, stack, hrun, hp, hs (demos_sorts Size q hq)⟩

theorem demos_sort_median :
    ∃ out stack, run IntQuicksorts.stable_partition simple_median [3, 1, 2, 5, 4] =
      some (out, stack) ∧ out.Perm [3, 1, 2, 5, 4] ∧ out.Pairwise (· ≤ ·) :=
  demos_sort IntQuicksorts.stable_partition 7 simple_median (by simp [demos, simples]) _

/-- On equal elements the first sorts have a nested call for each of them but one. A limit for
the turns bounds the depth by twice the logarithm, and the shorter part first by the logarithm
of the number of short ranges. -/
theorem stack_depth (std : IntQuicksorts.StdPartition) (Size : Nat) :
    (∀ q ∈ simples, ∀ n x,
      run std q (List.replicate n x) = some (List.replicate n x, n - 1)) ∧
    (∀ q ∈ intros Size ++ shorters, ∀ a, ∃ out stack,
      run std q a = some (out, stack) ∧ stack ≤ 2 * a.length.log2 - 1) ∧
    ∀ q ∈ shorters, ∀ a, ∃ out stack, run std q a = some (out, stack) ∧
      ∀ k, a.length < 21 * 2 ^ k → stack ≤ k := by
  refine ⟨fun q hq n x => ?_, fun q hq a => ?_, fun q hq a => ?_⟩
  · have hplain := simples_plain q hq
    have hsort := sort_range_equal std hplain (Nat.lt_succ_self n) 0 (2 * n.log2) x
    obtain ⟨-, -, -, -, -, hglobal⟩ := hplain
    rw [run, List.length_replicate, hsort, hglobal]
    rfl
  · obtain ⟨out, stack, hrun, -, -, hintro, -⟩ := run_spec std q a
    exact ⟨out, stack, hrun, hintro (intros_intro Size q hq)⟩
  · obtain ⟨hsize, hloop, hshorter⟩ := shorters_shorter q hq
    obtain ⟨out, stack, hrun, -, -, -, hsmall⟩ := run_spec std q a
    have hbound := hsmall hloop hshorter
    rw [hsize] at hbound
    exact ⟨out, stack, hrun, hbound⟩

end Kuhllib.DemoSorts
