import Kuhllib.QuickerSorting.Policies
import Mathlib.Logic.Relation

/-!
# `quick_sort`, `quick_sort_tail` and `quick_sort_tail_value`

A nested call or another turn of the loop uses one unit of fuel. The calls and turns are
recorded with the lengths of the range in hand and of the next one.

`fat_partition::fat` means to move the values equal to the pivot to the front and to go on
behind them. The inner `mid` hides the parameter, so the caller goes on with the range it
has.

Results:
1. `turn_spec`, `turn_bad`: one turn splits the range, unless it is one of a few.
2. `sorts_iff`: the ranges on which the sorts do what they are for. `not_sorts`: not all.
-/

namespace Kuhllib.IntQuicksorts

open RangeSort

/-! ## Model -/

inductive FatPartition where
  | none
  | fat

/-- The result, and what is left in the range. `mid` stays as it is: what is assigned is
a variable of the same name. -/
def FatPartition.run (std : StdPartition) (q : FatPartition) (mid : Nat) (a : List Int)
    (pivot : Nat) : Option (Bool × List Int) := do
  match q with
  | .none => some (false, a)
  | .fat =>
    if mid = 0 then
      let p ← a[pivot]?
      let (mid, front) := std.run (fun value => p ≤ value) (a.take pivot)
      let a ← iter_swap (front ++ a.drop pivot) mid pivot
      some (true, a)
    else some (false, a)

structure Policies where
  pivot : Pivot
  fallback : Fallback
  post : Post
  partition : Partition
  fat_partition : FatPartition

/-- What a turn comes to: the range is done, it is split around the pivot, or the rest is
taken. -/
inductive Turn where
  | ended (a : List Int)
  | split (left : List Int) (pivot : Int) (right : List Int)
  | again (front rest : List Int)

/-- The body of the loop up to the calls. -/
def split_range (std : StdPartition) (q : Policies) (a : List Int) : Option Turn := do
  let pivot := a.length - 1
  let a ← iter_swap a (← q.pivot.get a) pivot
  let p ← a[pivot]?
  let (mid, a) ← q.partition.run std (fun value => value < p) a pivot
  let (fat, a) ← q.fat_partition.run std mid a pivot
  if fat then some (.again (a.take mid) (a.drop mid))
  else
    let a ← iter_swap a mid pivot
    let m ← a[mid]?
    some (.split (a.take mid) m (a.drop (mid + 1)))

/-- The test of the loop, and its body. -/
def turn (std : StdPartition) (q : Policies) (max : Nat) (a : List Int) (depth : Nat) :
    Option Turn := do
  let (done, a) ← q.post.done a
  if done then some (.ended a)
  else
    let (sorted, a) := q.fallback.run a depth max
    if sorted then some (.ended a) else split_range std q a

/-- `run(begin, end, depth, max)`, where `first` tells from the lengths whether the left
part is sorted first. -/
def sort_range (std : StdPartition) (q : Policies) (first : Nat → Nat → Bool) (max : Nat) :
    Nat → List Int → Nat → Option (List Int × List (Nat × Nat))
  | 0, _, _ => none
  | fuel + 1, a, depth => do
    match ← turn std q max a depth with
    | .ended out => some (out, [])
    | .split left m right =>
      if first left.length right.length then
        let (l, calls) ← sort_range std q first max fuel left (depth + 1)
        let (r, calls') ← sort_range std q first max fuel right (depth + 1)
        some (l ++ m :: r, (a.length, left.length) :: calls ++ (a.length, right.length) :: calls')
      else
        let (r, calls) ← sort_range std q first max fuel right (depth + 1)
        let (l, calls') ← sort_range std q first max fuel left (depth + 1)
        some (l ++ m :: r, (a.length, right.length) :: calls ++ (a.length, left.length) :: calls')
    | .again front rest =>
      let (out, calls) ← sort_range std q first max fuel rest (depth + 1)
      some (front ++ out, (a.length, rest.length) :: calls)

/-- `run(begin, end)`. -/
def sort (std : StdPartition) (q : Policies) (first : Nat → Nat → Bool) (fuel : Nat)
    (a : List Int) : Option (List Int × List (Nat × Nat)) := do
  let (a, calls) ← sort_range std q first (q.fallback.init a) fuel a 0
  let a ← q.post.run a
  some (a, calls)

def quick_sort (std : StdPartition) (q : Policies) :
    Nat → List Int → Option (List Int × List (Nat × Nat)) :=
  sort std q fun _ _ => true

/-- The shorter part is sorted by a nested call. -/
def quick_sort_tail (std : StdPartition) (q : Policies) :
    Nat → List Int → Option (List Int × List (Nat × Nat)) :=
  sort std q fun left right => left < right

/-- The predicate holds a copy of the pivot. -/
def quick_sort_tail_value (std : StdPartition) (q : Policies) :
    Nat → List Int → Option (List Int × List (Nat × Nat)) :=
  sort std q fun left right => left < right

/-- The call returns the elements in order, and every call and every turn in it is on a
shorter range than the one before. -/
def Sorts (run : Nat → List Int → Option (List Int × List (Nat × Nat))) (a : List Int) : Prop :=
  ∃ fuel out calls, run fuel a = some (out, calls) ∧ (∀ c ∈ calls, c.2 < c.1) ∧ out.Perm a ∧
    out.Pairwise (· ≤ ·)

/-! ## Ranges that are split -/

def Turn.parts : Turn → List (List Int)
  | .ended _ => []
  | .split left _ right => [left, right]
  | .again _ rest => [rest]

/-- A range and its depth, and one that is taken next. -/
def Next (std : StdPartition) (q : Policies) (max : Nat) (s t : List Int × Nat) : Prop :=
  ∃ u, turn std q max s.1 s.2 = some u ∧ t.1 ∈ u.parts ∧ t.2 = s.2 + 1

/-- The range that is left to the pivots has an element, with `partition::sentinel` two of
them, and with `fat_partition::fat` the pivot is not a minimum of the range. -/
structure Splits (q : Policies) (a : List Int) : Prop where
  nonempty : a ≠ []
  sentinel : q.partition = .sentinel → 2 ≤ a.length
  fat : q.fat_partition = .fat → ∃ i p x, q.pivot.get a = some i ∧ a[i]? = some p ∧ x ∈ a ∧ x < p

def Good (q : Policies) (max : Nat) (s : List Int × Nat) : Prop :=
  ¬ q.post.Few s.1.length → q.fallback.Declines s.2 max → Splits q s.1

/-- Every range that is reached is one of them, and the size for a sort without a test is
positive. -/
def Clear (std : StdPartition) (q : Policies) (a : List Int) : Prop :=
  (∀ s, Relation.ReflTransGen (Next std q (q.fallback.init a)) (a, 0) s →
    Good q (q.fallback.init a) s) ∧
  ∀ Size ∈ q.post.unguarded, Size ≤ 0 → a = []

/-! ## 1. One turn -/

namespace IntQuicksortsLemmas

variable {std : StdPartition} {q : Policies} {a : List Int}

/-- The pivot goes to the end. -/
theorem pivot_spec (q : Pivot) (h : a ≠ []) :
    ∃ i p a', q.get a = some i ∧ a[i]? = some p ∧ iter_swap a i (a.length - 1) = some a' ∧
      a'.Perm a ∧ a'.length = a.length - 1 + 1 ∧ a'[a.length - 1]? = some p := by
  have hlen : a.length - 1 + 1 = a.length := Nat.succ_pred_eq_of_pos (List.length_pos_iff.mpr h)
  obtain ⟨i, p, hi, hp⟩ := q.get_spec h
  obtain ⟨a', hs, hperm, -, hlast, -⟩ :=
    iter_swap_spec hp (List.getElem?_eq_getElem (Nat.lt_of_succ_le (Nat.le_of_eq hlen)))
  exact ⟨i, p, a', hi, hp, hs, hperm, hperm.length_eq.trans hlen.symm, hlast⟩

/-- Nothing goes to the front if the pivot is a minimum. -/
theorem mid_eq_zero {a' : List Int} {mid n : Nat} {p : Int} (hn : a.length = n + 1)
    (h : Pivoted (fun value => decide (value < p)) a a' mid n p) :
    mid = 0 ↔ ∀ x ∈ a, ¬ x < p := by
  constructor
  · rintro rfl x hx
    obtain ⟨i, hi⟩ := List.mem_iff_getElem?.mp (h.perm.mem_iff.mpr hx)
    exact of_decide_eq_false (h.parted.back i x (Nat.zero_le i) hi)
  · intro hmin
    refine Nat.eq_zero_of_not_pos fun hpos => ?_
    have hlt : 0 < a'.length := by
      rw [h.perm.length_eq, hn]
      exact Nat.succ_pos n
    have hfirst : a'[0]? = some a'[0] := List.getElem?_eq_getElem hlt
    exact hmin _ (h.perm.mem_iff.mp (List.mem_of_getElem? hfirst))
      (of_decide_eq_true (h.parted.front 0 _ hpos hfirst))

theorem fat_spec (std : StdPartition) {n : Nat} {p : Int} (hn : a.length = n + 1)
    (hp : a[n]? = some p) :
    ∃ a', FatPartition.run std .fat 0 a n = some (true, a') ∧ a'.length = n + 1 := by
  have hlt : n < a.length := by
    rw [hn]
    exact Nat.lt_succ_self n
  have htake : (a.take n).length = n := by rw [List.length_take, Nat.min_eq_left (Nat.le_of_lt hlt)]
  obtain ⟨mid, front, hstd⟩ : ∃ mid front,
      std.run (fun value => decide (p ≤ value)) (a.take n) = (mid, front) := ⟨_, _, rfl⟩
  have hle := std.le (fun value => decide (p ≤ value)) (a.take n)
  have hfront := (std.perm (fun value => decide (p ≤ value)) (a.take n)).length_eq
  rw [hstd] at hle hfront
  have hlen : (front ++ a.drop n).length = n + 1 := by
    rw [List.length_append, hfront, htake, List.length_drop, hn, Nat.add_sub_cancel_left]
  have hmid : mid < (front ++ a.drop n).length := by
    rw [hlen]
    exact Nat.lt_succ_of_le (Nat.le_trans hle (Nat.le_of_eq htake))
  have hlast : n < (front ++ a.drop n).length := by
    rw [hlen]
    exact Nat.lt_succ_self n
  obtain ⟨a', hs, hperm, -⟩ :=
    iter_swap_spec (List.getElem?_eq_getElem hmid) (List.getElem?_eq_getElem hlast)
  refine ⟨a', ?_, hperm.length_eq.trans hlen⟩
  unfold FatPartition.run
  simp only [if_true, hp, hstd, hs, Option.bind_eq_bind, Option.bind_some]

theorem split_range_spec (h : Splits q a) :
    ∃ l p r, split_range std q a = some (.split l p r) ∧ (l ++ p :: r).Perm a ∧
      (∀ x ∈ l, x ≤ p) ∧ ∀ x ∈ r, p ≤ x := by
  obtain ⟨i, p, a₁, hi, hp, hs, hperm, hlen, hlast⟩ := pivot_spec q.pivot h.nonempty
  have hpos : q.partition = .sentinel → 0 < a.length - 1 := fun hq =>
    Nat.lt_sub_of_add_lt (h.sentinel hq)
  obtain ⟨mid, a₂, hrun, hpart⟩ := q.partition.run_spec std hlen hlast hpos
  have hfat : q.fat_partition.run std mid a₂ (a.length - 1) = some (false, a₂) := by
    cases hq : q.fat_partition with
    | none => rfl
    | fat =>
      obtain ⟨i', p', x, hi', hp', hx, hxp⟩ := h.fat hq
      obtain rfl := Option.some.inj (hi.symm.trans hi')
      obtain rfl := Option.some.inj (hp.symm.trans hp')
      exact if_neg fun hmid => (mid_eq_zero hlen hpart).mp hmid x (hperm.mem_iff.mpr hx) hxp
  obtain ⟨l, r, hplace, rfl, hperm', hlp, hpr⟩ := hpart.place_pivot hlen (not_below p)
  refine ⟨l, p, r, ?_, hperm'.trans hperm, fun x hx => (of_decide_eq_true (hlp x hx)).le,
    fun x hx => not_lt.mp (of_decide_eq_false (hpr x hx))⟩
  unfold split_range
  simp only [hi, hs, hlast, hrun, hfat, hplace, getElem?_length_append, drop_pivot, List.take_left,
    Option.bind_eq_bind, Option.bind_some, Bool.false_eq_true, if_false]

/-- A range that cannot be split, or that the caller gets back. -/
theorem split_range_bad (h : ¬ Splits q a) :
    split_range std q a = none ∨
      ∃ rest, split_range std q a = some (.again [] rest) ∧ rest.length = a.length := by
  unfold split_range
  by_cases hne : a = []
  · subst hne
    cases q.pivot.get [] with
    | none => exact .inl rfl
    | some i => exact .inl rfl
  obtain ⟨i, p, a₁, hi, hp, hs, hperm, hlen, hlast⟩ := pivot_spec q.pivot hne
  simp only [hi, hs, hlast, Option.bind_eq_bind, Option.bind_some]
  by_cases hsentinel : q.partition = .sentinel → 0 < a.length - 1
  · obtain ⟨mid, a₂, hrun, hpart⟩ := q.partition.run_spec std hlen hlast hsentinel
    have hn₂ : a₂.length = a.length - 1 + 1 := hpart.perm.length_eq.trans hlen
    simp only [hrun, Option.bind_some]
    -- what is left of the condition is that the pivot is a minimum
    have hfat : q.fat_partition = .fat ∧ mid = 0 := by
      by_contra hno
      refine h ⟨hne, fun hq => Nat.add_lt_of_lt_sub (hsentinel hq), fun hq => ⟨i, p, ?_⟩⟩
      obtain ⟨x, hx⟩ := not_forall.mp fun hmin => hno ⟨hq, (mid_eq_zero hlen hpart).mpr hmin⟩
      obtain ⟨hx, hxp⟩ := Classical.not_imp.mp hx
      exact ⟨x, hi, hp, hperm.mem_iff.mp hx, not_not.mp hxp⟩
    obtain ⟨hq, rfl⟩ := hfat
    obtain ⟨a₃, hrun', hlen'⟩ := fat_spec std hn₂ hpart.last
    rw [hq, hrun']
    exact .inr ⟨a₃, rfl, hlen'.trans (Nat.succ_pred_eq_of_pos (List.length_pos_iff.mpr hne))⟩
  · push Not at hsentinel
    obtain ⟨hq, hzero⟩ := hsentinel
    obtain hzero := Nat.le_zero.mp hzero
    rw [hzero] at hlast ⊢
    rw [hq, Partition.run, sentinel_empty _ hlast (not_below p)]
    exact .inl rfl

variable {max depth : Nat}

/-- The tests of the loop leave the range as it is, or they are the end of it. -/
theorem turn_tests (std : StdPartition) (q : Policies) (max : Nat) (a : List Int) (depth : Nat) :
    (¬ q.post.Few a.length ∧ q.fallback.Declines depth max ∧
      turn std q max a depth = split_range std q a) ∨
    Good q max (a, depth) ∧
      ∃ out, turn std q max a depth = some (.ended out) ∧ out.Perm a ∧ q.post.Ready out := by
  obtain ⟨out, hdone, hperm, hready, hkeep⟩ := q.post.done_spec a
  unfold turn
  simp only [hdone, Option.bind_eq_bind, Option.bind_some, decide_eq_true_eq]
  by_cases hfew : q.post.Few a.length
  · rw [if_pos hfew]
    exact .inr ⟨fun h => absurd hfew h, out, rfl, hperm, hready hfew⟩
  · obtain rfl := hkeep hfew
    rw [if_neg hfew]
    by_cases hdeclines : q.fallback.Declines depth max
    · rw [Fallback.run_declines hdeclines]
      exact .inl ⟨hfew, hdeclines, rfl⟩
    · obtain ⟨b, hb, hp, hs⟩ := Fallback.run_accepts hdeclines out
      rw [hb]
      exact .inr ⟨fun _ h => absurd h hdeclines, b, rfl, hp, q.post.ready_of_sorted hs⟩

end IntQuicksortsLemmas

open IntQuicksortsLemmas

theorem turn_spec {std : StdPartition} {q : Policies} {max depth : Nat} {a : List Int}
    (h : Good q max (a, depth)) :
    (∃ out, turn std q max a depth = some (.ended out) ∧ out.Perm a ∧ q.post.Ready out) ∨
    ∃ l p r, turn std q max a depth = some (.split l p r) ∧ (l ++ p :: r).Perm a ∧
      (∀ x ∈ l, x ≤ p) ∧ ∀ x ∈ r, p ≤ x := by
  rcases turn_tests std q max a depth with ⟨hfew, hdeclines, he⟩ | ⟨-, hended⟩
  · rw [he]
    exact .inr (split_range_spec (h hfew hdeclines))
  · exact .inl hended

theorem turn_bad {std : StdPartition} {q : Policies} {max depth : Nat} {a : List Int}
    (h : ¬ Good q max (a, depth)) :
    turn std q max a depth = none ∨
      ∃ rest, turn std q max a depth = some (.again [] rest) ∧ rest.length = a.length := by
  rcases turn_tests std q max a depth with ⟨hfew, hdeclines, he⟩ | ⟨hgood, -⟩
  · rw [he]
    exact split_range_bad fun hs => h fun _ _ => hs
  · exact absurd hgood h

/-! ## 2. The whole sort -/

namespace IntQuicksortsLemmas

variable {std : StdPartition} {q : Policies} {first : Nat → Nat → Bool} {max depth : Nat}
  {a : List Int}

/-- Both parts are sorted and put together, whichever comes first. -/
theorem sort_range_split {fuel : Nat} {l r : List Int} {p : Int}
    (h : turn std q max a depth = some (.split l p r)) {out : List Int} {calls : List (Nat × Nat)} :
    sort_range std q first max (fuel + 1) a depth = some (out, calls) ↔
      ∃ lo ro cl cr, sort_range std q first max fuel l (depth + 1) = some (lo, cl) ∧
        sort_range std q first max fuel r (depth + 1) = some (ro, cr) ∧ out = lo ++ p :: ro ∧
        calls = if first l.length r.length
          then (a.length, l.length) :: cl ++ (a.length, r.length) :: cr
          else (a.length, r.length) :: cr ++ (a.length, l.length) :: cl := by
  rw [sort_range]
  simp only [h, Option.bind_eq_bind, Option.bind_some]
  split
  next =>
    simp only [Option.bind_eq_some_iff, Prod.exists, Option.some.injEq, Prod.mk.injEq]
    constructor
    · rintro ⟨lo, cl, hl, ro, cr, hr, rfl, rfl⟩
      exact ⟨lo, ro, cl, cr, hl, hr, rfl, rfl⟩
    · rintro ⟨lo, ro, cl, cr, hl, hr, rfl, rfl⟩
      exact ⟨lo, cl, hl, ro, cr, hr, rfl, rfl⟩
  next =>
    simp only [Option.bind_eq_some_iff, Prod.exists, Option.some.injEq, Prod.mk.injEq]
    constructor
    · rintro ⟨ro, cr, hr, lo, cl, hl, rfl, rfl⟩
      exact ⟨lo, ro, cl, cr, hl, hr, rfl, rfl⟩
    · rintro ⟨lo, ro, cl, cr, hl, hr, rfl, rfl⟩
      exact ⟨ro, cr, hr, lo, cl, hl, rfl, rfl⟩

/-- The calls for both parts. -/
theorem mem_calls {b : Bool} {n l r : Nat} {cl cr : List (Nat × Nat)} {c : Nat × Nat} :
    c ∈ (if b then (n, l) :: cl ++ (n, r) :: cr else (n, r) :: cr ++ (n, l) :: cl) ↔
      c = (n, l) ∨ c ∈ cl ∨ c = (n, r) ∨ c ∈ cr := by
  cases b with
  | true =>
    rw [if_pos rfl, List.mem_append, List.mem_cons, List.mem_cons]
    exact or_assoc
  | false =>
    rw [if_neg Bool.false_ne_true, List.mem_append, List.mem_cons, List.mem_cons, or_comm]
    exact or_assoc

/-- A range all of whose successors can be split is sorted. -/
theorem sort_range_spec {fuel : Nat} (hfuel : a.length < fuel)
    (h : ∀ s, Relation.ReflTransGen (Next std q max) (a, depth) s → Good q max s) :
    ∃ out calls, sort_range std q first max fuel a depth = some (out, calls) ∧
      (∀ c ∈ calls, c.2 < c.1) ∧ out.Perm a ∧ q.post.Ready out := by
  induction fuel generalizing a depth with
  | zero => exact absurd hfuel (Nat.not_lt_zero _)
  | succ fuel ih =>
    rcases @turn_spec std _ _ _ _ (h _ .refl) with
      ⟨out, he, hp, hready⟩ | ⟨l, p, r, he, hperm, hlp, hpr⟩
    · refine ⟨out, [], ?_, fun c hc => absurd hc List.not_mem_nil, hp, hready⟩
      rw [sort_range, he]
      rfl
    · have hlen := hperm.length_eq
      rw [List.length_append, List.length_cons] at hlen
      have hl : l.length < a.length := by omega
      have hr : r.length < a.length := by omega
      have hnext : ∀ b ∈ [l, r], Next std q max (a, depth) (b, depth + 1) :=
        fun b hb => ⟨_, he, hb, rfl⟩
      obtain ⟨lo, cl, hlo, hcl, hpl, hrl⟩ := ih (Nat.lt_of_lt_of_le hl (Nat.le_of_lt_succ hfuel))
        fun s hs => h s (.head (hnext l List.mem_cons_self) hs)
      obtain ⟨ro, cr, hro, hcr, hpr', hrr⟩ := ih (Nat.lt_of_lt_of_le hr (Nat.le_of_lt_succ hfuel))
        fun s hs => h s (.head (hnext r (List.mem_cons_of_mem l List.mem_cons_self)) hs)
      refine ⟨lo ++ p :: ro, _, (sort_range_split he).mpr ⟨lo, ro, cl, cr, hlo, hro, rfl, rfl⟩,
        fun c hc => ?_, (hpl.append (hpr'.cons p)).trans hperm,
        q.post.ready_around hrl hrr (fun x hx => hlp x (hpl.mem_iff.mp hx))
          fun x hx => hpr x (hpr'.mem_iff.mp hx)⟩
      rcases mem_calls.mp hc with rfl | hc | rfl | hc
      · exact hl
      · exact hcl c hc
      · exact hr
      · exact hcr c hc

/-- A run all of whose calls are on shorter ranges has split every range that it reached. -/
theorem sort_range_good {fuel : Nat} {out : List Int} {calls : List (Nat × Nat)}
    (h : sort_range std q first max fuel a depth = some (out, calls))
    (hcalls : ∀ c ∈ calls, c.2 < c.1) (s : List Int × Nat)
    (hs : Relation.ReflTransGen (Next std q max) (a, depth) s) : Good q max s := by
  induction fuel generalizing a depth out calls with
  | zero => cases h
  | succ fuel ih =>
    have hgood : Good q max (a, depth) := by
      by_contra hbad
      rw [sort_range] at h
      rcases @turn_bad std _ _ _ _ hbad with he | ⟨rest, he, hlen⟩
      · rw [he] at h
        cases h
      · simp only [he, Option.bind_eq_bind, Option.bind_some] at h
        obtain ⟨⟨out', calls'⟩, -, hret⟩ := Option.bind_eq_some_iff.mp h
        obtain ⟨-, rfl⟩ := Prod.mk.inj (Option.some.inj hret)
        have hlt := hcalls _ List.mem_cons_self
        rw [hlen] at hlt
        exact Nat.lt_irrefl _ hlt
    rcases Relation.ReflTransGen.cases_head hs with rfl | ⟨⟨b, d⟩, ⟨u, hu, hb, rfl⟩, hs⟩
    · exact hgood
    · rcases @turn_spec std _ _ _ _ hgood with ⟨out', he, -, -⟩ | ⟨l, p, r, he, -, -, -⟩
      · rw [he, Option.some.injEq] at hu
        rw [← hu] at hb
        cases hb
      · rw [he, Option.some.injEq] at hu
        obtain ⟨lo, ro, cl, cr, hl, hr, rfl, rfl⟩ := (sort_range_split he).mp h
        have hcl : ∀ c ∈ cl, c.2 < c.1 := fun c hc => hcalls c (mem_calls.mpr (.inr (.inl hc)))
        have hcr : ∀ c ∈ cr, c.2 < c.1 := fun c hc =>
          hcalls c (mem_calls.mpr (.inr (.inr (.inr hc))))
        rw [← hu] at hb
        rcases List.mem_cons.mp hb with hb | hb
        · exact ih (hb ▸ hl) hcl hs
        · exact ih (List.mem_singleton.mp hb ▸ hr) hcr hs

/-- `Clear` is what the sort needs, whichever part comes first. -/
theorem sort_iff (std : StdPartition) (q : Policies) (first : Nat → Nat → Bool) (a : List Int) :
    Sorts (sort std q first) a ↔ Clear std q a := by
  constructor
  · rintro ⟨fuel, out, calls, h, hcalls, hp, -⟩
    unfold sort at h
    simp only [Option.bind_eq_bind, Option.bind_eq_some_iff, Prod.exists, Option.some.injEq,
      Prod.mk.injEq] at h
    obtain ⟨b, calls', hrun, out', hout, rfl, rfl⟩ := h
    refine ⟨fun s hs => sort_range_good hrun hcalls s hs, fun n hn hle => ?_⟩
    obtain ⟨-, rfl⟩ := q.post.run_unguarded hout n hn hle
    exact List.nil_perm.mp hp
  · rintro ⟨hgood, hsize⟩
    obtain ⟨out, calls, hrun, hcalls, hp, hready⟩ :=
      @sort_range_spec std q first _ _ _ _ (Nat.lt_succ_self a.length) hgood
    obtain ⟨out', hout, hp', hs⟩ := q.post.run_spec hready fun n hn hle => by
      rw [hsize n hn hle] at hp
      exact List.perm_nil.mp hp
    refine ⟨a.length + 1, out', calls, ?_, hcalls, hp'.trans hp, hs⟩
    unfold sort
    simp only [hrun, hout, Option.bind_eq_bind, Option.bind_some]

end IntQuicksortsLemmas

open IntQuicksortsLemmas

theorem sorts_iff (std : StdPartition) (q : Policies) (a : List Int) :
    (Sorts (quick_sort std q) a ↔ Clear std q a) ∧
      (Sorts (quick_sort_tail std q) a ↔ Clear std q a) ∧
      (Sorts (quick_sort_tail_value std q) a ↔ Clear std q a) :=
  ⟨sort_iff std q _ a, sort_iff std q _ a, sort_iff std q _ a⟩

/-- Without the fat partition, a size of two and more is enough. -/
theorem clear_of_few {q : Policies} (hfat : q.fat_partition = .none)
    (hfew : ∀ n < 2, q.post.Few n) (std : StdPartition) (a : List Int) : Clear std q a := by
  refine ⟨fun s _ hno _ => ?_, fun Size hq hle => ?_⟩
  · have hlen : 2 ≤ s.1.length := Nat.not_lt.mp fun hlt => hno (hfew _ hlt)
    exact ⟨List.ne_nil_of_length_pos (Nat.lt_of_succ_lt hlen), fun _ => hlen,
      fun h => by rw [hfat] at h; cases h⟩
  · have hone := hfew 1 (by decide)
    cases hp : q.post with
    | none | insertion n | move_insertion n | direct_move_insertion n | fancy_move_insertion n =>
      rw [hp] at hq
      cases hq
    | sentinel n | move_sentinel n =>
      rw [hp] at hone hq
      obtain rfl := Option.some.inj hq
      exact absurd (Int.lt_of_lt_of_le hone hle) (by decide)

/-- A partition that keeps the order on both sides. -/
def stable_partition : StdPartition where
  run pred a := ((a.filter pred).length, a.filter pred ++ a.filter fun x => !pred x)
  perm pred a := List.filter_append_perm pred a
  parted pred a := by
    refine ⟨fun i x hi hx => ?_, fun i x hi hx => ?_⟩
    · rw [List.getElem?_append_left hi] at hx
      exact (List.mem_filter.mp (List.mem_of_getElem? hx)).2
    · rw [List.getElem?_append_right hi] at hx
      have := (List.mem_filter.mp (List.mem_of_getElem? hx)).2
      rwa [Bool.not_eq_true'] at this
  le pred a := List.length_filter_le pred a

/-- The turn on two equal elements ends with both of them as the rest. -/
theorem equal_never_sorted (max fuel depth : Nat) :
    sort_range stable_partition ⟨.end', .none, .none, .std_partition, .fat⟩ (fun _ _ => true) max
      fuel [1, 1] depth = none := by
  induction fuel generalizing depth with
  | zero => rfl
  | succ fuel ih =>
    have h : turn stable_partition ⟨.end', .none, .none, .std_partition, .fat⟩ max [1, 1] depth =
        some (.again [] [1, 1]) := rfl
    rw [sort_range, h]
    simp only [Option.bind_eq_bind, Option.bind_some, ih]
    rfl

theorem not_sorts : ¬ ∀ (std : StdPartition) (q : Policies) (a : List Int),
    Sorts (quick_sort std q) a ∧ Sorts (quick_sort_tail std q) a ∧
      Sorts (quick_sort_tail_value std q) a := by
  intro h
  obtain ⟨⟨fuel, out, calls, hrun, -⟩, -⟩ :=
    h stable_partition ⟨.end', .none, .none, .std_partition, .fat⟩ [1, 1]
  unfold quick_sort sort at hrun
  rw [equal_never_sorted] at hrun
  cases hrun

end Kuhllib.IntQuicksorts
