import Kuhllib.Lib.RangePartition
import Kuhllib.QuickerSorting.Small
import Mathlib.Data.Int.Order.Basic
import Mathlib.Data.List.MinMax

/-!
# The policies of `int-quicksorts.hpp`

A function gets the list of the elements of its range and sees nothing else; an access
outside of the range fails. A predicate holds the value of `*pivot`: nothing writes there
while the predicate is used.

`std::partition` and the sort of the fallback are parameters that do what is documented.

1. Pivots.
2. Fallbacks.
3. Sorts for small ranges.
4. Partitions.
-/

namespace Kuhllib.IntQuicksorts

open RangeSort Small

/-- `std::partition`, which returns the end of the front. -/
structure StdPartition where
  run : (Int → Bool) → List Int → Nat × List Int
  perm : ∀ pred a, (run pred a).2.Perm a
  parted : ∀ pred a, Parted pred (run pred a).2 (run pred a).1 (run pred a).1
  le : ∀ pred a, (run pred a).1 ≤ a.length

/-- The template argument of `fallback::intro`. -/
structure Sorter where
  run : List Int → List Int
  perm : ∀ a, (run a).Perm a
  sorted : ∀ a, (run a).Pairwise (· ≤ ·)

/-! ## 1. Pivots -/

def find_median (a : List Int) (it1 it2 it3 : Nat) : Option Nat := do
  let x1 ← a[it1]?
  let x2 ← a[it2]?
  let x3 ← a[it3]?
  if x1 < x2 then
    if x2 < x3 then some it2
    else if x1 < x3 then some it3
    else some it1
  else
    if x1 < x3 then some it1
    else if x3 < x2 then some it2
    else some it3

inductive Pivot where
  | begin
  | end'
  | mid
  | median

def Pivot.get : Pivot → List Int → Option Nat
  | .begin, _ => some 0
  | .end', a => if a.length = 0 then none else some (a.length - 1)
  | .mid, a => some (a.length / 2)
  | .median, a => find_median a 0 (a.length / 2) (a.length - 1)

theorem Pivot.get_spec (q : Pivot) {a : List Int} (h : a ≠ []) :
    ∃ i x, q.get a = some i ∧ a[i]? = some x := by
  have hpos : 0 < a.length := List.length_pos_iff.mpr h
  have hfirst : a[0]? = some a[0] := List.getElem?_eq_getElem hpos
  have hmid : a.length / 2 < a.length := Nat.div_lt_self hpos (by decide)
  have hmid' := List.getElem?_eq_getElem hmid
  have hlast : a.length - 1 < a.length := Nat.sub_lt hpos (by decide)
  have hlast' := List.getElem?_eq_getElem hlast
  cases q with
  | begin => exact ⟨0, _, rfl, hfirst⟩
  | end' => exact ⟨_, _, if_neg (Nat.ne_of_gt hpos), hlast'⟩
  | mid => exact ⟨_, _, rfl, hmid'⟩
  | median =>
    unfold Pivot.get find_median
    simp only [hfirst, hmid', hlast', Option.bind_eq_bind, Option.bind_some]
    split
    · split
      · exact ⟨_, _, rfl, hmid'⟩
      · split
        · exact ⟨_, _, rfl, hlast'⟩
        · exact ⟨_, _, rfl, hfirst⟩
    · split
      · exact ⟨_, _, rfl, hfirst⟩
      · split
        · exact ⟨_, _, rfl, hmid'⟩
        · exact ⟨_, _, rfl, hlast'⟩

/-! ## 2. Fallbacks -/

inductive Fallback where
  | none
  | intro (s : Sorter)

def Fallback.init : Fallback → List Int → Nat
  | .none, _ => 0
  | .intro _, a => 2 * a.length.log2

/-- Whether the range has been sorted, with what is left there. -/
def Fallback.run : Fallback → List Int → Nat → Nat → Bool × List Int
  | .none, a, _, _ => (false, a)
  | .intro s, a, depth, max => if depth < max then (false, a) else (true, s.run a)

/-- The fallback does not sort. -/
def Fallback.Declines : Fallback → Nat → Nat → Prop
  | .none, _, _ => True
  | .intro _, depth, max => depth < max

theorem Fallback.run_declines {f : Fallback} {depth max : Nat} (h : f.Declines depth max)
    (a : List Int) : f.run a depth max = (false, a) := by
  cases f with
  | none => rfl
  | intro s => exact if_pos h

theorem Fallback.run_accepts {f : Fallback} {depth max : Nat} (h : ¬ f.Declines depth max)
    (a : List Int) :
    ∃ out, f.run a depth max = (true, out) ∧ out.Perm a ∧ out.Pairwise (· ≤ ·) := by
  cases f with
  | none => exact absurd trivial h
  | intro s => exact ⟨s.run a, if_neg h, s.perm a, s.sorted a⟩

/-! ## 3. Sorts for small ranges -/

inductive Post where
  | none
  | insertion (Size : Int)
  | move_insertion (Size : Int)
  | direct_move_insertion (Size : Int)
  | fancy_move_insertion (Size : Int)
  | sentinel (Size : Int)
  | move_sentinel (Size : Int)

/-- `if (begin != end) for (it = begin; ++it != end; ) ..`. -/
def insertion_sort (insert : List Int → Nat → Option (List Int)) (a : List Int) :
    Option (List Int) :=
  if a = [] then some [] else insert_all insert a 1 (a.length - 1)

/-- `post::fancy_move_insertion::done`, whose networks are those of `small::sort`. -/
def fancy_done (Size : Int) : List Int → Option (Bool × List Int)
  | [] => some (true, [])
  | [x] => some (true, [x])
  | [x, y] => some (true, if y < x then [y, x] else [x, y])
  | [p0, p1, p2] => some (true, sorted3 p0 p1 p2)
  | [p0, p1, p2, p3] => some (true, sorted4 p0 p1 p2 p3)
  | [p0, p1, p2, p3, p4] => some (true, sorted5 p0 p1 p2 p3 p4)
  | a => do
    if a.length < Size then pure (true, ← insertion_sort (insert_move true) a)
    else pure (false, a)

def Post.done : Post → List Int → Option (Bool × List Int)
  | .none, a => some (decide (a.length < 2), a)
  | .insertion Size, a => some (decide (a.length < Size), a)
  | .move_insertion Size, a => some (decide (a.length < Size), a)
  | .direct_move_insertion Size, a => do
    if a.length < Size then pure (true, ← insertion_sort (insert_move true) a)
    else pure (false, a)
  | .fancy_move_insertion Size, a => fancy_done Size a
  | .sentinel Size, a => some (decide (a.length < Size), a)
  | .move_sentinel Size, a => some (decide (a.length < Size), a)

/-- `for (it = begin; ++it != preend; ) ..` from where `it` has been incremented. -/
def insert_until (insert : List Int → Nat → Option (List Int)) :
    Nat → List Int → Nat → Int → Option (List Int)
  | 0, _, _, _ => none
  | turns + 1, a, it, preend => do
    if it = preend then some a else insert_until insert turns (← insert a it) (it + 1) preend

/-- The elements from `preend` on are inserted without a test for the beginning. -/
def sentinel_sort (insert : Bool → List Int → Nat → Option (List Int)) (Size : Int)
    (a : List Int) : Option (List Int) := do
  if a = [] then some []
  else
    let presize := min (a.length : Int) (2 * Size)
    let a ← insert_until (insert true) (a.length + 1) a 1 presize
    insert_all (insert false) a presize.toNat (a.length - presize.toNat)

def Post.run : Post → List Int → Option (List Int)
  | .none, a => some a
  | .insertion _, a => insertion_sort (insert_swap true) a
  | .move_insertion _, a => insertion_sort (insert_move true) a
  | .direct_move_insertion _, a => some a
  | .fancy_move_insertion _, a => some a
  | .sentinel Size, a => sentinel_sort insert_swap Size a
  | .move_sentinel Size, a => sentinel_sort insert_move Size a

/-- `done`, which depends on the number of elements. -/
def Post.Few : Post → Nat → Prop
  | .none, n => n < 2
  | .insertion Size, n | .move_insertion Size, n | .direct_move_insertion Size, n
  | .sentinel Size, n | .move_sentinel Size, n => n < Size
  | .fancy_move_insertion Size, n => n < 6 ∨ n < Size

instance (q : Post) (n : Nat) : Decidable (q.Few n) := by
  cases q <;> unfold Post.Few <;> infer_instance

/-- The size of a sort whose search is stopped by an element only. -/
def Post.unguarded : Post → Option Int
  | .sentinel Size | .move_sentinel Size => some Size
  | _ => Option.none

/-- A minimum is among the first elements. -/
def Early (n : Nat) (a : List Int) : Prop :=
  a = [] ∨ ∃ x ∈ a.take n, ∀ y ∈ a, x ≤ y

/-- What the recursion leaves for `Post.run`. -/
def Post.Ready : Post → List Int → Prop
  | .none, a | .direct_move_insertion _, a | .fancy_move_insertion _, a => a.Pairwise (· ≤ ·)
  | .insertion _, _ | .move_insertion _, _ => True
  | .sentinel Size, a | .move_sentinel Size, a => 0 < Size → Early (2 * Size).toNat a

theorem insertion_sort_spec {insert : List Int → Nat → Option (List Int)}
    (h : Inserts true insert) (a : List Int) :
    ∃ out, insertion_sort insert a = some out ∧ out.Perm a ∧ out.Pairwise (· ≤ ·) := by
  unfold insertion_sort
  split
  next ha => exact ⟨[], rfl, ha ▸ .refl _, .nil⟩
  next ha =>
    cases a with
    | nil => exact absurd rfl ha
    | cons x a => exact insert_all_sorted h x a

/-- The loop is that of any element type. -/
theorem insert_until_eq (insert : List Int → Nat → Option (List Int)) (turns : Nat) (a : List Int)
    (it : Nat) (preend : Int) :
    insert_until insert turns a it preend = RangeSort.insert_until insert turns a it preend := by
  induction turns generalizing a it with
  | zero => rfl
  | succ turns ih => simp only [insert_until, RangeSort.insert_until, ih]

theorem sentinel_sort_spec {insert : Bool → List Int → Nat → Option (List Int)}
    (h : ∀ guarded, Inserts guarded (insert guarded)) {Size : Int} (hsize : 0 < Size)
    {a : List Int} (ha : Early (2 * Size).toNat a) :
    ∃ out, sentinel_sort insert Size a = some out ∧ out.Perm a ∧ out.Pairwise (· ≤ ·) := by
  unfold sentinel_sort
  split
  next hnil => exact ⟨[], rfl, hnil ▸ .refl _, .nil⟩
  next hne =>
    cases a with
    | nil => exact absurd rfl hne
    | cons x a =>
      rw [List.length_cons]
      obtain ⟨k, hk, hka, hkm⟩ : ∃ k, min ((a.length + 1 : Nat) : Int) (2 * Size) =
          ((1 + k : Nat) : Int) ∧ k ≤ a.length ∧ Early (k + 1) (x :: a) := by
        obtain ⟨j, hj⟩ : ∃ j, (2 * Size).toNat = j + 1 := ⟨(2 * Size).toNat - 1, by omega⟩
        refine ⟨min j a.length, by omega, Nat.min_le_right _ _, ?_⟩
        rw [hj] at ha
        unfold Early at ha ⊢
        rwa [List.take_succ_cons, ← List.take_eq_take_min, ← List.take_succ_cons]
      obtain ⟨first, out, hfirst, hlen, hout, hp, hs⟩ :=
        insert_first_spec (h true) (h false) x a hka hkm
      refine ⟨out, ?_, hp, hs⟩
      have hrest : first.length - (k + 1) = a.length - k := by omega
      dsimp only
      rw [hk, insert_until_eq, RangeSort.insert_until_eq _ (by omega : k < a.length + 1 + 1),
        Int.toNat_natCast, hfirst]
      simp only [Option.bind_eq_bind, Option.bind_some, Nat.add_comm 1 k, hrest]
      exact hout

/-- The first end is not behind the beginning. -/
theorem sentinel_sort_nil {insert : Bool → List Int → Nat → Option (List Int)} {Size : Int}
    (hsize : Size ≤ 0) {a out : List Int} (h : sentinel_sort insert Size a = some out) :
    a = [] ∧ out = [] := by
  unfold sentinel_sort at h
  split at h
  next ha => exact ⟨ha, (Option.some.inj h).symm⟩
  next ha =>
    have hlt : min (a.length : Int) (2 * Size) < ((1 : Nat) : Int) := by omega
    dsimp only at h
    rw [insert_until_eq, insert_until_passed _ hlt] at h
    cases h

theorem sentinel_sort_ready {insert : Bool → List Int → Nat → Option (List Int)}
    (h : ∀ guarded, Inserts guarded (insert guarded)) {Size : Int} {a : List Int}
    (ha : 0 < Size → Early (2 * Size).toNat a) (hsize : Size ≤ 0 → a = []) :
    ∃ out, sentinel_sort insert Size a = some out ∧ out.Perm a ∧ out.Pairwise (· ≤ ·) := by
  rcases lt_or_ge 0 Size with hpos | hneg
  · exact sentinel_sort_spec h hpos (ha hpos)
  · obtain rfl := hsize hneg
    exact ⟨[], if_pos rfl, .refl _, .nil⟩

theorem Early.of_sorted {n : Nat} (hn : 0 < n) {a : List Int} (h : a.Pairwise (· ≤ ·)) :
    Early n a :=
  RangeSort.Early.of_sorted hn h

theorem Early.of_length_le {n : Nat} {a : List Int} (h : a.length ≤ n) : Early n a :=
  RangeSort.Early.of_length_le h

theorem Early.around {n : Nat} (hn : 0 < n) {l r : List Int} {p : Int} (hl : Early n l)
    (hlp : ∀ x ∈ l, x ≤ p) (hpr : ∀ x ∈ r, p ≤ x) : Early n (l ++ p :: r) :=
  RangeSort.Early.around hn hl hlp hpr

namespace Post

theorem ready_of_sorted (q : Post) {a : List Int} (h : a.Pairwise (· ≤ ·)) : q.Ready a := by
  cases q with
  | none | direct_move_insertion Size | fancy_move_insertion Size => exact h
  | insertion Size | move_insertion Size => exact trivial
  | sentinel Size | move_sentinel Size => exact fun hsize => .of_sorted (by omega) h

theorem ready_around (q : Post) {l r : List Int} {p : Int} (hl : q.Ready l) (hr : q.Ready r)
    (hlp : ∀ x ∈ l, x ≤ p) (hpr : ∀ x ∈ r, p ≤ x) : q.Ready (l ++ p :: r) := by
  cases q with
  | none | direct_move_insertion Size | fancy_move_insertion Size =>
    exact sorted_around (.refl l) (.refl r) hl hr hlp hpr
  | insertion Size | move_insertion Size => exact trivial
  | sentinel Size | move_sentinel Size =>
    exact fun hsize => .around (by omega) (hl hsize) hlp hpr

/-- A test on the size with the sort behind it. -/
theorem sort_if_few (Size : Int) (a : List Int) :
    ∃ out, (do
        if (a.length : Int) < Size then pure (true, ← insertion_sort (insert_move true) a)
        else pure (false, a)) = some (decide ((a.length : Int) < Size), out) ∧ out.Perm a ∧
      ((a.length : Int) < Size → out.Pairwise (· ≤ ·)) ∧ (¬ (a.length : Int) < Size → out = a) := by
  split
  next h =>
    obtain ⟨out, hout, hp, hs⟩ := insertion_sort_spec (inserts_move true) a
    rw [hout, decide_eq_true h]
    exact ⟨out, rfl, hp, fun _ => hs, fun hno => absurd h hno⟩
  next h =>
    rw [decide_eq_false h]
    exact ⟨a, rfl, .refl a, fun hyes => absurd hyes h, fun _ => rfl⟩

theorem fancy_done_spec (Size : Int) (a : List Int) :
    ∃ out, fancy_done Size a = some (decide ((fancy_move_insertion Size).Few a.length), out) ∧
      out.Perm a ∧ ((fancy_move_insertion Size).Few a.length → out.Pairwise (· ≤ ·)) ∧
      (¬ (fancy_move_insertion Size).Few a.length → out = a) := by
  -- the result of a network
  have network : ∀ {a out : List Int}, a.length < 6 → out.Pairwise (· ≤ ·) ∧ out.Perm a →
      ∃ out', some (true, out) =
          some (decide ((fancy_move_insertion Size).Few a.length), out') ∧ out'.Perm a ∧
        ((fancy_move_insertion Size).Few a.length → out'.Pairwise (· ≤ ·)) ∧
        (¬ (fancy_move_insertion Size).Few a.length → out' = a) := by
    intro a out hlen h
    have hfew : (fancy_move_insertion Size).Few a.length := .inl hlen
    exact ⟨out, by rw [decide_eq_true hfew], h.2, fun _ => h.1, fun hno => absurd hfew hno⟩
  unfold fancy_done
  split
  next => exact network (by decide) ⟨.nil, .refl _⟩
  next x => exact network (by simp) ⟨List.pairwise_singleton _ x, .refl _⟩
  next x y => exact network (by simp) (sort2_spec x y)
  next p0 p1 p2 => exact network (by simp) (sort3_spec p0 p1 p2)
  next p0 p1 p2 p3 => exact network (by simp) (sort4_spec p0 p1 p2 p3)
  next p0 p1 p2 p3 p4 =>
    exact network (by simp) (sort5_spec p0 p1 p2 p3 p4)
  next h0 h1 h2 h3 h4 h5 =>
    have hlen : 6 ≤ a.length := by
      rcases a with _ | ⟨x0, _ | ⟨x1, _ | ⟨x2, _ | ⟨x3, _ | ⟨x4, _ | ⟨x5, a⟩⟩⟩⟩⟩⟩
      · exact absurd rfl h0
      · exact absurd rfl (h1 x0)
      · exact absurd rfl (h2 x0 x1)
      · exact absurd rfl (h3 x0 x1 x2)
      · exact absurd rfl (h4 x0 x1 x2 x3)
      · exact absurd rfl (h5 x0 x1 x2 x3 x4)
      · exact Nat.le_add_left 6 a.length
    have hfew : (fancy_move_insertion Size).Few a.length ↔ (a.length : Int) < Size :=
      or_iff_right (Nat.not_lt.mpr hlen)
    obtain ⟨out, hout, hp, hs, hkeep⟩ := sort_if_few Size a
    refine ⟨out, hout.trans ?_, hp, fun h => hs (hfew.mp h),
      fun h => hkeep fun h' => h (hfew.mpr h')⟩
    rw [decide_eq_decide.mpr hfew]

theorem done_spec (q : Post) (a : List Int) :
    ∃ out, q.done a = some (decide (q.Few a.length), out) ∧ out.Perm a ∧
      (q.Few a.length → q.Ready out) ∧ (¬ q.Few a.length → out = a) := by
  cases q with
  | none =>
    refine ⟨a, rfl, .refl a, fun h => ?_, fun _ => rfl⟩
    cases a with
    | nil => exact .nil
    | cons x a =>
      obtain rfl := List.eq_nil_of_length_eq_zero (Nat.lt_one_iff.mp (Nat.lt_of_succ_lt_succ h))
      exact List.pairwise_singleton _ x
  | insertion Size | move_insertion Size =>
    exact ⟨a, rfl, .refl a, fun _ => trivial, fun _ => rfl⟩
  | direct_move_insertion Size => exact sort_if_few Size a
  | fancy_move_insertion Size => exact fancy_done_spec Size a
  | sentinel Size | move_sentinel Size =>
    exact ⟨a, rfl, .refl a, fun h hsize => .of_length_le (by unfold Few at h; omega), fun _ => rfl⟩

theorem run_spec (q : Post) {a : List Int} (h : q.Ready a)
    (hsize : ∀ n ∈ q.unguarded, n ≤ 0 → a = []) :
    ∃ out, q.run a = some out ∧ out.Perm a ∧ out.Pairwise (· ≤ ·) := by
  cases q with
  | none | direct_move_insertion Size | fancy_move_insertion Size => exact ⟨a, rfl, .refl a, h⟩
  | insertion Size => exact insertion_sort_spec (inserts_swap true) a
  | move_insertion Size => exact insertion_sort_spec (inserts_move true) a
  | sentinel Size => exact sentinel_sort_ready inserts_swap h (hsize Size rfl)
  | move_sentinel Size => exact sentinel_sort_ready inserts_move h (hsize Size rfl)

/-- The size has to be positive where it stands for a test. -/
theorem run_unguarded (q : Post) {a out : List Int} (h : q.run a = some out) :
    ∀ n ∈ q.unguarded, n ≤ 0 → a = [] ∧ out = [] := by
  intro n hn hsize
  cases q with
  | none | insertion Size | move_insertion Size | direct_move_insertion Size
  | fancy_move_insertion Size => cases hn
  | sentinel Size | move_sentinel Size =>
    obtain rfl := Option.some.inj hn
    exact sentinel_sort_nil hsize h

end Post

/-! ## 4. Partitions -/

/-- `std::find_if` with reverse iterators from `end`, as its `base()`. -/
def find_back (pred : Int → Bool) (a : List Int) (begin : Nat) : Nat → Option Nat
  | 0 => if begin = 0 then some 0 else none
  | end' + 1 => do
    if begin = end' + 1 then some begin
    else if pred (← a[end']?) then some (end' + 1)
    else find_back pred a begin end'

def simple_loop (pred : Int → Bool) : Nat → List Int → Nat → Nat → Option (Nat × List Int)
  | 0, _, _, _ => none
  | turns + 1, a, begin, end' => do
    let begin ← scan_up_to pred a begin end'
    let end' ← find_back pred a begin end'
    if begin = end' ∨ begin = end' - 1 then some (begin, a)
    else simple_loop pred turns (← iter_swap a begin (end' - 1)) (begin + 1) (end' - 1)

def manual_loop (pred : Int → Bool) : Nat → List Int → Nat → Nat → Option (Nat × List Int)
  | 0, _, _, _ => none
  | turns + 1, a, begin, end' => do
    let begin ← scan_up_to pred a begin end'
    let end' ← scan_down_to pred a begin end'
    if begin = end' then some (begin, a)
    else manual_loop pred turns (← iter_swap a begin end') (begin + 1) end'

def sentinel (pred : Int → Bool) (a : List Int) (end' : Nat) : Option (Nat × List Int) := do
  let stopped ←
    if 0 ≠ end' then do pure !pred (← a[0]?) else pure false
  if stopped then
    let end' ← scan_down_to pred a 0 end'
    if 0 = end' then some (0, a)
    else
      let (mid, _, a) ← sentinel_loop pred (a.length + 1) (← iter_swap a 0 end') 1 end' 0
      some (mid, a)
  else
    let (mid, _, a) ← sentinel_loop pred (a.length + 1) a 0 end' 0
    some (mid, a)

inductive Partition where
  | std_partition
  | simple
  | manual
  | sentinel

/-- The partition of `[begin, pivot)`. -/
def Partition.run (std : StdPartition) (q : Partition) (pred : Int → Bool) (a : List Int)
    (pivot : Nat) : Option (Nat × List Int) :=
  match q with
  | .std_partition =>
    let (mid, front) := std.run pred (a.take pivot)
    some (mid, front ++ a.drop pivot)
  | .simple => simple_loop pred (pivot + 1) a 0 pivot
  | .manual => manual_loop pred (pivot + 1) a 0 pivot
  | .sentinel => IntQuicksorts.sentinel pred a pivot

/-! The loops are those of any element type. -/

theorem find_back_eq (pred : Int → Bool) (a : List Int) (begin end' : Nat) :
    find_back pred a begin end' = RangeSort.find_back pred a begin end' := by
  induction end' with
  | zero => rfl
  | succ end' ih => simp only [find_back, RangeSort.find_back, ih]

theorem simple_loop_eq (pred : Int → Bool) (turns : Nat) (a : List Int) (begin end' : Nat) :
    simple_loop pred turns a begin end' = RangeSort.simple_loop pred turns a begin end' := by
  induction turns generalizing a begin end' with
  | zero => rfl
  | succ turns ih => simp only [simple_loop, RangeSort.simple_loop, find_back_eq, ih]

theorem manual_loop_eq (pred : Int → Bool) (turns : Nat) (a : List Int) (begin end' : Nat) :
    manual_loop pred turns a begin end' = RangeSort.manual_loop pred turns a begin end' := by
  induction turns generalizing a begin end' with
  | zero => rfl
  | succ turns ih => simp only [manual_loop, RangeSort.manual_loop, ih]

theorem sentinel_eq (pred : Int → Bool) (a : List Int) (end' : Nat) :
    sentinel pred a end' = sentinel_partition pred (a.length + 1) a end' := by
  unfold sentinel sentinel_partition
  by_cases h : 0 ≠ end'
  · rw [if_pos h, if_pos h]
    cases a[0]? with
    | none => rfl
    | some x => rfl
  · rw [if_neg h, if_neg h]
    rfl

variable {a : List Int} {n : Nat} {p : Int}

theorem not_below (p : Int) : decide (p < p) = false := decide_eq_false (lt_irrefl p)

theorem std_partition_spec (std : StdPartition) {pred : Int → Bool} (hn : a.length = n + 1)
    (hp : a[n]? = some p) (hpred : pred p = false) :
    Pivoted pred a ((std.run pred (a.take n)).2 ++ a.drop n) (std.run pred (a.take n)).1 n p := by
  have hlen : (a.take n).length = n := by
    rw [List.length_take, hn]
    exact Nat.min_eq_left (Nat.le_succ n)
  have hfront : (std.run pred (a.take n)).2.length = n := by rw [(std.perm _ _).length_eq, hlen]
  have hdrop : a.drop n = [p] := by
    obtain ⟨hlt, rfl⟩ := List.getElem?_eq_some_iff.mp hp
    rw [List.drop_eq_getElem_cons hlt, List.drop_eq_nil_of_le (Nat.le_of_eq hn)]
  have hle : (std.run pred (a.take n)).1 ≤ n :=
    Nat.le_trans (std.le pred (a.take n)) (Nat.le_of_eq hlen)
  have hparted := std.parted pred (a.take n)
  rw [hdrop]
  refine ⟨?_, ⟨fun i z hi hz => ?_, fun i z hi hz => ?_⟩, ?_⟩
  · have := (std.perm pred (a.take n)).append_right (a.drop n)
    rwa [hdrop, ← hdrop, List.take_append_drop, hdrop] at this
  · rw [List.getElem?_append_left (by omega)] at hz
    exact hparted.front i z hi hz
  · rcases Nat.lt_or_ge i n with hlt | hge
    · rw [List.getElem?_append_left (by omega)] at hz
      exact hparted.back i z hi hz
    · rw [List.getElem?_append_right (by omega), hfront] at hz
      have hmem := List.mem_of_getElem? hz
      rwa [List.mem_singleton.mp hmem]
  · rw [List.getElem?_append_right (by omega), hfront, Nat.sub_self]
    rfl

theorem sentinel_spec {pred : Int → Bool} (hn : a.length = n + 1) (hp : a[n]? = some p)
    (hpred : pred p = false) (hpos : 0 < n) :
    ∃ mid a', sentinel pred a n = some (mid, a') ∧ Partitioned pred a a' mid := by
  have hlen : n ≤ a.length := by
    rw [hn]
    exact Nat.le_succ n
  rw [sentinel_eq]
  exact sentinel_partition_spec hpos hlen (Nat.lt_succ_of_le hlen) (.last hn hp hpred)
    ⟨n, p, Nat.zero_le n, hp, hpred⟩

theorem sentinel_empty (pred : Int → Bool) (hp : a[0]? = some p) (hpred : pred p = false) :
    sentinel pred a 0 = none := by
  rw [sentinel_eq]
  exact sentinel_partition_empty _ hp hpred

theorem Partition.run_spec (std : StdPartition) (q : Partition) (hn : a.length = n + 1)
    (hp : a[n]? = some p) (hq : q = .sentinel → 0 < n) :
    ∃ mid a', q.run std (fun value => decide (value < p)) a n = some (mid, a') ∧
      Pivoted (fun value => decide (value < p)) a a' mid n p := by
  have hlen : n ≤ a.length := by
    rw [hn]
    exact Nat.le_succ n
  have hparted : Parted (fun value => decide (value < p)) a 0 n :=
    ⟨fun i _ hi => absurd hi (Nat.not_lt_zero i), NoneFrom.last hn hp (not_below p)⟩
  cases q with
  | std_partition => exact ⟨_, _, rfl, std_partition_spec std hn hp (not_below p)⟩
  | simple =>
    obtain ⟨mid, a', hrun, h, -⟩ :=
      RangeSort.simple_loop_spec (Nat.lt_succ_self (n - 0)) (Nat.zero_le n) hlen hparted
    exact ⟨mid, a', (simple_loop_eq ..).trans hrun, h.pivoted hn hp (not_below p)⟩
  | manual =>
    obtain ⟨mid, a', hrun, h, -⟩ :=
      RangeSort.manual_loop_spec (Nat.lt_succ_self (n - 0)) (Nat.zero_le n) hlen hparted
    exact ⟨mid, a', (manual_loop_eq ..).trans hrun, h.pivoted hn hp (not_below p)⟩
  | sentinel =>
    obtain ⟨mid, a', hrun, h⟩ :=
      @sentinel_spec _ _ _ (fun value => decide (value < p)) hn hp (not_below p) (hq rfl)
    exact ⟨mid, a', hrun, h.pivoted hn hp (not_below p)⟩

end Kuhllib.IntQuicksorts
