import Kuhllib.Lib.RangeSort
import Mathlib.Data.List.Rotate
import Mathlib.Order.Basic
import Mathlib.Tactic.ByContra

/-!
# Partitioning a range in place

The elements that satisfy a predicate go to the front. Two pointers move towards each
other, and what they do not stop at has been dealt with. Either the pointers are
compared, or elements on both sides stop the scans.
-/

namespace RangeSort

variable {α : Type} (pred : α → Bool)

/-! ## Scans -/

/-- `while (pred(*begin)) ++begin;`. -/
def scan_up (a : List α) (begin : Nat) : Option Nat :=
  if h : begin < a.length then if pred a[begin] then scan_up a (begin + 1) else some begin
  else none
termination_by a.length - begin

/-- `while (!pred(*--end)) {}`. -/
def scan_down (a : List α) : Nat → Option Nat
  | 0 => none
  | end' + 1 => do if pred (← a[end']?) then some end' else scan_down a end'

/-- `while (begin != end && pred(*begin)) ++begin;`. -/
def scan_up_to (a : List α) (begin end' : Nat) : Option Nat :=
  if begin = end' then some begin
  else if h : begin < a.length then
    if pred a[begin] then scan_up_to a (begin + 1) end' else some begin
  else none
termination_by a.length - begin

/-- `while (begin != end && !pred(*--end)) {}`. -/
def scan_down_to (a : List α) (begin : Nat) : Nat → Option Nat
  | 0 => if begin = 0 then some 0 else none
  | end' + 1 => do
    if begin = end' + 1 then some begin
    else if pred (← a[end']?) then some end'
    else scan_down_to a begin end'

/-- The loop of a partition whose scans are stopped by elements, with the number of swaps:
`while (true) { while (pred(*begin)) ++begin; while (!pred(*--end)) {}
if (end <= begin) break; iter_swap(begin, end); ++begin; }`. -/
def sentinel_loop : Nat → List α → Nat → Nat → Nat → Option (Nat × Nat × List α)
  | 0, _, _, _, _ => none
  | turns + 1, a, begin, end', swaps => do
    let begin ← scan_up pred a begin
    let end' ← scan_down pred a end'
    if end' ≤ begin then some (begin, swaps, a)
    else sentinel_loop turns (← iter_swap a begin end') (begin + 1) end' (swaps + 1)

/-! ## Partitions -/

/-- `std::find_if` with reverse iterators from `end`, as its `base()`. -/
def find_back (a : List α) (begin : Nat) : Nat → Option Nat
  | 0 => if begin = 0 then some 0 else none
  | end' + 1 => do
    if begin = end' + 1 then some begin
    else if pred (← a[end']?) then some (end' + 1)
    else find_back a begin end'

/-- The loop of a partition by `std::find_if` from both sides:
`if (begin == end || begin == --end) break; iter_swap(begin, end); ++begin;`. -/
def simple_loop : Nat → List α → Nat → Nat → Option (Nat × List α)
  | 0, _, _, _ => none
  | turns + 1, a, begin, end' => do
    let begin ← scan_up_to pred a begin end'
    let end' ← find_back pred a begin end'
    if begin = end' ∨ begin = end' - 1 then some (begin, a)
    else simple_loop turns (← iter_swap a begin (end' - 1)) (begin + 1) (end' - 1)

/-- The loop of a partition whose scans compare the pointers:
`if (begin == end) break; iter_swap(begin, end); ++begin;`. -/
def manual_loop : Nat → List α → Nat → Nat → Option (Nat × List α)
  | 0, _, _, _ => none
  | turns + 1, a, begin, end' => do
    let begin ← scan_up_to pred a begin end'
    let end' ← scan_down_to pred a begin end'
    if begin = end' then some (begin, a)
    else manual_loop turns (← iter_swap a begin end') (begin + 1) end'

/-- A partition of the elements in front of `end'` whose scans are stopped by elements, once
the first one does not stop the scan, or an element of the front has been put there. -/
def sentinel_rest (turns : Nat) (a : List α) (end' : Nat) (stopped : Bool) :
    Option (Nat × List α) := do
  if stopped then
    let end' ← scan_down_to pred a 0 end'
    if 0 = end' then some (0, a)
    else
      let (mid, _, a) ← sentinel_loop pred turns (← iter_swap a 0 end') 1 end' 0
      some (mid, a)
  else
    let (mid, _, a) ← sentinel_loop pred turns a 0 end' 0
    some (mid, a)

/-- The partition begins with `begin != end && !pred(*begin)`. -/
def sentinel_partition (turns : Nat) (a : List α) (end' : Nat) : Option (Nat × List α) :=
  (if 0 ≠ end' then a[0]?.map (!pred ·) else some false).bind (sentinel_rest pred turns a end')

/-! ## What has been dealt with -/

variable {pred}

/-- The elements in front of `begin` satisfy the predicate, those from `end'` on do not. -/
structure Parted (pred : α → Bool) (a : List α) (begin end' : Nat) : Prop where
  front : ∀ i x, i < begin → a[i]? = some x → pred x = true
  back : ∀ i x, end' ≤ i → a[i]? = some x → pred x = false

/-- No element from `i` on satisfies the predicate. -/
def NoneFrom (pred : α → Bool) (a : List α) (i : Nat) : Prop :=
  ∀ k x, i ≤ k → a[k]? = some x → pred x = false

variable {a : List α} {begin end' : Nat}

theorem scan_up_spec (h : ∃ j x, begin ≤ j ∧ a[j]? = some x ∧ pred x = false) :
    ∃ b y, scan_up pred a begin = some b ∧ begin ≤ b ∧ a[b]? = some y ∧ pred y = false ∧
      ∀ i x, begin ≤ i → i < b → a[i]? = some x → pred x = true := by
  obtain ⟨j, x, hj, hx, hpx⟩ := h
  have hlt := (List.getElem?_eq_some_iff.mp hx).1
  induction hd : j - begin generalizing begin with
  | zero =>
    obtain rfl : begin = j := by omega
    obtain ⟨hb, rfl⟩ := List.getElem?_eq_some_iff.mp hx
    refine ⟨begin, _, ?_, Nat.le_refl _, hx, hpx, fun i _ hi hlt => absurd hi (Nat.not_le.mpr hlt)⟩
    rw [scan_up, dif_pos hb, if_neg (by rw [hpx]; exact Bool.false_ne_true)]
  | succ d ih =>
    have hb : begin < a.length := by omega
    rw [scan_up, dif_pos hb]
    by_cases hp : pred a[begin] = true
    · rw [if_pos hp]
      obtain ⟨b, y, he, hle, hy, hpy, hall⟩ := @ih (begin + 1) (by omega) (by omega)
      refine ⟨b, y, he, Nat.le_of_succ_le hle, hy, hpy, fun i z hi hlt hz => ?_⟩
      rcases Nat.eq_or_lt_of_le hi with rfl | hi
      · rw [List.getElem?_eq_getElem hb, Option.some.injEq] at hz
        rwa [← hz]
      · exact hall i z hi hlt hz
    · rw [if_neg hp]
      exact ⟨begin, _, rfl, Nat.le_refl _, List.getElem?_eq_getElem hb,
        Bool.eq_false_iff.mpr hp, fun i _ hi hlt => absurd hi (Nat.not_le.mpr hlt)⟩

/-- Either an element stops the scan, or the end does. -/
theorem scan_up_to_spec (hbegin : begin ≤ end') (hlen : end' ≤ a.length) :
    ∃ b, scan_up_to pred a begin end' = some b ∧ begin ≤ b ∧ b ≤ end' ∧
      (b < end' → ∃ y, a[b]? = some y ∧ pred y = false) ∧
      ∀ i x, begin ≤ i → i < b → a[i]? = some x → pred x = true := by
  induction hd : end' - begin generalizing begin with
  | zero =>
    obtain rfl : begin = end' := Nat.le_antisymm hbegin (Nat.sub_eq_zero_iff_le.mp hd)
    refine ⟨begin, ?_, Nat.le_refl _, Nat.le_refl _, fun h => absurd h (Nat.lt_irrefl _),
      fun i _ hi hlt => absurd hi (Nat.not_le.mpr hlt)⟩
    rw [scan_up_to, if_pos rfl]
  | succ d ih =>
    have hlt : begin < end' := Nat.lt_of_sub_pos (by rw [hd]; exact Nat.succ_pos d)
    have hb : begin < a.length := Nat.lt_of_lt_of_le hlt hlen
    have hread : a[begin]? = some a[begin] := List.getElem?_eq_getElem hb
    rw [scan_up_to, if_neg (Nat.ne_of_lt hlt), dif_pos hb]
    split
    next hp =>
      obtain ⟨b, he, hle, hend, hstop, hall⟩ := @ih (begin + 1) hlt (by omega)
      refine ⟨b, he, Nat.le_of_succ_le hle, hend, hstop, fun i z hi hib hz => ?_⟩
      rcases Nat.eq_or_lt_of_le hi with rfl | hi
      · rw [hread, Option.some.injEq] at hz
        rwa [← hz]
      · exact hall i z hi hib hz
    next hp =>
      exact ⟨begin, rfl, Nat.le_refl _, hbegin, fun _ => ⟨_, hread, Bool.eq_false_iff.mpr hp⟩,
        fun i _ hi hib => absurd hi (Nat.not_le.mpr hib)⟩

theorem scan_down_spec (hlen : end' ≤ a.length)
    (h : ∃ j x, j < end' ∧ a[j]? = some x ∧ pred x = true) :
    ∃ e y, scan_down pred a end' = some e ∧ e < end' ∧ a[e]? = some y ∧ pred y = true ∧
      ∀ i x, e < i → i < end' → a[i]? = some x → pred x = false := by
  induction end' with
  | zero =>
    obtain ⟨j, -, hj, -⟩ := h
    exact absurd hj (Nat.not_lt_zero j)
  | succ n ih =>
    have hread : a[n]? = some a[n] := List.getElem?_eq_getElem hlen
    rw [scan_down, hread]
    simp only [Option.bind_eq_bind, Option.bind_some]
    by_cases hp : pred a[n] = true
    · rw [if_pos hp]
      exact ⟨n, _, rfl, Nat.lt_succ_self n, hread, hp,
        fun i _ hi hlt => absurd hi (Nat.not_lt.mpr (Nat.le_of_lt_succ hlt))⟩
    · rw [if_neg hp]
      have h' : ∃ j x, j < n ∧ a[j]? = some x ∧ pred x = true := by
        obtain ⟨j, x, hj, hx, hpx⟩ := h
        refine ⟨j, x, Nat.lt_of_le_of_ne (Nat.le_of_lt_succ hj) ?_, hx, hpx⟩
        rintro rfl
        rw [hread, Option.some.injEq] at hx
        exact hp (hx ▸ hpx)
      obtain ⟨e, y, he, hlt, hy, hpy, hall⟩ := ih (Nat.le_of_succ_le hlen) h'
      refine ⟨e, y, he, Nat.lt_succ_of_lt hlt, hy, hpy, fun i z hi hin hz => ?_⟩
      rcases Nat.eq_or_lt_of_le (Nat.le_of_lt_succ hin) with rfl | hin
      · rw [hread, Option.some.injEq] at hz
        rw [← hz]
        exact Bool.eq_false_iff.mpr hp
      · exact hall i z hi hin hz

/-- Either an element stops the scan, or there is none. -/
theorem scan_down_to_spec (hbegin : begin ≤ end') (hlen : end' ≤ a.length) :
    ∃ e, scan_down_to pred a begin end' = some e ∧
      ((∃ y, begin ≤ e ∧ e < end' ∧ a[e]? = some y ∧ pred y = true ∧
        ∀ i x, e < i → i < end' → a[i]? = some x → pred x = false) ∨
      e = begin ∧ ∀ i x, begin ≤ i → i < end' → a[i]? = some x → pred x = false) := by
  induction end' with
  | zero =>
    obtain rfl : begin = 0 := Nat.le_zero.mp hbegin
    exact ⟨0, rfl, .inr ⟨rfl, fun i _ _ hi => absurd hi (Nat.not_lt_zero i)⟩⟩
  | succ n ih =>
    have hread : a[n]? = some a[n] := List.getElem?_eq_getElem hlen
    rw [scan_down_to]
    rcases Nat.eq_or_lt_of_le hbegin with rfl | hlt
    · rw [if_pos rfl]
      exact ⟨_, rfl, .inr ⟨rfl, fun i _ hi hi' => absurd hi (Nat.not_le.mpr hi')⟩⟩
    · rw [if_neg (Nat.ne_of_lt hlt), hread]
      simp only [Option.bind_eq_bind, Option.bind_some]
      by_cases hp : pred a[n] = true
      · rw [if_pos hp]
        exact ⟨n, rfl, .inl ⟨_, Nat.le_of_lt_succ hlt, Nat.lt_succ_self n, hread, hp,
          fun i _ hi hi' => absurd hi (Nat.not_lt.mpr (Nat.le_of_lt_succ hi'))⟩⟩
      · rw [if_neg hp]
        -- the element passed does not satisfy the predicate either
        have hn : ∀ i x, i ≤ n → n ≤ i → a[i]? = some x → pred x = false := by
          intro i x hin hni hx
          obtain rfl := Nat.le_antisymm hin hni
          rw [hread, Option.some.injEq] at hx
          rw [← hx]
          exact Bool.eq_false_iff.mpr hp
        obtain ⟨e, he, hcase⟩ := ih (Nat.le_of_lt_succ hlt) (Nat.le_of_succ_le hlen)
        refine ⟨e, he, ?_⟩
        rcases hcase with ⟨y, hbe, hen, hy, hpy, hall⟩ | ⟨heb, hall⟩
        · refine .inl ⟨y, hbe, Nat.lt_succ_of_lt hen, hy, hpy, fun i z hi hi' hz => ?_⟩
          rcases Nat.lt_or_ge i n with hin | hin
          · exact hall i z hi hin hz
          · exact hn i z (Nat.le_of_lt_succ hi') hin hz
        · refine .inr ⟨heb, fun i z hi hi' hz => ?_⟩
          rcases Nat.lt_or_ge i n with hin | hin
          · exact hall i z hi hin hz
          · exact hn i z (Nat.le_of_lt_succ hi') hin hz

/-- Both scans go on from what has been dealt with. -/
theorem Parted.scanned {b e : Nat} (h : Parted pred a begin end')
    (hfront : ∀ i x, begin ≤ i → i < b → a[i]? = some x → pred x = true)
    (hback : ∀ i x, e ≤ i → i < end' → a[i]? = some x → pred x = false) : Parted pred a b e := by
  refine ⟨fun i z hi hz => ?_, fun i z hi hz => ?_⟩
  · rcases Nat.lt_or_ge i begin with hib | hib
    · exact h.front i z hib hz
    · exact hfront i z hib hi hz
  · rcases Nat.lt_or_ge i end' with hie | hie
    · exact hback i z hi hie hz
    · exact h.back i z hie hz

/-- Swapping an element that belongs to the back with one that belongs to the front. -/
theorem Parted.swap {b e : Nat} {x y : α} (h : Parted pred a b (e + 1)) (hb : a[b]? = some x)
    (he : a[e]? = some y) (hx : pred x = false) (hy : pred y = true) (hbe : b < e) :
    ∃ a', iter_swap a b e = some a' ∧ a'.Perm a ∧ Parted pred a' (b + 1) e ∧
      a'[b]? = some y ∧ a'[e]? = some x ∧
      ∀ i, NoneFrom pred a i → a'[i]? = a[i]? ∧ NoneFrom pred a' i := by
  obtain ⟨a', hs, hperm, hb', he', hother⟩ := iter_swap_spec hb he
  refine ⟨a', hs, hperm, ⟨fun i z hi hz => ?_, fun i z hi hz => ?_⟩, hb', he', fun i hi => ?_⟩
  · rcases Nat.eq_or_lt_of_le (Nat.le_of_lt_succ hi) with rfl | hi
    · rw [hb', Option.some.injEq] at hz
      rwa [← hz]
    · rw [hother i (Nat.ne_of_lt hi) (Nat.ne_of_lt (Nat.lt_trans hi hbe))] at hz
      exact h.front i z hi hz
  · rcases Nat.eq_or_lt_of_le hi with rfl | hi
    · rw [he', Option.some.injEq] at hz
      rwa [← hz]
    · rw [hother i (Nat.ne_of_gt (Nat.lt_trans hbe hi)) (Nat.ne_of_gt hi)] at hz
      exact h.back i z hi hz
  · -- the element for the front lies before `i`
    have hei : e < i := by
      by_contra hle
      rw [hi e y (Nat.not_lt.mp hle) he] at hy
      cases hy
    have hsame : ∀ k, i ≤ k → a'[k]? = a[k]? := fun k hk =>
      hother k (Nat.ne_of_gt (Nat.lt_of_lt_of_le (Nat.lt_trans hbe hei) hk))
        (Nat.ne_of_gt (Nat.lt_of_lt_of_le hei hk))
    exact ⟨hsame i (Nat.le_refl i), fun k z hk hz => hi k z hk (hsame k hk ▸ hz)⟩

/-- The result of a partition: a point up to which the predicate holds. -/
structure Partitioned (pred : α → Bool) (a a' : List α) (mid : Nat) : Prop where
  perm : a'.Perm a
  parted : Parted pred a' mid mid
  keep : ∀ i, NoneFrom pred a i → a'[i]? = a[i]?

/-- Elements have been swapped before. -/
theorem Partitioned.after {a' a'' : List α} {mid : Nat} (h : Partitioned pred a' a'' mid)
    (hperm : a'.Perm a) (hkeep : ∀ i, NoneFrom pred a i → a'[i]? = a[i]? ∧ NoneFrom pred a' i) :
    Partitioned pred a a'' mid := by
  refine ⟨h.perm.trans hperm, h.parted, fun i hi => ?_⟩
  obtain ⟨hsame, hnone⟩ := hkeep i hi
  rw [h.keep i hnone, hsame]

theorem Partitioned.refl {mid : Nat} (h : Parted pred a mid mid) : Partitioned pred a a mid :=
  ⟨.refl a, h, fun _ _ => rfl⟩

theorem Parted.take {mid : Nat} (h : Parted pred a mid end') : ∀ x ∈ a.take mid, pred x = true := by
  intro x hx
  obtain ⟨i, hi⟩ := List.mem_iff_getElem?.mp hx
  have him : i < mid := by
    have := (List.getElem?_eq_some_iff.mp hi).1
    rw [List.length_take] at this
    exact (Nat.lt_min.mp this).1
  rw [List.getElem?_take_of_lt him] at hi
  exact h.front i x him hi

theorem Parted.drop {mid : Nat} (h : Parted pred a begin mid) :
    ∀ x ∈ a.drop mid, pred x = false := by
  intro x hx
  obtain ⟨i, hi⟩ := List.mem_iff_getElem?.mp hx
  rw [List.getElem?_drop] at hi
  exact h.back _ x (Nat.le_add_right mid i) hi

/-- An element that does not satisfy the predicate stands at the point or behind it. -/
theorem Partitioned.mid_lt {a' : List α} {mid : Nat} (h : Partitioned pred a a' mid)
    (hx : ∃ x ∈ a, pred x = false) : mid < a'.length := by
  obtain ⟨x, hx, hpx⟩ := hx
  obtain ⟨i, hi⟩ := List.mem_iff_getElem?.mp (h.perm.mem_iff.mpr hx)
  have hlt := (List.getElem?_eq_some_iff.mp hi).1
  refine Nat.lt_of_le_of_lt (Nat.le_of_not_lt fun hmid => ?_) hlt
  rw [h.parted.front i x hmid hi] at hpx
  cases hpx

/-- The first element does not satisfy the predicate. Either none does, or it is swapped
with the last one that does, and both stop the scans from there on. -/
theorem sentinel_start {n : Nat} {x : α} (hx : a[0]? = some x) (hpx : pred x = false)
    (hlen : n ≤ a.length) (hback : ∀ i z, n ≤ i → a[i]? = some z → pred z = false) :
    ∃ e, scan_down_to pred a 0 n = some e ∧ (e = 0 ∧ Partitioned pred a a 0 ∨
      0 < e ∧ e < n ∧ ∃ a' y, iter_swap a 0 e = some a' ∧ a'.Perm a ∧ Parted pred a' 1 e ∧
        a'[0]? = some y ∧ pred y = true ∧ a'[e]? = some x ∧
        ∀ i, NoneFrom pred a i → a'[i]? = a[i]? ∧ NoneFrom pred a' i) := by
  obtain ⟨e, he, ⟨y, -, hen, hy, hpy, hall⟩ | ⟨rfl, hall⟩⟩ :=
    @scan_down_to_spec _ pred _ _ _ (Nat.zero_le n) hlen
  · have he0 : 0 < e := by
      refine Nat.pos_of_ne_zero ?_
      rintro rfl
      rw [hx, Option.some.injEq] at hy
      rw [← hy, hpx] at hpy
      cases hpy
    have hparted : Parted pred a 0 (e + 1) := by
      refine ⟨fun i _ hi => absurd hi (Nat.not_lt_zero i), fun i z hi hz => ?_⟩
      rcases Nat.lt_or_ge i n with hin | hin
      · exact hall i z hi hin hz
      · exact hback i z hin hz
    obtain ⟨a', hs, hperm, hparted', h0, he', hkeep⟩ := hparted.swap hx hy hpx hpy he0
    exact ⟨e, he, .inr ⟨he0, hen, a', y, hs, hperm, hparted', h0, hpy, he', hkeep⟩⟩
  · refine ⟨0, he, .inl ⟨rfl, .refl ⟨fun i _ hi => absurd hi (Nat.not_lt_zero i), ?_⟩⟩⟩
    intro i z _ hz
    rcases Nat.lt_or_ge i n with hin | hin
    · exact hall i z (Nat.zero_le i) hin hz
    · exact hback i z hin hz

theorem sentinel_loop_spec {turns swaps : Nat} (hturns : end' < turns) (hlen : end' ≤ a.length)
    (h : Parted pred a begin end')
    (hup : ∃ j x, begin ≤ j ∧ a[j]? = some x ∧ pred x = false)
    (hdown : ∃ j x, j < end' ∧ a[j]? = some x ∧ pred x = true) :
    ∃ mid n a', sentinel_loop pred turns a begin end' swaps = some (mid, n, a') ∧
      Partitioned pred a a' mid ∧ begin ≤ mid := by
  induction turns generalizing a begin end' swaps with
  | zero => exact absurd hturns (Nat.not_lt_zero _)
  | succ turns ih =>
    obtain ⟨b, x, hb, hbegin, hbx, hx, hbelow⟩ := scan_up_spec hup
    obtain ⟨e, y, he, hend, hey, hy, habove⟩ := scan_down_spec hlen hdown
    have hparted : Parted pred a b (e + 1) := h.scanned hbelow habove
    rw [sentinel_loop]
    simp only [hb, he, Option.bind_eq_bind, Option.bind_some]
    by_cases hle : e ≤ b
    · rw [if_pos hle]
      refine ⟨b, swaps, a, rfl, ⟨.refl a, ⟨hparted.front, fun i z hi hz => ?_⟩, fun _ _ => rfl⟩,
        hbegin⟩
      rcases Nat.eq_or_lt_of_le hi with rfl | hi
      · rw [hbx, Option.some.injEq] at hz
        rwa [← hz]
      · exact hparted.back i z (Nat.succ_le_of_lt (Nat.lt_of_le_of_lt hle hi)) hz
    · have hbe := Nat.not_le.mp hle
      obtain ⟨a', hs, hperm, hparted', hb', he', hkeep⟩ := hparted.swap hbx hey hx hy hbe
      rw [if_neg hle]
      simp only [hs, Option.bind_some]
      have hlen' : e ≤ a'.length := by
        rw [hperm.length_eq]
        exact Nat.le_trans (Nat.le_of_lt hend) hlen
      obtain ⟨mid, n, a'', hrun, hp, hmid⟩ := @ih a' (b + 1) e (swaps + 1)
        (Nat.lt_of_lt_of_le hend (Nat.le_of_lt_succ hturns)) hlen' hparted'
        ⟨e, x, hbe, he', hx⟩ ⟨b, y, hbe, hb', hy⟩
      exact ⟨mid, n, a'', hrun, hp.after hperm hkeep, by omega⟩

theorem find_back_spec (hbegin : begin ≤ end') (hlen : end' ≤ a.length) :
    ∃ e, find_back pred a begin end' = some e ∧ begin ≤ e ∧ e ≤ end' ∧
      (begin < e → ∃ y, a[e - 1]? = some y ∧ pred y = true) ∧
      ∀ i x, e ≤ i → i < end' → a[i]? = some x → pred x = false := by
  induction end' with
  | zero =>
    obtain rfl : begin = 0 := Nat.le_zero.mp hbegin
    exact ⟨0, rfl, Nat.le_refl 0, Nat.le_refl 0, fun h => absurd h (Nat.lt_irrefl 0),
      fun i _ _ hi => absurd hi (Nat.not_lt_zero i)⟩
  | succ n ih =>
    have hread : a[n]? = some a[n] := List.getElem?_eq_getElem hlen
    rw [find_back]
    split
    next h =>
      exact ⟨begin, rfl, Nat.le_refl _, hbegin, fun h => absurd h (Nat.lt_irrefl _),
        fun i _ hi hlt => absurd hi (Nat.not_le.mpr (h ▸ hlt))⟩
    next h =>
      simp only [hread, Option.bind_eq_bind, Option.bind_some]
      have hle : begin ≤ n := Nat.le_of_lt_succ (Nat.lt_of_le_of_ne hbegin h)
      split
      next hp =>
        exact ⟨n + 1, rfl, hbegin, Nat.le_refl _, fun _ => ⟨_, hread, hp⟩,
          fun i _ hi hlt => absurd hi (Nat.not_le.mpr hlt)⟩
      next hp =>
        obtain ⟨e, he, hbe, hen, hstop, hall⟩ := ih hle (Nat.le_of_succ_le hlen)
        refine ⟨e, he, hbe, Nat.le_succ_of_le hen, hstop, fun i z hi hlt hz => ?_⟩
        rcases Nat.eq_or_lt_of_le (Nat.le_of_lt_succ hlt) with rfl | hlt
        · rw [hread, Option.some.injEq] at hz
          rw [← hz]
          exact Bool.eq_false_iff.mpr hp
        · exact hall i z hi hlt hz

theorem manual_loop_spec {turns : Nat} (hturns : end' - begin < turns) (hbegin : begin ≤ end')
    (hlen : end' ≤ a.length) (h : Parted pred a begin end') :
    ∃ mid a', manual_loop pred turns a begin end' = some (mid, a') ∧ Partitioned pred a a' mid ∧
      mid ≤ end' := by
  induction turns generalizing a begin end' with
  | zero => exact absurd hturns (Nat.not_lt_zero _)
  | succ turns ih =>
    obtain ⟨b, hb, hbb, hbe, hstop, hfront⟩ := @scan_up_to_spec _ pred _ _ _ hbegin hlen
    obtain ⟨e, he, hcase⟩ := @scan_down_to_spec _ pred _ _ _ hbe hlen
    rw [manual_loop]
    simp only [hb, he, Option.bind_eq_bind, Option.bind_some]
    rcases hcase with ⟨y, hble, hee, hy, hpy, hback⟩ | ⟨rfl, hback⟩
    · obtain ⟨x, hx, hpx⟩ := hstop (Nat.lt_of_le_of_lt hble hee)
      have hne : b ≠ e := by
        rintro rfl
        rw [hx, Option.some.injEq] at hy
        rw [hy, hpy] at hpx
        cases hpx
      have hlt : b < e := Nat.lt_of_le_of_ne hble hne
      obtain ⟨a', hs, hperm, hparted, -, -, hkeep⟩ :=
        (h.scanned hfront hback).swap hx hy hpx hpy hlt
      rw [if_neg hne]
      simp only [hs, Option.bind_some]
      obtain ⟨mid, a'', hrun, hp, hmid⟩ := @ih a' (b + 1) e (by omega) hlt
        (by rw [hperm.length_eq]; omega) hparted
      exact ⟨mid, a'', hrun, hp.after hperm hkeep, Nat.le_trans hmid (Nat.le_of_lt hee)⟩
    · rw [if_pos rfl]
      exact ⟨e, a, rfl, .refl (h.scanned hfront hback), hbe⟩

theorem simple_loop_spec {turns : Nat} (hturns : end' - begin < turns) (hbegin : begin ≤ end')
    (hlen : end' ≤ a.length) (h : Parted pred a begin end') :
    ∃ mid a', simple_loop pred turns a begin end' = some (mid, a') ∧ Partitioned pred a a' mid ∧
      mid ≤ end' := by
  induction turns generalizing a begin end' with
  | zero => exact absurd hturns (Nat.not_lt_zero _)
  | succ turns ih =>
    obtain ⟨b, hb, hbb, hbe, hstop, hfront⟩ := @scan_up_to_spec _ pred _ _ _ hbegin hlen
    obtain ⟨e, he, hble, hee, hfound, hback⟩ := @find_back_spec _ pred _ _ _ hbe hlen
    have hparted := h.scanned hfront hback
    rw [simple_loop]
    simp only [hb, he, Option.bind_eq_bind, Option.bind_some]
    rcases Nat.eq_or_lt_of_le hble with rfl | hlt
    · rw [if_pos (.inl rfl)]
      exact ⟨b, a, rfl, .refl hparted, hee⟩
    · obtain ⟨y, hy, hpy⟩ := hfound hlt
      obtain ⟨x, hx, hpx⟩ := hstop (Nat.lt_of_lt_of_le hlt hee)
      have hne : b ≠ e - 1 := by
        rintro rfl
        rw [hx, Option.some.injEq] at hy
        rw [hy, hpy] at hpx
        cases hpx
      have he1 : e - 1 + 1 = e := Nat.succ_pred_eq_of_pos (Nat.zero_lt_of_lt hlt)
      have hlt' : b < e - 1 := by omega
      obtain ⟨a', hs, hperm, hparted', -, -, hkeep⟩ :=
        (he1.symm ▸ hparted).swap hx hy hpx hpy hlt'
      rw [if_neg (not_or.mpr ⟨Nat.ne_of_lt hlt, hne⟩)]
      simp only [hs, Option.bind_some]
      obtain ⟨mid, a'', hrun, hp, hmid⟩ := @ih a' (b + 1) (e - 1) (by omega) hlt'
        (by rw [hperm.length_eq]; omega) hparted'
      exact ⟨mid, a'', hrun, hp.after hperm hkeep, by omega⟩

theorem sentinel_partition_spec {n turns : Nat} (hpos : 0 < n) (hlen : n ≤ a.length)
    (hturns : n < turns) (hback : NoneFrom pred a n)
    (hup : ∃ j x, 0 ≤ j ∧ a[j]? = some x ∧ pred x = false) :
    ∃ mid a', sentinel_partition pred turns a n = some (mid, a') ∧ Partitioned pred a a' mid := by
  have hx : a[0]? = some a[0] := List.getElem?_eq_getElem (Nat.lt_of_lt_of_le hpos hlen)
  unfold sentinel_partition sentinel_rest
  rw [if_pos (Nat.ne_of_lt hpos), hx]
  simp only [Option.bind_eq_bind, Option.map_some, Option.bind_some]
  by_cases hpx : pred a[0] = true
  · obtain ⟨mid, swaps, a', hrun, hpart, -⟩ := @sentinel_loop_spec _ _ a 0 n turns 0
      hturns hlen ⟨fun i _ hi => absurd hi (Nat.not_lt_zero i), hback⟩ hup ⟨0, _, hpos, hx, hpx⟩
    rw [if_neg (by rw [hpx]; exact Bool.false_ne_true), hrun]
    exact ⟨mid, a', rfl, hpart⟩
  · have hpx' := Bool.eq_false_iff.mpr hpx
    obtain ⟨e, he, hcase⟩ := sentinel_start hx hpx' hlen hback
    rw [if_pos (by rw [hpx']; rfl), he]
    simp only [Option.bind_some]
    rcases hcase with ⟨rfl, hpart⟩ | ⟨he0, hen, a', y, hs, hperm, hparted, h0, hpy, hey, hkeep⟩
    · exact ⟨0, a, rfl, hpart⟩
    · have hlen' : e ≤ a'.length := by
        rw [hperm.length_eq]
        exact Nat.le_trans (Nat.le_of_lt hen) hlen
      obtain ⟨mid, swaps, a'', hrun, hpart, -⟩ := @sentinel_loop_spec _ _ a' 1 e turns 0
        (Nat.lt_trans hen hturns) hlen' hparted ⟨e, _, he0, hey, hpx'⟩ ⟨0, y, he0, h0, hpy⟩
      rw [if_neg (Nat.ne_of_lt he0), hs]
      simp only [Option.bind_some, hrun]
      exact ⟨mid, a'', rfl, hpart.after hperm hkeep⟩

theorem scan_up_all (h : ∀ x ∈ a, pred x = true) (begin : Nat) : scan_up pred a begin = none := by
  fun_induction scan_up pred a begin with
  | case1 begin hlt hp ih => exact ih
  | case2 begin hlt hp => exact absurd (h _ (List.getElem_mem hlt)) hp
  | case3 => rfl

/-- Every element satisfies the predicate: the scan from the front goes beyond the end. -/
theorem sentinel_partition_all (h : ∀ x ∈ a, pred x = true) (turns : Nat) (end' : Nat) :
    sentinel_partition pred turns a end' = none := by
  have hrest : sentinel_rest pred turns a end' false = none := by
    unfold sentinel_rest
    rw [if_neg Bool.false_ne_true]
    cases turns with
    | zero => rfl
    | succ turns =>
      rw [sentinel_loop, scan_up_all h]
      rfl
  unfold sentinel_partition
  split
  next =>
    cases hx : a[0]? with
    | none => rfl
    | some x =>
      rw [Option.map_some, h x (List.mem_of_getElem? hx)]
      exact hrest
  next => exact hrest

/-- The scan for the front of an empty range goes beyond its beginning. -/
theorem sentinel_partition_empty {p : α} (turns : Nat) (hp : a[0]? = some p)
    (hpred : pred p = false) : sentinel_partition pred turns a 0 = none := by
  obtain ⟨hlt, rfl⟩ := List.getElem?_eq_some_iff.mp hp
  unfold sentinel_partition sentinel_rest
  rw [if_neg (not_not.mpr rfl)]
  simp only [Option.bind_eq_bind, Option.bind_some]
  cases turns with
  | zero => rfl
  | succ turns =>
    rw [if_neg Bool.false_ne_true, sentinel_loop, scan_up, dif_pos hlt,
      if_neg (by rw [hpred]; exact Bool.false_ne_true)]
    rfl

/-! ## A part of the range -/

section

variable {pred : α → Bool} {rest : List α}

theorem getElem?_append_of_some {i : Nat} {x : α} (h : a[i]? = some x) (rest : List α) :
    (a ++ rest)[i]? = some x := by
  rw [List.getElem?_append_left (List.getElem?_eq_some_iff.mp h).1, h]

theorem iter_swap_append {i j : Nat} {a' : List α} (h : iter_swap a i j = some a') :
    iter_swap (a ++ rest) i j = some (a' ++ rest) := by
  obtain ⟨x, hx, h⟩ := Option.bind_eq_some_iff.mp h
  obtain ⟨y, hy, h⟩ := Option.bind_eq_some_iff.mp h
  obtain rfl := Option.some.inj h
  have hi := (List.getElem?_eq_some_iff.mp hx).1
  have hj := (List.getElem?_eq_some_iff.mp hy).1
  unfold iter_swap
  rw [getElem?_append_of_some hx, getElem?_append_of_some hy]
  simp only [Option.bind_eq_bind, Option.bind_some, Option.pure_def]
  rw [List.set_append_left _ _ hi, List.set_append_left _ _ (by rwa [List.length_set])]

theorem scan_up_append {b : Nat} (h : scan_up pred a begin = some b) :
    scan_up pred (a ++ rest) begin = some b := by
  fun_induction scan_up pred a begin with
  | case1 begin hlt hp ih =>
    have hlt' : begin < (a ++ rest).length := by
      rw [List.length_append]
      exact Nat.lt_add_right _ hlt
    rw [scan_up, dif_pos hlt', List.getElem_append_left hlt, if_pos hp]
    exact ih h
  | case2 begin hlt hp =>
    have hlt' : begin < (a ++ rest).length := by
      rw [List.length_append]
      exact Nat.lt_add_right _ hlt
    rw [scan_up, dif_pos hlt', List.getElem_append_left hlt, if_neg hp]
    exact h
  | case3 => cases h

theorem scan_down_append {e : Nat} (h : scan_down pred a end' = some e) :
    scan_down pred (a ++ rest) end' = some e := by
  induction end' with
  | zero => cases h
  | succ n ih =>
    rw [scan_down] at h ⊢
    obtain ⟨x, hx, h⟩ := Option.bind_eq_some_iff.mp h
    rw [getElem?_append_of_some hx]
    simp only [Option.bind_eq_bind, Option.bind_some]
    split at h
    next hp => rw [if_pos hp, h]
    next hp => rw [if_neg hp, ih h]

theorem scan_up_to_append {b : Nat} (h : scan_up_to pred a begin end' = some b) :
    scan_up_to pred (a ++ rest) begin end' = some b := by
  fun_induction scan_up_to pred a begin end' with
  | case1 => rw [scan_up_to, if_pos rfl, h]
  | case2 begin hne hlt hp ih =>
    have hlt' : begin < (a ++ rest).length := by
      rw [List.length_append]
      exact Nat.lt_add_right _ hlt
    rw [scan_up_to, if_neg hne, dif_pos hlt', List.getElem_append_left hlt, if_pos hp]
    exact ih h
  | case3 begin hne hlt hp =>
    have hlt' : begin < (a ++ rest).length := by
      rw [List.length_append]
      exact Nat.lt_add_right _ hlt
    rw [scan_up_to, if_neg hne, dif_pos hlt', List.getElem_append_left hlt, if_neg hp]
    exact h
  | case4 => cases h

theorem scan_down_to_append {e : Nat} (h : scan_down_to pred a begin end' = some e) :
    scan_down_to pred (a ++ rest) begin end' = some e := by
  induction end' with
  | zero => exact h
  | succ n ih =>
    rw [scan_down_to] at h ⊢
    split at h
    next hb => rw [if_pos hb, h]
    next hb =>
      rw [if_neg hb]
      obtain ⟨x, hx, h⟩ := Option.bind_eq_some_iff.mp h
      rw [getElem?_append_of_some hx]
      simp only [Option.bind_eq_bind, Option.bind_some]
      split at h
      next hp => rw [if_pos hp, h]
      next hp => rw [if_neg hp, ih h]

theorem find_back_append {e : Nat} (h : find_back pred a begin end' = some e) :
    find_back pred (a ++ rest) begin end' = some e := by
  induction end' with
  | zero => exact h
  | succ n ih =>
    rw [find_back] at h ⊢
    split at h
    next hb => rw [if_pos hb, h]
    next hb =>
      rw [if_neg hb]
      obtain ⟨x, hx, h⟩ := Option.bind_eq_some_iff.mp h
      rw [getElem?_append_of_some hx]
      simp only [Option.bind_eq_bind, Option.bind_some]
      split at h
      next hp => rw [if_pos hp, h]
      next hp => rw [if_neg hp, ih h]

variable {turns mid : Nat} {a' : List α}

theorem simple_loop_append (h : simple_loop pred turns a begin end' = some (mid, a')) :
    simple_loop pred turns (a ++ rest) begin end' = some (mid, a' ++ rest) := by
  induction turns generalizing a begin end' with
  | zero => cases h
  | succ turns ih =>
    rw [simple_loop] at h ⊢
    obtain ⟨b, hb, h⟩ := Option.bind_eq_some_iff.mp h
    obtain ⟨e, he, h⟩ := Option.bind_eq_some_iff.mp h
    simp only [scan_up_to_append hb, find_back_append he, Option.bind_eq_bind, Option.bind_some]
    split at h
    next hbe =>
      cases h
      rw [if_pos hbe]
    next hbe =>
      obtain ⟨a₁, hs, h⟩ := Option.bind_eq_some_iff.mp h
      rw [if_neg hbe, iter_swap_append hs, Option.bind_some, ih h]

theorem manual_loop_append (h : manual_loop pred turns a begin end' = some (mid, a')) :
    manual_loop pred turns (a ++ rest) begin end' = some (mid, a' ++ rest) := by
  induction turns generalizing a begin end' with
  | zero => cases h
  | succ turns ih =>
    rw [manual_loop] at h ⊢
    obtain ⟨b, hb, h⟩ := Option.bind_eq_some_iff.mp h
    obtain ⟨e, he, h⟩ := Option.bind_eq_some_iff.mp h
    simp only [scan_up_to_append hb, scan_down_to_append he, Option.bind_eq_bind,
      Option.bind_some]
    split at h
    next hbe =>
      cases h
      rw [if_pos hbe]
    next hbe =>
      obtain ⟨a₁, hs, h⟩ := Option.bind_eq_some_iff.mp h
      rw [if_neg hbe, iter_swap_append hs, Option.bind_some, ih h]

theorem sentinel_loop_append {swaps n : Nat}
    (h : sentinel_loop pred turns a begin end' swaps = some (mid, n, a')) :
    sentinel_loop pred turns (a ++ rest) begin end' swaps = some (mid, n, a' ++ rest) := by
  induction turns generalizing a begin end' swaps with
  | zero => cases h
  | succ turns ih =>
    rw [sentinel_loop] at h ⊢
    obtain ⟨b, hb, h⟩ := Option.bind_eq_some_iff.mp h
    obtain ⟨e, he, h⟩ := Option.bind_eq_some_iff.mp h
    simp only [scan_up_append hb, scan_down_append he, Option.bind_eq_bind, Option.bind_some]
    split at h
    next hbe =>
      cases h
      rw [if_pos hbe]
    next hbe =>
      obtain ⟨a₁, hs, h⟩ := Option.bind_eq_some_iff.mp h
      rw [if_neg hbe, iter_swap_append hs, Option.bind_some, ih h]

/-- The partition does not look behind its range where an element stops it in there. -/
theorem sentinel_partition_append
    (h : sentinel_partition pred turns a end' = some (mid, a')) :
    sentinel_partition pred turns (a ++ rest) end' = some (mid, a' ++ rest) := by
  obtain ⟨stopped, hstopped, h⟩ := Option.bind_eq_some_iff.mp h
  refine Option.bind_eq_some_iff.mpr ⟨stopped, ?_, ?_⟩
  · split at hstopped
    next hne =>
      obtain ⟨x, hx, hstopped⟩ := Option.map_eq_some_iff.mp hstopped
      rw [if_pos hne, getElem?_append_of_some hx, Option.map_some, hstopped]
    next hne => rw [if_neg hne, hstopped]
  unfold sentinel_rest at h ⊢
  split at h
  next hs =>
    rw [if_pos hs]
    obtain ⟨e, he, h⟩ := Option.bind_eq_some_iff.mp h
    simp only [scan_down_to_append he, Option.bind_eq_bind, Option.bind_some]
    split at h
    next hz =>
      cases h
      rw [if_pos hz]
    next hz =>
      obtain ⟨a₁, hs, h⟩ := Option.bind_eq_some_iff.mp h
      obtain ⟨⟨m, n, a₂⟩, hrun, h⟩ := Option.bind_eq_some_iff.mp h
      cases h
      rw [if_neg hz, iter_swap_append hs, Option.bind_some, sentinel_loop_append hrun]
      rfl
  next hs =>
    rw [if_neg hs]
    obtain ⟨⟨m, n, a₂⟩, hrun, h⟩ := Option.bind_eq_some_iff.mp h
    cases h
    rw [sentinel_loop_append hrun]
    rfl

end

/-! ## The pivot -/

/-- The element behind `l` and the last one: `r` begins one element later. -/
theorem iter_swap_last (l r : List α) (p : α) :
    iter_swap (l ++ r ++ [p]) l.length (l.length + r.length) = some (l ++ p :: r.rotate 1) := by
  have hlast : (l ++ r ++ [p])[l.length + r.length]? = some p := by
    rw [← List.length_append]
    exact getElem?_length_append
  cases r with
  | nil =>
    unfold iter_swap
    rw [List.length_nil, Nat.add_zero, List.append_nil, getElem?_length_append]
    simp only [Option.bind_eq_bind, Option.bind_some, Option.pure_def, set_length_append]
    rfl
  | cons x r =>
    have hfirst : (l ++ x :: r ++ [p])[l.length]? = some x := by
      rw [List.append_assoc]
      exact getElem?_length_append
    have hset : (l ++ x :: r ++ [p]).set l.length p = l ++ p :: r ++ [p] := by
      rw [List.append_assoc, List.append_assoc]
      exact set_length_append
    have hlen : l.length + (x :: r).length = (l ++ p :: r).length := by
      rw [List.length_append]
      rfl
    unfold iter_swap
    rw [hlast, hfirst]
    simp only [Option.bind_eq_bind, Option.bind_some, Option.pure_def, hset]
    rw [hlen, set_length_append, List.rotate_cons_succ, List.rotate_zero, List.append_assoc]
    rfl

theorem split_at {mid : Nat} {p : α} (h : a[mid]? = some p) :
    a = a.take mid ++ p :: a.drop (mid + 1) := by
  obtain ⟨hlt, rfl⟩ := List.getElem?_eq_some_iff.mp h
  rw [← List.drop_eq_getElem_cons hlt, List.take_append_drop]

theorem drop_pivot (l r : List α) (p : α) : (l ++ p :: r).drop (l.length + 1) = r := by
  rw [List.append_cons, ← List.length_singleton (a := p), ← List.length_append, List.drop_left]

theorem take_pivot (l r : List α) (p : α) : (l ++ p :: r).take (l.length + 1) = l ++ [p] := by
  rw [List.append_cons, ← List.length_singleton (a := p), ← List.length_append, List.take_left]

/-- A partition that leaves the pivot in the last place. -/
structure Pivoted (pred : α → Bool) (a a' : List α) (mid n : Nat) (p : α) : Prop where
  perm : a'.Perm a
  parted : Parted pred a' mid mid
  last : a'[n]? = some p

theorem NoneFrom.last {n : Nat} {p : α} (hn : a.length = n + 1) (hp : a[n]? = some p)
    (hpred : pred p = false) : NoneFrom pred a n := by
  intro i x hi hx
  have hlt := (List.getElem?_eq_some_iff.mp hx).1
  rw [hn] at hlt
  obtain rfl : i = n := Nat.le_antisymm (Nat.le_of_lt_succ hlt) hi
  rw [hp, Option.some.injEq] at hx
  rwa [← hx]

/-- The pivot does not satisfy the predicate. -/
theorem Partitioned.pivoted {a' : List α} {mid n : Nat} {p : α} (h : Partitioned pred a a' mid)
    (hn : a.length = n + 1) (hp : a[n]? = some p) (hpred : pred p = false) :
    Pivoted pred a a' mid n p := by
  exact ⟨h.perm, h.parted, by rw [h.keep n (.last hn hp hpred), hp]⟩

theorem Pivoted.mid_le {a' : List α} {mid n : Nat} {p : α} (h : Pivoted pred a a' mid n p)
    (hpred : pred p = false) : mid ≤ n := by
  by_contra hlt
  have := h.parted.front n p (Nat.not_le.mp hlt) h.last
  rw [hpred] at this
  cases this

/-- The pivot is swapped between the parts. -/
theorem Pivoted.place_pivot {a' : List α} {mid n : Nat} {p : α} (h : Pivoted pred a a' mid n p)
    (hn : a.length = n + 1) (hpred : pred p = false) :
    ∃ l r, iter_swap a' mid n = some (l ++ p :: r) ∧ l.length = mid ∧
      (l ++ p :: r).Perm a ∧ (∀ x ∈ l, pred x = true) ∧ ∀ x ∈ r, pred x = false := by
  have hn' := h.last
  have hmid := h.mid_le hpred
  have hmidlt : mid < a'.length := by
    rw [h.perm.length_eq, hn]
    exact Nat.lt_succ_of_le hmid
  obtain ⟨a'', hs, hperm, hm, hlastm, hother⟩ :=
    iter_swap_spec (List.getElem?_eq_getElem hmidlt) hn'
  have hsplit := split_at hm
  refine ⟨a''.take mid, a''.drop (mid + 1), ?_, ?_, ?_, fun x hx => ?_, fun x hx => ?_⟩
  · rw [← hsplit]
    exact hs
  · rw [List.length_take, hperm.length_eq]
    exact Nat.min_eq_left (Nat.le_of_lt hmidlt)
  · rw [← hsplit]
    exact hperm.trans h.perm
  · obtain ⟨i, hi⟩ := List.mem_iff_getElem?.mp hx
    have him : i < mid := by
      have := (List.getElem?_eq_some_iff.mp hi).1
      rw [List.length_take] at this
      exact (Nat.lt_min.mp this).1
    rw [List.getElem?_take_of_lt him, hother i (Nat.ne_of_lt him)
      (Nat.ne_of_lt (Nat.lt_of_lt_of_le him hmid))] at hi
    exact h.parted.front i x him hi
  · obtain ⟨i, hi⟩ := List.mem_iff_getElem?.mp hx
    rw [List.getElem?_drop] at hi
    by_cases hin : mid + 1 + i = n
    · -- what stood at the point has gone to the end
      rw [hin, hlastm, Option.some.injEq] at hi
      rw [← hi]
      exact h.parted.back mid _ (Nat.le_refl mid) (List.getElem?_eq_getElem hmidlt)
    · rw [hother _ (by omega) hin] at hi
      exact h.parted.back _ x (by omega) hi

/-- Both parts are sorted with the pivot between them. -/
theorem sorted_around [Preorder α] {l l' r r' : List α} {p : α} (hl : l'.Perm l) (hr : r'.Perm r)
    (hsl : l'.Pairwise (· ≤ ·)) (hsr : r'.Pairwise (· ≤ ·)) (hlp : ∀ x ∈ l, x ≤ p)
    (hpr : ∀ x ∈ r, p ≤ x) : (l' ++ p :: r').Pairwise (· ≤ ·) := by
  have hpr' : ∀ x ∈ r', p ≤ x := fun x hx => hpr x (hr.mem_iff.mp hx)
  refine List.pairwise_append.mpr ⟨hsl, List.pairwise_cons.mpr ⟨hpr', hsr⟩, fun x hx y hy => ?_⟩
  have hxp := hlp x (hl.mem_iff.mp hx)
  rcases List.mem_cons.mp hy with rfl | hy
  · exact hxp
  · exact hxp.trans (hpr' y hy)

end RangeSort
