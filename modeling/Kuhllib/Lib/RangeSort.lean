import Mathlib.Data.List.Induction
import Mathlib.Order.Lattice
import Mathlib.Order.RelClasses
import Mathlib.Tactic.ByContra

/-!
# Sorting a range in place

A range is the list of its elements, a pointer into it an index. What reads or writes
outside of the range fails.

* Swapping two elements.
* Inserting an element into the sorted elements in front of it, by moves or by swaps,
  with or without a test for the beginning of the range.
-/

namespace RangeSort

variable {α : Type}

/-! ## Swapping -/

def iter_swap (a : List α) (i j : Nat) : Option (List α) := do
  let x ← a[i]?
  let y ← a[j]?
  pure ((a.set i y).set j x)

theorem iter_swap_spec {a : List α} {i j : Nat} {x y : α} (hi : a[i]? = some x)
    (hj : a[j]? = some y) :
    ∃ a', iter_swap a i j = some a' ∧ a'.Perm a ∧ a'[i]? = some y ∧ a'[j]? = some x ∧
      ∀ k, k ≠ i → k ≠ j → a'[k]? = a[k]? := by
  obtain ⟨hilt, rfl⟩ := List.getElem?_eq_some_iff.mp hi
  obtain ⟨hjlt, rfl⟩ := List.getElem?_eq_some_iff.mp hj
  refine ⟨_, ?_, List.set_set_perm hilt hjlt, ?_, ?_, ?_⟩
  · unfold iter_swap
    rw [hi, hj]
    rfl
  · by_cases h : i = j
    · subst h
      rw [List.getElem?_set_self (by simpa using hilt)]
    · rw [List.getElem?_set_ne (Ne.symm h), List.getElem?_set_self hilt]
  · rw [List.getElem?_set_self (by simpa using hjlt)]
  · intro k hki hkj
    rw [List.getElem?_set_ne (Ne.symm hkj), List.getElem?_set_ne (Ne.symm hki)]

/-! ## Orders -/

section

variable [LT α] [IsStrictWeakOrder α (· < ·)]

theorem not_lt_trans {x y z : α} (hxy : ¬ y < x) (hyz : ¬ z < y) : ¬ z < x := by
  intro hzx
  by_cases h1 : x < y
  · exact hyz (trans_of (· < ·) hzx h1)
  · by_cases h2 : y < z
    · exact hxy (trans_of (· < ·) h2 hzx)
    · exact (IsStrictWeakOrder.incomp_trans x y z ⟨h1, hxy⟩ ⟨h2, hyz⟩).2 hzx

/-- Equivalent elements are as great as each other. -/
@[reducible]
def weakPreorder (α : Type) [LT α] [IsStrictWeakOrder α (· < ·)] : Preorder α where
  le x y := ¬ y < x
  lt := (· < ·)
  le_refl x := irrefl_of (· < ·) x
  le_trans _ _ _ := not_lt_trans
  lt_iff_le_not_ge _ _ :=
    ⟨fun h => ⟨asymm_of (· < ·) h, fun hno => hno h⟩, fun h => Classical.not_not.mp h.2⟩

instance weak_of_linear (α : Type) [LinearOrder α] : IsStrictWeakOrder α (· < ·) :=
  isStrictWeakOrder_of_isOrderConnected

theorem weakPreorder_total : @Std.Total α (weakPreorder α).le :=
  ⟨fun x y => by
    by_cases h : y < x
    · exact .inr (asymm_of (· < ·) h)
    · exact .inl h⟩

end

/-! ## Inserting -/

section

variable [LT α] [DecidableLT α]

/-- `while (begin != --cur && tmp < *(cur - 1)) *cur = *(cur - 1); *cur = tmp;` from where
`cur` has been decremented, or the loop without `begin != ..`. -/
def move_down (guarded : Bool) (a : List α) (tmp : α) : Nat → Option (List α)
  | 0 => if guarded then some (a.set 0 tmp) else none
  | cur + 1 => do
    let x ← a[cur]?
    if tmp < x then move_down guarded (a.set (cur + 1) x) tmp cur
    else some (a.set (cur + 1) tmp)

/-- `if (*it < *(it - 1)) ..`, where the elements in front of it are moved. -/
def insert_move (guarded : Bool) (a : List α) (it : Nat) : Option (List α) := do
  let tmp ← a[it]?
  let x ← a[it - 1]?
  if tmp < x then move_down guarded (a.set it x) tmp (it - 1) else some a

/-- `for (cur = it; begin != cur && *cur < *(cur - 1); --cur) iter_swap(cur, cur - 1);`, or
the loop without `begin != cur`. -/
def insert_swap (guarded : Bool) (a : List α) : Nat → Option (List α)
  | 0 => if guarded then some a else none
  | cur + 1 => do
    let y ← a[cur + 1]?
    let x ← a[cur]?
    if y < x then insert_swap guarded ((a.set (cur + 1) x).set cur y) cur else some a

end

theorem getElem?_length_append {pre suf : List α} {x : α} :
    (pre ++ x :: suf)[pre.length]? = some x := by
  rw [List.getElem?_append_right (Nat.le_refl _), Nat.sub_self]
  rfl

theorem set_length_append {pre suf : List α} {x y : α} :
    (pre ++ x :: suf).set pre.length y = pre ++ y :: suf := by
  rw [List.set_append_right _ _ (Nat.le_refl _), Nat.sub_self]
  rfl

section

variable [LE α] [LT α]

/-- `tmp` goes between `l` and `r`. -/
structure Inserted (pre : List α) (tmp : α) (l r : List α) : Prop where
  split : pre = l ++ r
  below : ∀ x ∈ l, x ≤ tmp
  above : ∀ x ∈ r, tmp < x

/-- The beginning of the range is tested, or an element stops the search. -/
def Guarded (guarded : Bool) (pre : List α) (tmp : α) : Prop :=
  guarded = true ∨ ∃ x ∈ pre, x ≤ tmp

/-- What an insertion does to an element behind sorted ones. -/
def Inserts (guarded : Bool) (insert : List α → Nat → Option (List α)) : Prop :=
  ∀ (pre : List α) (tmp : α) (suf : List α), pre.Pairwise (· ≤ ·) → pre ≠ [] →
    Guarded guarded pre tmp → ∃ l r, insert (pre ++ tmp :: suf) pre.length =
      some (l ++ tmp :: (r ++ suf)) ∧ Inserted pre tmp l r

end

section

variable [Preorder α]

theorem le_of_not_lt' [@Std.Total α (· ≤ ·)] {x y : α} (h : ¬ x < y) : y ≤ x := by
  rcases Std.Total.total (r := (· ≤ ·)) x y with hxy | hyx
  · by_contra hyx
    exact h (lt_of_le_not_ge hxy hyx)
  · exact hyx

theorem Inserted.sorted {pre l r : List α} {tmp : α} (h : Inserted pre tmp l r)
    (hs : pre.Pairwise (· ≤ ·)) : (l ++ tmp :: r).Pairwise (· ≤ ·) := by
  rw [h.split, List.pairwise_append] at hs
  obtain ⟨hl, hr, hlr⟩ := hs
  rw [List.pairwise_append, List.pairwise_cons]
  refine ⟨hl, ⟨fun y hy => (h.above y hy).le, hr⟩, fun x hx y hy => ?_⟩
  rcases List.mem_cons.mp hy with rfl | hy
  · exact h.below x hx
  · exact hlr x hx y hy

theorem Inserted.perm {pre l r : List α} {tmp : α} (h : Inserted pre tmp l r) (suf : List α) :
    (l ++ tmp :: (r ++ suf)).Perm (pre ++ tmp :: suf) := by
  rw [h.split, List.append_assoc]
  exact (List.perm_middle.symm).append_left l

/-- One more element in front of the ones moved. -/
theorem Inserted.snoc {pre l r : List α} {tmp x : α} (h : Inserted pre tmp l r) (hx : tmp < x) :
    Inserted (pre ++ [x]) tmp l (r ++ [x]) := by
  refine ⟨by rw [h.split, List.append_assoc], h.below, fun y hy => ?_⟩
  rcases List.mem_append.mp hy with hy | hy
  · exact h.above y hy
  · rwa [List.mem_singleton.mp hy]

/-- Nothing is moved. -/
theorem Inserted.stop [@Std.Total α (· ≤ ·)] {pre : List α} {tmp x : α}
    (hs : (pre ++ [x]).Pairwise (· ≤ ·)) (hx : ¬ tmp < x) : Inserted (pre ++ [x]) tmp (pre ++ [x]) [] := by
  refine ⟨(List.append_nil _).symm, fun y hy => ?_, fun y hy => absurd hy List.not_mem_nil⟩
  have hle := le_of_not_lt' hx
  rcases List.mem_append.mp hy with hy | hy
  · exact ((List.pairwise_append.mp hs).2.2 y hy x List.mem_cons_self).trans hle
  · rwa [List.mem_singleton.mp hy]

/-- The element is stopped before the one that is greater. -/
theorem Guarded.init {guarded : Bool} {pre : List α} {tmp x : α}
    (h : Guarded guarded (pre ++ [x]) tmp) (hx : tmp < x) : Guarded guarded pre tmp := by
  rcases h with h | ⟨y, hy, hle⟩
  · exact .inl h
  · rcases List.mem_append.mp hy with hy | hy
    · exact .inr ⟨y, hy, hle⟩
    · rw [List.mem_singleton.mp hy] at hle
      exact absurd hx (not_lt_of_ge hle)

theorem Guarded.mono {guarded : Bool} {pre pre' : List α} {tmp : α} (h : Guarded guarded pre tmp)
    (hmem : ∀ x ∈ pre, x ∈ pre') : Guarded guarded pre' tmp := by
  rcases h with h | ⟨x, hx, hle⟩
  · exact .inl h
  · exact .inr ⟨x, hmem x hx, hle⟩

variable [@Std.Total α (· ≤ ·)] [DecidableLT α]

theorem move_down_spec {guarded : Bool} {pre : List α} {tmp : α} (hs : pre.Pairwise (· ≤ ·))
    (hg : Guarded guarded pre tmp) (y : α) (suf : List α) :
    ∃ l r, move_down guarded (pre ++ y :: suf) tmp pre.length = some (l ++ tmp :: (r ++ suf)) ∧
      Inserted pre tmp l r := by
  induction pre using List.reverseRecOn generalizing y suf with
  | nil =>
    obtain hg | ⟨x, hx, -⟩ := hg
    · refine ⟨[], [], ?_, rfl, fun x hx => absurd hx List.not_mem_nil,
        fun x hx => absurd hx List.not_mem_nil⟩
      unfold move_down
      rw [if_pos hg]
      rfl
    · cases hx
  | append_singleton pre x ih =>
    have hread : (pre ++ [x] ++ y :: suf)[pre.length]? = some x := by
      rw [List.append_assoc]
      exact getElem?_length_append
    have hset : ∀ z, (pre ++ [x] ++ y :: suf).set (pre.length + 1) z = pre ++ x :: z :: suf := by
      intro z
      have := @set_length_append _ (pre ++ [x]) suf y z
      rw [List.length_append] at this
      rw [← List.length_singleton (a := x), this, List.append_assoc]
      rfl
    rw [List.length_append, List.length_singleton, move_down]
    simp only [hread, hset, Option.bind_eq_bind, Option.bind_some]
    by_cases hx : tmp < x
    · rw [if_pos hx]
      obtain ⟨l, r, he, hi⟩ := ih (List.pairwise_append.mp hs).1 (hg.init hx) x (x :: suf)
      refine ⟨l, r ++ [x], ?_, hi.snoc hx⟩
      rw [he, List.append_assoc]
      rfl
    · rw [if_neg hx]
      refine ⟨pre ++ [x], [], ?_, .stop hs hx⟩
      rw [List.append_assoc]
      rfl

theorem insert_move_spec {guarded : Bool} {pre : List α} {tmp : α} (hs : pre.Pairwise (· ≤ ·))
    (hne : pre ≠ []) (hg : Guarded guarded pre tmp) (suf : List α) :
    ∃ l r, insert_move guarded (pre ++ tmp :: suf) pre.length =
      some (l ++ tmp :: (r ++ suf)) ∧ Inserted pre tmp l r := by
  obtain ⟨pre, x, rfl⟩ : ∃ q x, pre = q ++ [x] :=
    ⟨_, _, (List.dropLast_concat_getLast hne).symm⟩
  have hlen : (pre ++ [x]).length - 1 = pre.length := by
    rw [List.length_append, List.length_singleton, Nat.add_sub_cancel]
  have hread : (pre ++ [x] ++ tmp :: suf)[pre.length]? = some x := by
    rw [List.append_assoc]
    exact getElem?_length_append
  unfold insert_move
  simp only [hlen, getElem?_length_append, hread, set_length_append, Option.bind_eq_bind,
    Option.bind_some]
  by_cases hx : tmp < x
  · rw [if_pos hx, List.append_assoc]
    obtain ⟨l, r, he, hi⟩ := move_down_spec (List.pairwise_append.mp hs).1 (hg.init hx) x (x :: suf)
    refine ⟨l, r ++ [x], ?_, hi.snoc hx⟩
    rw [List.append_assoc]
    exact he
  · rw [if_neg hx]
    exact ⟨pre ++ [x], [], rfl, .stop hs hx⟩

theorem insert_swap_spec {guarded : Bool} {pre : List α} {tmp : α} (hs : pre.Pairwise (· ≤ ·))
    (hg : Guarded guarded pre tmp) (suf : List α) :
    ∃ l r, insert_swap guarded (pre ++ tmp :: suf) pre.length =
      some (l ++ tmp :: (r ++ suf)) ∧ Inserted pre tmp l r := by
  induction pre using List.reverseRecOn generalizing suf with
  | nil =>
    obtain hg | ⟨x, hx, -⟩ := hg
    · refine ⟨[], [], ?_, rfl, fun x hx => absurd hx List.not_mem_nil,
        fun x hx => absurd hx List.not_mem_nil⟩
      unfold insert_swap
      rw [if_pos hg]
      rfl
    · cases hx
  | append_singleton pre x ih =>
    have hread : (pre ++ [x] ++ tmp :: suf)[pre.length]? = some x := by
      rw [List.append_assoc]
      exact getElem?_length_append
    have hhere : (pre ++ [x] ++ tmp :: suf)[pre.length + 1]? = some tmp := by
      have := @getElem?_length_append _ (pre ++ [x]) suf tmp
      rwa [List.length_append] at this
    have hswap : ((pre ++ [x] ++ tmp :: suf).set (pre.length + 1) x).set pre.length tmp =
        pre ++ tmp :: (x :: suf) := by
      have := @set_length_append _ (pre ++ [x]) suf tmp x
      rw [List.length_append, List.length_singleton] at this
      rw [this, List.append_assoc]
      exact set_length_append
    rw [List.length_append, List.length_singleton, insert_swap]
    simp only [hread, hhere, hswap, Option.bind_eq_bind, Option.bind_some]
    by_cases hx : tmp < x
    · rw [if_pos hx]
      obtain ⟨l, r, he, hi⟩ := ih (List.pairwise_append.mp hs).1 (hg.init hx) (x :: suf)
      refine ⟨l, r ++ [x], ?_, hi.snoc hx⟩
      rw [he, List.append_assoc]
      rfl
    · rw [if_neg hx]
      exact ⟨pre ++ [x], [], rfl, .stop hs hx⟩

/-! ### All elements of a range -/

theorem inserts_move (guarded : Bool) : Inserts guarded (insert_move (α := α) guarded) :=
  fun _ _ suf hs hne hg => insert_move_spec hs hne hg suf

theorem inserts_swap (guarded : Bool) : Inserts guarded (insert_swap (α := α) guarded) :=
  fun _ _ suf hs _ hg => insert_swap_spec hs hg suf

omit [Preorder α] [@Std.Total α (· ≤ ·)] [DecidableLT α] in
/-- `for (; it != end; ++it)` with the given number of elements. -/
def insert_all (insert : List α → Nat → Option (List α)) (a : List α) (it n : Nat) :
    Option (List α) :=
  (List.range' it n).foldlM insert a

omit [Preorder α] [@Std.Total α (· ≤ ·)] [DecidableLT α] in
/-- `for (; it != end; ++it)` with an end that need not be in the range. -/
def insert_until (insert : List α → Nat → Option (List α)) :
    Nat → List α → Nat → Int → Option (List α)
  | 0, _, _, _ => none
  | turns + 1, a, it, end' => do
    if it = end' then some a else insert_until insert turns (← insert a it) (it + 1) end'

omit [Preorder α] [@Std.Total α (· ≤ ·)] [DecidableLT α] in
theorem insert_until_eq (insert : List α → Nat → Option (List α)) {n turns : Nat}
    (hn : n < turns) (a : List α) (it : Nat) :
    insert_until insert turns a it ((it + n : Nat) : Int) = insert_all insert a it n := by
  induction n generalizing turns a it with
  | zero =>
    obtain ⟨turns, rfl⟩ := Nat.exists_eq_succ_of_ne_zero (Nat.ne_of_gt hn)
    rw [insert_until, Nat.add_zero, if_pos rfl]
    rfl
  | succ n ih =>
    obtain ⟨turns, rfl⟩ := Nat.exists_eq_succ_of_ne_zero (Nat.ne_zero_of_lt hn)
    have hne : (it : Int) ≠ ((it + (n + 1) : Nat) : Int) := by omega
    rw [insert_until, if_neg hne, insert_all, List.range'_succ, List.foldlM_cons]
    refine congrArg _ (funext fun a' => ?_)
    have := ih (Nat.lt_of_succ_lt_succ hn) a' (it + 1)
    rwa [Nat.add_assoc, Nat.add_comm 1 n] at this

omit [Preorder α] [@Std.Total α (· ≤ ·)] [DecidableLT α] in
/-- The loop passes an end in front of it. -/
theorem insert_until_passed (insert : List α → Nat → Option (List α)) {it : Nat}
    {end' : Int} (h : end' < it) (turns : Nat) (a : List α) :
    insert_until insert turns a it end' = none := by
  induction turns generalizing a it with
  | zero => rfl
  | succ turns ih =>
    rw [insert_until, if_neg (Int.ne_of_gt h)]
    cases insert a it with
    | none => rfl
    | some a => exact ih (by omega) a

omit [@Std.Total α (· ≤ ·)] [DecidableLT α] in
theorem insert_all_spec {guarded : Bool} {insert : List α → Nat → Option (List α)}
    (h : Inserts guarded insert) {pre suf : List α} (hs : pre.Pairwise (· ≤ ·)) (hne : pre ≠ [])
    (hg : ∀ y ∈ suf, Guarded guarded pre y) (rest : List α) :
    ∃ out, insert_all insert (pre ++ (suf ++ rest)) pre.length suf.length = some (out ++ rest) ∧
      out.Pairwise (· ≤ ·) ∧ out.Perm (pre ++ suf) := by
  induction suf generalizing pre with
  | nil => exact ⟨pre, rfl, hs, by rw [List.append_nil]⟩
  | cons y suf ih =>
    obtain ⟨l, r, he, hi⟩ := h pre y (suf ++ rest) hs hne (hg y List.mem_cons_self)
    have hlen : (l ++ y :: r).length = pre.length + 1 := by
      rw [hi.split, List.length_append, List.length_append, List.length_cons, Nat.add_assoc]
    have hmem : ∀ x ∈ pre, x ∈ l ++ y :: r := by
      intro x hx
      rw [hi.split, List.mem_append] at hx
      rw [List.mem_append, List.mem_cons]
      exact hx.imp_right .inr
    obtain ⟨out, hout, hsorted, hperm⟩ := ih (hi.sorted hs) (by simp) fun z hz =>
      (hg z (List.mem_cons_of_mem _ hz)).mono hmem
    refine ⟨out, ?_, hsorted, hperm.trans ?_⟩
    · unfold insert_all at hout ⊢
      rw [List.length_cons, List.range'_succ, List.foldlM_cons, List.cons_append, he]
      rw [hlen, List.append_assoc] at hout
      exact hout
    · rw [List.append_assoc]
      exact hi.perm suf

omit [@Std.Total α (· ≤ ·)] [DecidableLT α] in
/-- The whole range is sorted from its second element on. -/
theorem insert_all_sorted {insert : List α → Nat → Option (List α)} (h : Inserts true insert)
    (x : α) (a : List α) :
    ∃ out, insert_all insert (x :: a) 1 a.length = some out ∧ out.Perm (x :: a) ∧
      out.Pairwise (· ≤ ·) := by
  obtain ⟨out, hout, hs, hp⟩ := @insert_all_spec _ _ _ _ h [x] a (List.pairwise_singleton _ x)
    (List.cons_ne_nil x []) (fun _ _ => .inl rfl) []
  rw [List.append_nil, List.append_nil] at hout
  exact ⟨out, hout, hp, hs⟩

/-! ### A minimum in front -/

omit [@Std.Total α (· ≤ ·)] [DecidableLT α] in
/-- A minimum is among the first elements. -/
def Early (n : Nat) (a : List α) : Prop :=
  a = [] ∨ ∃ x ∈ a.take n, ∀ y ∈ a, x ≤ y

omit [@Std.Total α (· ≤ ·)] [DecidableLT α] in
theorem Early.of_sorted {n : Nat} (hn : 0 < n) {a : List α} (h : a.Pairwise (· ≤ ·)) :
    Early n a := by
  cases a with
  | nil => exact .inl rfl
  | cons x a =>
    obtain ⟨n, rfl⟩ := Nat.exists_eq_succ_of_ne_zero (Nat.ne_of_gt hn)
    refine .inr ⟨x, ?_, fun y hy => ?_⟩
    · rw [List.take_succ_cons]
      exact List.mem_cons_self
    · rcases List.mem_cons.mp hy with rfl | hy
      · exact le_refl _
      · exact (List.pairwise_cons.mp h).1 y hy

omit [DecidableLT α] in
theorem exists_minimum {a : List α} (h : a ≠ []) : ∃ x ∈ a, ∀ y ∈ a, x ≤ y := by
  induction a with
  | nil => exact absurd rfl h
  | cons z a ih =>
    by_cases ha : a = []
    · subst ha
      exact ⟨z, List.mem_cons_self, fun y hy => (List.mem_singleton.mp hy).symm ▸ le_refl z⟩
    · obtain ⟨x, hx, hmin⟩ := ih ha
      rcases Std.Total.total (r := (· ≤ ·)) z x with hzx | hxz
      · refine ⟨z, List.mem_cons_self, fun y hy => ?_⟩
        rcases List.mem_cons.mp hy with rfl | hy
        · exact le_refl _
        · exact hzx.trans (hmin y hy)
      · refine ⟨x, List.mem_cons_of_mem z hx, fun y hy => ?_⟩
        rcases List.mem_cons.mp hy with rfl | hy
        · exact hxz
        · exact hmin y hy

omit [DecidableLT α] in
theorem Early.of_length_le {n : Nat} {a : List α} (h : a.length ≤ n) : Early n a := by
  by_cases ha : a = []
  · exact .inl ha
  · refine .inr ?_
    rw [List.take_of_length_le h]
    exact exists_minimum ha

omit [@Std.Total α (· ≤ ·)] [DecidableLT α] in
/-- The minimum of the front, or the pivot when the front is empty. -/
theorem Early.around {n : Nat} (hn : 0 < n) {l r : List α} {p : α} (hl : Early n l)
    (hlp : ∀ x ∈ l, x ≤ p) (hpr : ∀ x ∈ r, p ≤ x) : Early n (l ++ p :: r) := by
  obtain ⟨n, rfl⟩ := Nat.exists_eq_succ_of_ne_zero (Nat.ne_of_gt hn)
  rcases hl with rfl | ⟨m, hm, hmin⟩
  · refine .inr ⟨p, List.mem_cons_self, fun y hy => ?_⟩
    rcases List.mem_cons.mp hy with rfl | hy
    · exact le_refl _
    · exact hpr y hy
  · have hmp := hlp m (List.mem_of_mem_take hm)
    refine .inr ⟨m, ?_, fun y hy => ?_⟩
    · rw [List.take_append]
      exact List.mem_append_left _ hm
    · rcases List.mem_append.mp hy with hy | hy
      · exact hmin y hy
      · rcases List.mem_cons.mp hy with rfl | hy
        · exact hmp
        · exact hmp.trans (hpr y hy)

omit [@Std.Total α (· ≤ ·)] [DecidableLT α] in
/-- The first elements are inserted with a test for the beginning. A minimum is among them,
and stops the search for the other ones. -/
theorem insert_first_spec {insert insert' : List α → Nat → Option (List α)}
    (h : Inserts true insert) (h' : Inserts false insert') (x : α) (a : List α) {k : Nat}
    (hk : k ≤ a.length) (ha : Early (k + 1) (x :: a)) :
    ∃ first out, insert_all insert (x :: a) 1 k = some first ∧ first.length = a.length + 1 ∧
      insert_all insert' first (k + 1) (a.length - k) = some out ∧ out.Perm (x :: a) ∧
      out.Pairwise (· ≤ ·) := by
  obtain ⟨m, hm, hmin⟩ := ha.resolve_left (List.cons_ne_nil x a)
  have hsplit : a.take k ++ a.drop k = a := List.take_append_drop k a
  have hlen : (a.take k).length = k := by rw [List.length_take, Nat.min_eq_left hk]
  obtain ⟨first, hfirst, hs, hp⟩ := @insert_all_spec _ _ _ _ h [x] (a.take k)
    (List.pairwise_singleton _ x) (List.cons_ne_nil x []) (fun _ _ => .inl rfl) (a.drop k)
  have hlen' : first.length = k + 1 := by
    rw [hp.length_eq, List.length_append, hlen, Nat.add_comm]
    rfl
  obtain ⟨out, hout, hs', hp'⟩ := @insert_all_spec _ _ _ _ h' first (a.drop k) hs
    (List.ne_nil_of_length_pos (by omega))
    (fun y hy => .inr ⟨m, hp.mem_iff.mpr hm,
      hmin y (List.mem_cons_of_mem x (List.mem_of_mem_drop hy))⟩) []
  rw [hlen, hsplit] at hfirst
  rw [List.append_nil, List.append_nil, hlen', List.length_drop] at hout
  refine ⟨first ++ a.drop k, out, hfirst, ?_, hout, hp'.trans ((hp.append_right _).trans ?_), hs'⟩
  · rw [List.length_append, hlen', List.length_drop]
    omega
  · change (x :: (a.take k ++ a.drop k)).Perm (x :: a)
    rw [hsplit]

end

end RangeSort
