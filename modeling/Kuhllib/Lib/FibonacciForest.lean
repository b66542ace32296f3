import Kuhllib.Lib.RankForest
import Mathlib.Analysis.SpecialFunctions.Log.Base
import Mathlib.Data.Nat.Fib.Basic
import Mathlib.Data.Set.Card
import Mathlib.NumberTheory.Real.GoldenRatio

/-!
# Forests of Fibonacci trees

A tree becomes the child of another one that has as many children. While it is a child it
may lose one of its own. A node with `k` children then has a tree of at least `fib (k + 2)`
nodes.

* `Spread`: sorted, the number at place `i` is at least `i`.
* `Aged`: the numbers of children that the children of a node have had are spread.
* What joins and cuts do.
* `Aged.fib_le`, `Aged.rank_le`, `Aged.table_le`: the sizes of the trees.
-/

namespace FibonacciForest

open HeapForest RankForest

/-! ## Numbers -/

/-- There are at most `j` numbers below `j`. -/
def Spread (l : List Nat) : Prop := ∀ j, l.countP (· < j) ≤ j

section

variable {l l' : List Nat} {a : Nat}

theorem Spread.nil : Spread [] := fun j => Nat.zero_le j

theorem Spread.perm (h : Spread l) (hperm : l'.Perm l) : Spread l' := fun j =>
  hperm.countP_eq _ ▸ h j

theorem Spread.tail (h : Spread (a :: l)) : Spread l := fun j =>
  Nat.le_trans (List.sublist_cons_self a l).countP_le (h j)

theorem Spread.snoc (h : Spread l) (ha : l.length ≤ a) : Spread (l ++ [a]) := by
  intro j
  rw [List.countP_append, List.countP_singleton]
  split
  · next hlt =>
    have haj : a < j := by simpa using hlt
    exact Nat.lt_of_le_of_lt (Nat.le_trans List.countP_le_length ha) haj
  · exact h j

/-- Not all numbers are below the last place. -/
theorem Spread.exists_ge (h : Spread l) (hne : l ≠ []) : ∃ a ∈ l, l.length - 1 ≤ a := by
  by_contra hno
  have hall : l.countP (· < l.length - 1) = l.length := by
    refine List.countP_eq_length.mpr fun a ha => decide_eq_true ?_
    exact Nat.not_le.mp fun hle => hno ⟨a, ha, hle⟩
  have hle := hall ▸ h (l.length - 1)
  have hpos := List.length_pos_iff.mpr hne
  omega

theorem Spread.sum_le {g : Nat → Nat} (hg : Monotone g) (h : Spread l) :
    ∑ i ∈ Finset.range l.length, g i ≤ (l.map g).sum := by
  induction hn : l.length generalizing l with
  | zero => exact Nat.zero_le _
  | succ n ih =>
    obtain ⟨a, ha, hle⟩ := h.exists_ge (List.ne_nil_of_length_eq_add_one hn)
    have hperm := List.perm_cons_erase ha
    have hlength : (l.erase a).length = n := by
      rw [List.length_erase_of_mem ha, hn]
      rfl
    have hrest := ih (h.perm hperm.symm).tail hlength
    have hlast : g n ≤ g a := hg (by omega)
    rw [(hperm.map g).sum_eq, List.map_cons, List.sum_cons, Finset.sum_range_succ]
    omega

end

/-! ## Forests -/

/-- `lost c` is what a child has lost of its own children. A child for which `exempt` holds may
have lost more than one. -/
structure Aged {α : Type*} (exempt : α → Prop) (lost : α → Nat) (children : α → List α)
    (nodes : List α) : Prop where
  lost_le : ∀ p ∈ nodes, ∀ c ∈ children p, exempt c ∨ lost c ≤ 1
  spread : ∀ p ∈ nodes, Spread ((children p).map fun c => (children c).length + lost c)

section

variable {α : Type*} {exempt exempt' : α → Prop} {lost lost' : α → Nat}
  {children children' : α → List α} {nodes nodes' : List α} {p c n : α}

theorem Aged.subset (h : Aged exempt lost children nodes) (hsub : nodes' ⊆ nodes) :
    Aged exempt lost children nodes' :=
  ⟨fun p hp => h.lost_le p (hsub hp), fun p hp => h.spread p (hsub hp)⟩

/-- Only what children have lost matters. -/
theorem Aged.mono (h : Aged exempt lost children nodes)
    (hmono : ∀ p ∈ nodes, ∀ c ∈ children p, exempt c → exempt' c ∨ lost c ≤ 1) :
    Aged exempt' lost children nodes :=
  ⟨fun p hp c hc => (h.lost_le p hp c hc).elim (hmono p hp c hc) .inr, h.spread⟩

/-- The children of a node have lost as much as before, and have as many children. -/
theorem spread_congr {cs : List α} (hspread : Spread (cs.map fun c => (children c).length + lost c))
    (heq : ∀ z ∈ cs, (children' z).length + lost' z = (children z).length + lost z) :
    Spread (cs.map fun c => (children' c).length + lost' c) := by
  rwa [List.map_congr_left heq]

variable [DecidableEq α] {v v' : Vectors α}

/-- What a node that is nobody's child has lost does not matter. -/
theorem Aged.clear (h : Aged exempt lost children nodes) (hn : ∀ p ∈ nodes, n ∉ children p)
    (k : Nat) : Aged exempt (Function.update lost n k) children nodes := by
  have hkeep : ∀ p ∈ nodes, ∀ c ∈ children p, Function.update lost n k c = lost c := by
    intro p hp c hc
    refine Function.update_of_ne ?_ ..
    rintro rfl
    exact hn p hp hc
  refine ⟨fun p hp c hc => ?_, fun p hp => spread_congr (h.spread p hp) fun c hc => ?_⟩
  · rw [hkeep p hp c hc]
    exact h.lost_le p hp c hc
  · rw [hkeep p hp c hc]

/-- A tree becomes a child of one that has as many children. -/
theorem Aged.join (h : Aged exempt lost v.children nodes) (hp : ∀ q ∈ nodes, p ∉ v.children q)
    (hcp : c ≠ p) (hrank : (v.children c).length = (v.children p).length) (hlost : lost c = 0) :
    Aged exempt lost (v.join p c).children nodes := by
  have hself : (v.join p c).children p = v.children p ++ [c] := Function.update_self ..
  have hother : ∀ q, q ≠ p → (v.join p c).children q = v.children q := fun q hq =>
    Function.update_of_ne hq ..
  have hkeep : ∀ q ∈ nodes, Spread ((v.children q).map fun z =>
      ((v.join p c).children z).length + lost z) := by
    refine fun q hq => spread_congr (h.spread q hq) fun z hz => ?_
    rw [hother z fun he => hp q hq (he ▸ hz)]
  refine ⟨fun q hq z hz => ?_, fun q hq => ?_⟩
  · rcases mem_join hz with hz | ⟨rfl, rfl⟩
    · exact h.lost_le q hq z hz
    · exact .inr (hlost ▸ Nat.zero_le 1)
  · rcases eq_or_ne q p with rfl | hqp
    · rw [hself, List.map_append]
      refine (hkeep q hq).snoc ?_
      dsimp only
      rw [List.length_map, hother c hcp, hrank]
      exact Nat.le_add_right _ _
    · rw [hother q hqp]
      exact hkeep q hq

/-- A child is cut, whatever it has lost, and its parent has lost one more. -/
theorem Aged.cut (h : Aged (· = c) lost v.children nodes) (hcut : Cut v v' p c)
    (hc : ∀ q ∈ nodes, c ∉ v'.children q) :
    Aged (· = p) (Function.update lost p (lost p + 1)) v'.children nodes := by
  have hsame : ∀ z, (v'.children z).length + Function.update lost p (lost p + 1) z =
      (v.children z).length + lost z := by
    intro z
    rcases eq_or_ne z p with rfl | hzp
    · have hlength := hcut.perm.length_eq
      rw [List.length_cons] at hlength
      rw [Function.update_self]
      omega
    · rw [Function.update_of_ne hzp, hcut.other z hzp]
  refine ⟨fun q hq z hz => ?_, fun q hq => ?_⟩
  · rcases eq_or_ne z p with rfl | hzp
    · exact .inl rfl
    · rw [Function.update_of_ne hzp]
      refine .inr ((h.lost_le q hq z (hcut.subset q hz)).resolve_left ?_)
      rintro rfl
      exact hc q hq hz
  · simp only [hsame]
    rcases eq_or_ne q p with rfl | hqp
    · exact ((h.spread q hq).perm (hcut.perm.map _)).tail
    · rw [hcut.other q hqp]
      exact h.spread q hq

/-- A node without children comes, whatever it has lost. -/
theorem Aged.push (h : Aged exempt lost children nodes)
    (hmem : ∀ p ∈ nodes, ∀ c ∈ children p, c ∈ nodes) (hn : n ∉ nodes) (k : Nat) :
    Aged exempt (Function.update lost n k) (Function.update children n []) (nodes ++ [n]) := by
  have hself : Function.update children n [] n = [] := Function.update_self ..
  have hother : ∀ q ∈ nodes, Function.update children n [] q = children q ∧
      Function.update lost n k q = lost q := by
    intro q hq
    have hqn : q ≠ n := fun he => hn (he ▸ hq)
    exact ⟨Function.update_of_ne hqn .., Function.update_of_ne hqn ..⟩
  refine ⟨fun p hp c hc => ?_, fun p hp => ?_⟩
  all_goals rcases List.mem_append.mp hp with hp | hp
  · rw [(hother p hp).1] at hc
    rw [(hother c (hmem p hp c hc)).2]
    exact h.lost_le p hp c hc
  · rw [List.mem_singleton.mp hp, hself] at hc
    cases hc
  · rw [(hother p hp).1]
    refine spread_congr (h.spread p hp) fun c hc => ?_
    obtain ⟨hchildren, hlost⟩ := hother c (hmem p hp c hc)
    rw [hchildren, hlost]
  · rw [List.mem_singleton.mp hp, hself]
    exact Spread.nil

end

/-! ## Sizes -/

section

variable {α : Type*} [DecidableEq α] {lost : α → Nat} {children : α → List α}
  {tops nodes l : List α} {n : α}

omit [DecidableEq α] in
/-- The trees of the children are not too small. -/
theorem Aged.sum (h : Aged (fun _ => False) lost children nodes) (hn : n ∈ nodes) :
    Nat.fib ((children n).length + 2) ≤
      ((children n).map fun c => Nat.fib ((children c).length + 2)).sum + 1 := by
  have hmono : Monotone fun i => Nat.fib (i + 1) := fun i j hij =>
    Nat.fib_mono (Nat.succ_le_succ hij)
  have hsum := (h.spread n hn).sum_le hmono
  rw [List.length_map, List.map_map] at hsum
  have hlost : ((children n).map ((fun i => Nat.fib (i + 1)) ∘
      fun c => (children c).length + lost c)).sum ≤
      ((children n).map fun c => Nat.fib ((children c).length + 2)).sum := by
    refine List.sum_le_sum fun c hc => Nat.fib_mono ?_
    have hle := (h.lost_le n hn c hc).resolve_left id
    dsimp only
    omega
  calc Nat.fib ((children n).length + 2)
      = ∑ i ∈ Finset.range (children n).length, Nat.fib (i + 1) + 1 := by
        rw [Nat.fib_succ_eq_succ_sum, Finset.sum_range_succ', Nat.fib_zero, Nat.add_zero]
    _ ≤ _ := Nat.succ_le_succ (Nat.le_trans hsum hlost)

omit [DecidableEq α] in
theorem Aged.post_le (h : Aged (fun _ => False) lost children nodes) (hl : Post children tops l)
    (hsub : l ⊆ nodes) : (tops.map fun t => Nat.fib ((children t).length + 2)).sum ≤ l.length := by
  induction hl with
  | nil => exact Nat.zero_le _
  | @cons p tops l₁ l₂ _ _ ihp ihtops =>
    have hp := ihp fun x hx => hsub (List.mem_append_left _ hx)
    have htops := ihtops fun x hx =>
      hsub (List.mem_append_right _ (List.mem_cons_of_mem p hx))
    have hsum := h.sum (hsub (List.mem_append_right l₁ List.mem_cons_self))
    rw [List.map_cons, List.sum_cons, List.length_append, List.length_cons]
    omega

/-- The tree of a node with `k` children has at least `fib (k + 2)` nodes. -/
theorem Aged.fib_le (h : Aged (fun _ => False) lost children nodes)
    (hforest : Forest tops nodes children) (hn : n ∈ nodes) :
    Nat.fib ((children n).length + 2) ≤ (subtree children n).ncard ∧
      (subtree children n).ncard ≤ nodes.length := by
  obtain ⟨l, hl, hperm⟩ := hforest.exists_post
  obtain ⟨l', hl', hsub⟩ := hl.tree (hperm.mem_iff.mpr hn)
  have hnodup : l'.Nodup := hsub.nodup (hperm.nodup_iff.mpr hforest.nodup)
  have hset : subtree children n = (l'.toFinset : Set α) := by
    ext x
    rw [Finset.mem_coe, List.mem_toFinset, hl'.mem_iff]
    simp
  have hcard : (subtree children n).ncard = l'.length := by
    rw [hset, Set.ncard_coe_finset, List.toFinset_card_of_nodup hnodup]
  rw [hcard]
  refine ⟨?_, hperm.length_eq ▸ hsub.length_le⟩
  have hle := h.post_le hl' fun x hx => hperm.mem_iff.mp (hsub.subset hx)
  simpa using hle

theorem pow_le_fib (k : Nat) : Real.goldenRatio ^ k ≤ Nat.fib (k + 2) := by
  have hconj : -Real.goldenConj * Nat.fib k ≤ 1 * Nat.fib k := by
    refine mul_le_mul_of_nonneg_right ?_ (Nat.cast_nonneg _)
    linarith [Real.neg_one_lt_goldenConj]
  rw [← Real.fib_succ_sub_goldenConj_mul_fib, Nat.fib_add_two]
  push_cast
  linarith

theorem le_log_of_fib_le {k n : Nat} (h : Nat.fib (k + 2) ≤ n) :
    (k : ℝ) ≤ Real.logb Real.goldenRatio n := by
  have hle : Real.goldenRatio ^ k ≤ n := (pow_le_fib k).trans (Nat.cast_le.mpr h)
  have hpos : 0 < Real.goldenRatio ^ k := pow_pos Real.goldenRatio_pos k
  rw [Real.le_logb_iff_rpow_le Real.one_lt_goldenRatio (hpos.trans_le hle), Real.rpow_natCast]
  exact hle

theorem Aged.rank_le (h : Aged (fun _ => False) lost children nodes)
    (hforest : Forest tops nodes children) (hn : n ∈ nodes) :
    ((children n).length : ℝ) ≤ Real.logb Real.goldenRatio nodes.length := by
  obtain ⟨hfib, hcard⟩ := h.fib_le hforest hn
  exact le_log_of_fib_le (Nat.le_trans hfib hcard)

omit [DecidableEq α] in
theorem length_table_le {roots : List (Option α)} {k : Nat}
    (h : ∀ (i : Nat) r, roots[i]? = some (some r) → i < k) : roots.reduceOption.length ≤ k := by
  have hrest : (roots.drop k).reduceOption = [] := by
    refine List.eq_nil_iff_forall_not_mem.mpr fun r hr => ?_
    obtain ⟨i, hi⟩ := mem_table.mp hr
    rw [List.getElem?_drop] at hi
    exact absurd (h _ r hi) (Nat.not_lt.mpr (Nat.le_add_right k i))
  calc roots.reduceOption.length
      = ((roots.take k).reduceOption ++ (roots.drop k).reduceOption).length := by
        rw [← List.reduceOption_append, List.take_append_drop]
    _ = (roots.take k).reduceOption.length := by rw [hrest, List.append_nil]
    _ ≤ (roots.take k).length := List.reduceOption_length_le _
    _ ≤ k := List.length_take_le k roots

/-- The entries of the table, which are at their ranks. -/
theorem Aged.table_le {above : α → α → Prop} {v : Vectors α} {roots : List (Option α)}
    {loose : List α} (h : Aged (fun _ => False) lost v.children nodes)
    (hranked : Ranked above v roots loose nodes) :
    (roots.reduceOption.length : ℝ) ≤ Real.logb Real.goldenRatio nodes.length + 1 := by
  have hnonneg : 0 ≤ Real.logb Real.goldenRatio nodes.length := by
    rcases Nat.eq_zero_or_pos nodes.length with hzero | hpos
    · rw [hzero, Nat.cast_zero, Real.logb_zero]
    · exact Real.logb_nonneg Real.one_lt_goldenRatio (Nat.one_le_cast.mpr hpos)
  have htable : roots.reduceOption.length ≤
      ⌊Real.logb Real.goldenRatio nodes.length⌋₊ + 1 := by
    refine length_table_le fun i r hi => Nat.lt_succ_of_le (Nat.le_floor ?_)
    rw [← hranked.rank i r hi]
    exact h.rank_le hranked.wired.forest (hranked.mem_of_entry hi)
  calc (roots.reduceOption.length : ℝ)
      ≤ (⌊Real.logb Real.goldenRatio nodes.length⌋₊ + 1 : Nat) := Nat.cast_le.mpr htable
    _ ≤ _ := by
        push_cast
        linarith [Nat.floor_le hnonneg]

end

end FibonacciForest
