import Kuhllib.Heap.FibonacciRemoval
import Kuhllib.Lib.FibonacciForest

/-!
# `boost::fibonacci_heap`: ranks

`m_lost_child` counts what a node has lost since it is a child. The second loss cuts the node
from its parent, which is what keeps the ranks small. The comparison does not matter.

Results:
1. `add_root_aged`, `cut_aged`: a child has lost at most one child, and its rank and what it has
   lost are at least its age.
2. `fibonacci_ranks`: after all runs a node of rank `k` has at least `fib (k + 2)` nodes, and the
   ranks and the entries of the table are bounded by the logarithm of the number of nodes.
-/

namespace Kuhllib.FibonacciHeap

open FibonacciForest HandleQueue HeapForest RankForest Transition

variable {α T : Type} [DecidableEq α] {m_compare : T → T → Bool} {s s' : Heap α T}
  {exempt : α → Prop} {loose nodes : List α} {p n : α} {d : T}

/-! ## 1. The trees -/

/-- What is put into the table is no longer loose. -/
theorem add_root_shape (h : Ranked (fun _ _ => True) s.toVectors s.m_roots (n :: loose) nodes)
    (hs : s.add_root m_compare n = some s') :
    Ranked (fun _ _ => True) s'.toVectors s'.m_roots loose nodes ∧
      Links s s' fun q => q ∉ nodes ∨ q ∈ loose := by
  obtain ⟨s'', hs'', h', hl⟩ := add_root_spec (fun p c (_ : Decided m_compare s p c) => trivial) h
  obtain rfl := Option.some.inj (hs.symm.trans hs'')
  exact ⟨h', hl⟩

theorem add_root_rec_aged {fuel : Nat}
    (h : Ranked (fun _ _ => True) s.toVectors s.m_roots (n :: loose) nodes)
    (ha : Aged exempt s.m_lost_child s.children nodes)
    (hs : s.add_root_rec m_compare fuel n = some s') :
    Aged exempt s'.m_lost_child s'.children nodes := by
  induction fuel generalizing s n with
  | zero => cases hs
  | succ fuel ih =>
    have hplace : Aged exempt (Function.update s.m_lost_child n 0) s.children nodes :=
      ha.clear (fun _ hp => h.not_child List.mem_cons_self hp) 0
    unfold Heap.add_root_rec at hs
    dsimp only at hs
    split at hs
    case h_1 =>
      obtain rfl := Option.some.inj hs
      exact hplace
    case h_2 =>
      obtain rfl := Option.some.inj hs
      exact hplace
    case h_3 r hrank =>
      obtain ⟨htake, -⟩ := h.take (i := s.rank n) hrank
      have hsame : s.rank r = s.rank n := h.rank _ r hrank
      -- both have as many children when one becomes a child of the other
      have hlink : ∀ winner loser, (loser :: winner :: loose).Perm (r :: n :: loose) →
          s.rank loser = s.rank winner →
          ((Heap.clear { s with m_roots := s.m_roots.set (s.rank n) none } loser).join
            winner loser).add_root_rec m_compare fuel winner = some s' →
          Aged exempt s'.m_lost_child s'.children nodes := by
        intro winner loser hperm hranks hs
        have hloose := htake.perm hperm
        have hne : loser ≠ winner := fun he =>
          (List.nodup_cons.mp hloose.loose_nodup).1 (he ▸ List.mem_cons_self)
        have hjoin := (hloose.clear.perm (List.Perm.swap ..)).join
          (show (fun _ _ => True) winner loser from trivial)
        have hcleared := ha.clear (fun _ hp => hloose.not_child List.mem_cons_self hp) 0
        have hjoined := hcleared.join (v := s.toVectors.clear loser) (p := winner)
          (fun _ hp => hloose.not_child (List.mem_cons_of_mem loser List.mem_cons_self) hp)
          hne hranks (Function.update_self ..)
        exact ih hjoin (hjoined.clear (fun _ hp => hjoin.not_child List.mem_cons_self hp) 0) hs
      split at hs
      case isTrue => exact hlink r n (List.Perm.swap ..) hsame.symm hs
      case isFalse => exact hlink n r (.refl _) hsame hs

theorem add_root_aged (h : Ranked (fun _ _ => True) s.toVectors s.m_roots (n :: loose) nodes)
    (ha : Aged exempt s.m_lost_child s.children nodes) (hs : s.add_root m_compare n = some s') :
    Aged exempt s'.m_lost_child s'.children nodes :=
  add_root_rec_aged h ha hs

theorem add_roots_aged (l₁ : List α) {l₂ : List α} (hn : n ∉ nodes)
    (hchildren : s.children n = l₁ ++ l₂)
    (h : Ranked (fun _ _ => True) s.toVectors s.m_roots (l₂ ++ loose) nodes)
    (ha : Aged exempt s.m_lost_child s.children nodes)
    (hs : s.add_roots m_compare l₂.length n l₁.length = some s') :
    Aged exempt s'.m_lost_child s'.children nodes := by
  induction l₂ generalizing s l₁ with
  | nil =>
    obtain rfl := Option.some.inj hs
    exact ha
  | cons c l₂ ih =>
    have hc : (s.children n)[l₁.length]? = some c := by
      rw [hchildren, List.getElem?_append_right (Nat.le_refl _), Nat.sub_self]
      rfl
    rw [List.length_cons, Heap.add_roots, hc, Option.bind_eq_bind, Option.bind_some] at hs
    obtain ⟨s₁, hs₁, hs⟩ := Option.bind_eq_some_iff.mp hs
    obtain ⟨h₁, hl₁⟩ := add_root_shape h hs₁
    have hchildren₁ : s₁.children n = (l₁ ++ [c]) ++ l₂ := by
      rw [hl₁.children n (.inl hn), hchildren, List.append_assoc]
      rfl
    refine ih (l₁ ++ [c]) hchildren₁ h₁ (add_root_aged h ha hs₁) ?_
    rw [List.length_append, List.length_singleton]
    exact hs

theorem scatter_shape (h : Ranked (fun _ _ => True) s.toVectors s.m_roots [n] nodes)
    (hs : s.add_roots m_compare (s.rank n) n 0 = some s') :
    Ranked (fun _ _ => True) s'.toVectors s'.m_roots [] (nodes.erase n) ∧
      Links s s' fun q => q ∉ nodes.erase n := by
  obtain ⟨s'', hs'', h', hl⟩ := scatter_spec (fun p c (_ : Decided m_compare s p c) => trivial)
    (fun _ _ _ => id) h rfl
  obtain rfl := Option.some.inj (hs.symm.trans hs'')
  exact ⟨h', hl⟩

/-- The children of a loose tree are put into the table. -/
theorem scatter_aged (h : Ranked (fun _ _ => True) s.toVectors s.m_roots [n] nodes)
    (ha : Aged exempt s.m_lost_child s.children nodes)
    (hs : s.add_roots m_compare (s.rank n) n 0 = some s') :
    Aged exempt s'.m_lost_child s'.children (nodes.erase n) :=
  add_roots_aged (s := s) [] h.wired.forest.nodup.not_mem_erase rfl (h.pop fun _ _ _ => id)
    (ha.subset List.erase_subset) hs

/-- The node that is cut may have lost two children. -/
theorem cut_rec_aged {fuel : Nat} {height : α → Nat}
    (h : Ranked (fun _ _ => True) s.toVectors s.m_roots loose s.nodes)
    (ha : Aged (· = n) s.m_lost_child s.children s.nodes)
    (hheight : ∀ q ∈ s.nodes, ∀ c ∈ s.children q, height c < height q)
    (hloose : ∀ x ∈ loose, height x ≤ height n)
    (hp : p ∈ s.nodes) (hn : n ∈ s.children p)
    (hfuel : s.nodes.countP (height n < height ·) ≤ fuel)
    (hs : s.cut_rec m_compare fuel n = some s') :
    Aged (fun _ => False) s'.m_lost_child s'.children s.nodes := by
  induction fuel generalizing s s' loose n p with
  | zero => cases hs
  | succ fuel ih =>
    have hlt := hheight p hp n hn
    have hnot : p ∉ loose := fun hmem =>
      Nat.lt_irrefl _ (Nat.lt_of_lt_of_le hlt (hloose p hmem))
    have hpn : p ≠ n := fun he => Nat.ne_of_lt hlt (he ▸ rfl)
    obtain ⟨s₁, hs₁, hcut, hlost, hl₁, ⟨hroot, roots, hentry, h₁⟩ | ⟨hroot, q, hq, hpq, h₁⟩⟩ :=
      node_cut_spec (fun _ _ _ => id) h hp hn hnot
    all_goals
      rw [Heap.cut_rec, h.wired.parent p hp n hn] at hs
      simp only [Option.bind_eq_bind, Option.bind_some, hs₁, hroot, if_true, Bool.false_eq_true,
        if_false] at hs
    · -- the parent is a root
      have hcutAged := ha.cut hcut fun _ hq =>
        h₁.not_child (List.mem_cons_of_mem p List.mem_cons_self) hq
      rw [← hlost] at hcutAged
      rw [hentry, Option.bind_some] at hs
      refine add_root_aged (s := { s₁ with m_roots := roots }) h₁ (hcutAged.mono ?_) hs
      rintro q hq _ hc rfl
      exact absurd hc (h₁.not_child List.mem_cons_self hq)
    · -- the parent is a child
      have hcutAged := ha.cut hcut fun _ hq => h₁.not_child List.mem_cons_self hq
      rw [← hlost] at hcutAged
      have hnodes : s₁.nodes = s.nodes := hl₁.nodes
      have hcount : s₁.m_lost_child p = s.m_lost_child p + 1 := by
        rw [hlost, Function.update_self]
      split at hs
      case isFalse htwo =>
        obtain rfl := Option.some.inj hs
        refine hcutAged.mono ?_
        rintro _ _ _ _ rfl
        have hone := (ha.lost_le q hq _ hpq).resolve_left hpn
        exact .inr (by omega)
      case isTrue =>
        have hqp : q ≠ p := by
          rintro rfl
          exact h.wired.forest.not_own_child hq hpq
        have hbelow : ∀ x ∈ n :: loose, height x ≤ height p := by
          intro x hx
          rcases List.mem_cons.mp hx with rfl | hx
          · exact Nat.le_of_lt hlt
          · exact Nat.le_trans (hloose x hx) (Nat.le_of_lt hlt)
        have hheight₁ : ∀ z ∈ s₁.nodes, ∀ c ∈ s₁.children z, height c < height z :=
          fun z hz c hc => hheight z (hnodes ▸ hz) c (hcut.subset z hc)
        have hpq₁ : p ∈ s₁.children q := hl₁.children q hqp ▸ hpq
        have hfuel₁ : s₁.nodes.countP (height p < height ·) ≤ fuel :=
          hnodes.symm ▸ Nat.le_of_lt_succ (Nat.lt_of_lt_of_le (higher_lt hp hlt) hfuel)
        rw [← hnodes] at h₁ hcutAged hq ⊢
        obtain ⟨s₂, hs₂, hs⟩ := Option.bind_eq_some_iff.mp hs
        obtain ⟨s₂', hs₂', h₂, hl₂⟩ := cut_rec_spec
          (fun p c (_ : Decided m_compare s₁ p c) => trivial) (fun _ _ _ => id) h₁ hheight₁ hbelow
          hq hpq₁ hfuel₁
        obtain rfl := Option.some.inj (hs₂.symm.trans hs₂')
        rw [hl₂.nodes] at h₂
        exact add_root_aged h₂ (ih h₁ hcutAged hheight₁ hbelow hq hpq₁ hfuel₁ hs₂) hs

theorem cut_shape (h : Ranked (fun _ _ => True) s.toVectors s.m_roots [] s.nodes)
    (hp : p ∈ s.nodes) (hn : n ∈ s.children p) (hs : s.cut m_compare n = some s') :
    Ranked (fun _ _ => True) s'.toVectors s'.m_roots [n] s.nodes ∧ Links s s' fun q => q = n := by
  obtain ⟨s'', hs'', h', hl⟩ := cut_spec (fun p c (_ : Decided m_compare s p c) => trivial)
    (fun _ _ _ => id) h hp hn
  obtain rfl := Option.some.inj (hs.symm.trans hs'')
  exact ⟨hl.nodes ▸ h', hl⟩

theorem cut_aged (h : Ranked (fun _ _ => True) s.toVectors s.m_roots [] s.nodes)
    (ha : Aged (fun _ => False) s.m_lost_child s.children s.nodes) (hp : p ∈ s.nodes)
    (hn : n ∈ s.children p) (hs : s.cut m_compare n = some s') :
    Aged (fun _ => False) s'.m_lost_child s'.children s.nodes := by
  obtain ⟨height, hheight⟩ := h.wired.forest.grounded
  exact cut_rec_aged h (ha.mono fun _ _ _ _ => False.elim) hheight (fun x hx => by cases hx) hp hn
    List.countP_le_length hs

theorem take_out_shape (h : Ranked (fun _ _ => True) s.toVectors s.m_roots [] s.nodes)
    (hn : n ∈ s.nodes) (hs : s.take_out m_compare n = some s') :
    Ranked (fun _ _ => True) s'.toVectors s'.m_roots [n] s.nodes ∧ Links s s' fun q => q = n := by
  obtain ⟨s'', hs'', h', hl⟩ :=
    take_out_spec (fun p c (_ : Decided m_compare s p c) => trivial) h hn
  obtain rfl := Option.some.inj (hs.symm.trans hs'')
  exact ⟨hl.nodes ▸ h', hl⟩

theorem take_out_aged (h : Ranked (fun _ _ => True) s.toVectors s.m_roots [] s.nodes)
    (ha : Aged (fun _ => False) s.m_lost_child s.children s.nodes) (hn : n ∈ s.nodes)
    (hs : s.take_out m_compare n = some s') :
    Aged (fun _ => False) s'.m_lost_child s'.children s.nodes := by
  unfold Heap.take_out Heap.is_root at hs
  rcases (h.cases hn).resolve_left List.not_mem_nil with ⟨i, hi⟩ | ⟨p, hp, hc⟩
  · rw [h.root i n hi] at hs
    obtain rfl := h.rank i n hi
    obtain rfl := Option.some.inj ((clear_entry_eq hi).symm.trans hs)
    exact ha
  · rw [h.wired.parent p hp n hc] at hs
    exact cut_aged h ha hp hc hs

/-! ## 2. The operations -/

theorem push_aged (h : Ranked (fun _ _ => True) s.toVectors s.m_roots [] s.nodes)
    (ha : Aged (fun _ => False) s.m_lost_child s.children s.nodes) (hn : n ∉ s.nodes)
    (hs : s.push m_compare n d = some s') :
    Aged (fun _ => False) s'.m_lost_child s'.children s'.nodes := by
  let s₁ : Heap α T := { s with
    nodes := s.nodes ++ [n]
    children := Function.update s.children n []
    parent := Function.update s.parent n none
    m_lost_child := Function.update s.m_lost_child n 0
    m_data := Function.update s.m_data n d
    m_size := s.m_size + 1 }
  have hold : ∀ q ∈ s.nodes, q ≠ n := fun q hq he => hn (he ▸ hq)
  have h₁ := h.push hn s₁.toVectors rfl
    (fun q hq => Function.update_of_ne (hold q hq) ..) fun _ _ => rfl
  have ha₁ := ha.push (fun _ hp _ hc => h.wired.forest.mem_of_child hp hc) hn 0
  obtain ⟨s₂, hs₂, hs⟩ := Option.bind_eq_some_iff.mp hs
  obtain rfl := Option.some.inj hs
  obtain ⟨-, hl₂⟩ := add_root_shape (s := s₁) h₁ hs₂
  show Aged (fun _ => False) s₂.m_lost_child s₂.children s₂.nodes
  rw [hl₂.nodes]
  exact add_root_aged (s := s₁) h₁ ha₁ hs₂

theorem increase_aged (h : Ranked (fun _ _ => True) s.toVectors s.m_roots [] s.nodes)
    (ha : Aged (fun _ => False) s.m_lost_child s.children s.nodes) (hn : n ∈ s.nodes)
    (hs : s.increase m_compare n d = some s') :
    Aged (fun _ => False) s'.m_lost_child s'.children s'.nodes := by
  have hnodes : s'.nodes = s.nodes := by
    obtain ⟨s'', hs'', -, hl⟩ := increase_ranked (d := d)
      (fun p c (_ : Decided m_compare (s.set_data n d) p c) => trivial)
      (h.mono fun _ _ _ _ _ => .inr trivial) hn
    obtain rfl := Option.some.inj (hs.symm.trans hs'')
    exact hl.nodes
  rw [hnodes]
  unfold Heap.increase at hs
  dsimp only at hs
  split at hs
  case h_1 =>
    obtain rfl := Option.some.inj hs
    exact ha
  case h_2 q hparent =>
    obtain ⟨p, hp, hc⟩ : ∃ p ∈ s.nodes, n ∈ s.children p := by
      rcases (h.cases hn).resolve_left List.not_mem_nil with ⟨i, hi⟩ | hchild
      · exact absurd ((h.root i n hi).symm.trans hparent) (Option.some_ne_none q).symm
      · exact hchild
    split at hs
    case isTrue =>
      obtain ⟨s₁, hs₁, hs⟩ := Option.bind_eq_some_iff.mp hs
      obtain ⟨s₂, hs₂, hs⟩ := Option.bind_eq_some_iff.mp hs
      obtain rfl := Option.some.inj hs
      obtain ⟨h₁, -⟩ := cut_shape (s := s.set_data n d) h hp hc hs₁
      have ha₁ := cut_aged (s := s.set_data n d) h ha hp hc hs₁
      have hplaced := add_root_aged h₁ ha₁ hs₂
      exact hplaced
    case isFalse =>
      obtain rfl := Option.some.inj hs
      exact ha

theorem decrease_aged (h : Ranked (fun _ _ => True) s.toVectors s.m_roots [] s.nodes)
    (ha : Aged (fun _ => False) s.m_lost_child s.children s.nodes) (hn : n ∈ s.nodes)
    (hs : s.decrease m_compare n d = some s') :
    Aged (fun _ => False) s'.m_lost_child s'.children s'.nodes := by
  have hnodes : s'.nodes = s.nodes := by
    obtain ⟨s'', hs'', -, hl⟩ := decrease_ranked (d := d)
      (fun p c (_ : Decided m_compare (s.set_data n d) p c) => trivial)
      (h.mono fun _ _ _ _ _ => .inr trivial) hn
    obtain rfl := Option.some.inj (hs.symm.trans hs'')
    exact hl.nodes
  rw [hnodes]
  unfold Heap.decrease at hs
  dsimp only at hs
  split at hs
  case isFalse =>
    obtain rfl := Option.some.inj hs
    exact ha
  case isTrue =>
    obtain ⟨s₁, hs₁, hs⟩ := Option.bind_eq_some_iff.mp hs
    obtain ⟨s₂, hs₂, hs⟩ := Option.bind_eq_some_iff.mp hs
    obtain ⟨s₃, hs₃, hs⟩ := Option.bind_eq_some_iff.mp hs
    obtain rfl := Option.some.inj hs
    obtain ⟨h₁, hl₁⟩ := take_out_shape (s := s.set_data n d) h hn hs₁
    have ha₁ := take_out_aged (s := s.set_data n d) h ha hn hs₁
    have hrank : (s.set_data n d).rank n = s₁.rank n :=
      (congrArg List.length (hl₁.children n rfl)).symm
    rw [hrank] at hs₂
    obtain ⟨h₂, -⟩ := scatter_shape h₁ hs₂
    -- the node comes back without its children
    have hgone := h.wired.forest.nodup.not_mem_erase (a := n)
    have hperm : s.nodes.Perm (s.nodes.erase n ++ [n]) :=
      (List.perm_cons_erase hn).trans (List.perm_append_singleton n _).symm
    have h₃ := (h₂.push hgone (s₂.remove_all n).toVectors rfl (fun _ _ => rfl)
      fun _ _ => rfl).perm_nodes hperm
    have ha₃ := ((scatter_aged h₁ ha₁ hs₂).push
      (fun _ hp _ hc => h₂.wired.forest.mem_of_child hp hc) hgone (s₂.m_lost_child n)).subset
        hperm.subset
    rw [Function.update_eq_self] at ha₃
    have hplaced := add_root_aged (s := s₂.remove_all n) h₃ ha₃ hs₃
    exact hplaced

theorem change_aged (h : Ranked (fun _ _ => True) s.toVectors s.m_roots [] s.nodes)
    (ha : Aged (fun _ => False) s.m_lost_child s.children s.nodes) (hn : n ∈ s.nodes)
    (hs : s.change m_compare n d = some s') :
    Aged (fun _ => False) s'.m_lost_child s'.children s'.nodes := by
  unfold Heap.change at hs
  split at hs
  · exact increase_aged h ha hn hs
  · exact decrease_aged h ha hn hs

/-- The node goes, and its children are put into the table. -/
theorem pop_aged (h : Shape s) (ha : Aged (fun _ => False) s.m_lost_child s.children s.nodes)
    (hne : s.nodes ≠ []) (hs : s.pop m_compare = some s') :
    Aged (fun _ => False) s'.m_lost_child s'.children s'.nodes := by
  obtain ⟨r, i, hr, hi, -⟩ := shape_ensure_min m_compare h hne
  obtain rfl := h.ranked.rank i r hi
  let s₁ : Heap α T := { s with m_min := some r, m_roots := s.m_roots.set (s.rank r) none }
  have hentry : Heap.clear_entry { s with m_min := some r } (Heap.rank { s with m_min := some r } r)
      = some s₁ := clear_entry_eq hi
  have h₁ := (h.ranked.take hi).1
  obtain ⟨s₂, hs₂, -, hl₂⟩ := scatter_spec (s := s₁)
    (fun p c (_ : Decided m_compare s₁ p c) => trivial) (fun _ _ _ => id) h₁ rfl
  have hdelete : Heap.delete { s₂ with m_size := s₂.m_size - 1 } r =
      some { s₂ with nodes := s₂.nodes.erase r, m_size := s₂.m_size - 1 } :=
    if_pos (hl₂.nodes.symm ▸ h.ranked.mem_of_entry hi)
  unfold Heap.pop at hs
  simp only [hr, Option.bind_eq_bind, Option.bind_some, hentry] at hs
  rw [show Heap.add_roots m_compare _ s₁ r 0 = some s₂ from hs₂] at hs
  simp only [Option.bind_some, hdelete] at hs
  obtain rfl := Option.some.inj hs
  show Aged (fun _ => False) s₂.m_lost_child s₂.children (s₂.nodes.erase r)
  rw [hl₂.nodes]
  exact scatter_aged (s := s₁) h₁ ha hs₂

theorem remove_aged (h : Ranked (fun _ _ => True) s.toVectors s.m_roots [] s.nodes)
    (ha : Aged (fun _ => False) s.m_lost_child s.children s.nodes) (hn : n ∈ s.nodes)
    (hs : s.remove m_compare n = some s') :
    Aged (fun _ => False) s'.m_lost_child s'.children s'.nodes := by
  obtain ⟨s₁, hs₁, hs⟩ := Option.bind_eq_some_iff.mp hs
  obtain ⟨s₂, hs₂, hs⟩ := Option.bind_eq_some_iff.mp hs
  obtain ⟨h₁, hl₁⟩ := take_out_shape h hn hs₁
  obtain ⟨-, hl₂⟩ := scatter_shape h₁ hs₂
  have hnodes : s₂.nodes = s.nodes := hl₂.nodes.trans hl₁.nodes
  have hdelete : Heap.delete { s₂ with m_min := none } n =
      some { s₂ with nodes := s₂.nodes.erase n, m_min := none } := if_pos (hnodes.symm ▸ hn)
  obtain rfl := Option.some.inj (hdelete.symm.trans hs)
  show Aged (fun _ => False) s₂.m_lost_child s₂.children (s₂.nodes.erase n)
  rw [hnodes]
  exact scatter_aged h₁ (take_out_aged h ha hn hs₁) hs₂

/-! ## 3. The sizes -/

/-- Every operation keeps it. -/
theorem aged_exec {l : Label α T} (h : Shape s)
    (ha : Aged (fun _ => False) s.m_lost_child s.children s.nodes) (hv : ValidAll s l)
    (hs : execAll m_compare s l = some s') :
    Aged (fun _ => False) s'.m_lost_child s'.children s'.nodes := by
  cases l with
  | remove n => exact remove_aged h.ranked ha hv hs
  | op l =>
    cases l with
    | push p d => exact push_aged h.ranked ha hv hs
    | pop => exact pop_aged h ha hv hs
    | top =>
      obtain ⟨r, i, hr, -⟩ := shape_ensure_min m_compare h hv
      simp only [execAll, exec, Heap.top, hr, Option.bind_eq_bind, Option.bind_some,
        Option.map_some, Option.some.injEq] at hs
      subst hs
      exact ha
    | increase n d => exact increase_aged h.ranked ha hv hs
    | decrease n d => exact decrease_aged h.ranked ha hv hs
    | change n d => exact change_aged h.ranked ha hv hs
    | change_top d =>
      obtain ⟨r, i, hr, hi, hshape⟩ := shape_ensure_min m_compare h hv
      simp only [execAll, exec, Heap.change_top, hr, Option.bind_eq_bind, Option.bind_some] at hs
      exact change_aged (s := { s with m_min := some r }) hshape.ranked ha
        (h.ranked.mem_of_entry hi) hs

theorem aged_run {s₀ : Heap α T} {tr : List (Label α T)} (h₀ : (systemAll α m_compare).init s₀)
    (h : Run (systemAll α m_compare) s₀ tr s) :
    Shape s ∧ Aged (fun _ => False) s.m_lost_child s.children s.nodes := by
  refine h.invariant_state
    (I := fun s => Shape s ∧ Aged (fun _ => False) s.m_lost_child s.children s.nodes) ?_ ?_
  · refine ⟨shape_initial h₀, ?_, ?_⟩
    all_goals simp [h₀.1]
  · rintro s l s' ⟨hshape, ha⟩ hs
    obtain ⟨hv, hs⟩ := Option.ite_none_right_eq_some.mp hs
    obtain ⟨s'', hs'', h'⟩ := shape_exec m_compare hshape hv
    obtain rfl := Option.some.inj (hs.symm.trans hs'')
    exact ⟨h', aged_exec hshape ha hv hs⟩

/-- After every run, a node of rank `k` and what is below it are at least `fib (k + 2)` nodes, a
node that is not a root has lost at most one child, and the logarithm of the number of elements
bounds the ranks and the entries of the table in use. -/
theorem fibonacci_ranks {s₀ : Heap α T} {tr : List (Label α T)}
    (h₀ : (systemAll α m_compare).init s₀) (h : Run (systemAll α m_compare) s₀ tr s) :
    (∀ n ∈ s.nodes, Nat.fib (s.rank n + 2) ≤ (subtree s.children n).ncard) ∧
    (∀ n ∈ s.nodes, s.is_root n = false → s.m_lost_child n ≤ 1) ∧
    (∀ n ∈ s.nodes, (s.rank n : ℝ) ≤ Real.logb Real.goldenRatio s.nodes.length) ∧
    (s.m_roots.reduceOption.length : ℝ) ≤ Real.logb Real.goldenRatio s.nodes.length + 1 := by
  obtain ⟨hshape, ha⟩ := aged_run h₀ h
  have hforest := hshape.ranked.wired.forest
  refine ⟨fun n hn => (ha.fib_le hforest hn).1, fun n hn hroot => ?_,
    fun n hn => ha.rank_le hforest hn, ha.table_le hshape.ranked⟩
  rcases (hshape.ranked.cases hn).resolve_left List.not_mem_nil with ⟨i, hi⟩ | ⟨p, hp, hc⟩
  · rw [Heap.is_root, hshape.ranked.root i n hi] at hroot
    cases hroot
  · exact (ha.lost_le p hp n hc).resolve_left id

/-- A node has been cut with its parent, and node `1` has lost a child. -/
theorem fibonacci_ranks_example : ∃ s,
    Run (systemAll Nat fun x y => decide (x < y)) exHeap ((exRun.take 14).map .op) s ∧
    s.rank 5 = 3 ∧ s.is_root 1 = false ∧ s.m_lost_child 1 = 1 ∧ s.nodes.length = 7 ∧
    Nat.fib (s.rank 5 + 2) ≤ (subtree s.children 5).ncard ∧ s.m_lost_child 1 ≤ 1 ∧
    (s.rank 5 : ℝ) ≤ Real.logb Real.goldenRatio s.nodes.length ∧
    (s.m_roots.reduceOption.length : ℝ) ≤ Real.logb Real.goldenRatio s.nodes.length + 1 := by
  have hrun := run_replay (S := systemAll Nat fun x y => decide (x < y)) (fun _ _ _ => id)
    (show (replay (nextAll fun x y => decide (x < y)) exHeap
      ((exRun.take 14).map .op)).isSome by decide)
  obtain ⟨hfib, hlost, hrank, htable⟩ := fibonacci_ranks ⟨rfl, rfl, rfl⟩ hrun
  exact ⟨_, hrun, by decide, by decide, by decide, by decide, hfib 5 (by decide),
    hlost 1 (by decide) (by decide), hrank 5 (by decide), htable⟩

end Kuhllib.FibonacciHeap
