import Kuhllib.Lib.HeapOrder
import Mathlib.Algebra.GroupWithZero.Nat
import Mathlib.Algebra.Order.BigOperators.Group.List
import Mathlib.Algebra.Order.Group.Nat
import Mathlib.Data.List.Pairwise
import Mathlib.Data.List.Perm.Lattice
import Mathlib.Logic.Relation

/-!
# Forests of nodes

A forest is given by the children of every node, and by the tops, which are nobody's
children. The children of what is not a node do not matter.

* `Forest`: every node is held once, by the tops or by another node, and there is no cycle.
* Moving nodes between the tops and the children of a node.
* `Walk`, `Post`: from the tops every node is reached once.
* `subtree`: the nodes of a tree.
* `Ordered`: no child is greater than its parent, so some top is a maximum.
-/

namespace HeapForest

variable {α T : Type*}

structure Forest (tops nodes : List α) (children : α → List α) : Prop where
  held : (tops ++ nodes.flatMap children).Perm nodes
  nodup : nodes.Nodup
  grounded : ∃ height : α → Nat, ∀ p ∈ nodes, ∀ c ∈ children p, height c < height p

section

variable {tops tops' nodes : List α} {children : α → List α} {p q c : α}

theorem Forest.held_nodup (h : Forest tops nodes children) :
    (tops ++ nodes.flatMap children).Nodup :=
  h.held.nodup_iff.mpr h.nodup

theorem Forest.tops_nodup (h : Forest tops nodes children) : tops.Nodup :=
  (List.nodup_append.mp h.held_nodup).1

theorem Forest.mem_of_top (h : Forest tops nodes children) (hp : p ∈ tops) : p ∈ nodes :=
  h.held.mem_iff.mp (List.mem_append_left _ hp)

theorem Forest.mem_of_child (h : Forest tops nodes children) (hp : p ∈ nodes)
    (hc : c ∈ children p) : c ∈ nodes :=
  h.held.mem_iff.mp (List.mem_append_right _ (List.mem_flatMap.mpr ⟨p, hp, hc⟩))

/-- A node is a top or the child of a node. -/
theorem Forest.held_by (h : Forest tops nodes children) (hc : c ∈ nodes) :
    c ∈ tops ∨ ∃ p ∈ nodes, c ∈ children p :=
  (List.mem_append.mp (h.held.mem_iff.mpr hc)).imp_right List.mem_flatMap.mp

theorem Forest.top_not_child (h : Forest tops nodes children) (hp : p ∈ tops) (hq : q ∈ nodes) :
    p ∉ children q := fun hc =>
  (List.nodup_append.mp h.held_nodup).2.2 p hp p (List.mem_flatMap.mpr ⟨q, hq, hc⟩) rfl

theorem Forest.children_nodup (h : Forest tops nodes children) (hp : p ∈ nodes) :
    (children p).Nodup :=
  (List.nodup_flatMap.mp (List.nodup_append.mp h.held_nodup).2.1).1 p hp

/-- A child has one parent. -/
theorem Forest.parent_unique (h : Forest tops nodes children) (hp : p ∈ nodes) (hq : q ∈ nodes)
    (hcp : c ∈ children p) (hcq : c ∈ children q) : p = q := by
  by_contra hne
  have hdisjoint := (List.nodup_flatMap.mp (List.nodup_append.mp h.held_nodup).2.1).2
  have : Std.Symm (Function.onFun List.Disjoint children) := ⟨fun _ _ hd => hd.symm⟩
  exact hdisjoint.forall hp hq hne hcp hcq

theorem Forest.not_own_child (h : Forest tops nodes children) (hp : p ∈ nodes) :
    p ∉ children p := by
  obtain ⟨height, hheight⟩ := h.grounded
  exact fun hc => Nat.lt_irrefl _ (hheight p hp p hc)

theorem Forest.children_length_le (h : Forest tops nodes children) (hp : p ∈ nodes) :
    (children p).length ≤ nodes.length :=
  (List.subperm_of_subset (h.children_nodup hp) fun _ hc => h.mem_of_child hp hc).length_le

theorem Forest.perm (h : Forest tops nodes children) (hperm : tops'.Perm tops) :
    Forest tops' nodes children :=
  ⟨(hperm.append_right _).trans h.held, h.nodup, h.grounded⟩

/-- Without tops there is nothing to hold the highest node. -/
theorem Forest.nil_of_nil (h : Forest [] nodes children) : nodes = [] := by
  obtain ⟨height, hheight⟩ := h.grounded
  by_contra hne
  have higher : ∀ n, ∃ p ∈ nodes, n ≤ height p := by
    intro n
    induction n with
    | zero =>
      obtain ⟨p, hp⟩ := List.exists_mem_of_ne_nil nodes hne
      exact ⟨p, hp, Nat.zero_le _⟩
    | succ n ih =>
      obtain ⟨p, hp, hn⟩ := ih
      obtain ⟨q, hq, hpq⟩ := (h.held_by hp).resolve_left List.not_mem_nil
      exact ⟨q, hq, Nat.lt_of_le_of_lt hn (hheight q hq p hpq)⟩
  obtain ⟨p, hp, hn⟩ := higher ((nodes.map height).sum + 1)
  exact absurd (List.single_le_sum (fun _ _ => Nat.zero_le _) _ (List.mem_map_of_mem hp))
    (Nat.not_le.mpr hn)

end

/-! ## Operations -/

section

variable [DecidableEq α] {tops tops' nodes cs : List α} {children : α → List α} {p : α}

theorem flatMap_erase (hp : p ∈ nodes) (f : α → List α) :
    (nodes.flatMap f).Perm (f p ++ (nodes.erase p).flatMap f) :=
  (List.perm_cons_erase hp).flatMap_right f

theorem flatMap_update (hnodup : nodes.Nodup) (f : α → List α) (cs : List α) :
    (nodes.erase p).flatMap (Function.update f p cs) = (nodes.erase p).flatMap f :=
  List.flatMap_congr fun q hq =>
    Function.update_of_ne (fun he : q = p => hnodup.not_mem_erase (he ▸ hq)) ..

/-- What the tops and the children of a node hold is distributed anew. -/
theorem Forest.redistribute (h : Forest tops nodes children) (hp : p ∈ nodes)
    (hperm : (tops' ++ cs).Perm (tops ++ children p))
    (hgrounded : ∃ height : α → Nat, ∀ q ∈ nodes, ∀ c ∈ Function.update children p cs q,
      height c < height q) :
    Forest tops' nodes (Function.update children p cs) := by
  refine ⟨?_, h.nodup, hgrounded⟩
  have hnew := flatMap_erase hp (Function.update children p cs)
  rw [Function.update_self, flatMap_update h.nodup] at hnew
  calc (tops' ++ nodes.flatMap (Function.update children p cs)).Perm
        (tops' ++ (cs ++ (nodes.erase p).flatMap children)) := hnew.append_left tops'
    _ = (tops' ++ cs) ++ (nodes.erase p).flatMap children := (List.append_assoc ..).symm
    List.Perm _ ((tops ++ children p) ++ (nodes.erase p).flatMap children) :=
      hperm.append_right _
    _ = tops ++ (children p ++ (nodes.erase p).flatMap children) := List.append_assoc ..
    List.Perm _ (tops ++ nodes.flatMap children) :=
      (flatMap_erase hp children).symm.append_left tops
    List.Perm _ nodes := h.held

/-- Children of a node become tops. -/
theorem Forest.cut (h : Forest tops nodes children) (hp : p ∈ nodes)
    (hperm : (tops' ++ cs).Perm (tops ++ children p)) (hsub : cs ⊆ children p) :
    Forest tops' nodes (Function.update children p cs) := by
  obtain ⟨height, hheight⟩ := h.grounded
  refine h.redistribute hp hperm ⟨height, fun q hq c hc => ?_⟩
  by_cases hqp : q = p
  · subst hqp
    rw [Function.update_self] at hc
    exact hheight q hq c (hsub hc)
  · rw [Function.update_of_ne hqp] at hc
    exact hheight q hq c hc

omit [DecidableEq α] in
theorem le_sum_of_mem {height : α → Nat} {c : α} (hc : c ∈ cs) :
    height c ≤ (cs.map height).sum :=
  List.single_le_sum (fun _ _ => Nat.zero_le _) _ (List.mem_map_of_mem hc)

/-- Tops become children of a top, whose height may grow. -/
theorem Forest.join (h : Forest tops nodes children) (hp : p ∈ tops) (hp' : p ∈ tops')
    (hperm : (tops' ++ cs).Perm (tops ++ children p)) :
    Forest tops' nodes (Function.update children p cs) := by
  obtain ⟨height, hheight⟩ := h.grounded
  have hmem := h.mem_of_top hp
  have hnodup : (tops' ++ cs).Nodup := by
    refine hperm.nodup_iff.mpr (List.nodup_append.mpr ⟨h.tops_nodup, h.children_nodup hmem, ?_⟩)
    rintro q hq c hc rfl
    exact h.top_not_child hq hmem hc
  have hpcs : p ∉ cs := fun hc => (List.nodup_append.mp hnodup).2.2 p hp' p hc rfl
  let top := height p + (cs.map height).sum + 1
  refine h.redistribute hmem hperm ⟨Function.update height p top, fun q hq c hc => ?_⟩
  by_cases hqp : q = p
  · subst hqp
    rw [Function.update_self] at hc
    rw [Function.update_self, Function.update_of_ne (fun he : c = q => hpcs (he ▸ hc))]
    exact Nat.lt_succ_of_le (Nat.le_trans (le_sum_of_mem hc) (Nat.le_add_left _ _))
  · rw [Function.update_of_ne hqp] at hc
    rw [Function.update_of_ne hqp,
      Function.update_of_ne (fun he : c = p => h.top_not_child hp hq (he ▸ hc))]
    exact hheight q hq c hc

/-- A new node without children becomes a top. -/
theorem Forest.push (h : Forest tops nodes children) (hp : p ∉ nodes) :
    Forest (p :: tops) (nodes ++ [p]) (Function.update children p []) := by
  obtain ⟨height, hheight⟩ := h.grounded
  have hold : nodes.flatMap (Function.update children p []) = nodes.flatMap children :=
    List.flatMap_congr fun q hq => Function.update_of_ne (fun he : q = p => hp (he ▸ hq)) ..
  refine ⟨?_, ?_, height, fun q hq c hc => ?_⟩
  · rw [List.flatMap_append, List.flatMap_singleton, Function.update_self, hold, List.append_nil,
      List.cons_append]
    exact (h.held.cons p).trans (List.perm_append_singleton p nodes).symm
  · exact h.nodup.append (List.nodup_singleton p) (List.disjoint_singleton.mpr hp)
  · by_cases hqp : q = p
    · rw [hqp, Function.update_self] at hc
      cases hc
    · rw [Function.update_of_ne hqp] at hc
      rcases List.mem_append.mp hq with hq | hq
      · exact hheight q hq c hc
      · exact absurd (List.mem_singleton.mp hq) hqp

/-- A top goes, and its children become tops. -/
theorem Forest.pop (h : Forest (p :: tops) nodes children) :
    Forest (children p ++ tops) (nodes.erase p) children := by
  obtain ⟨height, hheight⟩ := h.grounded
  have hp := h.mem_of_top List.mem_cons_self
  refine ⟨?_, h.nodup.erase p, height, fun q hq => hheight q (List.mem_of_mem_erase hq)⟩
  refine List.Perm.cons_inv (a := p) ?_
  calc (p :: ((children p ++ tops) ++ (nodes.erase p).flatMap children)).Perm
        (p :: ((tops ++ children p) ++ (nodes.erase p).flatMap children)) :=
        (List.perm_append_comm.append_right _).cons p
    _ = p :: tops ++ (children p ++ (nodes.erase p).flatMap children) := by
        rw [List.append_assoc, List.cons_append]
    List.Perm _ (p :: tops ++ nodes.flatMap children) :=
        (flatMap_erase hp children).symm.append_left _
    List.Perm _ nodes := h.held
    List.Perm _ (p :: nodes.erase p) := List.perm_cons_erase hp

/-- From the tops downwards. -/
theorem Forest.descend {motive : List α → List α → Prop} (nil : motive [] [])
    (cons : ∀ p tops nodes, Forest (p :: tops) nodes children →
      motive (children p ++ tops) (nodes.erase p) → motive (p :: tops) nodes)
    (h : Forest tops nodes children) : motive tops nodes := by
  induction hn : nodes.length generalizing tops nodes with
  | zero =>
    obtain rfl := List.eq_nil_of_length_eq_zero hn
    cases tops with
    | nil => exact nil
    | cons p tops => exact absurd (h.mem_of_top List.mem_cons_self) List.not_mem_nil
  | succ n ih =>
    cases tops with
    | nil =>
      rw [h.nil_of_nil] at hn
      cases hn
    | cons p tops =>
      refine cons p tops nodes h (ih h.pop ?_)
      rw [List.length_erase_of_mem (h.mem_of_top List.mem_cons_self), hn]
      rfl

end

/-! ## Walks -/

/-- The nodes in the order in which they are reached. The children of a node join those
that wait, in any order. -/
inductive Walk (children : α → List α) : List α → List α → Prop
  | nil : Walk children [] []
  | cons {p : α} {tops waiting l : List α} : waiting.Perm (children p ++ tops) →
      Walk children waiting l → Walk children (p :: tops) (p :: l)

section

variable [DecidableEq α] {tops nodes l : List α} {children : α → List α}

/-- Every walk reaches every node once. -/
theorem Walk.perm (hw : Walk children tops l) (h : Forest tops nodes children) :
    l.Perm nodes := by
  induction hw generalizing nodes with
  | nil => rw [h.nil_of_nil]
  | cons hperm _ ih =>
    exact ((ih (h.pop.perm hperm)).cons _).trans
      (List.perm_cons_erase (h.mem_of_top List.mem_cons_self)).symm

theorem Forest.exists_walk (h : Forest tops nodes children) : ∃ l, Walk children tops l := by
  refine h.descend (motive := fun tops _ => ∃ l, Walk children tops l) ⟨[], .nil⟩ ?_
  intro p tops nodes _ ih
  obtain ⟨l, hl⟩ := ih
  exact ⟨p :: l, .cons (.refl _) hl⟩

end

/-- The trees one after another, with every node behind all that is below it. -/
inductive Post (children : α → List α) : List α → List α → Prop
  | nil : Post children [] []
  | cons {p : α} {tops l₁ l₂ : List α} : Post children (children p) l₁ → Post children tops l₂ →
      Post children (p :: tops) (l₁ ++ p :: l₂)

section

variable {tops tops' nodes l : List α} {children : α → List α}

theorem Post.append (h : Post children (tops ++ tops') l) :
    ∃ l₁ l₂, l = l₁ ++ l₂ ∧ Post children tops l₁ ∧ Post children tops' l₂ := by
  induction tops generalizing l with
  | nil => exact ⟨[], l, rfl, .nil, h⟩
  | cons p tops ih =>
    cases h with
    | @cons _ _ l₁ l₂ hp h =>
      obtain ⟨l₃, l₄, rfl, htops, htops'⟩ := ih h
      exact ⟨l₁ ++ p :: l₃, l₄, by simp, .cons hp htops, htops'⟩

theorem Post.eq_nil (h : Post children [] l) : l = [] := by
  cases h
  rfl

/-- Every node is in such an order once. -/
theorem Forest.exists_post [DecidableEq α] (h : Forest tops nodes children) :
    ∃ l, Post children tops l ∧ l.Perm nodes := by
  refine h.descend (motive := fun tops nodes => ∃ l, Post children tops l ∧ l.Perm nodes)
    ⟨[], .nil, .refl _⟩ ?_
  intro p tops nodes h ih
  obtain ⟨l, hl, hperm⟩ := ih
  obtain ⟨l₁, l₂, rfl, hp, htops⟩ := hl.append
  refine ⟨l₁ ++ p :: l₂, .cons hp htops, List.perm_middle.trans ?_⟩
  exact (hperm.cons p).trans (List.perm_cons_erase (h.mem_of_top List.mem_cons_self)).symm

end

/-! ## Trees -/

/-- A node and what is below it. -/
def subtree (children : α → List α) (n : α) : Set α :=
  {x | Relation.ReflTransGen (fun p c => c ∈ children p) n x}

section

variable {tops l : List α} {children : α → List α} {n x : α}

theorem mem_subtree : x ∈ subtree children n ↔ x = n ∨ ∃ c ∈ children n, x ∈ subtree children c :=
  Relation.ReflTransGen.cases_head_iff.trans (or_congr eq_comm Iff.rfl)

theorem Post.mem_iff (h : Post children tops l) : x ∈ l ↔ ∃ t ∈ tops, x ∈ subtree children t := by
  induction h with
  | nil => simp
  | @cons p tops l₁ l₂ _ _ ihp ihtops =>
    rw [List.mem_append, List.mem_cons, ihp, ihtops]
    simp only [List.mem_cons, exists_eq_or_imp, mem_subtree (n := p)]
    rw [or_left_comm, or_assoc]

/-- The order goes through the tree of each node. -/
theorem Post.tree (h : Post children tops l) (hx : x ∈ l) :
    ∃ l', Post children [x] l' ∧ l'.Sublist l := by
  induction h with
  | nil => cases hx
  | @cons p tops l₁ l₂ hp _ ihp ihtops =>
    rcases List.mem_append.mp hx with hx | hx
    · obtain ⟨l', hl', hsub⟩ := ihp hx
      exact ⟨l', hl', hsub.trans (List.sublist_append_left ..)⟩
    · rcases List.mem_cons.mp hx with rfl | hx
      · refine ⟨l₁ ++ [x], .cons hp .nil, ?_⟩
        exact (List.Sublist.cons_cons x (List.nil_sublist l₂)).append_left l₁
      · obtain ⟨l', hl', hsub⟩ := ihtops hx
        exact ⟨l', hl', (hsub.cons p).trans (List.sublist_append_right ..)⟩

end

/-! ## The heap order -/

/-- No child is greater than its parent. -/
def Ordered (lt : T → T → Bool) (value : α → T) (nodes : List α) (children : α → List α) : Prop :=
  ∀ p ∈ nodes, ∀ c ∈ children p, lt (value p) (value c) = false

section

variable [DecidableEq α] {lt : T → T → Bool} {value : α → T} {tops nodes : List α}
  {children : α → List α}

theorem not_lt_trans [IsStrictWeakOrder T (lt · ·)] {a b c : T} (hab : lt a b = false)
    (hbc : lt b c = false) : lt a c = false :=
  Bool.eq_false_iff.mpr (@HeapOrder.not_lt_trans T (lt · ·) _ _ _ _ (Bool.eq_false_iff.mp hab)
    (Bool.eq_false_iff.mp hbc))

theorem lt_irrefl [IsStrictWeakOrder T (lt · ·)] (a : T) : lt a a = false :=
  Bool.eq_false_iff.mpr (irrefl_of (lt · ·) a)

/-- Above every node there is a top that is not less. -/
theorem Forest.top_ge [IsStrictWeakOrder T (lt · ·)] (h : Forest tops nodes children)
    (ho : Ordered lt value nodes children) {x : α} (hx : x ∈ nodes) :
    ∃ t ∈ tops, lt (value t) (value x) = false := by
  refine h.descend (motive := fun tops nodes => Ordered lt value nodes children →
    ∀ x ∈ nodes, ∃ t ∈ tops, lt (value t) (value x) = false) ?_ ?_ ho x hx
  · exact fun _ x hx => absurd hx List.not_mem_nil
  · intro p tops nodes h ih ho x hx
    have hp := h.mem_of_top List.mem_cons_self
    by_cases hxp : x = p
    · exact ⟨p, List.mem_cons_self, hxp ▸ lt_irrefl _⟩
    · obtain ⟨t, ht, hle⟩ := ih (fun q hq => ho q (List.mem_of_mem_erase hq)) x
        ((List.mem_erase_of_ne hxp).mpr hx)
      rcases List.mem_append.mp ht with hc | ht
      · exact ⟨p, List.mem_cons_self, not_lt_trans (ho p hp t hc) hle⟩
      · exact ⟨t, List.mem_cons_of_mem p ht, hle⟩

end

end HeapForest
