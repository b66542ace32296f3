import Kuhllib.Lib.HeapOrder
import Mathlib.Data.List.Nodup
import Mathlib.Data.List.Pairwise

/-!
# Search trees of linked nodes

A node has a location for its left and its right subtree, and one for a chain of nodes
that are equivalent to it. The classes of a tree are its nodes with their chains, from the
left to the right. A context is a tree with a hole: `C.At cell l k` says that the tree at `l`
is `C` around the location `k`, so `k` may get another subtree.

`Sorted` says that the classes are ascending, and that the nodes of a class are equivalent.
-/

namespace LinkedTree

variable {ι α : Type*}

/-- A variable, or a member of a node. -/
inductive Loc (ι α : Type*)
  | var (i : ι)
  | left (n : α)
  | right (n : α)
  | next (n : α)
deriving DecidableEq

def Loc.owner : Loc ι α → Option α
  | .var _ => none
  | .left n | .right n | .next n => some n

theorem Loc.ne_of_owner {j k : Loc ι α} {x y : α} (hj : j.owner = some x) (hk : k.owner = some y)
    (hne : x ≠ y) : j ≠ k := by
  rintro rfl
  exact hne (Option.some.inj (hj.symm.trans hk))

inductive NodeTree (α : Type*)
  | leaf
  | node (a : NodeTree α) (n : α) (c : List α) (b : NodeTree α)

def NodeTree.classes : NodeTree α → List (List α)
  | .leaf => []
  | .node a n c b => a.classes ++ (n :: c) :: b.classes

def NodeTree.nodes (t : NodeTree α) : List α := t.classes.flatten

@[simp] theorem nodes_leaf : (NodeTree.leaf : NodeTree α).nodes = [] := rfl

@[simp] theorem nodes_node (a : NodeTree α) (n : α) (c : List α) (b : NodeTree α) :
    (NodeTree.node a n c b).nodes = a.nodes ++ n :: (c ++ b.nodes) := by
  simp [NodeTree.nodes, NodeTree.classes]

/-- The node, its chain and its subtrees share no node. -/
theorem nodup_node {a b : NodeTree α} {n : α} {c : List α}
    (h : (NodeTree.node a n c b).nodes.Nodup) :
    c.Nodup ∧ (∀ x ∈ a.nodes ++ (c ++ b.nodes), x ≠ n) ∧ ∀ x ∈ a.nodes ++ b.nodes, x ∉ c := by
  rw [nodes_node, List.perm_middle.nodup_iff, List.nodup_cons] at h
  obtain ⟨hn, hrest⟩ := h
  obtain ⟨-, hcb, hleft⟩ := List.nodup_append.mp hrest
  obtain ⟨hc, -, hright⟩ := List.nodup_append.mp hcb
  refine ⟨hc, fun x hx he => hn (he ▸ hx), fun x hx hxc => ?_⟩
  rcases List.mem_append.mp hx with hx | hx
  · exact hleft x hx x (List.mem_append_left _ hxc) rfl
  · exact hright x hxc x hx rfl

/-- The nodes of a chain have no subtrees. -/
def Chained (cell : Loc ι α → Option α) : Loc ι α → List α → Prop
  | l, [] => cell l = none
  | l, x :: xs => cell l = some x ∧ cell (.left x) = none ∧ cell (.right x) = none ∧
      Chained cell (.next x) xs

def Linked (cell : Loc ι α → Option α) : Loc ι α → NodeTree α → Prop
  | l, .leaf => cell l = none
  | l, .node a n c b => cell l = some n ∧ Linked cell (.left n) a ∧
      Chained cell (.next n) c ∧ Linked cell (.right n) b

inductive Ctx (α : Type*)
  | hole
  | left (C : Ctx α) (n : α) (c : List α) (b : NodeTree α)
  | right (a : NodeTree α) (n : α) (c : List α) (C : Ctx α)

def Ctx.plug : Ctx α → NodeTree α → NodeTree α
  | .hole, t => t
  | .left C n c b, t => .node (C.plug t) n c b
  | .right a n c C, t => .node a n c (C.plug t)

def Ctx.comp : Ctx α → Ctx α → Ctx α
  | .hole, D => D
  | .left C n c b, D => .left (C.comp D) n c b
  | .right a n c C, D => .right a n c (C.comp D)

/-- The classes left of the hole. -/
def Ctx.before : Ctx α → List (List α)
  | .hole => []
  | .left C _ _ _ => C.before
  | .right a n c C => a.classes ++ (n :: c) :: C.before

/-- The classes right of the hole. -/
def Ctx.after : Ctx α → List (List α)
  | .hole => []
  | .left C n c b => C.after ++ (n :: c) :: b.classes
  | .right _ _ _ C => C.after

def Ctx.nodes (C : Ctx α) : List α := C.before.flatten ++ C.after.flatten

def Ctx.At (cell : Loc ι α → Option α) : Loc ι α → Ctx α → Loc ι α → Prop
  | l, .hole, k => k = l
  | l, .left C n c b, k => cell l = some n ∧ Ctx.At cell (.left n) C k ∧
      Chained cell (.next n) c ∧ Linked cell (.right n) b
  | l, .right a n c C, k => cell l = some n ∧ Linked cell (.left n) a ∧
      Chained cell (.next n) c ∧ Ctx.At cell (.right n) C k

variable {cell cell' : Loc ι α → Option α} {l l' k k' : Loc ι α} {t u a b : NodeTree α}
  {C D : Ctx α} {c : List α} {n x : α}

/-! ## Trees and chains -/

/-- A chain is what the locations of its nodes make of it. -/
theorem Chained.move (h : Chained cell l c) (hl : cell' l' = cell l)
    (hc : ∀ j x, x ∈ c → j.owner = some x → cell' j = cell j) : Chained cell' l' c := by
  induction c generalizing l l' with
  | nil => exact hl.trans h
  | cons x c ih =>
    have hx (j : Loc ι α) (hj : j.owner = some x) : cell' j = cell j :=
      hc j x List.mem_cons_self hj
    exact ⟨hl.trans h.1, (hx _ rfl).trans h.2.1, (hx _ rfl).trans h.2.2.1,
      ih h.2.2.2 (hx _ rfl) fun j y hy => hc j y (List.mem_cons_of_mem x hy)⟩

/-- A tree is what the locations of its nodes make of it, wherever it is held. -/
theorem Linked.move (h : Linked cell l t) (hl : cell' l' = cell l)
    (ht : ∀ j x, x ∈ t.nodes → j.owner = some x → cell' j = cell j) : Linked cell' l' t := by
  induction t generalizing l l' with
  | leaf => exact hl.trans h
  | node a n c b iha ihb =>
    simp only [nodes_node, List.mem_append, List.mem_cons] at ht
    have hn (j : Loc ι α) (hj : j.owner = some n) : cell' j = cell j :=
      ht j n (.inr (.inl rfl)) hj
    exact ⟨hl.trans h.1, iha h.2.1 (hn _ rfl) fun j x hx => ht j x (.inl hx),
      h.2.2.1.move (hn _ rfl) fun j x hx => ht j x (.inr (.inr (.inl hx))),
      ihb h.2.2.2 (hn _ rfl) fun j x hx => ht j x (.inr (.inr (.inr hx)))⟩

theorem owner_eq_some {j : Loc ι α} :
    j.owner = some n ↔ j = .left n ∨ j = .right n ∨ j = .next n := by
  cases j <;> simp [Loc.owner]

/-- `j` is `l`, or a member of one of the nodes. -/
def Within (l : Loc ι α) (c : List α) (j : Loc ι α) : Prop := j = l ∨ ∃ x ∈ c, j.owner = some x

/-- The location of a chain holds its first node, the others hold those behind it. -/
theorem Chained.inner {j : Loc ι α} {y : α} (h : Chained cell l (y :: c))
    (hj : Within l (y :: c) j) (hx : cell j = some x) :
    j = l ∧ x = y ∨ Within (.next y) c j := by
  obtain ⟨hy, hleft, hright, -⟩ := h
  rcases hj with rfl | ⟨z, hz, ho⟩
  · exact .inl ⟨rfl, Option.some.inj (hx.symm.trans hy)⟩
  · rcases List.mem_cons.mp hz with rfl | hz
    · rcases owner_eq_some.mp ho with rfl | rfl | rfl
      · cases hx.symm.trans hleft
      · cases hx.symm.trans hright
      · exact .inr (.inl rfl)
    · exact .inr (.inr ⟨z, hz, ho⟩)

theorem Chained.target {j : Loc ι α} (h : Chained cell l c) (hj : Within l c j)
    (hx : cell j = some x) : x ∈ c := by
  induction c generalizing l with
  | nil =>
    obtain rfl := hj.resolve_right fun ⟨_, hz, _⟩ => List.not_mem_nil hz
    cases hx.symm.trans h
  | cons y c ih =>
    rcases h.inner hj hx with ⟨-, rfl⟩ | hj
    · exact List.mem_cons_self
    · exact List.mem_cons_of_mem y (ih h.2.2.2 hj)

/-- A node of a chain is held by one location. -/
theorem Chained.unique {j k : Loc ι α} (h : Chained cell l c) (hc : c.Nodup)
    (hj : Within l c j) (hk : Within l c k) (hjx : cell j = some x) (hkx : cell k = some x) :
    j = k := by
  induction c generalizing l with
  | nil => exact absurd (h.target hj hjx) List.not_mem_nil
  | cons y c ih =>
    obtain ⟨hy, hc⟩ := List.nodup_cons.mp hc
    rcases h.inner hj hjx with ⟨rfl, rfl⟩ | hj' <;> rcases h.inner hk hkx with ⟨rfl, hxy⟩ | hk'
    · rfl
    · exact absurd (h.2.2.2.target hk' hkx) hy
    · exact absurd (hxy ▸ h.2.2.2.target hj' hjx) hy
    · exact ih h.2.2.2 hc hj' hk'

/-- The location of a tree holds its root, the others belong to one of its three parts. -/
theorem Linked.inner {j : Loc ι α} (h : Linked cell l (.node a n c b))
    (hj : Within l (NodeTree.node a n c b).nodes j) (hx : cell j = some x) :
    j = l ∧ x = n ∨ Within (.left n) a.nodes j ∨ Within (.next n) c j ∨
      Within (.right n) b.nodes j := by
  rcases hj with rfl | ⟨z, hz, ho⟩
  · exact .inl ⟨rfl, Option.some.inj (hx.symm.trans h.1)⟩
  · refine .inr ?_
    rw [nodes_node, List.mem_append, List.mem_cons, List.mem_append] at hz
    rcases hz with hz | rfl | hz | hz
    · exact .inl (.inr ⟨z, hz, ho⟩)
    · rcases owner_eq_some.mp ho with rfl | rfl | rfl
      · exact .inl (.inl rfl)
      · exact .inr (.inr (.inl rfl))
      · exact .inr (.inl (.inl rfl))
    · exact .inr (.inl (.inr ⟨z, hz, ho⟩))
    · exact .inr (.inr (.inr ⟨z, hz, ho⟩))

theorem Linked.target {j : Loc ι α} (h : Linked cell l t) (hj : Within l t.nodes j)
    (hx : cell j = some x) : x ∈ t.nodes := by
  induction t generalizing l with
  | leaf =>
    obtain rfl := hj.resolve_right fun ⟨_, hz, _⟩ => List.not_mem_nil hz
    cases hx.symm.trans h
  | node a n c b iha ihb =>
    rw [nodes_node, List.mem_append, List.mem_cons, List.mem_append]
    rcases h.inner hj hx with ⟨-, rfl⟩ | hj | hj | hj
    · exact .inr (.inl rfl)
    · exact .inl (iha h.2.1 hj)
    · exact .inr (.inr (.inl (h.2.2.1.target hj hx)))
    · exact .inr (.inr (.inr (ihb h.2.2.2 hj)))

/-- A node of a tree is held by one location. -/
theorem Linked.unique {j k : Loc ι α} (h : Linked cell l t) (ht : t.nodes.Nodup)
    (hj : Within l t.nodes j) (hk : Within l t.nodes k) (hjx : cell j = some x)
    (hkx : cell k = some x) : j = k := by
  induction t generalizing l with
  | leaf => exact absurd (h.target hj hjx) List.not_mem_nil
  | node a n c b iha ihb =>
    rw [nodes_node] at ht
    obtain ⟨ha, hrest, hfirst⟩ := List.nodup_append.mp ht
    obtain ⟨hn, hrest⟩ := List.nodup_cons.mp hrest
    obtain ⟨hc, hb, hlast⟩ := List.nodup_append.mp hrest
    -- the node is the root, or a node of the part that the location belongs to
    have hpart : ∀ {j}, Within l (NodeTree.node a n c b).nodes j → cell j = some x →
        j = l ∧ x = n ∨ (Within (.left n) a.nodes j ∧ x ∈ a.nodes) ∨
          (Within (.next n) c j ∧ x ∈ c) ∨ (Within (.right n) b.nodes j ∧ x ∈ b.nodes) := by
      intro j hj hjx
      rcases h.inner hj hjx with hroot | hj | hj | hj
      · exact .inl hroot
      · exact .inr (.inl ⟨hj, h.2.1.target hj hjx⟩)
      · exact .inr (.inr (.inl ⟨hj, h.2.2.1.target hj hjx⟩))
      · exact .inr (.inr (.inr ⟨hj, h.2.2.2.target hj hjx⟩))
    rw [List.mem_append, not_or] at hn
    rcases hpart hj hjx with ⟨rfl, rfl⟩ | ⟨hj, hx⟩ | ⟨hj, hx⟩ | ⟨hj, hx⟩ <;>
      rcases hpart hk hkx with ⟨rfl, hx'⟩ | ⟨hk, hx'⟩ | ⟨hk, hx'⟩ | ⟨hk, hx'⟩
    · rfl
    · exact absurd rfl (hfirst _ hx' _ List.mem_cons_self)
    · exact absurd hx' hn.1
    · exact absurd hx' hn.2
    · exact absurd hx' (hfirst x hx n List.mem_cons_self)
    · exact iha h.2.1 ha hj hk
    · exact absurd rfl (hfirst x hx x (by simp [hx']))
    · exact absurd rfl (hfirst x hx x (by simp [hx']))
    · exact absurd (hx' ▸ hx) hn.1
    · exact absurd rfl (hfirst x hx' x (by simp [hx]))
    · exact h.2.2.1.unique hc hj hk hjx hkx
    · exact absurd rfl (hlast x hx x hx')
    · exact absurd (hx' ▸ hx) hn.2
    · exact absurd rfl (hfirst x hx' x (by simp [hx]))
    · exact absurd rfl (hlast x hx' x hx)
    · exact ihb h.2.2.2 hb hj hk

/-- The location that holds `n` in a chain. -/
def holder [DecidableEq α] (n : α) : Loc ι α → List α → Loc ι α
  | l, [] => l
  | l, x :: xs => if x = n then l else holder n (.next x) xs

/-- A node goes out of a chain: the location that held it gets its successor. -/
theorem Chained.remove [DecidableEq α] (h : Chained cell l c) (hn : n ∈ c)
    (hc : c.Nodup) (hl : ∀ x ∈ c, l.owner ≠ some x) :
    cell (holder n l c) = some n ∧ (holder n l c = l ∨ ∃ x ∈ c, x ≠ n ∧ holder n l c = .next x) ∧
      cell (.left n) = none ∧ cell (.right n) = none ∧
      ∀ cell', cell' (holder n l c) = cell (.next n) →
        (∀ j, j ≠ holder n l c → j.owner ≠ some n → cell' j = cell j) →
        Chained cell' l (c.erase n) := by
  induction c generalizing l with
  | nil => cases hn
  | cons x c ih =>
    obtain ⟨hx, hc⟩ := List.nodup_cons.mp hc
    obtain ⟨hlx, hleft, hright, hrest⟩ := h
    by_cases hxn : x = n
    · subst hxn
      rw [holder, if_pos rfl, List.erase_cons_head]
      refine ⟨hlx, .inl rfl, hleft, hright, fun cell' hk hkeep => ?_⟩
      refine hrest.move hk fun j y hy hj => hkeep j ?_ ?_
      · rintro rfl
        exact hl y (List.mem_cons_of_mem x hy) hj
      · rw [hj]
        rintro he
        exact hx (Option.some.inj he ▸ hy)
    · have hmem := (List.mem_cons.mp hn).resolve_left (Ne.symm hxn)
      rw [holder, if_neg hxn, List.erase_cons_tail (by simpa using hxn)]
      obtain ⟨hk, hat, hln, hrn, hremove⟩ := ih hrest hmem hc fun y hy he =>
        hx (Option.some.inj he ▸ hy)
      have hown : ∃ y ∈ x :: c, y ≠ n ∧ holder n (.next x : Loc ι α) c = .next y := by
        rcases hat with he | ⟨y, hy, hyn, he⟩
        · exact ⟨x, List.mem_cons_self, hxn, he⟩
        · exact ⟨y, List.mem_cons_of_mem x hy, hyn, he⟩
      refine ⟨hk, .inr hown, hln, hrn, fun cell' hk' hkeep => ?_⟩
      obtain ⟨y, hy, -, hey⟩ := hown
      rw [hey] at hkeep
      have hxk (j : Loc ι α) (hj : j ≠ .next y) (hjx : j.owner = some x) : cell' j = cell j :=
        hkeep j hj fun he => hxn (Option.some.inj (hjx.symm.trans he))
      refine ⟨(hkeep l (fun he => hl y hy (he ▸ rfl)) (hl n hn)).trans hlx,
        (hxk (.left x) (by simp) rfl).trans hleft, (hxk (.right x) (by simp) rfl).trans hright,
        hremove cell' hk' ?_⟩
      rw [hey]
      exact hkeep

/-! ## Contexts -/

@[simp] theorem classes_plug (C : Ctx α) (t : NodeTree α) :
    (C.plug t).classes = C.before ++ t.classes ++ C.after := by
  induction C with
  | hole => simp [Ctx.plug, Ctx.before, Ctx.after]
  | left C n c b ih => simp [Ctx.plug, Ctx.before, Ctx.after, NodeTree.classes, ih]
  | right a n c C ih => simp [Ctx.plug, Ctx.before, Ctx.after, NodeTree.classes, ih]

theorem nodes_plug (C : Ctx α) (t : NodeTree α) :
    (C.plug t).nodes.Perm (t.nodes ++ C.nodes) := by
  rw [NodeTree.nodes, classes_plug, List.flatten_append, List.flatten_append, Ctx.nodes,
    ← List.append_assoc]
  exact List.perm_append_comm.append_right _

theorem Ctx.At.plug (h : C.At cell l k) (ht : Linked cell k t) :
    Linked cell l (C.plug t) := by
  induction C generalizing l with
  | hole => exact h ▸ ht
  | left C n c b ih => exact ⟨h.1, ih h.2.1, h.2.2.1, h.2.2.2⟩
  | right a n c C ih => exact ⟨h.1, h.2.1, h.2.2.1, ih h.2.2.2⟩

theorem Ctx.At.comp (h : C.At cell l k) (h' : D.At cell k k') :
    (C.comp D).At cell l k' := by
  induction C generalizing l with
  | hole => exact h ▸ h'
  | left C n c b ih => exact ⟨h.1, ih h.2.1, h.2.2.1, h.2.2.2⟩
  | right a n c C ih => exact ⟨h.1, h.2.1, h.2.2.1, ih h.2.2.2⟩

@[simp] theorem before_comp (C D : Ctx α) : (C.comp D).before = C.before ++ D.before := by
  induction C with
  | hole => rfl
  | left C n c b ih => exact ih
  | right a n c C ih => simp [Ctx.comp, Ctx.before, ih]

@[simp] theorem after_comp (C D : Ctx α) : (C.comp D).after = D.after ++ C.after := by
  induction C with
  | hole => simp [Ctx.comp, Ctx.after]
  | left C n c b ih => simp [Ctx.comp, Ctx.after, ih]
  | right a n c C ih => exact ih

theorem nodes_left_perm (C : Ctx α) (n : α) (c : List α) (b : NodeTree α) :
    (Ctx.left C n c b).nodes.Perm (C.nodes ++ n :: (c ++ b.nodes)) := by
  simp [Ctx.nodes, Ctx.before, Ctx.after, NodeTree.nodes]

theorem nodes_right_perm (a : NodeTree α) (n : α) (c : List α) (C : Ctx α) :
    (Ctx.right a n c C).nodes.Perm (C.nodes ++ n :: (c ++ a.nodes)) := by
  have hswap : (a.nodes ++ (n :: c ++ C.nodes)).Perm (C.nodes ++ (n :: c ++ a.nodes)) := by
    refine List.perm_append_comm.trans ?_
    rw [← List.append_assoc]
    exact List.perm_append_comm.append_right _
  simpa [Ctx.nodes, Ctx.before, Ctx.after, NodeTree.nodes] using hswap

theorem mem_nodes_left : x ∈ (Ctx.left C n c b).nodes ↔
    x ∈ C.nodes ∨ x = n ∨ x ∈ c ∨ x ∈ b.nodes := by
  simp [(nodes_left_perm C n c b).mem_iff]

theorem mem_nodes_right : x ∈ (Ctx.right a n c C).nodes ↔
    x ∈ C.nodes ∨ x = n ∨ x ∈ c ∨ x ∈ a.nodes := by
  simp [(nodes_right_perm a n c C).mem_iff]

/-- The hole is where the context is, or a member of one of its nodes. -/
theorem Ctx.At.at_hole (h : C.At cell l k) :
    k = l ∧ C = .hole ∨ ∃ x ∈ C.nodes, k = .left x ∨ k = .right x := by
  induction C generalizing l with
  | hole => exact .inl ⟨h, rfl⟩
  | left C n c b ih =>
    refine .inr ?_
    rcases ih h.2.1 with ⟨rfl, -⟩ | ⟨x, hx, hk⟩
    · exact ⟨n, mem_nodes_left.mpr (.inr (.inl rfl)), .inl rfl⟩
    · exact ⟨x, mem_nodes_left.mpr (.inl hx), hk⟩
  | right a n c C ih =>
    refine .inr ?_
    rcases ih h.2.2.2 with ⟨rfl, -⟩ | ⟨x, hx, hk⟩
    · exact ⟨n, mem_nodes_right.mpr (.inr (.inl rfl)), .inr rfl⟩
    · exact ⟨x, mem_nodes_right.mpr (.inl hx), hk⟩

theorem Ctx.At.head (h : C.At cell l k) (hC : C ≠ .hole) : ∃ n, cell l = some n := by
  cases C with
  | hole => exact (hC rfl).elim
  | left C n c b => exact ⟨n, h.1⟩
  | right a n c C => exact ⟨n, h.1⟩

theorem Ctx.At.ne_hole {j : Loc ι α} (h : C.At cell l k) (hj : j ≠ l)
    (hC : ∀ x ∈ C.nodes, j.owner ≠ some x) : j ≠ k := by
  rintro rfl
  rcases h.at_hole with ⟨he, -⟩ | ⟨x, hx, rfl | rfl⟩
  · exact hj he
  · exact hC x hx rfl
  · exact hC x hx rfl

/-- What changes in a context with the hole below a node is not beside the hole. -/
theorem Ctx.At.beside {rest : List α} (h : C.At cell l k) (hl : l.owner = some n)
    (hnodup : (C.nodes ++ n :: rest).Nodup)
    (hrest : ∀ j x, x ∈ n :: rest → j.owner = some x → j ≠ k → cell' j = cell j) :
    (∀ j, j ≠ l → j.owner = some n → cell' j = cell j) ∧
      ∀ j x, x ∈ rest → j.owner = some x → cell' j = cell j := by
  obtain ⟨-, hnrest, hdisjoint⟩ := List.nodup_append.mp hnodup
  have hkeep (j : Loc ι α) (x : α) (hj : j ≠ l) (hx : x ∈ n :: rest) (hjx : j.owner = some x) :
      cell' j = cell j :=
    hrest j x hx hjx <| h.ne_hole hj fun y hy he =>
      hdisjoint y hy x hx (Option.some.inj (he.symm.trans hjx))
  refine ⟨fun j hj hjn => hkeep j n hj List.mem_cons_self hjn, fun j x hx hjx => ?_⟩
  refine hkeep j x (fun he => ?_) (List.mem_cons_of_mem n hx) hjx
  subst he
  exact (List.nodup_cons.mp hnrest).1 (Option.some.inj (hl.symm.trans hjx) ▸ hx)

/-- A context is what the locations of its nodes make of it, except for the hole. -/
theorem Ctx.At.congr (h : C.At cell l k) (hnodup : C.nodes.Nodup)
    (hl : ∀ x ∈ C.nodes, l.owner ≠ some x) (hcell : l ≠ k → cell' l = cell l)
    (hC : ∀ j x, x ∈ C.nodes → j.owner = some x → j ≠ k → cell' j = cell j) :
    C.At cell' l k := by
  induction C generalizing l with
  | hole => exact h
  | left C n c b ih =>
    obtain ⟨hln, hat, hc, hb⟩ := h
    have hperm := nodes_left_perm C n c b
    have hparts := hperm.nodup_iff.mp hnodup
    simp only [hperm.mem_iff, List.mem_append] at hl hC
    obtain ⟨hn, hrest⟩ := hat.beside rfl hparts fun j x hx => hC j x (.inr hx)
    have hne : l ≠ k := hat.ne_hole (fun he => hl n (.inr List.mem_cons_self) (he ▸ rfl))
      fun x hx => hl x (.inl hx)
    refine ⟨(hcell hne).trans hln, ih hat (List.nodup_append.mp hparts).1 (fun x hx he => ?_)
      (fun hk => hC _ n (.inr List.mem_cons_self) rfl hk) (fun j x hx => hC j x (.inl hx)),
      hc.move (hn _ (by simp) rfl) fun j x hx => hrest j x (List.mem_append_left _ hx),
      hb.move (hn _ (by simp) rfl) fun j x hx => hrest j x (List.mem_append_right _ hx)⟩
    exact (List.nodup_append.mp hparts).2.2 x hx n List.mem_cons_self (Option.some.inj he).symm
  | right a n c C ih =>
    obtain ⟨hln, ha, hc, hat⟩ := h
    have hperm := nodes_right_perm a n c C
    have hparts := hperm.nodup_iff.mp hnodup
    simp only [hperm.mem_iff, List.mem_append] at hl hC
    obtain ⟨hn, hrest⟩ := hat.beside rfl hparts fun j x hx => hC j x (.inr hx)
    have hne : l ≠ k := hat.ne_hole (fun he => hl n (.inr List.mem_cons_self) (he ▸ rfl))
      fun x hx => hl x (.inl hx)
    refine ⟨(hcell hne).trans hln,
      ha.move (hn _ (by simp) rfl) fun j x hx => hrest j x (List.mem_append_right _ hx),
      hc.move (hn _ (by simp) rfl) fun j x hx => hrest j x (List.mem_append_left _ hx),
      ih hat (List.nodup_append.mp hparts).1 (fun x hx he => ?_)
        (fun hk => hC _ n (.inr List.mem_cons_self) rfl hk) (fun j x hx => hC j x (.inl hx))⟩
    exact (List.nodup_append.mp hparts).2.2 x hx n List.mem_cons_self (Option.some.inj he).symm

/-! ## Ascending classes -/

section

variable {r : α → α → Prop} {cs L R : List (List α)} {d : List α}

/-- The classes are ascending, and the nodes of a class are equivalent. -/
structure Sorted (r : α → α → Prop) (cs : List (List α)) : Prop where
  between : cs.Pairwise fun c d => ∀ x ∈ c, ∀ y ∈ d, r x y
  within : ∀ c ∈ cs, ∀ x ∈ c, ∀ y ∈ c, ¬ r x y

theorem Sorted.congr {r' : α → α → Prop} (h : Sorted r cs)
    (hr : ∀ x ∈ cs.flatten, ∀ y ∈ cs.flatten, r' x y ↔ r x y) : Sorted r' cs where
  between := h.between.imp_of_mem fun hc hd hcd x hx y hy =>
    (hr x (List.mem_flatten_of_mem hc hx) y (List.mem_flatten_of_mem hd hy)).mpr (hcd x hx y hy)
  within c hc x hx y hy := by
    rw [hr x (List.mem_flatten_of_mem hc hx) y (List.mem_flatten_of_mem hc hy)]
    exact h.within c hc x hx y hy

theorem Sorted.sublist {cs' : List (List α)} (h : Sorted r cs) (hs : cs'.Sublist cs) :
    Sorted r cs' :=
  ⟨h.between.sublist hs, fun c hc => h.within c (hs.subset hc)⟩

theorem sorted_append_cons : Sorted r (L ++ c :: R) ↔ Sorted r (L ++ R) ∧
    (∀ x ∈ c, ∀ y ∈ c, ¬ r x y) ∧ (∀ x ∈ L.flatten, ∀ y ∈ c, r x y) ∧
      ∀ x ∈ c, ∀ y ∈ R.flatten, r x y := by
  constructor
  · intro h
    obtain ⟨-, hright, hcross⟩ := List.pairwise_append.mp h.between
    refine ⟨h.sublist ((List.sublist_cons_self c R).append_left L),
      h.within c (List.mem_append_right L List.mem_cons_self), fun x hx y hy => ?_,
      fun x hx y hy => ?_⟩
    · obtain ⟨d, hd, hx⟩ := List.mem_flatten.mp hx
      exact hcross d hd c List.mem_cons_self x hx y hy
    · obtain ⟨d, hd, hy⟩ := List.mem_flatten.mp hy
      exact (List.pairwise_cons.mp hright).1 d hd x hx y hy
  · rintro ⟨h, hwithin, hleft, hright⟩
    obtain ⟨hL, hR, hcross⟩ := List.pairwise_append.mp h.between
    refine ⟨List.pairwise_append.mpr ⟨hL, List.pairwise_cons.mpr ⟨fun d hd x hx y hy => ?_, hR⟩,
      fun d hd e he x hx y hy => ?_⟩, fun d hd => ?_⟩
    · exact hright x hx y (List.mem_flatten_of_mem hd hy)
    · rcases List.mem_cons.mp he with rfl | he
      · exact hleft x (List.mem_flatten_of_mem hd hx) y hy
      · exact hcross d hd e he x hx y hy
    · rcases List.mem_append.mp hd with hd | hd
      · exact h.within d (List.mem_append_left R hd)
      · rcases List.mem_cons.mp hd with rfl | hd
        · exact hwithin
        · exact h.within d (List.mem_append_right L hd)

/-- A class may change where it stays equivalent to what it was. -/
theorem Sorted.replace (h : Sorted r (L ++ c :: R)) (hd : ∀ x ∈ d, ∀ y ∈ d, ¬ r x y)
    (hL : ∀ x ∈ L.flatten, ∀ y ∈ d, r x y) (hR : ∀ x ∈ d, ∀ y ∈ R.flatten, r x y) :
    Sorted r (L ++ d :: R) :=
  sorted_append_cons.mpr ⟨(sorted_append_cons.mp h).1, hd, hL, hR⟩

/-- A class may lose nodes. -/
theorem Sorted.subset (h : Sorted r (L ++ c :: R)) (hd : d ⊆ c) : Sorted r (L ++ d :: R) := by
  obtain ⟨-, hwithin, hleft, hright⟩ := sorted_append_cons.mp h
  exact h.replace (fun x hx y hy => hwithin x (hd hx) y (hd hy))
    (fun x hx y hy => hleft x hx y (hd hy)) fun x hx => hright x (hd hx)

variable [IsStrictWeakOrder α r]

/-- A node of the last class is a maximum. -/
theorem Sorted.last_max (h : Sorted r (L ++ [c])) (hn : n ∈ c) :
    ∀ x ∈ (L ++ [c]).flatten, ¬ r n x := by
  obtain ⟨-, hwithin, hleft, -⟩ := sorted_append_cons.mp h
  intro x hx
  rw [List.flatten_append, List.mem_append, List.flatten_singleton] at hx
  rcases hx with hx | hx
  · exact asymm (hleft x hx n hn)
  · exact hwithin n hn x hx

/-- A value equivalent to one of a class is where the class is. -/
theorem Sorted.beside {m : α} (h : Sorted r (L ++ c :: R)) (hm : m ∈ c) (hmn : ¬ r m n)
    (hnm : ¬ r n m) :
    (∀ x ∈ c, ¬ r x n ∧ ¬ r n x) ∧ (∀ x ∈ L.flatten, r x n) ∧ ∀ x ∈ R.flatten, r n x := by
  obtain ⟨-, hwithin, hleft, hright⟩ := sorted_append_cons.mp h
  refine ⟨fun x hx => ⟨?_, ?_⟩, fun x hx => ?_, fun x hx => ?_⟩
  · exact HeapOrder.not_lt_trans (hwithin x hx m hm) hmn
  · exact HeapOrder.not_lt_trans hnm (hwithin m hm x hx)
  · by_contra hxn
    exact HeapOrder.not_lt_trans hxn hnm (hleft x hx m hm)
  · by_contra hnx
    exact HeapOrder.not_lt_trans hmn hnx (hright m hm x hx)

/-- An equivalent value comes into a class. -/
theorem Sorted.join {m : α} (h : Sorted r (L ++ c :: R)) (hm : m ∈ c) (hmn : ¬ r m n)
    (hnm : ¬ r n m) (hd : ∀ x ∈ d, x = n ∨ x ∈ c) : Sorted r (L ++ d :: R) := by
  obtain ⟨hequiv, hL, hR⟩ := h.beside hm hmn hnm
  obtain ⟨-, hwithin, hleft, hright⟩ := sorted_append_cons.mp h
  refine h.replace (fun x hx y hy => ?_) (fun x hx y hy => ?_) fun x hx y hy => ?_
  · rcases hd x hx with rfl | hx
    · rcases hd y hy with rfl | hy
      · exact irrefl _
      · exact (hequiv y hy).2
    · rcases hd y hy with rfl | hy
      · exact (hequiv x hx).1
      · exact hwithin x hx y hy
  · rcases hd y hy with rfl | hy
    · exact hL x hx
    · exact hleft x hx y hy
  · rcases hd x hx with rfl | hx
    · exact hR y hy
    · exact hright x hx y hy

/-- What is greater than a class is greater than all before it. -/
theorem Sorted.above {m : α} (h : Sorted r (L ++ c :: R)) (hm : m ∈ c) (hmn : r m n) :
    ∀ x ∈ (L ++ [c]).flatten, r x n := by
  obtain ⟨-, hwithin, hleft, -⟩ := sorted_append_cons.mp h
  intro x hx
  rw [List.flatten_append, List.mem_append, List.flatten_singleton] at hx
  rcases hx with hx | hx
  · exact trans_of r (hleft x hx m hm) hmn
  · by_contra hxn
    exact HeapOrder.not_lt_trans (hwithin m hm x hx) hxn hmn

/-- What is less than a class is less than all behind it. -/
theorem Sorted.below {m : α} (h : Sorted r (L ++ c :: R)) (hm : m ∈ c) (hnm : r n m) :
    ∀ x ∈ (c :: R).flatten, r n x := by
  obtain ⟨-, hwithin, -, hright⟩ := sorted_append_cons.mp h
  intro x hx
  rw [List.flatten_cons, List.mem_append] at hx
  rcases hx with hx | hx
  · by_contra hnx
    exact HeapOrder.not_lt_trans hnx (hwithin x hx m hm) hnm
  · exact trans_of r hnm (hright m hm x hx)

end

/-! ## The first nodes of the classes -/

/-- The first node of each class: a node, then those to its right, then those to its left. -/
def NodeTree.firsts : NodeTree α → List α
  | .leaf => []
  | .node a n _ b => n :: (b.firsts ++ a.firsts)

/-- The nodes that are not the first of their class. -/
def NodeTree.others : NodeTree α → List α
  | .leaf => []
  | .node a _ c b => c ++ (b.others ++ a.others)

theorem firsts_perm (t : NodeTree α) : (t.firsts ++ t.others).Perm t.nodes := by
  induction t with
  | leaf => exact .refl _
  | node a n c b iha ihb =>
    rw [nodes_node, NodeTree.firsts, NodeTree.others]
    refine (List.Perm.cons n ?_).trans List.perm_middle.symm
    have hshuffle : ((b.firsts ++ a.firsts) ++ (c ++ (b.others ++ a.others))).Perm
        (a.firsts ++ a.others ++ (c ++ (b.firsts ++ b.others))) := by
      classical
      rw [List.perm_iff_count]
      intro x
      simp only [List.count_append]
      omega
    exact hshuffle.trans (iha.append (ihb.append_left c))

theorem firsts_perm_nodes_iff (t : NodeTree α) : t.firsts.Perm t.nodes ↔ t.others = [] := by
  have hlength := (firsts_perm t).length_eq
  rw [List.length_append] at hlength
  constructor
  · intro hperm
    exact List.eq_nil_of_length_eq_zero (by have := hperm.length_eq; omega)
  · intro hnil
    have hperm := firsts_perm t
    rwa [hnil, List.append_nil] at hperm

theorem classes_eq_map (h : t.others = []) : t.classes = t.nodes.map fun x => [x] := by
  induction t with
  | leaf => rfl
  | node a n c b iha ihb =>
    rw [NodeTree.others, List.append_eq_nil_iff, List.append_eq_nil_iff] at h
    obtain ⟨rfl, hb, ha⟩ := h
    simp [NodeTree.classes, iha ha, ihb hb]

theorem mem_others (h : x ∈ t.others) : ∃ n c, n :: c ∈ t.classes ∧ x ∈ c := by
  induction t with
  | leaf => cases h
  | node a n c b iha ihb =>
    rw [NodeTree.others, List.mem_append, List.mem_append] at h
    simp only [NodeTree.classes, List.mem_append, List.mem_cons]
    rcases h with h | h | h
    · exact ⟨n, c, .inr (.inl rfl), h⟩
    · obtain ⟨m, d, hd, hx⟩ := ihb h
      exact ⟨m, d, .inr (.inr hd), hx⟩
    · obtain ⟨m, d, hd, hx⟩ := iha h
      exact ⟨m, d, .inl hd, hx⟩

/-- Every node is the first of its class exactly if no two nodes are equivalent. -/
theorem Sorted.others_eq_nil_iff {r : α → α → Prop} (h : Sorted r t.classes)
    (hnodup : t.nodes.Nodup) :
    t.others = [] ↔ ∀ x ∈ t.nodes, ∀ y ∈ t.nodes, x ≠ y → r x y ∨ r y x := by
  constructor
  · intro hnil
    have hpair := h.between
    rw [classes_eq_map hnil, List.pairwise_map] at hpair
    have hsymm : t.nodes.Pairwise fun x y => r x y ∨ r y x :=
      hpair.imp fun hxy => .inl (hxy _ (List.mem_singleton_self _) _ (List.mem_singleton_self _))
    have : Std.Symm fun x y => r x y ∨ r y x := ⟨fun _ _ => Or.symm⟩
    exact fun x hx y hy hxy => hsymm.forall hx hy hxy
  · intro hall
    refine List.eq_nil_iff_forall_not_mem.mpr fun x hx => ?_
    obtain ⟨n, c, hc, hxc⟩ := mem_others hx
    have hn : n ∈ t.nodes := List.mem_flatten_of_mem hc List.mem_cons_self
    have hxt : x ∈ t.nodes := List.mem_flatten_of_mem hc (List.mem_cons_of_mem n hxc)
    have hxn : x ≠ n := by
      rintro rfl
      exact (List.nodup_cons.mp ((List.nodup_flatten.mp hnodup).1 _ hc)).1 hxc
    have hwithin := h.within _ hc
    rcases hall x hxt n hn hxn with hless | hless
    · exact hwithin x (List.mem_cons_of_mem n hxc) n List.mem_cons_self hless
    · exact hwithin n List.mem_cons_self x (List.mem_cons_of_mem n hxc) hless

end LinkedTree
