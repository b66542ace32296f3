import Kuhllib.Lib.HandleQueue
import Kuhllib.Lib.LinkedTree
import Kuhllib.Lib.Transition

/-!
# `boost::splay_heap`

A node is named by its pointer, which is its handle. A `node**` points to a location: the
root, the local variable `root` of `splay_max`, or a link of a node. `nodes` are the nodes
that have been created and not deleted, oldest first; a new one has the pointer of none of
them. Access through a null pointer fails.

Results:
1. `splay_max_spec`: the sequence of the nodes stays, and the last ones come to the root.
2. `insert_spec`, `detach_spec`: a node goes in, or out of any place it may have.
3. `splay_refines_queue`: over all runs the heap is a queue with handles that pops a maximum.
-/

namespace Kuhllib.SplayHeap

open HandleQueue LinkedTree Transition

/-! ## Model -/

inductive Variable
  | m_root
  | root
deriving DecidableEq

/-- `cell` is what the locations hold: `n->m_left` is `cell (.left n)`, and so on. -/
structure Heap (α T : Type) where
  nodes : List α
  cell : Loc Variable α → Option α
  m_data : α → T
  m_size : Nat

abbrev m_root {α : Type} : Loc Variable α := .var .m_root

abbrev root {α : Type} : Loc Variable α := .var .root

variable {α T : Type} [DecidableEq α]

def Heap.assign (s : Heap α T) (l : Loc Variable α) (n : Option α) : Heap α T :=
  { s with cell := Function.update s.cell l n }

section

variable (m_compare : T → T → Bool)

/-- The loop at the start of `insert` and of `detach`: it stops at a null pointer, or at the
pointer to a node that is equivalent to `n`. -/
def Heap.descend (s : Heap α T) (n : α) : Nat → Loc Variable α → Option (Loc Variable α)
  | 0, _ => none
  | fuel + 1, child_pointer =>
    match s.cell child_pointer with
    | none => some child_pointer
    | some c =>
      if m_compare (s.m_data c) (s.m_data n) then s.descend n fuel (.right c)
      else if m_compare (s.m_data n) (s.m_data c) then s.descend n fuel (.left c)
      else some child_pointer

def Heap.insert (s : Heap α T) (n : α) : Option (Heap α T) := do
  let child_pointer ← s.descend m_compare n (s.nodes.length + 1) m_root
  match s.cell child_pointer with
  | none => some (s.assign child_pointer (some n))
  | some c =>
    let s := s.assign (.next n) (s.cell (.next c))
    some (s.assign (.next c) (some n))

/-- The loop of `splay_max`, and the last `insert_point`. -/
def Heap.splay_loop (l : Loc Variable α) :
    Nat → Heap α T → Loc Variable α → Option (Heap α T × Loc Variable α)
  | 0, _, _ => none
  | fuel + 1, s, insert_point => do
    let c ← s.cell l
    match s.cell (.right c) with
    | none => some (s, insert_point)
    | some tmp =>
      match s.cell (.right tmp) with
      | some _ =>
        let s := s.assign insert_point (some tmp)
        let s := s.assign (.right c) (s.cell (.left tmp))
        let s := s.assign (.left tmp) (some c)
        let s := s.assign l (s.cell (.right tmp))
        let s := s.assign (.right tmp) none
        splay_loop l fuel s (.right tmp)
      | none =>
        let s := s.assign insert_point (some c)
        let s := s.assign (.right c) none
        let s := s.assign l (some tmp)
        splay_loop l fuel s (.right c)

/-- `splay_max`, where `child_pointer` refers to the location `l`. -/
def Heap.splay_max (s : Heap α T) (l : Loc Variable α) : Option (Heap α T) := do
  let s := s.assign root none
  let (s, insert_point) ← s.splay_loop l s.nodes.length root
  match s.cell root with
  | none => some s
  | some r =>
    let c ← s.cell l
    let s := s.assign insert_point (s.cell (.left c))
    some (s.assign (.left c) (some r))

/-- The loop of `detach` over a chain. -/
def Heap.along (s : Heap α T) (n : α) : Nat → Loc Variable α → Option (Loc Variable α)
  | 0, _ => none
  | fuel + 1, child_pointer => do
    let c ← s.cell child_pointer
    if c = n then some child_pointer else s.along n fuel (.next c)

def Heap.detach (s : Heap α T) (n : α) : Option (Heap α T) := do
  let child_pointer ← s.descend m_compare n (s.nodes.length + 1) m_root
  let tmp ← s.cell child_pointer
  match s.cell (.next tmp) with
  | none =>
    match s.cell (.left tmp) with
    | some _ =>
      let s ← s.splay_max (.left tmp)
      let s := s.assign child_pointer (s.cell (.left tmp))
      let c ← s.cell child_pointer
      let s := s.assign (.right c) (s.cell (.right tmp))
      let s := s.assign (.right tmp) none
      some (s.assign (.left tmp) none)
    | none =>
      let s := s.assign child_pointer (s.cell (.right tmp))
      some (s.assign (.right tmp) none)
  | some c =>
    if tmp = n then
      let s := s.assign child_pointer (some c)
      let s := s.assign (.left c) (s.cell (.left tmp))
      let s := s.assign (.right c) (s.cell (.right tmp))
      let s := s.assign (.right tmp) none
      let s := s.assign (.left tmp) none
      some (s.assign (.next tmp) none)
    else do
      let child_pointer ← s.along n s.nodes.length (.next tmp)
      let tmp ← s.cell child_pointer
      let s := s.assign child_pointer (s.cell (.next tmp))
      some (s.assign (.next tmp) none)

/-- `push(val)`, where the node is created at `p`. -/
def Heap.push (s : Heap α T) (p : α) (val : T) : Option (Heap α T) :=
  let s := { s with
    m_size := s.m_size + 1
    nodes := s.nodes ++ [p]
    m_data := Function.update s.m_data p val }
  let s := ((s.assign (.left p) none).assign (.right p) none).assign (.next p) none
  s.insert m_compare p

/-- The node at the root goes out of the tree. -/
def Heap.unroot (s : Heap α T) (del : α) : Heap α T :=
  match s.cell (.next del) with
  | some c =>
    let s := s.assign m_root (some c)
    let s := s.assign (.left c) (s.cell (.left del))
    s.assign (.right c) (s.cell (.right del))
  | none => s.assign m_root (s.cell (.left del))

/-- `delete n`. -/
def Heap.delete (s : Heap α T) (n : α) : Option (Heap α T) :=
  if n ∈ s.nodes then some { s with nodes := s.nodes.erase n } else none

/-- `change(n, val)`, also `increase` and `decrease`. -/
def Heap.change (s : Heap α T) (n : α) (val : T) : Option (Heap α T) := do
  let s ← s.detach m_compare n
  let s := { s with m_data := Function.update s.m_data n val }
  s.insert m_compare n

def Heap.change_top (s : Heap α T) (val : T) : Option (Heap α T) := do
  let s ← s.splay_max m_root
  let tmp ← s.cell m_root
  let s := s.unroot tmp
  let s := { s with m_data := Function.update s.m_data tmp val }
  s.insert m_compare tmp

def Heap.remove (s : Heap α T) (n : α) : Option (Heap α T) := do
  let s ← s.detach m_compare n
  s.delete n

end

def Heap.top (s : Heap α T) : Option (T × Heap α T) := do
  let s ← s.splay_max m_root
  some (s.m_data (← s.cell m_root), s)

def Heap.pop (s : Heap α T) : Option (Heap α T) := do
  let s ← s.splay_max m_root
  let del ← s.cell m_root
  let s := s.unroot del
  let s := { s with m_size := s.m_size - 1 }
  s.delete del

inductive Label (α T : Type)
  | push (p : α) (val : T)
  | top
  | pop
  | change (n : α) (val : T)
  | change_top (val : T)
  | remove (n : α)

/-- What a caller has to take care of: a new node is none of the nodes, there is a top,
and a handle is the one of a node. -/
def Valid (s : Heap α T) : Label α T → Prop
  | .push p _ => p ∉ s.nodes
  | .top | .pop | .change_top _ => s.nodes ≠ []
  | .change n _ | .remove n => n ∈ s.nodes

instance decidableValid (s : Heap α T) : ∀ l : Label α T, Decidable (Valid s l)
  | .push p _ => inferInstanceAs (Decidable (p ∉ s.nodes))
  | .top | .pop | .change_top _ => inferInstanceAs (Decidable (s.nodes ≠ []))
  | .change n _ | .remove n => inferInstanceAs (Decidable (n ∈ s.nodes))

def exec (m_compare : T → T → Bool) (s : Heap α T) : Label α T → Option (Heap α T)
  | .push p val => s.push m_compare p val
  | .top => s.top.map Prod.snd
  | .pop => s.pop
  | .change n val => s.change m_compare n val
  | .change_top val => s.change_top m_compare val
  | .remove n => s.remove m_compare n

def next (m_compare : T → T → Bool) (s : Heap α T) (l : Label α T) : Option (Heap α T) :=
  if Valid s l then exec m_compare s l else none

def system (α : Type) [DecidableEq α] (m_compare : T → T → Bool) :
    System (Heap α T) (Label α T) where
  init s := s.nodes = [] ∧ s.cell m_root = none ∧ s.m_size = 0
  step s l s' := next m_compare s l = some s'

/-! ## 1. Splaying -/

/-- Links change only. -/
structure Links (s s' : Heap α T) : Prop where
  nodes : s'.nodes = s.nodes
  m_data : s'.m_data = s.m_data
  m_size : s'.m_size = s.m_size

/-- What `splay_max` keeps, from the heap `s₀` with the classes `cs` at `l`: the classes are
those of a tree at the local `root`, followed by those of the tree at `l`. -/
structure Splay (s₀ : Heap α T) (l : Loc Variable α) (cs : List (List α)) (s : Heap α T)
    (insert_point : Loc Variable α) (C : Ctx α) (t : NodeTree α) : Prop extends Links s₀ s where
  ctx : C.At s.cell root insert_point
  after : C.after = []
  hole : s.cell insert_point = none
  tree : Linked s.cell l t
  classes : C.before ++ t.classes = cs
  frame : ∀ j, j ≠ l → j ≠ root → (∀ x ∈ cs.flatten, j.owner ≠ some x) → s.cell j = s₀.cell j

namespace SplayHeapLemmas

section

variable {s₀ s : Heap α T} {l ip : Loc Variable α} {cs : List (List α)} {C : Ctx α}
  {t a b r : NodeTree α} {n m : α} {c d : List α}

omit [DecidableEq α] in
theorem nodes_eq (h : C.after = []) : C.nodes = C.before.flatten := by
  simp [Ctx.nodes, h]

theorem cell_assign_of_ne {j k : Loc Variable α} {x : Option α} (h : j ≠ k) :
    (s.assign k x).cell j = s.cell j :=
  Function.update_of_ne h _ _

omit [DecidableEq α] in
/-- The insert point is no link of the tree that is splayed, and not where it is. -/
theorem insert_point_ne (h : Splay s₀ l cs s ip C t) (hl : l ≠ root) (hcs : cs.flatten.Nodup)
    (hown : ∀ x ∈ cs.flatten, l.owner ≠ some x) :
    ip ≠ l ∧ (∀ x ∈ t.nodes, ip.owner ≠ some x ∧ l.owner ≠ some x) ∧
      (∀ x ∈ C.nodes, l.owner ≠ some x ∧ x ∉ t.nodes) ∧ t.nodes.Nodup ∧ C.nodes.Nodup := by
  have hflatten : cs.flatten = C.nodes ++ t.nodes := by
    rw [nodes_eq h.after, ← h.classes, List.flatten_append, NodeTree.nodes]
  rw [hflatten] at hcs hown
  obtain ⟨hC, ht, hdisjoint⟩ := List.nodup_append.mp hcs
  refine ⟨?_, fun x hx => ⟨?_, hown x (List.mem_append_right _ hx)⟩, fun x hx =>
    ⟨hown x (List.mem_append_left _ hx), fun hxt => hdisjoint x hx x hxt rfl⟩, ht, hC⟩
  · rcases h.ctx.at_hole with ⟨rfl, -⟩ | ⟨x, hx, rfl | rfl⟩
    · exact hl.symm
    all_goals
      rintro rfl
      exact hown x (List.mem_append_left _ hx) rfl
  · rcases h.ctx.at_hole with ⟨rfl, -⟩ | ⟨y, hy, rfl | rfl⟩
    · simp [Loc.owner]
    all_goals
      intro he
      exact hdisjoint y hy x hx (Option.some.inj he)

omit [DecidableEq α] in
/-- What is written between two steps is in the tree that is splayed, or around it. -/
theorem frame_of_keep {s' : Heap α T} (h : Splay s₀ l cs s ip C t)
    (hkeep : ∀ j, j ≠ ip → j ≠ l → (∀ x ∈ t.nodes, j.owner ≠ some x) → s'.cell j = s.cell j) :
    ∀ j, j ≠ l → j ≠ root → (∀ x ∈ cs.flatten, j.owner ≠ some x) → s'.cell j = s₀.cell j := by
  intro j hjl hjroot hj
  have hmem : ∀ x ∈ C.nodes ++ t.nodes, j.owner ≠ some x := by
    intro x hx
    refine hj x ?_
    rwa [← h.classes, List.flatten_append, ← nodes_eq h.after]
  refine (hkeep j ?_ hjl fun x hx => hmem x (List.mem_append_right _ hx)).trans
    (h.frame j hjl hjroot hj)
  rcases h.ctx.at_hole with ⟨rfl, -⟩ | ⟨x, hx, rfl | rfl⟩
  · exact hjroot
  all_goals
    rintro rfl
    exact hmem x (List.mem_append_left _ hx) rfl

omit [DecidableEq α] in
/-- What is written outside of the context keeps it. -/
theorem ctx_of_keep {s' : Heap α T} (h : Splay s₀ l cs s ip C t) (hl : l ≠ root)
    (hcs : cs.flatten.Nodup) (hown : ∀ x ∈ cs.flatten, l.owner ≠ some x)
    (hkeep : ∀ j, j ≠ ip → j ≠ l → (∀ x ∈ t.nodes, j.owner ≠ some x) → s'.cell j = s.cell j) :
    C.At s'.cell root ip := by
  obtain ⟨hipl, ht, hC, hnodup, hCnodup⟩ := insert_point_ne h hl hcs hown
  refine h.ctx.congr hCnodup (fun x _ => by simp [Loc.owner])
    (fun hroot => hkeep root hroot hl.symm fun x _ => by simp [Loc.owner]) fun j x hx hj hjip => ?_
  refine hkeep j hjip ?_ fun y hy he => ?_
  · rintro rfl
    exact (hC x hx).1 hj
  · obtain rfl : x = y := Option.some.inj (hj.symm.trans he)
    exact (hC x hx).2 hy

omit [DecidableEq α] in
theorem splay_zigzig {s' : Heap α T} (h : Splay s₀ l cs s ip C (.node a n c (.node b m d r)))
    (hl : l ≠ root) (hcs : cs.flatten.Nodup) (hown : ∀ x ∈ cs.flatten, l.owner ≠ some x)
    (hlinks : Links s s') (hip : s'.cell ip = some m)
    (hright : s'.cell (.right n) = s.cell (.left m)) (hleft : s'.cell (.left m) = some n)
    (htop : s'.cell l = s.cell (.right m)) (hnil : s'.cell (.right m) = none)
    (hkeep : ∀ j, j ≠ ip → j ≠ .right n → j ≠ .left m → j ≠ l → j ≠ .right m →
      s'.cell j = s.cell j) :
    Splay s₀ l cs s' (.right m) (C.comp (.right (.node a n c b) m d .hole)) r := by
  obtain ⟨hipl, ht, hC, hnodup, hCnodup⟩ := insert_point_ne h hl hcs hown
  have hother : ∀ j, j ≠ ip → j ≠ l →
      (∀ x ∈ (NodeTree.node a n c (.node b m d r)).nodes, j.owner ≠ some x) →
      s'.cell j = s.cell j := by
    intro j hjip hjl hj
    refine hkeep j hjip (fun he => ?_) (fun he => ?_) hjl fun he => ?_
    all_goals
      refine hj _ ?_ (congrArg Loc.owner he)
      simp
  have hlink (j : Loc Variable α) (x : α) (hj : j.owner = some x)
      (hx : x ∈ (NodeTree.node a n c (.node b m d r)).nodes) (h₁ : j ≠ .right n) (h₂ : j ≠ .left m)
      (h₃ : j ≠ .right m) : s'.cell j = s.cell j := by
    refine hkeep j ?_ h₁ h₂ ?_ h₃
    · rintro rfl
      exact (ht x hx).1 hj
    · rintro rfl
      exact (ht x hx).2 hj
  obtain ⟨-, ha, hc, -, hb, hd, hr⟩ := h.tree
  rw [nodes_node, nodes_node] at hlink hnodup
  obtain ⟨hnm, hapart⟩ : n ≠ m ∧ ∀ x ∈ a.nodes ++ (c ++ (b.nodes ++ (d ++ r.nodes))),
      x ≠ n ∧ x ≠ m := by
    have hperm := @List.perm_middle _ m (a.nodes ++ n :: (c ++ b.nodes)) (d ++ r.nodes)
    have hfirst := @List.perm_middle _ n (m :: a.nodes) (c ++ (b.nodes ++ (d ++ r.nodes)))
    simp only [List.append_assoc, List.cons_append] at hperm hfirst
    rw [(hperm.trans hfirst).nodup_iff, List.nodup_cons, List.nodup_cons, List.mem_cons,
      not_or] at hnodup
    obtain ⟨⟨hnm, hn⟩, hm, -⟩ := hnodup
    exact ⟨hnm, fun x hx => ⟨fun he => hn (he ▸ hx), fun he => hm (he ▸ hx)⟩⟩
  have hfar (j : Loc Variable α) (x : α) (hx : x ∈ a.nodes ++ (c ++ (b.nodes ++ (d ++ r.nodes))))
      (hj : j.owner = some x) : s'.cell j = s.cell j := by
    obtain ⟨hn, hm⟩ := hapart x hx
    refine hlink j x hj ?_ (Loc.ne_of_owner hj rfl hn) (Loc.ne_of_owner hj rfl hm)
      (Loc.ne_of_owner hj rfl hm)
    simp only [List.mem_append, List.mem_cons] at hx ⊢
    tauto
  refine ⟨⟨hlinks.nodes.trans h.nodes, hlinks.m_data.trans h.m_data,
    hlinks.m_size.trans h.m_size⟩, ?_, ?_, hnil, ?_, ?_, frame_of_keep h hother⟩
  · refine (ctx_of_keep h hl hcs hown hother).comp ⟨hip, ⟨hleft, ?_, ?_, ?_⟩, ?_, rfl⟩
    · exact ha.move (hlink _ n rfl (by simp) (by simp) (by simp [hnm]) (by simp)) fun j x hx =>
        hfar j x (by simp [hx])
    · exact hc.move (hlink _ n rfl (by simp) (by simp) (by simp) (by simp)) fun j x hx =>
        hfar j x (by simp [hx])
    · exact hb.move hright fun j x hx => hfar j x (by simp [hx])
    · exact hd.move (hlink _ m rfl (by simp) (by simp) (by simp) (by simp)) fun j x hx =>
        hfar j x (by simp [hx])
  · simp [h.after, Ctx.after]
  · exact hr.move htop fun j x hx => hfar j x (by simp [hx])
  · rw [before_comp, ← h.classes]
    simp [Ctx.before, NodeTree.classes]

omit [DecidableEq α] in
theorem splay_zig {s' : Heap α T} (h : Splay s₀ l cs s ip C (.node a n c (.node b m d .leaf)))
    (hl : l ≠ root) (hcs : cs.flatten.Nodup) (hown : ∀ x ∈ cs.flatten, l.owner ≠ some x)
    (hlinks : Links s s') (hip : s'.cell ip = some n) (hright : s'.cell (.right n) = none)
    (htop : s'.cell l = some m)
    (hkeep : ∀ j, j ≠ ip → j ≠ .right n → j ≠ l → s'.cell j = s.cell j) :
    Splay s₀ l cs s' (.right n) (C.comp (.right a n c .hole)) (.node b m d .leaf) := by
  obtain ⟨hipl, ht, hC, hnodup, hCnodup⟩ := insert_point_ne h hl hcs hown
  have hother : ∀ j, j ≠ ip → j ≠ l →
      (∀ x ∈ (NodeTree.node a n c (.node b m d .leaf)).nodes, j.owner ≠ some x) →
      s'.cell j = s.cell j := by
    intro j hjip hjl hj
    refine hkeep j hjip (fun he => ?_) hjl
    refine hj n ?_ (congrArg Loc.owner he)
    simp
  have hlink (j : Loc Variable α) (x : α) (hj : j.owner = some x)
      (hx : x ∈ (NodeTree.node a n c (.node b m d .leaf)).nodes) (h₁ : j ≠ .right n) :
      s'.cell j = s.cell j := by
    refine hkeep j ?_ h₁ ?_
    · rintro rfl
      exact (ht x hx).1 hj
    · rintro rfl
      exact (ht x hx).2 hj
  obtain ⟨-, ha, hc, -, hb, hd, hleaf⟩ := h.tree
  rw [nodes_node, nodes_node] at hlink hnodup
  have hapart : ∀ x ∈ a.nodes ++ (c ++ (b.nodes ++ m :: d)), x ≠ n := by
    rw [nodes_leaf, List.append_nil, List.perm_middle.nodup_iff, List.nodup_cons] at hnodup
    exact fun x hx he => hnodup.1 (he ▸ hx)
  have hfar (j : Loc Variable α) (x : α) (hx : x ∈ a.nodes ++ (c ++ (b.nodes ++ m :: d)))
      (hj : j.owner = some x) : s'.cell j = s.cell j := by
    refine hlink j x hj ?_ (Loc.ne_of_owner hj rfl (hapart x hx))
    simp only [List.mem_append, List.mem_cons] at hx ⊢
    tauto
  have hm (j : Loc Variable α) (hj : j.owner = some m) : s'.cell j = s.cell j :=
    hfar j m (by simp) hj
  refine ⟨⟨hlinks.nodes.trans h.nodes, hlinks.m_data.trans h.m_data,
    hlinks.m_size.trans h.m_size⟩, ?_, ?_, hright, ⟨htop, ?_, ?_, ?_⟩, ?_, frame_of_keep h hother⟩
  · refine (ctx_of_keep h hl hcs hown hother).comp ⟨hip, ?_, ?_, rfl⟩
    · exact ha.move (hlink _ n rfl (by simp) (by simp)) fun j x hx => hfar j x (by simp [hx])
    · exact hc.move (hlink _ n rfl (by simp) (by simp)) fun j x hx => hfar j x (by simp [hx])
  · simp [h.after, Ctx.after]
  · exact hb.move (hm _ rfl) fun j x hx => hfar j x (by simp [hx])
  · exact hd.move (hm _ rfl) fun j x hx => hfar j x (by simp [hx])
  · exact (hm _ rfl).trans hleaf
  · rw [before_comp, ← h.classes]
    simp [Ctx.before, NodeTree.classes]

theorem splay_loop_spec {fuel : Nat} (h : Splay s₀ l cs s ip C t) (ht : t ≠ .leaf) (hl : l ≠ root)
    (hcs : cs.flatten.Nodup) (hown : ∀ x ∈ cs.flatten, l.owner ≠ some x)
    (hfuel : t.nodes.length ≤ fuel) :
    ∃ s' ip' C' a n c, Heap.splay_loop l fuel s ip = some (s', ip') ∧
      Splay s₀ l cs s' ip' C' (.node a n c .leaf) := by
  induction fuel generalizing s ip C t with
  | zero =>
    cases t with
    | leaf => exact (ht rfl).elim
    | node a n c b => simp at hfuel
  | succ fuel ih =>
    cases t with
    | leaf => exact (ht rfl).elim
    | node a n c b =>
      have hn := h.tree.1
      cases b with
      | leaf =>
        have hright : s.cell (.right n) = none := h.tree.2.2.2
        refine ⟨s, ip, C, a, n, c, ?_, h⟩
        simp only [Heap.splay_loop, hn, hright, Option.bind_eq_bind, Option.bind_some]
      | node b m d r =>
        have hm : s.cell (.right n) = some m := h.tree.2.2.2.1
        obtain ⟨hipl, hout, -, hnodup, -⟩ := insert_point_ne h hl hcs hown
        have hnm : n ≠ m := by
          rw [nodes_node, nodes_node] at hnodup
          clear hout ih
          grind
        have hne (x : α) (hx : x ∈ (NodeTree.node a n c (.node b m d r)).nodes) (j : Loc Variable α)
            (hj : j.owner = some x) : j ≠ ip ∧ j ≠ l :=
          ⟨fun he => (hout x hx).1 (he ▸ hj), fun he => (hout x hx).2 (he ▸ hj)⟩
        have hrn := hne n (by simp) (.right n) rfl
        have hlm := hne m (by simp) (.left m) rfl
        have hrm := hne m (by simp) (.right m) rfl
        simp only [nodes_node, List.length_append, List.length_cons] at hfuel
        cases r with
        | leaf =>
          have hmr : s.cell (.right m) = none := h.tree.2.2.2.2.2.2
          let s' := ((s.assign ip (some n)).assign (.right n) none).assign l (some m)
          have hstep : Splay s₀ l cs s' (.right n) (C.comp (.right a n c .hole))
              (.node b m d .leaf) := by
            refine splay_zig h hl hcs hown ⟨rfl, rfl, rfl⟩ ?_ ?_ ?_ fun j h₁ h₂ h₃ => ?_
            · simp [s', Heap.assign, hipl, hrn.1.symm]
            · simp [s', Heap.assign, hrn.2]
            · simp [s', Heap.assign]
            · simp [s', Heap.assign, h₁, h₂, h₃]
          obtain ⟨s'', ip', C', a', n', c', hs, hspec⟩ := ih hstep nofun (by
            simp only [nodes_node, List.length_append, List.length_cons]
            omega)
          refine ⟨s'', ip', C', a', n', c', ?_, hspec⟩
          simp only [Heap.splay_loop, hn, hm, hmr, Option.bind_eq_bind, Option.bind_some]
          exact hs
        | node r₁ k e r₂ =>
          have hmr : s.cell (.right m) = some k := h.tree.2.2.2.2.2.2.1
          let s' := ((((s.assign ip (some m)).assign (.right n) (s.cell (.left m))).assign
            (.left m) (some n)).assign l (s.cell (.right m))).assign (.right m) none
          have hstep : Splay s₀ l cs s' (.right m) (C.comp (.right (.node a n c b) m d .hole))
              (.node r₁ k e r₂) := by
            refine splay_zigzig h hl hcs hown ⟨rfl, rfl, rfl⟩ ?_ ?_ ?_ ?_ ?_
              fun j h₁ h₂ h₃ h₄ h₅ => ?_
            · simp [s', Heap.assign, hipl, hrn.1.symm, hlm.1.symm, hrm.1.symm]
            · simp [s', Heap.assign, hnm, hrn.2]
            · simp [s', Heap.assign, hlm.2]
            · simp [s', Heap.assign, hrm.2.symm]
            · simp [s', Heap.assign]
            · simp [s', Heap.assign, h₁, h₂, h₃, h₄, h₅]
          obtain ⟨s'', ip', C', a', n', c', hs, hspec⟩ := ih hstep nofun (by
            simp only [nodes_node, List.length_append, List.length_cons] at hfuel ⊢
            omega)
          refine ⟨s'', ip', C', a', n', c', ?_, hspec⟩
          simp only [Heap.splay_loop, hn, hm, hmr, Option.bind_eq_bind, Option.bind_some]
          rw [cell_assign_of_ne hlm.1, cell_assign_of_ne (by simp),
            cell_assign_of_ne (by simp [hnm.symm]), cell_assign_of_ne hrm.1]
          exact hs

end

end SplayHeapLemmas

open SplayHeapLemmas in
/-- The sequence of the nodes stays, and the last ones come to the place of the root. -/
theorem splay_max_spec {s : Heap α T} {l : Loc Variable α} {t : NodeTree α} (h : Linked s.cell l t)
    (ht : t ≠ .leaf) (hl : l ≠ root) (hnodup : t.nodes.Nodup)
    (hown : ∀ x ∈ t.nodes, l.owner ≠ some x) (hfuel : t.nodes.length ≤ s.nodes.length) :
    ∃ s' a n c, s.splay_max l = some s' ∧ Links s s' ∧ Linked s'.cell l (.node a n c .leaf) ∧
      (NodeTree.node a n c .leaf).classes = t.classes ∧
      ∀ j, j ≠ l → j ≠ root → (∀ x ∈ t.nodes, j.owner ≠ some x) → s'.cell j = s.cell j := by
  have hstart : Splay s l t.classes (s.assign root none) root .hole t := by
    refine ⟨⟨rfl, rfl, rfl⟩, rfl, rfl, by simp [Heap.assign], ?_, rfl, fun j _ hj _ =>
      cell_assign_of_ne hj⟩
    refine h.move (cell_assign_of_ne hl) fun j x _ hj => cell_assign_of_ne ?_
    rintro rfl
    cases hj
  obtain ⟨s₁, ip, C, a, n, c, hloop, hs⟩ := splay_loop_spec hstart ht hl hnodup hown hfuel
  have hn := hs.tree.1
  have hall : (NodeTree.node (C.plug a) n c .leaf).classes = t.classes := by
    simp [← hs.classes, NodeTree.classes, hs.after]
  have hlength : (s.assign root none).nodes.length = s.nodes.length := rfl
  by_cases hhole : C = .hole
  · subst hhole
    obtain rfl : ip = root := hs.ctx
    refine ⟨s₁, a, n, c, ?_, hs.toLinks, hs.tree, hall, hs.frame⟩
    simp only [Heap.splay_max, hlength, hloop, hs.hole, Option.bind_eq_bind, Option.bind_some]
  · obtain ⟨hipl, hout, hC, hnodup₁, -⟩ := insert_point_ne hs hl hnodup hown
    obtain ⟨m, hroot⟩ := hs.ctx.head hhole
    let s' := (s₁.assign ip (s₁.cell (.left n))).assign (.left n) (some m)
    have hne (x : α) (hx : x ∈ (NodeTree.node a n c .leaf).nodes) (j : Loc Variable α)
        (hj : j.owner = some x) : j ≠ ip ∧ j ≠ l :=
      ⟨fun he => (hout x hx).1 (he ▸ hj), fun he => (hout x hx).2 (he ▸ hj)⟩
    have hln := hne n (by simp) (.left n) rfl
    have hkeep (j : Loc Variable α) (hj : j ≠ ip) (hjn : j ≠ .left n) : s'.cell j = s₁.cell j :=
      (cell_assign_of_ne hjn).trans (cell_assign_of_ne hj)
    have hother : ∀ j, j ≠ ip → j ≠ l →
        (∀ x ∈ (NodeTree.node a n c .leaf).nodes, j.owner ≠ some x) → s'.cell j = s₁.cell j :=
      fun j hj _ hx => hkeep j hj fun he => hx n (by simp) (congrArg Loc.owner he)
    have hip : s'.cell ip = s₁.cell (.left n) :=
      (cell_assign_of_ne hln.1.symm).trans (by simp [Heap.assign])
    obtain ⟨-, ha, hc, hright⟩ := hs.tree
    rw [nodes_node] at hne
    obtain ⟨-, hapart, -⟩ := nodup_node hnodup₁
    have ha' : Linked s'.cell ip a := ha.move hip fun j x hx hj =>
      hkeep j (hne x (by simp [hx]) j hj).1 (Loc.ne_of_owner hj rfl (hapart x (by simp [hx])))
    have hplug := (ctx_of_keep hs hl hnodup hown hother).plug ha'
    refine ⟨s', C.plug a, n, c, ?_, ⟨hs.nodes, hs.m_data, hs.m_size⟩, ⟨?_, ?_, ?_, ?_⟩, hall,
      frame_of_keep hs hother⟩
    · simp only [Heap.splay_max, hlength, hloop, hroot, hn, Option.bind_eq_bind, Option.bind_some]
      rfl
    · exact (hkeep l hipl.symm hln.2.symm).trans hn
    · refine hplug.move ?_ fun _ _ _ _ => rfl
      have hne : root ≠ ip := by
        rintro rfl
        cases hroot.symm.trans hs.hole
      rw [hkeep root hne (by simp), hroot]
      simp [s', Heap.assign]
    · exact hc.move (hkeep _ (hne n (by simp) _ rfl).1 (by simp)) fun j x hx hj =>
        hkeep j (hne x (by simp [hx]) j hj).1 (Loc.ne_of_owner hj rfl (hapart x (by simp [hx])))
    · exact (hkeep _ (hne n (by simp) (.right n) rfl).1 (by simp)).trans hright

/-! ## 2. Insertion and removal -/

section

variable (m_compare : T → T → Bool)

def Heap.less (s : Heap α T) (x y : α) : Prop := m_compare (s.m_data x) (s.m_data y) = true

end

/-- What `insert` needs and `detach` leaves behind: a node without links. -/
structure Free (s : Heap α T) (n : α) : Prop where
  left : s.cell (.left n) = none
  right : s.cell (.right n) = none
  next : s.cell (.next n) = none

/-- Where `n` belongs in the tree `t` at `l`: the hole `k` of the context `C`, with the nodes
that are equivalent to `n` at the top of what is there. -/
structure Place (m_compare : T → T → Bool) (s : Heap α T) (n : α) (l : Loc Variable α)
    (t : NodeTree α) (k : Loc Variable α) (C : Ctx α) (u : NodeTree α) : Prop where
  tree : t = C.plug u
  ctx : C.At s.cell l k
  sub : Linked s.cell k u
  before : ∀ x ∈ C.before.flatten, s.less m_compare x n
  after : ∀ x ∈ C.after.flatten, s.less m_compare n x
  equivalent : ∀ a m c b, u = .node a m c b → ¬ s.less m_compare m n ∧ ¬ s.less m_compare n m

/-- `n` is taken out of the tree at the hole `k` of the context `C`, and the tree `u` is left. -/
structure Cut (s s' : Heap α T) (n : α) (k : Loc Variable α) (C : Ctx α) (u : NodeTree α) : Prop
    extends Links s s', Free s' n where
  sub : Linked s'.cell k u
  keep : ∀ j, j ≠ k → j = m_root ∨ (∃ x ∈ C.nodes, j.owner = some x) → s'.cell j = s.cell j

namespace SplayHeapLemmas

section

variable {m_compare : T → T → Bool} {s : Heap α T} {l k : Loc Variable α} {C : Ctx α}
  {t u a b : NodeTree α} {n m : α} {c : List α}

instance [h : IsStrictWeakOrder T (m_compare · ·)] : IsStrictWeakOrder α (s.less m_compare) :=
  inferInstanceAs (IsStrictWeakOrder α (Function.onFun (m_compare · ·) s.m_data))

variable [IsStrictWeakOrder T (m_compare · ·)]

omit [DecidableEq α] in
theorem descend_spec {fuel : Nat} (h : Linked s.cell l t)
    (hs : Sorted (s.less m_compare) t.classes) (hfuel : t.nodes.length < fuel) (n : α) :
    ∃ k C u, s.descend m_compare n fuel l = some k ∧ Place m_compare s n l t k C u := by
  induction t generalizing l fuel with
  | leaf =>
    obtain ⟨fuel, rfl⟩ := Nat.exists_eq_succ_of_ne_zero (Nat.ne_of_gt hfuel)
    refine ⟨l, .hole, .leaf, ?_, rfl, rfl, h, by simp [Ctx.before], by simp [Ctx.after], nofun⟩
    simp only [Heap.descend, show s.cell l = none from h]
  | node a m c b iha ihb =>
    obtain ⟨fuel, rfl⟩ := Nat.exists_eq_succ_of_ne_zero (Nat.ne_of_gt (Nat.zero_lt_of_lt hfuel))
    simp only [nodes_node, List.length_append, List.length_cons] at hfuel
    have hstep : s.descend m_compare n (fuel + 1) l =
        if m_compare (s.m_data m) (s.m_data n) then s.descend m_compare n fuel (.right m)
        else if m_compare (s.m_data n) (s.m_data m) then s.descend m_compare n fuel (.left m)
        else some l := by
      simp only [Heap.descend, h.1]
    rw [hstep]
    by_cases hmn : s.less m_compare m n
    · obtain ⟨k, C, u, hk, hp⟩ := ihb h.2.2.2
        (hs.sublist ((List.sublist_cons_self _ _).trans (List.sublist_append_right _ _)))
        (Nat.lt_of_lt_of_le (Nat.lt_succ_self _) (by omega : b.nodes.length + 1 ≤ fuel))
      refine ⟨k, .right a m c C, u, (if_pos hmn).trans hk, congrArg _ hp.tree,
        ⟨h.1, h.2.1, h.2.2.1, hp.ctx⟩, hp.sub, fun x hx => ?_, hp.after, hp.equivalent⟩
      have habove := hs.above List.mem_cons_self hmn
      simp only [Ctx.before, List.flatten_append, List.flatten_cons, List.mem_append] at hx
      rcases hx with hx | hx | hx
      · exact habove x (by simp [hx])
      · exact habove x (by simp [hx])
      · exact hp.before x hx
    · by_cases hnm : s.less m_compare n m
      · obtain ⟨k, C, u, hk, hp⟩ := iha h.2.1 (hs.sublist (List.sublist_append_left _ _))
          (Nat.lt_of_lt_of_le (Nat.lt_succ_self _) (by omega : a.nodes.length + 1 ≤ fuel))
        refine ⟨k, .left C m c b, u, ((if_neg hmn).trans (if_pos hnm)).trans hk,
          congrArg (NodeTree.node · m c b) hp.tree,
          ⟨h.1, hp.ctx, h.2.2.1, h.2.2.2⟩, hp.sub, hp.before, fun x hx => ?_, hp.equivalent⟩
        have hbelow := hs.below List.mem_cons_self hnm
        simp only [Ctx.after, List.flatten_append, List.mem_append] at hx
        rcases hx with hx | hx
        · exact hp.after x hx
        · exact hbelow x hx
      · refine ⟨l, .hole, .node a m c b, (if_neg hmn).trans (if_neg hnm), rfl, rfl, h,
          by simp [Ctx.before], by simp [Ctx.after], ?_⟩
        rintro a' m' c' b' he
        cases he
        exact ⟨hmn, hnm⟩

omit [DecidableEq α] [IsStrictWeakOrder T (m_compare · ·)] in
/-- The tree gets another subtree at the hole. -/
theorem replant {s' : Heap α T} (hC : C.At s.cell m_root k) (hnodup : C.nodes.Nodup)
    (hkeep : ∀ j, j ≠ k → j = m_root ∨ (∃ x ∈ C.nodes, j.owner = some x) → s'.cell j = s.cell j)
    (hu : Linked s'.cell k u) : Linked s'.cell m_root (C.plug u) :=
  (hC.congr hnodup (fun x _ => by simp [Loc.owner]) (fun hk => hkeep _ hk (.inl rfl))
    fun j x hx hj hjk => hkeep j hjk (.inr ⟨x, hx, hj⟩)).plug hu

omit [DecidableEq α] [IsStrictWeakOrder T (m_compare · ·)] in
/-- The links below the hole are neither the hole nor around it. -/
theorem below_hole {j : Loc Variable α} {x : α} (hC : C.At s.cell m_root k)
    (hnodup : (u.nodes ++ C.nodes).Nodup) (hx : x ∈ u.nodes) (hj : j.owner = some x) :
    j ≠ k ∧ ¬ (j = m_root ∨ ∃ y ∈ C.nodes, j.owner = some y) := by
  have hdisjoint := (List.nodup_append.mp hnodup).2.2 x hx
  have hroot : j ≠ m_root := by
    rintro rfl
    cases hj
  have hne (y : α) (hy : y ∈ C.nodes) : j.owner ≠ some y := fun he =>
    hdisjoint y hy (Option.some.inj (hj.symm.trans he))
  refine ⟨hC.ne_hole hroot hne, ?_⟩
  rintro (he | ⟨y, hy, he⟩)
  · exact hroot he
  · exact hne y hy he

omit [IsStrictWeakOrder T (m_compare · ·)] in
/-- The only node of its class, without a left subtree. -/
theorem detach_right (hk : s.descend m_compare n (s.nodes.length + 1) m_root = some k)
    (hC : C.At s.cell m_root k) (hu : Linked s.cell k (.node .leaf n [] b))
    (hnodup : ((NodeTree.node .leaf n [] b).nodes ++ C.nodes).Nodup) :
    ∃ s', s.detach m_compare n = some s' ∧ Cut s s' n k C b := by
  have hbelow (j : Loc Variable α) (x : α) (hx : x ∈ (NodeTree.node .leaf n [] b).nodes)
      (hj : j.owner = some x) := below_hole hC hnodup hx hj
  obtain ⟨hn, hleft, hnext, hb⟩ := hu
  have hunodup := (List.nodup_append.mp hnodup).1
  rw [nodes_node] at hunodup hbelow
  let s' := (s.assign k (s.cell (.right n))).assign (.right n) none
  have hkeep (j : Loc Variable α) (hjk : j ≠ k) (hjn : j ≠ .right n) : s'.cell j = s.cell j :=
    (cell_assign_of_ne hjn).trans (cell_assign_of_ne hjk)
  have hrn := hbelow (.right n) n (by simp) rfl
  refine ⟨s', ?_, ⟨rfl, rfl, rfl⟩, ⟨?_, ?_, ?_⟩, ?_, fun j hj hat => hkeep j hj ?_⟩
  · simp only [Heap.detach, hk, hn, show s.cell (.next n) = none from hnext,
      show s.cell (.left n) = none from hleft, Option.bind_eq_bind, Option.bind_some]
    rfl
  · exact (hkeep _ (hbelow _ n (by simp) rfl).1 (by simp)).trans hleft
  · simp [s', Heap.assign]
  · exact (hkeep _ (hbelow _ n (by simp) rfl).1 (by simp)).trans hnext
  · refine hb.move ?_ fun j x hx hj => hkeep j (hbelow j x (by simp [hx]) hj).1 ?_
    · simp [s', Heap.assign, hrn.1.symm]
    · refine Loc.ne_of_owner hj rfl ?_
      rintro rfl
      simp at hunodup
      exact hunodup.1 hx
  · rintro rfl
    exact hrn.2 hat

omit [IsStrictWeakOrder T (m_compare · ·)] in
/-- The only node of its class, with a left subtree. -/
theorem detach_left (hk : s.descend m_compare n (s.nodes.length + 1) m_root = some k)
    (hC : C.At s.cell m_root k) (hu : Linked s.cell k (.node a n [] b)) (ha : a ≠ .leaf)
    (hnodup : ((NodeTree.node a n [] b).nodes ++ C.nodes).Nodup)
    (hfuel : a.nodes.length ≤ s.nodes.length) :
    ∃ s' a' m c, s.detach m_compare n = some s' ∧ Cut s s' n k C (.node a' m c b) ∧
      (NodeTree.node a' m c .leaf).classes = a.classes := by
  have hbelow (j : Loc Variable α) (x : α) (hx : x ∈ (NodeTree.node a n [] b).nodes)
      (hj : j.owner = some x) := below_hole hC hnodup hx hj
  obtain ⟨hn, hleft, hnext, hb⟩ := hu
  have hunodup := (List.nodup_append.mp hnodup).1
  rw [nodes_node] at hunodup hbelow
  obtain ⟨hanodup, -, hadisjoint⟩ := List.nodup_append.mp hunodup
  obtain ⟨x, hx⟩ : ∃ x, s.cell (.left n) = some x := by
    cases a with
    | leaf => exact (ha rfl).elim
    | node a₁ x c₁ b₁ => exact ⟨x, hleft.1⟩
  obtain ⟨s₁, a', m, c, hs₁, hlinks, htree, hclasses, hframe⟩ :=
    splay_max_spec hleft ha (by simp) hanodup
      (fun y hy he => hadisjoint y hy n (by simp) (Option.some.inj he).symm) hfuel
  have hm : m ∈ a.nodes := by
    rw [NodeTree.nodes, ← hclasses]
    simp [NodeTree.classes]
  obtain ⟨hm₁, ha', hc, -⟩ := htree
  have hmn : m ≠ n := hadisjoint m hm n (by simp)
  -- the splay operation writes below `n`, the rest at `n`, at `k` and to the new top
  have hkeep₁ (j : Loc Variable α) (hjn : j ≠ .left n) (hroot : j ≠ root)
      (hj : ∀ y ∈ a.nodes, j.owner ≠ some y) : s₁.cell j = s.cell j := hframe j hjn hroot hj
  let s' := (((s₁.assign k (some m)).assign (.right m) (s.cell (.right n))).assign (.right n)
    none).assign (.left n) none
  have hkeep (j : Loc Variable α) (hjk : j ≠ k) (hjm : j ≠ .right m) (hjr : j ≠ .right n)
      (hjl : j ≠ .left n) : s'.cell j = s₁.cell j :=
    (cell_assign_of_ne hjl).trans <| (cell_assign_of_ne hjr).trans <|
      (cell_assign_of_ne hjm).trans (cell_assign_of_ne hjk)
  have hn_ne (y : α) (hy : y ∈ a.nodes) : n ≠ y := fun he => hadisjoint y hy n (by simp) he.symm
  have hln := (hbelow (.left n) n (by simp) rfl).1
  have hrn := (hbelow (.right n) n (by simp) rfl).1
  have hrm := (hbelow (.right m) m (by simp [hm]) rfl).1
  have hrn₁ : s₁.cell (.right n) = s.cell (.right n) :=
    hkeep₁ _ (by simp) (by simp) fun y hy he => hn_ne y hy (Option.some.inj he)
  have hnext₁ : s₁.cell (.next n) = none :=
    (hkeep₁ (.next n) (by simp) (by simp)
      fun y hy he => hn_ne y hy (Option.some.inj he)).trans hnext
  have hnodes : a.nodes = a'.nodes ++ m :: c := by
    simp [NodeTree.nodes, ← hclasses, NodeTree.classes]
  have hold (j : Loc Variable α) (y : α) (hy : y ∈ a.nodes) (hj : j.owner = some y)
      (hjm : j ≠ .right m) : s'.cell j = s₁.cell j := by
    have hyn := (hn_ne y hy).symm
    exact hkeep j (hbelow j y (by simp [hy]) hj).1 hjm (Loc.ne_of_owner hj rfl hyn)
      (Loc.ne_of_owner hj rfl hyn)
  have hfar (j : Loc Variable α) (hjk : j ≠ k) (hroot : j ≠ root) (hjn : j.owner ≠ some n)
      (hja : ∀ y ∈ a.nodes, j.owner ≠ some y) : s'.cell j = s.cell j := by
    refine (hkeep j hjk ?_ ?_ ?_).trans (hkeep₁ j ?_ hroot hja)
    · rintro rfl
      exact hja m hm rfl
    all_goals
      rintro rfl
      exact hjn rfl
  refine ⟨s', a', m, c, ?_, ⟨⟨hlinks.nodes, hlinks.m_data, hlinks.m_size⟩, ⟨?_, ?_, ?_⟩,
    ⟨?_, ?_, ?_, ?_⟩, fun j hj hat => ?_⟩, hclasses⟩
  · have hk₂ : (s₁.assign k (some m)).cell k = some m := by simp [Heap.assign]
    simp only [Heap.detach, hk, hn, show s.cell (.next n) = none from hnext, hx, hs₁, hm₁, hk₂,
      cell_assign_of_ne hrn, hrn₁, Option.bind_eq_bind, Option.bind_some]
    rfl
  · simp [s', Heap.assign]
  · simp [s', Heap.assign]
  · exact (hkeep _ (hbelow _ n (by simp) rfl).1 (by simp) (by simp) (by simp)).trans hnext₁
  · simp [s', Heap.assign, hln.symm, hrn.symm, hrm.symm]
  · rw [hnodes] at hold hanodup
    refine ha'.move (hold _ m (by simp) rfl (by simp)) fun j y hy hj =>
      hold j y (by simp [hy]) hj ?_
    rintro rfl
    obtain rfl : m = y := Option.some.inj hj
    grind
  · rw [hnodes] at hold hanodup
    refine hc.move (hold _ m (by simp) rfl (by simp)) fun j y hy hj => hold j y (by simp [hy]) hj ?_
    rintro rfl
    obtain rfl : m = y := Option.some.inj hj
    grind
  · refine hb.move ?_ fun j y hy hj => ?_
    · simp [s', Heap.assign, hmn]
    · refine hfar j (hbelow j y (by simp [hy]) hj).1 ?_ ?_ fun z hz he => ?_
      · rintro rfl
        cases hj
      · intro he
        obtain rfl : y = n := Option.some.inj (hj.symm.trans he)
        exact (List.nodup_cons.mp (List.nodup_append.mp hunodup).2.1).1 (by simp [hy])
      · obtain rfl : y = z := Option.some.inj (hj.symm.trans he)
        exact hadisjoint y hz y (by simp [hy]) rfl
  · refine hfar j hj ?_ (fun he => (hbelow j n (by simp) he).2 hat) fun y hy he =>
      (hbelow j y (by simp [hy]) he).2 hat
    rintro rfl
    simp [Loc.owner] at hat

omit [IsStrictWeakOrder T (m_compare · ·)] in
/-- The first node of its class, which has others. -/
theorem detach_head (hk : s.descend m_compare n (s.nodes.length + 1) m_root = some k)
    (hC : C.At s.cell m_root k) (hu : Linked s.cell k (.node a n (m :: c) b))
    (hnodup : ((NodeTree.node a n (m :: c) b).nodes ++ C.nodes).Nodup) :
    ∃ s', s.detach m_compare n = some s' ∧ Cut s s' n k C (.node a m c b) := by
  have hbelow (j : Loc Variable α) (x : α) (hx : x ∈ (NodeTree.node a n (m :: c) b).nodes)
      (hj : j.owner = some x) := below_hole hC hnodup hx hj
  obtain ⟨hn, ha, ⟨hm, hml, hmr, hc⟩, hb⟩ := hu
  have hunodup := (List.nodup_append.mp hnodup).1
  rw [nodes_node] at hunodup hbelow
  obtain ⟨hnm, hapart⟩ : n ≠ m ∧ ∀ x ∈ a.nodes ++ (c ++ b.nodes), x ≠ n ∧ x ≠ m := by
    have hperm : (a.nodes ++ n :: (m :: c ++ b.nodes)).Perm
        (n :: m :: (a.nodes ++ (c ++ b.nodes))) :=
      List.perm_middle.trans (List.perm_middle.cons n)
    rw [hperm.nodup_iff, List.nodup_cons, List.nodup_cons, List.mem_cons, not_or] at hunodup
    obtain ⟨⟨hnm, hn⟩, hm, -⟩ := hunodup
    exact ⟨hnm, fun x hx => ⟨fun he => hn (he ▸ hx), fun he => hm (he ▸ hx)⟩⟩
  let s' := (((((s.assign k (some m)).assign (.left m) (s.cell (.left n))).assign (.right m)
    (s.cell (.right n))).assign (.right n) none).assign (.left n) none).assign (.next n) none
  have hkeep (j : Loc Variable α) (hjk : j ≠ k) (hjm : j ≠ .left m ∧ j ≠ .right m)
      (hjn : j.owner ≠ some n) : s'.cell j = s.cell j := by
    have hln : j ≠ .left n := fun he => hjn (congrArg Loc.owner he)
    have hrn : j ≠ .right n := fun he => hjn (congrArg Loc.owner he)
    have hxn : j ≠ .next n := fun he => hjn (congrArg Loc.owner he)
    simp [s', Heap.assign, hjk, hjm, hln, hrn, hxn]
  have hold (j : Loc Variable α) (x : α) (hx : x ∈ a.nodes ++ (c ++ b.nodes))
      (hj : j.owner = some x) : s'.cell j = s.cell j := by
    obtain ⟨hxn, hxm⟩ := hapart x hx
    refine hkeep j (hbelow j x ?_ hj).1 ⟨?_, ?_⟩ fun he => ?_
    · simp only [List.mem_append, List.mem_cons] at hx ⊢
      tauto
    · exact Loc.ne_of_owner hj rfl hxm
    · exact Loc.ne_of_owner hj rfl hxm
    · exact hxn (Option.some.inj (hj.symm.trans he))
  have hne (j : Loc Variable α) (hj : j.owner = some n ∨ j.owner = some m) : j ≠ k := by
    rcases hj with hj | hj
    · exact (hbelow j n (by simp) hj).1
    · exact (hbelow j m (by simp) hj).1
  have hlm := hne (.left m) (.inr rfl)
  have hrm := hne (.right m) (.inr rfl)
  have hln := hne (.left n) (.inl rfl)
  have hrn := hne (.right n) (.inl rfl)
  have hxn := hne (.next n) (.inl rfl)
  refine ⟨s', ?_, ⟨rfl, rfl, rfl⟩, ⟨?_, ?_, ?_⟩, ⟨?_, ?_, ?_, ?_⟩, fun j hj hat => ?_⟩
  · simp only [Heap.detach, hk, hn, hm, if_true, cell_assign_of_ne hln,
      cell_assign_of_ne (show Loc.right n ≠ .left m by simp), cell_assign_of_ne hrn,
      Option.bind_eq_bind, Option.bind_some]
    rfl
  · simp [s', Heap.assign]
  · simp [s', Heap.assign]
  · simp [s', Heap.assign]
  · simp [s', Heap.assign, hlm.symm, hrm.symm, hln.symm, hrn.symm, hxn.symm]
  · refine ha.move ?_ fun j x hx hj => hold j x (by simp [hx]) hj
    simp [s', Heap.assign, hnm.symm]
  · refine hc.move (hkeep _ (hne _ (.inr rfl)) (by simp) fun he => hnm (Option.some.inj he).symm)
      fun j x hx hj => hold j x (by simp [hx]) hj
  · refine hb.move ?_ fun j x hx hj => hold j x (by simp [hx]) hj
    simp [s', Heap.assign, hnm.symm]
  · refine hkeep j hj ⟨?_, ?_⟩ fun he => (hbelow j n (by simp) he).2 hat
    all_goals
      rintro rfl
      exact (hbelow _ m (by simp) rfl).2 hat

omit [IsStrictWeakOrder T (m_compare · ·)] in
theorem along_spec {fuel : Nat} (h : Chained s.cell l c) (hn : n ∈ c) (hfuel : c.length ≤ fuel) :
    s.along n fuel l = some (holder n l c) := by
  induction c generalizing l fuel with
  | nil => cases hn
  | cons x c ih =>
    obtain ⟨fuel, rfl⟩ := Nat.exists_eq_succ_of_ne_zero
      (Nat.ne_of_gt (Nat.lt_of_lt_of_le (Nat.succ_pos c.length) hfuel))
    simp only [Heap.along, h.1, holder, Option.bind_eq_bind, Option.bind_some]
    split
    · rfl
    · next hxn =>
      exact ih h.2.2.2 ((List.mem_cons.mp hn).resolve_left (Ne.symm hxn))
        (Nat.le_of_succ_le_succ hfuel)

omit [IsStrictWeakOrder T (m_compare · ·)] in
/-- A node of its class that is not the first. -/
theorem detach_chain (hk : s.descend m_compare n (s.nodes.length + 1) m_root = some k)
    (hC : C.At s.cell m_root k) (hu : Linked s.cell k (.node a m c b)) (hn : n ∈ c)
    (hnodup : ((NodeTree.node a m c b).nodes ++ C.nodes).Nodup)
    (hfuel : c.length ≤ s.nodes.length) :
    ∃ s', s.detach m_compare n = some s' ∧ Cut s s' n k C (.node a m (c.erase n) b) := by
  have hbelow (j : Loc Variable α) (x : α) (hx : x ∈ (NodeTree.node a m c b).nodes)
      (hj : j.owner = some x) := below_hole hC hnodup hx hj
  obtain ⟨hm, ha, hc, hb⟩ := hu
  obtain ⟨hcnodup, hmapart, hcapart⟩ := nodup_node (List.nodup_append.mp hnodup).1
  rw [nodes_node] at hbelow
  have hmn : m ≠ n := (hmapart n (by simp [hn])).symm
  obtain ⟨y, hy⟩ : ∃ y, s.cell (.next m) = some y := by
    cases c with
    | nil => cases hn
    | cons y c => exact ⟨y, hc.1⟩
  obtain ⟨hh, hat, hleft, hright, hremove⟩ := hc.remove hn hcnodup fun x hx he =>
    hmapart x (by simp [hx]) (Option.some.inj he).symm
  obtain ⟨p, hp, hpn, hholder⟩ :
      ∃ p, (p = m ∨ p ∈ c) ∧ p ≠ n ∧ holder n (.next m) c = (.next p : Loc Variable α) := by
    rcases hat with he | ⟨x, hx, hxn, he⟩
    · exact ⟨m, .inl rfl, hmn, he⟩
    · exact ⟨x, .inr hx, hxn, he⟩
  have halong := along_spec hc hn hfuel
  rw [hholder] at hh hremove halong
  let s' := (s.assign (.next p) (s.cell (.next n))).assign (.next n) none
  have hkeep (j : Loc Variable α) (hjp : j ≠ .next p) (hjn : j ≠ .next n) : s'.cell j = s.cell j :=
    (cell_assign_of_ne hjn).trans (cell_assign_of_ne hjp)
  have hpmem : p ∈ a.nodes ++ m :: (c ++ b.nodes) := by
    rcases hp with rfl | hp
    · simp
    · simp [hp]
  have hold (j : Loc Variable α) (x : α) (hj : j.owner = some x) (hx : x ∈ a.nodes ++ b.nodes) :
      s'.cell j = s.cell j := by
    have hxc := hcapart x hx
    rw [List.mem_append] at hx
    refine hkeep j (Loc.ne_of_owner hj rfl ?_) (Loc.ne_of_owner hj rfl fun he => hxc (he ▸ hn))
    rintro rfl
    rcases hp with rfl | hp
    · exact hmapart _ (by simpa [or_left_comm] using .inr hx) rfl
    · exact hxc hp
  refine ⟨s', ?_, ⟨rfl, rfl, rfl⟩, ⟨?_, ?_, ?_⟩, ⟨?_, ?_, ?_, ?_⟩, fun j hj hat => ?_⟩
  · simp only [Heap.detach, hk, hm, hy, if_neg hmn, halong, hh, Option.bind_eq_bind,
      Option.bind_some]
    rfl
  · exact (hkeep _ (by simp) (by simp)).trans hleft
  · exact (hkeep _ (by simp) (by simp)).trans hright
  · simp [s', Heap.assign]
  · refine (hkeep k ?_ ?_).trans hm
    · exact (hbelow _ p hpmem rfl).1.symm
    · exact (hbelow _ n (by simp [hn]) rfl).1.symm
  · exact ha.move (hkeep _ (by simp) (by simp)) fun j x hx hj => hold j x hj (by simp [hx])
  · refine hremove s'.cell ?_ fun j hj hjn => hkeep j hj fun he => hjn (congrArg Loc.owner he)
    simp [s', Heap.assign, hpn]
  · exact hb.move (hkeep _ (by simp) (by simp)) fun j x hx hj => hold j x hj (by simp [hx])
  · refine hkeep j ?_ ?_
    · rintro rfl
      exact (hbelow _ p hpmem rfl).2 hat
    · rintro rfl
      exact (hbelow _ n (by simp [hn]) rfl).2 hat

omit [DecidableEq α] [IsStrictWeakOrder T (m_compare · ·)] in
theorem less_of_links {s' : Heap α T} (h : Links s s') :
    s'.less m_compare = s.less m_compare := by
  funext x y
  rw [Heap.less, h.m_data, Heap.less]

omit [DecidableEq α] [IsStrictWeakOrder T (m_compare · ·)] in
/-- The tree without `n`, whose class is empty or lacks `n`. -/
theorem cut_spec {s' : Heap α T} (hp : Place m_compare s n m_root t k C (.node a m c b))
    (hs : Sorted (s.less m_compare) t.classes) (hnodup : t.nodes.Nodup) (hcut : Cut s s' n k C u)
    (hu : (m :: c = [n] ∧ u.classes = a.classes ++ b.classes) ∨
      ∃ d, (m :: c).Perm (n :: d) ∧ u.classes = a.classes ++ d :: b.classes) :
    Linked s'.cell m_root (C.plug u) ∧ Sorted (s'.less m_compare) (C.plug u).classes ∧
      t.nodes.Perm (n :: (C.plug u).nodes) := by
  obtain rfl := hp.tree
  have hC := (List.nodup_append.mp ((nodes_plug C _).nodup_iff.mp hnodup)).2.1
  have hsorted : Sorted (s.less m_compare)
      ((C.before ++ a.classes) ++ (m :: c) :: (b.classes ++ C.after)) := by
    simpa [NodeTree.classes] using hs
  have hold : (C.plug (.node a m c b)).nodes.Perm
      (m :: c ++ (a.nodes ++ (b.nodes ++ C.nodes))) := by
    refine (nodes_plug C _).trans ?_
    rw [nodes_node, ← List.cons_append, List.append_assoc, List.append_assoc]
    exact List.perm_append_comm_assoc _ _ _
  rw [less_of_links hcut.toLinks]
  refine ⟨replant hp.ctx hC hcut.keep hcut.sub, ?_, ?_⟩
  · rw [classes_plug]
    rcases hu with ⟨-, hu⟩ | ⟨d, hd, hu⟩
    · simpa [hu] using hsorted.sublist ((List.sublist_cons_self _ _).append_left _)
    · have hsubset : d ⊆ m :: c := fun x hx => hd.mem_iff.mpr (List.mem_cons_of_mem n hx)
      simpa [hu] using hsorted.subset hsubset
  · refine hold.trans (List.Perm.trans ?_ ((nodes_plug C u).symm.cons n))
    rcases hu with ⟨hc, hu⟩ | ⟨d, hd, hu⟩
    · rw [hc]
      simp [NodeTree.nodes, hu]
    · have hnodes : u.nodes = a.nodes ++ (d ++ b.nodes) := by
        simp [NodeTree.nodes, hu]
      rw [hnodes, List.append_assoc, List.append_assoc]
      exact (hd.append_right _).trans ((List.perm_append_comm_assoc _ _ _).cons n)

end

end SplayHeapLemmas

section

variable {m_compare : T → T → Bool} [IsStrictWeakOrder T (m_compare · ·)] {s : Heap α T}
  {t : NodeTree α} {n : α}

open SplayHeapLemmas in
theorem insert_spec (h : Linked s.cell m_root t) (hs : Sorted (s.less m_compare) t.classes)
    (hnodup : t.nodes.Nodup) (hn : n ∉ t.nodes) (hfree : Free s n)
    (hfuel : t.nodes.length ≤ s.nodes.length) :
    ∃ s' t', s.insert m_compare n = some s' ∧ Links s s' ∧ Linked s'.cell m_root t' ∧
      Sorted (s'.less m_compare) t'.classes ∧ t'.nodes.Perm (n :: t.nodes) := by
  obtain ⟨k, C, u, hk, hp⟩ := descend_spec h hs (Nat.lt_succ_of_le hfuel) n
  obtain rfl := hp.tree
  have hperm := nodes_plug C u
  rw [hperm.mem_iff, List.mem_append, not_or] at hn
  obtain ⟨hu, hC, hdisjoint⟩ := List.nodup_append.mp (hperm.nodup_iff.mp hnodup)
  -- links of nodes outside of the context are not the hole
  have hout (x : α) (hx : x ∉ C.nodes) (j : Loc Variable α) (hj : j.owner = some x) : j ≠ k := by
    refine hp.ctx.ne_hole ?_ fun y hy he => hx (Option.some.inj (he.symm.trans hj) ▸ hy)
    rintro rfl
    cases hj
  cases u with
  | leaf =>
    have hnone : s.cell k = none := hp.sub
    let s' := s.assign k (some n)
    have hkeep (j : Loc Variable α) (hj : j ≠ k) : s'.cell j = s.cell j := cell_assign_of_ne hj
    refine ⟨s', C.plug (.node .leaf n [] .leaf), ?_, ⟨rfl, rfl, rfl⟩,
      replant hp.ctx hC (fun j hj _ => hkeep j hj) ⟨by simp [s', Heap.assign], ?_, ?_, ?_⟩, ?_, ?_⟩
    · simp only [Heap.insert, hk, hnone, Option.bind_eq_bind, Option.bind_some]
      rfl
    · exact (hkeep _ (hout n hn.2 _ rfl)).trans hfree.left
    · exact (hkeep _ (hout n hn.2 _ rfl)).trans hfree.next
    · exact (hkeep _ (hout n hn.2 _ rfl)).trans hfree.right
    · have hsorted : Sorted (s.less m_compare) (C.before ++ C.after) := by
        simpa [NodeTree.classes] using hs
      show Sorted (s.less m_compare) _
      simpa [NodeTree.classes] using sorted_append_cons.mpr ⟨hsorted, by simp [irrefl],
        by simpa using hp.before, by simpa using hp.after⟩
    · refine (nodes_plug C _).trans ?_
      simpa using (hperm.symm.cons n)
  | node a m c b =>
    obtain ⟨hm, ha, hc, hb⟩ := hp.sub
    obtain ⟨-, hmapart, -⟩ := nodup_node hu
    rw [nodes_node] at hn hdisjoint
    let s' := (s.assign (.next n) (s.cell (.next m))).assign (.next m) (some n)
    have hkeep (j : Loc Variable α) (hjn : j ≠ .next n) (hjm : j ≠ .next m) :
        s'.cell j = s.cell j := (cell_assign_of_ne hjm).trans (cell_assign_of_ne hjn)
    have hfar (j : Loc Variable α) (x : α) (hj : j.owner = some x) (hxn : x ≠ n) (hxm : x ≠ m) :
        s'.cell j = s.cell j := hkeep j (Loc.ne_of_owner hj rfl hxn) (Loc.ne_of_owner hj rfl hxm)
    have hold (j : Loc Variable α) (x : α) (hx : x ∈ a.nodes ++ (c ++ b.nodes))
        (hj : j.owner = some x) : s'.cell j = s.cell j := by
      refine hfar j x hj (fun he => hn.1 (he ▸ ?_)) (hmapart x hx)
      exact List.perm_middle.mem_iff.mpr (List.mem_cons_of_mem m hx)
    have hnm : n ≠ m := by
      rintro rfl
      exact hn.1 (by simp)
    refine ⟨s', C.plug (.node a m (n :: c) b), ?_, ⟨rfl, rfl, rfl⟩,
      replant hp.ctx hC (fun j hj hat => ?_) ⟨?_, ?_, ⟨?_, ?_, ?_, ?_⟩, ?_⟩, ?_, ?_⟩
    · simp only [Heap.insert, hk, hm, Option.bind_eq_bind, Option.bind_some]
      rfl
    · rcases hat with rfl | ⟨x, hx, hjx⟩
      · exact hkeep _ (by simp) (by simp)
      · refine hfar j x hjx ?_ ?_
        · rintro rfl
          exact hn.2 hx
        · rintro rfl
          exact hdisjoint x (by simp) x hx rfl
    · refine (hkeep k ?_ ?_).trans hm
      · exact (hout n hn.2 _ rfl).symm
      · exact (hout m (fun hx => hdisjoint m (by simp) m hx rfl) _ rfl).symm
    · exact ha.move (hkeep _ (by simp) (by simp)) fun j x hx hj => hold j x (by simp [hx]) hj
    · simp [s', Heap.assign]
    · exact (hkeep _ (by simp) (by simp)).trans hfree.left
    · exact (hkeep _ (by simp) (by simp)).trans hfree.right
    · refine hc.move ?_ fun j x hx hj => hold j x (by simp [hx]) hj
      simp [s', Heap.assign, hnm]
    · exact hb.move (hkeep _ (by simp) (by simp)) fun j x hx hj => hold j x (by simp [hx]) hj
    · show Sorted (s.less m_compare) _
      have hsorted : Sorted (s.less m_compare)
          ((C.before ++ a.classes) ++ (m :: c) :: (b.classes ++ C.after)) := by
        simpa [NodeTree.classes] using hs
      have hequiv := hp.equivalent a m c b rfl
      have hjoin := hsorted.join List.mem_cons_self hequiv.1 hequiv.2
        (fun x (hx : x ∈ m :: n :: c) => by simpa [or_left_comm] using hx)
      simpa [NodeTree.classes] using hjoin
    · refine (nodes_plug C _).trans (List.Perm.trans ?_ (hperm.symm.cons n))
      have hmiddle := @List.perm_middle _ n (a.nodes ++ [m]) (c ++ b.nodes ++ C.nodes)
      simpa using hmiddle

open SplayHeapLemmas in
theorem detach_spec (h : Linked s.cell m_root t) (hs : Sorted (s.less m_compare) t.classes)
    (hnodup : t.nodes.Nodup) (hn : n ∈ t.nodes) (hfuel : t.nodes.length ≤ s.nodes.length) :
    ∃ s' t', s.detach m_compare n = some s' ∧ Links s s' ∧ Free s' n ∧
      Linked s'.cell m_root t' ∧ Sorted (s'.less m_compare) t'.classes ∧
      t.nodes.Perm (n :: t'.nodes) := by
  obtain ⟨k, C, u, hk, hp⟩ := descend_spec h hs (Nat.lt_succ_of_le hfuel) n
  have hperm : t.nodes.Perm (u.nodes ++ C.nodes) := hp.tree ▸ nodes_plug C u
  have hout : n ∉ C.nodes := by
    rw [Ctx.nodes, List.mem_append]
    rintro (hb | ha)
    · exact irrefl (r := s.less m_compare) n (hp.before n hb)
    · exact irrefl (r := s.less m_compare) n (hp.after n ha)
  have hnu := (List.mem_append.mp (hperm.mem_iff.mp hn)).resolve_right hout
  have hunodup := hperm.nodup_iff.mp hnodup
  have hlength := hperm.length_eq
  cases u with
  | leaf => simp at hnu
  | node a m c b =>
    simp only [nodes_node, List.length_append, List.length_cons] at hlength
    have hn : n = m ∨ n ∈ c := by
      have hequiv := hp.equivalent a m c b rfl
      have hsorted : Sorted (s.less m_compare)
          ((C.before ++ a.classes) ++ (m :: c) :: (b.classes ++ C.after)) := by
        simpa [hp.tree, NodeTree.classes] using hs
      obtain ⟨-, -, hleft, hright⟩ := sorted_append_cons.mp hsorted
      rw [nodes_node, List.mem_append, List.mem_cons, List.mem_append] at hnu
      rcases hnu with hna | hnm | hnc | hnb
      · refine (hequiv.2 (hleft n ?_ m List.mem_cons_self)).elim
        rw [List.flatten_append]
        exact List.mem_append_right _ hna
      · exact .inl hnm
      · exact .inr hnc
      · refine (hequiv.1 (hright m List.mem_cons_self n ?_)).elim
        rw [List.flatten_append]
        exact List.mem_append_left _ hnb
    have hdone {s' : Heap α T} {u : NodeTree α} (hs' : s.detach m_compare n = some s')
        (hcut : Cut s s' n k C u) (hu : (m :: c = [n] ∧ u.classes = a.classes ++ b.classes) ∨
          ∃ d, (m :: c).Perm (n :: d) ∧ u.classes = a.classes ++ d :: b.classes) :=
      (⟨s', C.plug u, hs', hcut.toLinks, hcut.toFree, cut_spec hp hs hnodup hcut hu⟩ :
        ∃ s' t', s.detach m_compare n = some s' ∧ Links s s' ∧ Free s' n ∧
          Linked s'.cell m_root t' ∧ Sorted (s'.less m_compare) t'.classes ∧
          t.nodes.Perm (n :: t'.nodes))
    rcases hn with rfl | hn
    · cases c with
      | nil =>
        by_cases ha : a = .leaf
        · subst ha
          obtain ⟨s', hs', hcut⟩ := detach_right hk hp.ctx hp.sub hunodup
          exact hdone hs' hcut (.inl ⟨rfl, rfl⟩)
        · obtain ⟨s', a', x, d, hs', hcut, hclasses⟩ :=
            detach_left hk hp.ctx hp.sub ha hunodup (by omega)
          exact hdone hs' hcut (.inl ⟨rfl, by simp [← hclasses, NodeTree.classes]⟩)
      | cons y c =>
        obtain ⟨s', hs', hcut⟩ := detach_head hk hp.ctx hp.sub hunodup
        exact hdone hs' hcut (.inr ⟨y :: c, .refl _, rfl⟩)
    · obtain ⟨s', hs', hcut⟩ := detach_chain hk hp.ctx hp.sub hn hunodup (by omega)
      refine hdone hs' hcut (.inr ⟨m :: c.erase n, ?_, rfl⟩)
      exact ((List.perm_cons_erase hn).cons m).trans (.swap n m _)

end

/-! ## 3. The queue -/

/-- The values with their handles. -/
def Heap.entries (s : Heap α T) : Queue α T := HandleQueue.entries s.nodes s.m_data

/-- The links are the search tree `t`, which holds every node once. -/
structure Inv (m_compare : T → T → Bool) (s : Heap α T) (t : NodeTree α) : Prop where
  linked : Linked s.cell m_root t
  sorted : Sorted (s.less m_compare) t.classes
  nodes : t.nodes.Perm s.nodes
  nodup : s.nodes.Nodup

/-- The queue with handles: `pop` removes a maximum, and a maximum is the top. -/
def queue (α : Type) [DecidableEq α] (m_compare : T → T → Bool) :
    System (Queue α T) (Label α T) where
  init q := q = []
  step q l q' :=
    match l with
    | .push p val => (∀ e ∈ q, e.1 ≠ p) ∧ q' = q.push p val
    | .top => (∃ e, q.IsMax m_compare e) ∧ q' = q
    | .pop => q.Pops m_compare q'
    | .change n val => (∃ e ∈ q, e.1 = n) ∧ q' = q.set n val
    | .change_top val => ∃ e, q.IsMax m_compare e ∧ q' = q.set e.1 val
    | .remove n => (∃ e ∈ q, e.1 = n) ∧ q' = q.remove n

/-- The operations that keep the links and the size of the heap. -/
def Plain : Label α T → Prop
  | .change_top _ | .remove _ => False
  | _ => True

instance decidablePlain : ∀ l : Label α T, Decidable (Plain l)
  | .change_top _ | .remove _ => inferInstanceAs (Decidable False)
  | .push _ _ | .top | .pop | .change _ _ => inferInstanceAs (Decidable True)

namespace SplayHeapLemmas

section

variable {m_compare : T → T → Bool} {s : Heap α T} {t : NodeTree α} {p n : α} {val : T}

omit [DecidableEq α] in
theorem nodup_tree (h : Inv m_compare s t) : t.nodes.Nodup := h.nodes.nodup_iff.mpr h.nodup

/-- The value of a node outside of the tree does not matter. -/
theorem sorted_update {cs : List (List α)} (hs : Sorted (s.less m_compare) cs)
    (hn : n ∉ cs.flatten) (s' : Heap α T) (hs' : s'.m_data = Function.update s.m_data n val) :
    Sorted (s'.less m_compare) cs := by
  refine hs.congr fun x hx y hy => ?_
  have hxn : x ≠ n := fun he => hn (he ▸ hx)
  have hyn : y ≠ n := fun he => hn (he ▸ hy)
  rw [Heap.less, hs', Function.update_of_ne hxn, Function.update_of_ne hyn, Heap.less]

variable [IsStrictWeakOrder T (m_compare · ·)]

theorem push_spec (h : Inv m_compare s t) (hp : p ∉ s.nodes) (val : T) :
    ∃ s' t', s.push m_compare p val = some s' ∧ Inv m_compare s' t' ∧
      s'.entries = s.entries.push p val ∧ s'.nodes.length = s.nodes.length + 1 ∧
      s'.m_size = s.m_size + 1 := by
  have hpt : p ∉ t.nodes := fun hx => hp (h.nodes.mem_iff.mp hx)
  let s₁ : Heap α T := { s with
    m_size := s.m_size + 1
    nodes := s.nodes ++ [p]
    m_data := Function.update s.m_data p val }
  let s₀ := ((s₁.assign (.left p) none).assign (.right p) none).assign (.next p) none
  have hkeep (j : Loc Variable α) (hj : j.owner ≠ some p) : s₀.cell j = s.cell j := by
    refine (cell_assign_of_ne ?_).trans ((cell_assign_of_ne ?_).trans (cell_assign_of_ne ?_))
    all_goals
      rintro rfl
      exact hj rfl
  have hlinked : Linked s₀.cell m_root t := h.linked.move (hkeep _ (by simp [Loc.owner]))
    fun j x hx hj => hkeep j fun he => hpt (Option.some.inj (hj.symm.trans he) ▸ hx)
  have hlength : t.nodes.length ≤ s₀.nodes.length := by
    rw [h.nodes.length_eq]
    exact Nat.le_of_lt (by simp [s₀, s₁, Heap.assign])
  obtain ⟨s', t', hs', hlinks, hlinked', hsorted', hperm⟩ :=
    insert_spec hlinked (sorted_update h.sorted hpt s₀ rfl) (nodup_tree h) hpt
      ⟨by simp [s₀, Heap.assign], by simp [s₀, Heap.assign], by simp [s₀, Heap.assign]⟩ hlength
  have hnodes : s'.nodes = s.nodes ++ [p] := hlinks.nodes
  refine ⟨s', t', hs', ⟨hlinked', hsorted', ?_, ?_⟩, ?_, ?_, hlinks.m_size⟩
  · rw [hnodes]
    exact hperm.trans ((h.nodes.cons p).trans (List.perm_append_singleton p s.nodes).symm)
  · rw [hnodes]
    exact (List.perm_append_singleton p s.nodes).nodup_iff.mpr (List.nodup_cons.mpr ⟨hp, h.nodup⟩)
  · rw [Heap.entries, hnodes, hlinks.m_data]
    exact entries_push hp s.m_data val
  · rw [hnodes, List.length_append, List.length_singleton]

theorem change_spec (h : Inv m_compare s t) (hn : n ∈ s.nodes) (val : T) :
    ∃ s' t', s.change m_compare n val = some s' ∧ Inv m_compare s' t' ∧
      s'.entries = s.entries.set n val ∧ s'.nodes = s.nodes ∧ s'.m_size = s.m_size := by
  obtain ⟨s₁, t₁, hs₁, hlinks₁, hfree, hlinked₁, hsorted₁, hperm₁⟩ :=
    detach_spec h.linked h.sorted (nodup_tree h) (h.nodes.mem_iff.mpr hn)
      (Nat.le_of_eq h.nodes.length_eq)
  obtain ⟨hn₁, hnodup₁⟩ := List.nodup_cons.mp (hperm₁.nodup_iff.mp (nodup_tree h))
  let s₂ : Heap α T := { s₁ with m_data := Function.update s₁.m_data n val }
  have hlength : t₁.nodes.length ≤ s₂.nodes.length := by
    have hlt := hperm₁.length_eq
    rw [h.nodes.length_eq, ← hlinks₁.nodes] at hlt
    exact Nat.le_of_lt (hlt ▸ Nat.lt_succ_self _)
  obtain ⟨s₃, t₃, hs₃, hlinks₃, hlinked₃, hsorted₃, hperm₃⟩ :=
    insert_spec (s := s₂) (t := t₁) hlinked₁ (sorted_update hsorted₁ hn₁ s₂ rfl) hnodup₁ hn₁
      ⟨hfree.left, hfree.right, hfree.next⟩ hlength
  have hnodes : s₃.nodes = s.nodes := hlinks₃.nodes.trans hlinks₁.nodes
  have hdata : s₃.m_data = Function.update s.m_data n val :=
    hlinks₃.m_data.trans (congrArg (Function.update · n val) hlinks₁.m_data)
  refine ⟨s₃, t₃, ?_, ⟨hlinked₃, hsorted₃, ?_, ?_⟩, ?_, hnodes,
    hlinks₃.m_size.trans hlinks₁.m_size⟩
  · simp only [Heap.change, hs₁, Option.bind_eq_bind, Option.bind_some]
    exact hs₃
  · rw [hnodes]
    exact (hperm₃.trans hperm₁.symm).trans h.nodes
  · rw [hnodes]
    exact h.nodup
  · rw [Heap.entries, hnodes, hdata]
    exact entries_set s.nodes s.m_data n val

/-- Splaying at the root brings a maximum there. -/
theorem root_spec (h : Inv m_compare s t) (hne : s.nodes ≠ []) :
    ∃ s' a n c, s.splay_max m_root = some s' ∧ Links s s' ∧
      Inv m_compare s' (.node a n c .leaf) ∧ (NodeTree.node a n c .leaf).classes = t.classes ∧
      s.entries.IsMax m_compare (n, s.m_data n) := by
  have ht : t ≠ .leaf := by
    rintro rfl
    exact hne h.nodes.nil_eq.symm
  obtain ⟨s', a, n, c, hs', hlinks, hlinked, hclasses, -⟩ := splay_max_spec h.linked ht (by simp)
    (nodup_tree h) (fun x _ => by simp [Loc.owner]) (Nat.le_of_eq h.nodes.length_eq)
  have hnodes : (NodeTree.node a n c .leaf).nodes = t.nodes := congrArg List.flatten hclasses
  have hn : n ∈ s.nodes := by
    rw [← h.nodes.mem_iff, ← hnodes]
    simp
  refine ⟨s', a, n, c, hs', hlinks, ⟨hlinked, ?_, ?_, ?_⟩, hclasses,
    isMax_entries hn fun x hx => ?_⟩
  · rw [less_of_links hlinks, hclasses]
    exact h.sorted
  · rw [hnodes, hlinks.nodes]
    exact h.nodes
  · rw [hlinks.nodes]
    exact h.nodup
  · have hsorted : Sorted (s.less m_compare) (a.classes ++ [n :: c]) := by
      rw [show a.classes ++ [n :: c] = t.classes from hclasses]
      exact h.sorted
    have hmax := hsorted.last_max List.mem_cons_self x (by
      rw [show a.classes ++ [n :: c] = t.classes from hclasses]
      exact h.nodes.mem_iff.mpr hx)
    exact Bool.not_eq_true _ ▸ hmax

theorem unroot_of_last (h : s.cell (.next n) = none) :
    s.unroot n = s.assign m_root (s.cell (.left n)) := by
  simp only [Heap.unroot, h]

theorem unroot_of_next {m : α} (h : s.cell (.next n) = some m) :
    s.unroot n = ((s.assign m_root (some m)).assign (.left m) (s.cell (.left n))).assign
      (.right m) (s.cell (.right n)) := by
  simp only [Heap.unroot, h, cell_assign_of_ne (show Loc.left n ≠ m_root by simp),
    cell_assign_of_ne (show Loc.right n ≠ .left m by simp),
    cell_assign_of_ne (show Loc.right n ≠ m_root by simp)]

omit [IsStrictWeakOrder T (m_compare · ·)] in
/-- The first node of the last class goes out. -/
theorem unroot_spec {a : NodeTree α} {c : List α} (h : Inv m_compare s (.node a n c .leaf)) :
    ∃ t', Linked (s.unroot n).cell m_root t' ∧ Links s (s.unroot n) ∧
      Sorted (s.less m_compare) t'.classes ∧ s.nodes.Perm (n :: t'.nodes) := by
  obtain ⟨hn, ha, hc, hright⟩ := h.linked
  have hnodup := nodup_tree h
  have hperm := h.nodes.symm
  rw [nodes_node] at hperm
  cases c with
  | nil =>
    rw [unroot_of_last hc]
    refine ⟨a, ha.move (by simp [Heap.assign]) fun j x hx hj => cell_assign_of_ne ?_,
      ⟨rfl, rfl, rfl⟩, h.sorted.sublist (List.sublist_append_left _ _), ?_⟩
    · rintro rfl
      cases hj
    · simpa using hperm.trans List.perm_middle
  | cons m c =>
    obtain ⟨hm, hml, hmr, hc⟩ := hc
    obtain ⟨hmc, -, hcapart⟩ := nodup_node hnodup
    have heq := unroot_of_next hm
    have hkeep (j : Loc Variable α) (x : α) (hj : j.owner = some x) (hx : x = m → j = .next m) :
        (s.unroot n).cell j = s.cell j := by
      rw [heq]
      refine (cell_assign_of_ne ?_).trans ((cell_assign_of_ne ?_).trans (cell_assign_of_ne ?_))
      · rintro rfl
        cases hx (Option.some.inj hj).symm
      · rintro rfl
        cases hx (Option.some.inj hj).symm
      · rintro rfl
        cases hj
    refine ⟨.node a m c .leaf, ⟨?_, ?_, ?_, ?_⟩, by rw [heq]; exact ⟨rfl, rfl, rfl⟩,
      h.sorted.subset (List.subset_cons_self n (m :: c)), ?_⟩
    · simp [heq, Heap.assign]
    · refine ha.move ?_ fun j x hx hj => hkeep j x hj fun he => ?_
      · simp [heq, Heap.assign]
      · exact absurd List.mem_cons_self (hcapart m (by simpa [← he] using hx))
    · refine hc.move (hkeep _ m rfl fun _ => rfl) fun j x hx hj => hkeep j x hj fun he => ?_
      exact absurd (he ▸ hx) (List.nodup_cons.mp hmc).1
    · have hright : s.cell (.right n) = none := hright
      simp [Linked, heq, Heap.assign, hright]
    · simpa using hperm.trans List.perm_middle

theorem pop_spec (h : Inv m_compare s t) (hne : s.nodes ≠ []) :
    ∃ s' t' n, s.pop = some s' ∧ Inv m_compare s' t' ∧
      s.entries.IsMax m_compare (n, s.m_data n) ∧ s'.entries = s.entries.remove n ∧
      s'.nodes.length + 1 = s.nodes.length ∧ s'.m_size = s.m_size - 1 := by
  obtain ⟨s₁, a, n, c, hs₁, hlinks₁, h₁, -, hmax⟩ := root_spec h hne
  obtain ⟨t', hlinked, hlinks, hsorted, hperm⟩ := unroot_spec h₁
  have hn : n ∈ s.nodes := (mem_entries.mp hmax.1).1
  have hnodes : (s₁.unroot n).nodes = s.nodes := hlinks.nodes.trans hlinks₁.nodes
  have hdata : (s₁.unroot n).m_data = s.m_data := hlinks.m_data.trans hlinks₁.m_data
  refine ⟨{ s₁.unroot n with
    m_size := (s₁.unroot n).m_size - 1
    nodes := (s₁.unroot n).nodes.erase n }, t', n, ?_, ⟨hlinked, ?_, ?_, ?_⟩, hmax, ?_, ?_, ?_⟩
  · simp only [Heap.pop, hs₁, h₁.linked.1, Heap.delete, hnodes, if_pos hn, Option.bind_eq_bind,
      Option.bind_some]
  · rw [← less_of_links hlinks] at hsorted
    exact hsorted
  · rw [hnodes]
    rw [hlinks₁.nodes] at hperm
    exact (hperm.symm.trans (List.perm_cons_erase hn)).cons_inv
  · exact (hnodes ▸ h.nodup).erase n
  · show HandleQueue.entries ((s₁.unroot n).nodes.erase n) (s₁.unroot n).m_data = _
    rw [hnodes, hdata]
    exact entries_remove s.nodes s.m_data n
  · show ((s₁.unroot n).nodes.erase n).length + 1 = _
    rw [hnodes]
    exact List.length_erase_add_one hn
  · exact congrArg (· - 1) (hlinks.m_size.trans hlinks₁.m_size)

end

end SplayHeapLemmas

section

variable {m_compare : T → T → Bool} [IsStrictWeakOrder T (m_compare · ·)]

open SplayHeapLemmas in
/-- Every operation returns, and is the one of the queue. -/
theorem exec_spec {s : Heap α T} {t : NodeTree α} {l : Label α T} (h : Inv m_compare s t)
    (hv : Valid s l) (hplain : Plain l) :
    ∃ s' t', exec m_compare s l = some s' ∧ Inv m_compare s' t' ∧
      (queue α m_compare).step s.entries l s'.entries ∧
      (s.m_size = s.nodes.length → s'.m_size = s'.nodes.length) := by
  cases l with
  | push p val =>
    obtain ⟨s', t', hs, hinv, he, hlength, hsize⟩ := push_spec h hv _
    refine ⟨s', t', hs, hinv, ⟨fun e hmem hep => hv (hep ▸ (mem_entries.mp hmem).1), he⟩,
      fun hc => ?_⟩
    rw [hsize, hlength, hc]
  | top =>
    obtain ⟨s', a, n, c, hs, hlinks, hinv, -, hmax⟩ := root_spec h hv
    refine ⟨s', _, ?_, hinv, ⟨⟨_, hmax⟩, ?_⟩, fun hc => ?_⟩
    · simp only [exec, Heap.top, hs, hinv.linked.1, Option.bind_eq_bind, Option.bind_some,
        Option.map_some]
    · rw [Heap.entries, hlinks.nodes, hlinks.m_data]
      rfl
    · rw [hlinks.m_size, hlinks.nodes, hc]
  | pop =>
    obtain ⟨s', t', n, hs, hinv, hmax, he, hlength, hsize⟩ := pop_spec h hv
    refine ⟨s', t', hs, hinv, ⟨_, hmax, he⟩, fun hc => ?_⟩
    rw [hsize, hc, ← hlength, Nat.add_sub_cancel]
  | change n val =>
    obtain ⟨s', t', hs, hinv, he, hnodes, hsize⟩ := change_spec h hv _
    refine ⟨s', t', hs, hinv, ⟨⟨(n, s.m_data n), mem_entries.mpr ⟨hv, rfl⟩, rfl⟩, he⟩, fun hc => ?_⟩
    rw [hsize, hnodes, hc]
  | change_top val => exact hplain.elim
  | remove n => exact hplain.elim

omit [IsStrictWeakOrder T (m_compare · ·)] in
theorem inv_initial {s : Heap α T} (h : (system α m_compare).init s) :
    Inv m_compare s .leaf ∧ s.entries = [] ∧ s.m_size = s.nodes.length := by
  obtain ⟨hnodes, hroot, hsize⟩ := h
  refine ⟨⟨hroot, ⟨.nil, nofun⟩, ?_, ?_⟩, ?_, ?_⟩
  all_goals simp [hnodes, hsize, Heap.entries, HandleQueue.entries]

/-- After every run of `push`, `top`, `pop` and `change` the links are a search tree of the
classes of equivalent nodes, which holds every node once. The operations were those of a
queue with handles that holds the same values. All operations return. `splay_max` keeps the
sequence of the nodes, and brings one without a right subtree to the root; `top()` is its
value, which is a maximum. -/
theorem splay_refines_queue {s₀ s : Heap α T} {tr : List (Label α T)}
    (h₀ : (system α m_compare).init s₀)
    (h : Run ((system α m_compare).restrict fun _ => Plain) s₀ tr s) :
    (∃ t, Linked s.cell m_root t ∧ Sorted (s.less m_compare) t.classes ∧
      t.nodes.Perm s.nodes ∧ s.nodes.Nodup ∧
      (s.nodes ≠ [] → ∃ s' a n c, s.splay_max m_root = some s' ∧
        Linked s'.cell m_root (.node a n c .leaf) ∧
        (NodeTree.node a n c .leaf).classes = t.classes ∧ s.top = some (s.m_data n, s') ∧
        s'.entries = s.entries ∧ s.entries.IsMax m_compare (n, s.m_data n))) ∧
    s.m_size = s.entries.length ∧
    Run (queue α m_compare) [] tr s.entries ∧
    ∀ l, Valid s l → Plain l → ∃ s', exec m_compare s l = some s' := by
  obtain ⟨hinv₀, hentries₀, hsize₀⟩ := inv_initial h₀
  obtain ⟨q, hrun, rfl, ⟨t, hinv⟩, hsize⟩ : ∃ q, Run (queue α m_compare) [] tr q ∧ q = s.entries ∧
      (∃ t, Inv m_compare s t) ∧ s.m_size = s.nodes.length := by
    refine h.simulate (R := fun q s => q = s.entries ∧ (∃ t, Inv m_compare s t) ∧
      s.m_size = s.nodes.length) ⟨hentries₀.symm, ⟨_, hinv₀⟩, hsize₀⟩ ?_
    rintro q s l s' ⟨rfl, ⟨t, hi⟩, hsize⟩ ⟨hs, hplain⟩
    obtain ⟨hv, hs⟩ := Option.ite_none_right_eq_some.mp hs
    obtain ⟨s'', t'', hs'', hi', hq, hsize'⟩ := exec_spec hi hv hplain
    rw [hs, Option.some.injEq] at hs''
    subst hs''
    exact ⟨_, hq, rfl, ⟨_, hi'⟩, hsize' hsize⟩
  refine ⟨⟨t, hinv.linked, hinv.sorted, hinv.nodes, hinv.nodup, fun hne => ?_⟩, ?_, hrun,
    fun l hv hplain => ?_⟩
  · obtain ⟨s', a, n, c, hs', hlinks, hinv', hclasses, hmax⟩ := SplayHeapLemmas.root_spec hinv hne
    refine ⟨s', a, n, c, hs', hinv'.linked, hclasses, ?_, ?_, hmax⟩
    · simp only [Heap.top, hs', hinv'.linked.1, hlinks.m_data, Option.bind_eq_bind,
        Option.bind_some]
    · rw [Heap.entries, hlinks.nodes, hlinks.m_data]
      rfl
  · rw [hsize, Heap.entries, HandleQueue.entries, List.length_map]
  · obtain ⟨s', -, hs', -⟩ := exec_spec hinv hv hplain
    exact ⟨s', hs'⟩

/-- A class of three nodes loses its last one and then its first one. -/
def exRun : List (Label Nat Nat) :=
  [.push 0 4, .push 1 2, .push 2 6, .push 3 4, .push 4 4, .top, .change 3 5, .change 0 7, .pop,
    .push 5 1, .change 4 3, .pop]

theorem splay_refines_queue_example : ∃ s, Run ((system Nat fun x y => decide (x < y)).restrict
      fun _ => Plain) ⟨[], fun _ => none, fun _ => 0, 0⟩ exRun s ∧
    s.entries = [(1, 2), (3, 5), (4, 3), (5, 1)] ∧
    Run (queue Nat fun x y => decide (x < y)) [] exRun s.entries := by
  have hrun := run_replay_restrict (S := system Nat fun x y => decide (x < y)) (fun _ _ _ => id)
    (show (replay (fun s l => if Plain l then next (fun x y => decide (x < y)) s l else none)
      ⟨[], fun _ => none, fun _ => 0, 0⟩ exRun).isSome by decide)
  refine ⟨_, hrun, by decide, ?_⟩
  exact (splay_refines_queue ⟨rfl, rfl, rfl⟩ hrun).2.2.1

end

end Kuhllib.SplayHeap
