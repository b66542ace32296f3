import Kuhllib.Lib.CellList
import Kuhllib.Lib.HandleQueue
import Kuhllib.Lib.HeapForest
import Kuhllib.Lib.Transition

/-!
# `boost::pairing_heap`

A node is named by its pointer, which is its handle. A `node**` points to a location:
the root, or the member `m_children` or `m_next` of a node. `nodes` are the nodes that
have been created and not deleted, oldest first; a new one has the pointer of none of
them. Access through a null pointer fails, so does deleting what is not there.

Results:
1. `link_spec`, `recursive_link_spec`, `unlink_spec`: children become one tree.
2. `pairing_refines_queue`: over all runs the heap is a queue with handles that pops a maximum.
-/

namespace Kuhllib.PairingHeap

open CellList HandleQueue HeapForest Transition

/-! ## Model -/

inductive Loc (α : Type)
  | m_root
  | m_children (n : α)
  | m_next (n : α)
deriving DecidableEq

/-- `cell` is what the locations hold. -/
structure Heap (α T : Type) where
  nodes : List α
  cell : Loc α → Option α
  m_prev : α → Option (Loc α)
  m_data : α → T
  m_size : Nat

variable {α T : Type} [DecidableEq α]

def Heap.assign (s : Heap α T) (l : Loc α) (n : Option α) : Heap α T :=
  { s with cell := Function.update s.cell l n }

def Heap.set_prev (s : Heap α T) (n : α) (l : Option (Loc α)) : Heap α T :=
  { s with m_prev := Function.update s.m_prev n l }

/-- `if (n->m_next != 0) n->m_next->m_prev = l;`. -/
def Heap.set_next_prev (s : Heap α T) (n : α) (l : Option (Loc α)) : Heap α T :=
  match s.cell (.m_next n) with
  | some m => s.set_prev m l
  | none => s

/-- `node::insert(l, n)`. -/
def Heap.insert (s : Heap α T) (l : Loc α) (n : α) : Heap α T :=
  let s := s.assign (.m_next n) (s.cell l)
  let s := s.set_next_prev n (some (.m_next n))
  let s := s.set_prev n (some l)
  s.assign l (some n)

/-- `node::set_root(l, n)`. -/
def Heap.set_root (s : Heap α T) (l : Loc α) (n : α) : Heap α T :=
  let s := s.assign (.m_next n) none
  let s := s.set_prev n (some l)
  s.assign l (some n)

/-- `node::remove(n)`. -/
def Heap.node_remove (s : Heap α T) (n : α) : Option (Heap α T) := do
  let s := s.set_next_prev n (s.m_prev n)
  let l ← s.m_prev n
  let s := s.assign l (s.cell (.m_next n))
  some (s.set_prev n none)

section

variable (m_compare : T → T → Bool)

def Heap.link (s : Heap α T) (n1 n2 : α) : α × Heap α T :=
  if m_compare (s.m_data n2) (s.m_data n1) then (n1, s.insert (.m_children n1) n2)
  else (n2, s.insert (.m_children n2) n1)

def Heap.recursive_link : Nat → Heap α T → α → α → Option α → Option (α × Heap α T)
  | 0, _, _, _, _ => none
  | fuel + 1, s, n1, n2, c => do
    let s ← s.node_remove n1
    let s ← s.node_remove n2
    let (n1, s) := s.link m_compare n1 n2
    match c with
    | none => some (n1, s)
    | some c =>
      let (c, s) ←
        match s.cell (.m_next c) with
        | some c' => recursive_link fuel s c c' (s.cell (.m_next c'))
        | none => do some (c, ← s.node_remove c)
      some (s.link m_compare n1 c)

/-- `node::set_root(&m_root, m_root == 0? c: link(m_root, c))`. -/
def Heap.adopt (s : Heap α T) (c : α) : Heap α T :=
  match s.cell .m_root with
  | none => s.set_root .m_root c
  | some r =>
    let (r, s) := s.link m_compare r c
    s.set_root .m_root r

/-- `node::set_root(&m_root, m_root == 0? n: link(n, m_root))`. -/
def Heap.enter (s : Heap α T) (n : α) : Heap α T :=
  match s.cell .m_root with
  | none => s.set_root .m_root n
  | some r =>
    let (r, s) := s.link m_compare n r
    s.set_root .m_root r

def Heap.unlink (s : Heap α T) (n : α) : Option (Heap α T) := do
  let s ← s.node_remove n
  match s.cell (.m_children n) with
  | none => some s
  | some c =>
    let (c, s) ←
      match s.cell (.m_next c) with
      | some c' => s.recursive_link m_compare s.nodes.length c c' (s.cell (.m_next c'))
      | none => do some (c, ← s.node_remove c)
    some (s.adopt m_compare c)

/-- `push(d)`, where the node is created at `p`. -/
def Heap.push (s : Heap α T) (p : α) (d : T) : Option (Heap α T) := do
  let s := { s with
    nodes := s.nodes ++ [p]
    cell := Function.update s.cell (.m_children p) none
    m_prev := Function.update s.m_prev p none
    m_data := Function.update s.m_data p d }
  let m_size := s.m_size
  let s := { s with m_size := m_size + 1 }
  let (r, s) ←
    if m_size = 0 then some (p, s)
    else do some (s.link m_compare p (← s.cell .m_root))
  some (s.set_root .m_root r)

/-- `delete n`. -/
def Heap.delete (s : Heap α T) (n : α) : Option (Heap α T) :=
  if n ∈ s.nodes then some { s with nodes := s.nodes.erase n } else none

def Heap.remove (s : Heap α T) (n : α) : Option (Heap α T) := do
  let s ← s.unlink m_compare n
  let s := { s with m_size := s.m_size - 1 }
  s.delete n

def Heap.pop (s : Heap α T) : Option (Heap α T) := do s.remove m_compare (← s.cell .m_root)

/-- `change(n, d)`, also `increase` and `decrease`. -/
def Heap.change (s : Heap α T) (n : α) (d : T) : Option (Heap α T) := do
  let s ← s.unlink m_compare n
  some ({ s with m_data := Function.update s.m_data n d }.enter m_compare n)

def Heap.change_top (s : Heap α T) (d : T) : Option (Heap α T) := do
  s.change m_compare (← s.cell .m_root) d

end

def Heap.top (s : Heap α T) : Option T := (s.cell .m_root).map s.m_data

/-- `for (; tmp != 0; tmp = tmp->next()) m_queue.push(tmp);`. -/
def Heap.siblings (s : Heap α T) : Nat → Option α → Option (List α)
  | _, none => some []
  | 0, some _ => none
  | fuel + 1, some tmp => do some (tmp :: (← siblings s fuel (s.cell (.m_next tmp))))

/-- The loop of the destructor with the queue of the iterator, and the nodes deleted. -/
def Heap.delete_all : Nat → Heap α T → List α → Option (List α)
  | _, _, [] => some []
  | 0, _, _ :: _ => none
  | fuel + 1, s, del :: m_queue => do
    let children ← s.siblings s.nodes.length (s.cell (.m_children del))
    let s ← s.delete del
    some (del :: (← delete_all fuel s (m_queue ++ children)))

def Heap.destroy (s : Heap α T) : Option (List α) :=
  s.delete_all s.nodes.length (s.cell .m_root).toList

inductive Label (α T : Type)
  | push (p : α) (d : T)
  | pop
  | change (n : α) (d : T)
  | change_top (d : T)
  | remove (n : α)

/-- What a caller has to take care of: a new node is none of the nodes, there is a top,
and a handle is the one of a node. -/
def Valid (s : Heap α T) : Label α T → Prop
  | .push p _ => p ∉ s.nodes
  | .pop | .change_top _ => s.nodes ≠ []
  | .change n _ | .remove n => n ∈ s.nodes

instance decidableValid (s : Heap α T) : ∀ l : Label α T, Decidable (Valid s l)
  | .push p _ => inferInstanceAs (Decidable (p ∉ s.nodes))
  | .pop | .change_top _ => inferInstanceAs (Decidable (s.nodes ≠ []))
  | .change n _ | .remove n => inferInstanceAs (Decidable (n ∈ s.nodes))

def exec (m_compare : T → T → Bool) (s : Heap α T) : Label α T → Option (Heap α T)
  | .push p d => s.push m_compare p d
  | .pop => s.pop m_compare
  | .change n d => s.change m_compare n d
  | .change_top d => s.change_top m_compare d
  | .remove n => s.remove m_compare n

def next (m_compare : T → T → Bool) (s : Heap α T) (l : Label α T) : Option (Heap α T) :=
  if Valid s l then exec m_compare s l else none

def system (α : Type) [DecidableEq α] (m_compare : T → T → Bool) :
    System (Heap α T) (Label α T) where
  init s := s.nodes = [] ∧ s.cell .m_root = none ∧ s.m_size = 0
  step s l s' := next m_compare s l = some s'

/-! ## 1. Links -/

section

variable {m_compare : T → T → Bool}

/-- The trees of the tops: every list of children is linked, and no child is greater than
its parent. How the tops are linked is left open. -/
structure Rep (m_compare : T → T → Bool) (s : Heap α T) (tops : List α) (kids : α → List α) :
    Prop where
  forest : Forest tops s.nodes kids
  listed : ∀ p ∈ s.nodes, Listed .m_next s.cell s.m_prev (.m_children p) (kids p)
  ordered : Ordered m_compare s.m_data s.nodes kids

/-- Links change only. -/
structure Links (s s' : Heap α T) : Prop where
  nodes : s'.nodes = s.nodes
  m_data : s'.m_data = s.m_data
  m_size : s'.m_size = s.m_size

/-- The root and the links of the tops stay. -/
structure Keeps (s s' : Heap α T) (tops : List α) : Prop extends Links s s' where
  m_root : s'.cell .m_root = s.cell .m_root
  m_next : ∀ r ∈ tops, s'.cell (.m_next r) = s.cell (.m_next r)
  m_prev : ∀ r ∈ tops, s'.m_prev r = s.m_prev r

/-- The root holds the only top, or there is none. -/
def Rooted (s : Heap α T) : List α → Prop
  | [] => s.cell .m_root = none
  | [r] => s.cell .m_root = some r ∧ s.m_prev r = some .m_root ∧ s.cell (.m_next r) = none
  | _ :: _ :: _ => False

section

variable {s s' s'' : Heap α T} {tops tops' : List α} {kids : α → List α}

omit [DecidableEq α]

theorem Links.refl (s : Heap α T) : Links s s := ⟨rfl, rfl, rfl⟩

theorem Links.trans (h : Links s s') (h' : Links s' s'') : Links s s'' :=
  ⟨h'.nodes.trans h.nodes, h'.m_data.trans h.m_data, h'.m_size.trans h.m_size⟩

theorem Keeps.trans (h : Keeps s s' tops) (h' : Keeps s' s'' tops') (hsub : tops ⊆ tops') :
    Keeps s s'' tops :=
  ⟨h.toLinks.trans h'.toLinks, h'.m_root.trans h.m_root,
    fun r hr => (h'.m_next r (hsub hr)).trans (h.m_next r hr),
    fun r hr => (h'.m_prev r (hsub hr)).trans (h.m_prev r hr)⟩

theorem Keeps.mono (h : Keeps s s' tops) (hsub : tops' ⊆ tops) : Keeps s s' tops' :=
  ⟨h.toLinks, h.m_root, fun r hr => h.m_next r (hsub hr), fun r hr => h.m_prev r (hsub hr)⟩

theorem Rooted.keeps (h : Rooted s tops) (hk : Keeps s s' tops) : Rooted s' tops := by
  rcases tops with _ | ⟨r, _ | ⟨r', tops⟩⟩
  · exact hk.m_root.trans h
  · exact ⟨hk.m_root.trans h.1, (hk.m_prev r List.mem_cons_self).trans h.2.1,
      (hk.m_next r List.mem_cons_self).trans h.2.2⟩
  · exact h.elim

theorem Rep.perm (h : Rep m_compare s tops kids) (hperm : tops'.Perm tops) :
    Rep m_compare s tops' kids :=
  ⟨h.forest.perm hperm, h.listed, h.ordered⟩

/-- The first child of a node is a child. -/
theorem Rep.head_mem (h : Rep m_compare s tops kids) {p y : α} (hp : p ∈ s.nodes)
    (hy : s.cell (.m_children p) = some y) : y ∈ kids p :=
  List.mem_of_head? ((h.listed p hp).head.symm.trans hy)

theorem next_injective : Function.Injective (Loc.m_next : α → Loc α) := fun _ _ => Loc.m_next.inj

end

namespace PairingHeapLemmas

variable {s s' s'' : Heap α T} {tops : List α} {kids : α → List α} {n p w x : α}

theorem set_next_prev_eq (s : Heap α T) (n : α) (l : Option (Loc α)) :
    (s.set_next_prev n l).cell = s.cell ∧ Links s (s.set_next_prev n l) ∧
      (∀ m, s.cell (.m_next n) = some m → (s.set_next_prev n l).m_prev m = l) ∧
      ∀ m, s.cell (.m_next n) ≠ some m → (s.set_next_prev n l).m_prev m = s.m_prev m := by
  unfold Heap.set_next_prev
  cases h : s.cell (.m_next n) with
  | none => exact ⟨rfl, Links.refl s, fun m hm => absurd hm (by simp), fun m _ => rfl⟩
  | some y =>
    refine ⟨rfl, ⟨rfl, rfl, rfl⟩, fun m hm => ?_, fun m hm => ?_⟩
    · rw [← Option.some.inj hm]
      exact Function.update_self ..
    · exact Function.update_of_ne (fun he : m = y => hm (he ▸ rfl)) ..

/-- What `insert` leaves in the links. -/
theorem insert_links (s : Heap α T) {l : Loc α} {n : α} (hl : l ≠ .m_next n) :
    (s.insert l n).cell l = some n ∧ (s.insert l n).cell (.m_next n) = s.cell l ∧
    (∀ k, k ≠ l → k ≠ .m_next n → (s.insert l n).cell k = s.cell k) ∧
    (s.insert l n).m_prev n = some l ∧
    (∀ m, m ≠ n → s.cell l = some m → (s.insert l n).m_prev m = some (.m_next n)) ∧
    (∀ m, m ≠ n → s.cell l ≠ some m → (s.insert l n).m_prev m = s.m_prev m) ∧
    Links s (s.insert l n) := by
  obtain ⟨hcell, hlinks, hnext, hother⟩ :=
    set_next_prev_eq (s.assign (.m_next n) (s.cell l)) n (some (.m_next n))
  have hn : (s.assign (.m_next n) (s.cell l)).cell (.m_next n) = s.cell l :=
    Function.update_self ..
  rw [hn] at hnext hother
  have hcells : (s.insert l n).cell =
      Function.update (Function.update s.cell (.m_next n) (s.cell l)) l (some n) := by
    unfold Heap.insert
    simp only [Heap.assign, Heap.set_prev] at hcell ⊢
    rw [hcell]
  have hprev : (s.insert l n).m_prev = Function.update
      ((s.assign (.m_next n) (s.cell l)).set_next_prev n (some (.m_next n))).m_prev n (some l) := rfl
  rw [hcells, hprev]
  refine ⟨Function.update_self .., ?_, fun k hk hkn => ?_, Function.update_self .., fun m hm he => ?_,
    fun m hm he => ?_, ⟨hlinks.nodes, hlinks.m_data, hlinks.m_size⟩⟩
  · rw [Function.update_of_ne hl.symm, Function.update_self]
  · rw [Function.update_of_ne hk, Function.update_of_ne hkn]
  · rw [Function.update_of_ne hm]
    exact hnext m he
  · rw [Function.update_of_ne hm]
    exact hother m he

/-- What `remove` leaves in the links. -/
theorem node_remove_links (s : Heap α T) {n : α} {l : Loc α} (hl : s.m_prev n = some l) :
    ∃ s', s.node_remove n = some s' ∧ s'.cell l = s.cell (.m_next n) ∧
      (∀ k, k ≠ l → s'.cell k = s.cell k) ∧
      (∀ m, m ≠ n → s.cell (.m_next n) = some m → s'.m_prev m = some l) ∧
      (∀ m, m ≠ n → s.cell (.m_next n) ≠ some m → s'.m_prev m = s.m_prev m) ∧ Links s s' := by
  obtain ⟨hcell, hlinks, hnext, hother⟩ := set_next_prev_eq s n (s.m_prev n)
  have hself : (s.set_next_prev n (s.m_prev n)).m_prev n = some l := by
    by_cases hn : s.cell (.m_next n) = some n
    · rw [hnext n hn, hl]
    · rw [hother n hn, hl]
  refine ⟨((s.set_next_prev n (s.m_prev n)).assign l
    ((s.set_next_prev n (s.m_prev n)).cell (.m_next n))).set_prev n none, ?_, ?_, fun k hk => ?_,
    fun m hm he => ?_, fun m hm he => ?_, ⟨hlinks.nodes, hlinks.m_data, hlinks.m_size⟩⟩
  · unfold Heap.node_remove
    simp only [hself, Option.bind_eq_bind, Option.bind_some]
  · rw [hcell]
    exact Function.update_self ..
  · have := congrFun hcell k
    exact (Function.update_of_ne hk ..).trans this
  · exact (Function.update_of_ne hm ..).trans ((hnext m he).trans hl)
  · exact (Function.update_of_ne hm ..).trans (hother m he)

/-- A top becomes the first child of another one. -/
theorem insert_spec (h : Rep m_compare s (w :: x :: tops) kids)
    (hle : m_compare (s.m_data w) (s.m_data x) = false) :
    Rep m_compare (s.insert (.m_children w) x) (w :: tops)
        (Function.update kids w (x :: kids w)) ∧
      Keeps s (s.insert (.m_children w) x) (w :: tops) := by
  obtain ⟨hcell, hnext, hcells, hprev, hhead, hprevs, hlinks⟩ :=
    insert_links s (l := .m_children w) (n := x) (fun he => by cases he)
  have hw := h.forest.mem_of_top List.mem_cons_self
  have hxtop : x ∈ w :: x :: tops := List.mem_cons_of_mem w List.mem_cons_self
  have hchild : ∀ p ∈ s.nodes, ∀ z ∈ kids p, z ≠ x := fun p hp z hz he =>
    h.forest.top_not_child hxtop hp (he ▸ hz)
  refine ⟨⟨?_, fun p hp => ?_, fun p hp c hc => ?_⟩, hlinks, ?_, fun r hr => ?_, fun r hr => ?_⟩
  · rw [hlinks.nodes]
    refine h.forest.join List.mem_cons_self List.mem_cons_self ?_
    exact (@List.perm_middle _ _ tops _).cons w
  · rw [hlinks.nodes] at hp
    by_cases hpw : p = w
    · subst hpw
      rw [Function.update_self]
      refine ⟨hcell, hprev, (h.listed p hp).move (hnext.trans (h.listed p hp).head) ?_ ?_ ?_
        (h.forest.children_nodup hp)⟩
      · exact fun y hy => hhead y (hchild p hp y (List.mem_of_head? hy))
          ((h.listed p hp).head.trans hy)
      · exact fun z hz => hcells _ (fun he => by cases he)
          fun he => hchild p hp z hz (next_injective he)
      · exact fun z hz hne => hprevs z (hchild p hp z hz) (by rwa [(h.listed p hp).head])
    · rw [Function.update_of_ne hpw]
      refine (h.listed p hp).congr (hcells _ (fun he => hpw (Loc.m_children.inj he))
        fun he => by cases he) (fun z hz => ?_) fun z hz => ?_
      · exact hcells _ (fun he => by cases he) fun he => hchild p hp z hz (next_injective he)
      · refine hprevs z (hchild p hp z hz) fun he => hpw ?_
        exact h.forest.parent_unique hp hw hz (h.head_mem hw he)
  · rw [hlinks.nodes] at hp
    rw [hlinks.m_data]
    by_cases hpw : p = w
    · subst hpw
      rw [Function.update_self] at hc
      rcases List.mem_cons.mp hc with rfl | hc
      · exact hle
      · exact h.ordered p hp c hc
    · rw [Function.update_of_ne hpw] at hc
      exact h.ordered p hp c hc
  · exact hcells _ (fun he => by cases he) fun he => by cases he
  all_goals
    have hrx : r ≠ x := by
      rintro rfl
      obtain ⟨hwx, hx⟩ := List.nodup_cons.mp h.forest.tops_nodup
      rcases List.mem_cons.mp hr with rfl | hr
      · exact hwx List.mem_cons_self
      · exact (List.nodup_cons.mp hx).1 hr
  · exact hcells _ (fun he => by cases he) fun he => hrx (next_injective he)
  · refine hprevs r hrx fun he => ?_
    refine h.forest.top_not_child ?_ hw (h.head_mem hw he)
    rcases List.mem_cons.mp hr with rfl | hr
    · exact List.mem_cons_self
    · exact List.mem_cons_of_mem _ (List.mem_cons_of_mem _ hr)

/-- A child becomes a top. -/
theorem node_remove_spec (h : Rep m_compare s tops kids) (hp : p ∈ s.nodes) (xs : List α)
    {ys : List α} (hn : kids p = xs ++ n :: ys) :
    ∃ s', s.node_remove n = some s' ∧
      Rep m_compare s' (n :: tops) (Function.update kids p (xs ++ ys)) ∧ Keeps s s' tops := by
  have hnodup := h.forest.children_nodup hp
  have hlisted := h.listed p hp
  rw [hn] at hnodup hlisted
  obtain ⟨m, hm, hnext, hat, hremove⟩ :=
    hlisted.remove hnodup next_injective fun _ _ he => by cases he
  obtain ⟨s', hs, hcell, hcells, hhead, hprevs, hlinks⟩ := node_remove_links s hm
  rw [hnext] at hcell hhead hprevs
  have hsub : xs ++ ys ⊆ kids p := by
    rw [hn]
    exact List.append_subset.mpr ⟨List.subset_append_left _ _,
      fun y hy => List.mem_append_right _ (List.mem_cons_of_mem n hy)⟩
  have hnk : n ∈ kids p := by
    rw [hn]
    exact List.mem_append_right _ List.mem_cons_self
  have hheadk : ∀ y, ys.head? = some y → y ∈ kids p := fun y hy =>
    hsub (List.mem_append_right _ (List.mem_of_head? hy))
  -- the location that changes belongs to the list of `p`
  have hmk : m = .m_children p ∨ ∃ x ∈ kids p, m = .m_next x := by
    rcases hat with rfl | ⟨x, hx, rfl⟩
    · exact .inl rfl
    · exact .inr ⟨x, hsub (List.mem_append_left _ hx), rfl⟩
  have hout : ∀ q ∈ s.nodes, q ≠ p → ∀ z ∈ kids q, z ∉ kids p := fun q hq hqp z hz hzp =>
    hqp (h.forest.parent_unique hq hp hz hzp)
  refine ⟨s', hs, ⟨?_, fun q hq => ?_, fun q hq c hc => ?_⟩, hlinks, ?_, fun r hr => ?_,
    fun r hr => ?_⟩
  · rw [hlinks.nodes]
    refine h.forest.cut hp ?_ hsub
    rw [hn, List.cons_append, ← List.append_assoc, ← List.append_assoc]
    exact List.perm_middle.symm
  · rw [hlinks.nodes] at hq
    by_cases hqp : q = p
    · subst hqp
      rw [Function.update_self]
      refine hremove s'.cell s'.m_prev hcell hcells (fun y hy => hhead y ?_ hy) hprevs
      rintro rfl
      obtain ⟨-, hys, -⟩ := List.nodup_append.mp hnodup
      exact (List.nodup_cons.mp hys).1 (List.mem_of_head? hy)
    · rw [Function.update_of_ne hqp]
      refine (h.listed q hq).congr (hcells _ ?_) (fun z hz => hcells _ ?_) fun z hz => ?_
      · rcases hmk with rfl | ⟨x, -, rfl⟩
        · exact fun he => hqp (Loc.m_children.inj he)
        · exact fun he => by cases he
      · rcases hmk with rfl | ⟨x, hx, rfl⟩
        · exact fun he => by cases he
        · exact fun he => hout q hq hqp z hz (next_injective he ▸ hx)
      · exact hprevs z (fun he => hout q hq hqp z hz (he ▸ hnk))
          fun he => hout q hq hqp z hz (hheadk z he)
  · rw [hlinks.nodes] at hq
    rw [hlinks.m_data]
    by_cases hqp : q = p
    · subst hqp
      rw [Function.update_self] at hc
      exact h.ordered q hq c (hsub hc)
    · rw [Function.update_of_ne hqp] at hc
      exact h.ordered q hq c hc
  · refine hcells _ ?_
    rcases hmk with rfl | ⟨x, -, rfl⟩
    · exact fun he => by cases he
    · exact fun he => by cases he
  all_goals have hrk : r ∉ kids p := h.forest.top_not_child hr hp
  · refine hcells _ ?_
    rcases hmk with rfl | ⟨x, hx, rfl⟩
    · exact fun he => by cases he
    · exact fun he => hrk (next_injective he ▸ hx)
  · exact hprevs r (fun he => hrk (he ▸ hnk)) fun he => hrk (hheadk r he)

/-- Two tops become one. -/
theorem link_spec [IsStrictWeakOrder T (m_compare · ·)] {n1 n2 : α}
    (h : Rep m_compare s (n1 :: n2 :: tops) kids) :
    ∃ w s' kids', s.link m_compare n1 n2 = (w, s') ∧ Rep m_compare s' (w :: tops) kids' ∧
      Keeps s s' tops ∧ (w = n1 ∨ w = n2) ∧ ∀ q, q ≠ n1 → q ≠ n2 → kids' q = kids q := by
  unfold Heap.link
  split
  next hlt =>
    obtain ⟨hrep, hkeeps⟩ := insert_spec h
      (Bool.eq_false_iff.mpr (asymm_of (m_compare · ·) hlt))
    exact ⟨n1, _, _, rfl, hrep, hkeeps.mono (List.subset_cons_self n1 tops), .inl rfl,
      fun q h1 _ => Function.update_of_ne h1 ..⟩
  next hlt =>
    obtain ⟨hrep, hkeeps⟩ := insert_spec (h.perm (.swap n1 n2 tops)) (Bool.eq_false_iff.mpr hlt)
    exact ⟨n2, _, _, rfl, hrep, hkeeps.mono (List.subset_cons_self n2 tops), .inr rfl,
      fun q _ h2 => Function.update_of_ne h2 ..⟩

/-- The first child of `n` is taken out. -/
theorem remove_first (h : Rep m_compare s (n :: tops) kids) {c : α} {cs : List α}
    (hn : kids n = c :: cs) :
    ∃ s' kids', s.node_remove c = some s' ∧ Rep m_compare s' (c :: n :: tops) kids' ∧
      kids' n = cs ∧ Keeps s s' (n :: tops) := by
  obtain ⟨s', hs, hrep, hkeeps⟩ :=
    node_remove_spec h (h.forest.mem_of_top List.mem_cons_self) [] hn
  exact ⟨s', _, hs, hrep, Function.update_self .., hkeeps⟩

/-- Two tops other than `n` become one, and the children of `n` stay. -/
theorem link_beside [IsStrictWeakOrder T (m_compare · ·)] {n1 n2 : α}
    (h : Rep m_compare s (n1 :: n2 :: n :: tops) kids) :
    ∃ w s' kids', s.link m_compare n1 n2 = (w, s') ∧ Rep m_compare s' (w :: n :: tops) kids' ∧
      kids' n = kids n ∧ Keeps s s' (n :: tops) := by
  obtain ⟨w, s', kids', hs, hrep, hkeeps, -, hother⟩ := link_spec h
  obtain ⟨h1, hnodup⟩ := List.nodup_cons.mp h.forest.tops_nodup
  refine ⟨w, s', kids', hs, hrep, hother n ?_ ?_, hkeeps⟩
  · rintro rfl
    exact h1 (List.mem_cons_of_mem n2 List.mem_cons_self)
  · rintro rfl
    exact (List.nodup_cons.mp hnodup).1 List.mem_cons_self

/-- The children of `n` from `n1` on become one tree. -/
theorem recursive_link_spec [IsStrictWeakOrder T (m_compare · ·)] {fuel : Nat} {n1 n2 : α}
    {cs : List α} (hfuel : cs.length < fuel) (h : Rep m_compare s (n :: tops) kids)
    (hn : kids n = n1 :: n2 :: cs) :
    ∃ w s' kids', s.recursive_link m_compare fuel n1 n2 cs.head? = some (w, s') ∧
      Rep m_compare s' (w :: n :: tops) kids' ∧ kids' n = [] ∧ Keeps s s' (n :: tops) := by
  induction fuel generalizing s tops kids n1 n2 cs with
  | zero => exact absurd hfuel (Nat.not_lt_zero _)
  | succ fuel ih =>
    obtain ⟨s₁, kids₁, hs₁, h₁, hn₁, hk₁⟩ := remove_first h hn
    obtain ⟨s₂, kids₂, hs₂, h₂, hn₂, hk₂⟩ := remove_first (h₁.perm (.swap n1 n _)) hn₁
    have hperm : (n1 :: n2 :: n :: tops).Perm (n2 :: n :: n1 :: tops) :=
      (@List.perm_middle _ _ [n2, n] tops).symm
    obtain ⟨w, s₃, kids₃, hs₃, h₃, hn₃, hk₃⟩ := link_beside (h₂.perm hperm)
    have hk : Keeps s s₃ (n :: tops) := by
      refine (hk₁.trans (hk₂.mono ?_) (List.Subset.refl _)).trans hk₃ (List.Subset.refl _)
      exact List.cons_subset_cons n (List.subset_cons_self n1 tops)
    rw [hn₂] at hn₃
    rw [Heap.recursive_link]
    simp only [hs₁, hs₂, hs₃, Option.bind_eq_bind, Option.bind_some]
    cases cs with
    | nil => exact ⟨w, s₃, kids₃, rfl, h₃, hn₃, hk⟩
    | cons c cs =>
      have h₃' := h₃.perm (.swap w n tops)
      have hnext : s₃.cell (.m_next c) = cs.head? := by
        have hlisted := h₃.listed n (h₃'.forest.mem_of_top List.mem_cons_self)
        rw [hn₃] at hlisted
        exact hlisted.2.2.head
      -- the tree of the other children comes last
      have last : ∀ (v : α) (s₄ : Heap α T) (kids₄ : α → List α),
          Rep m_compare s₄ (v :: n :: w :: tops) kids₄ → kids₄ n = [] →
          Keeps s₃ s₄ (n :: w :: tops) →
          ∃ w' s' kids', some (s₄.link m_compare w v) = some (w', s') ∧
            Rep m_compare s' (w' :: n :: tops) kids' ∧ kids' n = [] ∧ Keeps s s' (n :: tops) := by
        intro v s₄ kids₄ h₄ hn₄ hk₄
        have hperm' : (w :: v :: n :: tops).Perm (v :: n :: w :: tops) :=
          (@List.perm_middle _ _ [v, n] tops).symm
        obtain ⟨w', s₅, kids₅, hs₅, h₅, hn₅, hk₅⟩ := link_beside (h₄.perm hperm')
        refine ⟨w', s₅, kids₅, congrArg some hs₅, h₅, hn₅.trans hn₄, ?_⟩
        refine (hk.trans (hk₄.mono ?_) (List.Subset.refl _)).trans hk₅ (List.Subset.refl _)
        exact List.cons_subset_cons n (List.subset_cons_self w tops)
      simp only [List.head?_cons, hnext]
      cases cs with
      | nil =>
        obtain ⟨s₄, kids₄, hs₄, h₄, hn₄, hk₄⟩ := remove_first h₃' hn₃
        simp only [List.head?_nil, hs₄, Option.bind_some]
        exact last c s₄ kids₄ h₄ hn₄ hk₄
      | cons c' cs =>
        have hnext' : s₃.cell (.m_next c') = cs.head? := by
          have hlisted := h₃.listed n (h₃'.forest.mem_of_top List.mem_cons_self)
          rw [hn₃] at hlisted
          exact hlisted.2.2.2.2.head
        obtain ⟨v, s₄, kids₄, hs₄, h₄, hn₄, hk₄⟩ :=
          ih (Nat.lt_of_succ_lt (Nat.lt_of_succ_lt_succ hfuel)) h₃' hn₃
        simp only [List.head?_cons, hnext', hs₄, Option.bind_some]
        exact last v s₄ kids₄ h₄ hn₄ hk₄

/-- A top becomes the root. -/
theorem set_root_spec {r : α} (h : Rep m_compare s (r :: tops) kids) :
    Rep m_compare (s.set_root .m_root r) (r :: tops) kids ∧
      Rooted (s.set_root .m_root r) [r] ∧ Links s (s.set_root .m_root r) := by
  have hchild : ∀ p ∈ s.nodes, ∀ z ∈ kids p, z ≠ r := fun p hp z hz he =>
    h.forest.top_not_child List.mem_cons_self hp (he ▸ hz)
  have hcells : ∀ k, k ≠ .m_root → k ≠ .m_next r → (s.set_root .m_root r).cell k = s.cell k := by
    intro k hk hkr
    exact (Function.update_of_ne hk ..).trans (Function.update_of_ne hkr ..)
  refine ⟨⟨h.forest, fun p hp => (h.listed p hp).congr ?_ (fun z hz => ?_) fun z hz => ?_,
    h.ordered⟩, ⟨by simp [Heap.set_root, Heap.assign], ?_, ?_⟩, rfl, rfl, rfl⟩
  · exact hcells _ (fun he => by cases he) fun he => by cases he
  · exact hcells _ (fun he => by cases he) fun he => hchild p hp z hz (next_injective he)
  · exact Function.update_of_ne (hchild p hp z hz) ..
  · simp [Heap.set_root, Heap.assign, Heap.set_prev]
  · simp [Heap.set_root, Heap.assign, Heap.set_prev]

/-- The root is taken out. -/
theorem remove_root {r : α} (h : Rep m_compare s [r] kids) (hr : Rooted s [r]) :
    ∃ s', s.node_remove r = some s' ∧ Rep m_compare s' [r] kids ∧ Rooted s' [] ∧ Links s s' := by
  obtain ⟨-, hprev, hnext⟩ := hr
  obtain ⟨s', hs, hcell, hcells, -, hprevs, hlinks⟩ := node_remove_links s hprev
  have hchild : ∀ p ∈ s.nodes, ∀ z ∈ kids p, z ≠ r := fun p hp z hz he =>
    h.forest.top_not_child List.mem_cons_self hp (he ▸ hz)
  have hlisted : ∀ p ∈ s.nodes, Listed .m_next s'.cell s'.m_prev (.m_children p) (kids p) := by
    refine fun p hp => (h.listed p hp).congr ?_ (fun z hz => ?_) fun z hz => ?_
    · exact hcells _ fun he => by cases he
    · exact hcells _ fun he => by cases he
    · exact hprevs z (hchild p hp z hz) (by rw [hnext]; simp)
  refine ⟨s', hs, ⟨?_, ?_, ?_⟩, hcell.trans hnext, hlinks⟩
  · rw [hlinks.nodes]
    exact h.forest
  · rw [hlinks.nodes]
    exact hlisted
  · rw [hlinks.nodes, hlinks.m_data]
    exact h.ordered

/-- A node is taken out with its children. -/
theorem detach_spec (h : Rep m_compare s tops kids) (hr : Rooted s tops) (hn : n ∈ s.nodes) :
    ∃ s' tops' kids', s.node_remove n = some s' ∧ Rep m_compare s' (n :: tops') kids' ∧
      Rooted s' tops' ∧ Links s s' := by
  rcases h.forest.held_by hn with htop | ⟨p, hp, hc⟩
  · obtain rfl : tops = [n] := by
      rcases tops with _ | ⟨r, _ | ⟨r', tops⟩⟩
      · cases htop
      · rw [List.mem_singleton.mp htop]
      · exact hr.elim
    obtain ⟨s', hs, hrep, hroot, hlinks⟩ := remove_root h hr
    exact ⟨s', [], kids, hs, hrep, hroot, hlinks⟩
  · obtain ⟨xs, ys, hk⟩ := List.append_of_mem hc
    obtain ⟨s', hs, hrep, hkeeps⟩ := node_remove_spec h hp _ hk
    exact ⟨s', tops, _, hs, hrep, hr.keeps hkeeps, hkeeps.toLinks⟩

variable [IsStrictWeakOrder T (m_compare · ·)]

/-- The tree of the children is linked with the root. -/
theorem adopt_spec {c : α} (h : Rep m_compare s (c :: n :: tops) kids) (hr : Rooted s tops)
    (hn : kids n = []) :
    ∃ r kids', Rep m_compare (s.adopt m_compare c) [n, r] kids' ∧ kids' n = [] ∧
      Rooted (s.adopt m_compare c) [r] ∧ Links s (s.adopt m_compare c) := by
  unfold Heap.adopt
  rcases tops with _ | ⟨r, _ | ⟨r', tops⟩⟩
  · obtain ⟨hrep, hroot, hlinks⟩ := set_root_spec h
    rw [show s.cell .m_root = none from hr]
    exact ⟨c, kids, hrep.perm (.swap c n []), hn, hroot, hlinks⟩
  · have hperm : [r, c, n].Perm [c, n, r] := (@List.perm_middle _ _ [c, n] []).symm
    obtain ⟨w, s', kids', hs, h', hn', hkeeps⟩ := link_beside (h.perm hperm)
    obtain ⟨hrep, hroot, hlinks⟩ := set_root_spec h'
    rw [hr.1]
    simp only [hs]
    exact ⟨w, kids', hrep.perm (.swap w n []), hn'.trans hn, hroot, hkeeps.toLinks.trans hlinks⟩
  · exact hr.elim

/-- The node has lost its place and its children, which are below the root. -/
theorem unlink_spec (h : Rep m_compare s tops kids) (hr : Rooted s tops) (hn : n ∈ s.nodes) :
    ∃ s' tops' kids', s.unlink m_compare n = some s' ∧ Rep m_compare s' (n :: tops') kids' ∧
      kids' n = [] ∧ Rooted s' tops' ∧ Links s s' := by
  obtain ⟨s₁, tops₁, kids₁, hs₁, h₁, hr₁, hl₁⟩ := detach_spec h hr hn
  have hn₁ := h₁.forest.mem_of_top List.mem_cons_self
  have hhead := (h₁.listed n hn₁).head
  unfold Heap.unlink
  simp only [hs₁, hhead, Option.bind_eq_bind, Option.bind_some]
  cases hk : kids₁ n with
  | nil => exact ⟨s₁, tops₁, kids₁, rfl, h₁, hk, hr₁, hl₁⟩
  | cons c cs =>
    -- what is left of the children hangs below the root
    have adopted : ∀ (v : α) (s₂ : Heap α T) (kids₂ : α → List α),
        Rep m_compare s₂ (v :: n :: tops₁) kids₂ → kids₂ n = [] → Keeps s₁ s₂ (n :: tops₁) →
        ∃ s' tops' kids', some (s₂.adopt m_compare v) = some s' ∧
          Rep m_compare s' (n :: tops') kids' ∧ kids' n = [] ∧ Rooted s' tops' ∧ Links s s' := by
      intro v s₂ kids₂ h₂ hn₂ hk₂
      obtain ⟨r, kids', h', hn', hr', hl'⟩ :=
        adopt_spec h₂ (hr₁.keeps (hk₂.mono (List.subset_cons_self n tops₁))) hn₂
      exact ⟨_, [r], kids', rfl, h', hn', hr', hl₁.trans (hk₂.toLinks.trans hl')⟩
    have hlisted := h₁.listed n hn₁
    rw [hk] at hlisted
    simp only [List.head?_cons, hlisted.2.2.head]
    cases cs with
    | nil =>
      obtain ⟨s₂, kids₂, hs₂, h₂, hn₂, hk₂⟩ := remove_first h₁ hk
      simp only [List.head?_nil, hs₂, Option.bind_some]
      exact adopted c s₂ kids₂ h₂ hn₂ hk₂
    | cons c' cs =>
      have hlen : cs.length < s₁.nodes.length := by
        have hle := h₁.forest.children_length_le hn₁
        rw [hk, List.length_cons, List.length_cons] at hle
        exact Nat.lt_of_lt_of_le (Nat.lt_succ_of_lt (Nat.lt_succ_self _)) hle
      obtain ⟨v, s₂, kids₂, hs₂, h₂, hn₂, hk₂⟩ := recursive_link_spec hlen h₁ hk
      simp only [List.head?_cons, hlisted.2.2.2.2.head, hs₂, Option.bind_some]
      exact adopted v s₂ kids₂ h₂ hn₂ hk₂

/-- A single node is linked with the root. -/
theorem enter_spec (h : Rep m_compare s (n :: tops) kids) (hr : Rooted s tops) :
    ∃ r kids', Rep m_compare (s.enter m_compare n) [r] kids' ∧
      Rooted (s.enter m_compare n) [r] ∧ Links s (s.enter m_compare n) := by
  unfold Heap.enter
  rcases tops with _ | ⟨r, _ | ⟨r', tops⟩⟩
  · rw [show s.cell .m_root = none from hr]
    obtain ⟨hrep, hroot, hlinks⟩ := set_root_spec h
    exact ⟨n, kids, hrep, hroot, hlinks⟩
  · obtain ⟨w, s', kids', hs, h', hkeeps, -, -⟩ := link_spec h
    obtain ⟨hrep, hroot, hlinks⟩ := set_root_spec h'
    rw [hr.1]
    simp only [hs]
    exact ⟨w, kids', hrep, hroot, hkeeps.toLinks.trans hlinks⟩
  · exact hr.elim

end PairingHeapLemmas

open PairingHeapLemmas

/-! ## 2. The operations -/

/-- The nodes are the ones of the tree below the root. -/
structure Inv (m_compare : T → T → Bool) (s : Heap α T) : Prop where
  tree : ∃ tops kids, Rep m_compare s tops kids ∧ Rooted s tops
  size : s.m_size = s.nodes.length

def Heap.entries (s : Heap α T) : Queue α T := HandleQueue.entries s.nodes s.m_data

section

variable [IsStrictWeakOrder T (m_compare · ·)] {s : Heap α T} {p n : α} {d : T}

/-- No node has a greater value than the root. -/
theorem top_max (h : Inv m_compare s) (hne : s.nodes ≠ []) :
    ∃ r, s.cell .m_root = some r ∧ s.top = some (s.m_data r) ∧
      s.entries.IsMax m_compare (r, s.m_data r) := by
  obtain ⟨tops, kids, hrep, hr⟩ := h.tree
  rcases tops with _ | ⟨r, _ | ⟨r', tops⟩⟩
  · exact absurd hrep.forest.nil_of_nil hne
  · have hmem := hrep.forest.mem_of_top (p := r) List.mem_cons_self
    refine ⟨r, hr.1, ?_, mem_entries.mpr ⟨hmem, rfl⟩, fun e he => ?_⟩
    · rw [Heap.top, hr.1]
      rfl
    · obtain ⟨hx, hvalue⟩ := mem_entries.mp he
      obtain ⟨t, ht, hle⟩ := hrep.forest.top_ge hrep.ordered hx
      rw [List.mem_singleton.mp ht, hvalue] at hle
      exact hle
  · exact hr.elim

theorem push_spec (h : Inv m_compare s) (hp : p ∉ s.nodes) :
    ∃ s', s.push m_compare p d = some s' ∧ Inv m_compare s' ∧
      s'.entries = s.entries.push p d := by
  obtain ⟨⟨tops, kids, hrep, hr⟩, hsize⟩ := h
  let s₀ : Heap α T := { s with
    nodes := s.nodes ++ [p]
    cell := Function.update s.cell (.m_children p) none
    m_prev := Function.update s.m_prev p none
    m_data := Function.update s.m_data p d
    m_size := s.m_size + 1 }
  have hold : ∀ q ∈ s.nodes, q ≠ p := fun q hq he => hp (he ▸ hq)
  have hcells : ∀ k, k ≠ .m_children p → s₀.cell k = s.cell k := fun k hk =>
    Function.update_of_ne hk ..
  have hrep₀ : Rep m_compare s₀ (p :: tops) (Function.update kids p []) := by
    refine ⟨hrep.forest.push hp, fun q hq => ?_, fun q hq c hc => ?_⟩
    · by_cases hqp : q = p
      · subst hqp
        rw [Function.update_self]
        exact Function.update_self ..
      · rw [Function.update_of_ne hqp]
        have hq : q ∈ s.nodes := (List.mem_append.mp hq).resolve_right fun he =>
          hqp (List.mem_singleton.mp he)
        refine (hrep.listed q hq).congr ?_ (fun z hz => ?_) fun z hz => ?_
        · exact hcells _ fun he => hqp (Loc.m_children.inj he)
        · exact hcells _ fun he => by cases he
        · exact Function.update_of_ne (hold z (hrep.forest.mem_of_child hq hz)) ..
    · by_cases hqp : q = p
      · rw [hqp, Function.update_self] at hc
        cases hc
      · rw [Function.update_of_ne hqp] at hc
        have hq : q ∈ s.nodes := (List.mem_append.mp hq).resolve_right fun he =>
          hqp (List.mem_singleton.mp he)
        show m_compare (Function.update s.m_data p d q) (Function.update s.m_data p d c) = false
        rw [Function.update_of_ne hqp,
          Function.update_of_ne (hold c (hrep.forest.mem_of_child hq hc))]
        exact hrep.ordered q hq c hc
  have hroot : s₀.cell .m_root = s.cell .m_root := hcells _ fun he => by cases he
  have hr₀ : Rooted s₀ tops := by
    rcases tops with _ | ⟨r, _ | ⟨r', tops⟩⟩
    · exact hroot.trans hr
    · refine ⟨hroot.trans hr.1, (Function.update_of_ne ?_ ..).trans hr.2.1, ?_⟩
      · exact hold r (hrep.forest.mem_of_top List.mem_cons_self)
      · exact (hcells _ fun he => by cases he).trans hr.2.2
    · exact hr.elim
  have hpush : s.push m_compare p d = some (s₀.enter m_compare p) := by
    unfold Heap.push Heap.enter
    rcases tops with _ | ⟨r, _ | ⟨r', tops⟩⟩
    · have hzero : s.m_size = 0 := by rw [hsize, hrep.forest.nil_of_nil]; rfl
      rw [show s₀.cell .m_root = none from hr₀]
      simp only [hzero, if_true, Option.bind_eq_bind, Option.bind_some, s₀]
    · have hpos : s.m_size ≠ 0 := by
        rw [hsize]
        exact Nat.ne_of_gt
          (List.length_pos_of_mem (hrep.forest.mem_of_top List.mem_cons_self))
      have hcell : Function.update s.cell (.m_children p) none .m_root = some r := hr₀.1
      simp only [if_neg hpos, hcell, Option.bind_eq_bind, Option.bind_some, s₀]
    · exact hr.elim
  obtain ⟨r, kids', h', hr', hl'⟩ := enter_spec hrep₀ hr₀
  refine ⟨_, hpush, ⟨⟨[r], kids', h', hr'⟩, ?_⟩, ?_⟩
  · rw [hl'.m_size, hl'.nodes]
    show s.m_size + 1 = (s.nodes ++ [p]).length
    rw [hsize, List.length_append]
    rfl
  · rw [Heap.entries, hl'.nodes, hl'.m_data]
    exact entries_push hp s.m_data d

theorem remove_spec (h : Inv m_compare s) (hn : n ∈ s.nodes) :
    ∃ s', s.remove m_compare n = some s' ∧ Inv m_compare s' ∧
      s'.entries = s.entries.remove n := by
  obtain ⟨⟨tops, kids, hrep, hr⟩, hsize⟩ := h
  obtain ⟨s₁, tops₁, kids₁, hs₁, h₁, hn₁, hr₁, hl₁⟩ := unlink_spec hrep hr hn
  have hmem := h₁.forest.mem_of_top List.mem_cons_self
  refine ⟨{ s₁ with nodes := s₁.nodes.erase n, m_size := s₁.m_size - 1 }, ?_,
    ⟨⟨tops₁, kids₁, ⟨?_, ?_, ?_⟩, ?_⟩, ?_⟩, ?_⟩
  · unfold Heap.remove Heap.delete
    simp only [hs₁, Option.bind_eq_bind, Option.bind_some]
    exact if_pos hmem
  · have := h₁.forest.pop
    rwa [hn₁] at this
  · exact fun q hq => h₁.listed q (List.mem_of_mem_erase hq)
  · exact fun q hq => h₁.ordered q (List.mem_of_mem_erase hq)
  · rcases tops₁ with _ | ⟨r, _ | ⟨r', tops₁⟩⟩
    · exact hr₁
    · exact hr₁
    · exact hr₁.elim
  · show s₁.m_size - 1 = (s₁.nodes.erase n).length
    rw [List.length_erase_of_mem hmem, hl₁.m_size, hl₁.nodes, hsize]
  · show HandleQueue.entries (s₁.nodes.erase n) s₁.m_data = _
    rw [hl₁.nodes, hl₁.m_data]
    exact entries_remove s.nodes s.m_data n

theorem change_spec (h : Inv m_compare s) (hn : n ∈ s.nodes) :
    ∃ s', s.change m_compare n d = some s' ∧ Inv m_compare s' ∧
      s'.entries = s.entries.set n d := by
  obtain ⟨⟨tops, kids, hrep, hr⟩, hsize⟩ := h
  obtain ⟨s₁, tops₁, kids₁, hs₁, h₁, hn₁, hr₁, hl₁⟩ := unlink_spec hrep hr hn
  let s₂ : Heap α T := { s₁ with m_data := Function.update s₁.m_data n d }
  have hrep₂ : Rep m_compare s₂ (n :: tops₁) kids₁ := by
    refine ⟨h₁.forest, h₁.listed, fun q hq c hc => ?_⟩
    have hqn : q ≠ n := by
      rintro rfl
      rw [hn₁] at hc
      cases hc
    have hcn : c ≠ n := by
      rintro rfl
      exact h₁.forest.top_not_child List.mem_cons_self hq hc
    show m_compare (Function.update s₁.m_data n d q) (Function.update s₁.m_data n d c) = false
    rw [Function.update_of_ne hqn, Function.update_of_ne hcn]
    exact h₁.ordered q hq c hc
  have hr₂ : Rooted s₂ tops₁ := by
    rcases tops₁ with _ | ⟨r, _ | ⟨r', tops₁⟩⟩
    · exact hr₁
    · exact hr₁
    · exact hr₁.elim
  obtain ⟨r, kids', h', hr', hl'⟩ := enter_spec hrep₂ hr₂
  have hlinks : (s₂.enter m_compare n).nodes = s.nodes := hl'.nodes.trans hl₁.nodes
  refine ⟨s₂.enter m_compare n, ?_, ⟨⟨[r], kids', h', hr'⟩, ?_⟩, ?_⟩
  · unfold Heap.change
    simp only [hs₁, Option.bind_eq_bind, Option.bind_some, s₂]
  · rw [hlinks, hl'.m_size]
    exact hl₁.m_size.trans hsize
  · rw [Heap.entries, hlinks, hl'.m_data]
    show HandleQueue.entries s.nodes (Function.update s₁.m_data n d) = _
    rw [hl₁.m_data]
    exact entries_set s.nodes s.m_data n d

end

/-! ### The destructor -/

namespace PairingHeapLemmas

omit [DecidableEq α] in
theorem siblings_spec {s : Heap α T} {l : Loc α} {xs : List α} {fuel : Nat}
    (h : Listed .m_next s.cell s.m_prev l xs) (hfuel : xs.length ≤ fuel) :
    s.siblings fuel (s.cell l) = some xs := by
  induction xs generalizing l fuel with
  | nil =>
    rw [show s.cell l = none from h]
    cases fuel <;> rfl
  | cons x xs ih =>
    obtain ⟨fuel, rfl⟩ := Nat.exists_eq_succ_of_ne_zero (Nat.ne_zero_of_lt hfuel)
    rw [h.1, Heap.siblings, ih h.2.2 (Nat.le_of_succ_le_succ hfuel)]
    rfl

/-- What waits in the queue are the tops of what is left. -/
theorem delete_all_spec {s : Heap α T} {tops : List α} {kids : α → List α} {fuel : Nat}
    (hfuel : s.nodes.length ≤ fuel) (h : Forest tops s.nodes kids)
    (hl : ∀ p ∈ s.nodes, Listed .m_next s.cell s.m_prev (.m_children p) (kids p)) :
    ∃ freed, s.delete_all fuel tops = some freed ∧ freed.Perm s.nodes := by
  induction fuel generalizing s tops with
  | zero =>
    have hnil := List.eq_nil_of_length_eq_zero (Nat.le_zero.mp hfuel)
    cases tops with
    | nil => exact ⟨[], rfl, hnil ▸ .refl _⟩
    | cons p tops =>
      have := h.mem_of_top (p := p) List.mem_cons_self
      rw [hnil] at this
      cases this
  | succ fuel ih =>
    cases tops with
    | nil => exact ⟨[], rfl, h.nil_of_nil ▸ .refl _⟩
    | cons p tops =>
      have hp := h.mem_of_top (p := p) List.mem_cons_self
      let s' : Heap α T := { s with nodes := s.nodes.erase p }
      have hlen : s'.nodes.length ≤ fuel := by
        have := List.length_erase_of_mem hp
        exact this ▸ Nat.sub_le_of_le_add hfuel
      obtain ⟨freed, hfreed, hperm⟩ := ih (s := s') hlen
        (h.pop.perm List.perm_append_comm) fun q hq => hl q (List.mem_of_mem_erase hq)
      refine ⟨p :: freed, ?_, (hperm.cons p).trans (List.perm_cons_erase hp).symm⟩
      rw [Heap.delete_all, siblings_spec (hl p hp) (h.children_length_le hp)]
      simp only [Heap.delete, if_pos hp, Option.bind_eq_bind, Option.bind_some]
      exact congrArg (Option.bind · _) hfreed

end PairingHeapLemmas

open PairingHeapLemmas in
theorem destroy_spec {s : Heap α T} (h : Inv m_compare s) :
    ∃ freed, s.destroy = some freed ∧ freed.Perm s.nodes := by
  obtain ⟨tops, kids, hrep, hr⟩ := h.tree
  have htops : (s.cell .m_root).toList = tops := by
    rcases tops with _ | ⟨r, _ | ⟨r', tops⟩⟩
    · rw [show s.cell .m_root = none from hr]
      rfl
    · rw [hr.1]
      rfl
    · exact hr.elim
  rw [Heap.destroy, htops]
  exact delete_all_spec (Nat.le_refl _) hrep.forest hrep.listed

/-! ## 3. The queue -/

/-- The queue with handles: `pop` removes a maximum, and a maximum is the top. -/
def queue (α : Type) [DecidableEq α] (m_compare : T → T → Bool) :
    System (Queue α T) (Label α T) where
  init q := q = []
  step q l q' :=
    match l with
    | .push p d => (∀ e ∈ q, e.1 ≠ p) ∧ q' = q.push p d
    | .pop => q.Pops m_compare q'
    | .change n d => (∃ e ∈ q, e.1 = n) ∧ q' = q.set n d
    | .change_top d => ∃ e, q.IsMax m_compare e ∧ q' = q.set e.1 d
    | .remove n => (∃ e ∈ q, e.1 = n) ∧ q' = q.remove n

variable [IsStrictWeakOrder T (m_compare · ·)]

/-- Every operation returns, and is the one of the queue. -/
theorem exec_spec {s : Heap α T} {l : Label α T} (h : Inv m_compare s) (hv : Valid s l) :
    ∃ s', exec m_compare s l = some s' ∧ Inv m_compare s' ∧
      (queue α m_compare).step s.entries l s'.entries := by
  have hentry : ∀ n ∈ s.nodes, ∃ e ∈ s.entries, e.1 = n := fun n hn =>
    ⟨(n, s.m_data n), mem_entries.mpr ⟨hn, rfl⟩, rfl⟩
  cases l with
  | push p d =>
    obtain ⟨s', hs, hinv, he⟩ := push_spec h hv
    exact ⟨s', hs, hinv, fun e hmem hep => hv (hep ▸ (mem_entries.mp hmem).1), he⟩
  | pop =>
    obtain ⟨r, hr, -, hmax⟩ := top_max h hv
    obtain ⟨s', hs, hinv, he⟩ := remove_spec h (mem_entries.mp hmax.1).1
    refine ⟨s', ?_, hinv, _, hmax, he⟩
    simp only [exec, Heap.pop, hr, Option.bind_eq_bind, Option.bind_some, hs]
  | change n d =>
    obtain ⟨s', hs, hinv, he⟩ := change_spec h hv
    exact ⟨s', hs, hinv, hentry n hv, he⟩
  | change_top d =>
    obtain ⟨r, hr, -, hmax⟩ := top_max h hv
    obtain ⟨s', hs, hinv, he⟩ := change_spec h (mem_entries.mp hmax.1).1
    refine ⟨s', ?_, hinv, _, hmax, he⟩
    simp only [exec, Heap.change_top, hr, Option.bind_eq_bind, Option.bind_some, hs]
  | remove n =>
    obtain ⟨s', hs, hinv, he⟩ := remove_spec h hv
    exact ⟨s', hs, hinv, hentry n hv, he⟩

omit [IsStrictWeakOrder T (m_compare · ·)] in
theorem inv_initial {s : Heap α T} (h : (system α m_compare).init s) :
    Inv m_compare s ∧ s.entries = [] := by
  obtain ⟨hnodes, hroot, hsize⟩ := h
  refine ⟨⟨⟨[], fun _ => [], ⟨⟨?_, ?_, fun _ => 0, ?_⟩, ?_, ?_⟩, hroot⟩, ?_⟩, ?_⟩
  all_goals simp [hnodes, hsize, Heap.entries, HandleQueue.entries, Ordered]

/-- After every run the links are one tree that holds every node once, no child of which
is greater than its parent. The operations were those of a queue with handles that holds
the same values, of which `top()` is a maximum. All operations return, and the destructor
deletes every node once. -/
theorem pairing_refines_queue {s₀ s : Heap α T} {tr : List (Label α T)}
    (h₀ : (system α m_compare).init s₀) (h : Run (system α m_compare) s₀ tr s) :
    (∃ tops kids, Rep m_compare s tops kids ∧ Rooted s tops ∧ (∃ l, Walk kids tops l) ∧
      ∀ l, Walk kids tops l → l.Perm s.nodes) ∧
    s.m_size = s.entries.length ∧
    Run (queue α m_compare) [] tr s.entries ∧
    (∀ l, Valid s l → ∃ s', exec m_compare s l = some s') ∧
    (s.nodes ≠ [] → ∃ r, s.cell .m_root = some r ∧ s.top = some (s.m_data r) ∧
      s.entries.IsMax m_compare (r, s.m_data r)) ∧
    ∃ freed, s.destroy = some freed ∧ freed.Perm s.nodes := by
  obtain ⟨hinv₀, hentries₀⟩ := inv_initial h₀
  have hqueue : ∃ q, Run (queue α m_compare) [] tr q ∧ q = s.entries ∧ Inv m_compare s := by
    refine h.simulate (R := fun q s => q = s.entries ∧ Inv m_compare s)
      ⟨hentries₀.symm, hinv₀⟩ ?_
    rintro q s l s' ⟨rfl, hi⟩ hs
    obtain ⟨hv, hs⟩ := Option.ite_none_right_eq_some.mp hs
    obtain ⟨s'', hs'', hi', hq⟩ := exec_spec hi hv
    rw [hs, Option.some.injEq] at hs''
    subst hs''
    exact ⟨_, hq, rfl, hi'⟩
  obtain ⟨q, hrun, rfl, hinv⟩ := hqueue
  obtain ⟨tops, kids, hrep, hr⟩ := hinv.tree
  refine ⟨⟨tops, kids, hrep, hr, hrep.forest.exists_walk, fun l hl => hl.perm hrep.forest⟩, ?_,
    hrun, fun l hv => ?_, top_max hinv, destroy_spec hinv⟩
  · rw [hinv.size, Heap.entries, HandleQueue.entries, List.length_map]
  · obtain ⟨s', hs', -⟩ := exec_spec hinv hv
    exact ⟨s', hs'⟩

/-- The children of the first top are paired, an inner node is changed and one removed. -/
def exRun : List (Label Nat Nat) :=
  [.push 0 3, .push 1 5, .push 2 4, .push 3 1, .pop, .change 0 9, .remove 2, .change_top 2]

theorem pairing_refines_queue_example : ∃ s, Run (system Nat fun x y => decide (x < y))
      ⟨[], fun _ => none, fun _ => none, fun _ => 0, 0⟩ exRun s ∧
    s.entries = [(0, 2), (3, 1)] ∧
    Run (queue Nat fun x y => decide (x < y)) [] exRun s.entries := by
  have hrun := run_replay (S := system Nat fun x y => decide (x < y)) (fun _ _ _ => id)
    (show (replay (next fun x y => decide (x < y))
      ⟨[], fun _ => none, fun _ => none, fun _ => 0, 0⟩ exRun).isSome by decide)
  refine ⟨_, hrun, by decide, ?_⟩
  exact (pairing_refines_queue ⟨rfl, rfl, rfl⟩ hrun).2.2.1

end

end Kuhllib.PairingHeap
