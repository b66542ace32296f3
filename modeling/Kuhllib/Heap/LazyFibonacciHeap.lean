import Kuhllib.Lib.HandleQueue
import Kuhllib.Lib.RankForest

/-!
# `boost::lazy_fibonacci_heap`

Trees that have been cut wait in `m_cut_nodes` until a maximum is needed. Nodes and
handles are those of `fibonacci_heap`. `m_min` has no value before the first `push()`.
Access through a null pointer or behind the end of a vector fails, and so does `assert`.

Results:
1. `add_root_spec`, `cut_spec`: the table, the vectors and the states stay right.
2. `lazy_fibonacci_refines_queue`: the heap is a queue with handles that pops a maximum, over all runs
   whose steps keep away from three slips of `increase()` and `decrease()`.
3. `lazy_fibonacci_not_refines_queue`: with them `top()` is not a maximum, or an operation goes wrong.
-/

namespace Kuhllib.LazyFibonacciHeap

open HandleQueue HeapForest RankForest Transition

/-! ## Model -/

/-! `node_state`. A node that waits counts on from `cut_self` when it loses children. -/

abbrev cut_none : Nat := 0
abbrev cut_one : Nat := 1
abbrev cut_two : Nat := 2
abbrev clean : Nat := 4
abbrev root_cut_one : Nat := 5
abbrev cut_self : Nat := 8

structure Heap (α T : Type) extends Vectors α where
  nodes : List α
  m_state : α → Nat
  m_data : α → T
  m_roots : List (Option α)
  m_cut_nodes : List α
  m_size : Nat
  m_min : Option α

variable {α T : Type} [DecidableEq α]

def Heap.rank (s : Heap α T) (n : α) : Nat := (s.children n).length

def Heap.set_state (s : Heap α T) (n : α) (state : Nat) : Heap α T :=
  { s with m_state := Function.update s.m_state n state }

/-- `n->clear()`. -/
def Heap.clear (s : Heap α T) (n : α) : Heap α T :=
  { s with toVectors := s.toVectors.clear n }.set_state n clean

/-- `n->join(tree)`. -/
def Heap.join (s : Heap α T) (n tree : α) : Heap α T :=
  ({ s with toVectors := s.toVectors.join n tree }.set_state n clean).set_state tree cut_none

/-- `p->cut(child)`. -/
def Heap.node_cut (s : Heap α T) (p child : α) : Option (Heap α T) := do
  some ({ s with toVectors := ← s.toVectors.cut p child }.set_state p (s.m_state p + 1))

/-- `n->data(d)`. -/
def Heap.set_data (s : Heap α T) (n : α) (d : T) : Heap α T :=
  { s with m_data := Function.update s.m_data n d }

/-- `n->remove_all()`. -/
def Heap.remove_all (s : Heap α T) (n : α) : Heap α T :=
  { s with children := Function.update s.children n [] }

/-- `m_roots[rank] = 0`. -/
def Heap.clear_entry (s : Heap α T) (rank : Nat) : Option (Heap α T) := do
  some { s with m_roots := ← assign s.m_roots rank none }

/-- `m_cut_nodes.push_back(n)`. -/
def Heap.push_cut (s : Heap α T) (n : α) : Heap α T :=
  { s with m_cut_nodes := s.m_cut_nodes ++ [n] }

/-- `n->set_cut(); m_cut_nodes.push_back(n);` for the `k` children of `n` from `i` on. -/
def Heap.cut_children : Nat → Heap α T → α → Nat → Option (Heap α T)
  | 0, s, _, _ => some s
  | k + 1, s, n, i => do
    let c ← (s.children n)[i]?
    cut_children k ((s.set_state c cut_self).push_cut c) n (i + 1)

def Heap.cut_rec : Nat → Heap α T → α → Option (Heap α T)
  | 0, _, _ => none
  | fuel + 1, s, n => do
    let p ← s.parent n
    let s ← s.node_cut p n
    if s.m_state p = clean then none
    else if s.m_state p = root_cut_one then do
      let s ← s.clear_entry (s.rank p + 1)
      some { (s.set_state p cut_self).push_cut p with m_min := none }
    else if s.m_state p = cut_one then some s
    else if s.m_state p = cut_two then do
      let s ← cut_rec fuel s p
      some ((s.set_state p cut_self).push_cut p)
    else some s

/-- A node has fewer nodes above it than there are. -/
def Heap.cut (s : Heap α T) (n : α) : Option (Heap α T) := s.cut_rec s.nodes.length n

section

variable (m_compare : T → T → Bool)

def Heap.add_root_rec : Nat → Heap α T → α → Option (Heap α T)
  | 0, _, _ => none
  | fuel + 1, s, n =>
    let rank := s.rank n
    match s.m_roots[rank]? with
    | none =>
      let nulls := List.replicate (rank - s.m_roots.length) none
      some ({ s with m_roots := s.m_roots ++ nulls ++ [some n] }.clear n)
    | some none => some ({ s with m_roots := s.m_roots.set rank (some n) }.clear n)
    | some (some r) =>
      let s := { s.set_state r cut_none with m_roots := s.m_roots.set rank none }
      if m_compare (s.m_data n) (s.m_data r) then add_root_rec fuel ((s.clear n).join r n) r
      else add_root_rec fuel ((s.clear r).join n r) n

/-- Every call of itself takes a root out of the table. -/
def Heap.add_root (s : Heap α T) (n : α) : Option (Heap α T) :=
  s.add_root_rec m_compare (s.m_roots.length + 1) n

/-- `for (; it != end; ++it) add_root(*it);`. -/
def Heap.add_roots : List α → Heap α T → Option (Heap α T)
  | [], s => some s
  | n :: l, s => do add_roots l (← s.add_root m_compare n)

def Heap.find_min (s : Heap α T) : Option (Heap α T) :=
  if s.m_size = 0 then some { s with m_min := none }
  else do
    let s ← s.add_roots m_compare s.m_cut_nodes
    let s := { s with m_cut_nodes := [] }
    let m_min ← best (fun m r => m_compare (s.m_data m) (s.m_data r)) s.m_roots
    some { s with m_min := some m_min }

/-- `if (m_min == 0) find_min();`. -/
def Heap.ensure_min (s : Heap α T) : Option (Heap α T) :=
  if s.m_min = none then s.find_min m_compare else some s

/-- At the end `it` is the one behind the children, and they have been removed. -/
def Heap.decrease (s : Heap α T) (n : α) (d : T) : Option (Heap α T) := do
  let s := s.set_data n d
  let k := s.rank n
  let s ←
    if (s.children n).any fun c => m_compare (s.m_data n) (s.m_data c) then do
      let s ← if s.m_state n = clean then s.clear_entry (s.rank n) else s.cut n
      let s ← s.cut_children k n 0
      let s := s.remove_all n
      some (s.push_cut (← (s.children n)[k]?))
    else some s
  some (if s.m_min = some n then { s with m_min := none } else s)

def Heap.increase (s : Heap α T) (n : α) (d : T) : Option (Heap α T) := do
  let s := s.set_data n d
  if s.m_state n < clean then do
    let p ← s.parent n
    if m_compare (s.m_data p) (s.m_data n) then do
      let s ← s.cut n
      some { s.push_cut n with m_min := none }
    else some s
  else some s

def Heap.change (s : Heap α T) (n : α) (d : T) : Option (Heap α T) :=
  if m_compare (s.m_data n) d then s.increase m_compare n d else s.decrease m_compare n d

def Heap.change_top (s : Heap α T) (d : T) : Option (Heap α T) := do
  let s ← s.ensure_min m_compare
  s.change m_compare (← s.m_min) d

/-- The heap after `top()`, and the value returned. -/
def Heap.top (s : Heap α T) : Option (Heap α T × T) := do
  let s ← s.ensure_min m_compare
  some (s, s.m_data (← s.m_min))

/-- `delete n`. -/
def Heap.delete (s : Heap α T) (n : α) : Option (Heap α T) :=
  if n ∈ s.nodes then some { s with nodes := s.nodes.erase n } else none

def Heap.pop (s : Heap α T) : Option (Heap α T) := do
  let s ← s.ensure_min m_compare
  let del ← s.m_min
  let s ← s.clear_entry (s.rank del)
  let s ← s.cut_children (s.rank del) del 0
  let s := { s with m_size := s.m_size - 1 }
  let s ← s.delete del
  some { s with m_min := none }

end

/-- `push(d)`, where the node is created at `n`. -/
def Heap.push (s : Heap α T) (n : α) (d : T) : Heap α T :=
  let s := { s with
    nodes := s.nodes ++ [n]
    children := Function.update s.children n []
    parent := Function.update s.parent n none
    m_state := Function.update s.m_state n clean
    m_data := Function.update s.m_data n d
    m_size := s.m_size + 1 }
  { (s.set_state n cut_self).push_cut n with m_min := none }

/-- What a caller has to take care of: a new node is none of the nodes, there is a top,
and a handle is the one of a node. -/
def Valid (s : Heap α T) : Op α T → Prop
  | .push p _ => p ∉ s.nodes
  | .pop | .top | .change_top _ => s.nodes ≠ []
  | .increase n _ | .decrease n _ | .change n _ => n ∈ s.nodes

instance decidableValid (s : Heap α T) : ∀ l : Op α T, Decidable (Valid s l)
  | .push p _ => inferInstanceAs (Decidable (p ∉ s.nodes))
  | .pop | .top | .change_top _ => inferInstanceAs (Decidable (s.nodes ≠ []))
  | .increase n _ | .decrease n _ | .change n _ => inferInstanceAs (Decidable (n ∈ s.nodes))

def exec (m_compare : T → T → Bool) (s : Heap α T) : Op α T → Option (Heap α T)
  | .push p d => some (s.push p d)
  | .pop => s.pop m_compare
  | .top => (s.top m_compare).map Prod.fst
  | .increase n d => s.increase m_compare n d
  | .decrease n d => s.decrease m_compare n d
  | .change n d => s.change m_compare n d
  | .change_top d => s.change_top m_compare d

def next (m_compare : T → T → Bool) (s : Heap α T) (l : Op α T) : Option (Heap α T) :=
  if Valid s l then exec m_compare s l else none

def system (α : Type) [DecidableEq α] (m_compare : T → T → Bool) :
    System (Heap α T) (Op α T) where
  init s := s.nodes = [] ∧ s.m_roots = [] ∧ s.m_cut_nodes = [] ∧ s.m_size = 0
  step s l s' := next m_compare s l = some s'

/-! ### The condition -/

/-- The nodes that `cut(n)` cuts: `n`, and its parent if that has lost a child before. -/
def Heap.cascade : Nat → Heap α T → α → List α
  | 0, _, n => [n]
  | fuel + 1, s, n =>
    match s.parent n with
    | some p => if s.m_state p = cut_one then n :: cascade fuel s p else [n]
    | none => [n]

section

variable (m_compare : T → T → Bool)

/-- `increase(n, d)` cuts `n`. -/
def Heap.cuts (s : Heap α T) (n : α) (d : T) : Bool :=
  s.m_state n < clean ∧ (s.parent n).any fun p => m_compare (s.m_data p) d

/-- `increase(n, d)`: no child is greater than `d`; where it cuts, no node that waits is cut
once more; where it does not, `m_min`, which is left, is still a maximum. -/
abbrev FitsIncrease (s : Heap α T) (n : α) (d : T) : Prop :=
  (∀ c ∈ s.children n, m_compare d (s.m_data c) = false) ∧
  if s.cuts m_compare n d then ∀ m ∈ s.cascade s.nodes.length n, m ∉ s.m_cut_nodes
  else ∀ r ∈ s.m_min, if n = r then ∀ x ∈ s.nodes, x ≠ n → m_compare d (s.m_data x) = false
    else m_compare (s.m_data r) d = false

/-- `decrease(n, d)`: no child is greater than `d`, neither the parent nor `m_min` is less. -/
abbrev FitsDecrease (s : Heap α T) (n : α) (d : T) : Prop :=
  (∀ c ∈ s.children n, m_compare d (s.m_data c) = false) ∧
  (∀ p ∈ s.nodes, n ∈ s.children p → m_compare (s.m_data p) d = false) ∧
  ∀ r ∈ s.m_min, n ≠ r → m_compare (s.m_data r) d = false

/-- `change_top(d)`: after the clean-up no child of the top is greater than `d`. -/
abbrev FitsTop (s : Heap α T) (d : T) : Prop :=
  ∀ s₁ ∈ s.ensure_min m_compare, ∀ r ∈ s₁.m_min, ∀ c ∈ s₁.children r,
    m_compare d (s₁.m_data c) = false

def Fits (s : Heap α T) : Op α T → Prop
  | .increase n d => FitsIncrease m_compare s n d
  | .decrease n d => FitsDecrease m_compare s n d
  | .change n d =>
    if m_compare (s.m_data n) d then FitsIncrease m_compare s n d
    else FitsDecrease m_compare s n d
  | .change_top d => FitsTop m_compare s d
  | .push _ _ | .pop | .top => True

instance decidableFits (s : Heap α T) : ∀ l : Op α T, Decidable (Fits m_compare s l)
  | .increase n d => inferInstanceAs (Decidable (FitsIncrease m_compare s n d))
  | .decrease n d => inferInstanceAs (Decidable (FitsDecrease m_compare s n d))
  | .change n d => inferInstanceAs (Decidable (if m_compare (s.m_data n) d
      then FitsIncrease m_compare s n d else FitsDecrease m_compare s n d))
  | .change_top d => inferInstanceAs (Decidable (FitsTop m_compare s d))
  | .push _ _ | .pop | .top => inferInstanceAs (Decidable True)

end

/-! ## 1. The table, the vectors and the states -/

/-- The parent is not less than the child. -/
def NotLess (m_compare : T → T → Bool) (s : Heap α T) (p c : α) : Prop :=
  m_compare (s.m_data p) (s.m_data c) = false

/-- Roots are clean, and children have lost at most one child, but for those in `out`. -/
structure Settled (s : Heap α T) (nodes out : List α) : Prop where
  root : ∀ (i : Nat) r, s.m_roots[i]? = some (some r) → s.m_state r = clean
  child : ∀ p ∈ nodes, ∀ c ∈ s.children p, c ∉ out → s.m_state c ≤ cut_one

/-- A tree that waits is marked, or has been cut by `increase()`: then it has kept its state
and its parent. -/
def Waiting (s : Heap α T) (n : α) : Prop :=
  cut_self ≤ s.m_state n ∨ s.m_state n ≤ cut_one ∧ ∃ p ∈ s.nodes, s.parent n = some p

/-- What is neither vector, table nor state is kept. -/
structure Links (s s' : Heap α T) : Prop where
  nodes : s'.nodes = s.nodes
  m_data : s'.m_data = s.m_data
  m_size : s'.m_size = s.m_size

section

variable {m_compare : T → T → Bool} {above above' : α → α → Prop} {s s' s'' : Heap α T}
  {loose nodes out : List α} {p n : α} {d : T}

omit [DecidableEq α] in
theorem Links.refl (s : Heap α T) : Links s s := ⟨rfl, rfl, rfl⟩

omit [DecidableEq α] in
theorem Links.trans (h : Links s s') (h' : Links s' s'') : Links s s'' :=
  ⟨h'.nodes.trans h.nodes, h'.m_data.trans h.m_data, h'.m_size.trans h.m_size⟩

omit [DecidableEq α] in
theorem Links.notLess (h : Links s s') : NotLess m_compare s' = NotLess m_compare s := by
  unfold NotLess
  rw [h.m_data]

omit [DecidableEq α] in
theorem clear_entry_eq {i : Nat} {o : Option α} (hi : s.m_roots[i]? = some o) :
    s.clear_entry i = some { s with m_roots := s.m_roots.set i none } := by
  unfold Heap.clear_entry
  rw [show assign s.m_roots i none = some (s.m_roots.set i none) from
    if_pos (List.getElem?_eq_some_iff.mp hi).1]
  rfl

/-- `hless`: the order of the values is what decides about parents and children. -/
theorem add_root_rec_spec [IsStrictWeakOrder T (m_compare · ·)] {fuel : Nat}
    (hless : ∀ p c, NotLess m_compare s p c → above p c)
    (h : Ranked above s.toVectors s.m_roots (n :: loose) nodes) (hs : Settled s nodes [])
    (hfuel : s.m_roots.reduceOption.length < fuel) :
    ∃ s', s.add_root_rec m_compare fuel n = some s' ∧
      Ranked above s'.toVectors s'.m_roots loose nodes ∧ Settled s' nodes [] ∧ Links s s' := by
  induction fuel generalizing s n with
  | zero => exact absurd hfuel (Nat.not_lt_zero _)
  | succ fuel ih =>
    have hclear : ∀ roots, (∀ (i : Nat) r, roots[i]? = some (some r) →
        (∃ j : Nat, s.m_roots[j]? = some (some r)) ∨ r = n) →
        Settled (Heap.clear { s with m_roots := roots } n) nodes [] := by
      intro roots hroots
      have hstate : ∀ q, q ≠ n → Function.update s.m_state n clean q = s.m_state q := fun q hq =>
        Function.update_of_ne hq ..
      refine ⟨fun i r hi => ?_, fun p hp c hc hout => ?_⟩
      · rcases hroots i r hi with ⟨j, hj⟩ | rfl
        · have hrn : r ≠ n := fun he => h.not_loose hj (he ▸ List.mem_cons_self)
          exact (hstate r hrn).trans (hs.root j r hj)
        · exact Function.update_self ..
      · have hcn : c ≠ n := fun he => h.not_child List.mem_cons_self hp (he ▸ hc)
        exact (hstate c hcn).trans_le (hs.child p hp c hc hout)
    unfold Heap.add_root_rec
    dsimp only
    split
    case h_1 hrank =>
      have hk := Nat.add_sub_of_le (List.getElem?_eq_none_iff.mp hrank)
      refine ⟨_, rfl, h.extend hk, hclear _ fun i r hi => ?_, rfl, rfl, rfl⟩
      exact (append_entry hi).imp (fun hi => ⟨i, hi⟩) And.right
    case h_2 hrank =>
      refine ⟨_, rfl, h.put hrank, hclear _ fun i r hi => ?_, rfl, rfl, rfl⟩
      exact (set_some_entry hi).imp (fun hi => ⟨i, hi⟩) And.right
    case h_3 r hrank =>
      obtain ⟨htake, hlen⟩ := h.take (i := s.rank n) hrank
      have hfuel : (s.m_roots.set (s.rank n) none).reduceOption.length < fuel := by omega
      let s₁ : Heap α T := { s.set_state r cut_none with
        m_roots := s.m_roots.set (s.rank n) none }
      -- the loser is linked to the winner, which goes on
      have hlink : ∀ winner loser, (loser :: winner :: loose).Perm (r :: n :: loose) →
          NotLess m_compare s winner loser →
          ∃ s', ((s₁.clear loser).join winner loser).add_root_rec m_compare fuel winner =
              some s' ∧
            Ranked above s'.toVectors s'.m_roots loose nodes ∧ Settled s' nodes [] ∧
            Links s s' := by
        intro winner loser hperm hle
        have hloose := htake.perm hperm
        have hjoin := (hloose.clear.perm (List.Perm.swap ..)).join (hless winner loser hle)
        have hstate : ∀ q, q ∉ r :: n :: loose →
            ((s₁.clear loser).join winner loser).m_state q = s.m_state q := by
          intro q hq
          have hne : ∀ x ∈ r :: n :: loose, q ≠ x := fun x hx he => hq (he ▸ hx)
          have hw := hne winner
            (hperm.mem_iff.mp (List.mem_cons_of_mem loser List.mem_cons_self))
          have hl := hne loser (hperm.mem_iff.mp List.mem_cons_self)
          refine (Function.update_of_ne hl ..).trans ((Function.update_of_ne hw ..).trans ?_)
          exact (Function.update_of_ne hl ..).trans
            (Function.update_of_ne (hne r List.mem_cons_self) ..)
        have hsettled : Settled ((s₁.clear loser).join winner loser) nodes [] := by
          refine ⟨fun i q hi => ?_, fun q hq c hc hout => ?_⟩
          · rw [hstate q (htake.not_loose hi)]
            exact hs.root i q (set_none_entry hi)
          · rcases mem_join hc with hc | ⟨rfl, rfl⟩
            · rw [hstate c fun hmem => htake.not_child hmem hq hc]
              exact hs.child q hq c hc hout
            · rw [show ((s₁.clear c).join q c).m_state c = cut_none from Function.update_self ..]
              exact Nat.zero_le _
        obtain ⟨s', hs, h', hsettled, hl⟩ := ih (s := (s₁.clear loser).join winner loser) hless
          hjoin hsettled hfuel
        exact ⟨s', hs, h', hsettled, hl.nodes, hl.m_data, hl.m_size⟩
      split
      case isTrue hlt =>
        exact hlink r n (List.Perm.swap ..)
          (Bool.eq_false_iff.mpr (asymm_of (m_compare · ·) hlt))
      case isFalse hlt => exact hlink n r (.refl _) (Bool.eq_false_iff.mpr hlt)

/-- The clean-up of the trees that wait. -/
theorem add_roots_spec [IsStrictWeakOrder T (m_compare · ·)] {l : List α}
    (hless : ∀ p c, NotLess m_compare s p c → above p c)
    (h : Ranked above s.toVectors s.m_roots l nodes) (hs : Settled s nodes []) :
    ∃ s', s.add_roots m_compare l = some s' ∧ Ranked above s'.toVectors s'.m_roots [] nodes ∧
      Settled s' nodes [] ∧ Links s s' := by
  induction l generalizing s with
  | nil => exact ⟨s, rfl, h, hs, Links.refl s⟩
  | cons n l ih =>
    obtain ⟨s₁, hs₁, h₁, hsettled₁, hl₁⟩ := add_root_rec_spec hless h hs
      (Nat.lt_succ_of_le (List.reduceOption_length_le _))
    obtain ⟨s', hs', h', hsettled', hl'⟩ := ih (hl₁.notLess ▸ hless) h₁ hsettled₁
    refine ⟨s', ?_, h', hsettled', hl₁.trans hl'⟩
    rw [Heap.add_roots, Heap.add_root, hs₁]
    exact hs'

/-! ### Cuts -/

omit [DecidableEq α] in
theorem cascade_one {fuel : Nat} (hparent : s.parent n = some p) (hstate : s.m_state p = cut_one) :
    s.cascade (fuel + 1) n = n :: s.cascade fuel p := by
  simp only [Heap.cascade, hparent, if_pos hstate]

omit [DecidableEq α] in
theorem cascade_of_ne {fuel : Nat} (h : ∀ p ∈ s.parent n, s.m_state p ≠ cut_one) :
    s.cascade fuel n = [n] := by
  cases fuel with
  | zero => rfl
  | succ fuel =>
    cases hp : s.parent n with
    | none => simp only [Heap.cascade, hp]
    | some p => simp only [Heap.cascade, hp, if_neg (h p hp)]

omit [DecidableEq α] in
theorem mem_cascade (s : Heap α T) (fuel : Nat) (n : α) : n ∈ s.cascade fuel n := by
  rcases Classical.em (∃ p ∈ s.parent n, s.m_state p = cut_one) with ⟨p, hp, hone⟩ | hnone
  · cases fuel with
    | zero => exact List.mem_cons_self
    | succ fuel => exact cascade_one hp hone ▸ List.mem_cons_self
  · rw [cascade_of_ne fun p hp hone => hnone ⟨p, hp, hone⟩]
    exact List.mem_cons_self

omit [DecidableEq α] in
theorem cascade_subset {fuel : Nat} (hparent : s'.parent = s.parent)
    (hstate : ∀ q, s'.m_state q = cut_one → s.m_state q = cut_one) :
    s'.cascade fuel n ⊆ s.cascade fuel n := by
  induction fuel generalizing n with
  | zero => exact List.Subset.refl _
  | succ fuel ih =>
    rcases Classical.em (∃ p ∈ s'.parent n, s'.m_state p = cut_one) with ⟨p, hp, hone⟩ | hnone
    · rw [cascade_one hp hone, cascade_one (hparent ▸ hp) (hstate p hone)]
      exact List.cons_subset_cons n ih
    · rw [cascade_of_ne fun p hp hone => hnone ⟨p, hp, hone⟩]
      exact List.cons_subset.mpr ⟨mem_cascade s _ n, List.nil_subset _⟩

omit [DecidableEq α] in
theorem Waiting.congr (h : Waiting s n) (hstate : s'.m_state n = s.m_state n)
    (hparent : s'.parent = s.parent) (hnodes : s'.nodes = s.nodes) : Waiting s' n := by
  unfold Waiting
  rw [hstate, hparent, hnodes]
  exact h

omit [DecidableEq α] in
/-- The state of a loose tree is not the one of a child. -/
theorem Settled.of_loose (hs : Settled s nodes [p])
    (h : Ranked above s.toVectors s.m_roots loose nodes) (hp : p ∈ loose) :
    Settled s nodes [] := by
  refine ⟨hs.root, fun q hq c hc _ => hs.child q hq c hc fun hout => ?_⟩
  exact h.not_child hp hq (List.mem_singleton.mp hout ▸ hc)

omit [DecidableEq α] in
/-- After a cut only the parent may have lost too much. -/
theorem Settled.cut (hs : Settled s nodes [n]) (hcut : Cut s.toVectors s'.toVectors p n)
    (h' : Ranked above s'.toVectors s'.m_roots loose nodes) (hn : n ∈ loose)
    (hroots : ∀ (i : Nat) r, s'.m_roots[i]? = some (some r) →
      s.m_roots[i]? = some (some r) ∧ r ≠ p)
    (hother : ∀ x, x ≠ p → s'.m_state x = s.m_state x) : Settled s' nodes [p] := by
  refine ⟨fun i r hi => ?_, fun q hq c hc hout => ?_⟩
  · obtain ⟨hi, hrp⟩ := hroots i r hi
    rw [hother r hrp]
    exact hs.root i r hi
  · rw [hother c fun he => hout (List.mem_singleton.mpr he)]
    refine hs.child q hq c (hcut.subset q hc) fun hcn => ?_
    exact h'.not_child hn hq (List.mem_singleton.mp hcn ▸ hc)

omit [DecidableEq α] in
theorem push_cut_perm {l cut_nodes : List α} :
    (l ++ (cut_nodes ++ [p])).Perm (p :: (l ++ cut_nodes)) := by
  rw [← List.append_assoc]
  exact List.perm_append_singleton p _

/-- What is no root has no state of a root when it loses a child. -/
theorem state_succ {k : Nat} (h : cut_self ≤ k ∨ k ≤ cut_one) :
    k + 1 ≠ clean ∧ k + 1 ≠ root_cut_one ∧
      (k + 1 = cut_one ∨ k = cut_one ∧ k + 1 = cut_two ∨
        cut_self ≤ k + 1 ∧ k + 1 ≠ cut_one ∧ k + 1 ≠ cut_two) := by
  dsimp only [cut_self, cut_one, cut_two, clean, root_cut_one] at *
  omega

/-- The trees that have been cut before are not above the one that is cut now. Whose parent
is above has any state. -/
theorem cut_rec_spec {fuel : Nat} {height : α → Nat} (loose : List α)
    (hmono : ∀ q z, z ≠ n → above' q z → above q z)
    (h : Ranked above' s.toVectors s.m_roots (loose ++ s.m_cut_nodes) s.nodes)
    (hs : Settled s s.nodes [n]) (hw : ∀ x ∈ s.m_cut_nodes, Waiting s x)
    (hheight : ∀ q ∈ s.nodes, ∀ c ∈ s.children q, height c < height q)
    (hloose : ∀ x ∈ loose, height x ≤ height n)
    (hp : p ∈ s.nodes) (hn : n ∈ s.children p)
    (hfresh : ∀ m ∈ s.cascade fuel n, m ∉ s.m_cut_nodes)
    (hfuel : s.nodes.countP (height n < height ·) ≤ fuel) :
    ∃ s', s.cut_rec fuel n = some s' ∧
      Ranked above s'.toVectors s'.m_roots (n :: (loose ++ s'.m_cut_nodes)) s'.nodes ∧
      Settled s' s'.nodes [] ∧ (∀ x ∈ s'.m_cut_nodes, Waiting s' x) ∧
      s'.parent = s.parent ∧ (∀ x, height x ≤ height n → s'.m_state x = s.m_state x) ∧
      Links s s' := by
  induction fuel generalizing s above' loose n p with
  | zero =>
    have := higher_lt hp (hheight p hp n hn)
    omega
  | succ fuel ih =>
    have hparent : s.parent n = some p := h.wired.parent p hp n hn
    have hlt := hheight p hp n hn
    have hnot : p ∉ n :: loose := by
      intro hmem
      rcases List.mem_cons.mp hmem with rfl | hmem
      · exact Nat.lt_irrefl _ hlt
      · exact Nat.lt_irrefl _ (Nat.lt_of_lt_of_le hlt (hloose p hmem))
    rw [Heap.cut_rec, hparent]
    simp only [Option.bind_eq_bind, Option.bind_some]
    rcases h.cases hp with hmem | ⟨i, hi⟩ | ⟨q, hq, hpq⟩
    · -- the parent waits
      obtain ⟨v', hv, h', hcut⟩ := h.cut hp hn hmono fun i hi => h.not_loose hi hmem
      let s₁ : Heap α T := { s with toVectors := v' }.set_state p (s.m_state p + 1)
      have hcut₁ : s.node_cut p n = some s₁ := by
        simp only [Heap.node_cut, hv, Option.bind_eq_bind, Option.bind_some, s₁]
      have hself : s₁.m_state p = s.m_state p + 1 := Function.update_self ..
      have hother : ∀ x, x ≠ p → s₁.m_state x = s.m_state x := fun x hx =>
        Function.update_of_ne hx ..
      have hsettled : Settled s₁ s.nodes [p] := hs.cut hcut h' List.mem_cons_self
        (fun i r hi => ⟨hi, fun he => h.not_loose hi (he ▸ hmem)⟩) hother
      have hwait := hw p ((List.mem_append.mp hmem).resolve_left fun hmem =>
        hnot (List.mem_cons_of_mem n hmem))
      have hone : s.m_state p ≠ cut_one := fun hone =>
        hfresh p (cascade_one hparent hone ▸ List.mem_cons_of_mem n (mem_cascade s fuel p))
          ((List.mem_append.mp hmem).resolve_left fun hmem => hnot (List.mem_cons_of_mem n hmem))
      obtain ⟨hclean, hroot, hstate⟩ := state_succ (hwait.imp_right And.left)
      have hwait₁ : Waiting s₁ p := by
        unfold Waiting
        rw [hself, show s₁.parent = s.parent from hcut.parent]
        rcases hstate with hstate | ⟨hstate, -⟩ | ⟨hstate, -⟩
        · refine .inr ⟨hstate.le, (hwait.resolve_left fun hle => ?_).2⟩
          have : cut_self ≤ cut_one := hstate ▸ Nat.le_add_right_of_le hle
          exact absurd this (by decide)
        · exact absurd hstate hone
        · exact .inl hstate
      refine ⟨s₁, ?_, h', hsettled.of_loose h' (List.mem_cons_of_mem n hmem), fun x hx => ?_,
        hcut.parent, fun x hx => ?_, rfl, rfl, rfl⟩
      · simp only [hcut₁, Option.bind_some, hself, if_neg hclean, if_neg hroot]
        rcases hstate with hstate | ⟨hstate, -⟩ | ⟨-, hne, hne'⟩
        · rw [if_pos hstate]
        · exact absurd hstate hone
        · rw [if_neg hne, if_neg hne']
      · rcases eq_or_ne x p with rfl | hxp
        · exact hwait₁
        · exact (hw x hx).congr (hother x hxp) hcut.parent rfl
      · refine hother x ?_
        rintro rfl
        exact Nat.lt_irrefl _ (Nat.lt_of_lt_of_le hlt hx)
    · -- the parent is a root
      obtain ⟨v', hv, hi', h', hcut⟩ := h.cut_entry hi hn hmono
      let s₁ : Heap α T := { s with toVectors := v' }.set_state p (s.m_state p + 1)
      have hcut₁ : s.node_cut p n = some s₁ := by
        simp only [Heap.node_cut, hv, Option.bind_eq_bind, Option.bind_some, s₁]
      have hself : s₁.m_state p = root_cut_one :=
        (Function.update_self ..).trans (congrArg Nat.succ (hs.root i p hi))
      let s' : Heap α T := { (({ s₁ with m_roots := s.m_roots.set i none }.set_state p
        cut_self).push_cut p) with m_min := none }
      have hother : ∀ x, x ≠ p → s'.m_state x = s.m_state x := fun x hx =>
        (Function.update_of_ne hx ..).trans (Function.update_of_ne hx ..)
      have hself' : s'.m_state p = cut_self := Function.update_self ..
      have hsettled : Settled s' s.nodes [p] := hs.cut hcut h'
        (List.mem_cons_of_mem p List.mem_cons_self) (fun j r hj => ⟨set_none_entry hj, fun he =>
          h'.not_loose hj (he ▸ List.mem_cons_self)⟩) hother
      have hranked : Ranked above s'.toVectors s'.m_roots (n :: (loose ++ s'.m_cut_nodes))
          s.nodes := h'.perm (push_cut_perm (l := n :: loose))
      refine ⟨s', ?_, hranked, hsettled.of_loose h' List.mem_cons_self, fun x hx => ?_,
        hcut.parent, fun x hx => hother x ?_, rfl, rfl, rfl⟩
      · have hrank : s₁.rank p + 1 = i := hi'
        have hentry : s₁.clear_entry i = some { s₁ with m_roots := s.m_roots.set i none } :=
          clear_entry_eq (s := s₁) hi
        simp only [hcut₁, Option.bind_some, hself, hrank, hentry]
        rfl
      · rcases List.mem_append.mp hx with hx | hx
        · refine (hw x hx).congr (hother x ?_) hcut.parent rfl
          rintro rfl
          exact h.not_loose hi (List.mem_append_right _ hx)
        · rw [List.mem_singleton.mp hx]
          exact .inl hself'.ge
      · rintro rfl
        exact Nat.lt_irrefl _ (Nat.lt_of_lt_of_le hlt hx)
    · -- the parent is a child
      have hchild : s.parent p = some q := h.wired.parent q hq p hpq
      obtain ⟨v', hv, h', hcut⟩ := h.cut hp hn hmono fun i hi => by
        rw [h.root i p hi] at hchild
        cases hchild
      let s₁ : Heap α T := { s with toVectors := v' }.set_state p (s.m_state p + 1)
      have hcut₁ : s.node_cut p n = some s₁ := by
        simp only [Heap.node_cut, hv, Option.bind_eq_bind, Option.bind_some, s₁]
      have hself : s₁.m_state p = s.m_state p + 1 := Function.update_self ..
      have hother : ∀ x, x ≠ p → s₁.m_state x = s.m_state x := fun x hx =>
        Function.update_of_ne hx ..
      have hroot : ∀ i : Nat, s.m_roots[i]? ≠ some (some p) := fun i hi => by
        rw [h.root i p hi] at hchild
        cases hchild
      have hsettled : Settled s₁ s.nodes [p] := hs.cut hcut h' List.mem_cons_self
        (fun i r hi => ⟨hi, fun he => hroot i (he ▸ hi)⟩) hother
      have hpw : p ∉ s.m_cut_nodes := fun hmem =>
        h.not_child (List.mem_append_right _ hmem) hq hpq
      have hw₁ : ∀ x ∈ s.m_cut_nodes, Waiting s₁ x := fun x hx =>
        (hw x hx).congr (hother x fun he => hpw (he ▸ hx)) hcut.parent rfl
      have hlow : ∀ x, height x ≤ height n → s₁.m_state x = s.m_state x := by
        intro x hx
        refine hother x ?_
        rintro rfl
        exact Nat.lt_irrefl _ (Nat.lt_of_lt_of_le hlt hx)
      have hle : s.m_state p ≤ cut_one := hs.child q hq p hpq fun hmem => by
        rw [List.mem_singleton] at hmem
        exact hnot (hmem ▸ List.mem_cons_self)
      obtain ⟨hclean, hroot, hstate⟩ := state_succ (.inr hle)
      simp only [hcut₁, Option.bind_some, hself, if_neg hclean, if_neg hroot]
      rcases hstate with hstate | ⟨hone, htwo⟩ | ⟨hstate, -⟩
      · refine ⟨s₁, if_pos hstate, h', ⟨hsettled.root, fun z hz c hc _ => ?_⟩, hw₁, hcut.parent,
          hlow, rfl, rfl, rfl⟩
        rcases eq_or_ne c p with rfl | hcp
        · exact hself.trans hstate |>.le
        · exact hsettled.child z hz c hc fun hmem => hcp (List.mem_singleton.mp hmem)
      · -- it has lost its second child
        have hqp : q ≠ p := by
          rintro rfl
          exact h.wired.forest.not_own_child hq hpq
        have hfresh₁ : ∀ m ∈ s₁.cascade fuel p, m ∉ s₁.m_cut_nodes := by
          intro m hm
          refine hfresh m (cascade_one hparent hone ▸ List.mem_cons_of_mem n ?_)
          refine cascade_subset hcut.parent (fun z hz => ?_) hm
          rcases eq_or_ne z p with rfl | hzp
          · exact hone
          · exact (hother z hzp).symm.trans hz
        have hloose' : ∀ x ∈ n :: loose, height x ≤ height p := by
          intro x hx
          rcases List.mem_cons.mp hx with rfl | hx
          · exact hlt.le
          · exact (hloose x hx).trans hlt.le
        obtain ⟨s₂, hs₂, h₂, hsettled₂, hw₂, hparent₂, hstate₂, hl₂⟩ := ih (s := s₁) (n := p)
          (p := q) (n :: loose) (fun _ _ _ ha => ha) h' hsettled hw₁
          (fun z hz c hc => hheight z hz c (hcut.subset z hc)) hloose' hq
          (hcut.other q hqp ▸ hpq) hfresh₁
          (Nat.le_of_lt_succ (Nat.lt_of_lt_of_le (higher_lt hp hlt) hfuel))
        have hother₂ : ∀ x, x ≠ p →
            ((s₂.set_state p cut_self).push_cut p).m_state x = s₂.m_state x := fun x hx =>
          Function.update_of_ne hx ..
        refine ⟨(s₂.set_state p cut_self).push_cut p, ?_, h₂.perm (push_cut_perm (l := n :: loose)),
          ⟨fun i r hi => ?_, fun z hz c hc hout => ?_⟩, fun x hx => ?_,
          hparent₂.trans hcut.parent, fun x hx => ?_, hl₂.nodes, hl₂.m_data, hl₂.m_size⟩
        · rw [if_neg (htwo ▸ by decide), if_pos htwo, hs₂]
          rfl
        · rw [hother₂ r fun he => h₂.not_loose hi (he ▸ List.mem_cons_self)]
          exact hsettled₂.root i r hi
        · rw [hother₂ c fun he => h₂.not_child List.mem_cons_self hz (he ▸ hc)]
          exact hsettled₂.child z hz c hc hout
        · rcases List.mem_append.mp hx with hx | hx
          · refine (hw₂ x hx).congr (hother₂ x ?_) rfl rfl
            rintro rfl
            exact (List.nodup_cons.mp h₂.loose_nodup).1 (List.mem_append_right _ hx)
          · rw [List.mem_singleton.mp hx]
            exact .inl (Function.update_self p cut_self s₂.m_state).ge
        · have hxp : x ≠ p := by
            rintro rfl
            exact Nat.lt_irrefl _ (Nat.lt_of_lt_of_le hlt hx)
          rw [hother₂ x hxp, hstate₂ x (hx.trans hlt.le), hlow x hx]
      · exact absurd (Nat.le_trans hstate (Nat.succ_le_succ hle)) (by decide)

/-! ## 2. The operations -/

/-- The table and the trees that wait hold the nodes. While `m_min` is set it is a maximum,
and nothing waits. -/
structure Inv (m_compare : T → T → Bool) (s : Heap α T) : Prop where
  ranked : Ranked (NotLess m_compare s) s.toVectors s.m_roots s.m_cut_nodes s.nodes
  settled : Settled s s.nodes []
  waiting : ∀ x ∈ s.m_cut_nodes, Waiting s x
  size : s.m_size = s.nodes.length
  min : s.nodes ≠ [] → ∀ r ∈ s.m_min, s.m_cut_nodes = [] ∧
    (∃ i : Nat, s.m_roots[i]? = some (some r)) ∧ ∀ x ∈ s.nodes, NotLess m_compare s r x

def Heap.entries (s : Heap α T) : Queue α T := HandleQueue.entries s.nodes s.m_data

variable [IsStrictWeakOrder T (m_compare · ·)]

/-- After the clean-up nothing waits, and `m_min` is a maximum. -/
theorem ensure_min_spec (h : Inv m_compare s) (hne : s.nodes ≠ []) :
    ∃ r s', s.ensure_min m_compare = some s' ∧ Inv m_compare s' ∧ Links s s' ∧
      s'.m_min = some r ∧ s'.m_cut_nodes = [] ∧ (∃ i : Nat, s'.m_roots[i]? = some (some r)) ∧
      ∀ x ∈ s.nodes, NotLess m_compare s r x := by
  unfold Heap.ensure_min
  cases hm : s.m_min with
  | none =>
    obtain ⟨s₁, hs₁, h₁, hsettled, hl⟩ := add_roots_spec (fun _ _ => id) h.ranked h.settled
    have hnodes : s₁.nodes = s.nodes := hl.nodes
    rw [← hl.notLess] at h₁
    obtain ⟨r, hr, hroot, hmax⟩ := h₁.best hne
    rw [← hnodes] at h₁ hsettled hmax
    have hsize : s.m_size ≠ 0 := by
      rw [h.size]
      exact fun he => hne (List.eq_nil_of_length_eq_zero he)
    refine ⟨r, { s₁ with m_cut_nodes := [], m_min := some r }, ?_, ⟨?_, ?_, ?_, ?_, ?_⟩,
      ⟨hl.nodes, hl.m_data, hl.m_size⟩, rfl, rfl, hroot, hnodes ▸ hl.notLess ▸ hmax⟩
    · simp only [Heap.find_min, if_neg hsize, hs₁, hr, if_true, Option.bind_eq_bind,
        Option.bind_some]
    · exact h₁
    · exact ⟨hsettled.root, hsettled.child⟩
    · exact fun x hx => by cases hx
    · exact hl.m_size.trans (h.size.trans (congrArg List.length hnodes.symm))
    · exact fun _ q hq => Option.some.inj hq ▸ ⟨rfl, hroot, hmax⟩
  | some r =>
    obtain ⟨hnil, hroot, hmax⟩ := h.min hne r hm
    exact ⟨r, s, if_neg (by simp), h, Links.refl s, hm, hnil, hroot, hmax⟩

theorem top_spec (h : Inv m_compare s) (hne : s.nodes ≠ []) :
    ∃ r s', s.top m_compare = some (s', s.m_data r) ∧ Inv m_compare s' ∧
      s'.m_cut_nodes = [] ∧ s'.entries = s.entries ∧
      s.entries.IsMax m_compare (r, s.m_data r) := by
  obtain ⟨r, s', hs', hinv, hl, hmin, hnil, ⟨i, hi⟩, hmax⟩ := ensure_min_spec h hne
  have hr : r ∈ s.nodes := hl.nodes ▸ hinv.ranked.mem_of_entry hi
  refine ⟨r, s', ?_, hinv, hnil, ?_, isMax_entries hr hmax⟩
  · simp only [Heap.top, hs', hmin, hl.m_data, Option.bind_eq_bind, Option.bind_some]
  · unfold Heap.entries
    rw [hl.nodes, hl.m_data]

omit [IsStrictWeakOrder T (m_compare · ·)] in
theorem push_spec (h : Inv m_compare s) (hn : n ∉ s.nodes) :
    Inv m_compare (s.push n d) ∧ (s.push n d).entries = s.entries.push n d := by
  have hold : ∀ q ∈ s.nodes, q ≠ n := fun q hq he => hn (he ▸ hq)
  have hdata : ∀ q ∈ s.nodes, (s.push n d).m_data q = s.m_data q := fun q hq =>
    Function.update_of_ne (hold q hq) ..
  have hranked : Ranked (NotLess m_compare (s.push n d)) s.toVectors s.m_roots s.m_cut_nodes
      s.nodes := by
    refine h.ranked.mono fun p hp c hc hle => ?_
    unfold NotLess
    rw [hdata p hp, hdata c (h.ranked.wired.forest.mem_of_child hp hc)]
    exact hle
  have hpush := hranked.push hn (s.push n d).toVectors rfl
    (fun q hq => Function.update_of_ne (hold q hq) ..) fun _ _ => rfl
  have hstate : ∀ q, q ≠ n → (s.push n d).m_state q = s.m_state q := fun q hq =>
    (Function.update_of_ne hq ..).trans (Function.update_of_ne hq ..)
  refine ⟨⟨hpush.perm (List.perm_append_singleton n _), ⟨fun i r hi => ?_, fun p hp c hc _ => ?_⟩,
    fun x hx => ?_, ?_, fun _ r hr => by cases hr⟩, entries_push hn s.m_data d⟩
  · rw [hstate r fun he => hn (he ▸ h.ranked.mem_of_entry hi)]
    exact h.settled.root i r hi
  · have hcn : c ≠ n := fun he => hpush.not_child List.mem_cons_self hp (he ▸ hc)
    have hpn : p ≠ n := by
      rintro rfl
      rw [show (s.push p d).children p = [] from Function.update_self ..] at hc
      cases hc
    rw [show (s.push n d).children p = s.children p from Function.update_of_ne hpn ..] at hc
    rw [hstate c hcn]
    refine h.settled.child p ?_ c hc List.not_mem_nil
    exact (List.mem_append.mp hp).resolve_right fun he => hpn (List.mem_singleton.mp he)
  · rcases List.mem_append.mp hx with hx | hx
    · have hxn := hold x (h.ranked.mem_of_loose hx)
      refine (h.waiting x hx).imp (fun hle => hstate x hxn ▸ hle) ?_
      rintro ⟨hle, p, hp, hparent⟩
      refine ⟨hstate x hxn ▸ hle, p, List.mem_append_left _ hp, ?_⟩
      exact (Function.update_of_ne hxn ..).trans hparent
    · rw [List.mem_singleton.mp hx]
      have hself : (s.push n d).m_state n = cut_self := Function.update_self ..
      exact .inl hself.ge
  · show s.m_size + 1 = (s.nodes ++ [n]).length
    rw [h.size, List.length_append, List.length_singleton]

/-- The children of a node that is no longer one of the trees wait. -/
theorem cut_children_spec (l₁ : List α) {l₂ : List α} (hchildren : s.children n = l₁ ++ l₂) :
    ∃ s', s.cut_children l₂.length n l₁.length = some s' ∧ s'.toVectors = s.toVectors ∧
      s'.m_roots = s.m_roots ∧ s'.m_cut_nodes = s.m_cut_nodes ++ l₂ ∧
      (∀ x ∈ l₂, s'.m_state x = cut_self) ∧ (∀ x ∉ l₂, s'.m_state x = s.m_state x) ∧
      Links s s' := by
  induction l₂ generalizing s l₁ with
  | nil =>
    refine ⟨s, rfl, rfl, rfl, (List.append_nil _).symm, ?_, fun _ _ => rfl, Links.refl s⟩
    exact fun x hx => absurd hx List.not_mem_nil
  | cons c l₂ ih =>
    have hc : (s.children n)[l₁.length]? = some c := by
      rw [hchildren, List.getElem?_append_right (Nat.le_refl _), Nat.sub_self]
      rfl
    obtain ⟨s', hs', hvectors, hroots, hcut, hmem, hother, hl⟩ :=
      ih (s := (s.set_state c cut_self).push_cut c) (l₁ ++ [c])
        (hchildren.trans (List.append_cons l₁ c l₂))
    rw [List.length_append, List.length_singleton] at hs'
    refine ⟨s', ?_, hvectors, hroots, hcut.trans (List.append_assoc ..), fun x hx => ?_,
      fun x hx => ?_, hl.nodes, hl.m_data, hl.m_size⟩
    · rw [List.length_cons, Heap.cut_children, hc]
      exact hs'
    · rcases Classical.em (x ∈ l₂) with hx' | hx'
      · exact hmem x hx'
      · obtain rfl := (List.mem_cons.mp hx).resolve_right hx'
        exact (hother x hx').trans (Function.update_self ..)
    · refine (hother x (List.not_mem_of_not_mem_cons hx)).trans ?_
      exact Function.update_of_ne (List.ne_of_not_mem_cons hx) ..

/-- The children of a root wait. -/
theorem pop_spec (h : Inv m_compare s) (hne : s.nodes ≠ []) :
    ∃ s', s.pop m_compare = some s' ∧ Inv m_compare s' ∧ s.entries.Pops m_compare s'.entries := by
  obtain ⟨r, s₁, hs₁, hinv, hl₁, hmin, hnil, ⟨i, hi⟩, hmax⟩ := ensure_min_spec h hne
  obtain rfl := hinv.ranked.rank i r hi
  have hmem := hinv.ranked.mem_of_entry hi
  have hnodes₁ : s₁.nodes = s.nodes := hl₁.nodes
  let s₂ : Heap α T := { s₁ with m_roots := s₁.m_roots.set (s₁.rank r) none }
  obtain ⟨s₃, hs₃, hvectors, hroots, hcut, hstate, hother, hl₃⟩ :=
    cut_children_spec (s := s₂) (n := r) [] rfl
  let s' : Heap α T := { s₃ with
    nodes := s₃.nodes.erase r, m_size := s₃.m_size - 1, m_min := none }
  have hnodes : s'.nodes = s₁.nodes.erase r := congrArg (List.erase · r) hl₃.nodes
  have hentry : s₁.clear_entry (s₁.rank r) = some s₂ := clear_entry_eq hi
  have hdelete : Heap.delete { s₃ with m_size := s₃.m_size - 1 } r =
      some { s₃ with nodes := s₃.nodes.erase r, m_size := s₃.m_size - 1 } :=
    if_pos (hl₃.nodes.symm ▸ hmem)
  have hpop : Ranked (NotLess m_compare s₁) s'.toVectors s'.m_roots s'.m_cut_nodes s'.nodes := by
    rw [show s'.toVectors = s₁.toVectors from hvectors, hnodes,
      show s'.m_roots = s₁.m_roots.set (s₁.rank r) none from hroots,
      show s'.m_cut_nodes = s₁.m_cut_nodes ++ s₁.children r from hcut]
    exact ((hinv.ranked.take hi).1.pop fun _ _ _ hle => hle).perm List.perm_append_comm
  have hwaits : s₃.m_cut_nodes = s₁.children r := by
    rw [hcut, show s₂.m_cut_nodes = [] from hnil, List.nil_append]
  refine ⟨s', ?_, ⟨?_, ⟨fun i q hi => ?_, fun p hp c hc _ => ?_⟩, fun x hx => ?_, ?_,
    fun _ q hq => by cases hq⟩, (r, s.m_data r), isMax_entries (hnodes₁ ▸ hmem) hmax, ?_⟩
  · unfold Heap.pop
    simp only [hs₁, hmin, Option.bind_eq_bind, Option.bind_some, hentry]
    rw [show s₂.cut_children (s₂.rank r) r 0 = some s₃ from hs₃]
    simp only [Option.bind_some, hdelete, s']
  · rw [show NotLess m_compare s' = NotLess m_compare s₁ from hl₃.notLess]
    exact hpop
  · have hq : q ∉ s₁.children r := fun hq => hpop.not_loose hi (hwaits.symm ▸ hq)
    rw [show s'.m_state q = s₁.m_state q from hother q hq]
    rw [show s'.m_roots = s₁.m_roots.set (s₁.rank r) none from hroots] at hi
    exact hinv.settled.root i q (set_none_entry hi)
  · have hc' : c ∉ s₁.children r := fun hc' => hpop.not_child (hwaits.symm ▸ hc') hp hc
    rw [show s'.m_state c = s₁.m_state c from hother c hc']
    rw [show s'.children = s₁.children from congrArg Vectors.children hvectors] at hc
    exact hinv.settled.child p (List.mem_of_mem_erase (hnodes ▸ hp)) c hc List.not_mem_nil
  · rw [show s'.m_cut_nodes = s₁.children r from hwaits] at hx
    exact .inl (hstate x hx).ge
  · show s₃.m_size - 1 = s'.nodes.length
    rw [hnodes, List.length_erase_of_mem hmem, ← hinv.size, hl₃.m_size]
  · show HandleQueue.entries (s₃.nodes.erase r) s₃.m_data = _
    rw [hl₃.nodes, hl₃.m_data]
    show HandleQueue.entries (s₁.nodes.erase r) s₁.m_data = _
    rw [hl₁.nodes, hl₁.m_data]
    exact entries_remove s.nodes s.m_data r

omit [IsStrictWeakOrder T (m_compare · ·)] in
theorem notLess_set_data {p c : α} (hp : p ≠ n) (hc : c ≠ n) (hle : NotLess m_compare s p c) :
    NotLess m_compare (s.set_data n d) p c := by
  unfold NotLess Heap.set_data
  dsimp only
  rw [Function.update_of_ne hp, Function.update_of_ne hc]
  exact hle

omit [IsStrictWeakOrder T (m_compare · ·)] in
/-- A new value is compared as it is with the ones of the other nodes. -/
theorem notLess_data {q : α} (hq : q ≠ n) :
    (NotLess m_compare (s.set_data n d) n q ↔ m_compare d (s.m_data q) = false) ∧
    (NotLess m_compare (s.set_data n d) q n ↔ m_compare (s.m_data q) d = false) := by
  unfold NotLess Heap.set_data
  dsimp only
  rw [Function.update_of_ne hq, Function.update_self]
  exact ⟨.rfl, .rfl⟩

/-- A value that is neither less than the children nor greater than the parent is set. -/
theorem set_data_spec (h : Inv m_compare s) (hn : n ∈ s.nodes)
    (hchildren : ∀ c ∈ s.children n, m_compare d (s.m_data c) = false)
    (hparent : ∀ p ∈ s.nodes, n ∈ s.children p → m_compare (s.m_data p) d = false)
    (hmin : ∀ r ∈ s.m_min, if n = r then ∀ x ∈ s.nodes, x ≠ n → m_compare d (s.m_data x) = false
      else m_compare (s.m_data r) d = false) :
    Inv m_compare (s.set_data n d) ∧ (s.set_data n d).entries = s.entries.set n d := by
  refine ⟨⟨h.ranked.mono fun p hp c hc hle => ?_, ⟨h.settled.root, h.settled.child⟩, h.waiting,
    h.size, fun hne r hr => ?_⟩, entries_set s.nodes s.m_data n d⟩
  · rcases eq_or_ne p n with rfl | hpn
    · have hcp : c ≠ p := by
        rintro rfl
        exact h.ranked.wired.forest.not_own_child hp hc
      exact (notLess_data hcp).1.mpr (hchildren c hc)
    · rcases eq_or_ne c n with rfl | hcn
      · exact (notLess_data hpn).2.mpr (hparent p hp hc)
      · exact notLess_set_data hpn hcn hle
  · obtain ⟨hnil, hroot, hmax⟩ := h.min hne r hr
    refine ⟨hnil, hroot, fun x hx => ?_⟩
    have hle := hmin r hr
    split at hle
    case isTrue he =>
      subst he
      rcases eq_or_ne x n with rfl | hxn
      · exact lt_irrefl _
      · exact (notLess_data hxn).1.mpr (hle x hx hxn)
    case isFalse hne =>
      rcases eq_or_ne x n with rfl | hxn
      · exact (notLess_data (Ne.symm hne)).2.mpr hle
      · exact notLess_set_data (Ne.symm hne) hxn (hmax x hx)

omit [DecidableEq α] [IsStrictWeakOrder T (m_compare · ·)] in
/-- A node that has the state of a child has a parent. -/
theorem exists_parent (h : Inv m_compare s) (hn : n ∈ s.nodes) (hstate : s.m_state n < clean) :
    ∃ p, s.parent n = some p := by
  rcases h.ranked.cases hn with hw | ⟨i, hi⟩ | ⟨p, hp, hc⟩
  · rcases h.waiting n hw with hself | ⟨-, p, -, hp⟩
    · exact absurd (Nat.lt_of_le_of_lt hself hstate) (by decide)
    · exact ⟨p, hp⟩
  · exact absurd (h.settled.root i n hi) (Nat.ne_of_lt hstate)
  · exact ⟨p, h.ranked.wired.parent p hp n hc⟩

theorem increase_spec (h : Inv m_compare s) (hn : n ∈ s.nodes)
    (hf : FitsIncrease m_compare s n d) :
    ∃ s', s.increase m_compare n d = some s' ∧ Inv m_compare s' ∧
      s'.entries = s.entries.set n d := by
  obtain ⟨hchildren, hf⟩ := hf
  split at hf
  case isTrue hcuts =>
    unfold Heap.cuts at hcuts
    obtain ⟨hstate, hany⟩ := of_decide_eq_true hcuts
    have hnw : n ∉ s.m_cut_nodes := hf n (mem_cascade s _ n)
    obtain ⟨p, hp, hc⟩ : ∃ p ∈ s.nodes, n ∈ s.children p := by
      rcases (h.ranked.cases hn).resolve_left hnw with ⟨i, hi⟩ | hchild
      · exact absurd (h.settled.root i n hi) (Nat.ne_of_lt hstate)
      · exact hchild
    have hparent : s.parent n = some p := h.ranked.wired.parent p hp n hc
    have hlt : m_compare (s.m_data p) d = true := by
      rw [hparent] at hany
      exact hany
    have hpn : p ≠ n := by
      rintro rfl
      exact h.ranked.wired.forest.not_own_child hp hc
    -- only the parent of `n` may be less than its child
    have hranked : Ranked (fun p c => c = n ∨ NotLess m_compare (s.set_data n d) p c)
        s.toVectors s.m_roots s.m_cut_nodes s.nodes := by
      refine h.ranked.mono fun q hq z hz hle => ?_
      rcases eq_or_ne z n with rfl | hzn
      · exact .inl rfl
      · rcases eq_or_ne q n with rfl | hqn
        · exact .inr ((notLess_data hzn).1.mpr (hchildren z hz))
        · exact .inr (notLess_set_data hqn hzn hle)
    have hsub : (s.set_data n d).cascade s.nodes.length n ⊆ s.cascade s.nodes.length n :=
      cascade_subset rfl fun _ => id
    obtain ⟨height, hheight⟩ := h.ranked.wired.forest.grounded
    obtain ⟨s₁, hs₁, h₁, hsettled₁, hw₁, hparent₁, hstate₁, hl₁⟩ := cut_rec_spec
      (s := s.set_data n d) [] (fun q z hz hle => hle.resolve_left hz) hranked
      ⟨h.settled.root, fun q hq c hc _ => h.settled.child q hq c hc List.not_mem_nil⟩ h.waiting
      hheight (fun x hx => absurd hx List.not_mem_nil) hp hc
      (fun m hm => hf m (hsub hm)) List.countP_le_length
    have hnodes : s₁.nodes = s.nodes := hl₁.nodes
    refine ⟨{ s₁.push_cut n with m_min := none }, ?_, ⟨?_, ⟨hsettled₁.root, hsettled₁.child⟩,
      fun x hx => ?_, ?_, fun _ r hr => by cases hr⟩, ?_⟩
    · have hlt' : m_compare ((s.set_data n d).m_data p) ((s.set_data n d).m_data n) = true := by
        unfold Heap.set_data
        dsimp only
        rw [Function.update_of_ne hpn, Function.update_self]
        exact hlt
      unfold Heap.increase
      simp only [show (s.set_data n d).m_state n = s.m_state n from rfl, if_pos hstate,
        show (s.set_data n d).parent n = some p from hparent, hlt', Option.bind_eq_bind,
        Option.bind_some, if_true, show (s.set_data n d).cut n = some s₁ from hs₁]
    · rw [show NotLess m_compare { s₁.push_cut n with m_min := none } =
        NotLess m_compare (s.set_data n d) from hl₁.notLess]
      exact h₁.perm (List.perm_append_singleton n _)
    · rcases List.mem_append.mp hx with hx | hx
      · exact hw₁ x hx
      · rw [List.mem_singleton.mp hx]
        refine .inr ⟨(hstate₁ n (Nat.le_refl _)).le.trans ?_, p, hnodes.symm ▸ hp, ?_⟩
        · exact h.settled.child p hp n hc List.not_mem_nil
        · exact (congrFun hparent₁ n).trans hparent
    · exact hl₁.m_size.trans (h.size.trans (congrArg List.length hnodes.symm))
    · show HandleQueue.entries s₁.nodes s₁.m_data = _
      rw [hnodes, hl₁.m_data]
      exact entries_set s.nodes s.m_data n d
  case isFalse hcuts =>
    have hnot : s.m_state n < clean → ∀ p ∈ s.parent n, m_compare (s.m_data p) d = false := by
      intro hstate p hp
      refine Bool.eq_false_iff.mpr fun hlt => hcuts (decide_eq_true ⟨hstate, ?_⟩)
      rw [show s.parent n = some p from hp]
      exact hlt
    have hparent : ∀ p ∈ s.nodes, n ∈ s.children p → m_compare (s.m_data p) d = false :=
      fun p hp hc => hnot (Nat.lt_of_le_of_lt (h.settled.child p hp n hc List.not_mem_nil)
        (by decide)) p (h.ranked.wired.parent p hp n hc)
    obtain ⟨hinv, hentries⟩ := set_data_spec h hn hchildren hparent hf
    refine ⟨_, ?_, hinv, hentries⟩
    unfold Heap.increase
    dsimp only
    split
    case isTrue hstate =>
      obtain ⟨p, hp⟩ := exists_parent h hn hstate
      have hle : NotLess m_compare (s.set_data n d) p n := by
        rcases eq_or_ne p n with rfl | hpn
        · exact lt_irrefl _
        · exact (notLess_data hpn).2.mpr (hnot hstate p hp)
      unfold NotLess at hle
      simp only [show (s.set_data n d).parent n = some p from hp, Option.bind_eq_bind,
        Option.bind_some, hle, Bool.false_eq_true, if_false]
    case isFalse => rfl

theorem decrease_spec (h : Inv m_compare s) (hn : n ∈ s.nodes)
    (hf : FitsDecrease m_compare s n d) :
    ∃ s', s.decrease m_compare n d = some s' ∧ Inv m_compare s' ∧
      s'.entries = s.entries.set n d := by
  obtain ⟨hchildren, hparent, hmin⟩ := hf
  have hany : ((s.set_data n d).children n).any (fun c =>
      m_compare ((s.set_data n d).m_data n) ((s.set_data n d).m_data c)) = false := by
    refine List.any_eq_false.mpr fun c hc => Bool.eq_false_iff.mp ?_
    have hcn : c ≠ n := by
      rintro rfl
      exact h.ranked.wired.forest.not_own_child hn hc
    exact (notLess_data hcn).1.mpr (hchildren c hc)
  unfold Heap.decrease
  simp only [hany, Bool.false_eq_true, if_false, Option.bind_eq_bind, Option.bind_some]
  split
  case isTrue =>
    have hinv : Inv m_compare { s with m_min := none } :=
      ⟨h.ranked, ⟨h.settled.root, h.settled.child⟩, h.waiting, h.size, fun _ r hr => by cases hr⟩
    obtain ⟨hinv', hentries⟩ := set_data_spec hinv hn hchildren hparent fun r hr => by cases hr
    exact ⟨_, rfl, hinv', hentries⟩
  case isFalse hne =>
    obtain ⟨hinv', hentries⟩ := set_data_spec h hn hchildren hparent fun r hr => by
      rw [if_neg (fun he : n = r => hne (he ▸ hr))]
      exact hmin r hr (fun he => hne (he ▸ hr))
    exact ⟨_, rfl, hinv', hentries⟩

theorem change_spec (h : Inv m_compare s) (hn : n ∈ s.nodes)
    (hf : if m_compare (s.m_data n) d then FitsIncrease m_compare s n d
      else FitsDecrease m_compare s n d) :
    ∃ s', s.change m_compare n d = some s' ∧ Inv m_compare s' ∧
      s'.entries = s.entries.set n d := by
  unfold Heap.change
  split at hf
  case isTrue hlt =>
    rw [if_pos hlt]
    exact increase_spec h hn hf
  case isFalse hlt =>
    rw [if_neg hlt]
    exact decrease_spec h hn hf

/-- The maximum may be changed unless one of its children is greater then. -/
theorem fits_top {r : α} (h : Inv m_compare s) (hr : r ∈ s.nodes) (hmin : s.m_min = some r)
    (hchildren : ∀ c ∈ s.children r, m_compare d (s.m_data c) = false) :
    if m_compare (s.m_data r) d then FitsIncrease m_compare s r d
      else FitsDecrease m_compare s r d := by
  obtain ⟨-, ⟨i, hi⟩, hmax⟩ := h.min (List.ne_nil_of_mem hr) r hmin
  split
  case isTrue hlt =>
    have hcuts : s.cuts m_compare r d = false := by
      refine decide_eq_false fun hcuts => ?_
      exact absurd (h.settled.root i r hi) (Nat.ne_of_lt hcuts.1)
    refine ⟨hchildren, ?_⟩
    rw [hcuts, if_neg Bool.false_ne_true]
    intro q hq
    obtain rfl := Option.some.inj (hmin.symm.trans hq)
    rw [if_pos rfl]
    exact fun x hx _ =>
      not_lt_trans (Bool.eq_false_iff.mpr (asymm_of (m_compare · ·) hlt)) (hmax x hx)
  case isFalse =>
    refine ⟨hchildren, fun p hp hc => ?_, fun q hq hne => ?_⟩
    · exact absurd hc (h.ranked.wired.forest.top_not_child
        (List.mem_append_right _ (mem_table.mpr ⟨i, hi⟩)) hp)
    · exact absurd (Option.some.inj (hmin.symm.trans hq)) hne

/-! ## 3. The queue -/

/-- Every operation returns, and is the one of the queue. -/
theorem exec_spec {l : Op α T} (h : Inv m_compare s) (hv : Valid s l)
    (hf : Fits m_compare s l) :
    ∃ s', exec m_compare s l = some s' ∧ Inv m_compare s' ∧
      (queue α m_compare).step s.entries l s'.entries := by
  have hentry : ∀ n ∈ s.nodes, ∃ e ∈ s.entries, e.1 = n := fun n hn =>
    ⟨(n, s.m_data n), mem_entries.mpr ⟨hn, rfl⟩, rfl⟩
  cases l with
  | push p d =>
    obtain ⟨hinv, he⟩ := push_spec (d := d) h hv
    exact ⟨_, rfl, hinv, fun e hmem hep => hv (hep ▸ (mem_entries.mp hmem).1), he⟩
  | pop => exact pop_spec h hv
  | top =>
    obtain ⟨r, s', hs, hinv, -, he, hmax⟩ := top_spec h hv
    exact ⟨s', congrArg (Option.map Prod.fst) hs, hinv, ⟨_, hmax⟩, he⟩
  | increase n d =>
    obtain ⟨s', hs, hinv, he⟩ := increase_spec h hv hf
    exact ⟨s', hs, hinv, hentry n hv, he⟩
  | decrease n d =>
    obtain ⟨s', hs, hinv, he⟩ := decrease_spec h hv hf
    exact ⟨s', hs, hinv, hentry n hv, he⟩
  | change n d =>
    obtain ⟨s', hs, hinv, he⟩ := change_spec h hv hf
    exact ⟨s', hs, hinv, hentry n hv, he⟩
  | change_top d =>
    obtain ⟨r, s₁, hs₁, hinv₁, hl, hmin, -, ⟨i, hi⟩, hmax⟩ := ensure_min_spec h hv
    have hmem := hinv₁.ranked.mem_of_entry hi
    obtain ⟨s', hs, hinv, he⟩ := change_spec hinv₁ hmem
      (fits_top hinv₁ hmem hmin (hf s₁ hs₁ r hmin))
    refine ⟨s', ?_, hinv, (r, s.m_data r), isMax_entries (hl.nodes ▸ hmem) hmax, ?_⟩
    · simp only [exec, Heap.change_top, hs₁, hmin, Option.bind_eq_bind, Option.bind_some, hs]
    · rw [he, Heap.entries, Heap.entries, hl.nodes, hl.m_data]

omit [IsStrictWeakOrder T (m_compare · ·)] in
theorem inv_initial (h : (system α m_compare).init s) :
    Inv m_compare s ∧ s.entries = [] := by
  obtain ⟨hnodes, hroots, hcut, hsize⟩ := h
  refine ⟨⟨⟨⟨⟨?_, ?_, fun _ => 0, ?_⟩, ?_, ?_, ?_⟩, ?_, ?_⟩, ⟨?_, ?_⟩, ?_, ?_, ?_⟩, ?_⟩
  all_goals simp [hnodes, hroots, hcut, hsize, Heap.entries, HandleQueue.entries]

/-- The operations keep away from the slips. -/
def fitting (α : Type) [DecidableEq α] (m_compare : T → T → Bool) :
    System (Heap α T) (Op α T) :=
  (system α m_compare).restrict (Fits m_compare)

/-- After every run every node is held once by the trees of the table and those that wait.
The operations were those of a queue with handles that holds the same values. All operations
return. `top()` returns a maximum, and after its clean-up the table holds every node once. -/
theorem lazy_fibonacci_refines_queue {s₀ : Heap α T} {tr : List (Op α T)}
    (h₀ : (system α m_compare).init s₀) (h : Run (fitting α m_compare) s₀ tr s) :
    Forest (s.m_cut_nodes ++ s.m_roots.reduceOption) s.nodes s.children ∧
    (∀ l, Walk s.children (s.m_cut_nodes ++ s.m_roots.reduceOption) l → l.Perm s.nodes) ∧
    s.m_size = s.entries.length ∧
    Run (queue α m_compare) [] tr s.entries ∧
    (∀ l, Valid s l → Fits m_compare s l → ∃ s', exec m_compare s l = some s') ∧
    (s.nodes ≠ [] → ∃ r s', s.top m_compare = some (s', s.m_data r) ∧
      s.entries.IsMax m_compare (r, s.m_data r) ∧ s'.m_cut_nodes = [] ∧
      s'.entries = s.entries ∧ Forest s'.m_roots.reduceOption s'.nodes s'.children) := by
  obtain ⟨hinv₀, hentries₀⟩ := inv_initial h₀
  obtain ⟨q, hrun, rfl, hinv⟩ : ∃ q, Run (queue α m_compare) [] tr q ∧ q = s.entries ∧
      Inv m_compare s := by
    refine h.simulate (R := fun q s => q = s.entries ∧ Inv m_compare s)
      ⟨hentries₀.symm, hinv₀⟩ ?_
    rintro q s l s' ⟨rfl, hi⟩ ⟨hs, hf⟩
    obtain ⟨hv, hs⟩ := Option.ite_none_right_eq_some.mp hs
    obtain ⟨s'', hs'', hi', hq⟩ := exec_spec hi hv hf
    rw [hs, Option.some.injEq] at hs''
    subst hs''
    exact ⟨_, hq, rfl, hi'⟩
  have hforest := hinv.ranked.wired.forest
  refine ⟨hforest, fun l hl => hl.perm hforest, ?_, hrun, fun l hv hf => ?_, fun hne => ?_⟩
  · rw [hinv.size, Heap.entries, HandleQueue.entries, List.length_map]
  · obtain ⟨s', hs', -⟩ := exec_spec hinv hv hf
    exact ⟨s', hs'⟩
  · obtain ⟨r, s', hs', hinv', hnil, he, hmax⟩ := top_spec hinv hne
    refine ⟨r, s', hs', hmax, hnil, he, ?_⟩
    have := hinv'.ranked.wired.forest
    rwa [hnil] at this

/-- Two children of one node are cut, which cuts their parent, and then the top changes. -/
def exRun : List (Op Nat Nat) :=
  [.push 0 10, .push 1 9, .push 2 8, .push 3 7, .push 4 6, .push 5 5, .push 6 4, .push 7 3,
    .top, .increase 5 20, .increase 6 30, .pop, .decrease 0 9, .top, .change 7 12,
    .change_top 15]

/-- `m_min` is not yet initialised. -/
def exHeap : Heap Nat Nat :=
  ⟨⟨fun _ => [], fun _ => none, fun _ => 0⟩, [], fun _ => 0, fun _ => 0, [], [], 0, none⟩

theorem lazy_fibonacci_refines_queue_example : ∃ s,
    Run (fitting Nat fun x y => decide (x < y)) exHeap exRun s ∧
    s.entries = [(0, 9), (1, 9), (2, 8), (3, 7), (4, 6), (5, 15), (7, 12)] ∧
    Run (queue Nat fun x y => decide (x < y)) [] exRun s.entries := by
  have hrun := run_replay_restrict (S := system Nat fun x y => decide (x < y))
    (fun _ _ _ => id) (show (replay (fun s l => if Fits (fun x y => decide (x < y)) s l
      then next (fun x y => decide (x < y)) s l else none) exHeap exRun).isSome by decide)
  refine ⟨_, hrun, by decide, ?_⟩
  exact (lazy_fibonacci_refines_queue ⟨rfl, rfl, rfl, rfl⟩ hrun).2.2.2.1

/-- A root that is not `m_min` becomes the greatest one, and `top()` returns another one. After
`top()` a root cannot be decreased below its child. -/
theorem lazy_fibonacci_not_refines_queue :
    (∃ s, Run (system Nat fun x y => decide (x < y)) exHeap
        [.push 0 5, .push 1 4, .push 2 3, .top, .increase 2 9] s ∧
      s.entries = [(0, 5), (1, 4), (2, 9)] ∧
      (s.top fun x y => decide (x < y)).map Prod.snd = some 5) ∧
    ∃ s, Run (system Nat fun x y => decide (x < y)) exHeap [.push 0 5, .push 1 4, .top] s ∧
      s.entries = [(0, 5), (1, 4)] ∧ s.decrease (fun x y => decide (x < y)) 0 1 = none := by
  have hrun := run_replay (S := system Nat fun x y => decide (x < y)) (fun _ _ _ => id)
    (show (replay (next fun x y => decide (x < y)) exHeap
      [.push 0 5, .push 1 4, .push 2 3, .top, .increase 2 9]).isSome by decide)
  have hrun' := run_replay (S := system Nat fun x y => decide (x < y)) (fun _ _ _ => id)
    (show (replay (next fun x y => decide (x < y)) exHeap
      [.push 0 5, .push 1 4, .top]).isSome by decide)
  refine ⟨⟨_, hrun, by decide, by decide⟩, _, hrun', by decide, ?_⟩
  exact Option.isNone_iff_eq_none.mp (by decide)

end

end Kuhllib.LazyFibonacciHeap
