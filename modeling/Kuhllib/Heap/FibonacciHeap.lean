import Kuhllib.Lib.HandleQueue
import Kuhllib.Lib.RankForest

/-!
# `boost::fibonacci_heap`

A node is named by its pointer, which is its handle. Its children, its parent and its
index are the vectors of the heap. `nodes` are the nodes that have been created and not
deleted, oldest first. `m_min` has no value before the first `push()`. Access through a
null pointer or behind the end of a vector fails.

Results:
1. `add_root_spec`, `cut_spec`: the table and the vectors stay right.
2. `fibonacci_refines_queue`: over all runs the heap is a queue with handles that pops a maximum.
   The value given to `increase()` or `decrease()` has to fit the children or the parent.
3. `fibonacci_not_refines_queue`: without that a child may be greater than its parent.
-/

namespace Kuhllib.FibonacciHeap

open HandleQueue HeapForest RankForest Transition

/-! ## Model -/

structure Heap (α T : Type) extends Vectors α where
  nodes : List α
  m_lost_child : α → Nat
  m_data : α → T
  m_roots : List (Option α)
  m_size : Nat
  m_min : Option α

variable {α T : Type} [DecidableEq α]

def Heap.is_root (s : Heap α T) (n : α) : Bool := (s.parent n).isNone

def Heap.rank (s : Heap α T) (n : α) : Nat := (s.children n).length

/-- `n->clear()`. -/
def Heap.clear (s : Heap α T) (n : α) : Heap α T :=
  { s with
    toVectors := s.toVectors.clear n
    m_lost_child := Function.update s.m_lost_child n 0 }

/-- `n->join(tree)`. -/
def Heap.join (s : Heap α T) (n tree : α) : Heap α T :=
  { s with
    toVectors := s.toVectors.join n tree
    m_lost_child := Function.update s.m_lost_child n 0 }

/-- `p->cut(child)`. -/
def Heap.node_cut (s : Heap α T) (p child : α) : Option (Heap α T) := do
  some { s with
    toVectors := ← s.toVectors.cut p child
    m_lost_child := Function.update s.m_lost_child p (s.m_lost_child p + 1) }

/-- `n->data(d)`. -/
def Heap.set_data (s : Heap α T) (n : α) (d : T) : Heap α T :=
  { s with m_data := Function.update s.m_data n d }

/-- `n->remove_all()`. -/
def Heap.remove_all (s : Heap α T) (n : α) : Heap α T :=
  { s with children := Function.update s.children n [] }

/-- `m_roots[rank] = 0`. -/
def Heap.clear_entry (s : Heap α T) (rank : Nat) : Option (Heap α T) := do
  some { s with m_roots := ← assign s.m_roots rank none }

section

variable (m_compare : T → T → Bool)

def Heap.add_root_rec : Nat → Heap α T → α → Option (Heap α T)
  | 0, _, _ => none
  | fuel + 1, s, n =>
    let rank := s.rank n
    match s.m_roots[rank]? with
    | none =>
      let nulls := List.replicate (rank - s.m_roots.length) none
      some ({ s with m_roots := s.m_roots ++ nulls ++ [some n] }.clear n)
    | some none => some ({ s with m_roots := s.m_roots.set rank (some n) }.clear n)
    | some (some r) =>
      let s := { s with m_roots := s.m_roots.set rank none }
      if m_compare (s.m_data n) (s.m_data r) then add_root_rec fuel ((s.clear n).join r n) r
      else add_root_rec fuel ((s.clear r).join n r) n

/-- Every call of itself takes a root out of the table. -/
def Heap.add_root (s : Heap α T) (n : α) : Option (Heap α T) :=
  s.add_root_rec m_compare (s.m_roots.length + 1) n

/-- `add_root(*it)` for the `k` children of `n` from `i` on. -/
def Heap.add_roots : Nat → Heap α T → α → Nat → Option (Heap α T)
  | 0, s, _, _ => some s
  | k + 1, s, n, i => do
    let s ← s.add_root m_compare (← (s.children n)[i]?)
    add_roots k s n (i + 1)

def Heap.find_min (s : Heap α T) : Option (Heap α T) :=
  if s.m_size = 0 then some { s with m_min := none }
  else do
    let m_min ← best (fun m r => m_compare (s.m_data m) (s.m_data r)) s.m_roots
    some { s with m_min := some m_min }

/-- `if (m_min == 0) find_min();`. -/
def Heap.ensure_min (s : Heap α T) : Option (Heap α T) :=
  if s.m_min = none then s.find_min m_compare else some s

def Heap.cut_rec : Nat → Heap α T → α → Option (Heap α T)
  | 0, _, _ => none
  | fuel + 1, s, n => do
    let p ← s.parent n
    let s ← s.node_cut p n
    if s.is_root p then do
      let s ← s.clear_entry (s.rank p + 1)
      s.add_root m_compare p
    else if s.m_lost_child p = 2 then do
      let s ← cut_rec fuel s p
      s.add_root m_compare p
    else some s

/-- A node has fewer nodes above it than there are. -/
def Heap.cut (s : Heap α T) (n : α) : Option (Heap α T) := s.cut_rec m_compare s.nodes.length n

/-- `if (n->is_root()) m_roots[n->rank()] = 0; else cut(n);`. -/
def Heap.take_out (s : Heap α T) (n : α) : Option (Heap α T) :=
  if s.is_root n then s.clear_entry (s.rank n) else s.cut m_compare n

def Heap.decrease (s : Heap α T) (n : α) (d : T) : Option (Heap α T) := do
  let s := s.set_data n d
  let k := s.rank n
  let s ←
    if (s.children n).any fun c => m_compare (s.m_data n) (s.m_data c) then do
      let s ← s.take_out m_compare n
      let s ← s.add_roots m_compare k n 0
      (s.remove_all n).add_root m_compare n
    else some s
  some { s with m_min := none }

def Heap.increase (s : Heap α T) (n : α) (d : T) : Option (Heap α T) := do
  let s := s.set_data n d
  let s ←
    match s.parent n with
    | none => some s
    | some p =>
      if m_compare (s.m_data p) (s.m_data n) then do
        let s ← s.cut m_compare n
        s.add_root m_compare n
      else some s
  some { s with m_min := none }

def Heap.change (s : Heap α T) (n : α) (d : T) : Option (Heap α T) :=
  if m_compare (s.m_data n) d then s.increase m_compare n d else s.decrease m_compare n d

def Heap.change_top (s : Heap α T) (d : T) : Option (Heap α T) := do
  let s ← s.ensure_min m_compare
  s.change m_compare (← s.m_min) d

/-- The heap after `top()`, and the value returned. -/
def Heap.top (s : Heap α T) : Option (Heap α T × T) := do
  let s ← s.ensure_min m_compare
  some (s, s.m_data (← s.m_min))

/-- `push(d)`, where the node is created at `n`. -/
def Heap.push (s : Heap α T) (n : α) (d : T) : Option (Heap α T) := do
  let s := { s with
    nodes := s.nodes ++ [n]
    children := Function.update s.children n []
    parent := Function.update s.parent n none
    m_lost_child := Function.update s.m_lost_child n 0
    m_data := Function.update s.m_data n d
    m_size := s.m_size + 1 }
  let s ← s.add_root m_compare n
  some { s with m_min := none }

/-- `delete n`. -/
def Heap.delete (s : Heap α T) (n : α) : Option (Heap α T) :=
  if n ∈ s.nodes then some { s with nodes := s.nodes.erase n } else none

def Heap.pop (s : Heap α T) : Option (Heap α T) := do
  let s ← s.ensure_min m_compare
  let del ← s.m_min
  let s ← s.clear_entry (s.rank del)
  let s ← s.add_roots m_compare (s.rank del) del 0
  let s := { s with m_size := s.m_size - 1 }
  let s ← s.delete del
  some { s with m_min := none }

end

/-- What a caller has to take care of: a new node is none of the nodes, there is a top,
and a handle is the one of a node. -/
def Valid (s : Heap α T) : Op α T → Prop
  | .push p _ => p ∉ s.nodes
  | .pop | .top | .change_top _ => s.nodes ≠ []
  | .increase n _ | .decrease n _ | .change n _ => n ∈ s.nodes

/-- No child is greater than what `increase()` sets, and no parent smaller than what
`decrease()` sets. -/
def Fits (m_compare : T → T → Bool) (s : Heap α T) : Op α T → Prop
  | .increase n d => ∀ c ∈ s.children n, m_compare d (s.m_data c) = false
  | .decrease n d => ∀ p ∈ s.parent n, m_compare (s.m_data p) d = false
  | _ => True

instance decidableValid (s : Heap α T) : ∀ l : Op α T, Decidable (Valid s l)
  | .push p _ => inferInstanceAs (Decidable (p ∉ s.nodes))
  | .pop | .top | .change_top _ => inferInstanceAs (Decidable (s.nodes ≠ []))
  | .increase n _ | .decrease n _ | .change n _ => inferInstanceAs (Decidable (n ∈ s.nodes))

instance decidableFits (m_compare : T → T → Bool) (s : Heap α T) :
    ∀ l : Op α T, Decidable (Fits m_compare s l)
  | .increase n d =>
    inferInstanceAs (Decidable (∀ c ∈ s.children n, m_compare d (s.m_data c) = false))
  | .decrease n d =>
    inferInstanceAs (Decidable (∀ p ∈ s.parent n, m_compare (s.m_data p) d = false))
  | .push _ _ | .pop | .top | .change _ _ | .change_top _ => inferInstanceAs (Decidable True)

def exec (m_compare : T → T → Bool) (s : Heap α T) : Op α T → Option (Heap α T)
  | .push p d => s.push m_compare p d
  | .pop => s.pop m_compare
  | .top => (s.top m_compare).map Prod.fst
  | .increase n d => s.increase m_compare n d
  | .decrease n d => s.decrease m_compare n d
  | .change n d => s.change m_compare n d
  | .change_top d => s.change_top m_compare d

def next (m_compare : T → T → Bool) (s : Heap α T) (l : Op α T) : Option (Heap α T) :=
  if Valid s l then exec m_compare s l else none

def system (α : Type) [DecidableEq α] (m_compare : T → T → Bool) :
    System (Heap α T) (Op α T) where
  init s := s.nodes = [] ∧ s.m_roots = [] ∧ s.m_size = 0
  step s l s' := next m_compare s l = some s'

/-! ## 1. The table and the vectors -/

/-- The parent is not less than the child. -/
def NotLess (m_compare : T → T → Bool) (s : Heap α T) (p c : α) : Prop :=
  m_compare (s.m_data p) (s.m_data c) = false

/-- A comparison has made `p` the parent and `c` the child. -/
def Decided (m_compare : T → T → Bool) (s : Heap α T) (p c : α) : Prop :=
  NotLess m_compare s p c ∨ m_compare (s.m_data c) (s.m_data p) = true

omit [DecidableEq α] in
theorem Decided.notLess {m_compare : T → T → Bool} [IsStrictWeakOrder T (m_compare · ·)]
    {s : Heap α T} {p c : α} (h : Decided m_compare s p c) : NotLess m_compare s p c :=
  h.elim id fun hlt => Bool.eq_false_iff.mpr (asymm_of (m_compare · ·) hlt)

omit [DecidableEq α] in
theorem clear_entry_eq {s : Heap α T} {i : Nat} {o : Option α} (hi : s.m_roots[i]? = some o) :
    s.clear_entry i = some { s with m_roots := s.m_roots.set i none } := by
  unfold Heap.clear_entry
  rw [show assign s.m_roots i none = some (s.m_roots.set i none) from
    if_pos (List.getElem?_eq_some_iff.mp hi).1]
  rfl

/-- Vectors and the table change only, and of the children those of none of `kept`. -/
structure Links (s s' : Heap α T) (kept : α → Prop) : Prop where
  nodes : s'.nodes = s.nodes
  m_data : s'.m_data = s.m_data
  m_size : s'.m_size = s.m_size
  children : ∀ q, kept q → s'.children q = s.children q

section

variable {m_compare : T → T → Bool} {above above' : α → α → Prop} {s s' s'' : Heap α T}
  {kept kept' : α → Prop} {loose nodes : List α} {p n : α} {d : T}

omit [DecidableEq α] in
theorem Links.trans {kept₁ kept₂ : α → Prop} (h : Links s s' kept₁) (h' : Links s' s'' kept₂)
    (hsub : ∀ q, kept q → kept₁ q ∧ kept₂ q) : Links s s'' kept :=
  ⟨h'.nodes.trans h.nodes, h'.m_data.trans h.m_data, h'.m_size.trans h.m_size,
    fun q hq => (h'.children q (hsub q hq).2).trans (h.children q (hsub q hq).1)⟩

omit [DecidableEq α] in
theorem Links.notLess (h : Links s s' kept) : NotLess m_compare s' = NotLess m_compare s := by
  unfold NotLess
  rw [h.m_data]

omit [DecidableEq α] in
theorem Links.decided (h : Links s s' kept) : Decided m_compare s' = Decided m_compare s := by
  unfold Decided
  rw [h.notLess, h.m_data]

/-- `hless`: a comparison of the values is what decides about parents and children. -/
theorem add_root_rec_spec {fuel : Nat}
    (hless : ∀ p c, Decided m_compare s p c → above p c)
    (h : Ranked above s.toVectors s.m_roots (n :: loose) nodes)
    (hfuel : s.m_roots.reduceOption.length < fuel) :
    ∃ s', s.add_root_rec m_compare fuel n = some s' ∧
      Ranked above s'.toVectors s'.m_roots loose nodes ∧
      Links s s' fun q => q ∉ nodes ∨ q ∈ loose := by
  induction fuel generalizing s n with
  | zero => exact absurd hfuel (Nat.not_lt_zero _)
  | succ fuel ih =>
    unfold Heap.add_root_rec
    dsimp only
    split
    case h_1 hrank =>
      refine ⟨_, rfl, ?_, rfl, rfl, rfl, fun _ _ => rfl⟩
      refine h.extend (Nat.add_sub_of_le ?_)
      exact List.getElem?_eq_none_iff.mp hrank
    case h_2 hrank =>
      exact ⟨_, rfl, h.put hrank, rfl, rfl, rfl, fun _ _ => rfl⟩
    case h_3 r hrank =>
      obtain ⟨htake, hlen⟩ := h.take (i := s.rank n) hrank
      have hfuel : (s.m_roots.set (s.rank n) none).reduceOption.length < fuel := by omega
      -- the loser is linked to the winner, which goes on
      have hlink : ∀ winner loser, (loser :: winner :: loose).Perm (r :: n :: loose) →
          Decided m_compare s winner loser →
          ∃ s', ((Heap.clear { s with m_roots := s.m_roots.set (s.rank n) none } loser).join
              winner loser).add_root_rec m_compare fuel winner = some s' ∧
            Ranked above s'.toVectors s'.m_roots loose nodes ∧
            Links s s' fun q => q ∉ nodes ∨ q ∈ loose := by
        intro winner loser hperm hle
        have hloose := htake.perm hperm
        have hjoin := (hloose.clear.perm (List.Perm.swap ..)).join (hless winner loser hle)
        obtain ⟨s', hs, h', hl⟩ := ih (s := (Heap.clear { s with
          m_roots := s.m_roots.set (s.rank n) none } loser).join winner loser) hless hjoin hfuel
        refine ⟨s', hs, h', hl.nodes, hl.m_data, hl.m_size, fun q hq => ?_⟩
        refine (hl.children q hq).trans (Function.update_of_ne ?_ ..)
        rintro rfl
        have hwinner : q ∈ loser :: q :: loose := List.mem_cons_of_mem _ List.mem_cons_self
        exact hq.elim (fun hq => hq (hloose.mem_of_loose hwinner))
          (List.nodup_cons.mp (List.nodup_cons.mp hloose.loose_nodup).2).1
      split
      case isTrue hlt =>
        exact hlink r n (List.Perm.swap ..) (.inr hlt)
      case isFalse hlt => exact hlink n r (.refl _) (.inl (Bool.eq_false_iff.mpr hlt))

theorem add_root_spec (hless : ∀ p c, Decided m_compare s p c → above p c)
    (h : Ranked above s.toVectors s.m_roots (n :: loose) nodes) :
    ∃ s', s.add_root m_compare n = some s' ∧
      Ranked above s'.toVectors s'.m_roots loose nodes ∧
      Links s s' fun q => q ∉ nodes ∨ q ∈ loose :=
  add_root_rec_spec hless h (Nat.lt_succ_of_le (List.reduceOption_length_le _))

/-- The children of a node that is no longer one of the trees are loose trees. -/
theorem add_roots_spec (l₁ : List α) {l₂ : List α}
    (hless : ∀ p c, Decided m_compare s p c → above p c) (hn : n ∉ nodes)
    (hchildren : s.children n = l₁ ++ l₂)
    (h : Ranked above s.toVectors s.m_roots (l₂ ++ loose) nodes) :
    ∃ s', s.add_roots m_compare l₂.length n l₁.length = some s' ∧
      Ranked above s'.toVectors s'.m_roots loose nodes ∧
      Links s s' fun q => q ∉ nodes ∨ q ∈ loose := by
  induction l₂ generalizing s l₁ with
  | nil => exact ⟨s, rfl, h, rfl, rfl, rfl, fun _ _ => rfl⟩
  | cons c l₂ ih =>
    obtain ⟨s₁, hs₁, h₁, hl₁⟩ := add_root_spec hless h
    have hc : (s.children n)[l₁.length]? = some c := by
      rw [hchildren, List.getElem?_append_right (Nat.le_refl _), Nat.sub_self]
      rfl
    have hchildren₁ : s₁.children n = (l₁ ++ [c]) ++ l₂ := by
      rw [hl₁.children n (.inl hn), hchildren, List.append_assoc]
      rfl
    obtain ⟨s', hs', h', hl'⟩ := ih _ (hl₁.decided ▸ hless) hchildren₁ h₁
    rw [List.length_append, List.length_singleton] at hs'
    refine ⟨s', ?_, h', hl₁.trans hl' fun q hq =>
      ⟨hq.imp_right (List.mem_append_right l₂), hq⟩⟩
    rw [List.length_cons, Heap.add_roots, hc]
    simp only [Option.bind_eq_bind, Option.bind_some, hs₁, hs']

/-! ### Cuts -/

/-- A child is cut. Its parent is a root, which leaves the table, or a child of its own. -/
theorem node_cut_spec (hmono : ∀ q z, z ≠ n → above' q z → above q z)
    (h : Ranked above' s.toVectors s.m_roots loose s.nodes) (hp : p ∈ s.nodes)
    (hn : n ∈ s.children p) (hloose : p ∉ loose) :
    ∃ s₁ : Heap α T, s.node_cut p n = some s₁ ∧ Cut s.toVectors s₁.toVectors p n ∧
      s₁.m_lost_child = Function.update s.m_lost_child p (s.m_lost_child p + 1) ∧
      Links s s₁ (· ≠ p) ∧
      ((s₁.is_root p = true ∧ ∃ roots,
          s₁.clear_entry (s₁.rank p + 1) = some { s₁ with m_roots := roots } ∧
          Ranked above s₁.toVectors roots (p :: n :: loose) s.nodes) ∨
        s₁.is_root p = false ∧ ∃ q ∈ s.nodes, p ∈ s.children q ∧
          Ranked above s₁.toVectors s₁.m_roots (n :: loose) s.nodes) := by
  rcases (h.cases hp).resolve_left hloose with ⟨i, hi⟩ | ⟨q, hq, hpq⟩
  · obtain ⟨v', hv, hi', h', hcut⟩ := h.cut_entry hi hn hmono
    let s₁ : Heap α T := { s with
      toVectors := v'
      m_lost_child := Function.update s.m_lost_child p (s.m_lost_child p + 1) }
    have hentry : s₁.clear_entry (s₁.rank p + 1) =
        some { s₁ with m_roots := s.m_roots.set i none } := by
      rw [show s₁.rank p + 1 = i from hi']
      exact clear_entry_eq hi
    have hroot : s₁.is_root p = true := by
      unfold Heap.is_root
      rw [show s₁.parent = s.parent from hcut.parent, h.root i p hi]
      rfl
    refine ⟨s₁, ?_, hcut, rfl, ⟨rfl, rfl, rfl, hcut.other⟩, .inl ⟨hroot, _, hentry, h'⟩⟩
    simp only [Heap.node_cut, hv, Option.bind_eq_bind, Option.bind_some, s₁]
  · have hchild : s.parent p = some q := h.wired.parent q hq p hpq
    obtain ⟨v', hv, h', hcut⟩ := h.cut hp hn hmono fun i hi => by
      rw [h.root i p hi] at hchild
      cases hchild
    let s₁ : Heap α T := { s with
      toVectors := v'
      m_lost_child := Function.update s.m_lost_child p (s.m_lost_child p + 1) }
    have hroot : s₁.is_root p = false := by
      unfold Heap.is_root
      rw [show s₁.parent = s.parent from hcut.parent, hchild]
      rfl
    refine ⟨s₁, ?_, hcut, rfl, ⟨rfl, rfl, rfl, hcut.other⟩, .inr ⟨hroot, q, hq, hpq, h'⟩⟩
    simp only [Heap.node_cut, hv, Option.bind_eq_bind, Option.bind_some, s₁]

/-- The trees that have been cut before are not above the one that is cut now. -/
theorem cut_rec_spec {fuel : Nat} {height : α → Nat}
    (hless : ∀ p c, Decided m_compare s p c → above p c)
    (hmono : ∀ q z, z ≠ n → above' q z → above q z)
    (h : Ranked above' s.toVectors s.m_roots loose s.nodes)
    (hheight : ∀ q ∈ s.nodes, ∀ c ∈ s.children q, height c < height q)
    (hloose : ∀ x ∈ loose, height x ≤ height n)
    (hp : p ∈ s.nodes) (hn : n ∈ s.children p)
    (hfuel : s.nodes.countP (height n < height ·) ≤ fuel) :
    ∃ s', s.cut_rec m_compare fuel n = some s' ∧
      Ranked above s'.toVectors s'.m_roots (n :: loose) s'.nodes ∧
      Links s s' fun q => q ∈ n :: loose := by
  induction fuel generalizing s above' loose n p with
  | zero =>
    have := higher_lt hp (hheight p hp n hn)
    omega
  | succ fuel ih =>
    have hparent : s.parent n = some p := h.wired.parent p hp n hn
    have hlt := hheight p hp n hn
    have hnot : p ∉ n :: loose := by
      intro hmem
      rcases List.mem_cons.mp hmem with rfl | hmem
      · exact Nat.lt_irrefl _ hlt
      · exact Nat.lt_irrefl _ (Nat.lt_of_lt_of_le hlt (hloose p hmem))
    rw [Heap.cut_rec, hparent]
    simp only [Option.bind_eq_bind, Option.bind_some]
    obtain ⟨s₁, hs₁, hcut, -, hl₁, ⟨hroot, roots, hentry, h₁⟩ | ⟨hroot, q, hq, hpq, h₁⟩⟩ :=
      node_cut_spec hmono h hp hn fun hmem => hnot (List.mem_cons_of_mem n hmem)
    · -- the parent is a root
      obtain ⟨s', hs', h', hl⟩ := add_root_spec (s := { s₁ with m_roots := roots })
        (fun p c hd => hless p c (hl₁.decided ▸ hd)) h₁
      have hl' : Links s₁ s' fun q => q ∉ s.nodes ∨ q ∈ n :: loose :=
        ⟨hl.nodes, hl.m_data, hl.m_size, hl.children⟩
      refine ⟨s', ?_, ?_, hl₁.trans hl' fun z hz => ⟨?_, .inr hz⟩⟩
      · simp only [hs₁, Option.bind_some, hroot, if_true, hentry, hs']
      · rw [(hl'.nodes.trans hl₁.nodes : s'.nodes = s.nodes)]
        exact h'
      · rintro rfl
        exact hnot hz
    · -- the parent is a child
      simp only [hs₁, Option.bind_some, hroot, Bool.false_eq_true, if_false]
      split
      case isFalse =>
        refine ⟨s₁, rfl, hl₁.nodes.symm ▸ h₁, hl₁.nodes, hl₁.m_data, hl₁.m_size, fun z hz => ?_⟩
        refine hl₁.children z ?_
        rintro rfl
        exact hnot hz
      case isTrue =>
        -- the parent has lost its second child
        have hqp : q ≠ p := by
          rintro rfl
          exact h.wired.forest.not_own_child hq hpq
        have hloose' : ∀ x ∈ n :: loose, height x ≤ height p := by
          intro x hx
          rcases List.mem_cons.mp hx with rfl | hx
          · exact Nat.le_of_lt hlt
          · exact Nat.le_trans (hloose x hx) (Nat.le_of_lt hlt)
        have hnodes : s₁.nodes = s.nodes := hl₁.nodes
        obtain ⟨s₂, hs₂, h₂, hl₂⟩ := ih (s := s₁) (n := p) (p := q) (hl₁.decided ▸ hless)
          (fun _ _ _ ha => ha) (hnodes.symm ▸ h₁)
          (fun z hz c hc => hheight z (hnodes ▸ hz) c (hcut.subset z hc)) hloose'
          (hnodes.symm ▸ hq) (hl₁.children q hqp ▸ hpq)
          (hnodes.symm ▸ Nat.le_of_lt_succ (Nat.lt_of_lt_of_le (higher_lt hp hlt) hfuel))
        obtain ⟨s', hs', h', hl⟩ := add_root_spec (hl₂.decided ▸ hl₁.decided ▸ hless) h₂
        refine ⟨s', ?_, hl.nodes.symm ▸ h', ?_⟩
        · simp only [hs₂, Option.bind_some, hs']
        · have hrest : Links s₁ s' fun z => z ∈ n :: loose := hl₂.trans hl fun z hz =>
            ⟨List.mem_cons_of_mem p hz, .inr hz⟩
          refine hl₁.trans hrest fun z hz => ⟨?_, hz⟩
          rintro rfl
          exact hnot hz

theorem cut_spec (hless : ∀ p c, Decided m_compare s p c → above p c)
    (hmono : ∀ q z, z ≠ n → above' q z → above q z)
    (h : Ranked above' s.toVectors s.m_roots [] s.nodes) (hp : p ∈ s.nodes)
    (hn : n ∈ s.children p) :
    ∃ s', s.cut m_compare n = some s' ∧
      Ranked above s'.toVectors s'.m_roots [n] s'.nodes ∧ Links s s' fun q => q = n := by
  obtain ⟨height, hheight⟩ := h.wired.forest.grounded
  obtain ⟨s', hs', h', hl⟩ := cut_rec_spec hless hmono h hheight (fun x hx => by cases hx) hp hn
    List.countP_le_length
  exact ⟨s', hs', h', hl.nodes, hl.m_data, hl.m_size, fun q hq =>
    hl.children q (List.mem_singleton.mpr hq)⟩

theorem take_out_spec (hless : ∀ p c, Decided m_compare s p c → above p c)
    (h : Ranked above s.toVectors s.m_roots [] s.nodes) (hn : n ∈ s.nodes) :
    ∃ s', s.take_out m_compare n = some s' ∧
      Ranked above s'.toVectors s'.m_roots [n] s'.nodes ∧ Links s s' fun q => q = n := by
  unfold Heap.take_out Heap.is_root
  rcases (h.cases hn).resolve_left List.not_mem_nil with ⟨i, hi⟩ | ⟨p, hp, hc⟩
  · obtain rfl := h.rank i n hi
    rw [h.root _ n hi]
    exact ⟨_, clear_entry_eq hi, (h.take hi).1, rfl, rfl, rfl, fun _ _ => rfl⟩
  · rw [h.wired.parent p hp n hc]
    exact cut_spec hless (fun _ _ _ hle => hle) h hp hc

/-- A loose tree is taken apart: its children are put into the table. -/
theorem scatter_spec {k : Nat} (hless : ∀ p c, Decided m_compare s p c → above p c)
    (hmono : ∀ q z, q ≠ n → above' q z → above q z)
    (h : Ranked above' s.toVectors s.m_roots [n] nodes) (hk : s.rank n = k) :
    ∃ s', s.add_roots m_compare k n 0 = some s' ∧
      Ranked above s'.toVectors s'.m_roots [] (nodes.erase n) ∧
      Links s s' fun q => q ∉ nodes.erase n := by
  subst hk
  obtain ⟨s', hs', h', hl⟩ := add_roots_spec (s := s) (n := n) [] hless
    h.wired.forest.nodup.not_mem_erase rfl (h.pop hmono)
  exact ⟨s', hs', h', hl.nodes, hl.m_data, hl.m_size, fun q hq => hl.children q (.inl hq)⟩

/-- The node is put into the table without its children. -/
theorem rebuild_spec {k : Nat} (hless : ∀ p c, Decided m_compare s p c → above p c)
    (hmono : ∀ q z, q ≠ n → above' q z → above q z)
    (h : Ranked above' s.toVectors s.m_roots [n] s.nodes) (hk : s.rank n = k) (hn : n ∈ s.nodes) :
    ∃ s₁ s', s.add_roots m_compare k n 0 = some s₁ ∧
      (s₁.remove_all n).add_root m_compare n = some s' ∧
      Ranked above s'.toVectors s'.m_roots [] s.nodes ∧ Links s s' fun _ => False := by
  obtain ⟨s₁, hs₁, h₁, hl₁⟩ := scatter_spec hless hmono h hk
  have hpush := (h₁.push h.wired.forest.nodup.not_mem_erase (s₁.remove_all n).toVectors rfl
    (fun _ _ => rfl) fun _ _ => rfl).perm_nodes
    ((List.perm_cons_erase hn).trans (List.perm_append_singleton n _).symm)
  obtain ⟨s', hs', h', hl'⟩ := add_root_spec (s := s₁.remove_all n)
    (fun p c hd => hless p c (hl₁.decided ▸ hd)) hpush
  exact ⟨s₁, s', hs₁, hs', h', hl'.nodes.trans hl₁.nodes, hl'.m_data.trans hl₁.m_data,
    hl'.m_size.trans hl₁.m_size, fun _ hq => hq.elim⟩

omit [DecidableEq α] in
theorem Links.refl (s : Heap α T) (kept : α → Prop) : Links s s kept :=
  ⟨rfl, rfl, rfl, fun _ _ => rfl⟩

/-- A new node comes into the table. -/
theorem push_ranked (h : Ranked above s.toVectors s.m_roots [] s.nodes) (hn : n ∉ s.nodes)
    (hless : ∀ p c, Decided m_compare
      { s with m_data := Function.update s.m_data n d } p c → above p c) :
    ∃ s' : Heap α T, s.push m_compare n d = some { s' with m_min := none } ∧
      Ranked above s'.toVectors s'.m_roots [] s'.nodes ∧ s'.nodes = s.nodes ++ [n] ∧
      s'.m_data = Function.update s.m_data n d ∧ s'.m_size = s.m_size + 1 := by
  let s₁ : Heap α T := { s with
    nodes := s.nodes ++ [n]
    children := Function.update s.children n []
    parent := Function.update s.parent n none
    m_lost_child := Function.update s.m_lost_child n 0
    m_data := Function.update s.m_data n d
    m_size := s.m_size + 1 }
  have hold : ∀ q ∈ s.nodes, q ≠ n := fun q hq he => hn (he ▸ hq)
  have hpush := h.push hn s₁.toVectors rfl
    (fun q hq => Function.update_of_ne (hold q hq) ..) fun _ _ => rfl
  obtain ⟨s', hs', h', hl⟩ := add_root_spec (s := s₁) hless hpush
  refine ⟨s', ?_, hl.nodes.symm ▸ h', hl.nodes, hl.m_data, hl.m_size⟩
  unfold Heap.push
  simp only [s₁] at hs'
  simp only [hs', Option.bind_eq_bind, Option.bind_some]

/-- An entry is taken out of the table, and its children are put in. -/
theorem pop_ranked {r : α} {i : Nat} (hless : ∀ p c, Decided m_compare s p c → above p c)
    (h : Ranked above s.toVectors s.m_roots [] s.nodes) (hi : s.m_roots[i]? = some (some r))
    (hmin : s.ensure_min m_compare = some { s with m_min := some r }) :
    ∃ s' : Heap α T, s.pop m_compare = some { s' with
        nodes := s'.nodes.erase r, m_size := s'.m_size - 1, m_min := none } ∧
      Ranked above s'.toVectors s'.m_roots [] (s.nodes.erase r) ∧ Links s s' fun _ => False := by
  obtain rfl := h.rank i r hi
  let s₁ : Heap α T := { s with m_min := some r, m_roots := s.m_roots.set (s.rank r) none }
  obtain ⟨s', hs', h', hl⟩ := scatter_spec (s := s₁) hless (fun _ _ _ hle => hle) (h.take hi).1 rfl
  have hadd : s₁.add_roots m_compare (s₁.rank r) r 0 = some s' := hs'
  have hentry : Heap.clear_entry { s with m_min := some r } (Heap.rank { s with m_min := some r } r)
      = some s₁ := clear_entry_eq hi
  have hdelete : Heap.delete { s' with m_size := s'.m_size - 1 } r =
      some { s' with nodes := s'.nodes.erase r, m_size := s'.m_size - 1 } :=
    if_pos (hl.nodes.symm ▸ h.mem_of_entry hi)
  refine ⟨s', ?_, h', hl.nodes, hl.m_data, hl.m_size, fun _ hq => hq.elim⟩
  unfold Heap.pop
  simp only [hmin, Option.bind_eq_bind, Option.bind_some, hentry, hadd, hdelete]

/-- The parent of a node may be less than the value set. -/
theorem increase_ranked (hless : ∀ p c, Decided m_compare (s.set_data n d) p c → above p c)
    (h : Ranked (fun p c => c = n ∨ above p c) s.toVectors s.m_roots [] s.nodes)
    (hn : n ∈ s.nodes) :
    ∃ s' : Heap α T, s.increase m_compare n d = some { s' with m_min := none } ∧
      Ranked above s'.toVectors s'.m_roots [] s.nodes ∧
      Links (s.set_data n d) s' fun _ => False := by
  unfold Heap.increase
  rcases (h.cases hn).resolve_left List.not_mem_nil with ⟨i, hi⟩ | ⟨p, hp, hc⟩
  · refine ⟨s.set_data n d, ?_, h.mono fun p hp c hc hle => hle.resolve_left ?_, Links.refl ..⟩
    · have hparent : (s.set_data n d).parent n = none := h.root i n hi
      simp only [hparent, Option.bind_eq_bind, Option.bind_some]
    · rintro rfl
      exact h.wired.forest.top_not_child (mem_table.mpr ⟨i, hi⟩) hp hc
  · have hparent : (s.set_data n d).parent n = some p := h.wired.parent p hp n hc
    simp only [hparent, Option.bind_eq_bind]
    split
    case isTrue =>
      obtain ⟨s₁, hs₁, h₁, hl₁⟩ := cut_spec (s := s.set_data n d) hless
        (fun q z hz hle => hle.resolve_left hz) h hp hc
      have hnodes : s₁.nodes = s.nodes := hl₁.nodes
      obtain ⟨s', hs', h', hl⟩ := add_root_spec (hl₁.decided ▸ hless) h₁
      refine ⟨s', ?_, hnodes ▸ h', hl₁.trans hl fun _ hq => hq.elim⟩
      simp only [hs₁, Option.bind_some, hs']
    case isFalse hlt =>
      refine ⟨s.set_data n d, rfl, h.mono fun q hq c hc' hle => ?_, Links.refl ..⟩
      rcases hle with rfl | hle
      · rw [h.wired.forest.parent_unique hq hp hc' hc]
        exact hless p c (.inl (Bool.eq_false_iff.mpr hlt))
      · exact hle

/-- The value set may be less than the children of the node. -/
theorem decrease_ranked (hless : ∀ p c, Decided m_compare (s.set_data n d) p c → above p c)
    (h : Ranked (fun p c => p = n ∨ above p c) s.toVectors s.m_roots [] s.nodes)
    (hn : n ∈ s.nodes) :
    ∃ s' : Heap α T, s.decrease m_compare n d = some { s' with m_min := none } ∧
      Ranked above s'.toVectors s'.m_roots [] s.nodes ∧
      Links (s.set_data n d) s' fun _ => False := by
  unfold Heap.decrease
  dsimp only
  split
  case isFalse hany =>
    refine ⟨s.set_data n d, rfl, h.mono fun p hp c hc hle => ?_, Links.refl ..⟩
    rcases hle with rfl | hle
    · exact hless p c (.inl (Bool.eq_false_iff.mpr fun hlt =>
        hany (List.any_eq_true.mpr ⟨c, hc, hlt⟩)))
    · exact hle
  case isTrue =>
    obtain ⟨s₁, hs₁, h₁, hl₁⟩ := take_out_spec (s := s.set_data n d)
      (fun p c hd => .inr (hless p c hd)) h hn
    have hnodes : s₁.nodes = s.nodes := hl₁.nodes
    have hrank : s₁.rank n = (s.set_data n d).rank n :=
      congrArg List.length (hl₁.children n rfl)
    obtain ⟨s₂, s', hs₂, hs', h', hl⟩ := rebuild_spec (hl₁.decided ▸ hless)
      (fun q z hq hle => hle.resolve_left hq) h₁ hrank (hnodes ▸ hn)
    refine ⟨s', ?_, hnodes ▸ h', hl₁.trans hl fun _ hq => hq.elim⟩
    simp only [hs₁, Option.bind_eq_bind, Option.bind_some, hs₂, hs']

/-! ## 2. The operations -/

/-- The trees of the table hold the nodes, and `m_min` is a maximum if it is set. -/
structure Inv (m_compare : T → T → Bool) (s : Heap α T) : Prop where
  ranked : Ranked (NotLess m_compare s) s.toVectors s.m_roots [] s.nodes
  size : s.m_size = s.nodes.length
  min : s.nodes ≠ [] → ∀ r ∈ s.m_min, (∃ i : Nat, s.m_roots[i]? = some (some r)) ∧
    ∀ x ∈ s.nodes, NotLess m_compare s r x

def Heap.entries (s : Heap α T) : Queue α T := HandleQueue.entries s.nodes s.m_data

omit [DecidableEq α] in
theorem inv_of_ranked (h : Ranked (NotLess m_compare s) s.toVectors s.m_roots [] s.nodes)
    (hsize : s.m_size = s.nodes.length) : Inv m_compare { s with m_min := none } :=
  ⟨h, hsize, fun _ r hr => by cases hr⟩

variable [IsStrictWeakOrder T (m_compare · ·)]

/-- `m_min` is set to a maximum. -/
theorem ensure_min_spec (h : Inv m_compare s) (hne : s.nodes ≠ []) :
    ∃ r, s.ensure_min m_compare = some { s with m_min := some r } ∧
      Inv m_compare { s with m_min := some r } ∧
      (∃ i : Nat, s.m_roots[i]? = some (some r)) ∧ ∀ x ∈ s.nodes, NotLess m_compare s r x := by
  obtain ⟨r, hr, hroot⟩ : ∃ r, s.ensure_min m_compare = some { s with m_min := some r } ∧
      (∃ i : Nat, s.m_roots[i]? = some (some r)) ∧ ∀ x ∈ s.nodes, NotLess m_compare s r x := by
    unfold Heap.ensure_min
    cases hm : s.m_min with
    | none =>
      obtain ⟨r, hr, hroot⟩ := h.ranked.best hne
      refine ⟨r, ?_, hroot⟩
      have hsize : s.m_size ≠ 0 := by
        rw [h.size]
        exact fun he => hne (List.eq_nil_of_length_eq_zero he)
      simp only [Heap.find_min, if_neg hsize, hr, if_true, Option.bind_eq_bind, Option.bind_some]
    | some r =>
      refine ⟨r, ?_, h.min hne r hm⟩
      rw [← hm]
      exact if_neg (by simp [hm])
  exact ⟨r, hr, ⟨h.ranked, h.size, fun _ q hq => Option.some.inj hq ▸ hroot⟩, hroot⟩

theorem top_spec (h : Inv m_compare s) (hne : s.nodes ≠ []) :
    ∃ r s', s.top m_compare = some (s', s.m_data r) ∧ Inv m_compare s' ∧
      s'.entries = s.entries ∧ s.entries.IsMax m_compare (r, s.m_data r) := by
  obtain ⟨r, hr, hinv, ⟨i, hi⟩, hmax⟩ := ensure_min_spec h hne
  refine ⟨r, _, ?_, hinv, rfl, isMax_entries (h.ranked.mem_of_entry hi) hmax⟩
  simp only [Heap.top, hr, Option.bind_eq_bind, Option.bind_some]

theorem push_spec (h : Inv m_compare s) (hn : n ∉ s.nodes) :
    ∃ s', s.push m_compare n d = some s' ∧ Inv m_compare s' ∧
      s'.entries = s.entries.push n d := by
  let s₁ : Heap α T := { s with m_data := Function.update s.m_data n d }
  have hdata : ∀ q ∈ s.nodes, s₁.m_data q = s.m_data q := fun q hq =>
    Function.update_of_ne (fun he : q = n => hn (he ▸ hq)) ..
  have hranked : Ranked (NotLess m_compare s₁) s.toVectors s.m_roots [] s.nodes := by
    refine h.ranked.mono fun p hp c hc hle => ?_
    unfold NotLess
    rw [hdata p hp, hdata c (h.ranked.wired.forest.mem_of_child hp hc)]
    exact hle
  obtain ⟨s', hs', h', hnodes, hm_data, hsize⟩ :=
    push_ranked (d := d) hranked hn fun _ _ hd => hd.notLess
  have hnotLess : NotLess m_compare s' = NotLess m_compare s₁ := by
    unfold NotLess
    rw [hm_data]
  refine ⟨{ s' with m_min := none }, hs', inv_of_ranked (hnotLess ▸ h') ?_, ?_⟩
  · rw [hsize, hnodes, h.size, List.length_append, List.length_singleton]
  · show HandleQueue.entries s'.nodes s'.m_data = _
    rw [hnodes, hm_data]
    exact entries_push hn s.m_data d

/-- A maximum goes. -/
theorem pop_spec (h : Inv m_compare s) (hne : s.nodes ≠ []) :
    ∃ s', s.pop m_compare = some s' ∧ Inv m_compare s' ∧ s.entries.Pops m_compare s'.entries := by
  obtain ⟨r, hr, hinv, ⟨i, hi⟩, hmax⟩ := ensure_min_spec h hne
  have hmem := h.ranked.mem_of_entry hi
  obtain ⟨s', hs', h', hl⟩ := pop_ranked (fun _ _ hd => hd.notLess) h.ranked hi hr
  let s₃ : Heap α T := { s' with nodes := s'.nodes.erase r, m_size := s'.m_size - 1 }
  refine ⟨{ s₃ with m_min := none }, hs', inv_of_ranked ?_ ?_, (r, s.m_data r),
    isMax_entries hmem hmax, ?_⟩
  · rw [show NotLess m_compare s₃ = NotLess m_compare s from hl.notLess,
      show s₃.nodes = s.nodes.erase r from congrArg (List.erase · r) hl.nodes]
    exact h'
  · show s'.m_size - 1 = (s'.nodes.erase r).length
    rw [hl.nodes, hl.m_size, List.length_erase_of_mem hmem, ← h.size]
  · show HandleQueue.entries (s'.nodes.erase r) s'.m_data = _
    rw [hl.nodes, hl.m_data]
    exact entries_remove s.nodes s.m_data r

omit [IsStrictWeakOrder T (m_compare · ·)] in
/-- What is left to do when a value has been set. -/
theorem set_data_done (hsize : s.m_size = s.nodes.length) (hl : Links (s.set_data n d) s' kept)
    (h : Ranked (NotLess m_compare (s.set_data n d)) s'.toVectors s'.m_roots [] s.nodes) :
    Inv m_compare { s' with m_min := none } ∧
      Heap.entries { s' with m_min := none } = s.entries.set n d := by
  have hnodes : s'.nodes = s.nodes := hl.nodes
  refine ⟨inv_of_ranked ?_ ?_, ?_⟩
  · rw [hl.notLess, hnodes]
    exact h
  · rw [hnodes, ← hsize]
    exact hl.m_size
  · show HandleQueue.entries s'.nodes s'.m_data = _
    rw [hnodes, hl.m_data]
    exact entries_set s.nodes s.m_data n d

omit [IsStrictWeakOrder T (m_compare · ·)] in
theorem notLess_set_data {p c : α} (hp : p ≠ n) (hc : c ≠ n) (hle : NotLess m_compare s p c) :
    NotLess m_compare (s.set_data n d) p c := by
  unfold NotLess Heap.set_data
  dsimp only
  rw [Function.update_of_ne hp, Function.update_of_ne hc]
  exact hle

theorem increase_spec (h : Inv m_compare s) (hn : n ∈ s.nodes)
    (hfits : ∀ c ∈ s.children n, m_compare d (s.m_data c) = false) :
    ∃ s', s.increase m_compare n d = some s' ∧ Inv m_compare s' ∧
      s'.entries = s.entries.set n d := by
  have hself : (s.set_data n d).m_data n = d := Function.update_self ..
  -- only the parent of `n` may be less than its child
  have hranked : Ranked (fun p c => c = n ∨ NotLess m_compare (s.set_data n d) p c)
      s.toVectors s.m_roots [] s.nodes := by
    refine h.ranked.mono fun p hp c hc hle => ?_
    rcases eq_or_ne c n with rfl | hcn
    · exact .inl rfl
    · rcases eq_or_ne p n with rfl | hpn
      · refine .inr ?_
        unfold NotLess
        rw [hself, show (s.set_data p d).m_data c = s.m_data c from Function.update_of_ne hcn ..]
        exact hfits c hc
      · exact .inr (notLess_set_data hpn hcn hle)
  obtain ⟨s', hs', h', hl⟩ := increase_ranked (fun _ _ hd => hd.notLess) hranked hn
  obtain ⟨hinv, hentries⟩ := set_data_done h.size hl h'
  exact ⟨_, hs', hinv, hentries⟩

theorem decrease_spec (h : Inv m_compare s) (hn : n ∈ s.nodes)
    (hfits : ∀ p ∈ s.parent n, m_compare (s.m_data p) d = false) :
    ∃ s', s.decrease m_compare n d = some s' ∧ Inv m_compare s' ∧
      s'.entries = s.entries.set n d := by
  have hself : (s.set_data n d).m_data n = d := Function.update_self ..
  -- only `n` may be less than its children
  have hranked : Ranked (fun p c => p = n ∨ NotLess m_compare (s.set_data n d) p c)
      s.toVectors s.m_roots [] s.nodes := by
    refine h.ranked.mono fun p hp c hc hle => ?_
    rcases eq_or_ne p n with rfl | hpn
    · exact .inl rfl
    · rcases eq_or_ne c n with rfl | hcn
      · refine .inr ?_
        unfold NotLess
        rw [hself, show (s.set_data c d).m_data p = s.m_data p from Function.update_of_ne hpn ..]
        exact hfits p (h.ranked.wired.parent p hp c hc)
      · exact .inr (notLess_set_data hpn hcn hle)
  obtain ⟨s', hs', h', hl⟩ := decrease_ranked (fun _ _ hd => hd.notLess) hranked hn
  obtain ⟨hinv, hentries⟩ := set_data_done h.size hl h'
  exact ⟨_, hs', hinv, hentries⟩

theorem change_spec (h : Inv m_compare s) (hn : n ∈ s.nodes) :
    ∃ s', s.change m_compare n d = some s' ∧ Inv m_compare s' ∧
      s'.entries = s.entries.set n d := by
  unfold Heap.change
  split
  case isTrue hlt =>
    refine increase_spec h hn fun c hc => not_lt_trans ?_ (h.ranked.wired.above n hn c hc)
    exact Bool.eq_false_iff.mpr (asymm_of (m_compare · ·) hlt)
  case isFalse hlt =>
    refine decrease_spec h hn fun p hp => not_lt_trans ?_ (Bool.eq_false_iff.mpr hlt)
    rcases (h.ranked.cases hn).resolve_left List.not_mem_nil with ⟨i, hi⟩ | ⟨q, hq, hc⟩
    · rw [h.ranked.root i n hi] at hp
      cases hp
    · rw [h.ranked.wired.parent q hq n hc] at hp
      exact Option.some.inj hp ▸ h.ranked.wired.above q hq n hc

/-! ## 3. The queue -/

/-- Every operation returns, and is the one of the queue. -/
theorem exec_spec {l : Op α T} (h : Inv m_compare s) (hv : Valid s l)
    (hf : Fits m_compare s l) :
    ∃ s', exec m_compare s l = some s' ∧ Inv m_compare s' ∧
      (queue α m_compare).step s.entries l s'.entries := by
  have hentry : ∀ n ∈ s.nodes, ∃ e ∈ s.entries, e.1 = n := fun n hn =>
    ⟨(n, s.m_data n), mem_entries.mpr ⟨hn, rfl⟩, rfl⟩
  cases l with
  | push p d =>
    obtain ⟨s', hs, hinv, he⟩ := push_spec h hv
    exact ⟨s', hs, hinv, fun e hmem hep => hv (hep ▸ (mem_entries.mp hmem).1), he⟩
  | pop => exact pop_spec h hv
  | top =>
    obtain ⟨r, s', hs, hinv, he, hmax⟩ := top_spec h hv
    exact ⟨s', congrArg (Option.map Prod.fst) hs, hinv, ⟨_, hmax⟩, he⟩
  | increase n d =>
    obtain ⟨s', hs, hinv, he⟩ := increase_spec h hv hf
    exact ⟨s', hs, hinv, hentry n hv, he⟩
  | decrease n d =>
    obtain ⟨s', hs, hinv, he⟩ := decrease_spec h hv hf
    exact ⟨s', hs, hinv, hentry n hv, he⟩
  | change n d =>
    obtain ⟨s', hs, hinv, he⟩ := change_spec h hv
    exact ⟨s', hs, hinv, hentry n hv, he⟩
  | change_top d =>
    obtain ⟨r, hr, hinv, ⟨i, hi⟩, hmax⟩ := ensure_min_spec h hv
    have hmem := h.ranked.mem_of_entry hi
    obtain ⟨s', hs, hinv', he⟩ := change_spec (d := d) hinv hmem
    refine ⟨s', ?_, hinv', _, isMax_entries hmem hmax, he⟩
    simp only [exec, Heap.change_top, hr, Option.bind_eq_bind, Option.bind_some, hs]

omit [IsStrictWeakOrder T (m_compare · ·)] in
theorem inv_initial (h : (system α m_compare).init s) :
    Inv m_compare s ∧ s.entries = [] := by
  obtain ⟨hnodes, hroots, hsize⟩ := h
  refine ⟨⟨⟨⟨⟨?_, ?_, fun _ => 0, ?_⟩, ?_, ?_, ?_⟩, ?_, ?_⟩, ?_, ?_⟩, ?_⟩
  all_goals simp [hnodes, hroots, hsize, Heap.entries, HandleQueue.entries]

/-- `increase()` and `decrease()` with a value that fits. -/
def fitting (α : Type) [DecidableEq α] (m_compare : T → T → Bool) :
    System (Heap α T) (Op α T) :=
  (system α m_compare).restrict (Fits m_compare)

/-- After every run every entry of the table is null or a root of its rank, children know
their parents and indices and are not greater, and every node is held once. The operations
were those of a queue with handles that holds the same values, of which `top()` returns a
maximum. All operations return. -/
theorem fibonacci_refines_queue {s₀ : Heap α T} {tr : List (Op α T)}
    (h₀ : (system α m_compare).init s₀) (h : Run (fitting α m_compare) s₀ tr s) :
    (∀ (i : Nat) r, s.m_roots[i]? = some (some r) → r ∈ s.nodes ∧ s.rank r = i ∧ s.is_root r) ∧
    (∀ p ∈ s.nodes, ∀ (i : Nat) c, (s.children p)[i]? = some c →
      c ∈ s.nodes ∧ s.parent c = some p ∧ s.index c = i ∧
        m_compare (s.m_data p) (s.m_data c) = false) ∧
    Forest s.m_roots.reduceOption s.nodes s.children ∧
    (∀ l, Walk s.children s.m_roots.reduceOption l → l.Perm s.nodes) ∧
    s.m_size = s.entries.length ∧
    Run (queue α m_compare) [] tr s.entries ∧
    (∀ l, Valid s l → Fits m_compare s l → ∃ s', exec m_compare s l = some s') ∧
    (s.nodes ≠ [] → ∃ r s', s.top m_compare = some (s', s.m_data r) ∧
      s.entries.IsMax m_compare (r, s.m_data r)) := by
  obtain ⟨hinv₀, hentries₀⟩ := inv_initial h₀
  obtain ⟨q, hrun, rfl, hinv⟩ : ∃ q, Run (queue α m_compare) [] tr q ∧ q = s.entries ∧
      Inv m_compare s := by
    refine h.simulate (R := fun q s => q = s.entries ∧ Inv m_compare s)
      ⟨hentries₀.symm, hinv₀⟩ ?_
    rintro q s l s' ⟨rfl, hi⟩ ⟨hs, hf⟩
    obtain ⟨hv, hs⟩ := Option.ite_none_right_eq_some.mp hs
    obtain ⟨s'', hs'', hi', hq⟩ := exec_spec hi hv hf
    rw [hs, Option.some.injEq] at hs''
    subst hs''
    exact ⟨_, hq, rfl, hi'⟩
  have hforest := hinv.ranked.wired.forest
  refine ⟨fun i r hi => ⟨hinv.ranked.mem_of_entry hi, hinv.ranked.rank i r hi, ?_⟩,
    fun p hp i c hc => ?_, hforest, fun l hl => hl.perm hforest, ?_, hrun, fun l hv hf => ?_,
    fun hne => ?_⟩
  · unfold Heap.is_root
    rw [hinv.ranked.root i r hi]
    rfl
  · have hmem := List.mem_of_getElem? hc
    exact ⟨hforest.mem_of_child hp hmem, hinv.ranked.wired.parent p hp c hmem,
      hinv.ranked.wired.index p hp i c hc, hinv.ranked.wired.above p hp c hmem⟩
  · rw [hinv.size, Heap.entries, HandleQueue.entries, List.length_map]
  · obtain ⟨s', hs', -⟩ := exec_spec hinv hv hf
    exact ⟨s', hs'⟩
  · obtain ⟨r, s', hs', -, -, hmax⟩ := top_spec hinv hne
    exact ⟨r, s', hs', hmax⟩

/-- Two children of one node are cut, which cuts their parent, and a root is decreased below
its children. -/
def exRun : List (Op Nat Nat) :=
  [.push 0 10, .push 1 9, .push 2 8, .push 3 7, .push 4 6, .push 5 5, .push 6 4, .push 7 3,
    .increase 5 20, .increase 6 30, .pop, .decrease 0 2, .top, .change 7 12, .change_top 1]

/-- `m_min` is not yet initialised. -/
def exHeap : Heap Nat Nat :=
  ⟨⟨fun _ => [], fun _ => none, fun _ => 0⟩, [], fun _ => 0, fun _ => 0, [], 0, none⟩

theorem fibonacci_refines_queue_example : ∃ s,
    Run (fitting Nat fun x y => decide (x < y)) exHeap exRun s ∧
    s.entries = [(0, 2), (1, 9), (2, 8), (3, 7), (4, 6), (5, 1), (7, 12)] ∧
    Run (queue Nat fun x y => decide (x < y)) [] exRun s.entries := by
  have hrun := run_replay_restrict (S := system Nat fun x y => decide (x < y))
    (fun _ _ _ => id) (show (replay (fun s l => if Fits (fun x y => decide (x < y)) s l
      then next (fun x y => decide (x < y)) s l else none) exHeap exRun).isSome by decide)
  refine ⟨_, hrun, by decide, ?_⟩
  exact (fibonacci_refines_queue ⟨rfl, rfl, rfl⟩ hrun).2.2.2.2.2.1

/-- The value of a root is made smaller by `increase()`. -/
theorem fibonacci_not_refines_queue : ∃ s, Run (system Nat fun x y => decide (x < y)) exHeap
      [.push 0 5, .push 1 4, .increase 0 1] s ∧
    (1 ∈ s.children 0 ∧ s.m_data 0 < s.m_data 1) ∧
    (s.top fun x y => decide (x < y)).map Prod.snd = some 1 ∧ (1, 4) ∈ s.entries := by
  have hrun := run_replay (S := system Nat fun x y => decide (x < y)) (fun _ _ _ => id)
    (show (replay (next fun x y => decide (x < y)) exHeap
      [.push 0 5, .push 1 4, .increase 0 1]).isSome by decide)
  exact ⟨_, hrun, by decide, by decide, by decide⟩

end

end Kuhllib.FibonacciHeap
