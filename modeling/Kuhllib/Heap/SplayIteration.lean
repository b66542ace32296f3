import Kuhllib.Heap.SplayChangeTop
import Kuhllib.Lib.Iteration

/-!
# `boost::splay_heap`: iteration

An iterator is its stack, the top of it first. `begin()` puts the root on it, even if that is
null. A step goes on to the left and the right node, not to the next one.

Results:
1. `walk_tree`: from a node the first ones of all classes below it are visited.
2. `iterates_iff`: when the iteration visits every element in `size()` steps.
-/

namespace Kuhllib.SplayHeap

open Iteration LinkedTree Transition SplayHeapLemmas SplayChangeTopLemmas

variable {α T : Type} [DecidableEq α]

abbrev const_iterator (α : Type) := List (Option α)

def Heap.begin (s : Heap α T) : const_iterator α := [s.cell m_root]

def Heap.end (_ : Heap α T) : const_iterator α := []

/-- `operator==`. -/
def const_iterator.equal (it it' : const_iterator α) : Bool := it.isEmpty == it'.isEmpty

/-- The node of `operator*`; there is none for a null pointer, nor at the end. -/
def const_iterator.node : const_iterator α → Option α
  | n :: _ => n
  | [] => none

/-- `operator++`. -/
def Heap.increment (s : Heap α T) : const_iterator α → Option (const_iterator α)
  | some tmp :: m_stack =>
    let m_stack := if s.cell (.left tmp) ≠ none then s.cell (.left tmp) :: m_stack else m_stack
    let m_stack := if s.cell (.right tmp) ≠ none then s.cell (.right tmp) :: m_stack else m_stack
    some m_stack
  | _ => none

/-- `*it`, and `++it`. -/
def Heap.visit (s : Heap α T) (it : const_iterator α) : Option (α × const_iterator α) := do
  let n ← it.node
  some (n, ← s.increment it)

/-- From `begin()` it takes `size()` steps to `end()`, and every node is visited once. -/
def Iterates (s : Heap α T) : Prop :=
  ∃ ns it, walk s.visit s.m_size s.begin = some (ns, it) ∧
    const_iterator.equal it s.end = true ∧ ns.Perm s.nodes

/-! ## 1. Walks -/

section

variable {s : Heap α T} {t : NodeTree α} {l : Loc Variable α} {it : const_iterator α}

omit [DecidableEq α] in
theorem equal_end : const_iterator.equal it s.end = true ↔ it = [] := by
  cases it <;> simp [const_iterator.equal, Heap.end]

omit [DecidableEq α] in
theorem visit_end : s.visit [] = none := rfl

omit [DecidableEq α] in
/-- A tree that is on the stack is visited, if there is one, and leaves the stack below it. -/
theorem walk_tree (h : Linked s.cell l t) (it : const_iterator α) :
    walk s.visit t.firsts.length (if s.cell l ≠ none then s.cell l :: it else it) =
      some (t.firsts, it) := by
  induction t generalizing l it with
  | leaf =>
    have hnone : s.cell l = none := h
    rw [if_neg (not_not.mpr hnone)]
    rfl
  | node a n c b iha ihb =>
    obtain ⟨hn, ha, -, hb⟩ := h
    have hrest := walk_add (ihb hb (if s.cell (.left n) ≠ none then s.cell (.left n) :: it else it))
      (iha ha it)
    rw [← List.length_append] at hrest
    rw [if_pos (by rw [hn]; simp), hn, NodeTree.firsts, List.length_cons]
    exact walk_cons rfl hrest

/-! ## 2. All elements -/

variable {m_compare : T → T → Bool}

omit [DecidableEq α] in
theorem iterates_iff_size (h : Inv m_compare s t) : Iterates s ↔
    s.nodes ≠ [] ∧
    (∀ x ∈ s.nodes, ∀ y ∈ s.nodes, x ≠ y →
      m_compare (s.m_data x) (s.m_data y) = true ∨ m_compare (s.m_data y) (s.m_data x) = true) ∧
    s.m_size = s.nodes.length := by
  have hpairs := h.sorted.others_eq_nil_iff (nodup_tree h)
  simp only [h.nodes.mem_iff] at hpairs
  rw [← firsts_perm_nodes_iff] at hpairs
  rw [← h.nodes.length_eq]
  change _ ↔ _ ∧ (∀ x ∈ s.nodes, ∀ y ∈ s.nodes, x ≠ y → s.less m_compare x y ∨
    s.less m_compare y x) ∧ _
  rw [← hpairs]
  cases t with
  | leaf =>
    -- the null pointer is on the stack, and stays there
    have hnil : s.nodes = [] := h.nodes.nil_eq.symm
    refine iff_of_false ?_ fun hand => hand.1 hnil
    rintro ⟨ns, it, hwalk, hend, -⟩
    have hnull : s.visit s.begin = none := by
      simp only [Heap.visit, Heap.begin, const_iterator.node, show s.cell m_root = none from h.linked,
        Option.bind_eq_bind, Option.bind_none]
    obtain ⟨-, -, rfl⟩ := walk_stuck hnull hwalk
    cases equal_end.mp hend
  | node a n c b =>
    have hne : s.nodes ≠ [] := by
      intro hnil
      have hlength := h.nodes.length_eq
      rw [hnil] at hlength
      simp at hlength
    have hroot : s.cell m_root ≠ none := by
      rw [h.linked.1]
      simp
    have hall := walk_tree h.linked []
    rw [if_pos hroot] at hall
    rw [and_iff_right hne]
    constructor
    · rintro ⟨ns, it, hwalk, hend, hperm⟩
      obtain rfl := equal_end.mp hend
      obtain ⟨hsize, rfl, -⟩ := walk_unique hwalk visit_end hall visit_end
      have hfirsts := hperm.trans h.nodes.symm
      exact ⟨hfirsts, hsize.trans hfirsts.length_eq⟩
    · rintro ⟨hfirsts, hsize⟩
      rw [← hfirsts.length_eq] at hsize
      exact ⟨_, [], hsize ▸ hall, rfl, hfirsts.trans h.nodes⟩

/-- Every `change_top` fits. -/
def FitsStep (m_compare : T → T → Bool) (s : Heap α T) : Label α T → Prop
  | .change_top val => Fits m_compare s val
  | _ => True

instance decidableFitsStep (m_compare : T → T → Bool) (s : Heap α T) :
    ∀ l : Label α T, Decidable (FitsStep m_compare s l)
  | .change_top val => inferInstanceAs (Decidable (s.nodes.length = 1 ∨ ∀ x ∈ s.nodes,
      m_compare (s.m_data x) val = false ∧ m_compare val (s.m_data x) = false))
  | .push _ _ | .top | .pop | .change _ _ | .remove _ => inferInstanceAs (Decidable True)

def Label.removes : Label α T → Bool
  | .remove _ => true
  | _ => false

/-- The size also counts the nodes that have been removed. -/
structure Counted (m_compare : T → T → Bool) (tr : List (Label α T)) (s : Heap α T) : Prop where
  inv : ∃ t, Inv m_compare s t
  size : s.m_size = s.nodes.length + tr.countP Label.removes

variable [IsStrictWeakOrder T (m_compare · ·)]

theorem counted_step {tr : List (Label α T)} {l : Label α T} {s' : Heap α T}
    (h : Counted m_compare tr s) (hs : next m_compare s l = some s')
    (hfits : FitsStep m_compare s l) : Counted m_compare (tr ++ [l]) s' := by
  obtain ⟨⟨t, hinv⟩, hsize⟩ := h
  obtain ⟨hv, hs⟩ := Option.ite_none_right_eq_some.mp hs
  have hcount : ∀ {t' : NodeTree α}, Inv m_compare s' t' → Label.removes l = false →
      (s.m_size = s.nodes.length + tr.countP Label.removes →
        s'.m_size = s'.nodes.length + tr.countP Label.removes) →
      Counted m_compare (tr ++ [l]) s' := by
    intro t' hinv' hl hkeep
    refine ⟨⟨t', hinv'⟩, ?_⟩
    rw [List.countP_append, List.countP_singleton, hl]
    exact hkeep hsize
  cases l with
  | push p val =>
    obtain ⟨s₁, t₁, hs₁, hinv₁, -, hlength, hsize₁⟩ := push_spec hinv hv val
    obtain rfl := Option.some.inj (hs.symm.trans hs₁)
    refine hcount hinv₁ rfl fun hc => ?_
    rw [hsize₁, hlength, hc, Nat.add_right_comm]
  | top =>
    obtain ⟨s₁, a, n, c, hs₁, hlinks, hinv₁, -⟩ := root_spec hinv hv
    have htop : exec m_compare s .top = some s₁ := by
      simp only [exec, Heap.top, hs₁, hinv₁.linked.1, Option.bind_eq_bind, Option.bind_some,
        Option.map_some]
    obtain rfl := Option.some.inj (hs.symm.trans htop)
    refine hcount hinv₁ rfl fun hc => ?_
    rw [hlinks.m_size, hlinks.nodes, hc]
  | pop =>
    obtain ⟨s₁, t₁, n, hs₁, hinv₁, -, -, hlength, hsize₁⟩ := pop_spec hinv hv
    obtain rfl := Option.some.inj (hs.symm.trans hs₁)
    refine hcount hinv₁ rfl fun hc => ?_
    rw [hsize₁, hc, ← hlength, Nat.add_right_comm, Nat.add_sub_cancel]
  | change n val =>
    obtain ⟨s₁, t₁, hs₁, hinv₁, -, hnodes, hsize₁⟩ := change_spec hinv hv val
    obtain rfl := Option.some.inj (hs.symm.trans hs₁)
    refine hcount hinv₁ rfl fun hc => ?_
    rw [hsize₁, hnodes, hc]
  | change_top val =>
    obtain ⟨s₁, a, n, c, s₂, t₂, htaken⟩ := takenTop hinv hv val
    obtain ⟨s₃, t₃, hs₃, hinv₃, hentries, hsize₃⟩ := change_top_fits htaken hfits
    obtain rfl := Option.some.inj (hs.symm.trans hs₃)
    refine hcount hinv₃ rfl fun hc => ?_
    have hlength := congrArg List.length hentries
    simp only [Heap.entries, HandleQueue.entries, HandleQueue.Queue.set, List.length_map] at hlength
    rw [hsize₃, hlength, hc]
  | remove n =>
    obtain ⟨s₁, t₁, hs₁, hinv₁, -, hnodes, hsize₁⟩ := remove_spec hinv hv
    obtain rfl := Option.some.inj (hs.symm.trans hs₁)
    refine ⟨⟨t₁, hinv₁⟩, ?_⟩
    have hone : List.countP Label.removes [Label.remove (T := T) n] = 1 := rfl
    rw [List.countP_append, hone, hsize₁, hnodes, hsize, ← List.length_erase_add_one hv]
    exact Nat.add_right_comm ..

/-- The iteration visits each element once in `size()` steps exactly if the heap is not empty,
no two elements are equivalent, and none has been removed. -/
theorem iterates_iff {s₀ : Heap α T} {tr : List (Label α T)}
    (h₀ : (system α m_compare).init s₀)
    (h : Run ((system α m_compare).restrict (FitsStep m_compare)) s₀ tr s) :
    Iterates s ↔ s.nodes ≠ [] ∧
      (∀ x ∈ s.nodes, ∀ y ∈ s.nodes, x ≠ y →
        m_compare (s.m_data x) (s.m_data y) = true ∨ m_compare (s.m_data y) (s.m_data x) = true) ∧
      ∀ n, .remove n ∉ tr := by
  obtain ⟨hinv₀, -, hsize₀⟩ := inv_initial h₀
  have hcounted : Counted m_compare tr s := by
    refine h.invariant (I := Counted m_compare) ⟨⟨_, hinv₀⟩, hsize₀⟩ ?_
    rintro tr s l s' hc ⟨hs, hfits⟩
    exact counted_step hc hs hfits
  obtain ⟨⟨t, hinv⟩, hsize⟩ := hcounted
  rw [iterates_iff_size hinv, hsize]
  refine and_congr_right fun _ => and_congr_right fun _ => ?_
  rw [Nat.add_eq_left, List.countP_eq_zero]
  constructor
  · intro hnone n hn
    exact hnone _ hn rfl
  · intro hnone l hl
    cases l with
    | remove n => exact absurd hl (hnone n)
    | _ => exact Bool.false_ne_true

end

def exDistinct : List (Label Nat Nat) :=
  [.push 0 4, .change_top 3, .push 1 2, .push 2 6, .change 1 5, .top]

theorem iterates_iff_example : ∃ s, Run ((system Nat fun x y => decide (x < y)).restrict
      (FitsStep fun x y => decide (x < y))) exEmpty exDistinct s ∧ Iterates s := by
  have hrun := run_replay_restrict (S := system Nat fun x y => decide (x < y)) (fun _ _ _ => id)
    (show (replay (fun s l => if FitsStep (fun x y => decide (x < y)) s l
      then next (fun x y => decide (x < y)) s l else none) exEmpty exDistinct).isSome by decide)
  refine ⟨_, hrun, (iterates_iff ⟨rfl, rfl, rfl⟩ hrun).mpr ⟨by decide, by decide, ?_⟩⟩
  intro n hn
  simp [exDistinct] at hn

/-- The second one of two equal elements is not visited. -/
theorem not_iterates : ¬ ∀ (s : Heap Nat Nat) (tr : List (Label Nat Nat)),
    Run (system Nat fun x y => decide (x < y)) exEmpty tr s → Iterates s := by
  intro hall
  have hrun := run_replay (S := system Nat fun x y => decide (x < y)) (fun _ _ _ => id)
    (show (replay (next fun x y => decide (x < y)) exEmpty [.push 0 4, .push 1 4]).isSome by decide)
  obtain ⟨t, hinv⟩ := inv_prefix ⟨rfl, rfl, rfl⟩ (fun p s val hp => by
    have hl := hp.subset (List.mem_append_right p (List.mem_singleton_self _))
    simp at hl) _ _ (List.prefix_refl _) hrun
  obtain ⟨-, hdistinct, -⟩ := (iterates_iff_size hinv).mp (hall _ _ hrun)
  revert hdistinct
  decide

end Kuhllib.SplayHeap
