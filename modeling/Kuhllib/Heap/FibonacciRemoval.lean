import Kuhllib.Heap.FibonacciHeap

/-!
# `boost::fibonacci_heap`: all operations

With `remove()`, and with any values for `increase()` and `decrease()`. A child may then be
greater than its parent, and the size counts elements that have been removed. What stays are
the trees.

Results:
1. `remove_spec`: `remove` takes a node out, and leaves the size.
2. `shape_run`: after all runs the trees hold the nodes, and every operation returns.
-/

namespace Kuhllib.FibonacciHeap

open HandleQueue HeapForest RankForest Transition

variable {α T : Type} [DecidableEq α]

def Heap.remove (m_compare : T → T → Bool) (s : Heap α T) (n : α) : Option (Heap α T) := do
  let s ← s.take_out m_compare n
  let s ← s.add_roots m_compare (s.rank n) n 0
  let s := { s with m_min := none }
  s.delete n

inductive Label (α T : Type)
  | op (l : Op α T)
  | remove (n : α)

def execAll (m_compare : T → T → Bool) (s : Heap α T) : Label α T → Option (Heap α T)
  | .op l => exec m_compare s l
  | .remove n => s.remove m_compare n

def ValidAll (s : Heap α T) : Label α T → Prop
  | .op l => Valid s l
  | .remove n => n ∈ s.nodes

instance decidableValidAll (s : Heap α T) : ∀ l : Label α T, Decidable (ValidAll s l)
  | .op l => inferInstanceAs (Decidable (Valid s l))
  | .remove n => inferInstanceAs (Decidable (n ∈ s.nodes))

def nextAll (m_compare : T → T → Bool) (s : Heap α T) (l : Label α T) : Option (Heap α T) :=
  if ValidAll s l then execAll m_compare s l else none

def systemAll (α : Type) [DecidableEq α] (m_compare : T → T → Bool) :
    System (Heap α T) (Label α T) where
  init := (system α m_compare).init
  step s l s' := nextAll m_compare s l = some s'

/-! ## 1. `remove` -/

section

variable {m_compare : T → T → Bool} {above : α → α → Prop} {s s' : Heap α T} {n : α} {d : T}

/-- The children of the node become trees of their own, and the size stays. -/
theorem remove_spec (hless : ∀ p c, Decided m_compare s p c → above p c)
    (h : Ranked above s.toVectors s.m_roots [] s.nodes) (hn : n ∈ s.nodes) :
    ∃ s', s.remove m_compare n = some s' ∧
      Ranked above s'.toVectors s'.m_roots [] s'.nodes ∧ s'.entries = s.entries.remove n ∧
      s'.nodes = s.nodes.erase n ∧ s'.m_size = s.m_size ∧ s'.m_min = none := by
  obtain ⟨s₁, hs₁, h₁, hl₁⟩ := take_out_spec hless h hn
  obtain ⟨s₂, hs₂, h₂, hl₂⟩ := scatter_spec (hl₁.decided ▸ hless) (fun _ _ _ ha => ha) h₁ rfl
  have hnodes : s₂.nodes = s.nodes := hl₂.nodes.trans hl₁.nodes
  have hdelete : Heap.delete { s₂ with m_min := none } n =
      some { s₂ with nodes := s₂.nodes.erase n, m_min := none } := if_pos (hnodes.symm ▸ hn)
  refine ⟨{ s₂ with nodes := s₂.nodes.erase n, m_min := none }, ?_, ?_, ?_,
    congrArg (List.erase · n) hnodes, hl₂.m_size.trans hl₁.m_size, rfl⟩
  · simp only [Heap.remove, hs₁, hs₂, hdelete, Option.bind_eq_bind, Option.bind_some]
  · show Ranked above s₂.toVectors s₂.m_roots [] (s₂.nodes.erase n)
    rw [hl₂.nodes]
    exact h₂
  · show HandleQueue.entries (s₂.nodes.erase n) s₂.m_data = _
    rw [hnodes, hl₂.m_data, hl₁.m_data]
    exact entries_remove s.nodes s.m_data n

/-! ## 2. The trees -/

/-- The trees of the table hold the nodes, and `m_min` is an entry of it if it is set. -/
structure Shape (s : Heap α T) : Prop where
  ranked : Ranked (fun _ _ => True) s.toVectors s.m_roots [] s.nodes
  size : s.nodes.length ≤ s.m_size
  min : s.nodes ≠ [] → ∀ r ∈ s.m_min, ∃ i : Nat, s.m_roots[i]? = some (some r)

omit [DecidableEq α] in
theorem shape_of_ranked (h : Ranked (fun _ _ => True) s.toVectors s.m_roots [] s.nodes)
    (hsize : s.nodes.length ≤ s.m_size) : Shape { s with m_min := none } :=
  ⟨h, hsize, fun _ r hr => by cases hr⟩

variable (m_compare) in
omit [DecidableEq α] in
/-- An entry of the table is found. -/
theorem shape_ensure_min (h : Shape s) (hne : s.nodes ≠ []) :
    ∃ (r : α) (i : Nat), s.ensure_min m_compare = some { s with m_min := some r } ∧
      s.m_roots[i]? = some (some r) ∧ Shape { s with m_min := some r } := by
  obtain ⟨r, i, hr, hi⟩ : ∃ (r : α) (i : Nat),
      s.ensure_min m_compare = some { s with m_min := some r } ∧
        s.m_roots[i]? = some (some r) := by
    unfold Heap.ensure_min
    cases hm : s.m_min with
    | none =>
      have htops : s.m_roots.reduceOption ≠ [] := by
        intro hnil
        have hforest := h.ranked.wired.forest
        rw [hnil] at hforest
        exact hne hforest.nil_of_nil
      obtain ⟨r, hr, hmem⟩ := best_mem (fun m r => m_compare (s.m_data m) (s.m_data r)) htops
      obtain ⟨i, hi⟩ := mem_table.mp hmem
      have hsize : s.m_size ≠ 0 := fun he =>
        hne (List.eq_nil_of_length_eq_zero (Nat.le_zero.mp (he ▸ h.size)))
      refine ⟨r, i, ?_, hi⟩
      simp only [Heap.find_min, if_neg hsize, hr, if_true, Option.bind_eq_bind, Option.bind_some]
    | some r =>
      obtain ⟨i, hi⟩ := h.min hne r hm
      refine ⟨r, i, ?_, hi⟩
      rw [← hm]
      exact if_neg (by simp [hm])
  exact ⟨r, i, hr, hi, h.ranked, h.size, fun _ q hq => Option.some.inj hq ▸ ⟨i, hi⟩⟩

theorem shape_increase (h : Shape s) (hn : n ∈ s.nodes) :
    ∃ s', s.increase m_compare n d = some s' ∧ Shape s' := by
  obtain ⟨s', hs', h', hl⟩ := increase_ranked (fun _ _ _ => trivial)
    (h.ranked.mono fun _ _ _ _ _ => .inr trivial) hn
  have hnodes : s'.nodes = s.nodes := hl.nodes
  exact ⟨_, hs', shape_of_ranked (hnodes.symm ▸ h') (hl.m_size ▸ hnodes.symm ▸ h.size)⟩

theorem shape_decrease (h : Shape s) (hn : n ∈ s.nodes) :
    ∃ s', s.decrease m_compare n d = some s' ∧ Shape s' := by
  obtain ⟨s', hs', h', hl⟩ := decrease_ranked (fun _ _ _ => trivial)
    (h.ranked.mono fun _ _ _ _ _ => .inr trivial) hn
  have hnodes : s'.nodes = s.nodes := hl.nodes
  exact ⟨_, hs', shape_of_ranked (hnodes.symm ▸ h') (hl.m_size ▸ hnodes.symm ▸ h.size)⟩

theorem shape_change (h : Shape s) (hn : n ∈ s.nodes) :
    ∃ s', s.change m_compare n d = some s' ∧ Shape s' := by
  unfold Heap.change
  split
  · exact shape_increase h hn
  · exact shape_decrease h hn

variable (m_compare) in
/-- Every operation returns and keeps the trees. -/
theorem shape_exec {l : Label α T} (h : Shape s) (hv : ValidAll s l) :
    ∃ s', execAll m_compare s l = some s' ∧ Shape s' := by
  cases l with
  | remove n =>
    obtain ⟨s', hs', h', -, hnodes, hsize, hmin⟩ := remove_spec
      (fun p c (_ : Decided m_compare s p c) => trivial) h.ranked hv
    refine ⟨s', hs', h', ?_, fun _ r hr => ?_⟩
    · rw [hnodes, hsize]
      exact Nat.le_trans (List.length_erase_le ..) h.size
    · rw [hmin] at hr
      cases hr
  | op l =>
    cases l with
    | push p d =>
      obtain ⟨s', hs', h', hnodes, -, hsize⟩ := push_ranked h.ranked hv
        fun q c (_ : Decided m_compare { s with m_data := Function.update s.m_data p d } q c) => trivial
      refine ⟨_, hs', shape_of_ranked h' ?_⟩
      rw [hnodes, hsize, List.length_append]
      exact Nat.succ_le_succ h.size
    | pop =>
      obtain ⟨r, i, hr, hi, -⟩ := shape_ensure_min m_compare h hv
      obtain ⟨s', hs', h', hl⟩ := pop_ranked (fun _ _ _ => trivial) h.ranked hi hr
      let s₃ : Heap α T := { s' with nodes := s'.nodes.erase r, m_size := s'.m_size - 1 }
      refine ⟨_, hs', shape_of_ranked (s := s₃) ?_ ?_⟩
      · show Ranked (fun _ _ => True) s'.toVectors s'.m_roots [] (s'.nodes.erase r)
        rw [hl.nodes]
        exact h'
      · show (s'.nodes.erase r).length ≤ s'.m_size - 1
        rw [hl.nodes, hl.m_size, List.length_erase_of_mem (h.ranked.mem_of_entry hi)]
        exact Nat.sub_le_sub_right h.size 1
    | top =>
      obtain ⟨r, i, hr, -, hshape⟩ := shape_ensure_min m_compare h hv
      refine ⟨_, ?_, hshape⟩
      simp only [execAll, exec, Heap.top, hr, Option.bind_eq_bind, Option.bind_some,
        Option.map_some]
    | increase n d => exact shape_increase h hv
    | decrease n d => exact shape_decrease h hv
    | change n d => exact shape_change h hv
    | change_top d =>
      obtain ⟨r, i, hr, hi, hshape⟩ := shape_ensure_min m_compare h hv
      obtain ⟨s', hs', h'⟩ : ∃ s', Heap.change m_compare { s with m_min := some r } r d = some s' ∧
          Shape s' := shape_change hshape (h.ranked.mem_of_entry hi)
      refine ⟨s', ?_, h'⟩
      simp only [execAll, exec, Heap.change_top, hr, Option.bind_eq_bind, Option.bind_some, hs']

omit [DecidableEq α] in
theorem shape_initial (h : s.nodes = [] ∧ s.m_roots = [] ∧ s.m_size = 0) : Shape s := by
  obtain ⟨hnodes, hroots, hsize⟩ := h
  refine ⟨⟨⟨⟨?_, ?_, fun _ => 0, ?_⟩, ?_, ?_, ?_⟩, ?_, ?_⟩, ?_, ?_⟩
  all_goals simp [hnodes, hroots, hsize]

/-- After every run the trees hold the nodes. -/
theorem shape_run {s₀ : Heap α T} {tr : List (Label α T)} (h₀ : (systemAll α m_compare).init s₀)
    (h : Run (systemAll α m_compare) s₀ tr s) : Shape s := by
  refine h.invariant_state (I := Shape) (shape_initial h₀) fun s l s' hshape hs => ?_
  obtain ⟨hv, hs⟩ := Option.ite_none_right_eq_some.mp hs
  obtain ⟨s'', hs'', h'⟩ := shape_exec m_compare hshape hv
  exact Option.some.inj (hs.symm.trans hs'') ▸ h'

end

end Kuhllib.FibonacciHeap
