import Kuhllib.Heap.FibonacciRemoval
import Kuhllib.Heap.LazyFibonacciHeap
import Kuhllib.Heap.SplayChangeTop

/-!
# `remove()` of the heaps with nodes

`remove` takes the node out of its tree and deletes it. None of the three heaps counts it in
`m_size`, which the operations they use for this do not write either.

Results:
1. `remove_size`, in each heap: the size stays.
2. `never_removes`: so `remove` does not do what it is for, in no heap.
-/

namespace Kuhllib.LazyFibonacciHeap

variable {α T : Type} [DecidableEq α]

/-- `*it = m_cut_nodes[m_cut_nodes.size() - 1]; m_cut_nodes.pop_back();` for the first entry that
is `n`. -/
def Heap.drop_cut (s : Heap α T) (n : α) : Heap α T :=
  match s.m_cut_nodes.idxOf? n, s.m_cut_nodes.getLast? with
  | some it, some last => { s with m_cut_nodes := (s.m_cut_nodes.set it last).dropLast }
  | _, _ => s

/-- `switch (n->state())`. -/
def Heap.take_out (s : Heap α T) (n : α) : Option (Heap α T) :=
  if s.m_state n = cut_self then some (s.drop_cut n)
  else if s.m_state n = clean then s.clear_entry (s.rank n)
  else s.cut n

def Heap.remove (s : Heap α T) (n : α) : Option (Heap α T) := do
  let s ← s.take_out n
  let s ← s.cut_children (s.rank n) n 0
  let s := { s with m_min := none }
  s.delete n

end Kuhllib.LazyFibonacciHeap

/-! ## 1. The size -/

namespace Kuhllib.FibonacciHeap

variable {α T : Type} {s s' : Heap α T} {n p : α} {m_compare : T → T → Bool} {fuel k i rank : Nat}

namespace SizeLemmas

theorem clear_entry_size (h : s.clear_entry rank = some s') : s'.m_size = s.m_size := by
  simp only [Heap.clear_entry, Option.bind_eq_bind, Option.bind_eq_some_iff] at h
  obtain ⟨roots, -, h⟩ := h
  cases h
  rfl

variable [DecidableEq α]

theorem node_cut_size (h : s.node_cut p n = some s') : s'.m_size = s.m_size := by
  simp only [Heap.node_cut, Option.bind_eq_bind, Option.bind_eq_some_iff] at h
  obtain ⟨v, -, h⟩ := h
  cases h
  rfl

theorem add_root_rec_size (h : s.add_root_rec m_compare fuel n = some s') :
    s'.m_size = s.m_size := by
  induction fuel generalizing s n with
  | zero => cases h
  | succ fuel ih =>
    unfold Heap.add_root_rec at h
    dsimp only at h
    split at h
    · cases h
      rfl
    · cases h
      rfl
    · split at h
      · exact (ih h).trans rfl
      · exact (ih h).trans rfl

theorem add_roots_size (h : s.add_roots m_compare k n i = some s') : s'.m_size = s.m_size := by
  induction k generalizing s i with
  | zero =>
    cases h
    rfl
  | succ k ih =>
    simp only [Heap.add_roots, Option.bind_eq_bind, Option.bind_eq_some_iff] at h
    obtain ⟨c, -, s₁, hs₁, h⟩ := h
    exact (ih h).trans (add_root_rec_size hs₁)

theorem cut_rec_size (h : s.cut_rec m_compare fuel n = some s') : s'.m_size = s.m_size := by
  induction fuel generalizing s n s' with
  | zero => cases h
  | succ fuel ih =>
    simp only [Heap.cut_rec, Option.bind_eq_bind, Option.bind_eq_some_iff] at h
    obtain ⟨p, -, s₁, hs₁, h⟩ := h
    refine Eq.trans ?_ (node_cut_size hs₁)
    split at h
    · obtain ⟨s₂, hs₂, h⟩ := Option.bind_eq_some_iff.mp h
      exact (add_root_rec_size h).trans (clear_entry_size hs₂)
    · split at h
      · obtain ⟨s₂, hs₂, h⟩ := Option.bind_eq_some_iff.mp h
        exact (add_root_rec_size h).trans (ih hs₂)
      · cases h
        rfl

end SizeLemmas

open SizeLemmas

theorem remove_size [DecidableEq α] (h : s.remove m_compare n = some s') :
    s'.m_size = s.m_size := by
  simp only [Heap.remove, Option.bind_eq_bind, Option.bind_eq_some_iff] at h
  obtain ⟨s₁, hs₁, s₂, hs₂, h⟩ := h
  obtain ⟨-, h⟩ := Option.ite_none_right_eq_some.mp h
  cases h
  refine (add_roots_size hs₂).trans ?_
  unfold Heap.take_out at hs₁
  split at hs₁
  · exact clear_entry_size hs₁
  · exact cut_rec_size hs₁

end Kuhllib.FibonacciHeap

namespace Kuhllib.LazyFibonacciHeap

variable {α T : Type} {s s' : Heap α T} {n p : α} {fuel k i rank : Nat}

namespace SizeLemmas

theorem clear_entry_size (h : s.clear_entry rank = some s') : s'.m_size = s.m_size := by
  simp only [Heap.clear_entry, Option.bind_eq_bind, Option.bind_eq_some_iff] at h
  obtain ⟨roots, -, h⟩ := h
  cases h
  rfl

variable [DecidableEq α]

theorem node_cut_size (h : s.node_cut p n = some s') : s'.m_size = s.m_size := by
  simp only [Heap.node_cut, Option.bind_eq_bind, Option.bind_eq_some_iff] at h
  obtain ⟨v, -, h⟩ := h
  cases h
  rfl

theorem cut_children_size (h : s.cut_children k n i = some s') : s'.m_size = s.m_size := by
  induction k generalizing s i with
  | zero =>
    cases h
    rfl
  | succ k ih =>
    simp only [Heap.cut_children, Option.bind_eq_bind, Option.bind_eq_some_iff] at h
    obtain ⟨c, -, h⟩ := h
    exact (ih h).trans rfl

theorem cut_rec_size (h : s.cut_rec fuel n = some s') : s'.m_size = s.m_size := by
  induction fuel generalizing s n s' with
  | zero => cases h
  | succ fuel ih =>
    simp only [Heap.cut_rec, Option.bind_eq_bind, Option.bind_eq_some_iff] at h
    obtain ⟨p, -, s₁, hs₁, h⟩ := h
    refine Eq.trans ?_ (node_cut_size hs₁)
    split at h
    · cases h
    · split at h
      · obtain ⟨s₂, hs₂, h⟩ := Option.bind_eq_some_iff.mp h
        cases h
        show s₂.m_size = s₁.m_size
        exact clear_entry_size hs₂
      · split at h
        · cases h
          rfl
        · split at h
          · obtain ⟨s₂, hs₂, h⟩ := Option.bind_eq_some_iff.mp h
            cases h
            show s₂.m_size = s₁.m_size
            exact ih hs₂
          · cases h
            rfl

theorem drop_cut_size : (s.drop_cut n).m_size = s.m_size := by
  unfold Heap.drop_cut
  split <;> rfl

end SizeLemmas

open SizeLemmas

theorem remove_size [DecidableEq α] (h : s.remove n = some s') : s'.m_size = s.m_size := by
  simp only [Heap.remove, Option.bind_eq_bind, Option.bind_eq_some_iff] at h
  obtain ⟨s₁, hs₁, s₂, hs₂, h⟩ := h
  obtain ⟨-, h⟩ := Option.ite_none_right_eq_some.mp h
  cases h
  refine (cut_children_size hs₂).trans ?_
  unfold Heap.take_out at hs₁
  split at hs₁
  · cases hs₁
    exact drop_cut_size
  · split at hs₁
    · exact clear_entry_size hs₁
    · exact cut_rec_size hs₁

end Kuhllib.LazyFibonacciHeap

namespace Kuhllib.SplayHeap

variable {α T : Type} [DecidableEq α] {s s' : Heap α T} {n : α} {m_compare : T → T → Bool}
  {fuel : Nat} {l insert_point insert_point' : LinkedTree.Loc Variable α}

namespace SizeLemmas

theorem splay_loop_size
    (h : s.splay_loop l fuel insert_point = some (s', insert_point')) :
    s'.m_size = s.m_size := by
  induction fuel generalizing s insert_point with
  | zero => cases h
  | succ fuel ih =>
    unfold Heap.splay_loop at h
    obtain ⟨c, -, h⟩ := Option.bind_eq_some_iff.mp h
    split at h
    · cases h
      rfl
    · split at h
      · exact (ih h).trans rfl
      · exact (ih h).trans rfl

theorem splay_max_size (h : s.splay_max l = some s') : s'.m_size = s.m_size := by
  unfold Heap.splay_max at h
  obtain ⟨⟨s₁, insert_point⟩, hs₁, h⟩ := Option.bind_eq_some_iff.mp h
  refine Eq.trans ?_ ((splay_loop_size hs₁).trans rfl)
  dsimp only at h
  split at h
  · cases h
    rfl
  · obtain ⟨c, -, h⟩ := Option.bind_eq_some_iff.mp h
    cases h
    rfl

theorem detach_size (h : s.detach m_compare n = some s') : s'.m_size = s.m_size := by
  simp only [Heap.detach, Option.bind_eq_bind, Option.bind_eq_some_iff] at h
  obtain ⟨child_pointer, -, tmp, -, h⟩ := h
  split at h
  · split at h
    · simp only [Option.bind_eq_some_iff] at h
      obtain ⟨s₁, hs₁, c, -, h⟩ := h
      cases h
      show s₁.m_size = s.m_size
      exact splay_max_size hs₁
    · cases h
      rfl
  · split at h
    · cases h
      rfl
    · simp only [Option.bind_eq_some_iff] at h
      obtain ⟨child_pointer', -, tmp', -, h⟩ := h
      cases h
      rfl

end SizeLemmas

open SizeLemmas

theorem remove_size (h : s.remove m_compare n = some s') : s'.m_size = s.m_size := by
  simp only [Heap.remove, Option.bind_eq_bind, Option.bind_eq_some_iff] at h
  obtain ⟨s₁, hs₁, h⟩ := h
  obtain ⟨-, h⟩ := Option.ite_none_right_eq_some.mp h
  cases h
  show s₁.m_size = s.m_size
  exact detach_size hs₁

end Kuhllib.SplayHeap

/-! ## 2. The property -/

namespace Kuhllib.HeapRemoval

open HandleQueue Transition

variable {α T H : Type} [DecidableEq α]

/-- `remove(n)` takes this element out and no other, and the size is one less. -/
def Removes (entries : H → Queue α T) (m_size : H → Nat) (remove : H → α → Option H) (s : H)
    (n : α) : Prop :=
  ∃ s', remove s n = some s' ∧ entries s' = (entries s).remove n ∧ m_size s' + 1 = m_size s

theorem not_removes_of_size {entries : H → Queue α T} {m_size : H → Nat}
    {remove : H → α → Option H} (hsize : ∀ s n s', remove s n = some s' → m_size s' = m_size s)
    (s : H) (n : α) : ¬ Removes entries m_size remove s n := by
  rintro ⟨s', hs', -, hcount⟩
  exact Nat.succ_ne_self _ (hcount.trans (hsize s n s' hs').symm)

/-- No heap loses an element and counts it, whatever its state and whichever the node. -/
theorem never_removes (m_compare : T → T → Bool) :
    (∀ (s : FibonacciHeap.Heap α T) n, ¬ Removes FibonacciHeap.Heap.entries
      FibonacciHeap.Heap.m_size (FibonacciHeap.Heap.remove m_compare) s n) ∧
    (∀ (s : LazyFibonacciHeap.Heap α T) n, ¬ Removes LazyFibonacciHeap.Heap.entries
      LazyFibonacciHeap.Heap.m_size LazyFibonacciHeap.Heap.remove s n) ∧
    ∀ (s : SplayHeap.Heap α T) n, ¬ Removes SplayHeap.Heap.entries
      SplayHeap.Heap.m_size (SplayHeap.Heap.remove m_compare) s n :=
  ⟨not_removes_of_size fun _ _ _ => FibonacciHeap.remove_size,
    not_removes_of_size fun _ _ _ => LazyFibonacciHeap.remove_size,
    not_removes_of_size fun _ _ _ => SplayHeap.remove_size⟩

/-- The only element is removed, and `size()` is still one. A node that `increase()` has cut is
cut again: its old parent loses the other child, and the deleted node still waits. -/
theorem not_always_removes :
    (∃ s s', Run (FibonacciHeap.system Nat fun x y => decide (x < y)) FibonacciHeap.exHeap
        [.push 0 5] s ∧ s.m_size = 1 ∧ s.remove (fun x y => decide (x < y)) 0 = some s' ∧
        s'.nodes = [] ∧ s'.m_size = 1) ∧
    (∃ s s', Run (SplayHeap.system Nat fun x y => decide (x < y)) SplayHeap.exEmpty
        [.push 0 5] s ∧ s.m_size = 1 ∧ s.remove (fun x y => decide (x < y)) 0 = some s' ∧
        s'.nodes = [] ∧ s'.m_size = 1) ∧
    (∃ s s', Run (LazyFibonacciHeap.system Nat fun x y => decide (x < y))
        LazyFibonacciHeap.exHeap [.push 0 5] s ∧ s.m_size = 1 ∧ s.remove 0 = some s' ∧
        s'.nodes = [] ∧ s'.m_size = 1) ∧
    ∃ s s', Run (LazyFibonacciHeap.system Nat fun x y => decide (x < y))
        LazyFibonacciHeap.exHeap [.push 0 10, .push 1 9, .push 2 8, .push 3 7, .push 4 1, .top,
          .increase 2 20] s ∧ s.remove 2 = some s' ∧ 1 ∈ s.children 0 ∧
        s'.nodes = [0, 1, 3, 4] ∧ (∀ p ∈ s'.nodes, 1 ∉ s'.children p) ∧
        some 1 ∉ s'.m_roots ∧ s'.m_cut_nodes = [0, 2, 3] := by
  have hfibonacci := run_replay (S := FibonacciHeap.system Nat fun x y => decide (x < y))
    (fun _ _ _ => id) (show (replay (FibonacciHeap.next fun x y => decide (x < y))
      FibonacciHeap.exHeap [.push 0 5]).isSome by decide)
  have hsplay := run_replay (S := SplayHeap.system Nat fun x y => decide (x < y))
    (fun _ _ _ => id) (show (replay (SplayHeap.next fun x y => decide (x < y))
      SplayHeap.exEmpty [.push 0 5]).isSome by decide)
  have hlazy := run_replay (S := LazyFibonacciHeap.system Nat fun x y => decide (x < y))
    (fun _ _ _ => id) (show (replay (LazyFibonacciHeap.next fun x y => decide (x < y))
      LazyFibonacciHeap.exHeap [.push 0 5]).isSome by decide)
  have hcut := run_replay (S := LazyFibonacciHeap.system Nat fun x y => decide (x < y))
    (fun _ _ _ => id) (show (replay (LazyFibonacciHeap.next fun x y => decide (x < y))
      LazyFibonacciHeap.exHeap [.push 0 10, .push 1 9, .push 2 8, .push 3 7, .push 4 1, .top,
        .increase 2 20]).isSome by decide)
  exact ⟨⟨_, _, hfibonacci, rfl, rfl, rfl, rfl⟩, ⟨_, _, hsplay, rfl, rfl, rfl, rfl⟩,
    ⟨_, _, hlazy, rfl, rfl, rfl, rfl⟩, _, _, hcut, rfl, by decide, rfl, by decide, by decide, rfl⟩

end Kuhllib.HeapRemoval
