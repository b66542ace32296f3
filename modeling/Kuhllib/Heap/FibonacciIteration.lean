import Kuhllib.Heap.FibonacciRemoval
import Kuhllib.Lib.Iteration

/-!
# `boost::fibonacci_heap`: iteration

An iterator is the pointer to its node, which is null at the end. The order is that of `Post`:
an iterator goes to the first leaf of the next tree, and from the last child to the parent.

Results:
1. `walk_children`, `walk_roots`: a walk over the children of a node, and over the table.
2. `iterates`: after every run the iteration ends and visits each node once.
-/

namespace Kuhllib.FibonacciHeap

open HeapForest Iteration RankForest Transition

variable {α T : Type}

/-- `find_root(m_roots.begin() + i)`, where `m_roots.begin() + i` has to exist. -/
def Heap.find_root (s : Heap α T) (i : Nat) : Option (Option α) :=
  if i ≤ s.m_roots.length then some ((s.m_roots.drop i).findSome? id) else none

/-- The loop of `find_leaf`. -/
def Heap.find_leaf_rec (s : Heap α T) : Nat → α → Option α
  | 0, _ => none
  | fuel + 1, n =>
    match s.children n with
    | [] => some n
    | c :: _ => find_leaf_rec s fuel c

/-- A node has fewer nodes below it than there are. -/
def Heap.find_leaf (s : Heap α T) : Option α → Option (Option α)
  | none => some none
  | some n => (s.find_leaf_rec s.nodes.length n).map some

def Heap.begin (s : Heap α T) : Option (Option α) := do
  if s.m_size = 0 then some none
  else s.find_leaf (← s.find_root 0)

def Heap.end (_ : Heap α T) : Option α := none

/-- `operator++` for an iterator at `n`. -/
def Heap.increment (s : Heap α T) (n : α) : Option (Option α) :=
  match s.parent n with
  | none => do s.find_leaf (← s.find_root (s.rank n + 1))
  | some p =>
    if s.rank p = s.index n + 1 then some (some p)
    else do s.find_leaf (some (← (s.children p)[s.index n + 1]?))

/-- `*it`, and `++it`. -/
def Heap.visit (s : Heap α T) (it : Option α) : Option (α × Option α) := do
  let n ← it
  some (n, ← s.increment n)

/-- From `begin()` some steps lead to `end()`, and every node is visited once. -/
def Iterates (s : Heap α T) : Prop :=
  ∃ it ns, s.begin = some it ∧ walk s.visit ns.length it = some (ns, s.end) ∧ ns.Perm s.nodes

/-! ## 1. Walks -/

section

variable {above : α → α → Prop} {s : Heap α T} {n c : α} {cs l : List α} {i fuel : Nat}

/-- The way down to a leaf is no longer than what is below. -/
theorem find_leaf_spec (h : Post s.children (s.children n) l) (hfuel : l.length < fuel) :
    ∃ m, s.find_leaf_rec fuel n = some m := by
  induction fuel generalizing n l with
  | zero => exact absurd hfuel (Nat.not_lt_zero _)
  | succ fuel ih =>
    unfold Heap.find_leaf_rec
    split
    · exact ⟨n, rfl⟩
    · next c cs hchildren =>
      rw [hchildren] at h
      cases h with
      | @cons _ _ l₁ l₂ hc hcs =>
        rw [List.length_append, List.length_cons] at hfuel
        exact ih hc (by omega)

/-- With enough fuel, more does not matter. -/
theorem find_leaf_mono {m : α} {fuel' : Nat} (h : s.find_leaf_rec fuel n = some m)
    (hle : fuel ≤ fuel') : s.find_leaf_rec fuel' n = some m := by
  induction fuel generalizing n fuel' with
  | zero => cases h
  | succ fuel ih =>
    obtain ⟨fuel', rfl⟩ := Nat.exists_eq_succ_of_ne_zero
      (Nat.ne_of_gt (Nat.lt_of_lt_of_le (Nat.succ_pos fuel) hle))
    unfold Heap.find_leaf_rec at h ⊢
    split at h
    · exact h
    · exact ih h (Nat.le_of_succ_le_succ hle)

/-- The first leaf below a node is the one below its first child. -/
theorem find_leaf_cons (h : Post s.children (s.children n) l) (hl : l.length < s.nodes.length)
    (hchildren : s.children n = c :: cs) :
    s.find_leaf (some n) = s.find_leaf (some c) := by
  rw [hchildren] at h
  cases h with
  | @cons _ _ l₁ l₂ hc hcs =>
    obtain ⟨fuel, hfuel⟩ := Nat.exists_eq_succ_of_ne_zero (Nat.ne_of_gt (Nat.zero_lt_of_lt hl))
    rw [List.length_append, List.length_cons] at hl
    obtain ⟨m, hm⟩ : ∃ m, s.find_leaf_rec fuel c = some m := find_leaf_spec hc (by omega)
    have hn : s.find_leaf_rec s.nodes.length n = some m := by
      rw [hfuel, Heap.find_leaf_rec, hchildren]
      exact hm
    simp only [Heap.find_leaf, hn, find_leaf_mono hm (hfuel ▸ Nat.le_succ fuel)]

/-- From the first leaf below a node to the node. -/
theorem walk_tree (hpost : Post s.children (s.children n) l) (hl : l.length < s.nodes.length)
    (hchildren : ∀ c cs, s.children n = c :: cs → ∃ it, s.find_leaf (some c) = some it ∧
      walk s.visit l.length it = some (l, some n)) :
    ∃ it, s.find_leaf (some n) = some it ∧ walk s.visit l.length it = some (l, some n) := by
  rcases hcs : s.children n with _ | ⟨c, cs⟩
  · obtain ⟨fuel, hfuel⟩ := Nat.exists_eq_succ_of_ne_zero (Nat.ne_of_gt (Nat.zero_lt_of_lt hl))
    have hn : s.find_leaf_rec s.nodes.length n = some n := by
      rw [hfuel, Heap.find_leaf_rec, hcs]
    rw [hcs] at hpost
    obtain rfl := hpost.eq_nil
    exact ⟨some n, by simp only [Heap.find_leaf, hn, Option.map_some], rfl⟩
  · obtain ⟨it, hit, hwalk⟩ := hchildren c cs hcs
    exact ⟨it, (find_leaf_cons hpost hl hcs).trans hit, hwalk⟩

/-- From the first leaf below some last children of a node to the node. -/
theorem walk_children (h : Ranked above s.toVectors s.m_roots [] s.nodes)
    (hpost : Post s.children cs l) (hl : l.length < s.nodes.length) :
    ∀ n ∈ s.nodes, ∀ pre c cs', s.children n = pre ++ cs → cs = c :: cs' →
      ∃ it, s.find_leaf (some c) = some it ∧ walk s.visit l.length it = some (l, some n) := by
  induction hpost with
  | nil => exact fun n _ pre c cs' _ he => by cases he
  | @cons p tops l₁ l₂ hp htops ihp ihtops =>
    intro n hn pre c cs' hchildren he
    cases he
    rw [List.length_append, List.length_cons] at hl
    have hmem : p ∈ s.children n := hchildren ▸ List.mem_append_right pre List.mem_cons_self
    have hpn := h.wired.forest.mem_of_child hn hmem
    obtain ⟨it, hit, hwalk⟩ := walk_tree hp (by omega) fun c cs hcs =>
      ihp (by omega) p hpn [] c cs rfl hcs
    -- the iterator goes on to the next child, or to the parent
    have hparent : s.parent p = some n := h.wired.parent n hn p hmem
    have hindex : s.index p = pre.length :=
      (hchildren ▸ h.wired.index n hn : Indexed s.index (pre ++ p :: tops)).place
    have hrank : s.rank n = pre.length + (tops.length + 1) := by
      rw [Heap.rank, hchildren, List.length_append, List.length_cons]
    refine ⟨it, hit, ?_⟩
    rw [List.length_append, List.length_cons]
    refine walk_add hwalk ?_
    cases tops with
    | nil =>
      obtain rfl := htops.eq_nil
      have hvisit : s.visit (some p) = some (p, some n) := by
        simp only [Heap.visit, Heap.increment, hparent, hindex, hrank, List.length_nil,
          Nat.zero_add, if_true, Option.bind_eq_bind, Option.bind_some]
      exact walk_cons hvisit rfl
    | cons c cs =>
      have hnext : s.children n = (pre ++ [p]) ++ c :: cs := by
        rw [hchildren, List.append_assoc]
        rfl
      obtain ⟨it', hit', hwalk'⟩ := ihtops (by omega) n hn (pre ++ [p]) c cs hnext rfl
      have hlast : ¬ s.rank n = s.index p + 1 := by
        rw [hrank, hindex, List.length_cons]
        omega
      have hget : (s.children n)[s.index p + 1]? = some c := by
        have hlength : s.index p + 1 = (pre ++ [p]).length := by
          rw [hindex, List.length_append, List.length_singleton]
        rw [hnext, hlength, List.getElem?_append_right (Nat.le_refl _), Nat.sub_self]
        rfl
      have hvisit : s.visit (some p) = some (p, it') := by
        simp only [Heap.visit, Heap.increment, hparent, if_neg hlast, hget, hit',
          Option.bind_eq_bind, Option.bind_some]
      exact walk_cons hvisit hwalk'

/-- The first entry that is not null, and those behind it. -/
theorem entries_cons {roots : List (Option α)} {r : α} {rs : List α}
    (h : roots.reduceOption = r :: rs) :
    ∃ j : Nat, roots[j]? = some (some r) ∧ roots.findSome? id = some r ∧
      (roots.drop (j + 1)).reduceOption = rs := by
  induction roots with
  | nil => cases h
  | cons o roots ih =>
    cases o with
    | none =>
      obtain ⟨j, hj, hfirst, hrest⟩ := ih h
      exact ⟨j + 1, hj, hfirst, hrest⟩
    | some q =>
      rw [List.reduceOption_cons_of_some] at h
      cases h
      exact ⟨0, rfl, rfl, rfl⟩

theorem entries_nil {roots : List (Option α)} (h : roots.reduceOption = []) :
    roots.findSome? id = none := by
  induction roots with
  | nil => rfl
  | cons o roots ih =>
    cases o with
    | none => exact ih h
    | some q => cases h

/-- From the first leaf below some last entries of the table to the end. -/
theorem walk_roots (h : Ranked above s.toVectors s.m_roots [] s.nodes)
    (hpost : Post s.children cs l) (hl : l.length ≤ s.nodes.length) :
    ∀ i, i ≤ s.m_roots.length → (s.m_roots.drop i).reduceOption = cs →
      ∃ it, (s.find_root i).bind s.find_leaf = some it ∧
        walk s.visit l.length it = some (l, s.end) := by
  induction hpost with
  | nil =>
    intro i hi hcs
    refine ⟨none, ?_, rfl⟩
    rw [Heap.find_root, if_pos hi, entries_nil hcs]
    rfl
  | @cons r tops l₁ l₂ hr htops _ ihtops =>
    intro i hi hcs
    rw [List.length_append, List.length_cons] at hl ⊢
    obtain ⟨j, hj, hfirst, hrest⟩ := entries_cons hcs
    rw [List.getElem?_drop] at hj
    rw [List.drop_drop] at hrest
    have hlt := (List.getElem?_eq_some_iff.mp hj).1
    have hrank : s.rank r = i + j := h.rank _ r hj
    obtain ⟨it, hit, hwalk⟩ := walk_tree hr (show l₁.length < s.nodes.length by omega)
      fun c cs hcs => walk_children h hr (by omega) r (h.mem_of_entry hj) [] c cs rfl hcs
    obtain ⟨it', hit', hwalk'⟩ := ihtops (by omega) (i + (j + 1)) hlt hrest
    refine ⟨it, ?_, walk_add hwalk (walk_cons ?_ hwalk')⟩
    · rw [Heap.find_root, if_pos hi, hfirst]
      exact hit
    · rw [← Nat.add_assoc, ← hrank] at hit'
      simp only [Heap.visit, Heap.increment, h.root _ r hj, hit', Option.bind_eq_bind,
        Option.bind_some]

/-! ## 2. All elements -/

variable [DecidableEq α]

theorem iterates_of_shape (h : Shape s) : Iterates s := by
  obtain ⟨l, hpost, hperm⟩ := h.ranked.wired.forest.exists_post
  rw [List.nil_append] at hpost
  by_cases hsize : s.m_size = 0
  · have hnil : s.nodes = [] := List.eq_nil_of_length_eq_zero (Nat.le_zero.mp (hsize ▸ h.size))
    refine ⟨none, [], if_pos hsize, rfl, ?_⟩
    rw [hnil]
  · obtain ⟨it, hit, hwalk⟩ := walk_roots h.ranked hpost (Nat.le_of_eq hperm.length_eq) 0
      (Nat.zero_le _) rfl
    exact ⟨it, l, (if_neg hsize).trans hit, hwalk, hperm⟩

/-- After every run the iteration from `begin()` comes to `end()`, and has visited every node
once. -/
theorem iterates {m_compare : T → T → Bool} {s₀ : Heap α T} {tr : List (Label α T)}
    (h₀ : (systemAll α m_compare).init s₀) (h : Run (systemAll α m_compare) s₀ tr s) :
    Iterates s :=
  iterates_of_shape (shape_run h₀ h)

end

/-- The order of the forest is lost, an inner node is removed, and an element is decreased. -/
def exMixed : List (Label Nat Nat) :=
  [.op (.push 0 10), .op (.push 1 9), .op (.push 2 8), .op (.push 3 7), .op (.push 4 6),
    .op (.push 5 5), .op (.increase 0 1), .remove 2, .op (.decrease 4 20), .op .top]

theorem iterates_example : ∃ s, Run (systemAll Nat fun x y => decide (x < y)) exHeap exMixed s ∧
    s.nodes = [0, 1, 3, 4, 5] ∧ s.m_size = 6 ∧ Iterates s := by
  have hrun := run_replay (S := systemAll Nat fun x y => decide (x < y)) (fun _ _ _ => id)
    (show (replay (nextAll fun x y => decide (x < y)) exHeap exMixed).isSome by decide)
  exact ⟨_, hrun, by decide, by decide, iterates ⟨rfl, rfl, rfl⟩ hrun⟩

end Kuhllib.FibonacciHeap
