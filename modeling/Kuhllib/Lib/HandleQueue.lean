import Kuhllib.Lib.Transition
import Mathlib.Data.List.Nodup
import Mathlib.Logic.Function.Basic

/-!
# Priority queues with handles

A queue is the list of its elements with their handles, oldest first. A maximum is
popped, the value of a handle can be set. `entries nodes value` is the queue of a list
of nodes, where a node is the handle of the value it stores. `queue` are the runs of the
operations `Op`.
-/

namespace HandleQueue

variable {α T : Type*} {lt : T → T → Bool}

abbrev Queue (α T : Type*) := List (α × T)

def Queue.push (q : Queue α T) (p : α) (x : T) : Queue α T := q ++ [(p, x)]

def Queue.set [DecidableEq α] (q : Queue α T) (p : α) (x : T) : Queue α T :=
  q.map fun e => if e.1 = p then (p, x) else e

def Queue.remove [DecidableEq α] (q : Queue α T) (p : α) : Queue α T :=
  q.eraseP fun e => e.1 = p

def Queue.IsMax (lt : T → T → Bool) (q : Queue α T) (e : α × T) : Prop :=
  e ∈ q ∧ ∀ e' ∈ q, lt e.2 e'.2 = false

/-- A maximum is removed. -/
def Queue.Pops [DecidableEq α] (lt : T → T → Bool) (q q' : Queue α T) : Prop :=
  ∃ e, q.IsMax lt e ∧ q' = q.remove e.1

inductive Op (α T : Type*)
  | push (p : α) (x : T)
  | pop
  | top
  | increase (p : α) (x : T)
  | decrease (p : α) (x : T)
  | change (p : α) (x : T)
  | change_top (x : T)

/-- `pop` removes a maximum, and a maximum is the top. -/
def queue (α : Type*) [DecidableEq α] (lt : T → T → Bool) :
    Transition.System (Queue α T) (Op α T) where
  init q := q = []
  step q l q' :=
    match l with
    | .push p x => (∀ e ∈ q, e.1 ≠ p) ∧ q' = q.push p x
    | .pop => q.Pops lt q'
    | .top => (∃ e, q.IsMax lt e) ∧ q' = q
    | .increase p x | .decrease p x | .change p x => (∃ e ∈ q, e.1 = p) ∧ q' = q.set p x
    | .change_top x => ∃ e, q.IsMax lt e ∧ q' = q.set e.1 x

def entries (nodes : List α) (value : α → T) : Queue α T := nodes.map fun p => (p, value p)

theorem mem_entries {nodes : List α} {value : α → T} {e : α × T} :
    e ∈ entries nodes value ↔ e.1 ∈ nodes ∧ value e.1 = e.2 := by
  rw [entries, List.mem_map]
  constructor
  · rintro ⟨p, hp, rfl⟩
    exact ⟨hp, rfl⟩
  · rintro ⟨hp, he⟩
    exact ⟨e.1, hp, Prod.ext rfl he⟩

theorem isMax_entries {nodes : List α} {value : α → T} {r : α} (hr : r ∈ nodes)
    (hmax : ∀ x ∈ nodes, lt (value r) (value x) = false) :
    (entries nodes value).IsMax lt (r, value r) := by
  refine ⟨mem_entries.mpr ⟨hr, rfl⟩, fun e he => ?_⟩
  obtain ⟨he, hvalue⟩ := mem_entries.mp he
  rw [← hvalue]
  exact hmax e.1 he

variable [DecidableEq α]

theorem entries_push {nodes : List α} {p : α} (hp : p ∉ nodes) (value : α → T) (x : T) :
    entries (nodes ++ [p]) (Function.update value p x) = (entries nodes value).push p x := by
  have hold : nodes.map (fun q => (q, Function.update value p x q)) =
      nodes.map fun q => (q, value q) :=
    List.map_congr_left fun q hq => by
      rw [Function.update_of_ne (fun he : q = p => hp (he ▸ hq))]
  rw [entries, entries, Queue.push, List.map_append, hold]
  simp

theorem entries_set (nodes : List α) (value : α → T) (p : α) (x : T) :
    entries nodes (Function.update value p x) = (entries nodes value).set p x := by
  rw [entries, entries, Queue.set, List.map_map]
  refine List.map_congr_left fun q _ => ?_
  by_cases h : q = p
  · simp [h]
  · simp [h]

theorem entries_remove (nodes : List α) (value : α → T) (p : α) :
    entries (nodes.erase p) value = (entries nodes value).remove p := by
  induction nodes with
  | nil => rfl
  | cons q nodes ih =>
    by_cases h : q = p
    · subst h
      simp [entries, Queue.remove]
    · rw [List.erase_cons_tail (by simpa using h)]
      show (q, value q) :: entries (nodes.erase p) value = _
      rw [ih]
      simp [entries, Queue.remove, h]

end HandleQueue
