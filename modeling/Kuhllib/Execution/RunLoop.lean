import Kuhllib.Container.IntrusiveList
import Kuhllib.Lib.Transition

/-!
# `nstd::execution::run_loop`

`push_back`, `pop_front` and `finish` are sections of `d_guard`: one step each.
A call of `run()` alternates between `pop_front` and `execute()`; it blocks in
`d_cond.wait` when `pop_front` finds nothing, and tests the predicate again when
it is notified or wakes up spuriously. `finish()` notifies after it has left its
section. The operation states are started by anyone, also by what the loop
executes, and each one once.

Results, for every interleaving of any number of calls:
1. `inv_step`: what was pushed, popped and executed.
2. `executes_in_order`: every state is executed at most once, in order, and
   `run()` returns when the loop is finished and empty.
3. `refines_list`: `d_list` is used as an intrusive list may be used.
-/

namespace Kuhllib.RunLoop

open Transition

inductive Phase
  | starting
  | running
  | finishing
  deriving DecidableEq, Repr

/-- What `pop_front()` does: it waits, or it returns null or a state. -/
inductive Popped (κ : Type)
  | wait
  | null
  | state (c : κ)
  deriving DecidableEq, Repr

/-- A call of `run()`: `locking` is in front of the section of `pop_front()`. -/
inductive Runner (κ : Type)
  | outside
  | locking
  | waiting
  | executing (c : κ)
  | returned
  deriving DecidableEq, Repr

/-- `d_cond` are the threads that are blocked in it, `started` the operation states
that were started, `notifying` the calls of `finish()` in front of `notify_one()`. -/
structure State (ρ κ : Type) where
  d_phase : Phase
  d_cond : List ρ
  d_list : List κ
  runner : ρ → Runner κ
  started : List κ
  notifying : Nat

inductive Label (ρ κ : Type)
  | push_back (c : κ)
  | run (r : ρ)
  | pop_front (r : ρ) (p : Popped κ)
  | execute (r : ρ) (c : κ)
  | finish
  | notify_one (w : Option ρ)
  | spurious (r : ρ)
  deriving DecidableEq, Repr

variable {ρ κ : Type}

def State.initial : State ρ κ where
  d_phase := .starting
  d_cond := []
  d_list := []
  runner _ := .outside
  started := []
  notifying := 0

/-- The predicate that `d_cond.wait` tests. -/
def State.predicate (s : State ρ κ) : Prop := s.d_list ≠ [] ∨ s.d_phase = .finishing

instance [DecidableEq κ] (s : State ρ κ) : Decidable s.predicate :=
  inferInstanceAs (Decidable (_ ∨ _))

variable [DecidableEq ρ] [DecidableEq κ]

/-- `pop_front()`, what it does and the list that it leaves. -/
def State.pop_front (s : State ρ κ) : Popped κ × List κ :=
  if s.predicate then
    match s.d_list with
    | [] => (.null, [])
    | c :: cs => (.state c, cs)
  else (.wait, s.d_list)

/-- Where `run()` goes on. -/
def Popped.resume : Popped κ → Runner κ
  | .wait => .waiting
  | .null => .returned
  | .state c => .executing c

def State.setRunner (s : State ρ κ) (r : ρ) (x : Runner κ) : State ρ κ :=
  { s with runner := Function.update s.runner r x }

/-- A blocked thread is to lock `d_guard` and to test the predicate again. -/
def State.wake (s : State ρ κ) (r : ρ) : State ρ κ :=
  { s.setRunner r .locking with d_cond := s.d_cond.erase r }

def next (s : State ρ κ) : Label ρ κ → Option (State ρ κ)
  -- start() of an operation state
  | .push_back c =>
    if c ∉ s.started then
      some { s with d_list := s.d_list ++ [c], started := c :: s.started }
    else none
  | .run r => if s.runner r = .outside then some (s.setRunner r .locking) else none
  | .pop_front r p =>
    if s.runner r = .locking ∧ s.pop_front.1 = p then
      some { s.setRunner r p.resume with
        d_cond := if p = .wait then r :: s.d_cond else s.d_cond
        d_list := s.pop_front.2 }
    else none
  | .execute r c =>
    if s.runner r = .executing c then some (s.setRunner r .locking) else none
  | .finish => some { s with d_phase := .finishing, notifying := s.notifying + 1 }
  -- notify_one() selects a blocked thread, if there is one
  | .notify_one none =>
    if 0 < s.notifying ∧ s.d_cond = [] then some { s with notifying := s.notifying - 1 }
    else none
  | .notify_one (some r) =>
    if 0 < s.notifying ∧ r ∈ s.d_cond then
      some { s.wake r with notifying := s.notifying - 1 }
    else none
  | .spurious r => if r ∈ s.d_cond then some (s.wake r) else none

def system (ρ κ : Type) [DecidableEq ρ] [DecidableEq κ] : System (State ρ κ) (Label ρ κ) where
  init s := s = State.initial
  step s l s' := next s l = some s'

/-! ## 1. The states of a run -/

def pushed (tr : List (Label ρ κ)) : List κ :=
  tr.filterMap fun
    | .push_back c => some c
    | _ => none

def popped (tr : List (Label ρ κ)) : List κ :=
  tr.filterMap fun
    | .pop_front _ (.state c) => some c
    | _ => none

def executed (tr : List (Label ρ κ)) : List κ :=
  tr.filterMap fun
    | .execute _ c => some c
    | _ => none

/-- What a run has done so far. -/
structure Inv (tr : List (Label ρ κ)) (s : State ρ κ) : Prop where
  order : pushed tr = popped tr ++ s.d_list
  started : s.started = (pushed tr).reverse
  nodup : (pushed tr).Nodup
  executing : ∀ r c, s.runner r = .executing c → c ∈ popped tr ∧ c ∉ executed tr
  unique : ∀ r r' c, s.runner r = .executing c → s.runner r' = .executing c → r = r'
  executed_nodup : (executed tr).Nodup
  executed_sub : ∀ c ∈ executed tr, c ∈ popped tr
  complete : ∀ c ∈ popped tr, c ∈ executed tr ∨ ∃ r, s.runner r = .executing c
  finishing : s.d_phase = .finishing ↔ .finish ∈ tr
  blocked : ∀ r, r ∈ s.d_cond ↔ s.runner r = .waiting
  blocked_nodup : s.d_cond.Nodup

namespace RunLoopLemmas

omit [DecidableEq ρ] [DecidableEq κ]

variable (tr tr' : List (Label ρ κ))

@[simp]
theorem pushed_append : pushed (tr ++ tr') = pushed tr ++ pushed tr' := List.filterMap_append

@[simp]
theorem popped_append : popped (tr ++ tr') = popped tr ++ popped tr' := List.filterMap_append

@[simp]
theorem executed_append : executed (tr ++ tr') = executed tr ++ executed tr' :=
  List.filterMap_append

end RunLoopLemmas

open RunLoopLemmas

omit [DecidableEq ρ] in
/-- What `pop_front()` does in its section. -/
theorem pop_front_cases (s : State ρ κ) :
    (s.pop_front = (.wait, s.d_list) ∧ s.d_list = [] ∧ s.d_phase ≠ .finishing) ∨
    (s.pop_front = (.null, s.d_list) ∧ s.d_list = [] ∧ s.d_phase = .finishing) ∨
    ∃ c cs, s.pop_front = (.state c, cs) ∧ s.d_list = c :: cs := by
  cases hl : s.d_list with
  | nil =>
    by_cases hf : s.d_phase = .finishing
    · exact .inr (.inl (by simp [State.pop_front, State.predicate, hl, hf]))
    · exact .inl (by simp [State.pop_front, State.predicate, hl, hf])
  | cons c cs =>
    exact .inr (.inr ⟨c, cs, by simp [State.pop_front, State.predicate, hl]⟩)

omit [DecidableEq ρ] [DecidableEq κ] in
theorem inv_initial : Inv [] (State.initial : State ρ κ) where
  order := rfl
  started := rfl
  nodup := List.nodup_nil
  executing _ _ h := by cases h
  unique _ _ _ h := by cases h
  executed_nodup := List.nodup_nil
  executed_sub _ h := absurd h List.not_mem_nil
  complete _ h := absurd h List.not_mem_nil
  finishing := by simp [State.initial]
  blocked := by simp [State.initial]
  blocked_nodup := List.nodup_nil

omit [DecidableEq κ] in
/-- What the other calls execute. -/
theorem executing_update {f : ρ → Runner κ} {r r' : ρ} {x : Runner κ} {c : κ}
    (h : f r ≠ .executing c) (hr : f r' = .executing c) :
    ∃ r', Function.update f r x r' = .executing c := by
  refine ⟨r', ?_⟩
  have hne : r' ≠ r := fun he => h (he ▸ hr)
  simpa [hne] using hr

omit [DecidableEq κ] in
/-- A call that executes nothing goes on without executing anything. -/
theorem Inv.move {tr : List (Label ρ κ)} {s : State ρ κ} (h : Inv tr s) (r : ρ) (x : Runner κ)
    (rs : List ρ) (hr : ∀ c, s.runner r ≠ .executing c) (hx : ∀ c, x ≠ .executing c)
    (hblocked : ∀ r', r' ∈ rs ↔ Function.update s.runner r x r' = .waiting) (hnodup : rs.Nodup) :
    Inv tr { s.setRunner r x with d_cond := rs } := by
  have hsame : ∀ r' c, Function.update s.runner r x r' = .executing c ↔ s.runner r' = .executing c := by
    intro r' c
    rcases eq_or_ne r' r with rfl | hne
    · simp [hr c, hx c]
    · simp [hne]
  refine ⟨h.order, h.started, h.nodup, fun r' c he => ?_, fun r' r'' c he he' => ?_,
    h.executed_nodup, h.executed_sub, fun c hc => ?_, h.finishing, hblocked, hnodup⟩
  · exact h.executing r' c ((hsame r' c).mp he)
  · exact h.unique r' r'' c ((hsame r' c).mp he) ((hsame r'' c).mp he')
  · rcases h.complete c hc with he | ⟨r', he⟩
    · exact .inl he
    · exact .inr (executing_update (hr c) he)

omit [DecidableEq κ] in
/-- A blocked thread goes on. -/
theorem Inv.wake {tr : List (Label ρ κ)} {s : State ρ κ} {r : ρ} (h : Inv tr s)
    (hr : r ∈ s.d_cond) : Inv tr (s.wake r) := by
  have hwaiting := (h.blocked r).mp hr
  refine h.move r _ _ (by simp [hwaiting]) (by simp) (fun r' => ?_) (h.blocked_nodup.erase r)
  rw [h.blocked_nodup.mem_erase_iff, h.blocked r']
  rcases eq_or_ne r' r with rfl | hne
  · simp
  · simp [hne]

omit [DecidableEq ρ] [DecidableEq κ] in
/-- A step that neither pushes, pops, executes nor finishes. -/
theorem Inv.silent {tr : List (Label ρ κ)} {s : State ρ κ} {l : Label ρ κ} {n : Nat} (h : Inv tr s)
    (hpush : pushed [l] = []) (hpop : popped [l] = []) (hexec : executed [l] = [])
    (hfinish : l ≠ .finish) : Inv (tr ++ [l]) { s with notifying := n } := by
  have hpushed : pushed (tr ++ [l]) = pushed tr := by rw [pushed_append, hpush, List.append_nil]
  have hpopped : popped (tr ++ [l]) = popped tr := by rw [popped_append, hpop, List.append_nil]
  have hexecuted : executed (tr ++ [l]) = executed tr := by
    rw [executed_append, hexec, List.append_nil]
  have hfinish' : .finish ∈ tr ++ [l] ↔ .finish ∈ tr := by simp [hfinish.symm]
  constructor
  · simpa only [hpushed, hpopped] using h.order
  · simpa only [hpushed] using h.started
  · simpa only [hpushed] using h.nodup
  · simpa only [hpopped, hexecuted] using h.executing
  · exact h.unique
  · simpa only [hexecuted] using h.executed_nodup
  · simpa only [hpopped, hexecuted] using h.executed_sub
  · simpa only [hpopped, hexecuted] using h.complete
  · simpa only [hfinish'] using h.finishing
  · exact h.blocked
  · exact h.blocked_nodup

omit [DecidableEq ρ] [DecidableEq κ] in
/-- A new state is put behind the others. -/
theorem Inv.push_back {tr : List (Label ρ κ)} {s : State ρ κ} {c : κ} (h : Inv tr s)
    (hc : c ∉ s.started) :
    Inv (tr ++ [.push_back c])
      { s with d_list := s.d_list ++ [c], started := c :: s.started } := by
  have hpushed : pushed (tr ++ [.push_back c]) = pushed tr ++ [c] := pushed_append ..
  have hpopped : popped (tr ++ [.push_back c]) = popped tr := by simp [popped]
  have hexecuted : executed (tr ++ [.push_back c]) = executed tr := by simp [executed]
  have hnew : c ∉ pushed tr := fun hmem => hc (by rw [h.started]; exact List.mem_reverse.mpr hmem)
  constructor
  · rw [hpushed, hpopped, h.order, List.append_assoc]
  · rw [hpushed, List.reverse_append, ← h.started]
    rfl
  · rw [hpushed]
    exact h.nodup.append (List.nodup_singleton c) (List.disjoint_singleton.mpr hnew)
  · simpa only [hpopped, hexecuted] using h.executing
  · exact h.unique
  · simpa only [hexecuted] using h.executed_nodup
  · simpa only [hpopped, hexecuted] using h.executed_sub
  · simpa only [hpopped, hexecuted] using h.complete
  · simpa using h.finishing
  · exact h.blocked
  · exact h.blocked_nodup

omit [DecidableEq κ] in
/-- A call gets the state in front. -/
theorem Inv.pop_front {tr : List (Label ρ κ)} {s : State ρ κ} {r : ρ} {c : κ} {cs : List κ}
    (h : Inv tr s) (hlocking : s.runner r = .locking) (hl : s.d_list = c :: cs) :
    Inv (tr ++ [.pop_front r (.state c)]) { s.setRunner r (.executing c) with d_list := cs } := by
  have hpushed : pushed (tr ++ [.pop_front r (.state c)]) = pushed tr := by simp [pushed]
  have hpopped : popped (tr ++ [.pop_front r (.state c)]) = popped tr ++ [c] := popped_append ..
  have hexecuted : executed (tr ++ [.pop_front r (.state c)]) = executed tr := by simp [executed]
  have hnew : c ∉ popped tr := by
    have hnodup := h.nodup
    rw [h.order, hl] at hnodup
    exact fun hc => (List.nodup_append.mp hnodup).2.2 c hc c List.mem_cons_self rfl
  -- no other call executes `c`
  have hother : ∀ r' c', Function.update s.runner r (.executing c) r' = .executing c' →
      (r' = r ∧ c' = c) ∨ (r' ≠ r ∧ s.runner r' = .executing c') := by
    intro r' c' he
    rcases eq_or_ne r' r with rfl | hne
    · rw [Function.update_self] at he
      exact .inl ⟨rfl, (Runner.executing.inj he).symm⟩
    · rw [Function.update_of_ne hne] at he
      exact .inr ⟨hne, he⟩
  constructor
  · rw [hpushed, hpopped, h.order, hl, List.append_assoc]
    rfl
  · rw [hpushed]
    exact h.started
  · rw [hpushed]
    exact h.nodup
  · intro r' c' he
    rw [hpopped, hexecuted]
    rcases hother r' c' he with ⟨-, rfl⟩ | ⟨-, he'⟩
    · exact ⟨by simp, fun hmem => hnew (h.executed_sub c' hmem)⟩
    · obtain ⟨hmem, hnot⟩ := h.executing r' c' he'
      exact ⟨List.mem_append_left _ hmem, hnot⟩
  · intro r₁ r₂ c' h₁ h₂
    rcases hother r₁ c' h₁ with ⟨rfl, rfl⟩ | ⟨-, h₁'⟩
    · rcases hother r₂ c' h₂ with ⟨rfl, -⟩ | ⟨-, h₂'⟩
      · rfl
      · exact absurd (h.executing r₂ c' h₂').1 hnew
    · rcases hother r₂ c' h₂ with ⟨-, rfl⟩ | ⟨-, h₂'⟩
      · exact absurd (h.executing r₁ c' h₁').1 hnew
      · exact h.unique r₁ r₂ c' h₁' h₂'
  · rw [hexecuted]
    exact h.executed_nodup
  · intro c' hc'
    rw [hexecuted] at hc'
    rw [hpopped]
    exact List.mem_append_left _ (h.executed_sub c' hc')
  · intro c' hc'
    rw [hpopped] at hc'
    rw [hexecuted]
    rcases List.mem_append.mp hc' with hmem | hlast
    · rcases h.complete c' hmem with he | ⟨r', he⟩
      · exact .inl he
      · exact .inr (executing_update (by simp [hlocking]) he)
    · exact .inr ⟨r, by rw [List.mem_singleton.mp hlast]; exact Function.update_self ..⟩
  · simpa [State.setRunner] using h.finishing
  · intro r'
    show r' ∈ s.d_cond ↔ Function.update s.runner r (.executing c) r' = .waiting
    rw [h.blocked r']
    rcases eq_or_ne r' r with rfl | hne
    · simp [hlocking]
    · simp [hne]
  · exact h.blocked_nodup

omit [DecidableEq κ] in
/-- A call has executed its state. -/
theorem Inv.execute {tr : List (Label ρ κ)} {s : State ρ κ} {r : ρ} {c : κ} (h : Inv tr s)
    (hrunner : s.runner r = .executing c) :
    Inv (tr ++ [.execute r c]) (s.setRunner r .locking) := by
  have hpushed : pushed (tr ++ [.execute r c]) = pushed tr := by simp [pushed]
  have hpopped : popped (tr ++ [.execute r c]) = popped tr := by simp [popped]
  have hexecuted : executed (tr ++ [.execute r c]) = executed tr ++ [c] := executed_append ..
  obtain ⟨hmem, hnot⟩ := h.executing r c hrunner
  have hother : ∀ r' c', Function.update s.runner r .locking r' = .executing c' →
      r' ≠ r ∧ s.runner r' = .executing c' := by
    intro r' c' he
    rcases eq_or_ne r' r with rfl | hne
    · rw [Function.update_self] at he
      cases he
    · rw [Function.update_of_ne hne] at he
      exact ⟨hne, he⟩
  constructor
  · rw [hpushed, hpopped]
    exact h.order
  · rw [hpushed]
    exact h.started
  · rw [hpushed]
    exact h.nodup
  · intro r' c' he
    obtain ⟨hne, he'⟩ := hother r' c' he
    obtain ⟨hmem', hnot'⟩ := h.executing r' c' he'
    rw [hpopped, hexecuted]
    refine ⟨hmem', fun hc' => (List.mem_append.mp hc').elim hnot' fun hlast => hne ?_⟩
    rw [List.mem_singleton.mp hlast] at he'
    exact h.unique r' r c he' hrunner
  · exact fun r₁ r₂ c' h₁ h₂ => h.unique r₁ r₂ c' (hother r₁ c' h₁).2 (hother r₂ c' h₂).2
  · rw [hexecuted]
    exact h.executed_nodup.append (List.nodup_singleton c) (List.disjoint_singleton.mpr hnot)
  · intro c' hc'
    rw [hexecuted] at hc'
    rw [hpopped]
    rcases List.mem_append.mp hc' with hc' | hlast
    · exact h.executed_sub c' hc'
    · rw [List.mem_singleton.mp hlast]
      exact hmem
  · intro c' hc'
    rw [hpopped] at hc'
    rw [hexecuted]
    rcases eq_or_ne c' c with rfl | hne
    · exact .inl (by simp)
    · rcases h.complete c' hc' with he | ⟨r', he⟩
      · exact .inl (List.mem_append_left _ he)
      · exact .inr (executing_update (by simpa [hrunner] using hne.symm) he)
  · simpa [State.setRunner] using h.finishing
  · intro r'
    show r' ∈ s.d_cond ↔ Function.update s.runner r .locking r' = .waiting
    rw [h.blocked r']
    rcases eq_or_ne r' r with rfl | hne
    · simp [hrunner]
    · simp [hne]
  · exact h.blocked_nodup

omit [DecidableEq ρ] [DecidableEq κ] in
theorem Inv.finish {tr : List (Label ρ κ)} {s : State ρ κ} {n : Nat} (h : Inv tr s) :
    Inv (tr ++ [.finish]) { s with d_phase := .finishing, notifying := n } := by
  have hpushed : pushed (tr ++ [(.finish : Label ρ κ)]) = pushed tr := by simp [pushed]
  have hpopped : popped (tr ++ [(.finish : Label ρ κ)]) = popped tr := by simp [popped]
  have hexecuted : executed (tr ++ [(.finish : Label ρ κ)]) = executed tr := by simp [executed]
  constructor
  · simpa only [hpushed, hpopped] using h.order
  · simpa only [hpushed] using h.started
  · simpa only [hpushed] using h.nodup
  · simpa only [hpopped, hexecuted] using h.executing
  · exact h.unique
  · simpa only [hexecuted] using h.executed_nodup
  · simpa only [hpopped, hexecuted] using h.executed_sub
  · simpa only [hpopped, hexecuted] using h.complete
  · simp
  · exact h.blocked
  · exact h.blocked_nodup

/-- Every step of a call keeps the invariant. -/
theorem inv_step {tr : List (Label ρ κ)} {s s' : State ρ κ} {l : Label ρ κ} (h : Inv tr s)
    (hs : next s l = some s') : Inv (tr ++ [l]) s' := by
  cases l with
  | push_back c =>
    obtain ⟨hfresh, hs⟩ := Option.ite_none_right_eq_some.mp hs
    cases hs
    exact h.push_back hfresh
  | run r =>
    obtain ⟨houtside, hs⟩ := Option.ite_none_right_eq_some.mp hs
    cases hs
    have hmove := h.move r .locking s.d_cond (by simp [houtside]) (by simp)
      (fun r' => ?_) h.blocked_nodup
    · exact hmove.silent rfl rfl rfl (by simp)
    · rw [h.blocked r']
      rcases eq_or_ne r' r with rfl | hne
      · simp [houtside]
      · simp [hne]
  | pop_front r p =>
    obtain ⟨⟨hlocking, hp⟩, hs⟩ := Option.ite_none_right_eq_some.mp hs
    cases hs
    rcases pop_front_cases s with ⟨he, -, -⟩ | ⟨he, -, -⟩ | ⟨c, cs, he, hl⟩
    · rw [he] at hp ⊢
      subst hp
      have hnot : r ∉ s.d_cond := fun hr => by simpa [hlocking] using (h.blocked r).mp hr
      have hmove := h.move r .waiting (r :: s.d_cond) (by simp [hlocking])
        (by simp) (fun r' => ?_) (List.nodup_cons.mpr ⟨hnot, h.blocked_nodup⟩)
      · exact hmove.silent rfl rfl rfl (by simp)
      · rw [List.mem_cons, h.blocked r']
        rcases eq_or_ne r' r with rfl | hne
        · simp
        · simp [hne]
    · rw [he] at hp ⊢
      subst hp
      have hmove := h.move r .returned s.d_cond (by simp [hlocking])
        (by simp) (fun r' => ?_) h.blocked_nodup
      · exact hmove.silent rfl rfl rfl (by simp)
      · rw [h.blocked r']
        rcases eq_or_ne r' r with rfl | hne
        · simp [hlocking]
        · simp [hne]
    · rw [he] at hp ⊢
      subst hp
      exact h.pop_front hlocking hl
  | execute r c =>
    obtain ⟨hrunner, hs⟩ := Option.ite_none_right_eq_some.mp hs
    cases hs
    exact h.execute hrunner
  | finish =>
    cases hs
    exact h.finish
  | notify_one w =>
    cases w with
    | none =>
      obtain ⟨-, hs⟩ := Option.ite_none_right_eq_some.mp hs
      cases hs
      exact h.silent rfl rfl rfl (by simp)
    | some r =>
      obtain ⟨⟨-, hr⟩, hs⟩ := Option.ite_none_right_eq_some.mp hs
      cases hs
      exact (h.wake hr).silent rfl rfl rfl (by simp)
  | spurious r =>
    obtain ⟨hr, hs⟩ := Option.ite_none_right_eq_some.mp hs
    cases hs
    exact (h.wake hr).silent rfl rfl rfl (by simp)

theorem inv_run {s : State ρ κ} {tr : List (Label ρ κ)}
    (h : Run (system ρ κ) State.initial tr s) : Inv tr s :=
  h.invariant inv_initial fun _ _ _ _ => inv_step

/-! ## 2. Each state once and in order -/

/-- `run()` has not been called or has returned. -/
def Runner.inactive : Runner κ → Bool
  | .outside | .returned => true
  | .locking | .waiting | .executing _ => false

/-- A call of `run()` returns from `pop_front()` only, in a section that finds the
loop finished and the list empty. -/
theorem returns_finished {s s' : State ρ κ} {tr : List (Label ρ κ)} {l : Label ρ κ} {r : ρ}
    (h : Inv tr s) (hs : next s l = some s') (hr : s.runner r ≠ .returned)
    (hr' : s'.runner r = .returned) :
    l = .pop_front r .null ∧ .finish ∈ tr ∧ s.d_list = [] := by
  have hother : ∀ r' x, Function.update s.runner r' x r = .returned → r' = r ∧ x = .returned := by
    intro r' x he
    rcases eq_or_ne r r' with rfl | hne
    · exact ⟨rfl, by simpa using he⟩
    · exact absurd (by simpa [hne] using he) hr
  cases l with
  | push_back c =>
    obtain ⟨-, hs⟩ := Option.ite_none_right_eq_some.mp hs
    cases hs
    exact absurd hr' hr
  | run r' | execute r' c | spurious r' =>
    obtain ⟨-, hs⟩ := Option.ite_none_right_eq_some.mp hs
    cases hs
    cases (hother r' _ hr').2
  | pop_front r' p =>
    obtain ⟨⟨-, hp⟩, hs⟩ := Option.ite_none_right_eq_some.mp hs
    cases hs
    obtain ⟨rfl, hresume⟩ := hother r' _ hr'
    rcases pop_front_cases s with ⟨he, -, -⟩ | ⟨he, hl, hf⟩ | ⟨c, cs, he, hl⟩
    · rw [he] at hp
      subst hp
      cases hresume
    · rw [he] at hp
      subst hp
      exact ⟨rfl, h.finishing.mp hf, hl⟩
    · rw [he] at hp
      subst hp
      cases hresume
  | finish =>
    cases hs
    exact absurd hr' hr
  | notify_one w =>
    cases w with
    | none =>
      obtain ⟨-, hs⟩ := Option.ite_none_right_eq_some.mp hs
      cases hs
      exact absurd hr' hr
    | some r' =>
      obtain ⟨-, hs⟩ := Option.ite_none_right_eq_some.mp hs
      cases hs
      cases (hother r' _ hr').2

/-- In every interleaving each state is popped and executed at most once and the
states are popped in the order in which they were pushed; `run()` returns only
when the loop is finished and the list is empty; and when no call of `run()` is
under way, what was pushed before a call returned has been executed. -/
theorem executes_in_order {s : State ρ κ} {tr : List (Label ρ κ)}
    (h : Run (system ρ κ) State.initial tr s) :
    (∀ c, (popped tr).count c ≤ 1 ∧ (executed tr).count c ≤ 1) ∧
    popped tr <+: pushed tr ∧
    (∀ l s' r, next s l = some s' → s.runner r ≠ .returned → s'.runner r = .returned →
      l = .pop_front r .null ∧ .finish ∈ tr ∧ s.d_list = []) ∧
    (∀ tr₁ tr₂ r, tr = tr₁ ++ .pop_front r .null :: tr₂ → (∀ r, (s.runner r).inactive = true) →
      ∀ c ∈ pushed tr₁, (executed tr).count c = 1) := by
  have hi := inv_run h
  have hpopped : (popped tr).Nodup := by
    have := hi.nodup
    rw [hi.order] at this
    exact (List.nodup_append.mp this).1
  refine ⟨fun c => ⟨List.nodup_iff_count_le_one.mp hpopped c,
    List.nodup_iff_count_le_one.mp hi.executed_nodup c⟩, ⟨s.d_list, hi.order.symm⟩,
    fun l s' r hs => returns_finished hi hs, ?_⟩
  rintro tr₁ tr₂ r rfl hinactive c hc
  refine List.count_eq_one_of_mem hi.executed_nodup ?_
  -- the list was empty when the call returned
  obtain ⟨s₁, h₁, h₂⟩ := h.split
  obtain ⟨s₂, hs, -⟩ := h₂.uncons
  obtain ⟨⟨-, hp⟩, -⟩ := Option.ite_none_right_eq_some.mp hs
  have hempty : s₁.d_list = [] := by
    rcases pop_front_cases s₁ with ⟨he, hl, -⟩ | ⟨he, hl, -⟩ | ⟨c, cs, he, -⟩
    · exact hl
    · exact hl
    · rw [he] at hp
      cases hp
  have horder := (inv_run h₁).order
  rw [hempty, List.append_nil] at horder
  have hmem : c ∈ popped (tr₁ ++ .pop_front r .null :: tr₂) := by
    rw [popped_append, ← horder]
    exact List.mem_append_left _ hc
  rcases hi.complete c hmem with he | ⟨r', he⟩
  · exact he
  · have := hinactive r'
    rw [he] at this
    cases this

/-- Two states are pushed, two calls of `run()` execute one each. -/
def exTwoRunners : List (Label Nat Nat) :=
  [.push_back 7, .run 0, .run 1, .pop_front 0 (.state 7), .pop_front 1 .wait, .push_back 8, .finish,
    .notify_one (some 1), .pop_front 1 (.state 8), .execute 0 7, .execute 1 8, .pop_front 0 .null,
    .pop_front 1 .null]

theorem executes_in_order_example : (executed exTwoRunners).count 8 = 1 := by
  have hrun := run_replay (S := system Nat Nat) (fun _ _ _ => id)
    (show (replay next State.initial exTwoRunners).isSome from rfl)
  refine (executes_in_order hrun).2.2.2 (exTwoRunners.take 12) [] 1 rfl (fun r => ?_) 8 (by decide)
  rcases r with _ | _ | r <;> rfl

/-! ## 3. The list -/

/-- The operation on `d_list`, whose head is `none`. -/
def listOp : Label ρ κ → Option (IntrusiveList.Op Unit (Option κ))
  | .push_back c => some (.push_back () (some c))
  | .pop_front _ (.state _) => some (.pop_front ())
  | _ => none

/-- The sequence of `d_list` and the nodes that were inserted. -/
def State.seqs (s : State ρ κ) : IntrusiveList.Seqs Unit (Option κ) :=
  ⟨fun _ => s.d_list.map some, s.started.map some⟩

namespace RunLoopLemmas

/-- A step makes at most one operation on `d_list`, a valid one. -/
theorem list_step {tr : List (Label ρ κ)} {s s' : State ρ κ} {l : Label ρ κ} (h : Inv tr s)
    (hs : next s l = some s') :
    (listOp l = none ∧ s'.seqs = s.seqs) ∨
    ∃ op, listOp l = some op ∧ IntrusiveList.Valid (fun _ => none) s.seqs op ∧
      s'.seqs = s.seqs.apply op := by
  cases l with
  | push_back c =>
    obtain ⟨hfresh, hs⟩ := Option.ite_none_right_eq_some.mp hs
    cases hs
    have hnew : c ∉ s.d_list := by
      intro hc
      refine hfresh ?_
      rw [h.started, List.mem_reverse, h.order]
      exact List.mem_append_right _ hc
    refine .inr ⟨.push_back () (some c), rfl, ?_, ?_⟩
    · intro _
      simpa [State.seqs] using hnew
    · simp only [State.seqs, IntrusiveList.Seqs.apply, List.map_append, List.map_cons, List.map_nil]
      congr 1
  | pop_front r p =>
    obtain ⟨⟨-, hp⟩, hs⟩ := Option.ite_none_right_eq_some.mp hs
    cases hs
    rcases pop_front_cases s with ⟨he, -, -⟩ | ⟨he, -, -⟩ | ⟨c, cs, he, hl⟩
    · rw [he] at hp
      subst hp
      exact .inl ⟨rfl, by simp [State.seqs, he, State.setRunner]⟩
    · rw [he] at hp
      subst hp
      exact .inl ⟨rfl, by simp [State.seqs, he, State.setRunner]⟩
    · rw [he] at hp
      subst hp
      refine .inr ⟨.pop_front (), rfl, ?_, ?_⟩
      · show s.d_list.map some ≠ []
        simp [hl]
      · simp only [State.seqs, IntrusiveList.Seqs.apply, he, hl, State.setRunner, List.map_cons,
          List.tail_cons]
        congr 1
  | run r | execute r c | spurious r =>
    obtain ⟨-, hs⟩ := Option.ite_none_right_eq_some.mp hs
    cases hs
    exact .inl ⟨rfl, rfl⟩
  | finish =>
    cases hs
    exact .inl ⟨rfl, rfl⟩
  | notify_one w =>
    cases w with
    | none | some r =>
      obtain ⟨-, hs⟩ := Option.ite_none_right_eq_some.mp hs
      cases hs
      exact .inl ⟨rfl, rfl⟩

end RunLoopLemmas

/-- The links of a list that was used like `d_list` in a run: `empty()` and
`front()` are those of the sequence. -/
theorem refines_list {s : State ρ κ} {tr : List (Label ρ κ)} {L₀ : Ring.Links (Option κ)}
    (h : Run (system ρ κ) State.initial tr s) (h₀ : IntrusiveList.connect L₀ none none = L₀) :
    ∃ L, Run (IntrusiveList.system fun _ : Unit => none) (L₀, ⟨fun _ => [], []⟩)
        (tr.filterMap listOp) (L, s.seqs) ∧
      (IntrusiveList.empty L none = true ↔ s.d_list = []) ∧
      ∀ c cs, s.d_list = c :: cs → IntrusiveList.begin L none = some c := by
  obtain ⟨L, hr, hfront⟩ := IntrusiveList.follows (fun _ : Unit => none) listOp
    (fun _ s => s.seqs) Inv (fun _ _ _ => rfl) (fun _ => h₀) h inv_initial rfl
    fun tr s l s' hi hs => ⟨inv_step hi hs, list_step hi hs⟩
  refine ⟨L, hr, ?_, fun c cs hl => (hfront ()).2 (some c) (cs.map some) (by simp [State.seqs, hl])⟩
  rw [(hfront ()).1]
  simp [State.seqs]

end Kuhllib.RunLoop
