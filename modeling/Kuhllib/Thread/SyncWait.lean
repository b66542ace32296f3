import Kuhllib.Lib.Transition
import Mathlib.Data.List.Basic

/-!
# `nstd::this_thread::sync_wait`

One thread is in `operator()`, and the sender completes the receiver once: on another thread, or
on the same one before `start(state)` returns. A step is one access to the local objects of
`operator()`; `wait` releases the mutex and blocks in one step, and it may wake up at any time.

Results, for every interleaving:
1. `no_dangling`: the local objects outlive the completion if `operator()` does not return between
   `complete()`'s release of the mutex and its `notify_one()`.
2. `faithful_iff`: `operator()` tells the completion except for an empty pack of values and a null
   `exception_ptr`.
-/

namespace Kuhllib.SyncWait

open Transition

variable {α ε : Type}

/-- What the sender completes with. An `exception_ptr` may be null. -/
inductive Completion (α ε : Type)
  | set_value (args : List α)
  | set_error_ptr (ex : Option ε)
  | set_error (ex : ε)
  | set_stopped
  deriving DecidableEq, Repr

/-- How `operator()` is left. -/
inductive Outcome (α ε : Type)
  | returns (res : Option (List α))
  | throws (ex : ε)
  deriving DecidableEq, Repr

inductive Thread
  | waiter
  | completer
  deriving DecidableEq, Repr

/-- Where `operator()` is. -/
inductive Waiter
  | starting
  | locking
  | testing
  | blocked
  | leaving
  | unlocked
  | returned
  deriving DecidableEq, Repr

/-- Where the completion of the receiver is. -/
inductive Completer
  | pending
  | locking
  | setting
  | unlocking
  | notifying
  | finished
  deriving DecidableEq, Repr

/-- The local objects of `operator()`; `bottleneck` is the thread that has locked it. `inside`
says that `start(state)` has called the completion, and `dangling` that a local object was used
after its end. -/
structure State (α ε : Type) where
  bottleneck : Option Thread
  done : Bool
  res : Option (List α)
  ex : Option ε
  waiter : Waiter
  completer : Completer
  inside : Bool
  completion : Option (Completion α ε)
  outcome : Option (Outcome α ε)
  dangling : Bool
  deriving DecidableEq, Repr

def State.initial : State α ε where
  bottleneck := none
  done := false
  res := none
  ex := none
  waiter := .starting
  completer := .pending
  inside := false
  completion := none
  outcome := none
  dangling := false

/-- The overloads of `tag_invoke` for the receiver, without the call of `complete()`. -/
def State.complete (s : State α ε) : Completion α ε → State α ε
  -- (*self.res) = {} makes the optional empty
  | .set_value [] => { s with res := none }
  | .set_value args => { s with res := some args }
  | .set_error_ptr ex => { s with ex := ex }
  | .set_error ex => { s with ex := some ex }
  | .set_stopped => s

/-- `if (ex) rethrow_exception(ex); return res;` -/
def State.report (s : State α ε) : Outcome α ε :=
  match s.ex with
  | some ex => .throws ex
  | none => .returns s.res

/-- The completion uses a local object. -/
def State.touch (s : State α ε) : State α ε :=
  { s with dangling := s.dangling || s.waiter = .returned }

inductive Label (α ε : Type)
  | complete (c : Completion α ε) (inside : Bool)
  | lock_guard
  | set_done
  | unlock_guard
  | notify_one
  | started
  | unique_lock
  | test
  | wake
  | report
  | destroy
  deriving DecidableEq, Repr

def next (s : State α ε) : Label α ε → Option (State α ε)
  | .complete c inside =>
    if s.completer = .pending ∧ (inside → s.waiter = .starting) then
      some { s.touch.complete c with completer := .locking, inside := inside, completion := some c }
    else none
  | .lock_guard =>
    if s.completer = .locking ∧ s.bottleneck = none then
      some { s.touch with completer := .setting, bottleneck := some .completer }
    else none
  | .set_done =>
    if s.completer = .setting then some { s.touch with completer := .unlocking, done := true }
    else none
  | .unlock_guard =>
    if s.completer = .unlocking then
      some { s.touch with completer := .notifying, bottleneck := none }
    else none
  | .notify_one =>
    if s.completer = .notifying then some { s.touch with completer := .finished } else none
  | .started =>
    if s.waiter = .starting ∧ (s.inside → s.completer = .finished) then
      some { s with waiter := .locking }
    else none
  | .unique_lock =>
    if s.waiter = .locking ∧ s.bottleneck = none then
      some { s with waiter := .testing, bottleneck := some .waiter }
    else none
  -- condition.wait tests done, and blocks and unlocks at once if it is not set
  | .test =>
    if s.waiter = .testing then
      some (if s.done then { s with waiter := .leaving }
        else { s with waiter := .blocked, bottleneck := none })
    else none
  | .wake => if s.waiter = .blocked then some { s with waiter := .locking } else none
  | .report =>
    if s.waiter = .leaving then
      some { s with waiter := .unlocked, bottleneck := none, outcome := some s.report }
    else none
  | .destroy => if s.waiter = .unlocked then some { s with waiter := .returned } else none

def system (α ε : Type) : System (State α ε) (Label α ε) where
  init s := s = State.initial
  step s l s' := next s l = some s'

/-! ## 1. The local objects -/

/-- `operator()` returns while `complete()` is not in front of `notify_one()`. -/
def Clear (s : State α ε) : Label α ε → Prop
  | .destroy => s.completer ≠ .notifying
  | _ => True

instance (s : State α ε) (l : Label α ε) : Decidable (Clear s l) :=
  match l with
  | .destroy => inferInstanceAs (Decidable (_ ≠ _))
  | .complete _ _ | .lock_guard | .set_done | .unlock_guard | .notify_one | .started
  | .unique_lock | .test | .wake | .report => inferInstanceAs (Decidable True)

/-- `done` has been set. -/
def Completer.Done (c : Completer) : Prop := c = .unlocking ∨ c = .notifying ∨ c = .finished

/-- The mutex is locked by who is in a section, and what has been stored belongs to the
completion. -/
structure Inv (s : State α ε) : Prop where
  waiter : s.bottleneck = some .waiter ↔ s.waiter = .testing ∨ s.waiter = .leaving
  completer : s.bottleneck = some .completer ↔ s.completer = .setting ∨ s.completer = .unlocking
  done : s.done = true ↔ s.completer.Done
  left : s.waiter = .leaving ∨ s.waiter = .unlocked ∨ s.waiter = .returned →
    s.completer = .notifying ∨ s.completer = .finished
  pending : s.completion = none ↔ s.completer = .pending
  stored : (s.completion = none → s.res = none ∧ s.ex = none) ∧
    ∀ c, s.completion = some c → s.res = (State.initial.complete c).res ∧
      s.ex = (State.initial.complete c).ex
  outcome : ∀ o, s.outcome = some o → o = s.report ∧ s.completion ≠ none

namespace SyncWaitLemmas

variable {s s' : State α ε}

theorem inv_initial : Inv (State.initial : State α ε) := by
  refine ⟨?_, ?_, ?_, ?_, ?_, ⟨fun _ => ⟨rfl, rfl⟩, fun c hc => ?_⟩, fun o ho => ?_⟩
  · simp [State.initial]
  · simp [State.initial]
  · simp [State.initial, Completer.Done]
  · simp [State.initial]
  · simp [State.initial]
  · cases hc
  · cases ho

/-- The receiver stores what the completion says. -/
theorem complete_stores (c : Completion α ε) (hres : s.res = none) (hex : s.ex = none) :
    (s.complete c).res = (State.initial.complete c).res ∧
      (s.complete c).ex = (State.initial.complete c).ex := by
  cases c with
  | set_value args => cases args <;> exact ⟨by simp [State.complete], by simpa [State.complete]⟩
  | set_error_ptr ex => exact ⟨hres, rfl⟩
  | set_error ex => exact ⟨hres, rfl⟩
  | set_stopped => exact ⟨hres, hex⟩

theorem complete_frame (s : State α ε) (c : Completion α ε) :
    (s.complete c).bottleneck = s.bottleneck ∧ (s.complete c).done = s.done ∧
      (s.complete c).waiter = s.waiter ∧ (s.complete c).outcome = s.outcome ∧
      (s.complete c).dangling = s.dangling := by
  cases c with
  | set_value args => cases args <;> exact ⟨rfl, rfl, rfl, rfl, rfl⟩
  | set_error_ptr | set_error | set_stopped => exact ⟨rfl, rfl, rfl, rfl, rfl⟩

end SyncWaitLemmas

open SyncWaitLemmas

theorem inv_step {s s' : State α ε} {l : Label α ε} (h : Inv s) (hs : next s l = some s') :
    Inv s' := by
  obtain ⟨hwaiter, hcompleter, hdone, hleft, hpending, hstored, houtcome⟩ := h
  unfold Completer.Done at hdone
  cases l with
  | complete c inside =>
    simp only [next, Option.ite_none_right_eq_some, Option.some.injEq] at hs
    obtain ⟨⟨hc, -⟩, rfl⟩ := hs
    obtain ⟨hb, hd, hw, ho, -⟩ := complete_frame s.touch c
    have hnone := hpending.mpr hc
    obtain ⟨hres, hex⟩ := hstored.1 hnone
    refine ⟨?_, ?_, ?_, ?_, ?_, ⟨fun h => (by cases h), fun c' hc' => ?_⟩, fun o ho' => ?_⟩
    · dsimp only
      rw [hb, hw]
      exact hwaiter
    · dsimp only
      rw [hb]
      show s.bottleneck = some .completer ↔ _
      simp [hcompleter, hc]
    · dsimp only
      rw [hd]
      show s.done = true ↔ _
      simp [hdone, hc, Completer.Done]
    · dsimp only
      rw [hw]
      intro h
      have := hleft h
      simp [hc] at this
    · simp
    · cases hc'
      exact complete_stores c hres hex
    · rw [ho] at ho'
      exact absurd hnone (houtcome o ho').2
  | lock_guard =>
    simp only [next, Option.ite_none_right_eq_some, Option.some.injEq] at hs
    obtain ⟨⟨hc, hb⟩, rfl⟩ := hs
    constructor <;> grind [State.touch, Completer.Done, State.report]
  | set_done =>
    simp only [next, Option.ite_none_right_eq_some, Option.some.injEq] at hs
    obtain ⟨hc, rfl⟩ := hs
    constructor <;> grind [State.touch, Completer.Done, State.report]
  | unlock_guard =>
    simp only [next, Option.ite_none_right_eq_some, Option.some.injEq] at hs
    obtain ⟨hc, rfl⟩ := hs
    constructor <;> grind [State.touch, Completer.Done, State.report]
  | notify_one =>
    simp only [next, Option.ite_none_right_eq_some, Option.some.injEq] at hs
    obtain ⟨hc, rfl⟩ := hs
    constructor <;> grind [State.touch, Completer.Done, State.report]
  | started =>
    simp only [next, Option.ite_none_right_eq_some, Option.some.injEq] at hs
    obtain ⟨⟨hw, -⟩, rfl⟩ := hs
    constructor <;> grind [State.report, Completer.Done]
  | unique_lock =>
    simp only [next, Option.ite_none_right_eq_some, Option.some.injEq] at hs
    obtain ⟨⟨hw, hb⟩, rfl⟩ := hs
    constructor <;> grind [State.report, Completer.Done]
  | test =>
    simp only [next, Option.ite_none_right_eq_some, Option.some.injEq] at hs
    obtain ⟨hw, rfl⟩ := hs
    have hlocked := hwaiter.mpr (.inl hw)
    split
    · constructor <;> grind [State.report, Completer.Done]
    · constructor <;> grind [State.report, Completer.Done]
  | wake =>
    simp only [next, Option.ite_none_right_eq_some, Option.some.injEq] at hs
    obtain ⟨hw, rfl⟩ := hs
    constructor <;> grind [State.report, Completer.Done]
  | report =>
    simp only [next, Option.ite_none_right_eq_some, Option.some.injEq] at hs
    obtain ⟨hw, rfl⟩ := hs
    constructor <;> grind [State.report, Completer.Done]
  | destroy =>
    simp only [next, Option.ite_none_right_eq_some, Option.some.injEq] at hs
    obtain ⟨hw, rfl⟩ := hs
    constructor <;> grind [State.report, Completer.Done]

theorem inv_run {s : State α ε} {tr : List (Label α ε)}
    (h : Run (system α ε) State.initial tr s) : Inv s :=
  h.invariant_state inv_initial fun _ _ _ => inv_step

/-- A completion that has not told its end keeps the local objects alive. -/
theorem alive_step {s s' : State α ε} {l : Label α ε} (h : Inv s) (hs : next s l = some s')
    (hc : Clear s l) (halive : s.waiter = .returned → s.completer = .finished)
    (hdangling : s.dangling = false) :
    (s'.waiter = .returned → s'.completer = .finished) ∧ s'.dangling = false := by
  cases l with
  | complete c inside =>
    simp only [next, Option.ite_none_right_eq_some, Option.some.injEq] at hs
    obtain ⟨⟨hp, -⟩, rfl⟩ := hs
    obtain ⟨-, -, hw, -, hd⟩ := complete_frame s.touch c
    have hne : s.waiter ≠ .returned := fun hr => by simp [halive hr] at hp
    refine ⟨fun hr => absurd (hw.symm.trans hr) hne, hd.trans ?_⟩
    simp [State.touch, hdangling, hne]
  | destroy =>
    simp only [next, Option.ite_none_right_eq_some, Option.some.injEq] at hs
    obtain ⟨hw, rfl⟩ := hs
    exact ⟨fun _ => (h.left (.inr (.inl hw))).resolve_left hc, hdangling⟩
  | lock_guard | set_done | unlock_guard | notify_one =>
    simp only [next, Option.ite_none_right_eq_some, Option.some.injEq] at hs
    grind [State.touch]
  | started | unique_lock | test | wake | report =>
    simp only [next, Option.ite_none_right_eq_some, Option.some.injEq] at hs
    grind

/-- The completing thread uses no local object of `operator()` after its end, if `operator()`
does not return in front of the notification. -/
theorem no_dangling {s : State α ε} {tr : List (Label α ε)}
    (h : Run ((system α ε).restrict Clear) State.initial tr s) :
    s.dangling = false ∧ (s.waiter = .returned → s.completer = .finished) := by
  have hrun : Inv s ∧ (s.waiter = .returned → s.completer = .finished) ∧ s.dangling = false :=
    h.invariant_state (I := fun s => Inv s ∧ (s.waiter = .returned → s.completer = .finished) ∧
      s.dangling = false) ⟨inv_initial, fun hr => (by cases hr), rfl⟩
      fun s l s' hi hs => ⟨inv_step hi.1 hs.1, alive_step hi.1 hs.1 hs.2 hi.2.1 hi.2.2⟩
  exact ⟨hrun.2.2, hrun.2.1⟩

/-- A value arrives while `operator()` waits. -/
def exWait : List (Label Nat Nat) :=
  [.started, .unique_lock, .test, .complete (.set_value [7]) false, .lock_guard, .set_done,
    .unlock_guard, .notify_one, .wake, .unique_lock, .test, .report, .destroy]

theorem no_dangling_example : ∃ s : State Nat Nat,
    Run ((system Nat Nat).restrict Clear) State.initial exWait s ∧ s.waiter = .returned ∧
      s.dangling = false := by
  have hrun := run_replay_restrict (S := system Nat Nat) (fun _ _ _ => id)
    (show (replay (fun s l => if Clear s l then next s l else none) State.initial exWait).isSome
      from by decide)
  exact ⟨_, hrun, by decide, (no_dangling hrun).1⟩

/-- The same where `operator()` wakes up by itself and returns before it is notified. -/
def exEarly : List (Label Nat Nat) :=
  [.started, .unique_lock, .test, .complete (.set_value [7]) false, .lock_guard, .set_done,
    .unlock_guard, .wake, .unique_lock, .test, .report, .destroy, .notify_one]

theorem used_after_return : ∃ s : State Nat Nat,
    Run (system Nat Nat) State.initial exEarly s ∧ s.dangling = true :=
  ⟨_, run_replay (S := system Nat Nat) (fun _ _ _ => id)
    (show (replay next State.initial exEarly).isSome from by decide), by decide⟩

/-! ## 2. The result -/

/-- `operator()` returns the values, throws the error or returns nothing, each exactly for the
completion that says so. -/
structure Faithful (c : Completion α ε) (o : Outcome α ε) : Prop where
  value : ∀ args, o = .returns (some args) ↔ c = .set_value args
  error : ∀ ex, o = .throws ex ↔ c = .set_error ex ∨ c = .set_error_ptr (some ex)
  stopped : o = .returns none ↔ c = .set_stopped

/-- The outcome that belongs to a completion. -/
theorem report_complete (c : Completion α ε) :
    Faithful c (State.initial.complete c).report ↔
      c ≠ .set_value [] ∧ c ≠ .set_error_ptr none := by
  cases c with
  | set_value args =>
    cases args with
    | nil =>
      refine iff_of_false (fun h => ?_) fun h => h.1 rfl
      cases h.stopped.mp rfl
    | cons a args =>
      refine iff_of_true ⟨?_, ?_, ?_⟩ ⟨?_, ?_⟩
      all_goals simp [State.complete, State.report, State.initial]
  | set_error_ptr ex =>
    cases ex with
    | none =>
      refine iff_of_false (fun h => ?_) fun h => h.2 rfl
      cases h.stopped.mp rfl
    | some ex =>
      refine iff_of_true ⟨?_, ?_, ?_⟩ ⟨?_, ?_⟩
      all_goals simp [State.complete, State.report, State.initial]
  | set_error ex =>
    refine iff_of_true ⟨?_, ?_, ?_⟩ ⟨?_, ?_⟩
    all_goals simp [State.complete, State.report, State.initial]
  | set_stopped =>
    refine iff_of_true ⟨?_, ?_, ?_⟩ ⟨?_, ?_⟩
    all_goals simp [State.complete, State.report, State.initial]

/-- However the two threads interleave, the call tells the completion if and only if it is
neither an empty pack of values nor a null `exception_ptr`. -/
theorem faithful_iff {s : State α ε} {tr : List (Label α ε)} {c : Completion α ε}
    {o : Outcome α ε} (h : Run (system α ε) State.initial tr s) (hc : s.completion = some c)
    (ho : s.outcome = some o) : Faithful c o ↔ c ≠ .set_value [] ∧ c ≠ .set_error_ptr none := by
  have hi := inv_run h
  obtain ⟨hres, hex⟩ := hi.stored.2 c hc
  have hreport : s.report = (State.initial.complete c).report := by
    rw [State.report, State.report, hres, hex]
  rw [(hi.outcome o ho).1, hreport]
  exact report_complete c

theorem faithful_iff_example :
    Faithful (.set_value [7] : Completion Nat Nat) (.returns (some [7])) ↔
      (.set_value [7] : Completion Nat Nat) ≠ .set_value [] ∧
        (.set_value [7] : Completion Nat Nat) ≠ .set_error_ptr none :=
  faithful_iff (run_replay (S := system Nat Nat) (fun _ _ _ => id)
    (show (replay next State.initial exWait).isSome from by decide)) (by decide) (by decide)

/-- A sender without values completes before the call waits. -/
def exEmpty : List (Label Nat Nat) :=
  [.complete (.set_value []) true, .lock_guard, .set_done, .unlock_guard, .notify_one, .started,
    .unique_lock, .test, .report, .destroy]

/-- It is told as if it had been stopped. -/
theorem not_faithful : ∃ s : State Nat Nat,
    Run (system Nat Nat) State.initial exEmpty s ∧ s.completion = some (.set_value []) ∧
      s.outcome = some (.returns none) ∧
      ¬ Faithful (.set_value [] : Completion Nat Nat) (.returns none) := by
  refine ⟨_, run_replay (S := system Nat Nat) (fun _ _ _ => id)
    (show (replay next State.initial exEmpty).isSome from by decide), by decide, by decide,
    fun h => ?_⟩
  cases h.stopped.mp rfl

end Kuhllib.SyncWait
