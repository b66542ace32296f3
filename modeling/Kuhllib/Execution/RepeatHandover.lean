import Kuhllib.Execution.RepeatEffectUntil
import Kuhllib.Lib.Transition
import Mathlib.Algebra.Ring.Nat

/-!
# `repeat_effect_until` with children that complete on other threads

Every completion with a value is a call of `next()` on a thread that is in none. The
calls run at the same time and take turns with their accesses to `d_running` and
`d_ready`: the one that finds `d_running` clear runs the loop, another one sets
`d_ready` and returns.

`not_lost`: a completion is handed over to the loop unless its call has found
`d_running` set when the loop has found `d_ready` clear already.
-/

namespace Kuhllib.RepeatHandover

open Transition RepeatEffectUntil

/-! ## 1. The calls -/

/-- The next access of a call of `next()`. -/
inductive Pc
  | d_running
  | set_ready
  | lock_guard
  | init
  | cond
  | clear_ready
  | stop_requested
  | predicate
  | restart
  | unlock
  | handler
  deriving DecidableEq, Repr

/-- The calls of `next()` in the order in which they were made, the flags, whether a child runs, how
many children were started, how many of them completed with a value, how often the stop token and
the predicate were asked, and whether the receiver was completed. -/
structure State where
  calls : List Pc
  d_running : Bool
  d_ready : Bool
  child : Bool
  runs : Nat
  values : Nat
  queries : Nat
  predicates : Nat
  completed : Bool
  deriving DecidableEq, Repr

/-- `start()` has started the first child. -/
def State.initial : State where
  calls := []
  d_running := false
  d_ready := false
  child := true
  runs := 1
  values := 0
  queries := 0
  predicates := 0
  completed := false

variable {ε : Type}

/-- One access, and where the call goes on; `none` where it returns. -/
def access (env : Env ε) (s : State) : Pc → Option Pc × State
  | .d_running => (some (if s.d_running then .set_ready else .lock_guard), s)
  | .set_ready => (none, { s with d_ready := true })
  | .lock_guard => (some .init, { s with d_running := true })
  | .init => (some .cond, { s with d_ready := true })
  | .cond => (some (if s.d_ready then .clear_ready else .unlock), s)
  | .clear_ready => (some .stop_requested, { s with d_ready := false })
  | .stop_requested =>
    if env.stop_requested s.queries then
      (some .unlock, { s with queries := s.queries + 1, completed := true })
    else (some .predicate, { s with queries := s.queries + 1 })
  | .predicate =>
    match env.predicate s.predicates with
    -- the lock_guard is destroyed on the way to the handler
    | .throws _ => (some .handler, { s with predicates := s.predicates + 1, d_running := false })
    | .returns true => (some .unlock, { s with predicates := s.predicates + 1, completed := true })
    | .returns false => (some .restart, { s with predicates := s.predicates + 1 })
  | .restart => (some .cond, { s with child := true, runs := s.runs + 1 })
  | .unlock => (none, { s with d_running := false })
  | .handler => (none, { s with completed := true })

/-- The child completes, or the `i`-th call goes on. -/
inductive Label
  | child
  | call (i : Nat)
  deriving DecidableEq, Repr

def goto (calls : List Pc) (i : Nat) : Option Pc → List Pc
  | some pc => calls.set i pc
  | none => calls.eraseIdx i

def next (env : Env ε) (s : State) : Label → Option State
  | .child =>
    if s.child then
      match env.result (s.runs - 1) with
      | .value =>
        some { s with child := false, values := s.values + 1, calls := s.calls ++ [.d_running] }
      | .error _ => some { s with child := false, completed := true }
      | .stopped => some { s with child := false, completed := true }
    else none
  | .call i =>
    match s.calls[i]? with
    | some pc =>
      let r := access env s pc
      some { r.2 with calls := goto s.calls i r.1 }
    | none => none

def system (env : Env ε) : System State Label where
  init s := s = State.initial
  step s l s' := next env s l = some s'

/-- The loop has found `d_ready` clear, and a call that has found `d_running` set has not set it. -/
def State.Window (s : State) : Prop := .unlock ∈ s.calls ∧ .set_ready ∈ s.calls

instance (s : State) : Decidable s.Window :=
  inferInstanceAs (Decidable (_ ∧ _))

/-- No child runs, no call is left, and the receiver was not completed. -/
def State.Lost (s : State) : Prop := s.calls = [] ∧ s.child = false ∧ s.completed = false

/-- Bounds the accesses that are left. -/
def Pc.work : Pc → Nat
  | .d_running => 13
  | .lock_guard => 12
  | .init => 11
  | .set_ready => 9
  | .stop_requested => 6
  | .predicate => 5
  | .restart => 4
  | .cond => 2
  | .clear_ready => 1
  | .unlock => 1
  | .handler => 1

def State.work (s : State) : Nat :=
  (s.calls.map Pc.work).sum + if s.d_ready then 8 else 0

/-! ## 2. Where the calls are -/

/-- The calls and flags; `pending` says that a completion has not been checked. -/
inductive Shape :
    (calls : List Pc) → (d_running d_ready child completed pending : Bool) → Prop
  | waiting : Shape [] false false true false false
  | called : Shape [.d_running] false false false false true
  | enters : Shape [.lock_guard] false false false false true
  | locked : Shape [.init] true false false false true
  | ready : Shape [.cond] true true false false true
  | turn : Shape [.clear_ready] true true false false true
  | asks : Shape [.stop_requested] true false false false true
  | decides : Shape [.predicate] true false false false false
  | restarts : Shape [.restart] true false false false false
  | throws : Shape [.handler] false false false false false
  | started : Shape [.cond] true false true false false
  | leaves : Shape [.unlock] true false true false false
  | called_in : Shape [.cond, .d_running] true false false false true
  | hands_over : Shape [.cond, .set_ready] true false false false true
  | called_late : Shape [.unlock, .d_running] true false false false true
  | window : Shape [.unlock, .set_ready] true false false false true
  | failed : Shape [.cond] true false false true false
  | ends : Shape [.unlock] true false false true false
  | completed : Shape [] false false false true false

structure Inv (s : State) : Prop where
  shape : ∃ pending, Shape s.calls s.d_running s.d_ready s.child s.completed pending ∧
    s.values = s.queries + pending.toNat
  runs : if s.child then s.runs = s.values + 1 else s.completed = false → s.runs = s.values

namespace RepeatHandoverLemmas

variable {env : Env ε} {s s' : State}

theorem inv_initial : Inv State.initial := ⟨⟨false, .waiting, rfl⟩, rfl⟩

/-- Where the calls are when a child has failed, and when one has completed with a value. -/
theorem child_ends {calls : List Pc} {running ready done pending : Bool}
    (h : Shape calls running ready true done pending) : pending = false ∧
    Shape calls running ready false true false ∧
    Shape (calls ++ [.d_running]) running ready false done true := by
  cases h with
  | waiting => exact ⟨rfl, .completed, .called⟩
  | started => exact ⟨rfl, .failed, .called_in⟩
  | leaves => exact ⟨rfl, .ends, .called_late⟩

/-- A child that fails completes the receiver. -/
theorem inv_failed (h : Inv s) (hchild : s.child = true) :
    Inv { s with child := false, completed := true } := by
  obtain ⟨⟨pending, hshape, hvalues⟩, -⟩ := h
  rw [hchild] at hshape
  obtain ⟨rfl, hfailed, -⟩ := child_ends hshape
  exact ⟨⟨false, hfailed, hvalues⟩, fun h => by cases h⟩

/-- A child completes while no other call waits for the loop. -/
theorem inv_child (h : Inv s) (hs : next env s .child = some s') : Inv s' := by
  simp only [next] at hs
  split at hs
  · next hchild =>
    split at hs
    · obtain ⟨⟨pending, hshape, hvalues⟩, hruns⟩ := h
      rw [if_pos hchild] at hruns
      rw [hchild] at hshape
      obtain ⟨rfl, -, hcalled⟩ := child_ends hshape
      cases hs
      exact ⟨⟨true, hcalled, congrArg (· + 1) hvalues⟩, fun _ => hruns⟩
    · cases hs
      exact inv_failed h hchild
    · cases hs
      exact inv_failed h hchild
  · cases hs

theorem next_call {i : Nat} {pc : Pc} (h : s.calls[i]? = some pc) : next env s (.call i) =
    some { (access env s pc).2 with calls := goto s.calls i (access env s pc).1 } := by
  simp only [next, h]

theorem call_cases {i : Nat} (hs : next env s (.call i) = some s') :
    ∃ pc, s.calls[i]? = some pc ∧
      s' = { (access env s pc).2 with calls := goto s.calls i (access env s pc).1 } := by
  simp only [next] at hs
  split at hs
  · next pc hpc =>
    cases hs
    exact ⟨pc, hpc, rfl⟩
  · cases hs

theorem single_call {i : Nat} {p pc : Pc} (h : [p][i]? = some pc) : i = 0 ∧ p = pc := by
  cases i with
  | zero => exact ⟨rfl, Option.some.inj h⟩
  | succ i => simp at h

theorem two_calls {i : Nat} {p q pc : Pc} (h : [p, q][i]? = some pc) :
    i = 0 ∧ p = pc ∨ i = 1 ∧ q = pc := by
  cases i with
  | zero => exact .inl ⟨rfl, Option.some.inj h⟩
  | succ i =>
    obtain ⟨rfl, hq⟩ := single_call (i := i) (p := q) h
    exact .inr ⟨rfl, hq⟩

/-- What each call does where it is, as long as the window is not open. -/
theorem inv_call {i : Nat} (h : Inv s) (hw : ¬ s.Window) (hs : next env s (.call i) = some s') :
    Inv s' := by
  obtain ⟨pc, hpc, rfl⟩ := call_cases hs
  obtain ⟨⟨pending, hshape, hvalues⟩, hruns⟩ := h
  obtain ⟨calls, running, ready, child, runs, values, queries, predicates, done⟩ := s
  cases hshape with
  | waiting => cases hpc
  | completed => cases hpc
  | called =>
    obtain ⟨rfl, rfl⟩ := single_call hpc
    exact ⟨⟨true, .enters, hvalues⟩, hruns⟩
  | enters =>
    obtain ⟨rfl, rfl⟩ := single_call hpc
    exact ⟨⟨true, .locked, hvalues⟩, hruns⟩
  | locked =>
    obtain ⟨rfl, rfl⟩ := single_call hpc
    exact ⟨⟨true, .ready, hvalues⟩, hruns⟩
  | ready =>
    obtain ⟨rfl, rfl⟩ := single_call hpc
    exact ⟨⟨true, .turn, hvalues⟩, hruns⟩
  | turn =>
    obtain ⟨rfl, rfl⟩ := single_call hpc
    exact ⟨⟨true, .asks, hvalues⟩, hruns⟩
  | asks =>
    obtain ⟨rfl, rfl⟩ := single_call hpc
    simp only [access]
    split
    · exact ⟨⟨false, .ends, hvalues⟩, fun h => by cases h⟩
    · exact ⟨⟨false, .decides, hvalues⟩, hruns⟩
  | decides =>
    obtain ⟨rfl, rfl⟩ := single_call hpc
    simp only [access]
    split
    · exact ⟨⟨false, .throws, hvalues⟩, hruns⟩
    · exact ⟨⟨false, .ends, hvalues⟩, fun h => by cases h⟩
    · exact ⟨⟨false, .restarts, hvalues⟩, hruns⟩
  | restarts =>
    obtain ⟨rfl, rfl⟩ := single_call hpc
    exact ⟨⟨false, .started, hvalues⟩, congrArg (· + 1) (hruns rfl)⟩
  | throws =>
    obtain ⟨rfl, rfl⟩ := single_call hpc
    exact ⟨⟨false, .completed, hvalues⟩, fun h => by cases h⟩
  | started =>
    obtain ⟨rfl, rfl⟩ := single_call hpc
    exact ⟨⟨false, .leaves, hvalues⟩, hruns⟩
  | leaves =>
    obtain ⟨rfl, rfl⟩ := single_call hpc
    exact ⟨⟨false, .waiting, hvalues⟩, hruns⟩
  | called_in =>
    rcases two_calls hpc with ⟨rfl, rfl⟩ | ⟨rfl, rfl⟩
    · exact ⟨⟨true, .called_late, hvalues⟩, hruns⟩
    · exact ⟨⟨true, .hands_over, hvalues⟩, hruns⟩
  | hands_over =>
    rcases two_calls hpc with ⟨rfl, rfl⟩ | ⟨rfl, rfl⟩
    · exact ⟨⟨true, .window, hvalues⟩, hruns⟩
    · exact ⟨⟨true, .ready, hvalues⟩, hruns⟩
  | called_late =>
    rcases two_calls hpc with ⟨rfl, rfl⟩ | ⟨rfl, rfl⟩
    · exact ⟨⟨true, .called, hvalues⟩, hruns⟩
    · exact ⟨⟨true, .window, hvalues⟩, hruns⟩
  | window => exact absurd ⟨List.mem_cons_self, by simp⟩ hw
  | failed =>
    obtain ⟨rfl, rfl⟩ := single_call hpc
    exact ⟨⟨false, .ends, hvalues⟩, hruns⟩
  | ends =>
    obtain ⟨rfl, rfl⟩ := single_call hpc
    exact ⟨⟨false, .completed, hvalues⟩, hruns⟩

theorem inv_run {tr : List Label}
    (h : Run ((system env).restrict fun s _ => ¬ s.Window) State.initial tr s) : Inv s := by
  refine h.invariant_state inv_initial fun s l s' hinv hs => ?_
  obtain ⟨hs, hw⟩ := hs
  cases l with
  | child => exact inv_child hinv hs
  | call i => exact inv_call hinv hw hs

/-! ### The calls come to an end -/

theorem work_goto {calls : List Pc} {i : Nat} {pc : Pc} (h : calls[i]? = some pc)
    (o : Option Pc) : ((goto calls i o).map Pc.work).sum + pc.work =
      (calls.map Pc.work).sum + o.elim 0 Pc.work := by
  induction calls generalizing i with
  | nil => simp at h
  | cons p calls ih =>
    cases i with
    | zero =>
      cases h
      cases o with
      | none => simp [goto, Nat.add_comm]
      | some q => simp [goto]; omega
    | succ i =>
      have hrest := ih (i := i) (by simpa using h)
      cases o with
      | none => simp [goto] at hrest ⊢; omega
      | some q => simp [goto] at hrest ⊢; omega

/-- Every access leaves less to do; `d_ready` stands for the turn that it asks for. -/
theorem work_access (env : Env ε) (s : State) (pc : Pc) (h : pc = .clear_ready → s.d_ready = true) :
    (access env s pc).1.elim 0 Pc.work + (if (access env s pc).2.d_ready then 8 else 0) <
      pc.work + if s.d_ready then 8 else 0 := by
  fun_cases access env s pc <;> grind [Pc.work]

theorem ready_of_clear (h : Inv s) (hmem : .clear_ready ∈ s.calls) : s.d_ready = true := by
  obtain ⟨⟨pending, hshape, -⟩, -⟩ := h
  generalize s.calls = calls, s.d_running = running, s.d_ready = ready, s.child = child,
    s.completed = done at hshape hmem ⊢
  cases hshape with
  | turn => rfl
  | _ => simp at hmem

theorem work_lt (h : Inv s) {i : Nat} (hi : i < s.calls.length) :
    ∃ s', next env s (.call i) = some s' ∧ s'.work < s.work := by
  have hpc := List.getElem?_eq_getElem hi
  refine ⟨_, next_call hpc, ?_⟩
  have hgoto := work_goto hpc (access env s s.calls[i]).1
  have haccess := work_access env s s.calls[i] fun heq =>
    ready_of_clear h (heq ▸ List.getElem_mem hi)
  unfold State.work
  dsimp only
  omega

theorem idle_cases {running ready child done pending : Bool}
    (h : Shape [] running ready child done pending) :
    pending = false ∧ (child = true ∨ done = true) := by
  cases h with
  | waiting => exact ⟨rfl, .inl rfl⟩
  | completed => exact ⟨rfl, .inr rfl⟩

/-- Once the window is open nobody takes the completion. -/
theorem lost_of_window (h : Inv s) (hw : s.Window) :
    ∃ s', Reaches (system env) s s' ∧ s'.Lost := by
  obtain ⟨⟨pending, hshape, -⟩, -⟩ := h
  obtain ⟨hunlock, hready⟩ := hw
  obtain ⟨calls, running, ready, child, runs, values, queries, predicates, done⟩ := s
  cases hshape with
  | window =>
    exact ⟨_, ⟨[.call 0, .call 0], .cons rfl <| .single rfl⟩, rfl, rfl, rfl⟩
  | _ => simp at hunlock hready

end RepeatHandoverLemmas

open RepeatHandoverLemmas

/-- As long as the window has not been open, every completion with a value has been checked when no
call is left, and led to another run of the child or to the completion of the receiver; the calls
that are left can go on and come to an end. Where it is open the completion can be lost. -/
theorem not_lost {env : Env ε} {s : State} {tr : List Label}
    (h : Run ((system env).restrict fun s _ => ¬ s.Window) State.initial tr s) :
    (s.calls = [] → s.values = s.queries ∧
      (s.child = true ∧ s.runs = s.values + 1 ∨ s.completed = true)) ∧
    (∀ i < s.calls.length, ∃ s', next env s (.call i) = some s' ∧ s'.work < s.work) ∧
    (s.Window → ∃ s', Reaches (system env) s s' ∧ s'.Lost) := by
  have hinv := inv_run h
  refine ⟨fun hcalls => ?_, fun i hi => work_lt hinv hi, fun hw => lost_of_window hinv hw⟩
  obtain ⟨⟨pending, hshape, hvalues⟩, hruns⟩ := hinv
  rw [hcalls] at hshape
  obtain ⟨rfl, hchild | hdone⟩ := idle_cases hshape
  · rw [if_pos hchild] at hruns
    exact ⟨hvalues, .inl ⟨hchild, hruns⟩⟩
  · exact ⟨hvalues, .inr hdone⟩

/-- The predicate is true when it is called for the second time. -/
def exEnv : Env Unit where
  result _ := .value
  inline _ := false
  stop_requested _ := false
  predicate k := .returns (k == 1)

/-- The second child completes while the loop is about to test `d_ready`, which its call sets in
time. -/
def exInTime : List Label :=
  .child :: List.replicate 8 (.call 0) ++ [.child, .call 1, .call 1] ++ List.replicate 5 (.call 0)

theorem not_lost_example : ∃ s : State,
    Run ((system exEnv).restrict fun s _ => ¬ s.Window) State.initial exInTime s ∧
    s.calls = [] ∧ s.values = 2 ∧ s.queries = 2 ∧ s.completed = true := by
  have hrun := run_replay_restrict (S := system exEnv) (fun _ _ _ => id)
    (show (replay (fun s l => if ¬ s.Window then next exEnv s l else none) State.initial
      exInTime).isSome by decide)
  exact ⟨_, hrun, rfl, rfl, ((not_lost hrun).1 rfl).1.symm.trans rfl, rfl⟩

/-- The loop tests `d_ready` between the test of `d_running` and the write of `d_ready`. -/
def exLate : List Label :=
  .child :: List.replicate 8 (.call 0) ++ [.child, .call 1, .call 0, .call 0, .call 0]

/-- The second completion has not been checked, no child runs and nobody is in `next()`. -/
theorem lost : ∃ s : State, Run (system exEnv) State.initial exLate s ∧ s.Lost ∧
    s.values = 2 ∧ s.queries = 1 :=
  ⟨_, run_replay (S := system exEnv) (fun _ _ _ => id)
    (show (replay (next exEnv) State.initial exLate).isSome by decide), ⟨rfl, rfl, rfl⟩, rfl, rfl⟩

end Kuhllib.RepeatHandover
