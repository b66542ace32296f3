import Mathlib.Data.List.Infix
import Mathlib.Data.Nat.Find
import Mathlib.Logic.Function.Iterate

/-!
# `nstd::execution::repeat_effect_until`

`state::start` and `state::next` as a machine with a call stack. A child either
completes inside its `start()`, so that `next` runs below the loop that started
it, or later, from an empty stack. The flags `d_running` and `d_ready` turn the
nested call of `next` into one more turn of the loop.

Results, for every behaviour of the children, the predicate and the stop token:
1. `run_turn`, `run_end`: one turn of the loop, however the child completes.
2. `same_events`: the events are those of the reference loop.
3. `one_child`, `one_completion`: there is never a second child state or a
   second completion, and the machine halts only after a completion.
-/

namespace Kuhllib.RepeatEffectUntil

/-- How a child, or the whole operation, completes. -/
inductive Result (ε : Type)
  | value
  | error (e : ε)
  | stopped
  deriving DecidableEq, Repr

/-- What a call of the predicate does. -/
inductive Outcome (ε : Type)
  | returns (b : Bool)
  | throws (x : ε)
  deriving DecidableEq, Repr

/-- Everything the operation cannot choose: the `k`-th run of the child, the
`k`-th query of the stop token and the `k`-th call of the predicate. -/
structure Env (ε : Type) where
  result : Nat → Result ε
  inline : Nat → Bool
  stop_requested : Nat → Bool
  predicate : Nat → Outcome ε

inductive Event (ε : Type)
  | start (k : Nat)
  | predicate (k : Nat)
  | complete (r : Result ε)
  deriving DecidableEq, Repr

/-- The points of `start`, `next`, the child's `start()` and its receiver. -/
inductive Frame (ε : Type)
  | start
  | child (k : Nat)
  | receive (r : Result ε)
  | next
  | loop
  | query
  | predicate
  | restart
  | unlock
  | caught (x : ε)
  deriving DecidableEq, Repr

/-- The members of `state`, the child states that are alive, the deferred
child, how often the environment was asked, and what happened. -/
structure State (ε : Type) where
  stack : List (Frame ε)
  d_running : Bool
  d_ready : Bool
  d_engaged : Bool
  alive : List Nat
  deferred : Option Nat
  runs : Nat
  queries : Nat
  calls : Nat
  log : List (Event ε)
  deriving DecidableEq, Repr

variable {ε : Type}

/-- The operation state before `start`. -/
def State.initial : State ε where
  stack := [.start]
  d_running := false
  d_ready := false
  d_engaged := false
  alive := []
  deferred := none
  runs := 0
  queries := 0
  calls := 0
  log := []

/-- `new(&d_internal_state.d_state) internal_state(…)` and `start(…)` of it. -/
def State.launch (s : State ε) (fs : List (Frame ε)) : State ε :=
  { s with
    stack := .child s.runs :: fs
    alive := s.runs :: s.alive
    runs := s.runs + 1
    log := s.log ++ [.start s.runs] }

/-- Completing the outer receiver. -/
def State.complete (s : State ε) (r : Result ε) (fs : List (Frame ε)) : State ε :=
  { s with stack := fs, log := s.log ++ [.complete r] }

/-- Calling the predicate. -/
def State.call (s : State ε) : State ε :=
  { s with calls := s.calls + 1, log := s.log ++ [.predicate s.calls] }

def step (env : Env ε) (s : State ε) : State ε :=
  match s.stack with
  | [] =>
    match s.deferred with
    | none => s
    | some k => { s with stack := [.receive (env.result k)], deferred := none }
  | .start :: fs => { s with d_engaged := true }.launch fs
  | .child k :: fs =>
    if env.inline k then { s with stack := .receive (env.result k) :: fs }
    else { s with stack := fs, deferred := some k }
  | .receive .value :: fs => { s with stack := .next :: fs }
  | .receive (.error e) :: fs => s.complete (.error e) fs
  | .receive .stopped :: fs => s.complete .stopped fs
  | .next :: fs =>
    if s.d_running then { s with stack := fs, d_ready := true }
    else { s with stack := .loop :: fs, d_running := true, d_ready := true }
  | .loop :: fs =>
    if s.d_ready then { s with stack := .query :: fs, d_ready := false }
    else { s with stack := .unlock :: fs }
  | .query :: fs =>
    if env.stop_requested s.queries then
      { s with queries := s.queries + 1 }.complete .stopped (.unlock :: fs)
    else { s with stack := .predicate :: fs, queries := s.queries + 1 }
  | .predicate :: fs =>
    match env.predicate s.calls with
    -- the lock_guard is destroyed on the way to the handler
    | .throws x => { s.call with stack := .caught x :: fs, d_running := false }
    | .returns true => s.call.complete .value (.unlock :: fs)
    | .returns false => { s.call with stack := .restart :: fs }
  | .restart :: fs => { s with alive := s.alive.tail }.launch (.loop :: fs)
  | .unlock :: fs => { s with stack := fs, d_running := false }
  | .caught x :: fs => s.complete (.error x) fs

/-- The state after `n` steps. -/
def run (env : Env ε) (n : Nat) : State ε := (step env)^[n] State.initial

/-- Nothing is left to do. -/
def State.halted (s : State ε) : Prop := s.stack = [] ∧ s.deferred = none

/-- The reference loop: `do` run the effect; if it failed or was stopped complete
with that; if stop is requested complete with `set_stopped`; if the predicate
throws complete with `set_error`; `until` the predicate returns true; complete
with `set_value`. At most `fuel` turns, starting with turn `k`. -/
def reference (env : Env ε) : Nat → Nat → List (Event ε)
  | 0, _ => []
  | fuel + 1, k =>
    .start k :: match env.result k with
      | .error e => [.complete (.error e)]
      | .stopped => [.complete .stopped]
      | .value =>
        if env.stop_requested k then [.complete .stopped]
        else .predicate k :: match env.predicate k with
          | .throws x => [.complete (.error x)]
          | .returns true => [.complete .value]
          | .returns false => reference env fuel (k + 1)

/-! ## 1. One turn of the loop -/

def Event.completion : Event ε → Bool
  | .complete _ => true
  | _ => false

def completions (evs : List (Event ε)) : Nat := evs.countP Event.completion

/-- What happens after run `k` of the effect: the loop goes on, or it ends with
the given events. -/
def Env.after (env : Env ε) (k : Nat) : Option (List (Event ε)) :=
  match env.result k with
  | .error e => some [.complete (.error e)]
  | .stopped => some [.complete .stopped]
  | .value =>
    if env.stop_requested k then some [.complete .stopped]
    else
      match env.predicate k with
      | .throws x => some [.predicate k, .complete (.error x)]
      | .returns true => some [.predicate k, .complete .value]
      | .returns false => none

/-- The turns never end. -/
def Env.Forever (env : Env ε) : Prop := ∀ k, env.after k = none

/-- Turn `k` is the last one and has the events `evs` after the start of the run. -/
structure Env.Last (env : Env ε) (k : Nat) (evs : List (Event ε)) : Prop where
  earlier : ∀ i < k, env.after i = none
  last : env.after k = some evs

namespace RepeatEffectUntilLemmas

/-- The events of the first `k` turns, if none of them is the last. -/
def before (k : Nat) : List (Event ε) := (List.range k).flatMap fun i => [.start i, .predicate i]

/-- Run `k` of the child is about to begin, for `k > 0` below the loop. -/
def inRun (k : Nat) (nested : Bool) : State ε where
  stack := .child k :: if nested then [.loop] else []
  d_running := nested
  d_ready := false
  d_engaged := true
  alive := [k]
  deferred := none
  runs := k + 1
  queries := k
  calls := k
  log := before k ++ [.start k]

/-- Run `k` of the child has completed with a value. -/
def atLoop (k : Nat) : State ε where
  stack := [.loop]
  d_running := true
  d_ready := true
  d_engaged := true
  alive := [k]
  deferred := none
  runs := k + 1
  queries := k
  calls := k
  log := before k ++ [.start k]

/-- In one or more steps. -/
def Steps (env : Env ε) (s s' : State ε) : Prop := ∃ n, (step env)^[n + 1] s = s'

variable {env : Env ε}

theorem Steps.trans {s s' s'' : State ε} (h : Steps env s s') (h' : Steps env s' s'') :
    Steps env s s'' := by
  obtain ⟨n, rfl⟩ := h
  obtain ⟨m, rfl⟩ := h'
  exact ⟨m + 1 + n, Function.iterate_add_apply (step env) (m + 1) (n + 1) s⟩

theorem before_succ (k : Nat) :
    before (ε := ε) (k + 1) = before k ++ [.start k] ++ [.predicate k] := by
  simp [before, List.range_succ]

/-- However the child completes with a value, the loop is entered with `d_ready`
set, by the nested `next` or by a new one. -/
theorem run_value {k : Nat} (hr : env.result k = .value) (nested : Bool) :
    Steps env (inRun k nested) (atLoop k) := by
  cases hi : env.inline k <;> cases nested
  · exact ⟨3, by simp [inRun, atLoop, step, hr, hi]⟩
  · exact ⟨5, by simp [inRun, atLoop, step, hr, hi]⟩
  · exact ⟨2, by simp [inRun, atLoop, step, hr, hi]⟩
  · exact ⟨2, by simp [inRun, atLoop, step, hr, hi]⟩

/-- However the child completes otherwise, the operation completes with that and
the loop, if there is one, ends. -/
theorem run_other {k : Nat} (hr : env.result k ≠ .value) (nested : Bool) :
    ∃ s', Steps env (inRun k nested) s' ∧ s'.halted ∧
      s'.log = before k ++ [.start k] ++ [.complete (env.result k)] := by
  cases hi : env.inline k <;> cases nested
  · refine ⟨_, ⟨2, rfl⟩, ?_⟩
    cases hres : env.result k <;> simp_all [inRun, step, State.complete, State.halted]
  · refine ⟨_, ⟨4, rfl⟩, ?_⟩
    cases hres : env.result k <;> simp_all [inRun, step, State.complete, State.halted]
  · refine ⟨_, ⟨1, rfl⟩, ?_⟩
    cases hres : env.result k <;> simp_all [inRun, step, State.complete, State.halted]
  · refine ⟨_, ⟨3, rfl⟩, ?_⟩
    cases hres : env.result k <;> simp_all [inRun, step, State.complete, State.halted]

/-- The rest of a turn after a value, if it is the last one. -/
theorem loop_end {k : Nat} {evs : List (Event ε)} (hr : env.result k = .value)
    (ha : env.after k = some evs) :
    ∃ s', Steps env (atLoop k) s' ∧ s'.halted ∧ s'.log = before k ++ [.start k] ++ evs := by
  simp only [Env.after, hr] at ha
  split at ha
  · next hs =>
    cases ha
    refine ⟨_, ⟨2, rfl⟩, ?_⟩
    simp [atLoop, step, hs, State.complete, State.halted]
  · next hs =>
    have hs' : env.stop_requested k = false := by simpa using hs
    split at ha
    · next x hp =>
      cases ha
      refine ⟨_, ⟨3, rfl⟩, ?_⟩
      simp [atLoop, step, hs', hp, State.call, State.complete, State.halted]
    · next hp =>
      cases ha
      refine ⟨_, ⟨3, rfl⟩, ?_⟩
      simp [atLoop, step, hs', hp, State.call, State.complete, State.halted]
    · cases ha

/-- The loop goes on after run `k`. -/
theorem after_none {k : Nat} (ha : env.after k = none) : env.result k = .value ∧
    env.stop_requested k = false ∧ env.predicate k = .returns false := by
  unfold Env.after at ha
  split at ha
  · cases ha
  · cases ha
  · next hr =>
    split at ha
    · cases ha
    · next hs =>
      split at ha
      · cases ha
      · cases ha
      · next hp => exact ⟨hr, by simpa using hs, hp⟩

/-- The rest of a turn after which there is another one. -/
theorem loop_next {k : Nat} (ha : env.after k = none) :
    env.result k = .value ∧ Steps env (atLoop k) (inRun (k + 1) true) := by
  obtain ⟨hr, hs, hp⟩ := after_none ha
  refine ⟨hr, 3, ?_⟩
  simp [atLoop, inRun, step, hs, hp, State.call, State.launch, before_succ]

/-- One turn of the machine that is not the last one. -/
theorem run_turn {k : Nat} (ha : env.after k = none) (nested : Bool) :
    Steps env (inRun k nested) (inRun (k + 1) true) :=
  (run_value (loop_next ha).1 nested).trans (loop_next ha).2

/-- The last turn of the machine. -/
theorem run_end {k : Nat} {evs : List (Event ε)} (ha : env.after k = some evs) (nested : Bool) :
    ∃ s', Steps env (inRun k nested) s' ∧ s'.halted ∧ s'.log = before k ++ [.start k] ++ evs := by
  cases hr : env.result k with
  | value =>
    obtain ⟨s', hs, hlog⟩ := loop_end hr ha
    exact ⟨s', (run_value hr nested).trans hs, hlog⟩
  | error e =>
    obtain ⟨s', hs, hhalt, hlog⟩ := run_other (by rw [hr]; exact fun h => by cases h) nested
    refine ⟨s', hs, hhalt, ?_⟩
    rw [hlog, hr]
    simp only [Env.after, hr, Option.some.injEq] at ha
    rw [ha]
  | stopped =>
    obtain ⟨s', hs, hhalt, hlog⟩ := run_other (by rw [hr]; exact fun h => by cases h) nested
    refine ⟨s', hs, hhalt, ?_⟩
    rw [hlog, hr]
    simp only [Env.after, hr, Option.some.injEq] at ha
    rw [ha]

/-- One turn of the reference loop. -/
theorem reference_succ (fuel k : Nat) :
    reference env (fuel + 1) k = .start k :: match env.after k with
      | some evs => evs
      | none => .predicate k :: reference env fuel (k + 1) := by
  simp only [reference, Env.after]
  cases env.result k with
  | error e => rfl
  | stopped => rfl
  | value =>
    cases env.stop_requested k with
    | true => rfl
    | false =>
      cases hp : env.predicate k with
      | throws x => rfl
      | returns b => cases b <;> rfl

/-- The reference loop after `k` turns that are not the last one. -/
theorem reference_before {k : Nat} (hk : ∀ i < k, env.after i = none) (fuel : Nat) :
    reference env (k + fuel) 0 = before k ++ reference env fuel k := by
  induction k generalizing fuel with
  | zero => simp [before]
  | succ k ih =>
    rw [show k + 1 + fuel = k + (fuel + 1) by omega, ih (fun i hi => hk i (by omega)),
      reference_succ, hk k (by omega), before_succ]
    simp

/-! ### The whole run -/

theorem forever_or_last (env : Env ε) : env.Forever ∨ ∃ k evs, env.Last k evs := by
  by_cases h : ∃ k, env.after k ≠ none
  · classical
    obtain ⟨evs, he⟩ := Option.ne_none_iff_exists'.mp (Nat.find_spec h)
    exact .inr ⟨Nat.find h, evs, fun i hi => not_not.mp (Nat.find_min h hi), he⟩
  · exact .inl fun k => not_not.mp fun hk => h ⟨k, hk⟩

/-- After `k` turns that are not the last one run `k` begins, at step `k` or later. -/
theorem run_before {k : Nat} (hk : ∀ i < k, env.after i = none) :
    ∃ n nested, k ≤ n ∧ run env n = inRun k nested := by
  induction k with
  | zero =>
    refine ⟨1, false, by omega, ?_⟩
    simp [run, State.initial, step, State.launch, inRun, before]
  | succ k ih =>
    obtain ⟨n, nested, hn, hr⟩ := ih fun i hi => hk i (by omega)
    obtain ⟨m, hm⟩ := run_turn (hk k (by omega)) nested
    refine ⟨m + 1 + n, true, by omega, ?_⟩
    rw [run, Function.iterate_add_apply, ← run, hr, hm]

theorem run_last {k : Nat} {evs : List (Event ε)} (h : env.Last k evs) :
    ∃ n, (run env n).halted ∧ (run env n).log = before k ++ [.start k] ++ evs := by
  obtain ⟨n, nested, _, hr⟩ := run_before h.earlier
  obtain ⟨s', ⟨m, rfl⟩, hs⟩ := run_end h.last nested
  refine ⟨m + 1 + n, ?_⟩
  rw [run, Function.iterate_add_apply, ← run, hr]
  exact hs

theorem step_halted {s : State ε} (h : s.halted) : step env s = s := by
  unfold step
  rw [h.1, h.2]

theorem run_halted {n m : Nat} (h : (run env n).halted) (hm : n ≤ m) : run env m = run env n := by
  obtain ⟨d, rfl⟩ := Nat.exists_eq_add_of_le hm
  rw [Nat.add_comm, run, Function.iterate_add_apply, ← run]
  exact Function.iterate_fixed (step_halted h) d

/-- Steps only append to the log. -/
theorem log_step (s : State ε) : s.log <+: (step env s).log := by
  fun_cases step env s <;>
    first | simp [State.launch, State.call, State.complete]; done | exact ⟨[.predicate s.calls], rfl⟩

theorem log_mono {n m : Nat} (hm : n ≤ m) : (run env n).log <+: (run env m).log := by
  induction hm with
  | refl => exact List.prefix_rfl
  | step _ ih =>
    refine ih.trans ?_
    rw [run, run, Function.iterate_succ_apply']
    exact log_step _

/-! ### Completions and child states -/

theorem completions_before (k : Nat) : completions (before (ε := ε) k) = 0 := by
  unfold completions before
  rw [List.countP_eq_zero]
  intro e he
  obtain ⟨i, _, hi⟩ := List.mem_flatMap.mp he
  simp only [List.mem_cons, List.not_mem_nil, or_false] at hi
  rcases hi with rfl | rfl <;> simp [Event.completion]

theorem completions_after {k : Nat} {evs : List (Event ε)} (ha : env.after k = some evs) :
    completions evs = 1 := by
  unfold Env.after at ha
  split at ha
  · cases ha; rfl
  · cases ha; rfl
  · split at ha
    · cases ha; rfl
    · split at ha
      · cases ha; rfl
      · cases ha; rfl
      · cases ha

theorem completions_reference (fuel k : Nat) : completions (reference env fuel k) ≤ 1 := by
  induction fuel generalizing k with
  | zero => exact Nat.zero_le 1
  | succ fuel ih =>
    rw [reference_succ]
    cases ha : env.after k with
    | none => simpa [completions, Event.completion] using ih (k + 1)
    | some evs => simpa [completions, Event.completion] using (completions_after ha).le

/-- Only `start` and the loop make a child state, and the loop destroys the
previous one first. -/
theorem alive_step {s : State ε}
    (h : s.stack = [.start] ∧ s.alive = [] ∨ .start ∉ s.stack ∧ s.alive.length = 1) :
    (step env s).stack = [.start] ∧ (step env s).alive = [] ∨
      .start ∉ (step env s).stack ∧ (step env s).alive.length = 1 := by
  fun_cases step env s <;> simp_all [State.launch, State.call, State.complete] <;> exact h.2

theorem not_halted_inRun (k : Nat) (nested : Bool) : ¬ (inRun (ε := ε) k nested).halted :=
  fun h => by cases h.1

/-! ### What happens at all -/

theorem mem_before {k : Nat} {e : Event ε} :
    e ∈ before k ↔ ∃ i < k, e = .start i ∨ e = .predicate i := by
  simp [before]

theorem after_events {k : Nat} {evs : List (Event ε)} (ha : env.after k = some evs) (i : Nat) :
    .start i ∉ evs := by
  unfold Env.after at ha
  split at ha
  · cases ha; simp
  · cases ha; simp
  · split at ha
    · cases ha; simp
    · split at ha
      · cases ha; simp
      · cases ha; simp
      · cases ha

/-- The log is part of that of the turns so far, with the end if there is one. -/
theorem log_turns (env : Env ε) (n : Nat) :
    (env.Forever ∧ (run env n).log <+: before n ++ [.start n]) ∨
      ∃ k evs, env.Last k evs ∧ (run env n).log <+: before k ++ [.start k] ++ evs := by
  rcases forever_or_last env with hf | ⟨k, evs, hl⟩
  · obtain ⟨N, nested, hN, hr⟩ := run_before (k := n) fun i _ => hf i
    refine .inl ⟨hf, (log_mono hN).trans ?_⟩
    rw [hr]
    exact List.prefix_rfl
  · obtain ⟨N, hhalt, hlog⟩ := run_last hl
    refine .inr ⟨k, evs, hl, ?_⟩
    rw [← hlog]
    rcases Nat.le_total n N with hn | hn
    · exact log_mono hn
    · rw [run_halted hhalt hn]

theorem start_iff (k : Nat) :
    (∃ n, .start k ∈ (run env n).log) ↔ ∀ i < k, env.after i = none := by
  constructor
  · rintro ⟨n, hn⟩ i hi
    rcases log_turns env n with ⟨hf, -⟩ | ⟨K, evs, hl, hlog⟩
    · exact hf i
    · have hmem := hlog.subset hn
      simp only [List.mem_append, List.mem_singleton, Event.start.injEq,
        after_events hl.last, or_false, mem_before] at hmem
      refine hl.earlier i ?_
      rcases hmem with ⟨j, hj, he | he⟩ | rfl
      · cases he
        omega
      · cases he
      · exact hi
  · intro hk
    obtain ⟨n, nested, -, hr⟩ := run_before hk
    refine ⟨n, ?_⟩
    rw [hr]
    simp [inRun]

theorem complete_iff (r : Result ε) :
    (∃ n, .complete r ∈ (run env n).log) ↔ ∃ k evs, env.Last k evs ∧ .complete r ∈ evs := by
  constructor
  · rintro ⟨n, hn⟩
    rcases log_turns env n with ⟨-, hlog⟩ | ⟨k, evs, hl, hlog⟩
    · have hmem := hlog.subset hn
      simp [mem_before] at hmem
    · have hmem := hlog.subset hn
      simp only [List.mem_append, List.mem_singleton, mem_before, reduceCtorEq, or_self, and_false,
        exists_false, false_or] at hmem
      exact ⟨k, evs, hl, hmem⟩
  · rintro ⟨k, evs, hl, hr⟩
    obtain ⟨n, -, hlog⟩ := run_last hl
    refine ⟨n, ?_⟩
    rw [hlog]
    exact List.mem_append_right _ hr

end RepeatEffectUntilLemmas

open RepeatEffectUntilLemmas

/-! ## 2. The events of the run -/

theorem same_events (env : Env ε) :
    (∀ n, ∃ m, (run env n).log <+: reference env m 0) ∧
    (∀ m, ∃ n, reference env m 0 <+: (run env n).log) := by
  -- `m` turns of both, none of them the last one
  have turns : ∀ m, (∀ i < m, env.after i = none) →
      ∃ n, m ≤ n ∧ (run env n).log = before m ++ [.start m] := by
    intro m hm
    obtain ⟨n, nested, hn, hr⟩ := run_before hm
    exact ⟨n, hn, by rw [hr]; rfl⟩
  rcases forever_or_last env with hf | ⟨k, evs, hl⟩
  · refine ⟨fun n => ⟨n + 1, ?_⟩, fun m => ?_⟩
    · obtain ⟨N, hN, hlog⟩ := turns n fun i _ => hf i
      refine (log_mono hN).trans ?_
      rw [hlog, reference_before fun i _ => hf i, reference_succ]
      exact List.prefix_append_right_inj _ |>.mpr ⟨_, rfl⟩
    · obtain ⟨N, _, hlog⟩ := turns m fun i _ => hf i
      refine ⟨N, ?_⟩
      rw [hlog, show m = m + 0 from rfl, reference_before fun i _ => hf i]
      exact List.prefix_append_right_inj _ |>.mpr List.nil_prefix
  · obtain ⟨N, hhalt, hlog⟩ := run_last hl
    have href : ∀ fuel, reference env (k + (fuel + 1)) 0 = (run env N).log := by
      intro fuel
      rw [reference_before hl.earlier, reference_succ, hl.last, hlog, List.append_assoc]
      rfl
    refine ⟨fun n => ⟨k + 1, ?_⟩, fun m => ?_⟩
    · rw [href 0]
      rcases Nat.le_total n N with hn | hn
      · exact log_mono hn
      · rw [run_halted hhalt hn]
    · rcases Nat.lt_or_ge k m with hm | hm
      · obtain ⟨fuel, rfl⟩ := Nat.exists_eq_add_of_lt hm
        exact ⟨N, by rw [Nat.add_assoc, href]⟩
      · have hm' : ∀ i < m, env.after i = none := fun i hi => hl.earlier i (by omega)
        obtain ⟨n, _, hlog'⟩ := turns m hm'
        refine ⟨n, ?_⟩
        rw [hlog', show m = m + 0 from rfl, reference_before hm']
        exact List.prefix_append_right_inj _ |>.mpr List.nil_prefix

/-! ## 3. Child states and completions -/

theorem one_child (env : Env ε) (n : Nat) : (run env n).alive.length ≤ 1 := by
  have key : (run env n).stack = [.start] ∧ (run env n).alive = [] ∨
      .start ∉ (run env n).stack ∧ (run env n).alive.length = 1 := by
    induction n with
    | zero => exact .inl ⟨rfl, rfl⟩
    | succ n ih =>
      rw [run, Function.iterate_succ_apply']
      exact alive_step ih
  rcases key with ⟨_, h⟩ | ⟨_, h⟩
  · simp [h]
  · exact h.le

/-- There is at most one completion; there is one when nothing is left to do,
and that is so after the last turn of the reference loop. -/
theorem one_completion (env : Env ε) :
    (∀ n, completions (run env n).log ≤ 1) ∧
    (∀ n, (run env n).halted → completions (run env n).log = 1) ∧
    ((∃ m r, Event.complete r ∈ reference env m 0) → ∃ n, (run env n).halted) := by
  refine ⟨fun n => ?_, fun n hn => ?_, ?_⟩
  · obtain ⟨m, hm⟩ := (same_events env).1 n
    exact (hm.sublist.countP_le).trans (completions_reference m 0)
  · rcases forever_or_last env with hf | ⟨k, evs, hl⟩
    · obtain ⟨N, nested, hN, hr⟩ := run_before (k := n) fun i _ => hf i
      rw [run_halted hn hN] at hr
      exact absurd (hr ▸ hn) (not_halted_inRun n nested)
    · obtain ⟨N, hhalt, hlog⟩ := run_last hl
      have hsame : run env n = run env N := by
        rcases Nat.le_total n N with h | h
        · exact (run_halted hn h).symm
        · exact run_halted hhalt h
      have hb := completions_before (ε := ε) k
      have ha := completions_after hl.last
      rw [hsame, hlog]
      simp only [completions, List.countP_append] at hb ha ⊢
      rw [hb, ha]
      rfl
  · rintro ⟨m, r, hr⟩
    rcases forever_or_last env with hf | ⟨k, evs, hl⟩
    · rw [show m = m + 0 from rfl, reference_before fun i _ => hf i] at hr
      simp [before, reference] at hr
    · obtain ⟨N, hhalt, _⟩ := run_last hl
      exact ⟨N, hhalt⟩

/-- `start` and `next` behave like the reference loop: the events of the two are
prefixes of each other, at most one child state is alive, and the outer receiver
is completed exactly once, namely when the reference loop ends. -/
theorem runs_reference_loop (env : Env ε) :
    (∀ n, ∃ m, (run env n).log <+: reference env m 0) ∧
    (∀ m, ∃ n, reference env m 0 <+: (run env n).log) ∧
    (∀ n, (run env n).alive.length ≤ 1) ∧
    (∀ n, completions (run env n).log ≤ 1) ∧
    (∀ n, (run env n).halted → completions (run env n).log = 1) ∧
    ((∃ m r, Event.complete r ∈ reference env m 0) → ∃ n, (run env n).halted) :=
  ⟨(same_events env).1, (same_events env).2, one_child env, one_completion env⟩

end Kuhllib.RepeatEffectUntil
