import Kuhllib.Execution.RepeatEffectUntil

/-!
# The child state of `repeat_effect_until`

`d_internal_state` is a union whose `internal_state` is destroyed and constructed again by
each turn of the loop, `d_engaged` says whether the destructor of `state` has to destroy it.
Copying the sender and connecting it may throw. `start()` is `noexcept`: what is thrown
there ends the program.

`destroys_once`: each child state is destroyed once, and no destructor runs on storage
without one, if and only if the loop never comes to a construction that throws.
-/

namespace Kuhllib.RepeatEffectUntil

/-- What constructing the `k`-th child state throws, `k` from 1 on. -/
structure Throws (ε : Type) extends Env ε where
  copy : Nat → Option ε
  connect : Nat → Option ε

/-- `Sender(…)` is copied before `connect` is called. -/
def Throws.construct (t : Throws ε) (k : Nat) : Option ε := (t.copy k).or (t.connect k)

/-- The child states destroyed so far; `undefined` once a destructor has run without one. -/
structure Storage (ε : Type) where
  op : State ε
  destroyed : List Nat
  undefined : Bool
  deriving DecidableEq, Repr

variable {ε : Type}

def Storage.initial : Storage ε := ⟨.initial, [], false⟩

/-- `d_internal_state.d_state.~internal_state()`. -/
def Storage.destroy (x : Storage ε) : Storage ε :=
  match x.op.alive with
  | k :: ks => { x with op := { x.op with alive := ks }, destroyed := x.destroyed ++ [k] }
  | [] => { x with undefined := true }

/-- `~state()`. -/
def Storage.destruct (x : Storage ε) : Storage ε := if x.op.d_engaged then x.destroy else x

/-- `step` with the constructions that throw; the `lock_guard` is destroyed on the way to the
handler. -/
def Throws.step (t : Throws ε) (x : Storage ε) : Storage ε :=
  match x.op.stack with
  | .restart :: fs =>
    let y := x.destroy
    match t.construct x.op.runs with
    | none => { y with op := y.op.launch (.loop :: fs) }
    | some e => { y with op := { y.op with stack := .caught e :: fs, d_running := false } }
  | _ => { x with op := RepeatEffectUntil.step t.toEnv x.op }

def Throws.run (t : Throws ε) (n : Nat) : Storage ε := t.step^[n] Storage.initial

/-- Step `n` constructs no child state in the loop, or nothing is thrown. -/
def Throws.Constructs (t : Throws ε) (n : Nat) : Prop :=
  ∀ fs, (t.run n).op.stack = .restart :: fs → t.construct (t.run n).op.runs = none

/-- The state may be destroyed from the completion on. -/
structure Throws.DestroysOnce (t : Throws ε) : Prop where
  defined : ∀ n, (t.run n).undefined = false
  destroyed : ∀ n, completions (t.run n).op.log ≠ 0 → (t.run n).destruct.undefined = false ∧
    (t.run n).destruct.destroyed = List.range (t.run n).op.runs
  completions_le : ∀ n, completions (t.run n).op.log ≤ 1
  completed : ∀ n, (t.run n).op.halted → completions (t.run n).op.log = 1
  set_error : ∀ n x fs, (t.run n).op.stack = .caught x :: fs →
    (t.run (n + 1)).op.log = (t.run n).op.log ++ [.complete (.error x)]

namespace RepeatStorageLemmas

variable {t : Throws ε} {x : Storage ε} {env : Env ε} {s : State ε}

theorem run_succ (t : Throws ε) (n : Nat) : t.run (n + 1) = t.step (t.run n) :=
  Function.iterate_succ_apply' t.step n Storage.initial

theorem destroy_op (x : Storage ε) : x.destroy.op = { x.op with alive := x.op.alive.tail } := by
  unfold Storage.destroy
  split
  · next k ks h => simp [h]
  · next h => rw [show x.op.alive.tail = x.op.alive by rw [h, List.tail_nil]]

/-- Where no construction throws, the operation does what it does without `Throws`. -/
theorem step_op (h : ∀ fs, x.op.stack = .restart :: fs → t.construct x.op.runs = none) :
    (t.step x).op = step t.toEnv x.op := by
  unfold Throws.step
  split
  · next fs hfs =>
    simp only [h fs hfs, destroy_op]
    unfold step
    rw [hfs]
  · rfl

theorem step_throws {fs : List (Frame ε)} {e : ε} (hfs : x.op.stack = .restart :: fs)
    (he : t.construct x.op.runs = some e) : t.step x = { x.destroy with
      op := { x.op with alive := x.op.alive.tail, stack := .caught e :: fs, d_running := false } } := by
  unfold Throws.step
  rw [hfs]
  simp only [he, destroy_op]

theorem step_caught {fs : List (Frame ε)} {e : ε} (hfs : x.op.stack = .caught e :: fs) :
    t.step x = { x with op := x.op.complete (.error e) fs } := by
  unfold Throws.step
  rw [hfs]
  simp only [step, hfs]

/-- Only `start` and the loop touch the child state. -/
theorem step_frame (env : Env ε) (hs : .start ∉ s.stack) (hr : ∀ fs, s.stack ≠ .restart :: fs) :
    .start ∉ (step env s).stack ∧ (step env s).d_engaged = s.d_engaged ∧
      (step env s).alive = s.alive ∧ (step env s).runs = s.runs := by
  fun_cases step env s <;> simp_all [State.call, State.complete] <;> exact ⟨rfl, rfl, rfl⟩

/-- Whatever throws, the holder is engaged from `start` on. -/
theorem engaged_step (h : x.op.stack = [.start] ∧ x.op.alive = [] ∨
      .start ∉ x.op.stack ∧ x.op.d_engaged = true ∧ x.op.alive.length ≤ 1) :
    .start ∉ (t.step x).op.stack ∧ (t.step x).op.d_engaged = true ∧
      (t.step x).op.alive.length ≤ 1 := by
  rcases h with ⟨hstack, halive⟩ | ⟨hstart, hengaged, halive⟩
  · unfold Throws.step
    rw [hstack]
    simp [step, hstack, halive, State.launch]
  · unfold Throws.step
    split
    · next fs hfs =>
      have hfs' : .start ∉ fs := fun h => hstart (by rw [hfs]; exact List.mem_cons_of_mem _ h)
      have htail : x.op.alive.length - 1 = 0 := by omega
      split
      · simp [destroy_op, State.launch, hfs', hengaged, htail]
      · simp [destroy_op, hfs', hengaged, htail]
    · next hr =>
      obtain ⟨h1, h2, h3, -⟩ := step_frame t.toEnv hstart hr
      exact ⟨h1, h2.trans hengaged, by rw [h3]; exact halive⟩

theorem run_engaged (t : Throws ε) (n : Nat) :
    (t.run n).op.stack = [.start] ∧ (t.run n).op.alive = [] ∨ .start ∉ (t.run n).op.stack ∧
      (t.run n).op.d_engaged = true ∧ (t.run n).op.alive.length ≤ 1 := by
  induction n with
  | zero => exact .inl ⟨rfl, rfl⟩
  | succ n ih =>
    rw [run_succ]
    exact .inr (engaged_step ih)

/-- The holder has the last child state, and those before have been destroyed. -/
structure Holds (x : Storage ε) : Prop where
  start : .start ∉ x.op.stack
  engaged : x.op.d_engaged = true
  alive : ∃ k, x.op.alive = [k] ∧ x.op.runs = k + 1 ∧ x.destroyed = List.range k
  defined : x.undefined = false

theorem holds_step (h : Holds x)
    (hc : ∀ fs, x.op.stack = .restart :: fs → t.construct x.op.runs = none) :
    Holds (t.step x) := by
  obtain ⟨k, halive, hruns, hdestroyed⟩ := h.alive
  unfold Throws.step
  split
  · next fs hfs =>
    have hfs' : .start ∉ fs := fun hmem => h.start (by rw [hfs]; exact List.mem_cons_of_mem _ hmem)
    have hdestroy : x.destroy = { x with
        op := { x.op with alive := [] }, destroyed := x.destroyed ++ [k] } := by
      simp [Storage.destroy, halive]
    simp only [hc fs hfs, hdestroy]
    refine ⟨?_, h.engaged, ⟨k + 1, ?_, ?_, ?_⟩, h.defined⟩
    · simp [State.launch, hfs']
    · simp [State.launch, hruns]
    · simp [State.launch, hruns]
    · rw [hdestroyed, List.range_succ]
  · next hr =>
    obtain ⟨h1, h2, h3, h4⟩ := step_frame t.toEnv h.start hr
    exact ⟨h1, h2.trans h.engaged, ⟨k, h3.trans halive, h4.trans hruns, hdestroyed⟩, h.defined⟩

theorem holds_start : Holds (t.step Storage.initial) where
  start := by simp [Throws.step, Storage.initial, State.initial, step, State.launch]
  engaged := rfl
  alive := ⟨0, rfl, rfl, rfl⟩
  defined := rfl

/-- The last child state is destroyed with the holder. -/
theorem holds_destruct (h : Holds x) :
    x.destruct.undefined = false ∧ x.destruct.destroyed = List.range x.op.runs := by
  obtain ⟨k, halive, hruns, hdestroyed⟩ := h.alive
  have hdestruct : x.destruct = { x with
      op := { x.op with alive := [] }, destroyed := x.destroyed ++ [k] } := by
    simp [Storage.destruct, h.engaged, Storage.destroy, halive]
  rw [hdestruct]
  exact ⟨h.defined, by rw [hdestroyed, hruns, List.range_succ]⟩

end RepeatStorageLemmas

open RepeatStorageLemmas

section Constructs

variable {t : Throws ε}

/-- Up to the first construction that throws the runs are those of `runs_reference_loop`, and the
holder has the child state that was constructed last. -/
theorem run_holds {n : Nat} (h : ∀ m < n, t.Constructs m) :
    (t.run n).op = run t.toEnv n ∧ (0 < n → Holds (t.run n)) := by
  induction n with
  | zero => exact ⟨rfl, fun hn => absurd hn (Nat.lt_irrefl 0)⟩
  | succ n ih =>
    obtain ⟨hop, hholds⟩ := ih fun m hm => h m (Nat.lt_succ_of_lt hm)
    refine ⟨?_, fun _ => ?_⟩
    · rw [run_succ, step_op (h n (Nat.lt_succ_self n)), hop, run, run,
        Function.iterate_succ_apply']
    · rw [run_succ]
      rcases Nat.eq_zero_or_pos n with rfl | hn
      · exact holds_start
      · exact holds_step (hholds hn) (h n (Nat.lt_succ_self n))

theorem destroysOnce_of_constructs (h : ∀ n, t.Constructs n) : t.DestroysOnce where
  defined n := by
    cases n with
    | zero => rfl
    | succ n => exact ((run_holds fun m _ => h m).2 n.succ_pos).defined
  destroyed n hn := by
    cases n with
    | zero => exact absurd rfl hn
    | succ n => exact holds_destruct ((run_holds fun m _ => h m).2 n.succ_pos)
  completions_le n := by
    rw [(run_holds fun m _ => h m).1]
    exact (one_completion t.toEnv).1 n
  completed n hn := by
    rw [(run_holds fun m _ => h m).1] at hn ⊢
    exact (one_completion t.toEnv).2.1 n hn
  set_error n x fs hfs := by
    rw [run_succ, step_caught hfs]
    rfl

/-- A construction that throws leaves the holder empty and `d_engaged` set. -/
theorem undefined_of_throws {n : Nat} {fs : List (Frame ε)} {e : ε}
    (hfs : (t.run n).op.stack = .restart :: fs) (he : t.construct (t.run n).op.runs = some e) :
    completions (t.run (n + 2)).op.log ≠ 0 ∧ (t.run (n + 2)).destruct.undefined = true := by
  have hthrows := step_throws hfs he
  rw [← run_succ] at hthrows
  have hcaught : (t.run (n + 1)).op.stack = .caught e :: fs := by rw [hthrows]
  have hlast := step_caught (t := t) hcaught
  rw [← run_succ] at hlast
  have halive : (t.run (n + 2)).op.alive = [] := by
    rcases run_engaged t n with ⟨hstack, -⟩ | ⟨-, -, hlength⟩
    · rw [hstack] at hfs
      cases hfs
    · rw [hlast, hthrows]
      exact List.length_eq_zero_iff.mp (by simp [State.complete]; omega)
  have hengaged : (t.run (n + 2)).op.d_engaged = true := by
    rcases run_engaged t n with ⟨hstack, -⟩ | ⟨-, hengaged, -⟩
    · rw [hstack] at hfs
      cases hfs
    · rw [hlast, hthrows]
      exact hengaged
  refine ⟨?_, ?_⟩
  · rw [hlast]
    simp [State.complete, completions, Event.completion]
  · simp [Storage.destruct, hengaged, Storage.destroy, halive]

end Constructs

/-! ## 2. The constructions of the loop -/

open RepeatEffectUntilLemmas

def Event.isStart : Event ε → Bool
  | .start _ => true
  | _ => false

namespace RepeatStorageLemmas

variable {t : Throws ε} {env : Env ε}

theorem starts_step {s : State ε} (h : s.log.countP Event.isStart = s.runs) :
    (step env s).log.countP Event.isStart = (step env s).runs := by
  have hcall : s.call.log.countP Event.isStart = s.log.countP Event.isStart := by
    simp [State.call, Event.isStart]
  fun_cases step env s <;>
    first
      | simp_all [State.launch, State.call, State.complete, List.countP_cons, Event.isStart]; done
      | exact hcall.trans h

theorem starts_run (env : Env ε) (n : Nat) :
    (run env n).log.countP Event.isStart = (run env n).runs := by
  induction n with
  | zero => rfl
  | succ n ih =>
    rw [run, Function.iterate_succ_apply']
    exact starts_step ih

theorem starts_before (k : Nat) : (before (ε := ε) k).countP Event.isStart = k := by
  induction k with
  | zero => rfl
  | succ k ih => simp [before_succ, ih, List.countP_cons, Event.isStart]

theorem starts_after {k : Nat} {evs : List (Event ε)} (ha : env.after k = some evs) :
    evs.countP Event.isStart = 0 := by
  unfold Env.after at ha
  split at ha
  · cases ha; rfl
  · cases ha; rfl
  · split at ha
    · cases ha; rfl
    · split at ha
      · cases ha; rfl
      · cases ha; rfl
      · cases ha

/-- No more child states are constructed than there are turns. -/
theorem runs_le {k : Nat} {evs : List (Event ε)} (h : env.Last k evs) (n : Nat) :
    (run env n).runs ≤ k + 1 := by
  obtain ⟨N, hhalt, hlog⟩ := run_last h
  have hprefix : (run env n).log <+: (run env N).log := by
    rcases Nat.le_total n N with hn | hn
    · exact log_mono hn
    · rw [run_halted hhalt hn]
  have hcount := hprefix.sublist.countP_le (p := Event.isStart)
  rw [starts_run, hlog] at hcount
  simpa [starts_before, starts_after h.last, List.countP_cons, Event.isStart] using hcount

/-- Where the loop constructs a child state, all turns before have gone on. -/
theorem after_of_restart {n : Nat} {fs : List (Frame ε)} {k : Nat}
    (hfs : (run env n).stack = .restart :: fs) (hruns : (run env n).runs = k + 1) :
    ∀ i ≤ k, env.after i = none := by
  intro i hi
  rcases forever_or_last env with hf | ⟨j, evs, hl⟩
  · exact hf i
  · have hnext : (run env (n + 1)).runs = (run env n).runs + 1 := by
      rw [run, Function.iterate_succ_apply', ← run, step, hfs]
      rfl
    have hle := runs_le hl (n + 1)
    exact hl.earlier i (by omega)

/-- After a turn that goes on the loop constructs the next child state. -/
theorem restart_of_after {k : Nat} (h : ∀ i ≤ k, env.after i = none) :
    ∃ n, (run env n).stack = [.restart] ∧ (run env n).runs = k + 1 := by
  obtain ⟨n, nested, -, hn⟩ := run_before fun i hi => h i (Nat.le_of_lt hi)
  obtain ⟨hr, hs, hp⟩ := after_none (h k (Nat.le_refl k))
  obtain ⟨m, hm⟩ := run_value hr nested
  refine ⟨3 + (m + 1 + n), ?_⟩
  rw [run, Function.iterate_add_apply, Function.iterate_add_apply _ (m + 1), ← run, hn, hm]
  simp [atLoop, step, hs, hp, State.call]

/-- The constructions of the runs are those after a turn that goes on. -/
theorem constructs_iff (t : Throws ε) :
    (∀ n, t.Constructs n) ↔ ∀ k, (∀ i ≤ k, t.after i = none) → t.construct (k + 1) = none := by
  constructor
  · intro h k hk
    obtain ⟨n, hstack, hruns⟩ := restart_of_after hk
    rw [← (run_holds fun m _ => h m).1] at hstack hruns
    rw [← hruns]
    exact h n [] hstack
  · intro h n
    induction n using Nat.strong_induction_on with
    | _ n ih =>
      intro fs hfs
      obtain ⟨hop, hholds⟩ := run_holds ih
      have hn : 0 < n := by
        rcases Nat.eq_zero_or_pos n with rfl | hn
        · cases hfs
        · exact hn
      obtain ⟨k, -, hruns, -⟩ := (hholds hn).alive
      rw [hruns]
      rw [hop] at hfs hruns
      exact h k (after_of_restart hfs hruns)

end RepeatStorageLemmas

/-- For every number of turns and whatever the sender, the predicate and the children do: nothing
may be thrown by the construction after a turn that goes on. -/
theorem destroys_once (t : Throws ε) : t.DestroysOnce ↔
    ∀ k, (∀ i ≤ k, t.after i = none) → t.construct (k + 1) = none := by
  rw [← constructs_iff]
  constructor
  · intro h n fs hfs
    by_contra hne
    obtain ⟨e, he⟩ := Option.ne_none_iff_exists'.mp hne
    obtain ⟨hcompleted, hundefined⟩ := undefined_of_throws hfs he
    rw [(h.destroyed (n + 2) hcompleted).1] at hundefined
    cases hundefined
  · exact destroysOnce_of_constructs

/-- The second child cannot be connected. -/
def throwing : Throws Unit where
  result _ := .value
  inline _ := true
  stop_requested _ := false
  predicate _ := .returns false
  copy _ := none
  connect _ := some ()

/-- The first child state is destroyed by the loop, and again by `~state()`. -/
theorem not_destroys_once : ¬ throwing.DestroysOnce :=
  fun h => absurd (h.destroyed 9 (by decide)).1 (by decide)

end Kuhllib.RepeatEffectUntil
