import Kuhllib.Execution.Timeout
import Kuhllib.Execution.WhenAll

/-!
# Completion under a running stop source

`when_all` and `timeout` keep their stop source in the state that the completion
of the outer receiver may destroy. A failing child and `sender_receiver` call
`stop()` before they count themselves done, `on_stop` of `when_all` and
`timer_done` do not.

Results, for every interleaving:
1. `WhenAll.safe_run`: the receiver of `when_all` is not completed under a
   `stop()` of its source, as long as the last child does not count itself done
   while `on_stop` executes.
2. `Timeout.safe_run`: the same for the sender of `timeout` and `timer_done`.
3. `not_completed_while_stopping`: both, and a step of another kind leads to a
   violation.
-/

namespace Kuhllib

open Transition

/-! ## 1. `when_all` -/

namespace WhenAll

variable {n : Nat} {ν ε : Type}

/-- The `on_stop` callback executes. -/
def State.inOnStop (s : State n ν ε) : Prop := s.onStop = .running ∨ s.onStop = .notifying

/-- A child is about to call `stop()` or has not returned from it. -/
def State.childStops (s : State n ν ε) : Prop :=
  ∃ i sig, s.child i = .signalled sig .stopping ∨ s.child i = .signalled sig .notifying

def State.completing (s : State n ν ε) : Prop := ∃ i sig, s.child i = .signalled sig .completing

/-- The receiver has not been completed under a call of `stop()` or under
`on_stop`. -/
def Safe (s : State n ν ε) : Prop := s.completions ≠ [] → ¬ s.inOnStop ∧ ¬ s.childStops

/-- The last decrement of `d_count` is not made while `on_stop` executes, and
`on_stop` is not started after it. -/
def Clear (s : State n ν ε) : Label n ν ε → Prop
  | .count _ => s.d_count = 1 → ¬ s.inOnStop
  | .onStop => ¬ s.completing
  | _ => True

/-- In clear runs `on_stop` is over when the last child has counted itself done. -/
structure Apart (s : State n ν ε) : Prop where
  onStop : 0 < n → s.d_count = 0 → ¬ s.inOnStop
  pos : s.completions ≠ [] → 0 < n

open WhenAllLemmas

namespace StopLifetimeLemmas

theorem apart_initial : Apart (State.initial : State n ν ε) where
  onStop hn hz := absurd hz hn.ne'
  pos h := absurd rfl h

/-- The steps of `on_stop`. -/
theorem apart_onStop {s s' : State n ν ε} (hi : Inv s) (h : Apart s) (hc : Clear s .onStop)
    (hs : next s .onStop = some s') : Apart s' := by
  simp only [next, Option.ite_none_right_eq_some, Option.some.injEq] at hs
  obtain ⟨⟨-, hnil⟩, rfl⟩ := hs
  refine ⟨fun hn hz => ?_, h.pos⟩
  obtain ⟨i, sig, hcompleting, -⟩ := hi.completing hn hz hnil
  exact absurd ⟨i, sig, hcompleting⟩ hc

theorem apart_onStopCall {s s' : State n ν ε} (h : Apart s)
    (hs : next s .onStopCall = some s') : Apart s' := by
  simp only [next, Option.ite_none_right_eq_some] at hs
  obtain ⟨hrunning, hs⟩ := hs
  have hzero : 0 < n → s.d_count = 0 → False := fun hn hz => h.onStop hn hz (.inl hrunning)
  split at hs
  · cases hs
    exact ⟨fun hn hz => (hzero hn hz).elim, h.pos⟩
  · cases hs
    exact ⟨fun hn hz => (hzero hn hz).elim, h.pos⟩

theorem apart_count {s s' : State n ν ε} {i : Fin n} (hi : Inv s) (h : Apart s)
    (hc : Clear s (.count i)) (hs : next s (.count i) = some s') : Apart s' := by
  simp only [next] at hs
  split at hs
  · next sig hcounting =>
    cases hs
    refine ⟨fun hn hz => ?_, h.pos⟩
    have hpos : 0 < s.d_count := by
      rw [hi.count]
      exact uncounted_pos (i := i) (by rw [hcounting]; rfl)
    have hlast : s.d_count = 1 := by
      have : s.d_count - 1 = 0 := hz
      omega
    exact hc hlast
  · cases hs

/-- The other steps of the children. -/
theorem apart_child {s s' : State n ν ε} (h : Apart s) (hn : s'.completions ≠ [] → 0 < n)
    (hcount : s'.d_count = s.d_count) (honStop : s'.onStop = s.onStop) : Apart s' where
  onStop hn hz := by
    rw [hcount] at hz
    unfold State.inOnStop
    rw [honStop]
    exact h.onStop hn hz
  pos := hn

theorem apart_step {s s' : State n ν ε} {l : Label n ν ε} (hi : Inv s) (h : Apart s)
    (hs : next s l = some s') (hc : Clear s l) : Apart s' := by
  cases l with
  | onStop => exact apart_onStop hi h hc hs
  | onStopCall => exact apart_onStopCall h hs
  | onStopReturn =>
    simp only [next, Option.ite_none_right_eq_some, Option.some.injEq] at hs
    obtain ⟨-, rfl⟩ := hs
    refine ⟨fun _ _ hin => ?_, h.pos⟩
    rcases hin with hin | hin
    · cases hin
    · cases hin
  | count i => exact apart_count hi h hc hs
  | complete i =>
    simp only [next] at hs
    split at hs
    · obtain ⟨c, -, rfl⟩ := Option.map_eq_some_iff.mp hs
      exact apart_child h (fun _ => i.pos) rfl rfl
    · cases hs
  | _ =>
    have frame : s'.completions = s.completions ∧ s'.d_count = s.d_count ∧
        s'.onStop = s.onStop := by
      grind [next, State.goto]
    exact apart_child h (fun hne => h.pos (frame.1 ▸ hne)) frame.2.1 frame.2.2

end StopLifetimeLemmas

open StopLifetimeLemmas

/-- In clear runs the receiver is not completed under a running stop source. -/
theorem safe_run {s : State n ν ε} {tr : List (Label n ν ε)}
    (h : Run ((system n ν ε).restrict Clear) State.initial tr s) : Safe s := by
  have hi := inv_run h.unrestrict
  have hapart : Inv s ∧ Apart s :=
    h.invariant_state (I := fun s => Inv s ∧ Apart s) ⟨inv_initial, apart_initial⟩
      fun _ _ _ hk hs => ⟨inv_step hk.1 hs.1, apart_step hk.1 hk.2 hs.1 hs.2⟩
  intro hne
  have hdone := hi.completed hne
  refine ⟨hapart.2.onStop (hapart.2.pos hne) ?_, fun hstops => ?_⟩
  · by_contra hcount
    exact hne (hi.counting (Nat.pos_of_ne_zero hcount)).1
  · obtain ⟨i, sig, hstops⟩ := hstops
    obtain ⟨sig', hd⟩ := hdone i
    rw [hd] at hstops
    rcases hstops with hstops | hstops
    · cases hstops
    · cases hstops

/-- A completion under `on_stop` can follow. -/
theorem violation_of_completing {s : State n ν ε} (hi : Inv s) (hc : s.completing)
    (hin : s.inOnStop) : ∃ s', Reaches (system n ν ε) s s' ∧ ¬ Safe s' := by
  obtain ⟨i, sig, hc⟩ := hc
  obtain ⟨c, hdo, -⟩ := do_complete_expected hi (counted_of_completing hi hc)
  have hs : next s (.complete i) =
      some ({ s with completions := s.completions ++ [c] }.goto i sig .done) := by
    simp only [next, hc, hdo, Option.map_some]
  refine ⟨_, ⟨_, Run.single hs⟩, fun hsafe => ?_⟩
  exact (hsafe (by simp [State.goto])).1 hin

/-- After a step that is not clear a completion under `on_stop` can follow. -/
theorem violation_of_not_clear {s s' : State n ν ε} {l : Label n ν ε} (hi : Inv s)
    (hs : next s l = some s') (hc : ¬ Clear s l) :
    ∃ s'', Reaches (system n ν ε) s' s'' ∧ ¬ Safe s'' := by
  have hi' := inv_step hi hs
  cases l with
  | onStop =>
    have hcompleting : s.completing := not_not.mp hc
    simp only [next, Option.ite_none_right_eq_some, Option.some.injEq] at hs
    obtain ⟨-, rfl⟩ := hs
    exact violation_of_completing hi' hcompleting (.inl rfl)
  | count i =>
    obtain ⟨hlast, hin⟩ : s.d_count = 1 ∧ s.inOnStop := by simpa [Clear] using hc
    simp only [next] at hs
    split at hs
    · next sig hcounting =>
      cases hs
      exact violation_of_completing hi' ⟨i, sig, by simp [State.goto_child, hlast]⟩ hin
    · cases hs
  | _ => exact absurd trivial hc

end WhenAll

/-! ## 2. `timeout` -/

namespace Timeout

variable {ν ε : Type}

/-- `timer_done` is between its `++d_done` and the return of `stop()`. -/
def State.timerStops (s : State ν ε) : Prop := s.timer = .stopping ∨ s.timer = .notifying

def State.senderStops (s : State ν ε) : Prop := s.sender = .stopping ∨ s.sender = .notifying

def Safe (s : State ν ε) : Prop := s.completions ≠ [] → ¬ s.timerStops ∧ ¬ s.senderStops

/-- The sender does not count itself done between the `++d_done` of `timer_done`
and the return of its `stop()`. -/
def Clear (s : State ν ε) : Label ν ε → Prop
  | .senderCount => ¬ s.timerStops
  | _ => True

/-- In clear runs `timer_done` has returned from `stop()` before one of the two
completes the receiver. -/
def Apart (s : State ν ε) : Prop := s.finished → ¬ s.timerStops

namespace StopLifetimeLemmas

theorem apart_step {s s' : State ν ε} {l : Label ν ε} (hi : Inv s) (h : Apart s)
    (hs : next s l = some s') (hc : Clear s l) : Apart s' := by
  obtain ⟨hcounter, -, -, hfinished, -, -, -, -⟩ := hi
  unfold Apart State.finished State.timerStops at h ⊢
  unfold State.finished at hfinished
  cases l with
  | senderCount =>
    unfold Clear State.timerStops at hc
    grind [next]
  | senderSignal sig => cases sig <;> grind [next, Sender.first]
  | _ => grind [next, Timer.counted]

end StopLifetimeLemmas

open StopLifetimeLemmas

/-- In clear runs the receiver is not completed under a running stop source. -/
theorem safe_run {s : State ν ε} {tr : List (Label ν ε)}
    (h : Run ((system ν ε).restrict Clear) State.initial tr s) : Safe s := by
  have hi := inv_run h.unrestrict
  have hapart : Inv s ∧ Apart s :=
    h.invariant_state (I := fun s => Inv s ∧ Apart s)
      ⟨inv_initial, fun _ hstops => by simp [State.timerStops, State.initial] at hstops⟩
      fun _ _ _ hk hs => ⟨inv_step hk.1 hs.1, apart_step hk.1 hk.2 hs.1 hs.2⟩
  intro hne
  have hfinished : s.finished := .inr (.inr hne)
  have hcounted := (hi.finished hfinished).1
  refine ⟨hapart.2 hfinished, fun hstops => ?_⟩
  rcases hstops with hstops | hstops
  · rw [hstops] at hcounted
    cases hcounted
  · rw [hstops] at hcounted
    cases hcounted

/-- After a step that is not clear a completion under `stop()` can follow. -/
theorem violation_of_not_clear {s s' : State ν ε} {l : Label ν ε} (hi : Inv s)
    (hs : next s l = some s') (hc : ¬ Clear s l) :
    ∃ s'', Reaches (system ν ε) s' s'' ∧ ¬ Safe s'' := by
  cases l with
  | senderCount =>
    have hstops : s.timerStops := not_not.mp hc
    simp only [next, Option.ite_none_right_eq_some, Option.some.injEq] at hs
    obtain ⟨hcounting, rfl⟩ := hs
    have hdone : s.d_done = 1 := by
      rw [hi.counter, hcounting]
      rcases hstops with ht | ht
      · rw [ht]
        rfl
      · rw [ht]
        rfl
    have hcomplete : ∃ s'', next { s with
        d_done := s.d_done + 1
        sender := if s.d_done + 1 = 2 then .completing else .done } .senderComplete = some s'' ∧
        s''.completions ≠ [] ∧ s''.timer = s.timer :=
      ⟨_, if_pos (by simp [hdone]), by simp, rfl⟩
    obtain ⟨s'', hs'', hne, htimer⟩ := hcomplete
    refine ⟨s'', ⟨_, Run.single hs''⟩, fun hsafe => (hsafe hne).1 ?_⟩
    unfold State.timerStops
    rw [htimer]
    exact hstops
  | _ => exact absurd trivial hc

end Timeout

/-! ## 3. Both -/

/-- In every run whose steps are clear the receivers of `when_all` and `timeout`
are not completed while a call of `stop()` on their source, or `on_stop`,
executes. A reachable step that is not clear can be followed by such a
completion. -/
theorem not_completed_while_stopping (n : Nat) (ν ε : Type) :
    (∀ (tr : List (WhenAll.Label n ν ε)) (s : WhenAll.State n ν ε),
      Run ((WhenAll.system n ν ε).restrict WhenAll.Clear) WhenAll.State.initial tr s →
        WhenAll.Safe s) ∧
    (∀ (tr : List (Timeout.Label ν ε)) (s : Timeout.State ν ε),
      Run ((Timeout.system ν ε).restrict Timeout.Clear) Timeout.State.initial tr s →
        Timeout.Safe s) ∧
    (∀ (s s' : WhenAll.State n ν ε) (l : WhenAll.Label n ν ε),
      Reachable (WhenAll.system n ν ε) s → WhenAll.next s l = some s' → ¬ WhenAll.Clear s l →
        ∃ s'', Reaches (WhenAll.system n ν ε) s' s'' ∧ ¬ WhenAll.Safe s'') ∧
    (∀ (s s' : Timeout.State ν ε) (l : Timeout.Label ν ε),
      Reachable (Timeout.system ν ε) s → Timeout.next s l = some s' → ¬ Timeout.Clear s l →
        ∃ s'', Reaches (Timeout.system ν ε) s' s'' ∧ ¬ Timeout.Safe s'') := by
  refine ⟨fun tr s => WhenAll.safe_run, fun tr s => Timeout.safe_run, fun s s' l hr => ?_,
    fun s s' l hr => ?_⟩
  · obtain ⟨s₀, tr, rfl, hr⟩ := hr
    exact WhenAll.violation_of_not_clear (WhenAll.inv_run hr)
  · obtain ⟨s₀, tr, rfl, hr⟩ := hr
    exact Timeout.violation_of_not_clear (Timeout.inv_run hr)

/-- The stopped child leaves its `stop()` and `on_stop` has returned when it
counts itself done; the sender is cancelled and counts itself done when
`timer_done` has returned. -/
theorem not_completed_while_stopping_example :
    (∃ s : WhenAll.State 1 Unit Unit, s.completions = [.stopped] ∧ WhenAll.Safe s) ∧
    ∃ s : Timeout.State Unit Unit, s.completions = [.stopped] ∧ Timeout.Safe s := by
  have hclear := not_completed_while_stopping 1 Unit Unit
  constructor
  · refine ⟨_, ?_, hclear.1
      [.start, .onStop, .onStopCall, .signal 0 .stopped, .won 0, .stopCall 0, .onStopReturn,
        .count 0, .complete 0] _
      (.cons ⟨rfl, trivial⟩ <| .cons ⟨rfl, ?_⟩ <| .cons ⟨rfl, trivial⟩ <| .cons ⟨rfl, trivial⟩ <|
        .cons ⟨rfl, trivial⟩ <| .cons ⟨rfl, trivial⟩ <| .cons ⟨rfl, trivial⟩ <|
        .cons ⟨rfl, fun _ => ?_⟩ <| .single ⟨rfl, trivial⟩)⟩
    · rfl
    · intro ⟨i, sig, hc⟩
      obtain rfl : i = 0 := Subsingleton.elim _ _
      cases hc
    · intro hin
      cases hin with
      | inl hin => cases hin
      | inr hin => cases hin
  · refine ⟨_, ?_, hclear.2.1
      [.startSender, .startTimer, .timerSignal (.value []), .timerCount, .timerStop,
        .senderSignal .stopped, .senderStop, .timerStopReturn, .senderCount, .senderComplete] _
      (.cons ⟨rfl, trivial⟩ <| .cons ⟨rfl, trivial⟩ <| .cons ⟨rfl, trivial⟩ <|
        .cons ⟨rfl, trivial⟩ <| .cons ⟨rfl, trivial⟩ <| .cons ⟨rfl, trivial⟩ <|
        .cons ⟨rfl, trivial⟩ <| .cons ⟨rfl, trivial⟩ <| .cons ⟨rfl, ?_⟩ <|
        .single ⟨rfl, trivial⟩)⟩
    · rfl
    · intro hstops
      cases hstops with
      | inl hstops => cases hstops
      | inr hstops => cases hstops

/-- `stop()` of the outer source runs `on_stop`, whose own `stop()` cancels the
only child, which completes inside. -/
def exOnStop : List (WhenAll.Label 1 Unit Unit) :=
  [.start, .onStop, .onStopCall, .signal (Fin.last 0) .stopped, .won (Fin.last 0),
    .stopCall (Fin.last 0), .count (Fin.last 0), .complete (Fin.last 0)]

/-- The timer runs out and its `stop()` cancels the sender, which completes
inside. -/
def exTimer : List (Timeout.Label Unit Unit) :=
  [.startSender, .startTimer, .timerSignal (.value []), .timerCount, .timerStop,
    .senderSignal .stopped, .senderStop, .senderCount, .senderComplete]

/-- A child or a sender that completes while it is being cancelled completes the
receiver under the `stop()` that cancels it. -/
theorem completed_while_stopping :
    (∃ s : WhenAll.State 1 Unit Unit, Run (WhenAll.system 1 Unit Unit) WhenAll.State.initial
      exOnStop s ∧ s.completions = [.stopped] ∧ s.onStop = .notifying) ∧
    ∃ s : Timeout.State Unit Unit, Run (Timeout.system Unit Unit) Timeout.State.initial
      exTimer s ∧ s.completions = [.stopped] ∧ s.timer = .notifying := by
  constructor
  · exact ⟨_, run_replay (S := WhenAll.system 1 Unit Unit) (fun _ _ _ => id)
      (show (replay WhenAll.next WhenAll.State.initial exOnStop).isSome from rfl), rfl, rfl⟩
  · exact ⟨_, run_replay (S := Timeout.system Unit Unit) (fun _ _ _ => id)
      (show (replay Timeout.next Timeout.State.initial exTimer).isSome from rfl), rfl, rfl⟩

end Kuhllib
