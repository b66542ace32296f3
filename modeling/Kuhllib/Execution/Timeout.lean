import Kuhllib.Execution.Signal
import Kuhllib.Lib.Transition

/-!
# `nstd::execution::timeout`

The child sender and the timer complete on any threads. As for `when_all`, each
completion function takes one step for each access of the shared state, so a
sender that completes inside its `start()` or inside the `stop()` of the timer
is one of the interleavings.

Results, for every interleaving:
1. `inv_step`: what `d_done` counts, and that at most one of the two completes
   the outer receiver.
-/

namespace Kuhllib.Timeout

open Transition

/-- The completion of the child sender: `ignored` is the end of `set_value` and
`set_error`, the others are the points of `set_stopped`. -/
inductive Sender
  | idle
  | running
  | ignored
  | stopping
  | notifying
  | counting
  | completing
  | done
  deriving DecidableEq, Repr

/-- The completion of the timer, whose three signals all call `timer_done()`. -/
inductive Timer
  | idle
  | running
  | counting
  | stopping
  | notifying
  | completing
  | done
  deriving DecidableEq, Repr

/-- The members of `state`; `requested` is `d_stop_requested` of `d_source`. -/
structure State (ν ε : Type) where
  requested : Bool
  d_values : Option (List ν)
  d_errors : Option ε
  d_done : Nat
  sender : Sender
  timer : Timer
  completions : List (Signal ν ε)
  deriving DecidableEq, Repr

inductive Label (ν ε : Type)
  | startSender
  | startTimer
  | senderSignal (sig : Signal ν ε)
  | senderStop
  | senderStopReturn
  | senderCount
  | senderComplete
  | timerSignal (sig : Signal ν ε)
  | timerCount
  | timerStop
  | timerStopReturn
  | timerComplete

variable {ν ε : Type}

/-- `d_values` and `d_errors` are empty and no function writes them. -/
def State.initial : State ν ε where
  requested := false
  d_values := none
  d_errors := none
  d_done := 0
  sender := .idle
  timer := .idle
  completions := []

/-- What a completion function of `sender_receiver` does first. -/
def Sender.first : Signal ν ε → Sender
  | .value _ | .error _ => .ignored
  | .stopped => .stopping

/-- How the second branch of `timer_done()` completes the receiver. -/
def State.timerCompletion (s : State ν ε) : Signal ν ε :=
  match s.d_errors, s.d_values with
  | some e, _ => .error e
  | none, some vs => .value vs
  | none, none => .stopped

def next (s : State ν ε) : Label ν ε → Option (State ν ε)
  -- start()
  | .startSender => if s.sender = .idle then some { s with sender := .running } else none
  | .startTimer =>
    if s.sender ≠ .idle ∧ s.timer = .idle then some { s with timer := .running } else none
  -- sender_receiver
  | .senderSignal sig =>
    if s.sender = .running then some { s with sender := .first sig } else none
  | .senderStop =>
    if s.sender = .stopping then
      if s.requested then some { s with sender := .counting }
      else some { s with requested := true, sender := .notifying }
    else none
  | .senderStopReturn =>
    if s.sender = .notifying then some { s with sender := .counting } else none
  | .senderCount =>
    if s.sender = .counting then
      some { s with
        d_done := s.d_done + 1
        sender := if s.d_done + 1 = 2 then .completing else .done }
    else none
  | .senderComplete =>
    if s.sender = .completing then
      some { s with sender := .done, completions := s.completions ++ [.stopped] }
    else none
  -- timer_receiver and timer_done()
  | .timerSignal _ => if s.timer = .running then some { s with timer := .counting } else none
  | .timerCount =>
    if s.timer = .counting then
      some { s with
        d_done := s.d_done + 1
        timer := if s.d_done + 1 = 1 then .stopping else .completing }
    else none
  | .timerStop =>
    if s.timer = .stopping then
      if s.requested then some { s with timer := .done }
      else some { s with requested := true, timer := .notifying }
    else none
  | .timerStopReturn => if s.timer = .notifying then some { s with timer := .done } else none
  | .timerComplete =>
    if s.timer = .completing then
      some { s with timer := .done, completions := s.completions ++ [s.timerCompletion] }
    else none

def system (ν ε : Type) : System (State ν ε) (Label ν ε) where
  init s := s = State.initial
  step s l s' := next s l = some s'

/-! ## 1. The counter -/

def Sender.counted : Sender → Bool
  | .completing | .done => true
  | _ => false

def Timer.counted : Timer → Bool
  | .stopping | .notifying | .completing | .done => true
  | _ => false

/-- One of the two is about to complete the receiver, or the receiver has been
completed. -/
def State.finished (s : State ν ε) : Prop :=
  s.sender = .completing ∨ s.timer = .completing ∨ s.completions ≠ []

structure Inv (s : State ν ε) : Prop where
  counter : s.d_done = (if s.sender.counted then 1 else 0) + (if s.timer.counted then 1 else 0)
  sender : s.sender = .completing → s.timer ≠ .completing ∧ s.completions = []
  timer : s.timer = .completing → s.completions = []
  finished : s.finished → s.sender.counted ∧ s.timer.counted
  once : s.completions.length ≤ 1
  started : s.timer ≠ .idle → s.sender ≠ .idle
  requested : s.sender = .notifying ∨ s.sender = .counting ∨ s.sender.counted ∨ s.timer = .notifying →
    s.requested = true
  results : s.d_errors = none ∧ s.d_values = none

theorem inv_initial : Inv (State.initial : State ν ε) where
  counter := rfl
  sender h := by cases h
  timer h := by cases h
  finished h := by simp [State.finished, State.initial] at h
  once := Nat.zero_le 1
  started h := absurd rfl h
  requested h := by simp [State.initial, Sender.counted] at h
  results := ⟨rfl, rfl⟩

namespace TimeoutLemmas

/-- Nobody completes the receiver before both have arrived. -/
theorem not_finished {s : State ν ε} (h : Inv s) (hc : s.sender.counted = false ∨ s.timer.counted = false) :
    s.sender ≠ .completing ∧ s.timer ≠ .completing ∧ s.completions = [] := by
  have hno : ¬ s.finished := fun hf => by
    obtain ⟨hsender, htimer⟩ := h.finished hf
    rcases hc with hc | hc
    · rw [hsender] at hc
      cases hc
    · rw [htimer] at hc
      cases hc
  simpa only [State.finished, not_or, ne_eq, not_not] using hno

end TimeoutLemmas

open TimeoutLemmas

section

variable {s : State ν ε} {x : Sender} {y : Timer} {r : Bool}

/-- The sender moves on in front of `d_done`. -/
theorem Inv.sender_moves (h : Inv s) (hs : s.sender.counted = false) (hx : x.counted = false)
    (hidle : x ≠ .idle) (hr : s.requested = true → r = true)
    (hnotify : x = .notifying ∨ x = .counting → r = true) :
    Inv { s with sender := x, requested := r } := by
  obtain ⟨-, htimer, hnone⟩ := not_finished h (.inl hs)
  have hcompleting : x ≠ .completing := by
    rintro rfl
    cases hx
  refine ⟨?_, fun he => absurd he hcompleting, h.timer, ?_, h.once, fun _ => hidle, ?_, h.results⟩
  · show s.d_done = (if x.counted then 1 else 0) + _
    rw [hx, h.counter, hs]
  · rintro (he | he | he)
    · exact absurd he hcompleting
    · exact absurd he htimer
    · exact absurd hnone he
  · rintro (he | he | he | he)
    · exact hnotify (.inl he)
    · exact hnotify (.inr he)
    · rw [show x.counted = true from he] at hx
      cases hx
    · exact hr (h.requested (.inr (.inr (.inr he))))

/-- So does the timer. -/
theorem Inv.timer_moves (h : Inv s) (hs : s.timer.counted = false) (hy : y.counted = false)
    (hstarted : s.sender ≠ .idle) : Inv { s with timer := y } := by
  obtain ⟨hsender, -, hnone⟩ := not_finished h (.inr hs)
  have hcompleting : y ≠ .completing := by
    rintro rfl
    cases hy
  refine ⟨?_, fun he => absurd he hsender, fun _ => hnone, ?_, h.once, fun _ => hstarted, ?_,
    h.results⟩
  · show s.d_done = _ + (if y.counted then 1 else 0)
    rw [hy, h.counter, hs]
  · rintro (he | he | he)
    · exact absurd he hsender
    · exact absurd he hcompleting
    · exact absurd hnone he
  · rintro (he | he | he | he)
    · exact h.requested (.inl he)
    · exact h.requested (.inr (.inl he))
    · exact h.requested (.inr (.inr (.inl he)))
    · subst he
      cases hy

/-- The timer stops the sender behind `d_done`. -/
theorem Inv.timer_stops (h : Inv s) (hs : s.timer.counted = true) (hy : y.counted = true)
    (hcompleting : y ≠ .completing) (hr : s.requested = true → r = true)
    (hnotify : y = .notifying → r = true) : Inv { s with timer := y, requested := r } := by
  have hstarted : s.sender ≠ .idle := h.started fun he => by
    rw [he] at hs
    cases hs
  refine ⟨?_, fun he => ⟨hcompleting, (h.sender he).2⟩, fun he => absurd he hcompleting, ?_, h.once,
    fun _ => hstarted, ?_, h.results⟩
  · show s.d_done = _ + (if y.counted then 1 else 0)
    rw [hy, h.counter, hs]
  · rintro (he | he | he)
    · exact ⟨(h.finished (.inl he)).1, hy⟩
    · exact absurd he hcompleting
    · exact ⟨(h.finished (.inr (.inr he))).1, hy⟩
  · rintro (he | he | he | he)
    · exact hr (h.requested (.inl he))
    · exact hr (h.requested (.inr (.inl he)))
    · exact hr (h.requested (.inr (.inr (.inl he))))
    · exact hnotify he

/-- The sender arrives at `d_done`. -/
theorem Inv.sender_counts (h : Inv s) (hs : s.sender = .counting) :
    Inv { s with
      d_done := s.d_done + 1
      sender := if s.d_done + 1 = 2 then .completing else .done } := by
  obtain ⟨-, htimer, hnone⟩ := not_finished h (.inl (by rw [hs]; rfl))
  have hrequested : s.requested = true := h.requested (.inr (.inl hs))
  have hcounter : s.d_done = if s.timer.counted then 1 else 0 := by
    rw [h.counter, hs]
    exact Nat.zero_add _
  cases hc : s.timer.counted with
  | false =>
    have hzero : s.d_done = 0 := by rw [hcounter, hc]; rfl
    rw [hzero]
    refine ⟨?_, by simp, h.timer, ?_, h.once, fun _ => by simp, fun _ => hrequested, h.results⟩
    · simp [Sender.counted, hc]
    · rintro (he | he | he)
      · cases he
      · exact absurd he htimer
      · exact absurd hnone he
  | true =>
    have hone : s.d_done = 1 := by rw [hcounter, hc]; rfl
    rw [hone]
    refine ⟨?_, fun _ => ⟨htimer, hnone⟩, h.timer, fun _ => ⟨rfl, hc⟩, h.once, fun _ => by simp,
      fun _ => hrequested, h.results⟩
    simp [Sender.counted, hc]

/-- So does the timer. -/
theorem Inv.timer_counts (h : Inv s) (hs : s.timer = .counting) :
    Inv { s with
      d_done := s.d_done + 1
      timer := if s.d_done + 1 = 1 then .stopping else .completing } := by
  obtain ⟨hsender, -, hnone⟩ := not_finished h (.inr (by rw [hs]; rfl))
  have hstarted : s.sender ≠ .idle := h.started (by simp [hs])
  have hcounter : s.d_done = if s.sender.counted then 1 else 0 := by
    rw [h.counter, hs]
    exact Nat.add_zero _
  have hrequested : ∀ y : Timer, y ≠ .notifying →
      (s.sender = .notifying ∨ s.sender = .counting ∨ s.sender.counted ∨ y = .notifying) →
        s.requested = true := by
    rintro y hy (he | he | he | he)
    · exact h.requested (.inl he)
    · exact h.requested (.inr (.inl he))
    · exact h.requested (.inr (.inr (.inl he)))
    · exact absurd he hy
  cases hc : s.sender.counted with
  | false =>
    have hzero : s.d_done = 0 := by rw [hcounter, hc]; rfl
    rw [hzero]
    refine ⟨?_, fun he => absurd he hsender, by simp, ?_, h.once, fun _ => hstarted,
      hrequested _ (by simp), h.results⟩
    · simp [Timer.counted, hc]
    · rintro (he | he | he)
      · exact absurd he hsender
      · cases he
      · exact absurd hnone he
  | true =>
    have hone : s.d_done = 1 := by rw [hcounter, hc]; rfl
    rw [hone]
    refine ⟨?_, fun he => absurd he hsender, fun _ => hnone, fun _ => ⟨hc, rfl⟩, h.once,
      fun _ => hstarted, hrequested _ (by simp), h.results⟩
    simp [Timer.counted, hc]

/-- The sender completes the receiver. -/
theorem Inv.sender_completes (h : Inv s) (hs : s.sender = .completing) :
    Inv { s with sender := .done, completions := s.completions ++ [.stopped] } := by
  obtain ⟨htimer, hnone⟩ := h.sender hs
  have hboth := h.finished (.inl hs)
  refine ⟨?_, by simp, fun he => absurd he htimer, fun _ => ⟨rfl, hboth.2⟩, ?_, fun _ => by simp,
    fun _ => h.requested (.inr (.inr (.inl hboth.1))), h.results⟩
  · rw [h.counter, hs]
    rfl
  · simp [hnone]

/-- The timer does. -/
theorem Inv.timer_completes (h : Inv s) (hs : s.timer = .completing) :
    Inv { s with timer := .done, completions := s.completions ++ [s.timerCompletion] } := by
  have hnone := h.timer hs
  have hboth := h.finished (.inr (.inl hs))
  refine ⟨?_, fun he => absurd hs (h.sender he).1, by simp, fun _ => ⟨hboth.1, rfl⟩, ?_,
    fun _ => h.started (by simp [hs]), fun _ => h.requested (.inr (.inr (.inl hboth.1))), h.results⟩
  · rw [h.counter, hs]
    rfl
  · simp [hnone]

end

/-- Every atomic step keeps the invariant. -/
theorem inv_step {s s' : State ν ε} {l : Label ν ε} (h : Inv s) (hs : next s l = some s') :
    Inv s' := by
  cases l <;> simp only [next, Option.ite_none_right_eq_some, Option.some.injEq] at hs <;>
    obtain ⟨hguard, hs⟩ := hs
  case startSender =>
    subst hs
    exact h.sender_moves (by rw [hguard]; rfl) rfl (by simp) id (by simp)
  case startTimer =>
    subst hs
    exact h.timer_moves (by rw [hguard.2]; rfl) rfl hguard.1
  case senderSignal sig =>
    subst hs
    cases sig <;> exact h.sender_moves (by rw [hguard]; rfl) rfl (by simp [Sender.first]) id
      (by simp [Sender.first])
  case senderStop =>
    split at hs
    · next hr =>
      cases hs
      exact h.sender_moves (by rw [hguard]; rfl) rfl (by simp) id fun _ => hr
    · cases hs
      exact h.sender_moves (by rw [hguard]; rfl) rfl (by simp) (fun _ => rfl) fun _ => rfl
  case senderStopReturn =>
    subst hs
    exact h.sender_moves (by rw [hguard]; rfl) rfl (by simp) id fun _ => h.requested (.inl hguard)
  case senderCount =>
    subst hs
    exact h.sender_counts hguard
  case senderComplete =>
    subst hs
    exact h.sender_completes hguard
  case timerSignal sig =>
    subst hs
    exact h.timer_moves (by rw [hguard]; rfl) rfl (h.started (by simp [hguard]))
  case timerCount =>
    subst hs
    exact h.timer_counts hguard
  case timerStop =>
    split at hs <;> cases hs
    · exact h.timer_stops (by rw [hguard]; rfl) rfl (by simp) id (by simp)
    · exact h.timer_stops (by rw [hguard]; rfl) rfl (by simp) (fun _ => rfl) fun _ => rfl
  case timerStopReturn =>
    subst hs
    exact h.timer_stops (by rw [hguard]; rfl) rfl (by simp) id (by simp)
  case timerComplete =>
    subst hs
    exact h.timer_completes hguard

theorem inv_run {s : State ν ε} {tr : List (Label ν ε)}
    (h : Run (system ν ε) State.initial tr s) : Inv s :=
  h.invariant_state inv_initial fun _ _ _ => inv_step

end Kuhllib.Timeout
