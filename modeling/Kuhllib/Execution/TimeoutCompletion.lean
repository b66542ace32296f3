import Kuhllib.Execution.Timeout

/-!
# How `timeout` completes

`sender_receiver` handles `set_stopped` alone: its `set_value` and `set_error` are
empty, so they neither store the result nor count, and `timer_done()` is the only
one of the two to arrive.

Results, for every interleaving:
1. `arrived_step`: the order in which the two arrive at `d_done`, who completes the
   receiver, and who requests the stop.
2. `finishes`: every run can go on until both completions have ended.
3. `completes_iff`: then the receiver has been completed once and with the right
   signal exactly when the child was stopped.
-/

namespace Kuhllib.Timeout

open Transition TimeoutLemmas

variable {ν ε : Type}

/-! ## 1. Arrivals -/

inductive Party
  | sender
  | timer
  deriving DecidableEq, Repr

/-- Who increments `d_done`. -/
def Label.arrives : Label ν ε → Option Party
  | .senderCount => some .sender
  | .timerCount => some .timer
  | _ => none

/-- Who completes the receiver. -/
def Label.completes : Label ν ε → Option Party
  | .senderComplete => some .sender
  | .timerComplete => some .timer
  | _ => none

/-- Who calls `d_source.stop()`. -/
def Label.stops : Label ν ε → Option Party
  | .senderStop => some .sender
  | .timerStop => some .timer
  | _ => none

def arrivals (tr : List (Label ν ε)) : List Party := tr.filterMap Label.arrives

def completers (tr : List (Label ν ε)) : List Party := tr.filterMap Label.completes

def stoppers (tr : List (Label ν ε)) : List Party := tr.filterMap Label.stops

/-- Who is about to complete the receiver. -/
def State.completing (s : State ν ε) : List Party :=
  if s.sender = .completing then [.sender]
  else if s.timer = .completing then [.timer]
  else []

/-- What the labels so far say about the state. -/
structure Arrived (tr : List (Label ν ε)) (s : State ν ε) : Prop where
  count : (arrivals tr).length = s.d_done
  second : completers tr ++ s.completing = (arrivals tr).drop 1
  result : s.completions = (completers tr).map fun _ => .stopped
  first : ∀ p, (arrivals tr).head? = some p →
    p ∈ stoppers tr ∨ p = .timer ∧ s.timer = .stopping
  notified : s.sender = .notifying ∨ s.sender = .counting → .sender ∈ stoppers tr

namespace TimeoutCompletionLemmas

@[simp]
theorem arrivals_snoc (tr : List (Label ν ε)) (l : Label ν ε) :
    arrivals (tr ++ [l]) = arrivals tr ++ l.arrives.toList := by
  cases h : l.arrives <;> simp [arrivals, h]

@[simp]
theorem completers_snoc (tr : List (Label ν ε)) (l : Label ν ε) :
    completers (tr ++ [l]) = completers tr ++ l.completes.toList := by
  cases h : l.completes <;> simp [completers, h]

@[simp]
theorem stoppers_snoc (tr : List (Label ν ε)) (l : Label ν ε) :
    stoppers (tr ++ [l]) = stoppers tr ++ l.stops.toList := by
  cases h : l.stops <;> simp [stoppers, h]

/-- Nobody completes the receiver while one of the two has not arrived. -/
theorem completing_eq {s : State ν ε} (h : Inv s)
    (hc : s.sender.counted = false ∨ s.timer.counted = false) : s.completing = [] := by
  obtain ⟨hsender, htimer, -⟩ := not_finished h hc
  rw [State.completing, if_neg hsender, if_neg htimer]

theorem done_le_one {s : State ν ε} (h : Inv s)
    (hc : s.sender.counted = false ∨ s.timer.counted = false) : s.d_done ≤ 1 := by
  rw [h.counter]
  rcases hc with hc | hc
  · cases s.timer.counted <;> simp [hc]
  · cases s.sender.counted <;> simp [hc]

theorem completing_congr {s s' : State ν ε}
    (hsender : s'.sender = .completing ↔ s.sender = .completing)
    (htimer : s'.timer = .completing ↔ s.timer = .completing) : s'.completing = s.completing := by
  simp only [State.completing, hsender, htimer]

end TimeoutCompletionLemmas

open TimeoutCompletionLemmas

theorem arrived_initial : Arrived [] (State.initial : State ν ε) where
  count := rfl
  second := rfl
  result := rfl
  first _ h := by cases h
  notified h := by simp [State.initial] at h

section

variable {tr : List (Label ν ε)} {s s' : State ν ε} {l : Label ν ε} {p : Party}

/-- A step in which nobody arrives or completes the receiver. -/
theorem Arrived.quiet (ha : Arrived tr s) (hl : l.arrives = none ∧ l.completes = none)
    (hdone : s'.d_done = s.d_done) (hcompletions : s'.completions = s.completions)
    (hcompleting : s'.completing = s.completing)
    (hfirst : s.timer = .stopping → s'.timer = .stopping ∨ l.stops = some .timer)
    (hnotified : s'.sender = .notifying ∨ s'.sender = .counting →
      (s.sender = .notifying ∨ s.sender = .counting) ∨ l.stops = some .sender) :
    Arrived (tr ++ [l]) s' := by
  have harrivals : arrivals (tr ++ [l]) = arrivals tr := by simp [hl.1]
  have hcompleters : completers (tr ++ [l]) = completers tr := by simp [hl.2]
  have hold : ∀ p ∈ stoppers tr, p ∈ stoppers (tr ++ [l]) := fun p hp => by simp [hp]
  have hnew : ∀ p, l.stops = some p → p ∈ stoppers (tr ++ [l]) := fun p hp => by simp [hp]
  constructor
  · rw [harrivals, hdone, ha.count]
  · rw [harrivals, hcompleters, hcompleting, ha.second]
  · rw [hcompleters, hcompletions, ha.result]
  · intro p hp
    rw [harrivals] at hp
    rcases ha.first p hp with hmem | ⟨rfl, hstopping⟩
    · exact .inl (hold p hmem)
    · rcases hfirst hstopping with hs | hs
      · exact .inr ⟨rfl, hs⟩
      · exact .inl (hnew _ hs)
  · intro hn
    rcases hnotified hn with hs | hs
    · exact hold _ (ha.notified hs)
    · exact hnew _ hs

/-- One of the two arrives. -/
theorem Arrived.arrives (ha : Arrived tr s) (hl : l.arrives = some p ∧ l.completes = none)
    (hle : s.d_done ≤ 1) (hnone : s.completing = []) (hdone : s'.d_done = s.d_done + 1)
    (hcompletions : s'.completions = s.completions)
    (hcompleting : s'.completing = if s.d_done = 0 then [] else [p])
    (hfirst : s.d_done = 0 → p ∈ stoppers tr ∨ p = .timer ∧ s'.timer = .stopping)
    (hkeep : s.timer = .stopping → s'.timer = .stopping)
    (hnotified : s'.sender = .notifying ∨ s'.sender = .counting →
      s.sender = .notifying ∨ s.sender = .counting) :
    Arrived (tr ++ [l]) s' := by
  have harrivals : arrivals (tr ++ [l]) = arrivals tr ++ [p] := by simp [hl.1]
  have hcompleters : completers (tr ++ [l]) = completers tr := by simp [hl.2]
  have hold : ∀ p ∈ stoppers tr, p ∈ stoppers (tr ++ [l]) := fun p hp => by simp [hp]
  have hfirst' : ∀ p', p' ∈ stoppers tr ∨ p' = .timer ∧ s.timer = .stopping →
      p' ∈ stoppers (tr ++ [l]) ∨ p' = .timer ∧ s'.timer = .stopping := fun p' hp =>
    hp.imp (hold p') (And.imp_right hkeep)
  have hsecond := ha.second
  rw [hnone, List.append_nil] at hsecond
  constructor
  · rw [harrivals, hdone, List.length_append, ha.count]
    rfl
  · rw [harrivals, hcompleters, hcompleting, hsecond]
    rcases Nat.le_one_iff_eq_zero_or_eq_one.mp hle with hd | hd
    · have hempty : arrivals tr = [] := List.length_eq_zero_iff.mp (ha.count.trans hd)
      rw [if_pos hd, hempty]
      rfl
    · obtain ⟨p', he⟩ := List.length_eq_one_iff.mp (ha.count.trans hd)
      rw [if_neg (by omega), he]
      rfl
  · rw [hcompleters, hcompletions, ha.result]
  · intro p' hp
    rw [harrivals] at hp
    cases he : arrivals tr with
    | nil =>
      rw [he] at hp
      obtain rfl : p = p' := Option.some.inj hp
      have hd : s.d_done = 0 := by rw [← ha.count, he]; rfl
      exact (hfirst hd).imp (hold p) id
    | cons p₀ ps =>
      rw [he] at hp
      obtain rfl : p₀ = p' := Option.some.inj hp
      exact hfirst' p₀ (ha.first p₀ (by rw [he]; rfl))
  · exact fun hn => hold _ (ha.notified (hnotified hn))

/-- The second of the two completes the receiver. -/
theorem Arrived.completes (ha : Arrived tr s) (hl : l.arrives = none ∧ l.completes = some p)
    (hcompleting : s.completing = [p]) (hcompleting' : s'.completing = [])
    (hdone : s'.d_done = s.d_done) (hcompletions : s'.completions = s.completions ++ [.stopped])
    (hkeep : s.timer = .stopping → s'.timer = .stopping)
    (hnotified : s'.sender = .notifying ∨ s'.sender = .counting →
      s.sender = .notifying ∨ s.sender = .counting) :
    Arrived (tr ++ [l]) s' := by
  have harrivals : arrivals (tr ++ [l]) = arrivals tr := by simp [hl.1]
  have hcompleters : completers (tr ++ [l]) = completers tr ++ [p] := by simp [hl.2]
  have hold : ∀ p ∈ stoppers tr, p ∈ stoppers (tr ++ [l]) := fun p hp => by simp [hp]
  constructor
  · rw [harrivals, hdone, ha.count]
  · rw [harrivals, hcompleters, hcompleting', List.append_nil, ← hcompleting, ha.second]
  · rw [hcompleters, hcompletions, ha.result, List.map_append]
    rfl
  · intro p' hp
    rw [harrivals] at hp
    exact (ha.first p' hp).imp (hold p') (And.imp_right hkeep)
  · exact fun hn => hold _ (ha.notified (hnotified hn))

theorem arrived_step (h : Inv s) (ha : Arrived tr s) (hs : next s l = some s') :
    Arrived (tr ++ [l]) s' := by
  cases l <;> simp only [next, Option.ite_none_right_eq_some, Option.some.injEq] at hs <;>
    obtain ⟨hguard, hs⟩ := hs
  case startSender =>
    subst hs
    exact ha.quiet ⟨rfl, rfl⟩ rfl rfl (completing_congr (by simp [hguard]) Iff.rfl) .inl (by simp)
  case startTimer =>
    subst hs
    exact ha.quiet ⟨rfl, rfl⟩ rfl rfl (completing_congr Iff.rfl (by simp [hguard.2]))
      (by simp [hguard.2]) .inl
  case senderSignal sig =>
    subst hs
    cases sig <;> exact ha.quiet ⟨rfl, rfl⟩ rfl rfl
      (completing_congr (by simp [hguard, Sender.first]) Iff.rfl) .inl (by simp [Sender.first])
  case senderStop =>
    split at hs <;> cases hs <;> exact ha.quiet ⟨rfl, rfl⟩ rfl rfl
      (completing_congr (by simp [hguard]) Iff.rfl) .inl fun _ => .inr rfl
  case senderStopReturn =>
    subst hs
    exact ha.quiet ⟨rfl, rfl⟩ rfl rfl (completing_congr (by simp [hguard]) Iff.rfl) .inl
      fun _ => .inl (.inl hguard)
  case senderCount =>
    subst hs
    have hnot : s.sender.counted = false := by rw [hguard]; rfl
    obtain ⟨-, htimer, -⟩ := not_finished h (.inl hnot)
    have hle := done_le_one h (.inl hnot)
    refine ha.arrives ⟨rfl, rfl⟩ hle (completing_eq h (.inl hnot)) rfl rfl ?_
      (fun _ => .inl (ha.notified (.inr hguard))) id fun _ => .inr hguard
    rcases Nat.le_one_iff_eq_zero_or_eq_one.mp hle with hd | hd
    · simp [State.completing, hd, htimer]
    · simp [State.completing, hd]
  case senderComplete =>
    subst hs
    obtain ⟨htimer, -⟩ := h.sender hguard
    exact ha.completes ⟨rfl, rfl⟩ (by simp [State.completing, hguard])
      (by simp [State.completing, htimer]) rfl rfl id (by simp)
  case timerSignal sig =>
    subst hs
    exact ha.quiet ⟨rfl, rfl⟩ rfl rfl (completing_congr Iff.rfl (by simp [hguard]))
      (by simp [hguard]) .inl
  case timerCount =>
    subst hs
    have hnot : s.timer.counted = false := by rw [hguard]; rfl
    obtain ⟨hsender, -, -⟩ := not_finished h (.inr hnot)
    have hle := done_le_one h (.inr hnot)
    refine ha.arrives ⟨rfl, rfl⟩ hle (completing_eq h (.inr hnot)) rfl rfl ?_
      (fun hd => .inr ⟨rfl, by simp [hd]⟩) (by simp [hguard]) id
    rcases Nat.le_one_iff_eq_zero_or_eq_one.mp hle with hd | hd
    · simp [State.completing, hd, hsender]
    · simp [State.completing, hd, hsender]
  case timerStop =>
    split at hs <;> cases hs <;> exact ha.quiet ⟨rfl, rfl⟩ rfl rfl
      (completing_congr Iff.rfl (by simp [hguard])) (fun _ => .inr rfl) .inl
  case timerStopReturn =>
    subst hs
    exact ha.quiet ⟨rfl, rfl⟩ rfl rfl (completing_congr Iff.rfl (by simp [hguard]))
      (by simp [hguard]) .inl
  case timerComplete =>
    subst hs
    have hsender : s.sender ≠ .completing := fun hc => (h.sender hc).1 hguard
    exact ha.completes ⟨rfl, rfl⟩ (by simp [State.completing, hguard, hsender])
      (by simp [State.completing, hsender]) rfl (by simp [State.timerCompletion, h.results])
      (by simp [hguard]) id

end

/-- Where the completion of the child is, depending on its signal. -/
def Sender.follows : Signal ν ε → Sender → Prop
  | .stopped, snd => snd ≠ .idle ∧ snd ≠ .running ∧ snd ≠ .ignored
  | .value _, snd | .error _, snd => snd = .ignored

/-- The child has completed once. -/
def Signalled (tr : List (Label ν ε)) (s : State ν ε) : Prop :=
  ∀ sig, .senderSignal sig ∈ tr → s.sender.follows sig

/-- The sender does not go back. -/
theorem sender_next {s s' : State ν ε} {l : Label ν ε} (hs : next s l = some s') :
    s'.sender = s.sender ∨ s.sender = .idle ∨ s.sender = .running ∨
      (s.sender ≠ .ignored ∧ s'.sender ≠ .idle ∧ s'.sender ≠ .running ∧ s'.sender ≠ .ignored) := by
  cases l <;> simp only [next, Option.ite_none_right_eq_some, Option.some.injEq] at hs <;>
    obtain ⟨hguard, hs⟩ := hs
  case startSender => exact .inr (.inl hguard)
  case senderSignal sig => exact .inr (.inr (.inl hguard))
  case senderStop =>
    split at hs <;> cases hs <;> exact .inr (.inr (.inr (by simp [hguard])))
  case senderStopReturn | senderComplete =>
    subst hs
    exact .inr (.inr (.inr (by simp [hguard])))
  case senderCount =>
    subst hs
    refine .inr (.inr (.inr ⟨by simp [hguard], ?_⟩))
    show (if s.d_done + 1 = 2 then Sender.completing else .done) ≠ _ ∧ _
    split <;> simp_all
  case timerStop =>
    split at hs <;> cases hs <;> exact .inl rfl
  case startTimer | timerSignal sig | timerCount | timerStopReturn | timerComplete =>
    subst hs
    exact .inl rfl

theorem signalled_step {tr : List (Label ν ε)} {s s' : State ν ε} {l : Label ν ε}
    (hn : Signalled tr s) (hs : next s l = some s') : Signalled (tr ++ [l]) s' := by
  intro sig hsig
  rcases List.mem_append.mp hsig with hsig | hsig
  · have hf := hn sig hsig
    cases sig with
    | value vs | error e =>
      have hignored : s.sender = .ignored := hf
      rcases sender_next hs with he | he | he | ⟨hne, -⟩
      · exact he.trans hignored
      · rw [hignored] at he
        cases he
      · rw [hignored] at he
        cases he
      · exact absurd hignored hne
    | stopped =>
      rcases sender_next hs with he | he | he | ⟨-, hne⟩
      · show s'.sender ≠ _ ∧ _
        rw [he]
        exact hf
      · exact absurd he hf.1
      · exact absurd he hf.2.1
      · exact hne
  · obtain rfl := List.mem_singleton.mp hsig
    simp only [next, Option.ite_none_right_eq_some, Option.some.injEq] at hs
    obtain ⟨-, rfl⟩ := hs
    cases sig <;> simp [Sender.follows, Sender.first]

/-! ## 2. Progress -/

/-- Both completions have ended. -/
def State.final (s : State ν ε) : Prop :=
  (s.sender = .ignored ∨ s.sender = .done) ∧ s.timer = .done

/-- How many steps the completions are away from their ends. -/
def State.left (s : State ν ε) : Nat :=
  (match s.sender with
    | .idle => 6
    | .running => 5
    | .stopping => 4
    | .notifying => 3
    | .counting => 2
    | .completing => 1
    | .ignored | .done => 0) +
  match s.timer with
    | .idle => 5
    | .running => 4
    | .counting => 3
    | .stopping => 2
    | .notifying | .completing => 1
    | .done => 0

/-- The child goes first. -/
def State.turn (s : State ν ε) : Label ν ε :=
  match s.sender, s.timer with
  | .idle, _ => .startSender
  | .running, _ => .senderSignal .stopped
  | .stopping, _ => .senderStop
  | .notifying, _ => .senderStopReturn
  | .counting, _ => .senderCount
  | .completing, _ => .senderComplete
  | _, .idle => .startTimer
  | _, .running => .timerSignal .stopped
  | _, .counting => .timerCount
  | _, .stopping => .timerStop
  | _, .notifying => .timerStopReturn
  | _, .completing | _, .done => .timerComplete

theorem turn_step {s : State ν ε} (h : ¬ s.final) :
    ∃ s', next s s.turn = some s' ∧ s'.left < s.left := by
  obtain ⟨requested, values, errors, done, sender, timer, completions⟩ := s
  cases sender with
  | idle | running | notifying | completing =>
    exact ⟨_, by simp [next, State.turn]; rfl, by simp [State.left, Sender.first]⟩
  | stopping =>
    cases requested <;> exact ⟨_, by simp [next, State.turn]; rfl, by simp [State.left]⟩
  | counting =>
    refine ⟨_, by simp [next, State.turn]; rfl, ?_⟩
    by_cases hd : done = 1 <;> simp [State.left, hd]
  | ignored | done =>
    cases timer with
    | idle | running | notifying | completing =>
      exact ⟨_, by simp [next, State.turn]; rfl, by simp [State.left]⟩
    | stopping =>
      cases requested <;> exact ⟨_, by simp [next, State.turn]; rfl, by simp [State.left]⟩
    | counting =>
      refine ⟨_, by simp [next, State.turn]; rfl, ?_⟩
      by_cases hd : done = 0 <;> simp [State.left, hd]
    | done => simp [State.final] at h

/-- Every run can go on until both completions have ended. -/
theorem finishes (s : State ν ε) : ∃ s', Reaches (system ν ε) s s' ∧ s'.final := by
  induction hn : s.left using Nat.strongRecOn generalizing s with
  | _ n ih =>
    by_cases hf : s.final
    · exact ⟨s, .refl s, hf⟩
    · obtain ⟨s₁, hs, hlt⟩ := turn_step hf
      obtain ⟨s', hr, hf'⟩ := ih _ (hn ▸ hlt) s₁ rfl
      exact ⟨s', .head hs hr, hf'⟩

/-! ## 3. Completion -/

/-- When both completions have ended: the receiver has been completed once, with the
signal of the child, by the second of the two, and the first of them has requested
the stop, if and only if the child was stopped. -/
theorem completes_iff {s : State ν ε} {tr : List (Label ν ε)} {sig : Signal ν ε}
    (h : Run (system ν ε) State.initial tr s) (hsig : .senderSignal sig ∈ tr) (hf : s.final) :
    (s.completions = [sig] ∧ completers tr = (arrivals tr).drop 1 ∧
      ∀ p, (arrivals tr).head? = some p → p ∈ stoppers tr) ↔ sig = .stopped := by
  have hi : Inv s ∧ Arrived tr s ∧ Signalled tr s := by
    refine h.invariant (I := fun tr s => Inv s ∧ Arrived tr s ∧ Signalled tr s)
      ⟨inv_initial, arrived_initial, fun _ hm => absurd hm List.not_mem_nil⟩ ?_
    rintro tr s l s' ⟨hi, ha, hn⟩ hs
    exact ⟨inv_step hi hs, arrived_step hi ha hs, signalled_step hn hs⟩
  obtain ⟨hi, ha, hn⟩ := hi
  obtain ⟨hsender, htimer⟩ := hf
  have hfollows := hn sig hsig
  constructor
  · rintro ⟨honce, -⟩
    -- the receiver has been completed, so the child has arrived
    have hcounted := (hi.finished (.inr (.inr (by simp [honce])))).1
    cases sig with
    | stopped => rfl
    | value vs | error e =>
      rw [show s.sender = .ignored from hfollows] at hcounted
      cases hcounted
  · rintro rfl
    have hdone : s.sender = .done := hsender.resolve_left hfollows.2.2
    have hcompleting : s.completing = [] := by simp [State.completing, hdone, htimer]
    have hsecond := ha.second
    rw [hcompleting, List.append_nil] at hsecond
    have hcount : (arrivals tr).length = 2 := by
      rw [ha.count, hi.counter, hdone, htimer]
      rfl
    refine ⟨?_, hsecond, fun p hp => (ha.first p hp).resolve_right (by simp [htimer])⟩
    rw [ha.result, hsecond, List.map_const', List.length_drop, hcount]
    rfl

/-- The timer fires, and the child is stopped by the stop that this requests. -/
def exStopped : List (Label Unit Unit) :=
  [.startSender, .startTimer, .timerSignal (.value []), .timerCount, .timerStop,
    .senderSignal .stopped, .senderStop, .senderCount, .senderComplete, .timerStopReturn]

theorem completes_iff_example :
    ∃ s : State Unit Unit, Run (system Unit Unit) State.initial exStopped s ∧
      s.completions = [.stopped] ∧ completers exStopped = [.sender] ∧
      arrivals exStopped = [.timer, .sender] := by
  have hrun := run_replay (S := system Unit Unit) (fun _ _ _ => id)
    (show (replay next State.initial exStopped).isSome from rfl)
  have hiff := completes_iff hrun
    (show (.senderSignal .stopped : Label Unit Unit) ∈ exStopped by simp [exStopped]) ⟨.inr rfl, rfl⟩
  exact ⟨_, hrun, (hiff.mpr rfl).1, (hiff.mpr rfl).2.1, rfl⟩

/-- The child completes with a value. -/
def exValue : List (Label Unit Unit) :=
  [.startSender, .senderSignal (.value [()]), .startTimer, .timerSignal (.value []), .timerCount,
    .timerStop, .timerStopReturn]

theorem value_is_lost :
    ¬ ∀ (tr : List (Label Unit Unit)) (s : State Unit Unit) (sig : Signal Unit Unit),
      Run (system Unit Unit) State.initial tr s → .senderSignal sig ∈ tr → s.final →
      s.completions = [sig] ∧ completers tr = (arrivals tr).drop 1 ∧
        ∀ p, (arrivals tr).head? = some p → p ∈ stoppers tr := by
  intro h
  have hrun := run_replay (S := system Unit Unit) (fun _ _ _ => id)
    (show (replay next State.initial exValue).isSome from rfl)
  have honce := (h _ _ (.value [()]) hrun (by simp [exValue]) ⟨.inl rfl, rfl⟩).1
  exact absurd honce (by decide)

end Kuhllib.Timeout
