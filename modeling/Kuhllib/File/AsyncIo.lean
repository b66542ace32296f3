import Kuhllib.Lib.Transition

/-!
# `nstd::hidden_names::async_io`

One asynchronous operation: the completion of the upstream sender with a value,
the result of the operation, the stop callback and the result of the cancel
request are four actors, on any threads, that count down `d_outstanding`. Each
label is one atomic step. The stop callback may start as soon as it is being
registered, and even after the operation is over: `stop()` may have picked it on
another thread.

Results, for every interleaving:
1. `inv_step`: what `d_outstanding` counts.
2. `completes_once`: the receiver is completed once, after all results.
3. `completes_as_iff`: when it gets what the result of the operation stands for.
-/

namespace Kuhllib.AsyncIo

open Transition

/-- The upstream sender: `++d_outstanding`, `engage_callback()` and the start of
the operation are the steps of its completion. -/
inductive Upstream
  | waiting
  | counted
  | engaged
  | started
  deriving DecidableEq, Repr

/-- A request to the context: the operation or its cancellation. `stored` is the
point before `--d_outstanding`, `completing` the one before the completion. -/
inductive Request
  | idle
  | outstanding
  | stored
  | completing
  | delivered
  deriving DecidableEq, Repr

/-- The stop callback; `submitting` is the point before `scheduler.cancel`. -/
inductive Callback
  | idle
  | running
  | submitting
  | done
  deriving DecidableEq, Repr

/-- What the receiver gets. -/
inductive Completion
  | stopped
  | error (code : Int)
  | complete (result : Int) (flags : Nat)
  deriving DecidableEq, Repr

structure State where
  d_outstanding : Nat
  d_cancelled : Bool
  d_result : Int
  d_flags : Nat
  upstream : Upstream
  callback : Callback
  operation : Request
  cancel : Request
  completions : List Completion
  deriving DecidableEq, Repr

def State.initial : State where
  d_outstanding := 0
  d_cancelled := false
  d_result := 0
  d_flags := 0
  upstream := .waiting
  callback := .idle
  operation := .idle
  cancel := .idle
  completions := []

inductive Label
  | set_value
  | engage_callback
  | start
  | callbackStart
  | callbackCount
  | callbackSubmit
  | result (result : Int) (flags : Nat)
  | resultCount
  | resultComplete
  | cancelResult
  | cancelCount
  | cancelComplete
  deriving DecidableEq, Repr

/-- `--d_outstanding` at the end of a request. -/
def countDown (n : Nat) : Request := if n = 0 then .completing else .delivered

/-- How `state_base::do_result` completes the receiver. -/
def State.operationCompletion (s : State) : Completion :=
  if s.d_result < 0 then if s.d_cancelled then .stopped else .error s.d_result
  else .complete s.d_result s.d_flags

/-- How `cancel::do_result` completes the receiver. -/
def State.cancelCompletion (s : State) : Completion :=
  if s.d_result < 0 then .stopped else .complete s.d_result s.d_flags

def next (s : State) : Label → Option State
  -- set_value of the upstream receiver
  | .set_value =>
    if s.upstream = .waiting then
      some { s with d_outstanding := s.d_outstanding + 1, upstream := .counted }
    else none
  | .engage_callback =>
    if s.upstream = .counted then some { s with upstream := .engaged } else none
  | .start =>
    if s.upstream = .engaged then some { s with upstream := .started, operation := .outstanding }
    else none
  -- cancel::operator()
  | .callbackStart =>
    if s.callback = .idle ∧ s.upstream ≠ .waiting then some { s with callback := .running } else none
  | .callbackCount =>
    if s.callback = .running then
      some { s with
        d_outstanding := s.d_outstanding + 1
        callback := if s.d_outstanding + 1 = 2 then .submitting else .done }
    else none
  | .callbackSubmit =>
    if s.callback = .submitting then some { s with callback := .done, cancel := .outstanding }
    else none
  -- state_base::do_result
  | .result r f =>
    if s.operation = .outstanding then
      some { s with operation := .stored, d_result := r, d_flags := f }
    else none
  | .resultCount =>
    if s.operation = .stored then
      some { s with
        d_outstanding := s.d_outstanding - 1
        operation := countDown (s.d_outstanding - 1) }
    else none
  | .resultComplete =>
    if s.operation = .completing then
      some { s with
        operation := .delivered
        completions := s.completions ++ [s.operationCompletion] }
    else none
  -- cancel::do_result
  | .cancelResult =>
    if s.cancel = .outstanding then some { s with cancel := .stored, d_cancelled := true } else none
  | .cancelCount =>
    if s.cancel = .stored then
      some { s with
        d_outstanding := s.d_outstanding - 1
        cancel := countDown (s.d_outstanding - 1) }
    else none
  | .cancelComplete =>
    if s.cancel = .completing then
      some { s with cancel := .delivered, completions := s.completions ++ [s.cancelCompletion] }
    else none

def system : System State Label where
  init s := s = State.initial
  step s l s' := next s l = some s'

/-! ## 1. The counter -/

/-- The operation is counted from `set_value` to the decrement of its result. -/
def State.operationCounts (s : State) : Prop :=
  s.upstream ≠ .waiting ∧ (s.operation = .idle ∨ s.operation = .outstanding ∨ s.operation = .stored)

/-- A cancel request is counted from the increment of the stop callback. -/
def State.cancelCounts (s : State) : Prop :=
  s.callback = .submitting ∨ s.cancel = .outstanding ∨ s.cancel = .stored

instance (s : State) : Decidable s.operationCounts := inferInstanceAs (Decidable (_ ∧ _))

instance (s : State) : Decidable s.cancelCounts := inferInstanceAs (Decidable (_ ∨ _))

/-- The callback came too late: it counted, but there was nothing to cancel. -/
def State.late (s : State) : Prop := s.callback = .done ∧ s.cancel = .idle

instance (s : State) : Decidable s.late := inferInstanceAs (Decidable (_ ∧ _))

/-- The receiver is being completed or has been. -/
def State.completed (s : State) : Nat :=
  (if s.operation = .completing then 1 else 0) + (if s.cancel = .completing then 1 else 0) +
    s.completions.length

/-- What the counter counts. The receiver is completed when neither the operation
nor a cancel request counts any more, by whichever result came last. -/
structure Inv (s : State) : Prop where
  counter : s.d_outstanding = (if s.operationCounts then 1 else 0) +
    (if s.cancelCounts then 1 else 0) + (if s.late then 1 else 0)
  operation : s.operation ≠ .idle → s.upstream = .started
  started : s.upstream = .started → s.operation ≠ .idle
  callback : s.callback ≠ .idle → s.upstream ≠ .waiting
  cancel : s.cancel ≠ .idle → s.callback = .done
  late : s.late → ¬ s.operationCounts
  completed : s.completed =
    if s.upstream ≠ .waiting ∧ ¬ s.operationCounts ∧ ¬ s.cancelCounts then 1 else 0

theorem inv_initial : Inv State.initial where
  counter := rfl
  operation h := absurd rfl h
  started h := by cases h
  callback h := absurd rfl h
  cancel h := absurd rfl h
  late := by decide
  completed := rfl

section

variable {s s' : State}

/-- The receiver is completed only when nothing counts any more. -/
theorem Inv.counts_of_completed (h : Inv s) (hc : 0 < s.completed) :
    ¬ s.operationCounts ∧ ¬ s.cancelCounts ∧ s.completed = 1 ∧ s.operation ≠ .idle := by
  have hcompleted := h.completed
  split at hcompleted
  · next hcounts =>
    refine ⟨hcounts.2.1, hcounts.2.2, hcompleted, fun hidle => hcounts.2.1 ?_⟩
    exact ⟨hcounts.1, .inl hidle⟩
  · omega

/-- Nobody completes the receiver while a request counts. -/
theorem Inv.not_completed (h : Inv s) (hc : s.operationCounts ∨ s.cancelCounts) :
    s.operation ≠ .completing ∧ s.cancel ≠ .completing ∧ s.completions = [] := by
  have hzero : s.completed = 0 := by
    by_contra hpos
    obtain ⟨hop, hcancel, -⟩ := h.counts_of_completed (Nat.pos_of_ne_zero hpos)
    exact hc.elim hop hcancel
  simp only [State.completed, Nat.add_eq_zero_iff, List.length_eq_zero_iff] at hzero
  obtain ⟨⟨hop, hcancel⟩, hnil⟩ := hzero
  exact ⟨fun he => by simp [he] at hop, fun he => by simp [he] at hcancel, hnil⟩

/-- Before `set_value` nothing has happened. -/
theorem Inv.waiting (h : Inv s) (hw : s.upstream = .waiting) :
    s.operation = .idle ∧ s.callback = .idle ∧ s.cancel = .idle ∧ s.completions = [] ∧
      s.d_outstanding = 0 := by
  have hop : s.operation = .idle := by
    by_contra hne
    rw [h.operation hne] at hw
    cases hw
  have hcallback : s.callback = .idle := by
    by_contra hne
    exact h.callback hne hw
  have hcancel : s.cancel = .idle := by
    by_contra hne
    rw [h.cancel hne] at hcallback
    cases hcallback
  have hcompleted := h.completed
  rw [if_neg fun hc => hc.1 hw] at hcompleted
  simp only [State.completed, Nat.add_eq_zero_iff, List.length_eq_zero_iff] at hcompleted
  refine ⟨hop, hcallback, hcancel, hcompleted.2, ?_⟩
  rw [h.counter, if_neg fun hc => hc.1 hw, if_neg (by simp [State.cancelCounts, hcallback, hcancel]),
    if_neg (by simp [State.late, hcallback])]

/-- A step that changes neither what counts nor who completes the receiver. -/
theorem Inv.same (h : Inv s) (hd : s'.d_outstanding = s.d_outstanding)
    (hwaiting : s'.upstream = .waiting ↔ s.upstream = .waiting)
    (hop : s'.operationCounts ↔ s.operationCounts) (hc : s'.cancelCounts ↔ s.cancelCounts)
    (hlate : s'.late ↔ s.late) (hcompleted : s'.completed = s.completed)
    (operation : s'.operation ≠ .idle → s'.upstream = .started)
    (started : s'.upstream = .started → s'.operation ≠ .idle)
    (callback : s'.callback ≠ .idle → s'.upstream ≠ .waiting)
    (cancel : s'.cancel ≠ .idle → s'.callback = .done) : Inv s' := by
  refine ⟨?_, operation, started, callback, cancel, fun hl => ?_, ?_⟩
  · simp only [hd, hop, hc, hlate, h.counter]
  · rw [hop]
    exact h.late (hlate.mp hl)
  · simp only [hcompleted, ne_eq, hwaiting, hop, hc, h.completed]

/-- The invariant while the operation counts. -/
theorem Inv.counting (hop : s.operationCounts) (hlate : ¬ s.late)
    (hd : s.d_outstanding = 1 + if s.cancelCounts then 1 else 0) (hcompleted : s.completed = 0)
    (operation : s.operation ≠ .idle → s.upstream = .started)
    (started : s.upstream = .started → s.operation ≠ .idle)
    (cancel : s.cancel ≠ .idle → s.callback = .done) : Inv s := by
  refine ⟨?_, operation, started, fun _ => hop.1, cancel, fun hl => absurd hl hlate, ?_⟩
  · rw [if_pos hop, if_neg hlate, hd, Nat.add_zero]
  · rw [if_neg fun hc => hc.2.1 hop, hcompleted]

/-- The invariant when its result has been counted. -/
theorem Inv.counted (hup : s.upstream = .started) (hop : ¬ s.operationCounts)
    (hd : s.d_outstanding = (if s.cancelCounts then 1 else 0) + if s.late then 1 else 0)
    (hcompleted : s.completed = if s.cancelCounts then 0 else 1)
    (cancel : s.cancel ≠ .idle → s.callback = .done) : Inv s := by
  have hwaiting : s.upstream ≠ .waiting := by simp [hup]
  refine ⟨?_, fun _ => hup, fun _ hidle => hop ⟨hwaiting, .inl hidle⟩, fun _ => hwaiting, cancel,
    fun _ => hop, ?_⟩
  · rw [if_neg hop, hd, Nat.zero_add]
  · rw [hcompleted]
    by_cases hc : s.cancelCounts
    · rw [if_pos hc, if_neg fun hn => hn.2.2 hc]
    · rw [if_neg hc, if_pos ⟨hwaiting, hop, hc⟩]

/-- An operation that does not count any more was started. -/
theorem Inv.upstream_started (h : Inv s) (hw : s.upstream ≠ .waiting) (hop : ¬ s.operationCounts) :
    s.upstream = .started :=
  h.operation fun hidle => hop ⟨hw, .inl hidle⟩

/-- The upstream sender counts the operation. -/
theorem Inv.set_value (h : Inv s) (hw : s.upstream = .waiting) :
    Inv { s with d_outstanding := s.d_outstanding + 1, upstream := .counted } := by
  obtain ⟨hop, hcallback, hcancel, hnil, hd⟩ := h.waiting hw
  refine .counting ⟨by simp, .inl hop⟩ (by simp [State.late, hcallback]) ?_ ?_
    (fun hne => absurd hop hne) (by simp) h.cancel
  · simp [State.cancelCounts, hcallback, hcancel, hd]
  · simp [State.completed, hop, hcancel, hnil]

/-- The stop callback counts a cancel request. It finds `1` while the operation
counts and `0` afterwards. -/
theorem Inv.callbackCount (h : Inv s) (hcb : s.callback = .running) :
    Inv { s with
      d_outstanding := s.d_outstanding + 1
      callback := if s.d_outstanding + 1 = 2 then .submitting else .done } := by
  have hup : s.upstream ≠ .waiting := h.callback (by simp [hcb])
  have hcancel : s.cancel = .idle := by
    by_contra hne
    rw [h.cancel hne] at hcb
    cases hcb
  have hcc : ¬ s.cancelCounts := by simp [State.cancelCounts, hcb, hcancel]
  have hcounter := h.counter
  rw [if_neg hcc, if_neg (by simp [State.late, hcb] : ¬ s.late)] at hcounter
  by_cases hop : s.operationCounts
  · obtain ⟨hopc, -, hnil⟩ := h.not_completed (.inl hop)
    rw [if_pos hop] at hcounter
    refine .counting hop ?_ ?_ ?_ h.operation h.started fun hne => absurd hcancel hne
    · simp [State.late, hcounter]
    · simp [State.cancelCounts, hcounter]
    · simp [State.completed, hopc, hcancel, hnil]
  · rw [if_neg hop] at hcounter
    have hone : s.completed = 1 := by rw [h.completed, if_pos ⟨hup, hop, hcc⟩]
    refine .counted (h.upstream_started hup hop) hop ?_ ?_ fun hne => absurd hcancel hne
    · simp [State.cancelCounts, State.late, hcounter, hcancel]
    · refine hone.trans (if_neg ?_).symm
      simp [State.cancelCounts, hcounter, hcancel]

theorem countDown_ne (n : Nat) :
    countDown n ≠ .idle ∧ countDown n ≠ .outstanding ∧ countDown n ≠ .stored := by
  unfold countDown
  split <;> simp

/-- The result of the operation gives its count back. It finds `1` exactly when
no cancel request counts. -/
theorem Inv.resultCount (h : Inv s) (ho : s.operation = .stored) :
    Inv { s with
      d_outstanding := s.d_outstanding - 1
      operation := countDown (s.d_outstanding - 1) } := by
  have hup : s.upstream = .started := h.operation (by simp [ho])
  have hop : s.operationCounts := ⟨by simp [hup], .inr (.inr ho)⟩
  have hlate : ¬ s.late := fun hl => h.late hl hop
  obtain ⟨-, hcc, hnil⟩ := h.not_completed (.inl hop)
  obtain ⟨hidle, houtstanding, hstored⟩ := countDown_ne (s.d_outstanding - 1)
  have hcounter : s.d_outstanding - 1 = if s.cancelCounts then 1 else 0 := by
    rw [h.counter, if_pos hop, if_neg hlate]
    omega
  refine .counted hup ?_ ?_ ?_ h.cancel
  · simp [State.operationCounts, hidle, houtstanding, hstored]
  · show s.d_outstanding - 1 = (if s.cancelCounts then 1 else 0) + if s.late then 1 else 0
    rw [hcounter, if_neg hlate]
    rfl
  · show _ = if s.cancelCounts then 0 else 1
    by_cases hc : s.cancelCounts
    · rw [if_pos hc] at hcounter ⊢
      simp [State.completed, hcounter, countDown, hcc, hnil]
    · rw [if_neg hc] at hcounter ⊢
      simp [State.completed, hcounter, countDown, hcc, hnil]

/-- So does the result of the cancel request. -/
theorem Inv.cancelCount (h : Inv s) (hc : s.cancel = .stored) :
    Inv { s with
      d_outstanding := s.d_outstanding - 1
      cancel := countDown (s.d_outstanding - 1) } := by
  have hcb : s.callback = .done := h.cancel (by simp [hc])
  have hup : s.upstream ≠ .waiting := h.callback (by simp [hcb])
  have hcounts : s.cancelCounts := .inr (.inr hc)
  have hlate : ¬ s.late := by simp [State.late, hc]
  obtain ⟨hopc, -, hnil⟩ := h.not_completed (.inr hcounts)
  obtain ⟨hidle, houtstanding, hstored⟩ := countDown_ne (s.d_outstanding - 1)
  have hcounter : s.d_outstanding - 1 = if s.operationCounts then 1 else 0 := by
    rw [h.counter, if_pos hcounts, if_neg hlate]
    omega
  by_cases hop : s.operationCounts
  · rw [if_pos hop] at hcounter
    refine .counting hop ?_ ?_ ?_ h.operation h.started fun _ => hcb
    · simp [State.late, hidle]
    · simp [State.cancelCounts, hcb, hcounter, countDown]
    · simp [State.completed, hcounter, countDown, hopc, hnil]
  · rw [if_neg hop] at hcounter
    refine .counted (h.upstream_started hup hop) hop ?_ ?_ fun _ => hcb
    · simp [State.cancelCounts, State.late, hcb, hcounter, countDown]
    · simp [State.completed, State.cancelCounts, hcb, hcounter, countDown, hopc, hnil]

end

/-- Every atomic step keeps the invariant. -/
theorem inv_step {s s' : State} {l : Label} (h : Inv s) (hs : next s l = some s') : Inv s' := by
  cases l <;> simp only [next, Option.ite_none_right_eq_some, Option.some.injEq] at hs <;>
    obtain ⟨hg, rfl⟩ := hs
  case set_value => exact h.set_value hg
  case engage_callback =>
    refine h.same rfl (by simp [hg]) (by simp [State.operationCounts, hg]) .rfl .rfl rfl
      (fun hne => ?_) (by simp) (by simp) h.cancel
    rw [h.operation hne] at hg
    cases hg
  case start =>
    have hidle : s.operation = .idle := by
      by_contra hne
      rw [h.operation hne] at hg
      cases hg
    refine h.same rfl (by simp [hg]) (by simp [State.operationCounts, hg, hidle]) .rfl .rfl
      (by simp [State.completed, hidle]) (by simp) (by simp) (by simp) h.cancel
  case callbackStart =>
    have hcancel : s.cancel = .idle := by
      by_contra hne
      rw [h.cancel hne] at hg
      cases hg.1
    exact h.same rfl .rfl .rfl (by simp [State.cancelCounts, hg.1]) (by simp [State.late, hg.1]) rfl
      h.operation h.started (fun _ => hg.2) (fun hne => absurd hcancel hne)
  case callbackCount => exact h.callbackCount hg
  case callbackSubmit =>
    have hup : s.upstream ≠ .waiting := h.callback (by simp [hg])
    obtain ⟨-, hcc, -⟩ := h.not_completed (.inr (.inl hg))
    exact h.same rfl .rfl .rfl (by simp [State.cancelCounts, hg]) (by simp [State.late, hg])
      (by simp [State.completed, hcc]) h.operation h.started (fun _ => hup) (by simp)
  case result =>
    have hup : s.upstream = .started := h.operation (by simp [hg])
    exact h.same rfl .rfl (by simp [State.operationCounts, hg]) .rfl .rfl
      (by simp [State.completed, hg]) (fun _ => hup) (by simp) h.callback h.cancel
  case resultCount => exact h.resultCount hg
  case resultComplete =>
    have hup : s.upstream = .started := h.operation (by simp [hg])
    exact h.same rfl .rfl (by simp [State.operationCounts, hg]) .rfl .rfl
      (by simp [State.completed, hg]; omega) (fun _ => hup) (by simp) h.callback h.cancel
  case cancelResult =>
    have hcb : s.callback = .done := h.cancel (by simp [hg])
    exact h.same rfl .rfl .rfl (by simp [State.cancelCounts, hg]) (by simp [State.late, hg])
      (by simp [State.completed, hg]) h.operation h.started h.callback (fun _ => hcb)
  case cancelCount => exact h.cancelCount hg
  case cancelComplete =>
    have hcb : s.callback = .done := h.cancel (by simp [hg])
    exact h.same rfl .rfl .rfl (by simp [State.cancelCounts, hg]) (by simp [State.late, hg])
      (by simp [State.completed, hg]; omega) h.operation h.started h.callback (fun _ => hcb)

theorem inv_run {s : State} {tr : List Label} (h : Run system State.initial tr s) : Inv s :=
  h.invariant_state inv_initial fun _ _ _ => inv_step

/-! ## 2. Completion -/

/-- Nothing is left to do, apart from a stop callback that nobody calls. -/
def Quiescent (s : State) : Prop := ∀ l, l ≠ .callbackStart → next s l = none

namespace AsyncIoLemmas

theorem quiescent_counts {s : State} (hq : Quiescent s) (h : Inv s) :
    s.upstream = .started ∧ ¬ s.operationCounts ∧ ¬ s.cancelCounts ∧ s.operation ≠ .completing ∧
      s.cancel ≠ .completing := by
  have up : s.upstream = .started := by
    cases hu : s.upstream with
    | waiting => simpa [next, hu] using hq .set_value
    | counted => simpa [next, hu] using hq .engage_callback
    | engaged => simpa [next, hu] using hq .start
    | started => rfl
  refine ⟨up, ?_, ?_, fun he => ?_, fun he => ?_⟩
  · rintro ⟨-, he | he | he⟩
    · exact h.started up he
    · simpa [next, he] using hq (.result 0 0)
    · simpa [next, he] using hq .resultCount
  · rintro (he | he | he)
    · simpa [next, he] using hq .callbackSubmit
    · simpa [next, he] using hq .cancelResult
    · simpa [next, he] using hq .cancelCount
  · simpa [next, he] using hq .resultComplete
  · simpa [next, he] using hq .cancelComplete

end AsyncIoLemmas

open AsyncIoLemmas

/-- In every interleaving the receiver is completed at most once, never before
the results of the operation and of a submitted cancel request have arrived; a
cancel request is only submitted before that; and when nothing is left to do the
receiver has been completed. -/
theorem completes_once {s : State} {tr : List Label} (h : Run system State.initial tr s) :
    s.completions.length ≤ 1 ∧
    (s.completions ≠ [] →
      s.operation = .delivered ∧ (s.cancel = .idle ∨ s.cancel = .delivered)) ∧
    (∀ s', next s .callbackSubmit = some s' → s.completions = []) ∧
    (Quiescent s → s.completions.length = 1) := by
  have hi := inv_run h
  have hle : s.completions.length ≤ s.completed := Nat.le_add_left _ _
  refine ⟨?_, fun hne => ?_, fun s' hs => ?_, fun hq => ?_⟩
  · rcases Nat.eq_zero_or_pos s.completed with hz | hpos
    · omega
    · have := (hi.counts_of_completed hpos).2.2.1
      omega
  · have hlen := List.length_pos_iff.mpr hne
    obtain ⟨hop, hcancel, hone, hidle⟩ := hi.counts_of_completed (by omega)
    have hup := hi.operation hidle
    -- the completion that was made is the only one, so none is under way
    unfold State.completed at hone
    have hop' : s.operation ≠ .completing := fun he => by rw [if_pos he] at hone; omega
    have hcancel' : s.cancel ≠ .completing := fun he => by rw [if_pos he] at hone; omega
    unfold State.operationCounts at hop
    unfold State.cancelCounts at hcancel
    constructor
    · cases ho : s.operation <;> simp_all
    · cases hc : s.cancel <;> simp_all
  · simp only [next, Option.ite_none_right_eq_some] at hs
    by_contra hne
    have hlen := List.length_pos_iff.mpr hne
    exact (hi.counts_of_completed (by omega)).2.1 (.inl hs.1)
  · obtain ⟨hup, hop, hcancel, hopc, hcancelc⟩ := quiescent_counts hq hi
    have hcompleted := hi.completed
    rw [if_pos ⟨by rw [hup]; decide, hop, hcancel⟩] at hcompleted
    simpa [State.completed, hopc, hcancelc] using hcompleted

/-- The stop callback runs while it is being registered, and the result of the
cancel request arrives before the operation is started. -/
def exEarly : List Label :=
  [.set_value, .callbackStart, .callbackCount, .callbackSubmit, .cancelResult, .cancelCount,
    .engage_callback, .start, .result (-125) 0, .resultCount, .resultComplete]

theorem completes_once_example : ∃ s : State,
    Run system State.initial exEarly s ∧ s.completions.length = 1 := by
  have hrun := run_replay (S := system) (fun _ _ _ => id)
    (show (replay next State.initial exEarly).isSome from rfl)
  refine ⟨_, hrun, (completes_once hrun).2.2.2 fun l _ => ?_⟩
  cases l <;> rfl

/-! ## 3. What the receiver gets -/

def ECANCELED : Int := 125

/-- The results of the operation. -/
def Label.results : Label → List (Int × Nat)
  | .result r f => [(r, f)]
  | _ => []

/-- The cancellation of the operation has been requested. -/
def Requested (tr : List Label) : Prop := .callbackSubmit ∈ tr

instance (tr : List Label) : Decidable (Requested tr) := inferInstanceAs (Decidable (_ ∈ tr))

/-- The completion that the result `r` of the operation stands for. -/
def faithful (requested : Prop) [Decidable requested] (r : Int) (f : Nat) : Completion :=
  if 0 ≤ r then .complete r f
  else if requested ∧ r = -ECANCELED then .stopped
  else .error (-r)

/-- The completion that the receiver gets. -/
def State.completion (s : State) : Completion :=
  if s.d_result < 0 then if s.cancel ≠ .idle then .stopped else .error s.d_result
  else .complete s.d_result s.d_flags

/-- What the labels so far say about the state. -/
structure Told (tr : List Label) (s : State) : Prop where
  results : tr.flatMap Label.results =
    if s.operation = .idle ∨ s.operation = .outstanding then [] else [(s.d_result, s.d_flags)]
  requested : Requested tr ↔ s.cancel ≠ .idle
  cancelled : s.d_cancelled = true ↔ s.cancel ≠ .idle ∧ s.cancel ≠ .outstanding
  completions : ∀ c ∈ s.completions, c = s.completion

theorem Told.initial : Told [] State.initial where
  results := rfl
  requested := by decide
  cancelled := by decide
  completions _ h := by cases h

theorem requested_snoc {tr : List Label} {l : Label} :
    Requested (tr ++ [l]) ↔ Requested tr ∨ .callbackSubmit = l := by
  rw [Requested, List.mem_append, List.mem_singleton, Requested]

/-- A step that is none of the results. -/
theorem Told.other {tr : List Label} {s s' : State} {l : Label} (h : Told tr s)
    (hl : l.results = []) (hne : .callbackSubmit ≠ l)
    (hop : s'.operation = .idle ∨ s'.operation = .outstanding ↔
      s.operation = .idle ∨ s.operation = .outstanding)
    (hresult : s'.d_result = s.d_result ∧ s'.d_flags = s.d_flags)
    (hcancel : s'.cancel = .idle ↔ s.cancel = .idle)
    (hcancelled : s'.d_cancelled = true ↔ s'.cancel ≠ .idle ∧ s'.cancel ≠ .outstanding)
    (hcompletions : ∀ c ∈ s'.completions, c ∈ s.completions ∨ c = s.completion) :
    Told (tr ++ [l]) s' := by
  have hcompletion : s'.completion = s.completion := by
    simp only [State.completion, hresult.1, hresult.2, ne_eq, hcancel]
  refine ⟨?_, ?_, hcancelled, fun c hc => ?_⟩
  · simp only [List.flatMap_append, List.flatMap_singleton, hl, List.append_nil, h.results, hop,
      hresult.1, hresult.2]
  · rw [requested_snoc, or_iff_left hne, h.requested, ne_eq, ne_eq, hcancel]
  · rw [hcompletion]
    exact (hcompletions c hc).elim (h.completions c) id

namespace AsyncIoLemmas

theorem told_step {tr : List Label} {s s' : State} {l : Label} (hi : Inv s) (h : Told tr s)
    (hs : next s l = some s') : Told (tr ++ [l]) s' := by
  cases l <;> simp only [next, Option.ite_none_right_eq_some, Option.some.injEq] at hs <;>
    obtain ⟨hg, rfl⟩ := hs
  case set_value | engage_callback | callbackStart | callbackCount =>
    exact h.other rfl (by simp) .rfl ⟨rfl, rfl⟩ .rfl h.cancelled fun _ => .inl
  case start =>
    have hidle : s.operation = .idle := by
      by_contra hne
      rw [hi.operation hne] at hg
      cases hg
    exact h.other rfl (by simp) (by simp [hidle]) ⟨rfl, rfl⟩ .rfl h.cancelled fun _ => .inl
  case callbackSubmit =>
    have hidle : s.cancel = .idle := by
      by_contra hne
      rw [hi.cancel hne] at hg
      cases hg
    obtain ⟨-, -, hnil⟩ := hi.not_completed (.inr (.inl hg))
    refine ⟨?_, iff_of_true (requested_snoc.mpr (.inr rfl)) (by simp), ?_, by simp [hnil]⟩
    · simp only [List.flatMap_append, List.flatMap_singleton, h.results]
      exact List.append_nil _
    · simp [h.cancelled, hidle]
  case result r f =>
    have hup : s.upstream = .started := hi.operation (by simp [hg])
    obtain ⟨-, -, hnil⟩ := hi.not_completed (.inl ⟨by simp [hup], .inr (.inl hg)⟩)
    refine ⟨?_, ?_, h.cancelled, by simp [hnil]⟩
    · simp only [List.flatMap_append, List.flatMap_singleton, h.results, hg]
      rfl
    · rw [requested_snoc, or_iff_left (by simp), h.requested]
  case resultCount =>
    obtain ⟨hidle, houtstanding, -⟩ := countDown_ne (s.d_outstanding - 1)
    exact h.other rfl (by simp) (by simp [hidle, houtstanding, hg]) ⟨rfl, rfl⟩ .rfl h.cancelled
      fun _ => .inl
  case resultComplete =>
    have hpos : 0 < s.completed := by rw [State.completed, if_pos hg]; omega
    obtain ⟨-, hcounts, -, -⟩ := hi.counts_of_completed hpos
    -- a cancel request whose result is still to come would count
    have hcancelled : s.d_cancelled = true ↔ s.cancel ≠ .idle := by
      rw [h.cancelled, and_iff_left fun ho => hcounts (.inr (.inl ho))]
    have hcompletion : s.operationCompletion = s.completion := by
      simp only [State.operationCompletion, State.completion, hcancelled]
    refine h.other rfl (by simp) (by simp [hg]) ⟨rfl, rfl⟩ .rfl h.cancelled fun c hc => ?_
    rw [List.mem_append, List.mem_singleton, hcompletion] at hc
    exact hc
  case cancelResult =>
    exact h.other rfl (by simp) .rfl ⟨rfl, rfl⟩ (by simp [hg]) (by simp) fun _ => .inl
  case cancelCount =>
    obtain ⟨hidle, houtstanding, -⟩ := countDown_ne (s.d_outstanding - 1)
    refine h.other rfl (by simp) .rfl ⟨rfl, rfl⟩ (by simp [hidle, hg]) ?_ fun _ => .inl
    simp [h.cancelled, hidle, houtstanding, hg]
  case cancelComplete =>
    have hcompletion : s.cancelCompletion = s.completion := by
      simp [State.cancelCompletion, State.completion, hg]
    refine h.other rfl (by simp) .rfl ⟨rfl, rfl⟩ (by simp [hg]) (by simp [h.cancelled, hg])
      fun c hc => ?_
    rw [List.mem_append, List.mem_singleton, hcompletion] at hc
    exact hc

theorem told_run {s : State} {tr : List Label} (h : Run system State.initial tr s) :
    Told tr s := by
  have hboth := h.invariant (I := fun tr s => Inv s ∧ Told tr s) ⟨inv_initial, Told.initial⟩
    fun _ _ _ _ hi hs => ⟨inv_step hi.1 hs, told_step hi.1 hi.2 hs⟩
  exact hboth.2

theorem completion_iff {requested : Prop} [Decidable requested] (r : Int) (f : Nat) :
    (if r < 0 then if requested then .stopped else .error r else .complete r f) =
        faithful requested r f ↔ 0 ≤ r ∨ requested ∧ r = -ECANCELED := by
  unfold faithful
  by_cases hr : r < 0
  · have hneg : ¬ 0 ≤ r := by omega
    rw [if_pos hr, if_neg hneg, or_iff_right hneg]
    by_cases hreq : requested
    · rw [if_pos hreq]
      by_cases hcode : r = -ECANCELED
      · rw [if_pos ⟨hreq, hcode⟩]
        exact iff_of_true rfl ⟨hreq, hcode⟩
      · rw [if_neg fun h => hcode h.2]
        exact iff_of_false (by simp) fun h => hcode h.2
    · rw [if_neg hreq, if_neg fun h => hreq h.1, Completion.error.injEq]
      exact iff_of_false (by omega) fun h => hreq h.1
  · rw [if_neg hr, if_pos (by omega)]
    exact iff_of_true rfl (.inl (by omega))

end AsyncIoLemmas

/-- Whatever the order of the result, the stop callback and the result of the cancel request:
a completion is the one that the result of the operation stands for exactly if that is a value
or the operation was cancelled on request. -/
theorem completes_as_iff {s : State} {tr : List Label} (h : Run system State.initial tr s)
    {c : Completion} (hc : c ∈ s.completions) :
    ∃ r f, tr.flatMap Label.results = [(r, f)] ∧
      (c = faithful (Requested tr) r f ↔ 0 ≤ r ∨ Requested tr ∧ r = -ECANCELED) := by
  have hi := inv_run h
  have htold := told_run h
  have hlen := List.length_pos_iff.mpr (List.ne_nil_of_mem hc)
  have hle : s.completions.length ≤ s.completed := Nat.le_add_left _ _
  obtain ⟨hop, -, -, hidle⟩ := hi.counts_of_completed (by omega)
  have hup : s.upstream ≠ .waiting := by simp [hi.operation hidle]
  have hended : ¬ (s.operation = .idle ∨ s.operation = .outstanding) := fun h =>
    hop ⟨hup, h.imp_right .inl⟩
  refine ⟨s.d_result, s.d_flags, ?_, ?_⟩
  · rw [htold.results, if_neg hended]
  · rw [htold.completions c hc, State.completion]
    simp only [← htold.requested]
    exact completion_iff s.d_result s.d_flags

/-- A value, although the cancellation was requested. -/
def exValue : List Label :=
  [.set_value, .engage_callback, .start, .callbackStart, .callbackCount, .callbackSubmit,
    .result 7 0, .resultCount, .cancelResult, .cancelCount, .cancelComplete]

theorem completes_as_iff_example : ∃ s : State, Run system State.initial exValue s ∧
    ∀ c ∈ s.completions, c = faithful (Requested exValue) 7 0 := by
  have hrun := run_replay (S := system) (fun _ _ _ => id)
    (show (replay next State.initial exValue).isSome from rfl)
  refine ⟨_, hrun, fun c hc => ?_⟩
  obtain ⟨r, f, hr, hiff⟩ := completes_as_iff hrun hc
  cases hr
  exact hiff.mpr (.inl (by decide))

/-- The error code has the value `-9`. -/
theorem not_completes_as : ¬ ∀ (tr : List Label) (s : State), Run system State.initial tr s →
    ∀ c ∈ s.completions, ∀ r f, (r, f) ∈ tr.flatMap Label.results →
      c = faithful (Requested tr) r f := by
  intro hall
  have hrun := run_replay (S := system) (fun _ _ _ => id)
    (show (replay next State.initial [.set_value, .engage_callback, .start, .result (-9) 0,
      .resultCount, .resultComplete]).isSome from rfl)
  have hc := hall _ _ hrun (.error (-9)) (List.mem_singleton_self _) (-9) 0
    (List.mem_singleton_self _)
  exact absurd hc (by decide)

end Kuhllib.AsyncIo
