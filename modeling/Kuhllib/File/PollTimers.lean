import Kuhllib.File.PollResults
import Mathlib.Algebra.Ring.Int.Defs

/-!
# The timers of `poll_context`

Runs in which timers are all that is submitted, by anyone and at any time. The
clock is what `now` is in the labels.

`timers_served`: as long as `do_run_one` does not use an invalid `d_next_poll` and
the times fit, each timer is pending once or was called once with `0`, not before
its expiry and in order of expiry, and a due timer is served first.
-/

namespace Kuhllib.PollContext

open Transition

variable {κ : Type}

/-! ## 1. Requests -/

/-- When a timer is to expire, and its continuation. -/
def request : Label κ → Option (Int × κ)
  | .call (.timer now sec nsec c) => some (now + sec * 1000000000 + nsec, c)
  | _ => none

/-- The timers that were submitted; the ticket of each is its place plus one. -/
def requests (tr : List (Label κ)) : List (Int × κ) := tr.filterMap request

/-- Nothing but timers is submitted. -/
def Timers : Label κ → Prop
  | .call (.timer _ _ _ _) => True
  | .call _ => False
  | _ => True

/-- The expiry can be represented, and `handle_io` does not find an invalid `d_next_poll`. -/
def InTime (s : State κ) : Label κ → Prop
  | .call (.timer now sec nsec _) =>
    -2 ^ 63 ≤ now + sec * 1000000000 + nsec ∧ now + sec * 1000000000 + nsec < 2 ^ 63
  | .handle_io => s.d_next_poll ≠ none
  | _ => True

/-- The points of `do_run_one` that are reached without other operations. -/
def Point.OfTimers : Point → Prop
  | .cancelled _ _ | .cancelling _ _ | .erasing _ | .ioDone | .undefined => False
  | _ => True

/-- The self-pipe is alone, and timers and results are those of the requests. -/
structure TimerInv (pipe : Nat) (tr : List (Label κ)) (s : State κ) : Prop where
  outstanding : s.d_outstanding = [⟨0, pipe, POLLIN, .self_pipe, none⟩]
  run : s.run.OfTimers
  length : s.submitted.length = (requests tr).length + 1
  timers : ∀ u ∈ s.d_timers, ∃ k, u.ticket = k + 1 ∧
    (requests tr)[k]? = some (u.d_expiry, u.d_continuation)
  results : ∀ d ∈ s.results, ∃ k r, (requests tr)[k]? = some r ∧ d = ⟨k + 1, some r.2, .value 0⟩

namespace PollTimersLemmas

variable {pipe : Nat} {s s' : State κ} {tr : List (Label κ)} {l : Label κ}

theorem requests_snoc (h : request l = none) : requests (tr ++ [l]) = requests tr := by
  rw [requests, List.filterMap_append]
  simp [requests, h]

theorem requests_call {now nsec : Int} {sec : Nat} {c : κ} :
    requests (tr ++ [.call (.timer now sec nsec c)]) =
      requests tr ++ [(now + sec * 1000000000 + nsec, c)] := by
  rw [requests, List.filterMap_append]
  rfl

theorem timerInv_initial (pipe : Nat) : TimerInv pipe [] (State.initial pipe : State κ) where
  outstanding := rfl
  run := trivial
  length := rfl
  timers := by simp [State.initial]
  results := by simp [State.initial]

/-- A step that changes no operation. -/
theorem timerInv_control (h : TimerInv pipe tr s) (hl : request l = none)
    (houtstanding : s'.d_outstanding = s.d_outstanding) (htimers : s'.d_timers = s.d_timers)
    (hsubmitted : s'.submitted = s.submitted) (hresults : s'.results = s.results)
    (hrun : s'.run.OfTimers) : TimerInv pipe (tr ++ [l]) s' where
  outstanding := by
    rw [houtstanding]
    exact h.outstanding
  run := hrun
  length := by
    rw [hsubmitted, requests_snoc hl]
    exact h.length
  timers := by
    rw [htimers, requests_snoc hl]
    exact h.timers
  results := by
    rw [hresults, requests_snoc hl]
    exact h.results

/-- The time that is stored is the one that was asked for. -/
theorem expiry_eq {now nsec : Int} {sec : Nat}
    (h : -2 ^ 63 ≤ now + sec * 1000000000 + nsec ∧ now + sec * 1000000000 + nsec < 2 ^ 63) :
    expiry now sec nsec = now + sec * 1000000000 + nsec := by
  unfold expiry
  exact Int.bmod_eq_of_le (by omega) (by omega)

theorem timerInv_do_timer {now nsec : Int} {sec : Nat} {c : κ} (h : TimerInv pipe tr s)
    (hfit : -2 ^ 63 ≤ now + sec * 1000000000 + nsec ∧ now + sec * 1000000000 + nsec < 2 ^ 63) :
    TimerInv pipe (tr ++ [.call (.timer now sec nsec c)]) (s.do_timer now sec nsec c) := by
  refine ⟨h.outstanding, h.run, ?_, fun u hu => ?_, fun d hd => ?_⟩
  · rw [requests_call]
    simp [State.do_timer, h.length]
  · rw [requests_call]
    rcases List.mem_cons.mp hu with rfl | hu
    · refine ⟨(requests tr).length, h.length, ?_⟩
      rw [expiry_eq hfit]
      simp
    · obtain ⟨k, hk, hr⟩ := h.timers u hu
      refine ⟨k, hk, ?_⟩
      rw [List.getElem?_append_left (List.getElem?_eq_some_iff.mp hr).1, hr]
  · rw [requests_call]
    obtain ⟨k, r, hr, hd⟩ := h.results d hd
    refine ⟨k, r, ?_, hd⟩
    rw [List.getElem?_append_left (List.getElem?_eq_some_iff.mp hr).1, hr]

theorem timerInv_handle_timer {now : Int} {i : Nat} (h : TimerInv pipe tr s)
    (hs : HandlesTimer s now i s') : TimerInv pipe (tr ++ [.handle_timer now i]) s' := by
  cases hs with
  | none | early => exact timerInv_control h rfl rfl rfl rfl rfl trivial
  | due ht hmin hdue =>
    have hnone : request (.handle_timer now i : Label κ) = none := rfl
    refine ⟨h.outstanding, trivial, ?_, fun u hu => ?_, fun d hd => ?_⟩
    · rw [requests_snoc hnone]
      exact h.length
    · rw [requests_snoc hnone]
      exact h.timers u (List.mem_of_mem_eraseIdx hu)
    · rw [requests_snoc hnone]
      rcases List.mem_append.mp hd with hd | hd
      · exact h.results d hd
      · obtain ⟨k, hk, hr⟩ := h.timers _ (List.mem_of_getElem? ht)
        refine ⟨k, _, hr, ?_⟩
        rw [List.mem_singleton.mp hd, hk]

/-- The self-pipe is never complete. -/
theorem scan_eq {rit : Nat} {o : Outcome} (h : TimerInv pipe tr s) (hs : Scans s rit o s') :
    (∃ i, s' = { s with d_next_poll := some (i + 1), run := .io }) ∨
      s' = { s with run := .scanning (rit + 1) } := by
  cases hs with
  | @ended i => exact .inl ⟨i, rfl⟩
  | passed => exact .inr rfl
  | done hi hp he hmatch ha =>
    have hmem := List.mem_of_getElem? he
    rw [h.outstanding, List.mem_singleton] at hmem
    rw [hmem] at ha
    cases ha

/-- Continuations are called by `handle_timer` alone. -/
theorem resume_eq (h : TimerInv pipe tr s) (hs : Resumes s s') : s' = s.returns 1 := by
  have hrun := h.run
  cases hs with
  | timerDone => rfl
  | none hp | found hp | lost hp | cancelling hp | erasing hp | ioDone hp =>
    rw [hp] at hrun
    exact hrun.elim

theorem timerInv_polled {r : PollResult} (h : TimerInv pipe tr s) :
    TimerInv pipe (tr ++ [.polled r]) (s.polled r) := by
  cases r with
  | ready revents => exact timerInv_control h rfl rfl rfl rfl rfl trivial
  | interrupted => exact timerInv_control h rfl rfl rfl rfl rfl h.run
  | failed => exact timerInv_control h rfl rfl rfl rfl rfl trivial

variable [DecidableEq κ]

/-- No operation is scheduled. -/
theorem handle_scheduled_eq {o : Outcome} (h : TimerInv pipe tr s)
    (hs : HandlesScheduled s o s') : s' = { s with run := .io } := by
  cases hs with
  | none => rfl
  | again hit hfd | done hit hfd | cancel hit hfd =>
    -- the self-pipe has a descriptor
    rw [h.outstanding] at hit
    cases hit
    have : (pipe : Int) = -1 := hfd
    omega

theorem timerInv_advance (h : TimerInv pipe tr s) (hs : Advances s l s')
    (hin : InTime s l) : TimerInv pipe (tr ++ [l]) s' := by
  cases hs with
  | do_run_one => exact timerInv_control h rfl rfl rfl rfl rfl trivial
  | handle_timer _ hs => exact timerInv_handle_timer h hs
  | handle_scheduled _ hs =>
    rw [handle_scheduled_eq h hs]
    exact timerInv_control h rfl rfl rfl rfl rfl trivial
  | handle_io =>
    unfold State.handle_io
    split
    · next hnone => exact absurd hnone hin
    · refine timerInv_control h rfl rfl rfl rfl rfl ?_
      dsimp only
      split
      · trivial
      · trivial
  | scan _ hs =>
    rcases scan_eq h hs with ⟨i, rfl⟩ | rfl
    · exact timerInv_control h rfl rfl rfl rfl rfl trivial
    · exact timerInv_control h rfl rfl rfl rfl rfl trivial
  | poll =>
    unfold State.poll
    dsimp only
    split
    · exact timerInv_control h rfl rfl rfl rfl rfl trivial
    · exact timerInv_control h rfl rfl rfl rfl rfl trivial
  | polled => exact timerInv_polled h
  | resume hs =>
    rw [resume_eq h hs]
    exact timerInv_control h rfl rfl rfl rfl rfl trivial

theorem timerInv_step (h : TimerInv pipe tr s) (hs : next s l = some s') (hl : Timers l)
    (hin : InTime s l) : TimerInv pipe (tr ++ [l]) s' := by
  cases steps_of hs with
  | @call c =>
    cases c with
    | timer now sec nsec c => exact timerInv_do_timer h hin
    | nop | accept | connect | sendmsg | recvmsg | read | write | open_at | cancel => exact hl.elim
  | returned => exact timerInv_control h rfl rfl rfl rfl rfl h.run
  | advance _ hs => exact timerInv_advance h hs hin

omit [DecidableEq κ] in
/-- Such a run is a clear one. -/
theorem clear_of_timers (h : TimerInv pipe tr s) (hl : Timers l) (hin : InTime s l) : Clear s l := by
  cases l with
  | call c =>
    cases c with
    | timer now sec nsec c => trivial
    | nop | accept | connect | sendmsg | recvmsg | read | write | open_at | cancel => exact hl.elim
  | handle_scheduled o =>
    intro it hit hfd
    rw [h.outstanding] at hit
    cases hit
    have : (pipe : Int) = -1 := hfd
    omega
  | handle_io => exact hin
  | returned | do_run_one | handle_timer now i | scan o | poll | polled r | resume => trivial

theorem timerInv_run
    (h : Run ((system κ pipe).restrict fun s l => Timers l ∧ InTime s l) (State.initial pipe) tr s) :
    TimerInv pipe tr s ∧ Run ((system κ pipe).restrict Clear) (State.initial pipe) tr s := by
  induction h with
  | nil => exact ⟨timerInv_initial pipe, .nil⟩
  | snoc _ hs ih =>
    obtain ⟨hs, hl, hin⟩ := hs
    exact ⟨timerInv_step ih.1 hs hl hin, ih.2.snoc ⟨hs, clear_of_timers ih.1 hl hin⟩⟩

end PollTimersLemmas

/-! ## 2. What timers are promised -/

/-- The timers of the requests are pending once, or were called once with `0`. -/
def Once (tr : List (Label κ)) (s : State κ) : Prop :=
  ∀ k r, (requests tr)[k]? = some r →
    ((s.d_timers.filter fun u => u.ticket = k + 1) = [⟨k + 1, r.1, r.2⟩] ∧ resultsOf s (k + 1) = []) ∨
    ((s.d_timers.filter fun u => u.ticket = k + 1) = [] ∧
      resultsOf s (k + 1) = [⟨k + 1, some r.2, .value 0⟩])

/-- The step from `s` to `s'` serves the timers as they are to be served. -/
structure Timely (tr : List (Label κ)) (l : Label κ) (s s' : State κ) : Prop where
  defined : s'.run ≠ .undefined
  once : Once (tr ++ [l]) s'
  fired : s'.results = s.results ∨ ∃ now i u, l = .handle_timer now i ∧ u ∈ s.d_timers ∧
    s'.results = s.results ++ [⟨u.ticket, some u.d_continuation, .value 0⟩] ∧
    u.d_expiry ≤ now ∧ ∀ v ∈ s.d_timers, u.d_expiry ≤ v.d_expiry
  first : s.run = .timer → s.depth = 0 → ∃ now i, l = .handle_timer now i ∧
    ((∃ v ∈ s.d_timers, v.d_expiry ≤ now) → s'.run = .timerDone ∧ s'.results ≠ s.results)

namespace PollTimersLemmas

variable {pipe : Nat} {s s' : State κ} {tr : List (Label κ)} {l : Label κ}

theorem closing_of_timers {p : Point} (h : p.OfTimers) : p.closing = 0 := by
  cases p with
  | cancelled | cancelling | erasing | ioDone | undefined => exact h.elim
  | idle | timer | scheduled | io | scanning | poll | polling | timerDone => rfl

theorem count_map {α : Type} (l : List α) (f : α → Nat) (t : Nat) :
    (l.map f).count t = (l.filter fun a => f a = t).length := by
  rw [List.count, List.countP_map, List.countP_eq_length_filter]
  rfl

theorem count_timers (h : TimerInv pipe tr s) (k : Nat) :
    s.held.count (k + 1) = (s.d_timers.filter fun u => u.ticket = k + 1).length := by
  unfold State.held
  rw [h.outstanding, Multiset.count_add, Multiset.coe_count, Multiset.coe_count, count_map,
    count_map]
  simp

theorem once_of_inv (h : TimerInv pipe tr s) (hi : Inv s) : Once tr s := by
  intro k r hr
  have hk := (List.getElem?_eq_some_iff.mp hr).1
  have hb := hi.balanced
  rw [closing_of_timers h.run] at hb
  have hcount := hb.count_add_count (t := k + 1) (by
    rw [Set.mem_Iio, h.length]
    omega)
  have hresults : s.settled.count (k + 1) = (resultsOf s (k + 1)).length := by
    unfold State.settled
    rw [Multiset.coe_count, count_map]
    rfl
  rw [hresults, count_timers h] at hcount
  rcases Nat.eq_zero_or_pos (resultsOf s (k + 1)).length with hzero | hpos
  · rw [hzero, Nat.add_zero] at hcount
    obtain ⟨u, hu⟩ := List.length_eq_one_iff.mp hcount
    obtain ⟨hmem, hticket⟩ := List.mem_filter.mp (by rw [hu]; exact List.mem_singleton_self u)
    obtain ⟨k', hk', hr'⟩ := h.timers u hmem
    have hticket : u.ticket = k + 1 := by simpa using hticket
    obtain rfl : k = k' := by omega
    rw [hr] at hr'
    cases hr'
    refine .inl ⟨?_, List.length_eq_zero_iff.mp hzero⟩
    rw [hu, ← hticket]
  · obtain ⟨hnone, hone⟩ : (s.d_timers.filter fun u => u.ticket = k + 1).length = 0 ∧
      (resultsOf s (k + 1)).length = 1 := by omega
    obtain ⟨d, hd⟩ := List.length_eq_one_iff.mp hone
    have hmem : d ∈ resultsOf s (k + 1) := by
      rw [hd]
      exact List.mem_singleton_self d
    obtain ⟨hmem, hticket⟩ := List.mem_filter.mp hmem
    obtain ⟨k', r', hr', rfl⟩ := h.results d hmem
    obtain rfl : k' = k := by simpa using hticket
    rw [hr] at hr'
    cases hr'
    exact .inr ⟨List.length_eq_zero_iff.mp hnone, hd⟩

/-- Only `handle_timer` calls a continuation. -/
theorem fired_of_step [DecidableEq κ] (h : TimerInv pipe tr s) (hs : next s l = some s')
    (hl : Timers l) :
    s'.results = s.results ∨ ∃ now i u, l = .handle_timer now i ∧ u ∈ s.d_timers ∧
      s'.results = s.results ++ [⟨u.ticket, some u.d_continuation, .value 0⟩] ∧
      u.d_expiry ≤ now ∧ ∀ v ∈ s.d_timers, u.d_expiry ≤ v.d_expiry := by
  cases steps_of hs with
  | @call c =>
    cases c with
    | timer now sec nsec c => exact .inl rfl
    | nop | accept | connect | sendmsg | recvmsg | read | write | open_at | cancel => exact hl.elim
  | returned => exact .inl rfl
  | advance hdepth hs =>
    cases hs with
    | do_run_one => exact .inl rfl
    | @handle_timer now i _ _ hs =>
      cases hs with
      | none | early => exact .inl rfl
      | @due t ht hmin hdue =>
        exact .inr ⟨now, i, t, rfl, List.mem_of_getElem? ht, rfl, hdue, hmin⟩
    | handle_scheduled _ hs =>
      rw [handle_scheduled_eq h hs]
      exact .inl rfl
    | handle_io =>
      unfold State.handle_io
      split
      · exact .inl rfl
      · exact .inl rfl
    | scan _ hs =>
      rcases scan_eq h hs with ⟨i, rfl⟩ | rfl
      · exact .inl rfl
      · exact .inl rfl
    | poll =>
      unfold State.poll
      dsimp only
      split
      · exact .inl rfl
      · exact .inl rfl
    | @polled r =>
      cases r with
      | ready revents | interrupted | failed => exact .inl rfl
    | resume hs =>
      rw [resume_eq h hs]
      exact .inl rfl

/-- `do_run_one` looks at the timers before anything else. -/
theorem first_of_step [DecidableEq κ] (hs : next s l = some s') (hrun : s.run = .timer)
    (hdepth : s.depth = 0) : ∃ now i, l = .handle_timer now i ∧
      ((∃ v ∈ s.d_timers, v.d_expiry ≤ now) → s'.run = .timerDone ∧ s'.results ≠ s.results) := by
  have hnot {p : Point} (hp : s.run = p) : p = .timer := hp.symm.trans hrun
  cases steps_of hs with
  | call hidle =>
    rcases hidle with hidle | hpos
    · cases hnot hidle
    · exact absurd hdepth (Nat.ne_of_gt hpos)
  | returned hpos => exact absurd hdepth (Nat.ne_of_gt hpos)
  | advance _ hs =>
    cases hs with
    | do_run_one hp | handle_scheduled hp | handle_io hp | scan hp | poll hp | polled hp =>
      cases hnot hp
    | resume hs =>
      cases hs with
      | timerDone hp | none hp | found hp | lost hp | cancelling hp | erasing hp | ioDone hp =>
        cases hnot hp
    | @handle_timer now i _ _ hs =>
      refine ⟨now, i, rfl, ?_⟩
      rintro ⟨v, hv, hv_due⟩
      cases hs with
      | none hnil =>
        rw [hnil] at hv
        cases hv
      | due => exact ⟨rfl, by simp [State.deliver]⟩
      | early ht hmin hdue => exact absurd ((hmin v hv).trans hv_due) hdue

end PollTimersLemmas

open PollTimersLemmas PollLedgerLemmas PollShapeLemmas

variable [DecidableEq κ]

/-- In every run with timers, whatever the clock says, each step serves them as it is to. -/
theorem timers_served {pipe : Nat} {s s' : State κ} {tr : List (Label κ)} {l : Label κ}
    (h : Run ((system κ pipe).restrict fun s l => Timers l ∧ InTime s l) (State.initial pipe) tr s)
    (hs : ((system κ pipe).restrict fun s l => Timers l ∧ InTime s l).step s l s') :
    Timely tr l s s' := by
  have hinv := (timerInv_run h).1
  obtain ⟨hinv', hrun'⟩ := timerInv_run (h.snoc hs)
  refine ⟨fun hu => ?_, once_of_inv hinv' (inv_run hrun'), fired_of_step hinv hs.1 hs.2.1,
    first_of_step hs.1⟩
  have hpoint := hinv'.run
  rw [hu] at hpoint
  exact hpoint

/-- Whatever the clock says, `do_run_one` can look at the timers. -/
theorem timer_enabled {s : State κ} (now : Int) (hrun : s.run = .timer) (hdepth : s.depth = 0) :
    ∃ i s', next s (.handle_timer now i) = some s' := by
  obtain ⟨i, s', hs⟩ := enabled_timer s now
  exact ⟨i, s', (if_pos hdepth).trans ((if_pos hrun).trans hs)⟩

/-- The earlier of two timers is due. -/
def exDue : List (Label Nat) :=
  [.call (.timer 0 2 0 7), .call (.timer 0 1 0 8), .do_run_one]

theorem timers_served_example : ∃ s s' : State Nat,
    Run (system Nat 3) (State.initial 3) exDue s ∧
    next s (.handle_timer 1500000000 0) = some s' ∧ s'.results = [⟨2, some 8, .value 0⟩] ∧
    Timely exDue (.handle_timer 1500000000 0) s s' := by
  have hrun : Run ((system Nat 3).restrict fun s l => Timers l ∧ InTime s l) (State.initial 3) exDue
      ((replay next (State.initial 3) exDue).get rfl) :=
    .cons ⟨rfl, trivial, by decide, by decide⟩ <| .cons ⟨rfl, trivial, by decide, by decide⟩ <|
      .single ⟨rfl, trivial, trivial⟩
  exact ⟨_, _, hrun.unrestrict, rfl, rfl, timers_served hrun ⟨rfl, trivial, trivial⟩⟩

/-- `do_run_one` has nothing to do, and is called again for a timer that is not due. -/
def exLate : List (Label Nat) :=
  [.do_run_one, .handle_timer 0 0, .handle_scheduled ⟨0, .EAGAIN, 0⟩, .handle_io, .poll,
    .call (.timer 0 1 0 7), .do_run_one, .handle_timer 0 0, .handle_scheduled ⟨0, .EAGAIN, 0⟩,
    .handle_io]

/-- A timer for a time that cannot be represented. -/
def exFar : List (Label Nat) :=
  [.call (.timer 0 9223372037 0 7), .do_run_one, .handle_timer 0 0]

/-- The timer is never called, as `handle_io` uses an invalid iterator; and a timer is called
before its time. -/
theorem not_served :
    (∃ s : State Nat, Run (system Nat 3) (State.initial 3) exLate s ∧
      (∀ l ∈ exLate, Timers l) ∧ s.run = .undefined ∧ s.d_timers ≠ [] ∧ s.results = [] ∧
      ∀ l s', next s l ≠ some s') ∧
    ∃ s : State Nat, Run (system Nat 3) (State.initial 3) exFar s ∧
      s.results = [⟨1, some 7, .value 0⟩] ∧ (requests exFar)[0]? = some (9223372037000000000, 7) := by
  refine ⟨⟨_, run_replay (S := system Nat 3) (fun _ _ _ => id)
      (show (replay next (State.initial 3) exLate).isSome from rfl), ?_, rfl, ?_, rfl,
      fun l s' hs => not_step_of_undefined rfl rfl hs⟩,
    ⟨_, run_replay (S := system Nat 3) (fun _ _ _ => id)
      (show (replay next (State.initial 3) exFar).isSome from rfl), rfl, rfl⟩⟩
  · intro l hl
    simp only [exLate, List.mem_cons, List.not_mem_nil, or_false] at hl
    rcases hl with rfl | rfl | rfl | rfl | rfl | rfl | rfl | rfl | rfl | rfl <;> trivial
  · exact List.cons_ne_nil _ _

end Kuhllib.PollContext
