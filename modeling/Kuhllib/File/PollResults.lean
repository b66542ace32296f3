import Kuhllib.File.PollCancel

/-!
# The results that `poll_context` passes to continuations

Results:
1. `adds_step`: a step adds to what has been submitted and to the results, and what
   gets a result was held.
2. `settled_stays`: what has a result gets no other one, unless it is a request that
   cancels itself.
3. `reports_iff`: when the continuation of `do_connect` is told the outcome.
-/

namespace Kuhllib.PollContext

open Transition

variable {κ : Type}

/-! ## 1. One step -/

/-- The result is for a new operation, or for one that is held and not being closed. The exception
is the request that finds itself. -/
def State.Gives (s : State κ) (t : Nat) : Prop :=
  s.submitted.length ≤ t ∨
    (s.run ≠ .undefined ∧ t ∈ s.held ∧ (t ∉ s.run.closing ∨ s.run = .cancelled t (some t)))

structure Adds (s s' : State κ) : Prop where
  submitted : s.submitted <+: s'.submitted
  entries : ∀ e ∈ s'.d_outstanding, e ∈ s.d_outstanding ∨ s.submitted.length ≤ e.ticket
  timers : ∀ u ∈ s'.d_timers, u ∈ s.d_timers ∨ s.submitted.length ≤ u.ticket
  results : ∃ back, s'.results = s.results ++ back ∧ ∀ d ∈ back, s.Gives d.ticket

namespace PollResultsLemmas

open PollLedgerLemmas PollShapeLemmas PollCancelLemmas

variable {s s' : State κ}

theorem adds_grown (h : Grown s s') : Adds s s' := by
  obtain ⟨front, back, houtstanding, hnew⟩ := h.outstanding
  obtain ⟨timers, htimers, hnew_timers⟩ := h.timers
  obtain ⟨results, hresults, hnew_results⟩ := h.results
  refine ⟨h.submitted, fun e he => ?_, fun u hu => ?_,
    results, hresults, fun d hd => .inl (hnew_results d hd)⟩
  · rw [houtstanding] at he
    simp only [List.mem_append] at he hnew
    rcases he with (he | he) | he
    · exact .inr (hnew e (.inl he))
    · exact .inl he
    · exact .inr (hnew e (.inr he))
  · rw [htimers] at hu
    rcases List.mem_append.mp hu with hu | hu
    · exact .inr (hnew_timers u hu)
    · exact .inl hu

/-- A step that submits nothing and calls no continuation. -/
theorem adds_control (hsubmitted : s'.submitted = s.submitted)
    (houtstanding : s'.d_outstanding ⊆ s.d_outstanding) (htimers : s'.d_timers ⊆ s.d_timers)
    (hresults : s'.results = s.results) : Adds s s' :=
  ⟨hsubmitted ▸ List.prefix_rfl, fun _ he => .inl (houtstanding he), fun _ hu => .inl (htimers hu),
    [], by rw [hresults, List.append_nil], by simp⟩

/-- A step that calls a continuation. -/
theorem adds_deliver {t : Nat} {c : Option κ} {r : Result} (hsubmitted : s'.submitted = s.submitted)
    (houtstanding : s'.d_outstanding ⊆ s.d_outstanding) (htimers : s'.d_timers ⊆ s.d_timers)
    (hresults : s'.results = s.results ++ [⟨t, c, r⟩]) (hgives : s.Gives t) : Adds s s' :=
  ⟨hsubmitted ▸ List.prefix_rfl, fun _ he => .inl (houtstanding he), fun _ hu => .inl (htimers hu),
    _, hresults, by simpa using hgives⟩

theorem gives_of_held {t : Nat} (ht : t ∈ s.held) (hdefined : s.run ≠ .undefined)
    (hclosing : s.run.closing = 0) : s.Gives t :=
  .inr ⟨hdefined, ht, .inl (by rw [hclosing]; exact Multiset.notMem_zero t)⟩

theorem held_of_mem {e : Entry κ} (he : e ∈ s.d_outstanding) : e.ticket ∈ s.held :=
  mem_held_of_entry (List.mem_map_of_mem he)

theorem adds_handle_timer {now : Int} {i : Nat} (hrun : s.run = .timer)
    (hs : HandlesTimer s now i s') : Adds s s' := by
  cases hs with
  | none | early => exact adds_control rfl (List.Subset.refl _) (List.Subset.refl _) rfl
  | due ht hmin hdue =>
    refine adds_deliver rfl (List.Subset.refl _) (List.eraseIdx_sublist _ _).subset rfl
      (gives_of_held ?_ (by rw [hrun]; simp) (by rw [hrun]; rfl))
    exact Multiset.mem_add.mpr (.inr (Multiset.mem_coe.mpr
      (List.mem_map_of_mem (List.mem_of_getElem? ht))))

theorem adds_erase {t n : Nat} {p : Point} : Adds s ({ s with count := n }.erase t p) := by
  unfold State.erase
  split
  · exact adds_control rfl List.eraseP_subset (List.Subset.refl _) rfl
  · exact adds_control rfl (List.Subset.refl _) (List.Subset.refl _) rfl

theorem adds_scan {rit : Nat} {o : Outcome} (hrun : s.run = .scanning rit)
    (hs : Scans s rit o s') : Adds s s' := by
  cases hs with
  | ended | passed => exact adds_control rfl (List.Subset.refl _) (List.Subset.refl _) rfl
  | done hi hp he hmatch ha =>
    exact adds_deliver rfl (List.eraseIdx_sublist _ _).subset (List.Subset.refl _) rfl
      (gives_of_held (held_of_mem (List.mem_of_getElem? he)) (by rw [hrun]; simp)
        (by rw [hrun]; rfl))

theorem adds_poll : Adds s s.poll := by
  unfold State.poll
  dsimp only
  split
  · exact adds_control rfl (List.Subset.refl _) (List.Subset.refl _) rfl
  · exact adds_control rfl (List.Subset.refl _) (List.Subset.refl _) rfl

theorem adds_polled {r : PollResult} : Adds s (s.polled r) := by
  cases r with
  | ready revents => exact adds_control rfl (List.Subset.refl _) (List.Subset.refl _) rfl
  | interrupted => exact adds_control rfl (List.Subset.refl _) (List.Subset.refl _) rfl
  | failed => exact adds_control rfl (List.Subset.refl _) (List.Subset.refl _) rfl

theorem adds_resume (hs : Resumes s s') : Adds s s' := by
  cases hs with
  | timerDone | none | lost | ioDone =>
    exact adds_control rfl (List.Subset.refl _) (List.Subset.refl _) rfl
  | @found own found it hrun hit hticket =>
    refine adds_deliver rfl (List.Subset.refl _) (List.Subset.refl _) rfl
      (.inr ⟨by rw [hrun]; simp, held_of_mem hit, ?_⟩)
    rw [hrun, hticket]
    rcases eq_or_ne found own with rfl | hne
    · exact .inr rfl
    · exact .inl (by simpa [Point.closing] using hne)
  | cancelling => exact adds_erase (n := s.count)
  | erasing => exact adds_erase

variable [DecidableEq κ]

theorem adds_handle_scheduled {o : Outcome} (hrun : s.run = .scheduled)
    (hs : HandlesScheduled s o s') : Adds s s' := by
  have hgives {it : Entry κ} (hit : s.d_outstanding.getLast? = some it) : s.Gives it.ticket :=
    gives_of_held (held_of_mem (List.mem_of_getLast? hit)) (by rw [hrun]; simp) (by rw [hrun]; rfl)
  cases hs with
  | none | again => exact adds_control rfl (List.Subset.refl _) (List.Subset.refl _) rfl
  | done hit | cancel hit =>
    exact adds_deliver rfl (List.Subset.refl _) (List.Subset.refl _) rfl (hgives hit)

theorem adds_advance {l : Label κ} (hs : Advances s l s') : Adds s s' := by
  cases hs with
  | do_run_one => exact adds_control rfl (List.Subset.refl _) (List.Subset.refl _) rfl
  | handle_timer hrun hs => exact adds_handle_timer hrun hs
  | handle_scheduled hrun hs => exact adds_handle_scheduled hrun hs
  | handle_io =>
    unfold State.handle_io
    split
    · exact adds_control rfl (List.Subset.refl _) (List.Subset.refl _) rfl
    · exact adds_control rfl (List.Subset.refl _) (List.Subset.refl _) rfl
  | scan hrun hs => exact adds_scan hrun hs
  | poll => exact adds_poll
  | polled => exact adds_polled
  | resume hs => exact adds_resume hs

end PollResultsLemmas

open PollResultsLemmas PollShapeLemmas

variable [DecidableEq κ]

theorem adds_step {s s' : State κ} {l : Label κ} (hs : next s l = some s') : Adds s s' := by
  cases steps_of hs with
  | call => exact adds_grown (grown_call s _)
  | returned => exact adds_control rfl (List.Subset.refl _) (List.Subset.refl _) rfl
  | advance hdepth hs => exact adds_advance hs

/-! ## 2. One result -/

/-- `t` was submitted, and it is not a cancel request. -/
structure Plain (t : Nat) (s : State κ) : Prop where
  submitted : t < s.submitted.length
  entries : ∀ e ∈ s.d_outstanding, e.ticket = t → ∀ c, e.d_operation ≠ .cancel c
  run : ∀ own f, s.run = .cancelled own f → own ≠ t

namespace PollResultsLemmas

variable {s s' : State κ} {t : Nat}

/-- `do_run_one` calls the continuation of a cancel request. -/
theorem cancelled_of_step {l : Label κ} {own : Nat} {f : Option Nat} (hs : next s l = some s')
    (hrun' : s'.run = .cancelled own f) :
    s.run = .cancelled own f ∨
      ∃ it ∈ s.d_outstanding, it.ticket = own ∧ ∃ c, it.d_operation = .cancel c := by
  cases steps_of hs with
  | call => exact .inl ((grown_call s _).run.symm.trans hrun')
  | returned => exact .inl hrun'
  | advance hdepth hs =>
    cases hs with
    | do_run_one => cases hrun'
    | handle_timer _ hs =>
      cases hs with
      | none | due | early => cases hrun'
    | handle_scheduled _ hs =>
      cases hs with
      | none | again | done => cases hrun'
      | @cancel it c hit hfd ha =>
        cases hrun'
        exact .inr ⟨it, List.mem_of_getLast? hit, rfl, c, Operation.attempt_eq_cancel ha⟩
    | handle_io =>
      unfold State.handle_io at hrun'
      grind
    | scan _ hs =>
      cases hs with
      | ended | passed | done => cases hrun'
    | poll =>
      unfold State.poll at hrun'
      grind [State.returns]
    | @polled r =>
      cases r with
      | ready revents => cases hrun'
      | interrupted => exact .inl hrun'
      | failed => cases hrun'
    | resume hs =>
      cases hs with
      | timerDone | none | found | lost | ioDone => cases hrun'
      | cancelling =>
        rcases (erase_cases s _ _).1 with hp | hp
        · cases hp.symm.trans hrun'
        · cases hp.symm.trans hrun'
      | erasing =>
        rcases (erase_cases { s with count := 1 } _ _).1 with hp | hp
        · cases hp.symm.trans hrun'
        · cases hp.symm.trans hrun'

theorem plain_step {l : Label κ} (h : Plain t s) (hs : next s l = some s') : Plain t s' := by
  have hadds := adds_step hs
  have hlt := h.submitted
  refine ⟨hlt.trans_le hadds.submitted.length_le, fun e he ht => ?_, fun own f hrun => ?_⟩
  · rcases hadds.entries e he with he | hnew
    · exact h.entries e he ht
    · omega
  · rcases cancelled_of_step hs hrun with hrun | ⟨it, hit, rfl, c, hop⟩
    · exact h.run own f hrun
    · exact fun ht => h.entries it hit ht c hop

end PollResultsLemmas

/-- An operation that is no cancel request gets no second result. -/
theorem settled_stays {pipe : Nat} {s s' : State κ} {t : Nat} {tr tr' : List (Label κ)}
    (h : Run (system κ pipe) (State.initial pipe) tr s) (h' : Run (system κ pipe) s tr' s')
    (hplain : Plain t s) (ht : t ∈ s.settled) : resultsOf s' t = resultsOf s t := by
  suffices hs' : Plain t s' ∧ t ∈ s'.settled ∧ resultsOf s' t = resultsOf s t from hs'.2.2
  induction h' with
  | nil => exact ⟨hplain, ht, rfl⟩
  | @snoc tr' s' s'' l h' hs ih =>
    obtain ⟨hplain', ht', hresults⟩ := ih
    obtain ⟨back, hback, hgives⟩ := (adds_step hs).results
    refine ⟨plain_step hplain' hs, ?_, ?_⟩
    · unfold State.settled at ht' ⊢
      rw [hback, List.map_append]
      exact Multiset.mem_coe.mpr (List.mem_append_left _ (Multiset.mem_coe.mp ht'))
    · have hnil : (back.filter fun d => d.ticket = t) = [] := by
        refine List.filter_eq_nil_iff.mpr fun d hd => ?_
        simp only [decide_eq_true_eq]
        rintro rfl
        rcases hgives d hd with hnew | ⟨hdefined, hheld, hclosing | hrun⟩
        · exact absurd hplain'.submitted (Nat.not_lt.mpr hnew)
        · exact (shape_run (h.append h') hdefined).unsettled _ hheld hclosing ht'
        · exact hplain'.run _ _ hrun rfl
      rw [← hresults, resultsOf, hback, List.filter_append, hnil, List.append_nil]
      rfl

/-! ## 3. `do_connect` -/

/-- The argument of `io_base::result`; `code` gives the numbers of the error constants. -/
def Result.told (code : Errno → Int) : Result → Int
  | .value n => n
  | .error e => - code e

/-- What the continuation is to be told after `connect(2)` has left `o`, where `o'` is what
`getsockopt` says once the connection is established or has failed. -/
def connection (code : Errno → Int) (EINPROGRESS : Errno) (o o' : Outcome) : Int :=
  if o.rc = 0 then 0
  else if o.errno = EINPROGRESS then - o'.so_error
  else - code o.errno

/-- The step calls the operation with the ticket `t`, whose system calls leave `o`. -/
def Calls (s : State κ) (l : Label κ) (t : Nat) (o : Outcome) : Prop :=
  (l = .handle_scheduled o ∧ ∃ e, s.d_outstanding.getLast? = some e ∧ e.d_fd = -1 ∧ e.ticket = t) ∨
  (l = .scan o ∧ ∃ rit i p e, s.run = .scanning rit ∧ s.d_next_poll = some i ∧
    s.d_poll[i]? = some p ∧ s.d_outstanding[rit]? = some e ∧ Matches p e ∧ e.ticket = t)

/-- From `s₁` on a connection is made; `s'` is the state after the call of `connect(2)` if it
succeeds at once, and otherwise after a call of the operation that was submitted. -/
inductive Connected (pipe : Nat) (s₁ : State κ) (fd : Int) (o : Outcome) (c : κ) :
    Outcome → State κ → Prop
  | at_once {o' : Outcome} {s' : State κ} :
      o.rc = 0 → next s₁ (.call (.connect fd o c)) = some s' → Connected pipe s₁ fd o c o' s'
  | later {o' : Outcome} {s₂ s s' : State κ} {tr : List (Label κ)} {l : Label κ} :
      o.rc ≠ 0 → next s₁ (.call (.connect fd o c)) = some s₂ → Run (system κ pipe) s₂ tr s →
      Calls s l s₁.submitted.length o' → next s l = some s' → Connected pipe s₁ fd o c o' s'

/-- The continuation gets one result, which tells what has become of the connection. -/
def Reports (code : Errno → Int) (EINPROGRESS : Errno) (pipe t : Nat) (c : κ) (o o' : Outcome)
    (s' : State κ) : Prop :=
  ∃ r : Result, r.told code = connection code EINPROGRESS o o' ∧
    ∀ tr s'', Run (system κ pipe) s' tr s'' → resultsOf s'' t = [⟨t, some c, r⟩]

namespace PollResultsLemmas

variable {pipe : Nat} {s s' s₁ s₂ : State κ} {t : Nat} {fd : Int} {o o' : Outcome} {c : κ}

/-- The operation that was submitted is called once, and its result is not changed any more. -/
theorem reports_of_results (h : ∃ tr, Run (system κ pipe) (State.initial pipe) tr s')
    (hplain : Plain t s') {r : Result} (hresults : resultsOf s' t = [⟨t, some c, r⟩])
    (code : Errno → Int) (EINPROGRESS : Errno) :
    Reports code EINPROGRESS pipe t c o o' s' ↔ r.told code = connection code EINPROGRESS o o' := by
  obtain ⟨tr, h⟩ := h
  constructor
  · rintro ⟨r', htold, hr'⟩
    have heq := (hr' [] s' .nil).symm.trans hresults
    cases heq
    exact htold
  · intro htold
    refine ⟨r, htold, fun tr' s'' h' => (settled_stays h h' hplain ?_).trans hresults⟩
    have hmem : (⟨t, some c, r⟩ : Delivery κ) ∈ resultsOf s' t := by
      rw [hresults]
      exact List.mem_singleton_self _
    exact Multiset.mem_coe.mpr (List.mem_map_of_mem (List.mem_filter.mp hmem).1)

theorem cancelled_lt {tr : List (Label κ)} {own : Nat} {f : Option Nat}
    (h : Run (system κ pipe) (State.initial pipe) tr s) (hrun : s.run = .cancelled own f) :
    own < s.submitted.length := by
  induction h generalizing own f with
  | nil => cases hrun
  | @snoc tr s s' l h hs ih =>
    have hle := (adds_step hs).submitted.length_le
    rcases cancelled_of_step hs hrun with hrun' | ⟨it, hit, rfl, -⟩
    · exact (ih hrun').trans_le hle
    · have hdefined : s.run ≠ .undefined := fun hu => by
        rw [undefined_step hs hu] at hrun
        cases hrun
      exact (lt_of_entry (shape_run h hdefined).owners hit).trans_le hle

omit [DecidableEq κ] in
/-- A new ticket is that of no other operation. -/
theorem resultsOf_new (h : Shape s) : resultsOf s s.submitted.length = [] := by
  refine List.filter_eq_nil_iff.mpr fun d hd => ?_
  have := (List.getElem?_eq_some_iff.mp (h.owners.results d hd)).1
  simp only [decide_eq_true_eq]
  omega

omit [DecidableEq κ] in
theorem resultsOf_unsettled (h : t ∉ s.settled) : resultsOf s t = [] := by
  refine List.filter_eq_nil_iff.mpr fun d hd => ?_
  simp only [decide_eq_true_eq]
  rintro rfl
  exact h (Multiset.mem_coe.mpr (List.mem_map_of_mem hd))

omit [DecidableEq κ] in
theorem resultsOf_deliver {r : Result} (hresults : s'.results = s.results)
    (h : resultsOf s t = []) : resultsOf (s'.deliver t (some c) r) t = [⟨t, some c, r⟩] := by
  have hnil : (s.results.filter fun d => d.ticket = t) = [] := h
  unfold resultsOf State.deliver
  rw [hresults, List.filter_append, hnil]
  simp

/-- The operation with the ticket `t` is that of `do_connect`. -/
structure Awaiting (t : Nat) (c : κ) (s : State κ) : Prop where
  submitted : t < s.submitted.length
  entries : ∀ e ∈ s.d_outstanding, e.ticket = t → e.d_operation = .connect ∧ e.d_id = some c

theorem awaiting_run {tr : List (Label κ)} (h : Run (system κ pipe) s tr s')
    (ha : Awaiting t c s) : Awaiting t c s' := by
  refine h.invariant_state ha fun s l s' ha hs => ?_
  have hadds := adds_step hs
  have hlt := ha.submitted
  refine ⟨hlt.trans_le hadds.submitted.length_le, fun e he ht => ?_⟩
  rcases hadds.entries e he with he | hnew
  · exact ha.entries e he ht
  · omega

theorem plain_run {tr : List (Label κ)} (h : Run (system κ pipe) s tr s') (hp : Plain t s) :
    Plain t s' :=
  h.invariant_state hp fun _ _ _ hp hs => plain_step hp hs

omit [DecidableEq κ] in
/-- The operation of `do_connect` always passes a result. -/
theorem attempt_connect (o : Outcome) : (Operation.connect : Operation κ).attempt o =
    .deliver (if o.so_error = 0 then .value 0 else .error o.errno) := by
  have hattempt : (Operation.connect : Operation κ).attempt o =
      if o.so_error = 0 then .deliver (.value 0) else .deliver (.error o.errno) := rfl
  rw [hattempt]
  split
  · rfl
  · rfl

/-- What it passes is the one result of the operation. -/
theorem results_of_calls {l : Label κ} (h : Shape s) (ha : Awaiting t c s) (hc : Calls s l t o')
    (hs : next s l = some s') :
    resultsOf s' t = [⟨t, some c, if o'.so_error = 0 then .value 0 else .error o'.errno⟩] := by
  rcases hc with ⟨rfl, e, hlast, hfd, hticket⟩ | ⟨rfl, rit, i, p, e, hrun, hi, hp, he, hm, hticket⟩
  · obtain ⟨-, hs⟩ := Option.ite_none_right_eq_some.mp hs
    obtain ⟨hrun, hs⟩ := Option.ite_none_right_eq_some.mp hs
    have hmem := List.mem_of_getLast? hlast
    obtain ⟨hop, hid⟩ := ha.entries e hmem hticket
    have hnone : resultsOf s t = [] := by
      rw [← hticket]
      exact resultsOf_unsettled (unsettled_of_closing h (by rw [hrun]; rfl) _ (held_of_mem hmem))
    cases hs
    unfold State.handle_scheduled
    simp only [hlast, hfd, if_true, hop, attempt_connect, hid, hticket]
    exact resultsOf_deliver rfl hnone
  · obtain ⟨-, hs⟩ := Option.ite_none_right_eq_some.mp hs
    have hmem := List.mem_of_getElem? he
    obtain ⟨hop, hid⟩ := ha.entries e hmem hticket
    have hnone : resultsOf s t = [] := by
      rw [← hticket]
      exact resultsOf_unsettled (unsettled_of_closing h (by rw [hrun]; rfl) _ (held_of_mem hmem))
    have hmatch : p.fd = e.d_fd ∧ p.revents &&& e.d_events ≠ 0 := hm
    simp only [State.advance, hrun, State.scan, hi, hp, he, Option.bind_eq_bind, Option.bind_some,
      if_pos hmatch, hop, attempt_connect, hid, hticket] at hs
    cases hs
    exact resultsOf_deliver rfl hnone

/-- Where the continuation of a connection has its result. -/
theorem results_of_connected {tr : List (Label κ)}
    (h : Run (system κ pipe) (State.initial pipe) tr s₁)
    (hc : Connected pipe s₁ fd o c o' s') :
    (∃ tr, Run (system κ pipe) (State.initial pipe) tr s') ∧ Plain s₁.submitted.length s' ∧
      resultsOf s' s₁.submitted.length = [⟨s₁.submitted.length, some c,
        if o.rc = 0 ∨ o'.so_error = 0 then .value 0 else .error o'.errno⟩] := by
  have hown : ∀ own f, s₁.run = .cancelled own f → own ≠ s₁.submitted.length :=
    fun own f hrun => (cancelled_lt h hrun).ne
  cases hc with
  | at_once hrc hs =>
    have hshape := shape_run h (defined_of_step h hs)
    have hrun := h.snoc hs
    obtain ⟨-, hs⟩ := Option.ite_none_right_eq_some.mp hs
    cases hs
    have hconnect : s₁.call (.connect fd o c) = s₁.complete c (.value 0) := if_pos hrc
    rw [hconnect] at hrun ⊢
    refine ⟨⟨_, hrun⟩, ⟨by simp [State.complete, State.deliver], fun e he ht => ?_, hown⟩, ?_⟩
    · exact absurd ht (lt_of_entry hshape.owners he).ne
    · rw [if_pos (.inl hrc)]
      exact resultsOf_deliver rfl (resultsOf_new hshape)
  | @later _ s₂ s tr' l hrc hs h' hcalls hs' =>
    have hshape := shape_run h (defined_of_step h hs)
    have hrun := h.snoc hs
    obtain ⟨-, hs⟩ := Option.ite_none_right_eq_some.mp hs
    cases hs
    have hconnect : s₁.call (.connect fd o c) =
        s₁.submit_io fd (POLLIN ||| POLLOUT) .connect c := if_neg hrc
    have hawaiting : Awaiting s₁.submitted.length c (s₁.call (.connect fd o c)) := by
      rw [hconnect]
      refine ⟨by simp [State.submit_io], fun e he ht => ?_⟩
      rcases (PollLedgerLemmas.mem_emplace (e := ⟨s₁.submitted.length, fd, POLLIN ||| POLLOUT,
        .connect, some c⟩)).mp he with rfl | he
      · exact ⟨rfl, rfl⟩
      · exact absurd ht (lt_of_entry hshape.owners he).ne
    have hplain : Plain s₁.submitted.length (s₁.call (.connect fd o c)) := by
      refine ⟨hawaiting.submitted, fun e he ht c' => ?_, fun own f hrun' => ?_⟩
      · rw [(hawaiting.entries e he ht).1]
        simp
      · rw [(grown_call s₁ _).run] at hrun'
        exact hown own f hrun'
    have hrun' := hrun.append h'
    refine ⟨⟨_, hrun'.snoc hs'⟩, plain_step (plain_run h' hplain) hs', ?_⟩
    rw [results_of_calls (shape_run hrun' (defined_of_step hrun' hs')) (awaiting_run h' hawaiting) hcalls hs']
    simp [hrc]

end PollResultsLemmas

/-- The error number that the operation of `do_connect` passes on belongs to the connection. -/
def Told (code : Errno → Int) (EINPROGRESS : Errno) (o o' : Outcome) : Prop :=
  o.rc = 0 ∨
  (o.errno = EINPROGRESS ∧ (o'.so_error = 0 ∨ code o'.errno = o'.so_error)) ∨
  (o.errno ≠ EINPROGRESS ∧ o'.so_error ≠ 0 ∧ code o'.errno = code o.errno)

/-- The continuation of `do_connect` is told once what has become of the connection, if and only
if `connect(2)` succeeds at once, or it was in progress and `getsockopt` says that there is no
error or `errno` happens to be the error that it says, or it failed at once, `getsockopt` says
that there is an error and `errno` happens to be still that of `connect(2)`. -/
theorem reports_iff {pipe : Nat} {s₁ s' : State κ} {tr : List (Label κ)} {fd : Int}
    {o o' : Outcome} {c : κ} {code : Errno → Int} {EINPROGRESS : Errno}
    (h : Run (system κ pipe) (State.initial pipe) tr s₁) (hc : Connected pipe s₁ fd o c o' s')
    (hcode : o.rc ≠ 0 → code o.errno ≠ 0) :
    Reports code EINPROGRESS pipe s₁.submitted.length c o o' s' ↔ Told code EINPROGRESS o o' := by
  obtain ⟨hrun, hplain, hresults⟩ := results_of_connected h hc
  rw [reports_of_results hrun hplain hresults]
  unfold connection Told
  rcases eq_or_ne o.rc 0 with hrc | hrc
  · simp [hrc, Result.told]
  · have hne := hcode hrc
    rcases eq_or_ne o.errno EINPROGRESS with herrno | herrno
    · rcases eq_or_ne o'.so_error 0 with hzero | hzero
      · simp [hrc, herrno, hzero, Result.told]
      · simp [hrc, herrno, hzero, Result.told]
    · rcases eq_or_ne o'.so_error 0 with hzero | hzero
      · simp only [hrc, herrno, hzero, Result.told, if_false, or_true, if_true, false_and,
          not_true_eq_false, ne_eq, not_false_eq_true, and_false, or_false, iff_false]
        intro hmem
        omega
      · simp [hrc, herrno, hzero, Result.told]

/-- Numbers for the errors of the examples. -/
def exCode : Errno → Int
  | .other n => n
  | .EINTR => 4
  | _ => 11

/-- `connect(2)` is in progress, and later the descriptor is writable. -/
def exConnect : List (Label Nat) :=
  [.do_run_one, .handle_timer 0 0, .handle_scheduled ⟨0, .EAGAIN, 0⟩, .handle_io, .poll,
    .polled (.ready fun i => if i = 0 then POLLOUT else 0), .handle_timer 0 0,
    .handle_scheduled ⟨0, .EAGAIN, 0⟩, .handle_io]

theorem reports_iff_example : ∃ s' : State Nat,
    Connected 3 (State.initial 3) 5 ⟨-1, .other 115, 0⟩ 7 ⟨0, .other 0, 0⟩ s' ∧
    Reports exCode (.other 115) 3 1 7 ⟨-1, .other 115, 0⟩ ⟨0, .other 0, 0⟩ s' := by
  have hrun := run_replay (S := system Nat 3) (fun _ _ _ => id)
    (show (replay next ((State.initial 3).call (.connect 5 ⟨-1, .other 115, 0⟩ 7))
      exConnect).isSome from rfl)
  have hc : Connected 3 (State.initial 3) 5 ⟨-1, .other 115, 0⟩ 7 ⟨0, .other 0, 0⟩ _ :=
    .later (by decide) rfl hrun
      (.inr ⟨rfl, 0, 0, ⟨5, POLLIN ||| POLLOUT, POLLOUT⟩, ⟨1, 5, POLLIN ||| POLLOUT, .connect, some 7⟩,
        rfl, rfl, rfl, rfl, ⟨rfl, by decide⟩, rfl⟩) rfl
  exact ⟨_, hc, (reports_iff .nil hc fun _ => (by decide)).mpr (.inr (.inl ⟨rfl, .inl rfl⟩))⟩

/-- The connection is refused, and `poll()` has set `errno` to `0`. -/
theorem not_reports : ∃ s' : State Nat,
    Connected 3 (State.initial 3) 5 ⟨-1, .other 115, 0⟩ 7 ⟨0, .other 0, 111⟩ s' ∧
    s'.results.map (fun d => d.result.told exCode) = [0] ∧
    ¬ Reports exCode (.other 115) 3 1 7 ⟨-1, .other 115, 0⟩ ⟨0, .other 0, 111⟩ s' := by
  have hrun := run_replay (S := system Nat 3) (fun _ _ _ => id)
    (show (replay next ((State.initial 3).call (.connect 5 ⟨-1, .other 115, 0⟩ 7))
      exConnect).isSome from rfl)
  refine ⟨_, .later (by decide) rfl hrun
      (.inr ⟨rfl, 0, 0, ⟨5, POLLIN ||| POLLOUT, POLLOUT⟩, ⟨1, 5, POLLIN ||| POLLOUT, .connect, some 7⟩,
        rfl, rfl, rfl, rfl, ⟨rfl, by decide⟩, rfl⟩) rfl, rfl, ?_⟩
  rintro ⟨r, htold, hr⟩
  have heq := hr [] _ .nil
  cases heq
  revert htold
  decide

end Kuhllib.PollContext
