import Kuhllib.File.PollLedger

/-!
# Every run of `poll_context`

`PollLedger` is about clear runs. Some of what it shows holds in every run, until
an iterator is used that points to nothing.

Results:
1. `shape_run`: the self-pipe stays in `d_outstanding`, tickets are not used
   twice, and what is held and not being closed has no result.
2. `idle_iff`: when a `do_run_one` that returns `0` leaves nothing to be done.
3. `attempts_iff`: when `handle_io` attempts an operation for an entry of `d_poll`
   that is ready, and `turn_tries`: a turn that attempts none has none to attempt.
-/

namespace Kuhllib.PollContext

open Transition

variable {κ : Type}

/-! ## 1. The shape -/

/-- No timer, and no operation but the self-pipe. -/
def State.Idle (s : State κ) : Prop :=
  s.d_timers = [] ∧ ∀ e ∈ s.d_outstanding, e.d_operation = .self_pipe

/-- The list `d_outstanding`, in every run. -/
structure Queue (l : List (Entry κ)) : Prop where
  pipe : 0 ∈ tickets l
  pipe_iff : ∀ e ∈ l, e.d_operation = .self_pipe ↔ e.ticket = 0
  pipe_fd : ∀ e ∈ l, e.ticket = 0 → 0 ≤ e.d_fd
  cancel : ∀ e ∈ l, ∀ c, e.d_operation = .cancel c → e.d_fd = -1
  ordered : l.Pairwise fun a b => 0 ≤ b.d_fd → 0 ≤ a.d_fd

/-- What is known where `do_run_one` is. -/
def State.Placed (s : State κ) : Point → Prop
  | .timer | .scheduled => s.depth = 0
  | .io | .scanning _ | .poll =>
    s.depth = 0 ∧ ∀ e, s.d_outstanding.getLast? = some e → e.d_fd ≠ -1
  | .polling => s.depth = 0 ∧ ¬ s.Idle
  | .cancelled own none | .erasing own => own ≠ 0
  | .cancelled own (some found) | .cancelling own found => own ≠ 0 ∧ found ≠ 0
  | .idle | .timerDone | .ioDone | .undefined => True

structure Shape (s : State κ) : Prop where
  queue : Queue s.d_outstanding
  nodup : s.held.Nodup
  owners : Owners s
  unsettled : ∀ t ∈ s.held, t ∉ s.run.closing → t ∉ s.settled
  polled : ∀ p ∈ s.d_poll, 0 ≤ p.fd
  placed : s.Placed s.run

/-- What is submitted gets a new ticket, and the rest stays as it is. -/
structure Grown (s s' : State κ) : Prop where
  submitted : s.submitted <+: s'.submitted
  outstanding : ∃ front back, s'.d_outstanding = front ++ s.d_outstanding ++ back ∧
    ∀ e ∈ front ++ back, s.submitted.length ≤ e.ticket
  timers : ∃ front, s'.d_timers = front ++ s.d_timers ∧
    ∀ t ∈ front, s.submitted.length ≤ t.ticket
  results : ∃ back, s'.results = s.results ++ back ∧ ∀ d ∈ back, s.submitted.length ≤ d.ticket
  fresh : ∀ t, s.submitted.length ≤ t → t < s'.submitted.length → t ∈ s'.held ∨ t ∈ s'.settled
  d_poll : s'.d_poll = s.d_poll
  d_next_poll : s'.d_next_poll = s.d_next_poll
  run : s'.run = s.run

namespace PollShapeLemmas

open PollLedgerLemmas

variable {s s' : State κ}

theorem queue_initial (pipe : Nat) : Queue (State.initial pipe : State κ).d_outstanding where
  pipe := by simp [State.initial]
  pipe_iff := by simp [State.initial]
  pipe_fd := by simp [State.initial]
  cancel := by simp [State.initial]
  ordered := by simp [State.initial]

theorem shape_initial (pipe : Nat) : Shape (State.initial pipe : State κ) where
  queue := queue_initial pipe
  nodup := (inv_initial pipe).balanced.held_nodup
  owners := (inv_initial pipe).owners
  unsettled _ _ _ h := by cases h
  polled := by simp [State.initial]
  placed := trivial

/-! ### Submissions -/

theorem lt_of_entry (h : Owners s) {e : Entry κ} (he : e ∈ s.d_outstanding) :
    e.ticket < s.submitted.length :=
  (List.getElem?_eq_some_iff.mp (h.entries e he)).1

theorem lt_of_shape (h : Shape s) {t : Nat} (ht : t ∈ s.held) : t < s.submitted.length := by
  rcases Multiset.mem_add.mp ht with ht | ht
  · obtain ⟨e, he, rfl⟩ := List.mem_map.mp (Multiset.mem_coe.mp ht)
    exact lt_of_entry h.owners he
  · obtain ⟨u, hu, rfl⟩ := List.mem_map.mp (Multiset.mem_coe.mp ht)
    exact (List.getElem?_eq_some_iff.mp (h.owners.timers u hu)).1

theorem pos_of_shape (h : Shape s) : 0 < s.submitted.length :=
  lt_of_shape h (mem_held_of_entry h.queue.pipe)

theorem pipe_append (h : Shape s) (c : κ) (t : Nat) :
    (s.submitted ++ [some c])[t]? = some none ↔ t = 0 := by
  have hpos := pos_of_shape h
  rcases Nat.lt_trichotomy t s.submitted.length with hlt | rfl | hgt
  · rw [List.getElem?_append_left hlt]
    exact h.owners.pipe t
  · simp [hpos.ne']
  · rw [List.getElem?_eq_none (by simp; omega)]
    exact ⟨fun hn => (by cases hn), fun hz => (by omega)⟩

theorem not_settled_new (h : Owners s) : s.submitted.length ∉ s.settled := by
  intro hm
  obtain ⟨d, hd, hticket⟩ := List.mem_map.mp (Multiset.mem_coe.mp hm)
  have hlt := (List.getElem?_eq_some_iff.mp (h.results d hd)).1
  omega

theorem queue_emplace {l : List (Entry κ)} {e : Entry κ} (h : Queue l)
    (hop : e.d_operation ≠ .self_pipe) (ht : e.ticket ≠ 0)
    (hcancel : ∀ c, e.d_operation = .cancel c → e.d_fd = -1) :
    Queue (if 0 ≤ e.d_fd then e :: l else l ++ [e]) where
  pipe := by
    obtain ⟨e', he', hz⟩ := List.mem_map.mp h.pipe
    exact List.mem_map.mpr ⟨e', mem_emplace.mpr (.inr he'), hz⟩
  pipe_iff e' he' := by
    rcases mem_emplace.mp he' with rfl | he'
    · exact ⟨fun hp => absurd hp hop, fun hz => absurd hz ht⟩
    · exact h.pipe_iff e' he'
  pipe_fd e' he' hz := by
    rcases mem_emplace.mp he' with rfl | he'
    · exact absurd hz ht
    · exact h.pipe_fd e' he' hz
  cancel e' he' := by
    rcases mem_emplace.mp he' with rfl | he'
    · exact hcancel
    · exact h.cancel e' he'
  ordered := ordered_emplace h.ordered

/-- New entries change nothing of what is known where continuations are called. -/
theorem placed_call {p : Point} (h : s.Placed p) (hp : p ≠ .idle → 0 < s.depth) :
    s'.Placed p := by
  cases p with
  | timer | scheduled =>
    have hdepth := hp (by simp)
    have hzero : s.depth = 0 := h
    omega
  | io | scanning | poll | polling =>
    have hdepth := hp (by simp)
    have hzero : s.depth = 0 := h.1
    omega
  | cancelled own found => cases found <;> exact h
  | cancelling | erasing | idle | timerDone | ioDone | undefined => exact h

theorem eq_of_append_singleton {l : List (Option κ)} {o : Option κ} {t : Nat} (hge : l.length ≤ t)
    (hlt : t < (l ++ [o]).length) : t = l.length := by
  rw [List.length_append, List.length_singleton] at hlt
  omega

theorem grown_submit_io (s : State κ) (fd : Int) (events : BitVec 16) (op : Operation κ) (id : κ) :
    Grown s (s.submit_io fd events op id) := by
  refine ⟨List.prefix_append _ _, ?_, ⟨[], rfl, by simp⟩, ⟨[], by simp [State.submit_io], by simp⟩,
    fun t hge hlt => .inl ?_, rfl, rfl, rfl⟩
  · rcases em (0 ≤ fd) with hfd | hfd
    · exact ⟨[⟨s.submitted.length, fd, events, op, some id⟩], [], by simp [State.submit_io, hfd],
        by simp⟩
    · exact ⟨[], [⟨s.submitted.length, fd, events, op, some id⟩], by simp [State.submit_io, hfd],
        by simp⟩
  · rw [held_submit_io, eq_of_append_singleton hge hlt]
    exact Multiset.mem_cons_self _ _

theorem grown_complete (s : State κ) (c : κ) (r : Result) : Grown s (s.complete c r) := by
  refine ⟨List.prefix_append _ _, ⟨[], [], by simp [State.complete, State.deliver], by simp⟩,
    ⟨[], rfl, by simp⟩, ⟨[⟨s.submitted.length, some c, r⟩], rfl, by simp⟩,
    fun t hge hlt => .inr ?_, rfl, rfl, rfl⟩
  rw [eq_of_append_singleton hge hlt, State.complete, settled_deliver]
  exact Multiset.mem_cons_self _ _

theorem grown_do_timer (s : State κ) (now : Int) (sec : Nat) (nsec : Int) (c : κ) :
    Grown s (s.do_timer now sec nsec c) := by
  refine ⟨List.prefix_append _ _, ⟨[], [], by simp [State.do_timer], by simp⟩,
    ⟨[⟨s.submitted.length, expiry now sec nsec, c⟩], rfl, by simp⟩,
    ⟨[], by simp [State.do_timer], by simp⟩, fun t hge hlt => .inl ?_, rfl, rfl, rfl⟩
  rw [held_do_timer, eq_of_append_singleton hge hlt]
  exact Multiset.mem_cons_self _ _

theorem grown_submit (s : State κ) (fd : Int) (events : BitVec 16) (f : Syscall) (o : Outcome)
    (id : κ) : Grown s (s.submit fd events f o id) := by
  unfold State.submit
  split
  · exact grown_complete s id _
  · exact grown_submit_io s fd events _ id

theorem grown_call (s : State κ) (c : Call κ) : Grown s (s.call c) := by
  cases c with
  | nop c | accept fd c | cancel to_cancel c => exact grown_submit_io s _ _ _ c
  | timer now sec nsec c => exact grown_do_timer s now sec nsec c
  | connect fd o c =>
    show Grown s (s.do_connect fd o c)
    unfold State.do_connect
    split
    · exact grown_complete s c _
    · exact grown_submit_io s _ _ _ c
  | sendmsg fd o c | recvmsg fd o c | read fd o c | write fd o c => exact grown_submit s _ _ _ o c
  | open_at o c => exact grown_complete s c _

theorem shape_submit_io {fd : Int} {events : BitVec 16} {op : Operation κ} {id : κ} (h : Shape s)
    (hrun : s.run ≠ .idle → 0 < s.depth) (hop : op ≠ .self_pipe)
    (hcancel : ∀ c, op = .cancel c → fd = -1) : Shape (s.submit_io fd events op id) := by
  have hheld := held_submit_io s fd events op id
  have hnew : s.submitted.length ∉ s.held := fun hm => lt_irrefl _ (lt_of_shape h hm)
  refine ⟨queue_emplace (e := ⟨s.submitted.length, fd, events, op, some id⟩) h.queue hop
    (pos_of_shape h).ne' hcancel, ?_, ⟨fun e he => ?_, fun t ht => ?_, fun d hd => ?_,
    pipe_append h id⟩, fun t ht => ?_, h.polled, placed_call h.placed hrun⟩
  · rw [hheld]
    exact Multiset.nodup_cons.mpr ⟨hnew, h.nodup⟩
  · rcases (mem_emplace (e := ⟨s.submitted.length, fd, events, op, some id⟩)).mp he with rfl | he
    · simp [State.submit_io]
    · exact getElem?_append_of_some (h.owners.entries e he)
  · exact getElem?_append_of_some (h.owners.timers t ht)
  · exact getElem?_append_of_some (h.owners.results d hd)
  · rw [hheld, Multiset.mem_cons] at ht
    rcases ht with rfl | ht
    · exact fun _ => not_settled_new h.owners
    · exact h.unsettled t ht

theorem shape_complete {c : κ} {r : Result} (h : Shape s) (hrun : s.run ≠ .idle → 0 < s.depth) :
    Shape (s.complete c r) := by
  refine ⟨h.queue, h.nodup, ⟨fun e he => ?_, fun t ht => ?_, fun d hd => ?_, pipe_append h c⟩,
    fun t ht hclosing => ?_, h.polled, placed_call h.placed hrun⟩
  · exact getElem?_append_of_some (h.owners.entries e he)
  · exact getElem?_append_of_some (h.owners.timers t ht)
  · rcases List.mem_append.mp hd with hd | hd
    · exact getElem?_append_of_some (h.owners.results d hd)
    · rw [List.mem_singleton.mp hd]
      simp [State.complete, State.deliver]
  · have hsettled : (s.complete c r).settled = s.submitted.length ::ₘ s.settled :=
      settled_deliver _ _ _ _
    rw [hsettled, Multiset.mem_cons]
    rintro (rfl | hm)
    · exact lt_irrefl _ (lt_of_shape h ht)
    · exact h.unsettled t ht hclosing hm

theorem shape_do_timer {now nsec : Int} {sec : Nat} {c : κ} (h : Shape s)
    (hrun : s.run ≠ .idle → 0 < s.depth) : Shape (s.do_timer now sec nsec c) := by
  have hheld := held_do_timer s now sec nsec c
  have hnew : s.submitted.length ∉ s.held := fun hm => lt_irrefl _ (lt_of_shape h hm)
  refine ⟨h.queue, ?_, ⟨fun e he => ?_, fun t ht => ?_, fun d hd => ?_, pipe_append h c⟩,
    fun t ht => ?_, h.polled, placed_call h.placed hrun⟩
  · rw [hheld]
    exact Multiset.nodup_cons.mpr ⟨hnew, h.nodup⟩
  · exact getElem?_append_of_some (h.owners.entries e he)
  · rcases List.mem_cons.mp ht with rfl | ht
    · simp [State.do_timer]
    · exact getElem?_append_of_some (h.owners.timers t ht)
  · exact getElem?_append_of_some (h.owners.results d hd)
  · rw [hheld, Multiset.mem_cons] at ht
    rcases ht with rfl | ht
    · exact fun _ => not_settled_new h.owners
    · exact h.unsettled t ht

theorem shape_submit {fd : Int} {events : BitVec 16} {f : Syscall} {o : Outcome} {id : κ}
    (h : Shape s) (hrun : s.run ≠ .idle → 0 < s.depth) : Shape (s.submit fd events f o id) := by
  unfold State.submit
  split
  · exact shape_complete h hrun
  · exact shape_submit_io h hrun (by simp) (by simp)

theorem shape_call {c : Call κ} (h : Shape s) (hrun : s.run ≠ .idle → 0 < s.depth) :
    Shape (s.call c) := by
  cases c with
  | nop c => exact shape_submit_io h hrun (by simp) (by simp)
  | timer now sec nsec c => exact shape_do_timer h hrun
  | accept fd c => exact shape_submit_io h hrun (by simp) (by simp)
  | connect fd o c =>
    show Shape (s.do_connect fd o c)
    unfold State.do_connect
    split
    · exact shape_complete h hrun
    · exact shape_submit_io h hrun (by simp) (by simp)
  | sendmsg fd o c | recvmsg fd o c | read fd o c | write fd o c => exact shape_submit h hrun
  | open_at o c => exact shape_complete h hrun
  | cancel to_cancel c => exact shape_submit_io h hrun (by simp) fun _ _ => rfl

/-! ### `do_run_one` -/

/-- A step that neither submits nor settles anything. -/
theorem shape_control (h : Shape s) (houtstanding : s'.d_outstanding = s.d_outstanding)
    (htimers : s'.d_timers = s.d_timers) (hsubmitted : s'.submitted = s.submitted)
    (hresults : s'.results = s.results)
    (hclosing : ∀ t ∈ s.held, t ∈ s.run.closing → t ∈ s'.run.closing)
    (hpolled : ∀ p ∈ s'.d_poll, 0 ≤ p.fd) (hplaced : s'.Placed s'.run) : Shape s' := by
  have hheld : s'.held = s.held := by rw [State.held, State.held, houtstanding, htimers]
  have hsettled : s'.settled = s.settled := by rw [State.settled, State.settled, hresults]
  refine ⟨?_, ?_, ⟨?_, ?_, ?_, ?_⟩, fun t ht hnot => ?_, hpolled, hplaced⟩
  · rw [houtstanding]
    exact h.queue
  · rw [hheld]
    exact h.nodup
  · rw [houtstanding, hsubmitted]
    exact h.owners.entries
  · rw [htimers, hsubmitted]
    exact h.owners.timers
  · rw [hresults, hsubmitted]
    exact h.owners.results
  · rw [hsubmitted]
    exact h.owners.pipe
  · rw [hheld] at ht
    rw [hsettled]
    exact h.unsettled t ht fun hc => hnot (hclosing t ht hc)

theorem shape_goto {p : Point} (h : Shape s) (hclosing : ∀ t ∈ s.run.closing, t ∈ p.closing)
    (hplaced : s.Placed p) : Shape { s with run := p } :=
  shape_control h rfl rfl rfl rfl (fun t _ => hclosing t) h.polled (by cases p <;> exact hplaced)

theorem shape_returns {n : Nat} (h : Shape s) (hclosing : s.run.closing = 0) :
    Shape (s.returns n) :=
  shape_control h rfl rfl rfl rfl (fun t _ ht => (by rw [hclosing] at ht; cases ht)) h.polled trivial

theorem entry_ticket_ne (h : Owners s) {e : Entry κ} {c : κ} (he : e ∈ s.d_outstanding)
    (hid : e.d_id = some c) : e.ticket ≠ 0 := by
  intro hz
  have hown := h.entries e he
  rw [(h.pipe e.ticket).mpr hz, hid] at hown
  cases hown

/-- What is taken out and given its result is not held any more. -/
theorem unsettled_move {t : Nat} {m held settled : Multiset Nat} (hheld : m = t ::ₘ held)
    (hnodup : m.Nodup) (h : ∀ u ∈ m, u ∉ settled) : ∀ u ∈ held, u ∉ t ::ₘ settled := by
  rw [hheld] at hnodup h
  intro u hu hm
  rcases Multiset.mem_cons.mp hm with rfl | hm
  · exact (Multiset.nodup_cons.mp hnodup).1 hu
  · exact h u (Multiset.mem_cons_of_mem hu) hm

/-- Where nothing is being closed, what is held has no result. -/
theorem unsettled_of_closing (h : Shape s) (hclosing : s.run.closing = 0) :
    ∀ t ∈ s.held, t ∉ s.settled :=
  fun t ht => h.unsettled t ht (by rw [hclosing]; exact Multiset.notMem_zero t)

theorem shape_handle_timer {now : Int} {i : Nat} (h : Shape s) (hrun : s.run = .timer)
    (hs : HandlesTimer s now i s') : Shape s' := by
  have hclosing : s.run.closing = 0 := by rw [hrun]; rfl
  have hdepth := h.placed
  rw [hrun] at hdepth
  cases hs with
  | none | early => exact shape_goto h (fun t ht => (by rw [hclosing] at ht; cases ht)) hdepth
  | due ht hmin hdue =>
    obtain ⟨hi, rfl⟩ := List.getElem?_eq_some_iff.mp ht
    have hheld := held_timer hi
    have hnodup := h.nodup
    have hmove := unsettled_move hheld h.nodup (unsettled_of_closing h hclosing)
    rw [hheld] at hnodup
    refine ⟨h.queue, (Multiset.nodup_cons.mp hnodup).2,
      ⟨h.owners.entries, fun t ht => h.owners.timers t (List.mem_of_mem_eraseIdx ht),
        fun _ => results_append h.owners.results (h.owners.timers _ (List.getElem_mem hi)),
        h.owners.pipe⟩, fun u hu _ => ?_, h.polled, trivial⟩
    rw [settled_deliver]
    exact hmove u hu

/-- A continuation is called while the node of its operation is in `d_outstanding`. -/
theorem shape_settle {e : Entry κ} {p : Point} {r : Result} (h : Shape s)
    (he : e ∈ s.d_outstanding) (hclosing : ∀ t, t = e.ticket ∨ t ∈ s.run.closing → t ∈ p.closing)
    (hplaced : ({ s with run := p }.deliver e.ticket e.d_id r).Placed p) :
    Shape ({ s with run := p }.deliver e.ticket e.d_id r) := by
  refine ⟨h.queue, h.nodup, ⟨h.owners.entries, h.owners.timers,
    fun _ => results_append h.owners.results (h.owners.entries e he), h.owners.pipe⟩,
    fun t ht hnot => ?_, h.polled, hplaced⟩
  rw [settled_deliver]
  intro hm
  rcases Multiset.mem_cons.mp hm with rfl | hm
  · exact hnot (hclosing _ (.inl rfl))
  · exact h.unsettled t ht (fun hc => hnot (hclosing t (.inr hc))) hm

theorem queue_sublist {l l' : List (Entry κ)} (h : Queue l) (hl : l'.Sublist l)
    (hpipe : 0 ∈ tickets l') : Queue l' where
  pipe := hpipe
  pipe_iff e he := h.pipe_iff e (hl.subset he)
  pipe_fd e he := h.pipe_fd e (hl.subset he)
  cancel e he := h.cancel e (hl.subset he)
  ordered := h.ordered.sublist hl

theorem shape_erase {t n : Nat} {p : Point} (h : Shape s) (ht : t ∈ tickets s.d_outstanding)
    (hpipe : t ≠ 0) (hclosing : ∀ u, u ∈ s.run.closing → u = t ∨ u ∈ p.closing)
    (hplaced : ({ s with d_outstanding := s.d_outstanding.eraseP fun e => e.ticket = t
                         count := n, run := p } : State κ).Placed p) :
    Shape ({ s with count := n }.erase t p) := by
  have hsub : (s.d_outstanding.eraseP fun e => e.ticket = t).Sublist s.d_outstanding :=
    List.eraseP_sublist
  have hheld := held_erase (s := s) ht
  have hnodup := h.nodup
  rw [hheld] at hnodup
  unfold State.erase
  rw [if_pos ht]
  refine ⟨queue_sublist h.queue hsub ?_, (Multiset.nodup_cons.mp hnodup).2,
    ⟨fun e he => h.owners.entries e (hsub.subset he), h.owners.timers, h.owners.results,
      h.owners.pipe⟩, fun u hu hnot => ?_, h.polled, hplaced⟩
  · rw [tickets_eraseP]
    exact (List.mem_erase_of_ne hpipe.symm).mpr h.queue.pipe
  · refine h.unsettled u (by rw [hheld]; exact Multiset.mem_cons_of_mem hu) fun hc => ?_
    rcases hclosing u hc with rfl | hc
    · exact (Multiset.nodup_cons.mp hnodup).1 hu
    · exact hnot hc

theorem shape_handle_io (h : Shape s) (hrun : s.run = .io) (hdefined : s.handle_io.run ≠ .undefined) :
    Shape s.handle_io := by
  have hclosing : ∀ t ∈ s.held, t ∉ s.run.closing := fun t _ ht => by rw [hrun] at ht; cases ht
  have hplaced := h.placed
  rw [hrun] at hplaced
  unfold State.handle_io at hdefined ⊢
  split
  · next hnone =>
    rw [hnone] at hdefined
    exact absurd rfl hdefined
  · dsimp only
    split
    · exact shape_control h rfl rfl rfl rfl (fun t ht hc => absurd hc (hclosing t ht)) h.polled hplaced
    · exact shape_control h rfl rfl rfl rfl (fun t ht hc => absurd hc (hclosing t ht)) h.polled hplaced

theorem not_pipe_of_answer {e : Entry κ} {o : Outcome} (h : Queue s.d_outstanding)
    (he : e ∈ s.d_outstanding) (hattempt : e.d_operation.attempt o ≠ .again) : e.ticket ≠ 0 := by
  intro hz
  rw [(h.pipe_iff e he).mpr hz] at hattempt
  exact hattempt rfl

theorem shape_scan {rit : Nat} {o : Outcome} (h : Shape s) (hrun : s.run = .scanning rit)
    (hs : Scans s rit o s') : Shape s' := by
  have hclosing : s.run.closing = 0 := by rw [hrun]; rfl
  have hnone : ∀ t ∈ s.run.closing, t ∈ (0 : Multiset Nat) := fun t ht => by
    rwa [hclosing] at ht
  have hplaced := h.placed
  rw [hrun] at hplaced
  cases hs with
  | ended => exact shape_control h rfl rfl rfl rfl (fun t _ ht => hnone t ht) h.polled hplaced
  | passed => exact shape_goto h hnone hplaced
  | done hi hp he hmatch ha =>
    obtain ⟨hrit, rfl⟩ := List.getElem?_eq_some_iff.mp he
    have hmem := List.getElem_mem hrit
    have hpipe := not_pipe_of_answer (o := o) h.queue hmem (by rw [ha]; simp)
    have hheld := held_entry hrit
    have hnodup := h.nodup
    have hmove := unsettled_move hheld h.nodup (unsettled_of_closing h hclosing)
    have hsub := List.eraseIdx_sublist s.d_outstanding rit
    rw [hheld] at hnodup
    refine ⟨queue_sublist h.queue hsub ?_, (Multiset.nodup_cons.mp hnodup).2,
      ⟨fun e he => h.owners.entries e (hsub.subset he), h.owners.timers,
        fun _ => results_append h.owners.results (h.owners.entries _ hmem), h.owners.pipe⟩,
      fun u hu _ => ?_, h.polled, trivial⟩
    · have hperm := ((List.getElem_cons_eraseIdx_perm hrit).map Entry.ticket).symm
      rcases List.mem_cons.mp (hperm.subset h.queue.pipe) with hz | hz
      · exact absurd hz.symm hpipe
      · exact hz
    · rw [settled_deliver]
      exact hmove u hu

theorem nodup_tickets (h : Shape s) : (tickets s.d_outstanding).Nodup := by
  have hnodup := h.nodup
  unfold State.held at hnodup
  rw [Multiset.coe_add, Multiset.coe_nodup] at hnodup
  exact (List.nodup_append.mp hnodup).1

/-- An idle context has the self-pipe alone. -/
theorem singleton_of_idle (h : Shape s) (hidle : s.Idle) :
    ∃ e, s.d_outstanding = [e] ∧ 0 ≤ e.d_fd := by
  have hnodup := nodup_tickets h
  have hpipe := h.queue.pipe
  have hzero : ∀ e ∈ s.d_outstanding, e.ticket = 0 := fun e he =>
    (h.queue.pipe_iff e he).mp (hidle.2 e he)
  have hfd : ∀ e ∈ s.d_outstanding, 0 ≤ e.d_fd := fun e he => h.queue.pipe_fd e he (hzero e he)
  cases hl : s.d_outstanding with
  | nil =>
    rw [hl] at hpipe
    cases hpipe
  | cons e l =>
    cases l with
    | nil => exact ⟨e, rfl, hfd e (by simp [hl])⟩
    | cons e' l =>
      have he := hzero e (by simp [hl])
      have he' := hzero e' (by simp [hl])
      rw [hl] at hnodup
      simp [he, he'] at hnodup

theorem mem_pollable {l : List (Entry κ)} {p : PollFd}
    (hp : p ∈ (l.takeWhile fun e => 0 ≤ e.d_fd).map fun e => (⟨e.d_fd, e.d_events, 0⟩ : PollFd)) :
    0 ≤ p.fd := by
  obtain ⟨e, he, rfl⟩ := List.mem_map.mp hp
  simpa using List.mem_takeWhile_imp he

theorem shape_poll (h : Shape s) (hrun : s.run = .poll) : Shape s.poll := by
  have hnone : ∀ (p : Point) t, t ∈ s.held → t ∈ s.run.closing → t ∈ p.closing := fun p t _ ht => by
    rw [hrun] at ht
    cases ht
  have hplaced := h.placed
  rw [hrun] at hplaced
  unfold State.poll
  dsimp only
  split
  · exact shape_control h rfl rfl rfl rfl (hnone _) (fun _ => mem_pollable) trivial
  · next hnot =>
    refine shape_control h rfl rfl rfl rfl (hnone _) (fun _ => mem_pollable) ⟨hplaced.1, ?_⟩
    rintro hidle
    obtain ⟨e, he, hfd⟩ := singleton_of_idle h hidle
    refine hnot ⟨?_, hidle.1⟩
    rw [he]
    simp [hfd]

theorem shape_polled {r : PollResult} (h : Shape s) (hrun : s.run = .polling) :
    Shape (s.polled r) := by
  have hplaced := h.placed
  rw [hrun] at hplaced
  cases r with
  | ready revents =>
    refine shape_control h rfl rfl rfl rfl (fun t _ ht => ?_) (fun p hp => ?_) hplaced.1
    · rw [hrun] at ht
      cases ht
    · obtain ⟨i, hi, rfl⟩ := List.mem_mapIdx.mp hp
      show 0 ≤ s.d_poll[i].fd
      exact h.polled _ (List.getElem_mem hi)
  | interrupted => exact h
  | failed => exact shape_returns h (by rw [hrun]; rfl)

theorem shape_resume (h : Shape s) (hs : Resumes s s') (hdefined : s'.run ≠ .undefined) :
    Shape s' := by
  have hplaced := h.placed
  cases hs with
  | timerDone hrun => exact shape_returns h (by rw [hrun]; rfl)
  | none hrun =>
    rw [hrun] at hplaced
    exact shape_goto h (fun t ht => (by rwa [hrun] at ht)) hplaced
  | found hrun hit hticket =>
    subst hticket
    rw [hrun] at hplaced
    refine shape_settle h hit (fun t ht => ?_) hplaced
    rw [hrun] at ht
    simpa [Point.closing] using ht
  | lost => exact absurd rfl hdefined
  | @cancelling own found hrun =>
    rw [hrun] at hplaced
    rcases em (found ∈ tickets s.d_outstanding) with hfound | hfound
    · refine shape_erase (n := s.count) h hfound hplaced.2 (fun t ht => ?_) hplaced.1
      rw [hrun] at ht
      simpa [Point.closing] using ht
    · simp [State.erase, hfound] at hdefined
  | @erasing own hrun =>
    rw [hrun] at hplaced
    rcases em (own ∈ tickets s.d_outstanding) with hown | hown
    · refine shape_erase (n := 1) h hown hplaced (fun t ht => ?_) trivial
      rw [hrun] at ht
      simpa [Point.closing] using ht
    · simp [State.erase, hown] at hdefined
  | ioDone hrun =>
    exact shape_control h rfl rfl rfl rfl (fun t _ ht => (by rw [hrun] at ht; cases ht)) h.polled
      trivial

variable [DecidableEq κ]

theorem shape_handle_scheduled {o : Outcome} (h : Shape s) (hrun : s.run = .scheduled)
    (hs : HandlesScheduled s o s') : Shape s' := by
  have hplaced := h.placed
  have hclosing : ∀ t, t ∉ s.run.closing := fun t ht => by rw [hrun] at ht; cases ht
  rw [hrun] at hplaced
  -- the self-pipe has a descriptor
  have hpipe {it : Entry κ} (hit : s.d_outstanding.getLast? = some it) (hfd : it.d_fd = -1) :
      it.ticket ≠ 0 := fun hz => by
    have := h.queue.pipe_fd it (List.mem_of_getLast? hit) hz
    omega
  have hown {it : Entry κ} :
      ∀ t, t = it.ticket ∨ t ∈ s.run.closing → t ∈ (Point.erasing it.ticket).closing := by
    rintro t (rfl | ht)
    · exact Multiset.mem_singleton_self _
    · exact absurd ht (hclosing t)
  cases hs with
  | none hnone => exact shape_goto h (fun t ht => absurd ht (hclosing t)) ⟨hplaced, hnone⟩
  | again hit hfd ha => exact shape_goto h (fun t ht => absurd ht (hclosing t)) (hpipe hit hfd)
  | done hit hfd ha => exact shape_settle h (List.mem_of_getLast? hit) hown (hpipe hit hfd)
  | @cancel it c hit hfd ha =>
    unfold State.cancel
    refine shape_settle h (List.mem_of_getLast? hit) hown ?_
    cases hfind : s.d_outstanding.find? fun op => op.d_id = some c with
    | none => exact hpipe hit hfd
    | some e =>
      exact ⟨hpipe hit hfd, entry_ticket_ne h.owners (List.mem_of_find?_eq_some hfind)
        (by simpa using List.find?_some hfind)⟩

theorem shape_advance {l : Label κ} (h : Shape s) (hdepth : s.depth = 0)
    (hs : Advances s l s') (hdefined : s'.run ≠ .undefined) : Shape s' := by
  cases hs with
  | do_run_one hrun => exact shape_goto h (fun t ht => (by rw [hrun] at ht; cases ht)) hdepth
  | handle_timer hrun hs => exact shape_handle_timer h hrun hs
  | handle_scheduled hrun hs => exact shape_handle_scheduled h hrun hs
  | handle_io hrun => exact shape_handle_io h hrun hdefined
  | scan hrun hs => exact shape_scan h hrun hs
  | poll hrun => exact shape_poll h hrun
  | polled hrun => exact shape_polled h hrun
  | resume hs => exact shape_resume h hs hdefined

end PollShapeLemmas

open PollShapeLemmas

variable [DecidableEq κ]

theorem not_advance_of_undefined {s s' : State κ} {l : Label κ} (hrun : s.run = .undefined)
    (hs : Advances s l s') : False := by
  have hne {p : Point} (hp : s.run = p) : p = .undefined := hp.symm.trans hrun
  cases hs with
  | do_run_one h | handle_timer h | handle_scheduled h | handle_io h | scan h | poll h
  | polled h => cases hne h
  | resume hs =>
    cases hs with
    | timerDone h | none h | found h | lost h | cancelling h | erasing h | ioDone h => cases hne h

/-- The use of an iterator that points to nothing ends the run. -/
theorem undefined_step {s s' : State κ} {l : Label κ} (hs : next s l = some s')
    (hrun : s.run = .undefined) : s'.run = .undefined := by
  cases steps_of hs with
  | call => rw [(grown_call s _).run, hrun]
  | returned => exact hrun
  | advance hdepth hs => exact (not_advance_of_undefined hrun hs).elim

omit [DecidableEq κ] in
/-- What is erased has to be there. -/
theorem erase_cases (s : State κ) (t : Nat) (p : Point) :
    ((s.erase t p).run = p ∨ (s.erase t p).run = .undefined) ∧
      (s.erase t p).depth = s.depth ∧ (s.erase t p).count = s.count := by
  unfold State.erase
  split
  · exact ⟨.inl rfl, rfl, rfl⟩
  · exact ⟨.inr rfl, rfl, rfl⟩

theorem undefined_depth {s s' : State κ} {l : Label κ} (hs : next s l = some s')
    (hrun : s'.run = .undefined) : s.run = .undefined ∨ s'.depth = 0 := by
  cases steps_of hs with
  | call => exact .inl ((grown_call s _).run.symm.trans hrun)
  | returned => exact .inl hrun
  | advance hdepth hs =>
    cases hs with
    | do_run_one => cases hrun
    | handle_timer _ hs =>
      cases hs with
      | none | due | early => cases hrun
    | handle_scheduled _ hs =>
      cases hs with
      | none | again | done | cancel => cases hrun
    | handle_io =>
      unfold State.handle_io at hrun ⊢
      grind
    | scan _ hs =>
      cases hs with
      | ended | passed | done => cases hrun
    | poll =>
      unfold State.poll at hrun
      grind [State.returns]
    | @polled r =>
      cases r with
      | ready revents => cases hrun
      | interrupted => exact .inl hrun
      | failed => cases hrun
    | resume hs =>
      cases hs with
      | timerDone | none | found | ioDone => cases hrun
      | lost => exact .inr hdepth
      | cancelling => exact .inr ((erase_cases s _ _).2.1.trans hdepth)
      | erasing => exact .inr ((erase_cases { s with count := 1 } _ _).2.1.trans hdepth)

theorem not_step_of_undefined {s s' : State κ} {l : Label κ} (hrun : s.run = .undefined)
    (hdepth : s.depth = 0) (hs : next s l = some s') : False := by
  cases steps_of hs with
  | call hidle =>
    rcases hidle with hidle | hpos
    · cases hidle.symm.trans hrun
    · exact Nat.ne_of_gt hpos hdepth
  | returned hpos => exact Nat.ne_of_gt hpos hdepth
  | advance _ hs => exact not_advance_of_undefined hrun hs

/-- What can take a step is defined. -/
theorem defined_of_step {pipe : Nat} {s s' : State κ} {tr : List (Label κ)} {l : Label κ}
    (h : Run (system κ pipe) (State.initial pipe) tr s) (hs : next s l = some s') :
    s.run ≠ .undefined := by
  have hdepth : s.run = .undefined → s.depth = 0 :=
    h.invariant_state (I := fun s => s.run = .undefined → s.depth = 0) (fun _ => rfl)
      fun s l s' hi hs hrun => (undefined_depth hs hrun).elim
        (fun hrun' => (not_step_of_undefined hrun' (hi hrun') hs).elim) id
  exact fun hrun => not_step_of_undefined hrun (hdepth hrun) hs

theorem shape_step {s s' : State κ} {l : Label κ} (h : Shape s) (hs : next s l = some s')
    (hdefined : s'.run ≠ .undefined) : Shape s' := by
  cases steps_of hs with
  | call hrun => exact shape_call h fun hne => hrun.resolve_left hne
  | returned hdepth =>
    exact shape_control h rfl rfl rfl rfl (fun _ _ => id) h.polled
      (placed_call h.placed fun _ => hdepth)
  | advance hdepth hs => exact shape_advance h hdepth hs hdefined

theorem shape_run {pipe : Nat} {s : State κ} {tr : List (Label κ)}
    (h : Run (system κ pipe) (State.initial pipe) tr s) (hdefined : s.run ≠ .undefined) :
    Shape s :=
  h.invariant_state (I := fun s => s.run ≠ .undefined → Shape s) (fun _ => shape_initial pipe)
    (fun _ _ _ hi hs hd => shape_step (hi fun hu => hd (undefined_step hs hu)) hs hd) hdefined

/-! ## 2. `do_run_one` returns `0` -/

/-- The step of `do_run_one` that returns `0`. -/
def ReturnsZero (s s' : State κ) : Prop := s.run ≠ .idle ∧ s'.run = .idle ∧ s'.count = 0

/-- `poll(2)` does not fail, and no operation has a descriptor below `-1`. -/
def Served (s : State κ) : Label κ → Prop
  | .polled .failed => False
  | .poll => ∀ e ∈ s.d_outstanding, -1 ≤ e.d_fd
  | _ => True

namespace PollShapeLemmas

variable {s s' : State κ}

/-- All other ways out of `do_run_one` return `1`. -/
theorem returnsZero_cases {l : Label κ} (hs : next s l = some s') (hzero : ReturnsZero s s') :
    (l = .poll ∧ s.run = .poll ∧ s' = s.poll) ∨
      (l = .polled .failed ∧ s.run = .polling ∧ s' = s.returns 0) := by
  obtain ⟨hrun, hidle, hcount⟩ := hzero
  cases steps_of hs with
  | call => exact absurd ((grown_call s _).run.symm.trans hidle) hrun
  | returned => exact absurd hidle hrun
  | advance hdepth hs =>
    cases hs with
    | do_run_one hrun' => exact absurd hrun' hrun
    | handle_timer _ hs =>
      cases hs with
      | none | due | early => cases hidle
    | handle_scheduled _ hs =>
      cases hs with
      | none | again | done | cancel => cases hidle
    | handle_io =>
      unfold State.handle_io at hidle
      grind
    | scan _ hs =>
      cases hs with
      | ended | passed | done => cases hidle
    | poll hrun' => exact .inl ⟨rfl, hrun', rfl⟩
    | @polled r hrun' =>
      cases r with
      | ready revents => cases hidle
      | interrupted => exact absurd hidle hrun
      | failed => exact .inr ⟨rfl, hrun', rfl⟩
    | resume hs =>
      cases hs with
      | timerDone | ioDone => cases hcount
      | none | found | lost => cases hidle
      | cancelling =>
        rcases (erase_cases s _ _).1 with hp | hp
        · cases hp.symm.trans hidle
        · cases hp.symm.trans hidle
      | erasing => cases (erase_cases { s with count := 1 } _ _).2.2.symm.trans hcount

omit [DecidableEq κ] in
/-- `poll()` sees all operations if the last one is not scheduled. -/
theorem idle_of_pollable (h : Shape s) (htimers : s.d_timers = [])
    (hlast : ∀ e, s.d_outstanding.getLast? = some e → e.d_fd ≠ -1)
    (hfd : ∀ e ∈ s.d_outstanding, -1 ≤ e.d_fd)
    (hlength : (s.d_outstanding.takeWhile fun e => 0 ≤ e.d_fd).length = 1) : s.Idle := by
  have hne : s.d_outstanding ≠ [] := by
    rintro hnil
    have hpipe := h.queue.pipe
    rw [hnil] at hpipe
    cases hpipe
  obtain ⟨last, hlast'⟩ := Option.isSome_iff_exists.mp (List.getLast?_isSome.mpr hne)
  have hmem := List.mem_of_getLast? hlast'
  have hlast_fd : 0 ≤ last.d_fd := by
    have h₁ := hlast last hlast'
    have h₂ := hfd last hmem
    omega
  have hall : ∀ e ∈ s.d_outstanding, 0 ≤ e.d_fd := by
    obtain ⟨front, hfront⟩ := List.getLast?_eq_some_iff.mp hlast'
    have hordered := h.queue.ordered
    rw [hfront] at hordered ⊢
    intro e he
    rcases List.mem_append.mp he with he | he
    · exact (List.pairwise_append.mp hordered).2.2 e he last (List.mem_singleton_self _) hlast_fd
    · rw [List.mem_singleton.mp he]
      exact hlast_fd
  have htake : (s.d_outstanding.takeWhile fun e => 0 ≤ e.d_fd) = s.d_outstanding := by
    rw [List.takeWhile_eq_self_iff]
    simpa using hall
  rw [htake] at hlength
  obtain ⟨e, he⟩ := List.length_eq_one_iff.mp hlength
  have hpipe := h.queue.pipe
  rw [he] at hpipe
  refine ⟨htimers, fun e' he' => (h.queue.pipe_iff e' he').mpr ?_⟩
  rw [he] at he'
  rw [List.mem_singleton.mp he']
  exact (List.mem_singleton.mp hpipe).symm

end PollShapeLemmas

/-- A `do_run_one` that returns `0` leaves the self-pipe alone, if and only if `poll(2)` has
not failed and no operation has a descriptor below `-1`. -/
theorem idle_iff {pipe : Nat} {s s' : State κ} {tr : List (Label κ)} {l : Label κ}
    (h : Run (system κ pipe) (State.initial pipe) tr s) (hs : next s l = some s')
    (hzero : ReturnsZero s s') : s'.Idle ↔ Served s l := by
  have hdefined : s.run ≠ .undefined := fun hu => by
    have hrun := undefined_step hs hu
    rw [hzero.2.1] at hrun
    cases hrun
  have hshape := shape_run h hdefined
  have hplaced := hshape.placed
  rcases returnsZero_cases hs hzero with ⟨rfl, hrun, rfl⟩ | ⟨rfl, hrun, rfl⟩
  · rw [hrun] at hplaced
    have hidle := hzero.2.1
    unfold State.poll at hidle ⊢
    dsimp only at hidle ⊢
    split at hidle
    · next hone =>
      rw [if_pos hone]
      constructor
      · intro hi e he
        have hzero := (hshape.queue.pipe_iff e he).mp (hi.2 e he)
        have := hshape.queue.pipe_fd e he hzero
        omega
      · intro hfd
        rw [List.length_map] at hone
        show s.Idle
        exact idle_of_pollable hshape hone.2 hplaced.2 hfd hone.1
    · cases hidle
  · rw [hrun] at hplaced
    exact iff_of_false hplaced.2 id

/-- The context is idle from the start. -/
def exIdle : List (Label Nat) :=
  [.do_run_one, .handle_timer 0 0, .handle_scheduled ⟨0, .EAGAIN, 0⟩, .handle_io]

theorem idle_iff_example : ∃ s s' : State Nat, Run (system Nat 3) (State.initial 3) exIdle s ∧
    next s .poll = some s' ∧ (s'.Idle ↔ Served s .poll) :=
  have hrun := run_replay (S := system Nat 3) (fun _ _ _ => id)
    (show (replay next (State.initial 3) exIdle).isSome from rfl)
  ⟨_, _, hrun, rfl, idle_iff hrun rfl ⟨by decide, rfl, rfl⟩⟩

/-- A signal arrives while `poll(2)` waits for a timer. -/
def exInterrupted : List (Label Nat) :=
  [.call (.timer 0 1 0 7), .do_run_one, .handle_timer 0 0, .handle_scheduled ⟨0, .EAGAIN, 0⟩,
    .handle_io, .poll]

/-- `do_run_one` returns `0`, and the timer is still pending. -/
theorem not_idle : ∃ s s' : State Nat, Run (system Nat 3) (State.initial 3) exInterrupted s ∧
    next s (.polled .failed) = some s' ∧ ReturnsZero s s' ∧ ¬ s'.Idle := by
  refine ⟨_, _, run_replay (S := system Nat 3) (fun _ _ _ => id)
    (show (replay next (State.initial 3) exInterrupted).isSome from rfl), rfl,
    ⟨by decide, rfl, rfl⟩, fun h => ?_⟩
  cases h.1

/-! ## 3. Ready descriptors -/

/-- `poll(2)` has reported something that the operation waits for. -/
def Matches (p : PollFd) (e : Entry κ) : Prop := p.fd = e.d_fd ∧ p.revents &&& e.d_events ≠ 0

/-- The next step of the inner loop calls an operation. -/
def State.Attempting (s : State κ) : Prop :=
  ∃ rit i p e, s.run = .scanning rit ∧ s.d_next_poll = some i ∧ s.d_poll[i]? = some p ∧
    s.d_outstanding[rit]? = some e ∧ Matches p e

/-- A step of the run calls an operation. -/
def Tried (pipe : Nat) (s : State κ) (tr : List (Label κ)) : Prop :=
  ∃ tr₁ o tr₂ s₁, tr = tr₁ ++ .scan o :: tr₂ ∧ Run (system κ pipe) s tr₁ s₁ ∧ s₁.Attempting

namespace PollShapeLemmas

variable {pipe : Nat} {s s' s₀ : State κ} {tr : List (Label κ)} {l : Label κ}

theorem Tried.snoc (h : Tried pipe s tr) (l : Label κ) : Tried pipe s (tr ++ [l]) := by
  obtain ⟨tr₁, o, tr₂, s₁, rfl, hrun, hs₁⟩ := h
  exact ⟨tr₁, o, tr₂ ++ [l], s₁, by simp, hrun, hs₁⟩

theorem Tried.last {o : Outcome} (h : Run (system κ pipe) s₀ tr s) (hs : s.Attempting) :
    Tried pipe s₀ (tr ++ [.scan o]) :=
  ⟨tr, o, [], s, rfl, h, hs⟩

theorem scans_of_next {o : Outcome} (hs : next s (.scan o) = some s') :
    ∃ rit, s.run = .scanning rit ∧ Scans s rit o s' := by
  cases steps_of hs with
  | advance _ hs =>
    cases hs with
    | @scan rit _ _ hrun hs => exact ⟨rit, hrun, hs⟩

/-- A step of the inner loop that calls no operation goes on to the next one, or ends the loop. -/
theorem scan_cases {rit i : Nat} {p : PollFd} {o : Outcome} (hrun : s.run = .scanning rit)
    (hi : s.d_next_poll = some i) (hp : s.d_poll[i]? = some p) (hs : next s (.scan o) = some s')
    (hnot : ¬ s.Attempting) :
    (∃ e, s.d_outstanding[rit]? = some e ∧ ¬ Matches p e ∧
      s' = { s with run := .scanning (rit + 1) }) ∨
    (s.d_outstanding.length ≤ rit ∧ s' = { s with d_next_poll := some (i + 1), run := .io }) := by
  obtain ⟨rit', hrun', hs⟩ := scans_of_next hs
  obtain rfl : rit = rit' := Point.scanning.inj (hrun.symm.trans hrun')
  cases hs with
  | ended hi' hp' hnone =>
    obtain rfl := Option.some.inj (hi.symm.trans hi')
    exact .inr ⟨List.getElem?_eq_none_iff.mp hnone, rfl⟩
  | passed hi' hp' he hpass =>
    obtain rfl := Option.some.inj (hi.symm.trans hi')
    obtain rfl := Option.some.inj (hp.symm.trans hp')
    exact .inl ⟨_, he, fun hm => hnot ⟨rit, i, p, _, hrun, hi, hp, he, hm⟩, rfl⟩
  | done hi' hp' he hmatch ha =>
    exact absurd ⟨rit, _, _, _, hrun, hi', hp', he, hmatch⟩ hnot

/-- The inner loop changes nothing until it is left. -/
theorem scan_stays {rit : Nat} {o : Outcome} (hrun : s.run = .scanning rit)
    (hs : next s (.scan o) = some s') :
    s' = { s with run := .scanning (rit + 1) } ∨ s'.run = .io ∨ s'.run = .ioDone := by
  obtain ⟨rit', hrun', hs⟩ := scans_of_next hs
  obtain rfl : rit = rit' := Point.scanning.inj (hrun.symm.trans hrun')
  cases hs with
  | ended => exact .inr (.inl rfl)
  | passed => exact .inl rfl
  | done => exact .inr (.inr rfl)

omit [DecidableEq κ] in
theorem take_succ_of_getElem? {l : List (Entry κ)} {rit : Nat} {e : Entry κ}
    (he : l[rit]? = some e) {P : Entry κ → Prop} (h : ∀ e ∈ l.take rit, P e) (hP : P e) :
    ∀ e ∈ l.take (rit + 1), P e := by
  intro e' he'
  rw [List.take_add_one, he] at he'
  rcases List.mem_append.mp he' with he' | he'
  · exact h e' he'
  · rw [List.mem_singleton.mp he']
    exact hP

/-- The inner loop for one entry of `d_poll`, as long as it calls no operation. -/
def Missed (s : State κ) (i : Nat) (p : PollFd) (s' : State κ) : Prop :=
  (∃ rit, s' = { s with run := .scanning rit } ∧
    ∀ e ∈ s.d_outstanding.take rit, ¬ Matches p e) ∨
  (s' = { s with d_next_poll := some (i + 1), run := .io } ∧
    ∀ e ∈ s.d_outstanding, ¬ Matches p e)

theorem missed_run {i : Nat} {p : PollFd} (hrun : s₀.run = .scanning 0)
    (hi : s₀.d_next_poll = some i) (hp : s₀.d_poll[i]? = some p)
    (h : Run (system κ pipe) s₀ tr s) (hscan : ∀ l ∈ tr, ∃ o, l = .scan o) :
    Tried pipe s₀ tr ∨ Missed s₀ i p s := by
  induction h with
  | nil => exact .inr (.inl ⟨0, by rw [← hrun], by simp⟩)
  | @snoc tr s s' l h hs ih =>
    obtain ⟨o, rfl⟩ := hscan l (by simp)
    rcases ih fun l hl => hscan l (List.mem_append_left _ hl) with htried | hmissed
    · exact .inl (Tried.snoc htried _)
    · rcases em s.Attempting with hatt | hatt
      · exact .inl (Tried.last h hatt)
      rcases hmissed with ⟨rit, rfl, hrit⟩ | ⟨rfl, -⟩
      · refine .inr ?_
        rcases scan_cases (s := { s₀ with run := .scanning rit }) rfl hi hp hs
            hatt with ⟨e, he, hmatch, rfl⟩ | ⟨hle, rfl⟩
        · exact .inl ⟨rit + 1, rfl, take_succ_of_getElem? he hrit hmatch⟩
        · rw [List.take_of_length_le hle] at hrit
          exact .inr ⟨rfl, hrit⟩
      · obtain ⟨-, hs⟩ := Option.ite_none_right_eq_some.mp hs
        cases hs

/-- The inner loop goes over the list as it found it. -/
theorem scanning_run (hrun : s₀.run = .scanning 0) (h : Run (system κ pipe) s₀ tr s)
    (hscan : ∀ l ∈ tr, ∃ o, l = .scan o) :
    (∃ rit, s = { s₀ with run := .scanning rit }) ∨ s.run = .io ∨ s.run = .ioDone := by
  induction h with
  | nil => exact .inl ⟨0, by rw [← hrun]⟩
  | @snoc tr s s' l h hs ih =>
    obtain ⟨o, rfl⟩ := hscan l (by simp)
    rcases ih fun l hl => hscan l (List.mem_append_left _ hl) with ⟨rit, rfl⟩ | hend
    · rcases scan_stays (s := { s₀ with run := .scanning rit }) rfl hs with rfl | hend
      · exact .inl ⟨rit + 1, rfl⟩
      · exact .inr hend
    · obtain ⟨-, hs⟩ := Option.ite_none_right_eq_some.mp hs
      rcases hend with hend | hend
      · simp [State.advance, hend] at hs
      · simp [State.advance, hend] at hs

/-- What is tried in the inner loop matches. -/
theorem matches_of_tried {i : Nat} {p : PollFd} (hrun : s₀.run = .scanning 0)
    (hi : s₀.d_next_poll = some i) (hp : s₀.d_poll[i]? = some p)
    (hscan : ∀ l ∈ tr, ∃ o, l = .scan o) (h : Tried pipe s₀ tr) :
    ∃ e ∈ s₀.d_outstanding, Matches p e := by
  obtain ⟨tr₁, o, tr₂, s₁, rfl, h₁, rit, i', p', e, hrit, hi', hp', he, hmatch⟩ := h
  rcases scanning_run hrun h₁ fun l hl => hscan l (List.mem_append_left _ hl) with
    ⟨rit', rfl⟩ | hend | hend
  · obtain rfl : i = i' := Option.some.inj (hi.symm.trans hi')
    obtain rfl : p = p' := Option.some.inj (hp.symm.trans hp')
    exact ⟨e, List.mem_of_getElem? he, hmatch⟩
  · rw [hend] at hrit
    cases hrit
  · rw [hend] at hrit
    cases hrit

end PollShapeLemmas

/-- The inner loop of `handle_io` for a ready entry of `d_poll` calls an operation on its
descriptor, if there is one, if and only if one of them has asked for what was reported. -/
theorem attempts_iff {pipe i : Nat} {p : PollFd} {s s' : State κ} {tr : List (Label κ)}
    (hrun : s.run = .scanning 0) (hi : s.d_next_poll = some i) (hp : s.d_poll[i]? = some p)
    (h : Run (system κ pipe) s tr s') (hscan : ∀ l ∈ tr, ∃ o, l = .scan o)
    (hend : s'.run = .io ∨ s'.run = .ioDone) :
    ((∃ e ∈ s.d_outstanding, e.d_fd = p.fd) → Tried pipe s tr) ↔
      ((∃ e ∈ s.d_outstanding, e.d_fd = p.fd) →
        ∃ e ∈ s.d_outstanding, e.d_fd = p.fd ∧ p.revents &&& e.d_events ≠ 0) := by
  refine forall_congr' fun _ => ⟨fun htried => ?_, fun hmatch => ?_⟩
  · obtain ⟨e, he, hfd, hevents⟩ := matches_of_tried hrun hi hp hscan htried
    exact ⟨e, he, hfd.symm, hevents⟩
  · obtain ⟨e, he, hfd, hevents⟩ := hmatch
    rcases missed_run hrun hi hp h hscan with htried | hmissed
    · exact htried
    · rcases hmissed with ⟨rit, rfl, -⟩ | ⟨-, hnone⟩
      · rcases hend with hend | hend <;> cases hend
      · exact absurd ⟨hfd.symm, hevents⟩ (hnone e he)

/-- A descriptor is read, and `poll(2)` says that it can be. -/
def exReadable : List (Label Nat) :=
  [.call (.accept 5 7), .do_run_one, .handle_timer 0 0, .handle_scheduled ⟨0, .EAGAIN, 0⟩,
    .handle_io, .poll, .polled (.ready fun i => if i = 0 then POLLIN else 0), .handle_timer 0 0,
    .handle_scheduled ⟨0, .EAGAIN, 0⟩, .handle_io]

theorem attempts_iff_example : ∃ s s' : State Nat,
    Run (system Nat 3) (State.initial 3) exReadable s ∧
      Run (system Nat 3) s [.scan ⟨9, .EAGAIN, 0⟩] s' ∧
      ((∃ e ∈ s.d_outstanding, e.d_fd = 5) → Tried 3 s [.scan ⟨9, .EAGAIN, 0⟩]) := by
  have hscan := run_replay (S := system Nat 3) (fun _ _ _ => id)
    (show (replay next ((replay next (State.initial 3) exReadable).get rfl)
      [.scan ⟨9, .EAGAIN, 0⟩]).isSome from rfl)
  refine ⟨_, _, run_replay (S := system Nat 3) (fun _ _ _ => id)
    (show (replay next (State.initial 3) exReadable).isSome from rfl), hscan,
    (attempts_iff (p := ⟨5, POLLIN, POLLIN⟩) rfl rfl rfl hscan ?_ (.inr rfl)).mpr fun _ => ?_⟩
  · exact fun l hl => ⟨_, List.mem_singleton.mp hl⟩
  · exact ⟨⟨1, 5, POLLIN, .call .accept, some 7⟩, by decide, rfl, by decide⟩

abbrev POLLHUP : BitVec 16 := 16

/-- A pipe is read, and `poll(2)` says that its other end has been closed. -/
def exHangup : List (Label Nat) :=
  [.call (.read 5 ⟨-1, .EAGAIN, 0⟩ 7), .do_run_one, .handle_timer 0 0,
    .handle_scheduled ⟨0, .EAGAIN, 0⟩, .handle_io, .poll,
    .polled (.ready fun i => if i = 0 then POLLHUP else 0), .handle_timer 0 0,
    .handle_scheduled ⟨0, .EAGAIN, 0⟩, .handle_io]

/-- The inner loop for the pipe. -/
def exMiss : List (Label Nat) :=
  [.scan ⟨0, .EAGAIN, 0⟩, .scan ⟨0, .EAGAIN, 0⟩, .scan ⟨0, .EAGAIN, 0⟩]

/-- What follows it, until it starts again. -/
def exBusy : List (Label Nat) :=
  [.handle_io, .poll, .polled (.ready fun i => if i = 0 then POLLHUP else 0), .handle_timer 0 0,
    .handle_scheduled ⟨0, .EAGAIN, 0⟩, .handle_io]

/-- The operation is not tried, and `do_run_one` comes back to the same state. -/
theorem not_attempts : ∃ s s' : State Nat, Run (system Nat 3) (State.initial 3) exHangup s ∧
    (∃ e ∈ s.d_outstanding, e.d_fd = 5) ∧ s.run = .scanning 0 ∧
    s.d_poll[0]? = some ⟨5, POLLIN, POLLHUP⟩ ∧ s.d_next_poll = some 0 ∧
    Run (system Nat 3) s exMiss s' ∧ s'.run = .io ∧ ¬ Tried 3 s exMiss ∧
    Run (system Nat 3) s' exBusy s := by
  refine ⟨_, _, run_replay (S := system Nat 3) (fun _ _ _ => id)
      (show (replay next (State.initial 3) exHangup).isSome from rfl),
    ⟨⟨1, 5, POLLIN, .call .readv, some 7⟩, by decide, rfl⟩, rfl, rfl, rfl,
    run_replay (S := system Nat 3) (fun _ _ _ => id)
      (show (replay next ((replay next (State.initial 3) exHangup).get rfl) exMiss).isSome from rfl),
    rfl, fun htried => ?_,
    run_replay (S := system Nat 3) (fun _ _ _ => id)
      (show (replay next ((replay next ((replay next (State.initial 3) exHangup).get rfl)
        exMiss).get rfl) exBusy).isSome from rfl)⟩
  obtain ⟨e, he, hmatch⟩ := matches_of_tried (i := 0) (p := ⟨5, POLLIN, POLLHUP⟩) rfl rfl rfl
    (fun l hl => ⟨⟨0, .EAGAIN, 0⟩, by simpa [exMiss] using hl⟩) htried
  have hout : ∀ e ∈ ((replay next (State.initial 3) exHangup).get rfl).d_outstanding,
      ¬ ((5 : Int) = e.d_fd ∧ POLLHUP &&& e.d_events ≠ 0) := by decide
  exact hout e he hmatch

/-! ### One turn -/

/-- The steps between a return of `poll(2)` and the next call. -/
def Looks : Label κ → Prop
  | .handle_timer _ _ | .handle_scheduled _ | .handle_io | .scan _ => True
  | _ => False

/-- No operation matches the entries of `d_poll` before the given place. -/
def Passed (s : State κ) (i : Nat) : Prop :=
  ∀ j < i, ∀ p, s.d_poll[j]? = some p → ∀ e ∈ s.d_outstanding, ¬ Matches p e

/-- How far a turn has come that has called no operation and no continuation. -/
def Looked (s₀ s : State κ) : Prop :=
  let Same := s.d_outstanding = s₀.d_outstanding ∧ s.d_poll = s₀.d_poll
  match s.run with
  | .timer | .scheduled | .io => Same ∧ ∃ i, s.d_next_poll = some i ∧ Passed s₀ i
  | .scanning rit => Same ∧ ∃ i p, s.d_next_poll = some i ∧ s.d_poll[i]? = some p ∧
      Passed s₀ i ∧ ∀ e ∈ s₀.d_outstanding.take rit, ¬ Matches p e
  | .poll => ∀ i, Passed s₀ i
  | _ => True

namespace PollShapeLemmas

variable {pipe : Nat} {s s' s₀ : State κ} {tr : List (Label κ)} {l : Label κ}

omit [DecidableEq κ] in
theorem not_matches_of_revents {p : PollFd} {e : Entry κ} (h : p.revents = 0) : ¬ Matches p e :=
  fun hm => hm.2 (by simp [h])

omit [DecidableEq κ] in
/-- The entries that `find_if` passes have nothing to report. -/
theorem passed_findIdx {i : Nat} (h : Passed s i) :
    Passed s (i + (s.d_poll.drop i).findIdx fun p => p.revents ≠ 0) := by
  intro j hj p hp
  rcases Nat.lt_or_ge j i with hlt | hge
  · exact h j hlt p hp
  · intro e _
    refine not_matches_of_revents ?_
    have hk : j - i < (s.d_poll.drop i).findIdx fun p => p.revents ≠ 0 := by omega
    have hlen := (List.getElem?_eq_some_iff.mp hp).1
    have hnot := List.not_of_lt_findIdx hk
    rw [List.getElem_drop] at hnot
    have hidx : i + (j - i) = j := by omega
    simp only [hidx, (List.getElem?_eq_some_iff.mp hp).2] at hnot
    simpa using hnot

theorem looked_step (h : Looked s₀ s) (hl : Looks l) (hs : next s l = some s')
    (hnot : ¬ s.Attempting) : Looked s₀ s' := by
  cases steps_of hs with
  | call | returned => exact hl.elim
  | advance hdepth hadvance =>
    cases hadvance with
    | do_run_one | poll | polled | resume => exact hl.elim
    | handle_timer hrun hs =>
      simp only [Looked, hrun] at h
      cases hs with
      | none | early => exact h
      | due => trivial
    | handle_scheduled hrun hs =>
      simp only [Looked, hrun] at h
      cases hs with
      | none => exact h
      | again | done | cancel => trivial
    | handle_io hrun =>
      simp only [Looked, hrun] at h
      obtain ⟨hsame, i, hi, hpassed⟩ := h
      have hpassed' := passed_findIdx hpassed
      rw [← hsame.2] at hpassed'
      unfold State.handle_io
      simp only [hi]
      split
      · next hlt =>
        exact ⟨hsame, _, _, rfl, List.getElem?_eq_getElem hlt, hpassed', by simp⟩
      · next hge =>
        intro k j _ p hp
        refine hpassed' j ?_ p hp
        rw [← hsame.2] at hp
        have := (List.getElem?_eq_some_iff.mp hp).1
        omega
    | scan hrun =>
      simp only [Looked, hrun] at h
      obtain ⟨hsame, i, p, hi, hp, hpassed, hrit⟩ := h
      rcases scan_cases hrun hi hp hs hnot with ⟨e, he, hmatch, rfl⟩ | ⟨hle, rfl⟩
      · rw [hsame.1] at he
        exact ⟨hsame, i, p, hi, hp, hpassed, take_succ_of_getElem? he hrit hmatch⟩
      · rw [hsame.1] at hle
        rw [List.take_of_length_le hle] at hrit
        refine ⟨hsame, i + 1, rfl, fun j hj q hq => ?_⟩
        rcases Nat.lt_succ_iff_lt_or_eq.mp hj with hlt | rfl
        · exact hpassed j hlt q hq
        · rw [← hsame.2, hp] at hq
          cases hq
          exact hrit

theorem scan_of_attempting (h : s.Attempting) (hl : Looks l) (hs : next s l = some s') :
    ∃ o, l = .scan o := by
  obtain ⟨rit, i, p, e, hrun, -⟩ := h
  cases steps_of hs with
  | call | returned => exact hl.elim
  | advance _ hs =>
    cases hs with
    | do_run_one | poll | polled | resume => exact hl.elim
    | @scan _ o => exact ⟨o, rfl⟩
    | handle_timer hrun' | handle_scheduled hrun' | handle_io hrun' =>
      cases hrun.symm.trans hrun'

theorem looked_run (hrun : s₀.run = .timer) (hnext : s₀.d_next_poll = some 0)
    (h : Run (system κ pipe) s₀ tr s) (hl : ∀ l ∈ tr, Looks l) :
    Tried pipe s₀ tr ∨ Looked s₀ s := by
  induction h with
  | nil =>
    refine .inr ?_
    unfold Looked
    rw [hrun]
    exact ⟨⟨rfl, rfl⟩, 0, hnext, fun j hj => absurd hj (Nat.not_lt_zero j)⟩
  | @snoc tr s s' l h hs ih =>
    rcases ih fun l hl' => hl l (List.mem_append_left _ hl') with htried | hlooked
    · exact .inl (Tried.snoc htried l)
    · rcases em s.Attempting with hatt | hatt
      · obtain ⟨o, rfl⟩ := scan_of_attempting hatt (hl l (by simp)) hs
        exact .inl (Tried.last h hatt)
      · exact .inr (looked_step hlooked (hl l (by simp)) hs hatt)

end PollShapeLemmas

/-- Between two calls of `poll(2)` an operation is called if one has asked for what was
reported. -/
theorem turn_tries {pipe : Nat} {s s' : State κ} {tr : List (Label κ)} {p : PollFd} {e : Entry κ}
    (hrun : s.run = .timer) (hnext : s.d_next_poll = some 0) (h : Run (system κ pipe) s tr s')
    (hl : ∀ l ∈ tr, Looks l) (hend : s'.run = .poll) (hp : p ∈ s.d_poll)
    (he : e ∈ s.d_outstanding) (hmatch : Matches p e) : Tried pipe s tr := by
  rcases looked_run hrun hnext h hl with htried | hlooked
  · exact htried
  · simp only [Looked, hend] at hlooked
    obtain ⟨j, hj⟩ := List.mem_iff_getElem?.mp hp
    exact absurd hmatch (hlooked (j + 1) j (Nat.lt_succ_self j) p hj e he)

end Kuhllib.PollContext
