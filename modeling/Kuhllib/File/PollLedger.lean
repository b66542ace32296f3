import Kuhllib.File.PollContext
import Kuhllib.Lib.Ledger
import Mathlib.Data.List.MinMax
import Mathlib.Data.List.TakeWhile
import Mathlib.Data.Multiset.AddSub
import Mathlib.Order.Interval.Set.Basic

/-!
# What `poll_context` holds

The operations of a `poll_context` form a ledger: those in `d_outstanding` and
`d_timers` are held, those whose continuation was called are settled, and an
operation is being closed between the call of its continuation and the erasure of
its node.

Results, for every clear run:
1. `inv_step`: the ledger is balanced.
2. `kept`: between calls every operation is held exactly once or has been given
   its result exactly once.
3. `enabled`: `do_run_one` always has a next step.
-/

namespace Kuhllib.PollContext

open Transition Ledger

variable {κ : Type}

/-! ## 1. The ledger -/

abbrev tickets (l : List (Entry κ)) : List Nat := l.map Entry.ticket

def State.held (s : State κ) : Multiset Nat :=
  (tickets s.d_outstanding : Multiset Nat) + (s.d_timers.map TimerEvent.ticket : List Nat)

def State.settled (s : State κ) : Multiset Nat := (s.results.map Delivery.ticket : List Nat)

/-- Operations whose continuation was called and whose node is not erased yet. -/
def Point.closing : Point → Multiset Nat
  | .cancelled own _ | .erasing own => {own}
  | .cancelling own found => {found, own}
  | _ => 0

/-- The list `d_outstanding`. -/
structure Entries (l : List (Entry κ)) : Prop where
  pipe : 0 ∈ tickets l
  pipe_iff : ∀ e ∈ l, e.d_operation = .self_pipe ↔ e.ticket = 0
  cancel : ∀ e ∈ l, ∀ c, e.d_operation = .cancel c → e.d_fd < 0 ∧ e.d_id ≠ some c
  ordered : l.Pairwise fun a b => 0 ≤ b.d_fd → 0 ≤ a.d_fd

/-- Each operation belongs to the `io_base` it was submitted with. -/
structure Owners (s : State κ) : Prop where
  entries : ∀ e ∈ s.d_outstanding, s.submitted[e.ticket]? = some e.d_id
  timers : ∀ t ∈ s.d_timers, s.submitted[t.ticket]? = some (some t.d_continuation)
  results : ∀ d ∈ s.results, s.submitted[d.ticket]? = some d.continuation
  pipe : ∀ t, s.submitted[t]? = some none ↔ t = 0

/-- What the iterators that `do_run_one` keeps point to. -/
def State.Valid (s : State κ) : Point → Prop
  | .scanning _ | .ioDone => ∃ i, s.d_next_poll = some i ∧ i < s.d_poll.length
  | .erasing own | .cancelled own none => own ∈ tickets s.d_outstanding
  | .cancelled own (some found) =>
    own ∈ tickets s.d_outstanding ∧ found ∈ tickets s.d_outstanding ∧ found ≠ 0 ∧
      found ∉ s.settled
  | .cancelling own found => own ∈ tickets s.d_outstanding ∧ found ∈ tickets s.d_outstanding
  | .undefined => False
  | _ => True

structure Inv (s : State κ) : Prop where
  balanced : Balanced (Set.Iio s.submitted.length) s.held s.settled s.run.closing
  pipe : 0 ∉ s.settled
  entries : Entries s.d_outstanding
  owners : Owners s
  polled : ∀ p ∈ s.d_poll, 0 ≤ p.fd
  next_poll : ∀ i, s.d_next_poll = some i → i ≤ s.d_poll.length
  valid : s.Valid s.run

/-- `handle_scheduled` does not erase an operation that would block, `handle_io`
does not find an invalid `d_next_poll`, and no cancel request is to cancel
itself. -/
def Clear (s : State κ) : Label κ → Prop
  | .call (.cancel to_cancel completion) => to_cancel ≠ completion
  | .handle_scheduled o =>
    ∀ it, s.d_outstanding.getLast? = some it → it.d_fd = -1 → it.d_operation.attempt o ≠ .again
  | .handle_io => s.d_next_poll ≠ none
  | _ => True

namespace PollLedgerLemmas

theorem inv_initial (pipe : Nat) : Inv (State.initial pipe : State κ) where
  balanced := by
    have h := (Balanced.empty (τ := Nat)).hold (t := 0) (by simp)
    have hi : Set.Iio (State.initial pipe : State κ).submitted.length = insert 0 ∅ := by
      ext t
      simp [State.initial]
    rw [hi]
    exact h
  pipe h := by cases h
  entries := {
    pipe := by simp [State.initial]
    pipe_iff := by simp [State.initial]
    cancel := by simp [State.initial]
    ordered := by simp [State.initial] }
  owners := {
    entries := by simp [State.initial]
    timers := by simp [State.initial]
    results := by simp [State.initial]
    pipe := by
      intro t
      cases t with
      | zero => simp [State.initial]
      | succ t => simp [State.initial] }
  polled := by simp [State.initial]
  next_poll := by
    intro i hi
    cases hi
    exact Nat.zero_le _
  valid := trivial

/-! ### Submissions -/

variable {s s' : State κ}

theorem Iio_length_append (s : State κ) (o : Option κ) :
    Set.Iio (s.submitted ++ [o]).length = insert s.submitted.length (Set.Iio s.submitted.length) := by
  ext t
  simp only [List.length_append, List.length_singleton, Set.mem_Iio, Set.mem_insert_iff]
  omega

theorem lt_of_held (h : Inv s) {t : Nat} (ht : t ∈ s.held) : t < s.submitted.length :=
  (h.balanced.issued_iff t).mpr (.inl ht)

theorem mem_held_of_entry {t : Nat} (ht : t ∈ tickets s.d_outstanding) : t ∈ s.held :=
  Multiset.mem_add.mpr (.inl (Multiset.mem_coe.mpr ht))

theorem submitted_pos (h : Inv s) : 0 < s.submitted.length :=
  lt_of_held h (mem_held_of_entry h.entries.pipe)

theorem getElem?_append_of_some {l : List (Option κ)} {t : Nat} {o o' : Option κ}
    (h : l[t]? = some o) : (l ++ [o'])[t]? = some o := by
  rw [List.getElem?_append_left (List.getElem?_eq_some_iff.mp h).1, h]

theorem owners_pipe_append (h : Inv s) (c : κ) (t : Nat) :
    (s.submitted ++ [some c])[t]? = some none ↔ t = 0 := by
  have hpos := submitted_pos h
  rcases Nat.lt_trichotomy t s.submitted.length with hlt | rfl | hgt
  · rw [List.getElem?_append_left hlt]
    exact h.owners.pipe t
  · simp [hpos.ne']
  · rw [List.getElem?_eq_none (by simp; omega)]
    exact ⟨fun hn => (by cases hn), fun hz => (by omega)⟩

/-- New entries do not move the others, and an operation that is settled does not
become unsettled. -/
theorem valid_mono {p : Point} (h : s.Valid p) (hnext : s'.d_next_poll = s.d_next_poll)
    (hpoll : s'.d_poll = s.d_poll)
    (htickets : ∀ t ∈ tickets s.d_outstanding, t ∈ tickets s'.d_outstanding)
    (hsettled : ∀ t ∈ tickets s.d_outstanding, t ∉ s.settled → t ∉ s'.settled) : s'.Valid p := by
  cases p with
  | scanning _ | ioDone =>
    obtain ⟨i, hi, hlt⟩ := h
    exact ⟨i, by rw [hnext, hi], by rw [hpoll]; exact hlt⟩
  | erasing own => exact htickets own h
  | cancelled own found =>
    cases found with
    | none => exact htickets own h
    | some found =>
      obtain ⟨hown, hfound, hpipe, hnot⟩ := h
      exact ⟨htickets own hown, htickets found hfound, hpipe, hsettled found hfound hnot⟩
  | cancelling own found => exact ⟨htickets own h.1, htickets found h.2⟩
  | undefined => exact h
  | idle | timer | scheduled | io | poll | polling | timerDone => trivial

/-- `emplace_front` or `emplace_back`. -/
theorem coe_tickets_emplace (l : List (Entry κ)) (e : Entry κ) :
    (tickets (if 0 ≤ e.d_fd then e :: l else l ++ [e]) : Multiset Nat) =
      e.ticket ::ₘ (tickets l : Multiset Nat) := by
  split
  · rfl
  · rw [tickets, List.map_append, ← Multiset.coe_add, Multiset.add_comm]
    rfl

theorem mem_emplace {l : List (Entry κ)} {e e' : Entry κ} :
    e' ∈ (if 0 ≤ e.d_fd then e :: l else l ++ [e]) ↔ e' = e ∨ e' ∈ l := by
  split <;> simp [or_comm]

theorem ordered_emplace {l : List (Entry κ)} {e : Entry κ}
    (h : l.Pairwise fun a b => 0 ≤ b.d_fd → 0 ≤ a.d_fd) :
    (if 0 ≤ e.d_fd then e :: l else l ++ [e]).Pairwise fun a b => 0 ≤ b.d_fd → 0 ≤ a.d_fd := by
  split
  · next hfd => exact List.pairwise_cons.mpr ⟨fun _ _ _ => hfd, h⟩
  · next hfd =>
    refine List.pairwise_append.mpr ⟨h, List.pairwise_singleton _ _, fun a _ b hb hb' => ?_⟩
    rw [List.mem_singleton.mp hb] at hb'
    exact absurd hb' hfd

theorem entries_emplace {l : List (Entry κ)} {e : Entry κ} (h : Entries l)
    (hop : e.d_operation ≠ .self_pipe) (ht : e.ticket ≠ 0)
    (hcancel : ∀ c, e.d_operation = .cancel c → e.d_fd < 0 ∧ e.d_id ≠ some c) :
    Entries (if 0 ≤ e.d_fd then e :: l else l ++ [e]) where
  pipe := by
    obtain ⟨e', he', hz⟩ := List.mem_map.mp h.pipe
    exact List.mem_map.mpr ⟨e', mem_emplace.mpr (.inr he'), hz⟩
  pipe_iff e' he' := by
    rcases mem_emplace.mp he' with rfl | he'
    · exact ⟨fun hp => absurd hp hop, fun hz => absurd hz ht⟩
    · exact h.pipe_iff e' he'
  cancel e' he' := by
    rcases mem_emplace.mp he' with rfl | he'
    · exact hcancel
    · exact h.cancel e' he'
  ordered := ordered_emplace h.ordered

theorem held_submit_io (s : State κ) (fd : Int) (events : BitVec 16) (op : Operation κ) (id : κ) :
    (s.submit_io fd events op id).held = s.submitted.length ::ₘ s.held := by
  unfold State.held
  rw [← Multiset.cons_add]
  exact congrArg (· + _) (coe_tickets_emplace s.d_outstanding
    ⟨s.submitted.length, fd, events, op, some id⟩)

theorem held_do_timer (s : State κ) (now : Int) (sec : Nat) (nsec : Int) (c : κ) :
    (s.do_timer now sec nsec c).held = s.submitted.length ::ₘ s.held := by
  unfold State.held
  rw [← Multiset.add_cons]
  rfl

/-- A timer is taken out. -/
theorem held_timer {i : Nat} (hi : i < s.d_timers.length) :
    s.held = s.d_timers[i].ticket ::ₘ { s with d_timers := s.d_timers.eraseIdx i }.held := by
  unfold State.held
  rw [← Multiset.add_cons, Multiset.cons_coe, ← List.map_cons]
  exact congrArg (_ + ·)
    (Multiset.coe_eq_coe.mpr ((List.getElem_cons_eraseIdx_perm hi).map _).symm)

/-- An entry is taken out. -/
theorem held_entry {rit : Nat} (hrit : rit < s.d_outstanding.length) :
    s.held = s.d_outstanding[rit].ticket ::ₘ
      { s with d_outstanding := s.d_outstanding.eraseIdx rit }.held := by
  unfold State.held
  rw [← Multiset.cons_add, Multiset.cons_coe]
  exact congrArg (· + _) (Multiset.coe_eq_coe.mpr
    ((List.getElem_cons_eraseIdx_perm hrit).map Entry.ticket).symm)

theorem tickets_eraseP (l : List (Entry κ)) (t : Nat) :
    tickets (l.eraseP fun e => e.ticket = t) = (tickets l).erase t := by
  rw [tickets, tickets, List.erase_eq_eraseP', List.eraseP_map]
  congr 2

theorem held_erase {t : Nat} (ht : t ∈ tickets s.d_outstanding) :
    s.held = t ::ₘ
      { s with d_outstanding := s.d_outstanding.eraseP fun e => e.ticket = t }.held := by
  unfold State.held
  rw [tickets_eraseP, ← Multiset.cons_add, ← Multiset.coe_erase,
    Multiset.cons_erase (Multiset.mem_coe.mpr ht)]

theorem inv_submit_io {fd : Int} {events : BitVec 16} {op : Operation κ} {id : κ} (h : Inv s)
    (hop : op ≠ .self_pipe) (hcancel : ∀ c, op = .cancel c → fd < 0 ∧ id ≠ c) :
    Inv (s.submit_io fd events op id) := by
  have hpos := submitted_pos h
  refine ⟨?_, h.pipe, ?_, ⟨fun e he => ?_, fun t ht => ?_, fun d hd => ?_,
    owners_pipe_append h id⟩, h.polled, h.next_poll, ?_⟩
  · have hb := h.balanced.hold (t := s.submitted.length) (by simp)
    rw [← Iio_length_append s (some id)] at hb
    rw [held_submit_io]
    exact hb
  · exact entries_emplace (e := ⟨s.submitted.length, fd, events, op, some id⟩) h.entries hop hpos.ne'
      fun c hc => ⟨(hcancel c hc).1, fun he => (hcancel c hc).2 (Option.some.inj he)⟩
  · rcases (mem_emplace (e := ⟨s.submitted.length, fd, events, op, some id⟩)).mp he with rfl | he
    · simp [State.submit_io]
    · exact getElem?_append_of_some (h.owners.entries e he)
  · exact getElem?_append_of_some (h.owners.timers t ht)
  · exact getElem?_append_of_some (h.owners.results d hd)
  · refine valid_mono h.valid rfl rfl (fun t ht => ?_) fun _ _ hnot => hnot
    obtain ⟨e, he, rfl⟩ := List.mem_map.mp ht
    exact List.mem_map.mpr
      ⟨e, (mem_emplace (e := ⟨s.submitted.length, fd, events, op, some id⟩)).mpr (.inr he), rfl⟩

theorem settled_deliver (s : State κ) (t : Nat) (c : Option κ) (r : Result) :
    (s.deliver t c r).settled = t ::ₘ s.settled := by
  unfold State.settled State.deliver
  rw [List.map_append, ← Multiset.coe_add, Multiset.add_comm]
  rfl

theorem pipe_deliver {t : Nat} {c : Option κ} {r : Result} (h : 0 ∉ s.settled) (ht : t ≠ 0) :
    0 ∉ (s.deliver t c r).settled := by
  rw [settled_deliver, Multiset.mem_cons]
  rintro (hz | hz)
  · exact ht hz.symm
  · exact h hz

/-- The continuation that gets a result is the one the operation was submitted with. -/
theorem results_append {l : List (Option κ)} {rs : List (Delivery κ)} {d d' : Delivery κ}
    (h : ∀ d ∈ rs, l[d.ticket]? = some d.continuation) (hd' : l[d'.ticket]? = some d'.continuation)
    (hd : d ∈ rs ++ [d']) : l[d.ticket]? = some d.continuation := by
  rcases List.mem_append.mp hd with hd | hd
  · exact h d hd
  · rw [List.mem_singleton.mp hd]
    exact hd'

theorem inv_complete {c : κ} {r : Result} (h : Inv s) : Inv (s.complete c r) := by
  have hpos := submitted_pos h
  have hsettled : (s.complete c r).settled = s.submitted.length ::ₘ s.settled :=
    settled_deliver _ _ _ _
  refine ⟨?_, ?_, h.entries, ⟨fun e he => ?_, fun t ht => ?_, fun d hd => ?_,
    owners_pipe_append h c⟩, h.polled, h.next_poll, ?_⟩
  · have hb := h.balanced.pass (t := s.submitted.length) (by simp)
    rw [← Iio_length_append s (some c), ← hsettled] at hb
    exact hb
  · exact pipe_deliver h.pipe hpos.ne'
  · exact getElem?_append_of_some (h.owners.entries e he)
  · exact getElem?_append_of_some (h.owners.timers t ht)
  · rcases List.mem_append.mp hd with hd | hd
    · exact getElem?_append_of_some (h.owners.results d hd)
    · rw [List.mem_singleton.mp hd]
      simp [State.complete, State.deliver]
  · refine valid_mono h.valid rfl rfl (fun _ => id) fun t ht hnot => ?_
    rw [hsettled, Multiset.mem_cons]
    rintro (rfl | hm)
    · exact lt_irrefl _ (lt_of_held h (mem_held_of_entry ht))
    · exact hnot hm

theorem inv_submit {fd : Int} {events : BitVec 16} {f : Syscall} {o : Outcome} {id : κ}
    (h : Inv s) : Inv (s.submit fd events f o id) := by
  unfold State.submit
  split
  · exact inv_complete h
  · exact inv_submit_io h (by simp) (by simp)

theorem inv_do_timer {now nsec : Int} {sec : Nat} {c : κ} (h : Inv s) :
    Inv (s.do_timer now sec nsec c) := by
  refine ⟨?_, h.pipe, h.entries, ⟨fun e he => ?_, fun t ht => ?_, fun d hd => ?_,
    owners_pipe_append h c⟩, h.polled, h.next_poll,
    valid_mono h.valid rfl rfl (fun _ => id) fun _ _ => id⟩
  · have hb := h.balanced.hold (t := s.submitted.length) (by simp)
    rw [← Iio_length_append s (some c)] at hb
    rw [held_do_timer]
    exact hb
  · exact getElem?_append_of_some (h.owners.entries e he)
  · rcases List.mem_cons.mp ht with rfl | ht
    · simp [State.do_timer]
    · exact getElem?_append_of_some (h.owners.timers t ht)
  · exact getElem?_append_of_some (h.owners.results d hd)

theorem inv_call {c : Call κ} (h : Inv s) (hc : Clear s (.call c)) : Inv (s.call c) := by
  cases c with
  | nop c => exact inv_submit_io h (by simp) (by simp)
  | timer now sec nsec c => exact inv_do_timer h
  | accept fd c => exact inv_submit_io h (by simp) (by simp)
  | connect fd o c =>
    show Inv (s.do_connect fd o c)
    unfold State.do_connect
    split
    · exact inv_complete h
    · exact inv_submit_io h (by simp) (by simp)
  | sendmsg fd o c | recvmsg fd o c | read fd o c | write fd o c => exact inv_submit h
  | open_at o c => exact inv_complete h
  | cancel to_cancel c =>
    refine inv_submit_io h (by simp) fun c' hc' => ?_
    cases hc'
    exact ⟨by decide, Ne.symm hc⟩

/-! ### `do_run_one` -/

/-- A step that neither submits nor settles anything. -/
theorem inv_control (h : Inv s) (houtstanding : s'.d_outstanding = s.d_outstanding)
    (htimers : s'.d_timers = s.d_timers) (hsubmitted : s'.submitted = s.submitted)
    (hresults : s'.results = s.results) (hclosing : s'.run.closing = s.run.closing)
    (hpolled : ∀ p ∈ s'.d_poll, 0 ≤ p.fd)
    (hnext : ∀ i, s'.d_next_poll = some i → i ≤ s'.d_poll.length) (hvalid : s'.Valid s'.run) :
    Inv s' := by
  have hheld : s'.held = s.held := by rw [State.held, State.held, houtstanding, htimers]
  have hsettled : s'.settled = s.settled := by rw [State.settled, State.settled, hresults]
  refine ⟨?_, ?_, ?_, ⟨?_, ?_, ?_, ?_⟩, hpolled, hnext, hvalid⟩
  · rw [hheld, hsettled, hsubmitted, hclosing]
    exact h.balanced
  · rw [hsettled]
    exact h.pipe
  · rw [houtstanding]
    exact h.entries
  · rw [houtstanding, hsubmitted]
    exact h.owners.entries
  · rw [htimers, hsubmitted]
    exact h.owners.timers
  · rw [hresults, hsubmitted]
    exact h.owners.results
  · rw [hsubmitted]
    exact h.owners.pipe

/-- `do_run_one` goes from one point to another. -/
theorem inv_goto {p : Point} (h : Inv s) (hclosing : p.closing = s.run.closing)
    (hvalid : s.Valid p) : Inv { s with run := p } :=
  inv_control h rfl rfl rfl rfl hclosing h.polled h.next_poll
    (valid_mono hvalid rfl rfl (fun _ => id) fun _ _ => id)

theorem inv_returns {n : Nat} (h : Inv s) (hclosing : s.run.closing = 0) : Inv (s.returns n) :=
  inv_control h rfl rfl rfl rfl hclosing.symm h.polled h.next_poll trivial

theorem not_settled (h : Inv s) {t : Nat} (hrun : s.run.closing = 0) (ht : t ∈ s.held) :
    t ∉ s.settled :=
  h.balanced.not_settled_of_held ht (by rw [hrun]; exact Multiset.notMem_zero t)

theorem timer_ticket_pos (h : Inv s) {t : TimerEvent κ} (ht : t ∈ s.d_timers) : t.ticket ≠ 0 := by
  intro hz
  have hown := h.owners.timers t ht
  rw [(h.owners.pipe t.ticket).mpr hz] at hown
  cases hown

theorem entry_ticket_pos (h : Inv s) {e : Entry κ} {c : κ} (he : e ∈ s.d_outstanding)
    (hid : e.d_id = some c) : e.ticket ≠ 0 := by
  intro hz
  have hown := h.owners.entries e he
  rw [(h.owners.pipe e.ticket).mpr hz, hid] at hown
  cases hown

theorem inv_handle_timer {now : Int} {i : Nat} (h : Inv s) (hrun : s.run = .timer)
    (hs : HandlesTimer s now i s') : Inv s' := by
  have hclosing : s.run.closing = 0 := by rw [hrun]; rfl
  cases hs with
  | none | early => exact inv_goto h hclosing.symm trivial
  | due ht hmin hdue =>
    obtain ⟨hi, rfl⟩ := List.getElem?_eq_some_iff.mp ht
    have hmem := List.getElem_mem hi
    have hheld := held_timer hi
    have hnot : s.d_timers[i].ticket ∉ s.settled :=
      not_settled h hclosing (by rw [hheld]; exact Multiset.mem_cons_self _ _)
    have hb := h.balanced
    rw [hheld, hclosing] at hb
    refine ⟨?_, pipe_deliver h.pipe (timer_ticket_pos h hmem), h.entries,
      ⟨h.owners.entries, fun t ht => h.owners.timers t (List.mem_of_mem_eraseIdx ht),
        fun _ => results_append h.owners.results (h.owners.timers _ hmem), h.owners.pipe⟩,
      h.polled, h.next_poll, trivial⟩
    rw [settled_deliver]
    exact hb.move hnot

/-- A continuation is called while the node of its operation is in `d_outstanding`. -/
theorem inv_settle {e : Entry κ} {p : Point} {r : Result} (h : Inv s) (he : e ∈ s.d_outstanding)
    (hpipe : e.ticket ≠ 0) (hnot : e.ticket ∉ s.settled)
    (hclosing : p.closing = e.ticket ::ₘ s.run.closing)
    (hvalid : ({ s with run := p }.deliver e.ticket e.d_id r).Valid p) :
    Inv ({ s with run := p }.deliver e.ticket e.d_id r) := by
  refine ⟨?_, pipe_deliver h.pipe hpipe, h.entries, ⟨h.owners.entries, h.owners.timers,
    fun _ => results_append h.owners.results (h.owners.entries e he), h.owners.pipe⟩,
    h.polled, h.next_poll, hvalid⟩
  rw [settled_deliver]
  show Balanced _ _ _ p.closing
  rw [hclosing]
  exact h.balanced.settle (mem_held_of_entry (List.mem_map_of_mem he)) hnot

theorem not_pipe_of_attempt {e : Entry κ} {o : Outcome} (h : Entries s.d_outstanding)
    (he : e ∈ s.d_outstanding) (hattempt : e.d_operation.attempt o ≠ .again) : e.ticket ≠ 0 := by
  intro hz
  rw [(h.pipe_iff e he).mpr hz] at hattempt
  exact hattempt rfl

theorem entries_sublist {l l' : List (Entry κ)} (h : Entries l) (hl : l'.Sublist l)
    (hpipe : 0 ∈ tickets l') : Entries l' where
  pipe := hpipe
  pipe_iff e he := h.pipe_iff e (hl.subset he)
  cancel e he := h.cancel e (hl.subset he)
  ordered := h.ordered.sublist hl

theorem inv_erase {t n : Nat} {p : Point} (h : Inv s) (ht : t ∈ tickets s.d_outstanding)
    (hclosing : s.run.closing = t ::ₘ p.closing)
    (hvalid : { s with
      d_outstanding := s.d_outstanding.eraseP fun e => e.ticket = t, count := n }.Valid p) :
    Inv ({ s with count := n }.erase t p) := by
  have hmem : t ∈ s.run.closing := by rw [hclosing]; exact Multiset.mem_cons_self t _
  have hpipe : t ≠ 0 := by
    rintro rfl
    exact h.pipe (h.balanced.settled_of_closing hmem)
  have herase := tickets_eraseP s.d_outstanding t
  have hsub : (s.d_outstanding.eraseP fun e => e.ticket = t).Sublist s.d_outstanding :=
    List.eraseP_sublist
  unfold State.erase
  rw [if_pos ht]
  refine ⟨?_, h.pipe, entries_sublist h.entries hsub ?_,
    ⟨fun e he => h.owners.entries e (hsub.subset he), h.owners.timers, h.owners.results,
      h.owners.pipe⟩, h.polled, h.next_poll, ?_⟩
  · have hb := h.balanced
    rw [held_erase ht, hclosing] at hb
    exact hb.close
  · rw [herase]
    exact (List.mem_erase_of_ne hpipe.symm).mpr h.entries.pipe
  · exact valid_mono hvalid rfl rfl (fun _ => id) fun _ _ => id

theorem inv_handle_io (h : Inv s) (hrun : s.run = .io) (hc : Clear s .handle_io) :
    Inv s.handle_io := by
  have hclosing : s.run.closing = 0 := by rw [hrun]; rfl
  unfold State.handle_io
  split
  · next hnone => exact absurd hnone hc
  · next i hi =>
    have hle := h.next_poll i hi
    have hj : (s.d_poll.drop i).findIdx (fun p => p.revents ≠ 0) ≤ s.d_poll.length - i := by
      rw [← List.length_drop]
      exact List.findIdx_le_length
    refine inv_control h rfl rfl rfl rfl ?_ h.polled (fun k hk => ?_) ?_
    · rw [hclosing]
      dsimp only
      split <;> rfl
    · cases hk
      show _ ≤ s.d_poll.length
      omega
    · dsimp only
      split
      · next hlt => exact ⟨_, rfl, hlt⟩
      · trivial

/-- An operation that is complete does not go back to `d_outstanding`. -/
theorem inv_extract {rit : Nat} {r : Result} (h : Inv s) (hrit : rit < s.d_outstanding.length)
    (hclosing : s.run.closing = 0) (hpipe : s.d_outstanding[rit].ticket ≠ 0)
    (hvalid : s.Valid .ioDone) :
    Inv ({ s with d_outstanding := s.d_outstanding.eraseIdx rit, run := .ioDone }.deliver
      s.d_outstanding[rit].ticket s.d_outstanding[rit].d_id r) := by
  have hmem := List.getElem_mem hrit
  have hperm : (tickets s.d_outstanding).Perm
      (s.d_outstanding[rit].ticket :: tickets (s.d_outstanding.eraseIdx rit)) :=
    ((List.getElem_cons_eraseIdx_perm hrit).map Entry.ticket).symm
  have hheld := held_entry hrit
  have hnot := not_settled h hclosing (mem_held_of_entry (List.mem_map_of_mem hmem))
  have hsub := List.eraseIdx_sublist s.d_outstanding rit
  have hb := h.balanced
  rw [hheld, hclosing] at hb
  refine ⟨?_, pipe_deliver h.pipe hpipe, entries_sublist h.entries hsub ?_,
    ⟨fun e he => h.owners.entries e (hsub.subset he), h.owners.timers,
      fun _ => results_append h.owners.results (h.owners.entries _ hmem), h.owners.pipe⟩,
    h.polled, h.next_poll, hvalid⟩
  · rw [settled_deliver]
    exact hb.move hnot
  · rcases List.mem_cons.mp (hperm.subset h.entries.pipe) with hz | hz
    · exact absurd hz.symm hpipe
    · exact hz

theorem inv_scan {rit : Nat} {o : Outcome} (h : Inv s) (hrun : s.run = .scanning rit)
    (hs : Scans s rit o s') : Inv s' := by
  have hclosing : s.run.closing = 0 := by rw [hrun]; rfl
  cases hs with
  | ended hi hp hnone =>
    refine inv_control h rfl rfl rfl rfl hclosing.symm h.polled (fun k hk => ?_) trivial
    cases hk
    exact (List.getElem?_eq_some_iff.mp hp).1
  | passed hi hp he hpass =>
    exact inv_goto h hclosing.symm ⟨_, hi, (List.getElem?_eq_some_iff.mp hp).1⟩
  | done hi hp he hmatch ha =>
    obtain ⟨hrit, rfl⟩ := List.getElem?_eq_some_iff.mp he
    have hpipe := not_pipe_of_attempt (o := o) h.entries (List.getElem_mem hrit)
      (by rw [ha]; simp)
    exact inv_extract h hrit hclosing hpipe ⟨_, hi, (List.getElem?_eq_some_iff.mp hp).1⟩

theorem inv_poll (h : Inv s) (hrun : s.run = .poll) : Inv s.poll := by
  have hclosing : s.run.closing = 0 := by rw [hrun]; rfl
  have hpolled : ∀ p ∈ (s.d_outstanding.takeWhile fun e => 0 ≤ e.d_fd).map (fun e =>
      (⟨e.d_fd, e.d_events, 0⟩ : PollFd)), 0 ≤ p.fd := by
    intro p hp
    obtain ⟨e, he, rfl⟩ := List.mem_map.mp hp
    simpa using List.mem_takeWhile_imp he
  have hnone : ∀ n i, (none : Option Nat) = some i → i ≤ n := fun _ _ hi => by cases hi
  unfold State.poll
  dsimp only
  split
  · exact inv_control h rfl rfl rfl rfl hclosing.symm hpolled (hnone _) trivial
  · exact inv_control h rfl rfl rfl rfl hclosing.symm hpolled (hnone _) trivial

theorem inv_polled {r : PollResult} (h : Inv s) (hrun : s.run = .polling) : Inv (s.polled r) := by
  have hclosing : s.run.closing = 0 := by rw [hrun]; rfl
  cases r with
  | ready revents =>
    refine inv_control h rfl rfl rfl rfl hclosing.symm (fun p hp => ?_) (fun i hi => ?_) trivial
    · obtain ⟨i, hi, rfl⟩ := List.mem_mapIdx.mp hp
      show 0 ≤ s.d_poll[i].fd
      exact h.polled _ (List.getElem_mem hi)
    · cases hi
      exact Nat.zero_le _
  | interrupted => exact h
  | failed => exact inv_returns h hclosing

theorem inv_resume (h : Inv s) (hs : Resumes s s') : Inv s' := by
  have hvalid := h.valid
  cases hs with
  | timerDone hrun => exact inv_returns h (by rw [hrun]; rfl)
  | none hrun =>
    rw [hrun] at hvalid
    exact inv_goto h (by rw [hrun]; rfl) hvalid
  | found hrun hit hticket =>
    subst hticket
    rw [hrun] at hvalid
    obtain ⟨hown, hfound, hpipe, hnot⟩ := hvalid
    exact inv_settle h hit hpipe hnot (by rw [hrun]; rfl) ⟨hown, hfound⟩
  | lost hrun hlost =>
    rw [hrun] at hvalid
    exact absurd hvalid.2.1 hlost
  | @cancelling own found hrun =>
    rw [hrun] at hvalid
    have hclosing : s.run.closing = found ::ₘ (Point.erasing own).closing := by rw [hrun]; rfl
    have hne : own ≠ found := by
      have hnodup := h.balanced.closing_nodup
      rw [hclosing] at hnodup
      intro heq
      exact (Multiset.nodup_cons.mp hnodup).1 (Multiset.mem_singleton.mpr heq.symm)
    refine inv_erase (n := s.count) h hvalid.2 hclosing ?_
    show own ∈ tickets (s.d_outstanding.eraseP fun e => e.ticket = found)
    rw [tickets_eraseP]
    exact (List.mem_erase_of_ne hne).mpr hvalid.1
  | erasing hrun =>
    rw [hrun] at hvalid
    exact inv_erase h hvalid (by rw [hrun]; rfl) trivial
  | ioDone hrun =>
    rw [hrun] at hvalid
    obtain ⟨i, hi, hlt⟩ := hvalid
    refine inv_control h rfl rfl rfl rfl (by rw [hrun]; rfl) h.polled (fun k hk => ?_) trivial
    simp only [State.returns, hi, Option.map_some, Option.some.injEq] at hk
    subst hk
    exact hlt

variable [DecidableEq κ]

/-- The entry that `find_if` finds is not the cancel request itself. -/
theorem inv_cancel {e : Entry κ} {c : κ} (h : Inv s) (hrun : s.run.closing = 0)
    (he : e ∈ s.d_outstanding) (hop : e.d_operation = .cancel c) : Inv (s.cancel e c) := by
  have hpipe : e.ticket ≠ 0 :=
    not_pipe_of_attempt (o := ⟨0, .EAGAIN, 0⟩) h.entries he (by rw [hop]; simp [Operation.attempt])
  have hnot := not_settled h hrun (mem_held_of_entry (List.mem_map_of_mem he))
  unfold State.cancel
  refine inv_settle h he hpipe hnot (by rw [hrun]; rfl) ?_
  cases hfind : s.d_outstanding.find? fun op => op.d_id = some c with
  | none => exact List.mem_map_of_mem he
  | some it =>
    have hmem := List.mem_of_find?_eq_some hfind
    have hid : it.d_id = some c := by simpa using List.find?_some hfind
    have hne : it.ticket ≠ e.ticket := by
      intro heq
      have hown := h.owners.entries it hmem
      rw [heq, h.owners.entries e he, hid] at hown
      exact (h.entries.cancel e he c hop).2 (Option.some.inj hown)
    refine ⟨List.mem_map_of_mem he, List.mem_map_of_mem hmem, entry_ticket_pos h hmem hid, ?_⟩
    rw [settled_deliver, Multiset.mem_cons]
    rintro (heq | hm)
    · exact hne heq
    · exact not_settled h hrun (mem_held_of_entry (List.mem_map_of_mem hmem)) hm

theorem inv_handle_scheduled {o : Outcome} (h : Inv s) (hrun : s.run = .scheduled)
    (hs : HandlesScheduled s o s') (hc : Clear s (.handle_scheduled o)) : Inv s' := by
  have hclosing : s.run.closing = 0 := by rw [hrun]; rfl
  cases hs with
  | none => exact inv_goto h hclosing.symm trivial
  | again hit hfd ha => exact absurd ha (hc _ hit hfd)
  | done hit hfd ha =>
    have hmem := List.mem_of_getLast? hit
    have hpipe := not_pipe_of_attempt (o := o) h.entries hmem (by rw [ha]; simp)
    exact inv_settle h hmem hpipe
      (not_settled h hclosing (mem_held_of_entry (List.mem_map_of_mem hmem)))
      (by rw [hclosing]; rfl) (List.mem_map_of_mem hmem)
  | cancel hit hfd ha =>
    exact inv_cancel h hclosing (List.mem_of_getLast? hit) (Operation.attempt_eq_cancel ha)

theorem inv_advance {l : Label κ} (h : Inv s) (hs : Advances s l s') (hc : Clear s l) :
    Inv s' := by
  cases hs with
  | do_run_one hrun => exact inv_goto h (by rw [hrun]; rfl) trivial
  | handle_timer hrun hs => exact inv_handle_timer h hrun hs
  | handle_scheduled hrun hs => exact inv_handle_scheduled h hrun hs hc
  | handle_io hrun => exact inv_handle_io h hrun hc
  | scan hrun hs => exact inv_scan h hrun hs
  | poll hrun => exact inv_poll h hrun
  | polled hrun => exact inv_polled h hrun
  | resume hs => exact inv_resume h hs

end PollLedgerLemmas

open PollLedgerLemmas

variable [DecidableEq κ]

/-- Every clear step keeps the ledger. -/
theorem inv_step {s s' : State κ} {l : Label κ} (h : Inv s) (hs : next s l = some s')
    (hc : Clear s l) : Inv s' := by
  cases steps_of hs with
  | call => exact inv_call h hc
  | returned =>
    exact inv_control h rfl rfl rfl rfl rfl h.polled h.next_poll
      (valid_mono h.valid rfl rfl (fun _ => id) fun _ _ => id)
  | advance hdepth hs => exact inv_advance h hs hc

theorem inv_run {pipe : Nat} {s : State κ} {tr : List (Label κ)}
    (h : Run ((system κ pipe).restrict Clear) (State.initial pipe) tr s) : Inv s :=
  h.invariant_state (inv_initial pipe) fun _ _ _ hi hs => inv_step hi hs.1 hs.2

/-! ## 2. Between calls -/

/-- No operation is lost or duplicated. -/
structure Kept (s : State κ) : Prop where
  defined : s.run ≠ .undefined
  once : ∀ t, (s.results.map Delivery.ticket).count t ≤ 1
  continuation : ∀ d ∈ s.results, s.submitted[d.ticket]? = some d.continuation
  held : s.run = .idle → s.depth = 0 → ∀ t, 0 < t → t < s.submitted.length →
    (tickets s.d_outstanding ++ s.d_timers.map TimerEvent.ticket).count t =
      if t ∈ s.results.map Delivery.ticket then 0 else 1
  ordered : s.d_outstanding.Pairwise fun a b => 0 ≤ b.d_fd → 0 ≤ a.d_fd
  pipe : (s.d_outstanding.countP fun e => e.d_operation = .self_pipe) = 1

/-- In every clear run no operation is lost or duplicated, the operations with a
descriptor precede the scheduled ones, and the self-pipe is there once. -/
theorem kept {pipe : Nat} {s : State κ} {tr : List (Label κ)}
    (h : Run ((system κ pipe).restrict Clear) (State.initial pipe) tr s) : Kept s := by
  have hi := inv_run h
  refine ⟨fun hrun => ?_, fun t => ?_, hi.owners.results, fun hrun _ t _ ht => ?_,
    hi.entries.ordered, ?_⟩
  · have hvalid := hi.valid
    rw [hrun] at hvalid
    exact hvalid
  · exact List.nodup_iff_count_le_one.mp (Multiset.coe_nodup.mp hi.balanced.settled_nodup) t
  · have hb := hi.balanced
    rw [hrun] at hb
    have hcount := hb.count_add_count ht
    unfold State.held State.settled at hcount
    rw [Multiset.coe_add, Multiset.coe_count, Multiset.coe_count] at hcount
    split
    · next hm =>
      have := List.count_pos_iff.mpr hm
      omega
    · next hm =>
      rw [List.count_eq_zero_of_not_mem hm] at hcount
      omega
  · have hpipe : (tickets s.d_outstanding).count 0 = 1 := by
      have hnodup := hi.balanced.held_nodup
      unfold State.held at hnodup
      rw [Multiset.coe_add, Multiset.coe_nodup] at hnodup
      exact List.count_eq_one_of_mem (List.nodup_append.mp hnodup).1 hi.entries.pipe
    rw [← hpipe, List.count, List.countP_map]
    refine List.countP_congr fun e he => ?_
    simpa using hi.entries.pipe_iff e he

/-- An operation is scheduled, and `do_run_one` runs it. -/
theorem kept_example : ∃ s : State Nat,
    s.results.map Delivery.ticket = [1] ∧ s.run = .idle ∧ s.depth = 0 ∧ Kept s := by
  refine ⟨_, ?_, ?_, ?_, kept (show Run ((system Nat 3).restrict Clear) (State.initial 3)
    [.call (.nop 7), .do_run_one, .handle_timer 0 0, .handle_scheduled ⟨0, .EAGAIN, 0⟩,
      .returned, .resume] _ from
    .cons ⟨rfl, trivial⟩ <| .cons ⟨rfl, trivial⟩ <| .cons ⟨rfl, trivial⟩ <|
      .cons ⟨rfl, fun it hit _ => ?_⟩ <| .cons ⟨rfl, trivial⟩ <| .single ⟨rfl, trivial⟩)⟩
  · rfl
  · rfl
  · rfl
  · cases hit
    decide

/-- A cancel request that is to cancel itself. -/
def exSelfCancel : List (Label Nat) :=
  [.call (.cancel 7 7), .do_run_one, .handle_timer 0 0, .handle_scheduled ⟨0, .EAGAIN, 0⟩, .returned,
    .resume]

/-- A scheduled operation that would block. -/
def exAgain : List (Label Nat) :=
  [.call (.accept (-1) 7), .do_run_one, .handle_timer 0 0, .handle_scheduled ⟨-1, .EINTR, 0⟩, .resume]

/-- Two calls of `do_run_one` without operations. -/
def exTwice : List (Label Nat) :=
  [.do_run_one, .handle_timer 0 0, .handle_scheduled ⟨0, .EAGAIN, 0⟩, .handle_io, .poll,
    .do_run_one, .handle_timer 0 0, .handle_scheduled ⟨0, .EAGAIN, 0⟩, .handle_io]

/-- A continuation gets two results, an operation is lost, and `handle_io` uses
an iterator that `poll()` has invalidated. -/
theorem not_kept :
    (∃ s : State Nat, Run (system Nat 3) (State.initial 3) exSelfCancel s ∧
      (s.results.map Delivery.ticket).count 1 = 2) ∧
    (∃ s : State Nat, Run (system Nat 3) (State.initial 3) exAgain s ∧
      s.run = .idle ∧ s.depth = 0 ∧ s.submitted.length = 2 ∧
      1 ∉ s.results.map Delivery.ticket ∧ 1 ∉ tickets s.d_outstanding ∧ s.d_timers = []) ∧
    ∃ s : State Nat, Run (system Nat 3) (State.initial 3) exTwice s ∧ s.run = .undefined := by
  refine ⟨⟨_, run_replay (S := system Nat 3) (fun _ _ _ => id)
      (show (replay next (State.initial 3) exSelfCancel).isSome from rfl), rfl⟩,
    ⟨_, run_replay (S := system Nat 3) (fun _ _ _ => id)
      (show (replay next (State.initial 3) exAgain).isSome from rfl), rfl, rfl, rfl, ?_, ?_, rfl⟩,
    ⟨_, run_replay (S := system Nat 3) (fun _ _ _ => id)
      (show (replay next (State.initial 3) exTwice).isSome from rfl), rfl⟩⟩
  · decide
  · decide

/-! ## 3. Progress -/

namespace PollLedgerLemmas

omit [DecidableEq κ] in
/-- `d_timers.top()`. -/
theorem exists_top {l : List (TimerEvent κ)} (hl : l ≠ []) :
    ∃ (i : Nat) (t : TimerEvent κ), l[i]? = some t ∧ ∀ u ∈ l, t.d_expiry ≤ u.d_expiry := by
  obtain ⟨t, ht⟩ : ∃ t, l.argmin TimerEvent.d_expiry = some t :=
    Option.ne_none_iff_exists'.mp (mt List.argmin_eq_none.mp hl)
  obtain ⟨i, hi⟩ := List.mem_iff_getElem?.mp (List.argmin_mem ht)
  exact ⟨i, t, hi, fun u hu => List.le_of_mem_argmin hu ht⟩

omit [DecidableEq κ] in
theorem enabled_timer (s : State κ) (now : Int) : ∃ i s', s.handle_timer now i = some s' := by
  unfold State.handle_timer
  rcases eq_or_ne s.d_timers [] with hnil | hne
  · exact ⟨0, _, by rw [hnil]; rfl⟩
  · obtain ⟨i, t, hi, hmin⟩ := exists_top hne
    refine ⟨i, ?_⟩
    simp only [hi, if_pos hmin]
    split <;> exact ⟨_, rfl⟩

omit [DecidableEq κ] in
/-- No entry of `d_poll` has the descriptor of a cancel request. -/
theorem enabled_scan {s : State κ} {rit : Nat} (o : Outcome) (h : Inv s)
    (hrun : s.run = .scanning rit) : ∃ s', s.scan rit o = some s' := by
  have hvalid := h.valid
  rw [hrun] at hvalid
  obtain ⟨i, hi, hlt⟩ := hvalid
  unfold State.scan
  simp only [hi, List.getElem?_eq_getElem hlt, Option.bind_eq_bind, Option.bind_some]
  split
  · exact ⟨_, rfl⟩
  · next e he =>
    split
    · next hmatch =>
      split
      · exact ⟨_, rfl⟩
      · exact ⟨_, rfl⟩
      · next c ha =>
        have hfd := (h.entries.cancel e (List.mem_of_getElem? he) c
          (Operation.attempt_eq_cancel ha)).1
        have := h.polled _ (List.getElem_mem hlt)
        omega
    · exact ⟨_, rfl⟩

end PollLedgerLemmas

/-- From its call to its return `do_run_one` has a next step whenever no
continuation is executing. -/
theorem enabled {s : State κ} (h : Inv s) (hrun : s.run ≠ .idle) (hdepth : s.depth = 0) :
    ∃ l s', next s l = some s' := by
  suffices hs : ∃ l s', s.advance l = some s' by
    obtain ⟨l, s', hs⟩ := hs
    refine ⟨l, s', ?_⟩
    cases l with
    | call c | returned => cases hs
    | _ => exact (if_pos hdepth).trans hs
  have hvalid := h.valid
  cases hp : s.run with
  | idle => exact absurd hp hrun
  | timer =>
    obtain ⟨i, s', hs⟩ := enabled_timer s 0
    exact ⟨.handle_timer 0 i, s', (if_pos hp).trans hs⟩
  | scheduled => exact ⟨.handle_scheduled ⟨0, .EAGAIN, 0⟩, _, if_pos hp⟩
  | io => exact ⟨.handle_io, _, if_pos hp⟩
  | scanning rit =>
    obtain ⟨s', hs⟩ := enabled_scan ⟨0, .EAGAIN, 0⟩ h hp
    exact ⟨.scan ⟨0, .EAGAIN, 0⟩, s', by simp only [State.advance, hp, hs]⟩
  | poll => exact ⟨.poll, _, if_pos hp⟩
  | polling => exact ⟨.polled .failed, _, if_pos hp⟩
  | timerDone | cancelling own found | erasing own | ioDone =>
    exact ⟨.resume, _, by simp only [State.advance, State.resume, hp]; rfl⟩
  | cancelled own found =>
    cases found with
    | none => exact ⟨.resume, _, by simp only [State.advance, State.resume, hp]; rfl⟩
    | some found =>
      refine ⟨.resume, ?_⟩
      simp only [State.advance, State.resume, hp]
      split
      · exact ⟨_, rfl⟩
      · exact ⟨_, rfl⟩
  | undefined =>
    rw [hp] at hvalid
    exact hvalid.elim

end Kuhllib.PollContext
