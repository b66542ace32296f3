import Kuhllib.File.PollShape

/-!
# `do_cancel` of `poll_context`

A cancel request is processed in several steps of `do_run_one`: the continuation
of the request is called, then that of the operation found, and then the two nodes
are erased. Continuations may submit operations in between.

`cancels_iff`: the processing cancels what is pending for the continuation, tells
the request whether there was something, and leaves the rest as it is, if and only
if no timer and at most one other operation is pending for the continuation, and
the request is for another continuation than its own unless there is one.
-/

namespace Kuhllib.PollContext

open Transition

variable {κ : Type}

/-! ## 1. What the processing of a request has done -/

/-- Seen from `s`, the operations `gone` are no longer held and the results `given` were passed to
continuations; what has been submitted since is held or has its result. -/
structure Frame (s : State κ) (gone : List Nat) (given : List (Delivery κ)) (s' : State κ) :
    Prop where
  length : s.submitted.length ≤ s'.submitted.length
  entries : ∀ e : Entry κ, e.ticket < s.submitted.length →
    (e ∈ s'.d_outstanding ↔ e ∈ s.d_outstanding ∧ e.ticket ∉ gone)
  timers : ∀ u : TimerEvent κ, u.ticket < s.submitted.length → (u ∈ s'.d_timers ↔ u ∈ s.d_timers)
  results : (s'.results.filter fun d => d.ticket < s.submitted.length) = s.results ++ given
  fresh : ∀ t, s.submitted.length ≤ t → t < s'.submitted.length → t ∈ s'.held ∨ t ∈ s'.settled

/-- The steps that belong to the processing of a request. -/
def Continues : Label κ → Prop
  | .call _ | .returned | .resume => True
  | _ => False

namespace PollCancelLemmas

open PollLedgerLemmas PollShapeLemmas

variable {s s' s'' : State κ} {gone : List Nat} {given : List (Delivery κ)}

theorem frame_refl (h : Shape s) : Frame s [] [] s where
  length := le_rfl
  entries e _ := by simp
  timers u _ := Iff.rfl
  results := by
    rw [List.append_nil, List.filter_eq_self]
    intro d hd
    exact decide_eq_true (List.getElem?_eq_some_iff.mp (h.owners.results d hd)).1
  fresh t hge hlt := by omega

theorem held_grown (h : Grown s s') {t : Nat} (ht : t ∈ s.held) : t ∈ s'.held := by
  obtain ⟨front, back, houtstanding, -⟩ := h.outstanding
  obtain ⟨timers, htimers, -⟩ := h.timers
  rcases Multiset.mem_add.mp ht with ht | ht
  · refine Multiset.mem_add.mpr (.inl ?_)
    rw [houtstanding]
    simp only [Multiset.mem_coe, tickets, List.map_append, List.mem_append] at ht ⊢
    exact .inl (.inr ht)
  · refine Multiset.mem_add.mpr (.inr ?_)
    rw [htimers]
    simp only [Multiset.mem_coe, List.map_append, List.mem_append] at ht ⊢
    exact .inr ht

theorem settled_grown (h : Grown s s') {t : Nat} (ht : t ∈ s.settled) : t ∈ s'.settled := by
  obtain ⟨back, hresults, -⟩ := h.results
  unfold State.settled at ht ⊢
  rw [hresults]
  simp only [Multiset.mem_coe, List.map_append, List.mem_append] at ht ⊢
  exact .inl ht

theorem frame_grown (h : Frame s gone given s') (hg : Grown s' s'') : Frame s gone given s'' := by
  have hlength := h.length
  have hgrown := hg.submitted.length_le
  obtain ⟨front, back, houtstanding, hnew⟩ := hg.outstanding
  obtain ⟨timers, htimers, hnew_timers⟩ := hg.timers
  obtain ⟨results, hresults, hnew_results⟩ := hg.results
  refine ⟨hlength.trans hgrown, fun e he => ?_, fun u hu => ?_, ?_, fun t hge hlt => ?_⟩
  · rw [← h.entries e he, houtstanding]
    constructor
    · intro hm
      simp only [List.mem_append] at hm hnew
      rcases hm with (hm | hm) | hm
      · have := hnew e (.inl hm)
        omega
      · exact hm
      · have := hnew e (.inr hm)
        omega
    · exact fun hm => List.mem_append_left _ (List.mem_append_right _ hm)
  · rw [← h.timers u hu, htimers, List.mem_append]
    constructor
    · rintro (hm | hm)
      · have := hnew_timers u hm
        omega
      · exact hm
    · exact .inr
  · rw [hresults, List.filter_append, h.results, List.filter_eq_nil_iff.mpr, List.append_nil]
    intro d hd
    have := hnew_results d hd
    simp
    omega
  · rcases Nat.lt_or_ge t s'.submitted.length with hold | hnew
    · exact (h.fresh t hge hold).imp (held_grown hg) (settled_grown hg)
    · exact hg.fresh t hnew hlt

/-- A step that changes no operation. -/
theorem frame_control (h : Frame s gone given s') (houtstanding : s''.d_outstanding = s'.d_outstanding)
    (htimers : s''.d_timers = s'.d_timers) (hsubmitted : s''.submitted = s'.submitted)
    (hresults : s''.results = s'.results) : Frame s gone given s'' := by
  obtain ⟨hlength, hentries, htimers', hresults', hfresh⟩ := h
  have hheld : s''.held = s'.held := by rw [State.held, State.held, houtstanding, htimers]
  have hsettled : s''.settled = s'.settled := by rw [State.settled, State.settled, hresults]
  refine ⟨?_, ?_, ?_, ?_, ?_⟩
  · rw [hsubmitted]
    exact hlength
  · rw [houtstanding]
    exact hentries
  · rw [htimers]
    exact htimers'
  · rw [hresults]
    exact hresults'
  · rw [hsubmitted, hheld, hsettled]
    exact hfresh

theorem frame_deliver {t : Nat} {c : Option κ} {r : Result} {p : Point} (h : Frame s gone given s')
    (ht : t < s.submitted.length) :
    Frame s gone (given ++ [⟨t, c, r⟩]) ({ s' with run := p }.deliver t c r) where
  length := h.length
  entries := h.entries
  timers := h.timers
  results := by
    show (s'.results ++ [(⟨t, c, r⟩ : Delivery κ)]).filter _ = _
    rw [List.filter_append, h.results, List.append_assoc]
    simp [ht]
  fresh u hge hlt := (h.fresh u hge hlt).imp_right fun hm => by
    rw [settled_deliver]
    exact Multiset.mem_cons_of_mem hm

theorem mem_eraseP_ticket {l : List (Entry κ)} (hnodup : (tickets l).Nodup) (t : Nat) (e : Entry κ) :
    e ∈ (l.eraseP fun e => e.ticket = t) ↔ e ∈ l ∧ e.ticket ≠ t := by
  constructor
  · intro he
    refine ⟨List.mem_of_mem_eraseP he, fun ht => ?_⟩
    have hmem : e.ticket ∈ (tickets l).erase t := by
      rw [← tickets_eraseP]
      exact List.mem_map_of_mem he
    exact (List.Nodup.mem_erase_iff hnodup).mp hmem |>.1 ht
  · rintro ⟨he, ht⟩
    exact (List.mem_eraseP_of_neg (by simpa using ht)).mpr he

theorem frame_erase {t n : Nat} {p : Point} (h : Frame s gone given s')
    (hnodup : (tickets s'.d_outstanding).Nodup) (ht : t ∈ tickets s'.d_outstanding)
    (hlt : t < s.submitted.length) : Frame s (t :: gone) given ({ s' with count := n }.erase t p) := by
  have hheld := held_erase (s := s') ht
  unfold State.erase
  rw [if_pos ht]
  refine ⟨h.length, fun e he => ?_, h.timers, h.results, fun u hge hu => ?_⟩
  · rw [mem_eraseP_ticket hnodup, h.entries e he, List.mem_cons]
    tauto
  · refine (h.fresh u hge hu).imp_left fun hm => ?_
    rw [hheld] at hm
    rcases Multiset.mem_cons.mp hm with rfl | hm
    · omega
    · exact hm

end PollCancelLemmas

variable [DecidableEq κ]

/-! ## 2. The steps of the processing -/

/-- What the request for `c` finds. -/
def found (s : State κ) (c : κ) : Option (Entry κ) :=
  s.d_outstanding.find? fun op => op.d_id = some c

/-- The result of the request. -/
def told (s : State κ) (own : Entry κ) (c : κ) : Delivery κ :=
  ⟨own.ticket, own.d_id, .value (if (found s c).isNone then -1 else 0)⟩

/-- The result of an operation that is cancelled. -/
def cancelledBy (it : Entry κ) : Delivery κ := ⟨it.ticket, it.d_id, .error .ECANCELED⟩

/-- How far the processing has come. -/
def Phase (s : State κ) (own : Entry κ) (c : κ) (s' : State κ) : Prop :=
  match s'.run with
  | .cancelled o f => o = own.ticket ∧ f = (found s c).map Entry.ticket ∧
      Frame s [] [told s own c] s'
  | .cancelling o f => o = own.ticket ∧ ∃ it, found s c = some it ∧ f = it.ticket ∧
      Frame s [] [told s own c, cancelledBy it] s'
  | .erasing o => o = own.ticket ∧ Frame s ((found s c).toList.map Entry.ticket)
      (told s own c :: (found s c).toList.map cancelledBy) s'
  | .idle => found s c ≠ some own ∧ Frame s (own.ticket :: (found s c).toList.map Entry.ticket)
      (told s own c :: (found s c).toList.map cancelledBy) s'
  | .undefined => found s c = some own
  | _ => False

namespace PollCancelLemmas

open PollLedgerLemmas PollShapeLemmas

variable {s s' s'' : State κ} {own : Entry κ} {c : κ}

theorem phase_congr (h : Phase s own c s') (hrun : s''.run = s'.run)
    (hframe : ∀ gone given, Frame s gone given s' → Frame s gone given s'') :
    Phase s own c s'' := by
  unfold Phase at h ⊢
  rw [hrun]
  split at h
  · exact ⟨h.1, h.2.1, hframe _ _ h.2.2⟩
  · obtain ⟨ho, it, hit, hf, hfr⟩ := h
    exact ⟨ho, it, hit, hf, hframe _ _ hfr⟩
  · exact ⟨h.1, hframe _ _ h.2⟩
  · exact ⟨h.1, hframe _ _ h.2⟩
  · exact h
  · exact h.elim

theorem found_mem {it : Entry κ} (h : found s c = some it) :
    it ∈ s.d_outstanding ∧ it.d_id = some c :=
  ⟨List.mem_of_find?_eq_some h, by simpa using List.find?_some h⟩

omit [DecidableEq κ] in
/-- Tickets tell entries apart. -/
theorem eq_of_ticket (h : Shape s) {e e' : Entry κ} (he : e ∈ s.d_outstanding)
    (he' : e' ∈ s.d_outstanding) (ht : e.ticket = e'.ticket) : e = e' :=
  List.inj_on_of_nodup_map (nodup_tickets h) he he' ht

theorem own_not_gone (h : Shape s) (hown : own ∈ s.d_outstanding) (hself : found s c ≠ some own) :
    own.ticket ∉ (found s c).toList.map Entry.ticket := by
  intro hm
  obtain ⟨it, hit, hticket⟩ := List.mem_map.mp hm
  rw [Option.mem_toList] at hit
  have heq := eq_of_ticket h (found_mem hit).1 hown hticket
  rw [heq] at hit
  exact hself hit

theorem phase_cancel {o : Outcome} (h : Shape s) (hown : s.d_outstanding.getLast? = some own) (hop : own.d_operation = .cancel c) :
    Phase s own c (s.handle_scheduled o) := by
  have hmem := List.mem_of_getLast? hown
  have hfd := h.queue.cancel own hmem c hop
  unfold State.handle_scheduled
  simp only [hown, hfd, if_true, hop, Operation.attempt]
  have hframe : Frame s [] [] s := frame_refl h
  exact ⟨rfl, rfl, frame_deliver hframe (lt_of_entry h.owners hmem)⟩

theorem phase_resume (h : Shape s) (hown : own ∈ s.d_outstanding)
    (hp : Phase s own c s') (hs : Resumes s' s'') (hdefined : s'.run ≠ .undefined → Shape s') :
    Phase s own c s'' := by
  have hlt := lt_of_entry h.owners hown
  unfold Phase at hp
  cases hs with
  | timerDone hrun | ioDone hrun => simp [hrun] at hp
  | none hrun =>
    rw [hrun] at hp
    obtain ⟨rfl, hnone, hframe⟩ := hp
    have hfound : found s c = none := by simpa using hnone.symm
    refine ⟨rfl, ?_⟩
    rw [hfound]
    exact frame_control hframe rfl rfl rfl rfl
  | @found o f it' hrun hit' hticket =>
    rw [hrun] at hp
    obtain ⟨rfl, hsome, hframe⟩ := hp
    obtain ⟨it, hit, rfl⟩ := Option.map_eq_some_iff.mp hsome.symm
    obtain ⟨hmem, hid⟩ := found_mem hit
    have hlt_it := lt_of_entry h.owners hmem
    have hmem' := (hframe.entries it' (by rw [hticket]; exact hlt_it)).mp hit'
    obtain rfl := eq_of_ticket h hmem'.1 hmem hticket
    exact ⟨rfl, it', hit, rfl, frame_deliver hframe hlt_it⟩
  | lost hrun hlost =>
    rw [hrun] at hp
    obtain ⟨rfl, hsome, hframe⟩ := hp
    obtain ⟨it, hit, rfl⟩ := Option.map_eq_some_iff.mp hsome.symm
    obtain ⟨hmem, hid⟩ := found_mem hit
    have hmem' := (hframe.entries it (lt_of_entry h.owners hmem)).mpr ⟨hmem, by simp⟩
    exact absurd (List.mem_map_of_mem hmem') hlost
  | cancelling hrun =>
    have hshape := hdefined (by rw [hrun]; simp)
    rw [hrun] at hp
    obtain ⟨rfl, it, hit, rfl, hframe⟩ := hp
    obtain ⟨hmem, -⟩ := found_mem hit
    have hlt_it := lt_of_entry h.owners hmem
    have hmem' := (hframe.entries it hlt_it).mpr ⟨hmem, by simp⟩
    have hframe' := frame_erase (n := s'.count) (p := .erasing own.ticket) hframe
      (nodup_tickets hshape) (List.mem_map_of_mem hmem') hlt_it
    unfold State.erase at hframe' ⊢
    rw [if_pos (List.mem_map_of_mem hmem')] at hframe' ⊢
    refine ⟨rfl, ?_⟩
    rw [hit]
    exact hframe'
  | erasing hrun =>
    have hshape := hdefined (by rw [hrun]; simp)
    rw [hrun] at hp
    obtain ⟨rfl, hframe⟩ := hp
    rcases em (found s c = some own) with hself | hself
    · -- the node of the request has already been erased
      have hnot : own.ticket ∉ tickets s'.d_outstanding := by
        intro hm
        obtain ⟨e, he, hticket⟩ := List.mem_map.mp hm
        have hgone := ((hframe.entries e (by rw [hticket]; exact hlt)).mp he).2
        rw [hself, hticket] at hgone
        exact hgone (List.mem_singleton_self _)
      unfold State.erase
      rw [if_neg hnot]
      exact hself
    · have hmem' := (hframe.entries own hlt).mpr ⟨hown, own_not_gone h hown hself⟩
      have hframe' := frame_erase (n := 1) (p := .idle) hframe (nodup_tickets hshape)
        (List.mem_map_of_mem hmem') hlt
      unfold State.erase at hframe' ⊢
      rw [if_pos (List.mem_map_of_mem hmem')] at hframe' ⊢
      exact ⟨hself, hframe'⟩

theorem phase_step {l : Label κ} (h : Shape s) (hown : own ∈ s.d_outstanding)
    (hp : Phase s own c s') (hl : Continues l) (hs : next s' l = some s'')
    (hdefined : s'.run ≠ .undefined → Shape s') : Phase s own c s'' := by
  cases steps_of hs with
  | @call call =>
    have hgrown := grown_call s' call
    exact phase_congr hp hgrown.run fun _ _ hf => frame_grown hf hgrown
  | returned => exact phase_congr hp rfl fun _ _ hf => frame_control hf rfl rfl rfl rfl
  | advance _ hs =>
    cases hs with
    | resume hs => exact phase_resume h hown hp hs hdefined
    | do_run_one | handle_timer | handle_scheduled | handle_io | scan | poll | polled =>
      exact hl.elim

theorem phase_run {pipe : Nat} {tr tr' : List (Label κ)} {o : Outcome} {s₁ : State κ}
    (h : Run (system κ pipe) (State.initial pipe) tr s) (hrun : s.run = .scheduled)
    (hown : s.d_outstanding.getLast? = some own) (hop : own.d_operation = .cancel c)
    (hs : next s (.handle_scheduled o) = some s₁) (h' : Run (system κ pipe) s₁ tr' s')
    (hl : ∀ l ∈ tr', Continues l) : Phase s own c s' := by
  have hshape := shape_run h (by rw [hrun]; simp)
  have hmem := List.mem_of_getLast? hown
  have hrun₁ : Run (system κ pipe) (State.initial pipe) (tr ++ [.handle_scheduled o]) s₁ := h.snoc hs
  have hfirst : Phase s own c s₁ := by
    obtain ⟨-, hs⟩ := Option.ite_none_right_eq_some.mp hs
    obtain ⟨-, hs⟩ := Option.ite_none_right_eq_some.mp hs
    cases hs
    exact phase_cancel hshape hown hop
  induction h' with
  | nil => exact hfirst
  | @snoc tr' s' s'' l h' hs' ih =>
    exact phase_step hshape hmem (ih fun l hl' => hl l (List.mem_append_left _ hl')) (hl l (by simp))
      hs' (shape_run (hrun₁.append h'))

end PollCancelLemmas

/-! ## 3. What a request is to do -/

/-- The operations with a descriptor or scheduled that are pending for `c`, without the request. -/
def entriesOf (s : State κ) (own : Entry κ) (c : κ) : List (Entry κ) :=
  s.d_outstanding.filter fun e => e.d_id = some c ∧ e.ticket ≠ own.ticket

def timersOf (s : State κ) (c : κ) : List (TimerEvent κ) :=
  s.d_timers.filter fun u => u.d_continuation = c

/-- What is pending for `c`. -/
def pendingFor (s : State κ) (own : Entry κ) (c : κ) : List Nat :=
  (entriesOf s own c).map Entry.ticket ++ (timersOf s c).map TimerEvent.ticket

def resultsOf (s : State κ) (t : Nat) : List (Delivery κ) := s.results.filter fun d => d.ticket = t

/-- What was pending for `c` is cancelled, the request is told whether there was something, and the
other operations are as they were. -/
structure Cancelled (s : State κ) (own : Entry κ) (c : κ) (s' : State κ) : Prop where
  defined : s'.run ≠ .undefined
  told : resultsOf s' own.ticket = resultsOf s own.ticket ++
    [⟨own.ticket, own.d_id, .value (if pendingFor s own c = [] then -1 else 0)⟩]
  processed : own.ticket ∉ s'.held
  cancelled : ∀ t ∈ pendingFor s own c, t ∉ s'.held ∧
    resultsOf s' t = resultsOf s t ++ [⟨t, some c, .error .ECANCELED⟩]
  others : ∀ t < s.submitted.length, t ≠ own.ticket → t ∉ pendingFor s own c →
    resultsOf s' t = resultsOf s t ∧
    (∀ e : Entry κ, e.ticket = t → (e ∈ s'.d_outstanding ↔ e ∈ s.d_outstanding)) ∧
    ∀ u : TimerEvent κ, u.ticket = t → (u ∈ s'.d_timers ↔ u ∈ s.d_timers)
  submitted : ∀ t, s.submitted.length ≤ t → t < s'.submitted.length → t ∈ s'.held ∨ t ∈ s'.settled

/-- No timer and at most one other operation is pending for `c`, and the request does not find
itself. -/
structure Cancellable (s : State κ) (own : Entry κ) (c : κ) : Prop where
  timers : timersOf s c = []
  entries : (entriesOf s own c).length ≤ 1
  itself : own.d_id = some c → entriesOf s own c ≠ []

namespace PollCancelLemmas

open PollLedgerLemmas PollShapeLemmas

variable {s s' : State κ} {own it : Entry κ} {c : κ} {gone : List Nat} {given : List (Delivery κ)}

omit [DecidableEq κ] in
theorem resultsOf_frame (h : Frame s gone given s') {t : Nat} (ht : t < s.submitted.length) :
    resultsOf s' t = resultsOf s t ++ given.filter fun d => d.ticket = t := by
  have hfilter : resultsOf s' t =
      (s'.results.filter fun d => d.ticket < s.submitted.length).filter fun d => d.ticket = t := by
    rw [List.filter_filter]
    refine List.filter_congr fun d _ => ?_
    rcases eq_or_ne d.ticket t with heq | hne
    · simp [heq, ht]
    · simp [hne]
  rw [hfilter, h.results, List.filter_append]
  rfl

theorem mem_entriesOf {e : Entry κ} :
    e ∈ entriesOf s own c ↔ e ∈ s.d_outstanding ∧ e.d_id = some c ∧ e.ticket ≠ own.ticket := by
  simp [entriesOf]

theorem mem_timersOf {u : TimerEvent κ} :
    u ∈ timersOf s c ↔ u ∈ s.d_timers ∧ u.d_continuation = c := by
  simp [timersOf]

theorem found_none (hown : own ∈ s.d_outstanding) (h : found s c = none) :
    entriesOf s own c = [] ∧ own.d_id ≠ some c := by
  have hnone := List.find?_eq_none.mp h
  refine ⟨List.filter_eq_nil_iff.mpr fun e he => ?_, by simpa using hnone own hown⟩
  have := hnone e he
  simp only [decide_eq_true_eq] at this ⊢
  exact fun hm => this hm.1

/-- The request is the last node, so it finds itself only if there is nothing else. -/
theorem found_itself (hshape : Shape s) (hown : s.d_outstanding.getLast? = some own)
    (h : found s c = some own) : entriesOf s own c = [] := by
  obtain ⟨front, hfront⟩ := List.getLast?_eq_some_iff.mp hown
  refine List.filter_eq_nil_iff.mpr fun e he => ?_
  simp only [decide_eq_true_eq, not_and, not_not]
  intro hid
  rw [hfront] at he
  rcases List.mem_append.mp he with he | he
  · have hfound := h
    unfold found at hfound
    rw [hfront, List.find?_append] at hfound
    have hsome : (front.find? fun op => op.d_id = some c).isSome :=
      List.find?_isSome.mpr ⟨e, he, by simpa using hid⟩
    obtain ⟨e', he'⟩ := Option.isSome_iff_exists.mp hsome
    rw [he', Option.some_or] at hfound
    have hmem : own ∈ front := by
      rw [← Option.some.inj hfound]
      exact List.mem_of_find?_eq_some he'
    have hnodup := nodup_tickets hshape
    rw [hfront, tickets, List.map_append, List.nodup_append] at hnodup
    exact absurd rfl (hnodup.2.2 _ (List.mem_map_of_mem hmem) _ (by simp))
  · rw [List.mem_singleton.mp he]

theorem found_other (hshape : Shape s) (hown : own ∈ s.d_outstanding) (h : found s c = some it)
    (hne : it ≠ own) : it ∈ entriesOf s own c := by
  obtain ⟨hmem, hid⟩ := found_mem h
  exact mem_entriesOf.mpr ⟨hmem, hid, fun ht => hne (eq_of_ticket hshape hmem hown ht)⟩

omit [DecidableEq κ] in
theorem held_of_frame (h : Frame s gone given s') {e : Entry κ} (he : e ∈ s.d_outstanding)
    (hlt : e.ticket < s.submitted.length) (hgone : e.ticket ∉ gone) : e.ticket ∈ s'.held :=
  mem_held_of_entry (List.mem_map_of_mem ((h.entries e hlt).mpr ⟨he, hgone⟩))

omit [DecidableEq κ] in
theorem timer_of_frame (h : Frame s gone given s') {u : TimerEvent κ} (hu : u ∈ s.d_timers)
    (hlt : u.ticket < s.submitted.length) : u.ticket ∈ s'.held :=
  Multiset.mem_add.mpr (.inr (Multiset.mem_coe.mpr (List.mem_map_of_mem ((h.timers u hlt).mpr hu))))

omit [DecidableEq κ] in
/-- The operations that are neither gone nor given a result are as they were. -/
theorem others_of_frame (h : Frame s gone given s') {t : Nat} (ht : t < s.submitted.length)
    (hgone : t ∉ gone) (hgiven : ∀ d ∈ given, d.ticket ≠ t) :
    resultsOf s' t = resultsOf s t ∧
    (∀ e : Entry κ, e.ticket = t → (e ∈ s'.d_outstanding ↔ e ∈ s.d_outstanding)) ∧
    ∀ u : TimerEvent κ, u.ticket = t → (u ∈ s'.d_timers ↔ u ∈ s.d_timers) := by
  refine ⟨?_, fun e he => ?_, fun u hu => h.timers u (by rw [hu]; exact ht)⟩
  · rw [resultsOf_frame h ht, List.filter_eq_nil_iff.mpr, List.append_nil]
    simpa using hgiven
  · rw [h.entries e (by rw [he]; exact ht), he]
    exact and_iff_left hgone

omit [DecidableEq κ] in
/-- What is gone is not held. -/
theorem not_held_of_gone (hshape : Shape s) (h : Frame s gone given s') {e : Entry κ}
    (he : e ∈ s.d_outstanding) (hgone : e.ticket ∈ gone) : e.ticket ∉ s'.held := by
  have hlt := lt_of_entry hshape.owners he
  intro hm
  rcases Multiset.mem_add.mp hm with hm | hm
  · obtain ⟨e', he', hticket⟩ := List.mem_map.mp (Multiset.mem_coe.mp hm)
    have hnot := ((h.entries e' (by rw [hticket]; exact hlt)).mp he').2
    rw [hticket] at hnot
    exact hnot hgone
  · obtain ⟨u, hu, hticket⟩ := List.mem_map.mp (Multiset.mem_coe.mp hm)
    have hu' := (h.timers u (by rw [hticket]; exact hlt)).mp hu
    have hnodup := hshape.nodup
    unfold State.held at hnodup
    rw [Multiset.coe_add, Multiset.coe_nodup, List.nodup_append] at hnodup
    exact absurd hticket.symm (hnodup.2.2 _ (List.mem_map_of_mem he) _ (List.mem_map_of_mem hu'))

/-- Nothing is found: the request is told so, and timers stay. -/
theorem cancelled_none (hshape : Shape s) (hown : own ∈ s.d_outstanding) (hrun : s'.run = .idle)
    (hnone : found s c = none) (h : Frame s [own.ticket] [told s own c] s') :
    Cancelled s own c s' ↔ Cancellable s own c := by
  have hlt := lt_of_entry hshape.owners hown
  obtain ⟨hentries, hid⟩ := found_none hown hnone
  have htold : resultsOf s' own.ticket =
      resultsOf s own.ticket ++ [⟨own.ticket, own.d_id, .value (-1)⟩] := by
    rw [resultsOf_frame h hlt]
    simp [told, hnone]
  constructor
  · intro hc
    refine ⟨?_, by simp [hentries], fun h => absurd h hid⟩
    have hvalue := htold.symm.trans hc.told
    rcases eq_or_ne (pendingFor s own c) [] with hnil | hne
    · exact List.map_eq_nil_iff.mp (List.append_eq_nil_iff.mp hnil).2
    · simp [hne] at hvalue
  · intro hc
    have hnil : pendingFor s own c = [] := by simp [pendingFor, hentries, hc.timers]
    refine ⟨by simp [hrun], by simp [htold, hnil],
      not_held_of_gone hshape h hown (List.mem_singleton_self _), by simp [hnil],
      fun t ht hne _ => others_of_frame h ht (by simpa using hne) ?_, h.fresh⟩
    simpa [told] using hne.symm

omit [DecidableEq κ] in
theorem length_le_one (it : Entry κ) {l : List (Entry κ)} (hnodup : l.Nodup) (h : ∀ e ∈ l, e = it) :
    l.length ≤ 1 := by
  cases l with
  | nil => simp
  | cons e l =>
    cases l with
    | nil => simp
    | cons e' l =>
      have heq : e = e' := (h e (by simp)).trans (h e' (by simp)).symm
      simp [heq] at hnodup

/-- One operation is found: it is cancelled, and all others stay. -/
theorem cancelled_one (hshape : Shape s) (hown : own ∈ s.d_outstanding) (hrun : s'.run = .idle)
    (hfound : found s c = some it) (hne : it ≠ own)
    (h : Frame s [own.ticket, it.ticket] [told s own c, cancelledBy it] s') :
    Cancelled s own c s' ↔ Cancellable s own c := by
  have hlt := lt_of_entry hshape.owners hown
  have hit := found_other hshape hown hfound hne
  obtain ⟨hmem, hid, hticket⟩ := mem_entriesOf.mp hit
  have hpending : it.ticket ∈ pendingFor s own c := List.mem_append_left _ (List.mem_map_of_mem hit)
  constructor
  · intro hc
    refine ⟨List.eq_nil_iff_forall_not_mem.mpr fun u hu => ?_, ?_, fun _ => List.ne_nil_of_mem hit⟩
    · obtain ⟨hu', -⟩ := mem_timersOf.mp hu
      have hlt_u := (List.getElem?_eq_some_iff.mp (hshape.owners.timers u hu')).1
      exact (hc.cancelled u.ticket (List.mem_append_right _ (List.mem_map_of_mem hu))).1
        (timer_of_frame h hu' hlt_u)
    · refine length_le_one it ?_ fun e he => ?_
      · exact ((nodup_tickets hshape).of_map Entry.ticket).filter _
      · obtain ⟨he', -, hne'⟩ := mem_entriesOf.mp he
        by_contra hdiff
        have hgone : e.ticket ∉ [own.ticket, it.ticket] := by
          simp only [List.mem_cons, List.not_mem_nil, or_false, not_or]
          exact ⟨hne', fun ht => hdiff (eq_of_ticket hshape he' hmem ht)⟩
        exact (hc.cancelled e.ticket (List.mem_append_left _ (List.mem_map_of_mem he))).1
          (held_of_frame h he' (lt_of_entry hshape.owners he') hgone)
  · intro hc
    have honly : pendingFor s own c = [it.ticket] := by
      have hentries : entriesOf s own c = [it] := by
        have hle := hc.entries
        obtain ⟨e, he⟩ := List.length_eq_one_iff.mp
          (le_antisymm hle (List.length_pos_of_mem hit))
        rw [he] at hit ⊢
        rw [List.mem_singleton.mp hit]
      simp [pendingFor, hentries, hc.timers]
    refine ⟨by simp [hrun], ?_, not_held_of_gone hshape h hown (by simp), fun t ht => ?_,
      fun t ht hne' hnot => ?_, h.fresh⟩
    · rw [resultsOf_frame h hlt]
      simp [told, cancelledBy, hfound, honly, hticket]
    · rw [honly, List.mem_singleton] at ht
      rw [ht]
      refine ⟨not_held_of_gone hshape h hmem (by simp), ?_⟩
      rw [resultsOf_frame h (lt_of_entry hshape.owners hmem)]
      simp [told, cancelledBy, hid, hticket.symm]
    · rw [honly, List.mem_singleton] at hnot
      refine others_of_frame h ht ?_ ?_
      · simp [hne', hnot]
      · simp [told, cancelledBy, Ne.symm hne', Ne.symm hnot]

end PollCancelLemmas

open PollCancelLemmas PollShapeLemmas

/-- In every run, the processing of a cancel request does what it is to do, whatever continuations
submit in between, if and only if no timer and at most one other operation is pending for the
continuation and the request does not find itself. -/
theorem cancels_iff {pipe : Nat} {s s₁ s' : State κ} {tr tr' : List (Label κ)} {own : Entry κ}
    {c : κ} {o : Outcome} (h : Run (system κ pipe) (State.initial pipe) tr s)
    (hrun : s.run = .scheduled) (hown : s.d_outstanding.getLast? = some own)
    (hop : own.d_operation = .cancel c) (hs : next s (.handle_scheduled o) = some s₁)
    (h' : Run (system κ pipe) s₁ tr' s') (hl : ∀ l ∈ tr', Continues l)
    (hend : s'.run = .idle ∨ s'.run = .undefined) :
    Cancelled s own c s' ↔ Cancellable s own c := by
  have hshape := shape_run h (by rw [hrun]; simp)
  have hmem := List.mem_of_getLast? hown
  have hphase := phase_run h hrun hown hop hs h' hl
  unfold Phase at hphase
  rcases hend with hend | hend
  · rw [hend] at hphase
    obtain ⟨hself, hframe⟩ := hphase
    cases hfound : found s c with
    | none =>
      rw [hfound] at hframe
      exact cancelled_none hshape hmem hend hfound hframe
    | some it =>
      rw [hfound] at hframe hself
      exact cancelled_one hshape hmem hend hfound (fun heq => hself (congrArg some heq)) hframe
  · rw [hend] at hphase
    refine iff_of_false (fun hc => hc.defined hend) fun hc => ?_
    exact hc.itself (found_mem hphase).2 (found_itself hshape hown hphase)

/-- An operation is cancelled that waits for a descriptor. -/
def exCancel : List (Label Nat) :=
  [.call (.accept 5 7), .call (.cancel 7 8), .do_run_one, .handle_timer 0 0]

def exProcessed : List (Label Nat) := [.returned, .resume, .returned, .resume, .resume]

theorem cancels_iff_example : ∃ s s₁ s' : State Nat,
    Run (system Nat 3) (State.initial 3) exCancel s ∧
    next s (.handle_scheduled ⟨0, .EAGAIN, 0⟩) = some s₁ ∧ Run (system Nat 3) s₁ exProcessed s' ∧
    s'.results = [⟨2, some 8, .value 0⟩, ⟨1, some 7, .error .ECANCELED⟩] ∧
    Cancelled s ⟨2, -1, 0, .cancel 7, some 8⟩ 7 s' := by
  have hrun := run_replay (S := system Nat 3) (fun _ _ _ => id)
    (show (replay next (State.initial 3) exCancel).isSome from rfl)
  have hrun' := run_replay (S := system Nat 3) (fun _ _ _ => id)
    (show (replay next ((next ((replay next (State.initial 3) exCancel).get rfl)
      (.handle_scheduled ⟨0, .EAGAIN, 0⟩)).get rfl) exProcessed).isSome from rfl)
  refine ⟨_, _, _, hrun, rfl, hrun', rfl, (cancels_iff (o := ⟨0, .EAGAIN, 0⟩) hrun rfl rfl rfl rfl
    hrun' (fun l hl => ?_) (.inl rfl)).mpr ⟨by decide, by decide, by decide⟩⟩
  simp only [exProcessed, List.mem_cons, List.not_mem_nil, or_false] at hl
  rcases hl with rfl | rfl | rfl | rfl | rfl <;> trivial

/-- A timer is to be cancelled. -/
def exCancelTimer : List (Label Nat) :=
  [.call (.timer 0 1 0 7), .call (.cancel 7 8), .do_run_one, .handle_timer 0 0]

def exProcessedTimer : List (Label Nat) := [.returned, .resume, .resume]

/-- It stays, and the request is told that there is nothing to cancel. -/
theorem not_cancelled : ∃ s s₁ s' : State Nat,
    Run (system Nat 3) (State.initial 3) exCancelTimer s ∧
    next s (.handle_scheduled ⟨0, .EAGAIN, 0⟩) = some s₁ ∧
    Run (system Nat 3) s₁ exProcessedTimer s' ∧ s'.run = .idle ∧ s'.d_timers = s.d_timers ∧
    s'.results = [⟨2, some 8, .value (-1)⟩] ∧
    ¬ Cancelled s ⟨2, -1, 0, .cancel 7, some 8⟩ 7 s' := by
  refine ⟨_, _, _, run_replay (S := system Nat 3) (fun _ _ _ => id)
      (show (replay next (State.initial 3) exCancelTimer).isSome from rfl), rfl,
    run_replay (S := system Nat 3) (fun _ _ _ => id)
      (show (replay next ((next ((replay next (State.initial 3) exCancelTimer).get rfl)
        (.handle_scheduled ⟨0, .EAGAIN, 0⟩)).get rfl) exProcessedTimer).isSome from rfl),
    rfl, rfl, rfl, fun hc => ?_⟩
  have htold := hc.told
  revert htold
  decide

end Kuhllib.PollContext
