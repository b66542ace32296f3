import Kuhllib.File.Context
import Kuhllib.Lib.RingQueue
import Kuhllib.Lib.Transition

/-!
# `nstd::file::ring_context`

A program submits operations and calls `run_one()`, also from the continuations
it is called with; the kernel runs beside it. The kernel is a set of steps: an
`io_uring_enter` consumes entries from `head` on, not more than it is told, or
fails; what it has consumed it completes in any order, where a completion waits
for room in the completion ring; a waiting `io_uring_enter` may return at any
time.

`submit` does everything up to its `io_uring_enter` in one step, `process_result`
everything up to the call of the continuation: the kernel looks at the submission
ring in an `io_uring_enter` only.

Results:
1. `held_step`: the rings hold the entries that were submitted and not consumed,
   and the completions that were posted and not taken, as long as no entry is
   written while the submission ring is full.
2. `submissions_kept`: so it is in all runs in which each `io_uring_enter` of
   `submit` consumes its entry, and then nothing is left in the submission ring.
3. `left_behind`: after one that does not consume its entry something always is.
-/

namespace Kuhllib.RingContext

open Transition Context

inductive Opcode
  | NOP
  | TIMEOUT
  | ASYNC_CANCEL
  | ACCEPT
  | CONNECT
  | SENDMSG
  | RECVMSG
  | READV
  | WRITEV
  | OPENAT
  deriving DecidableEq, Repr

/-- What `addr` points to. -/
inductive Pointer (κ : Type)
  | data (a : Nat)
  | io_base (c : κ)
  deriving DecidableEq, Repr

/-- `io_uring_sqe`: `off` is a union with `addr2`, `op_flags` one of `timeout_flags`
and `open_flags`. -/
structure Sqe (κ : Type) where
  opcode : Opcode
  flags : BitVec 8
  fd : Int
  off : Nat
  addr : Pointer κ
  len : BitVec 32
  op_flags : BitVec 32
  user_data : κ
  deriving DecidableEq, Repr

structure Cqe (κ : Type) where
  user_data : κ
  res : Int
  flags : BitVec 32
  deriving DecidableEq, Repr

variable {κ : Type}

/-- An element that was set to zero, but for the two members that every operation
sets. -/
def Sqe.zero (opcode : Opcode) (continuation : κ) : Sqe κ :=
  ⟨opcode, 0, 0, 0, .data 0, 0, 0, continuation⟩

def do_timer (time : Nat) (continuation : κ) : Sqe κ :=
  { Sqe.zero .TIMEOUT continuation with op_flags := 0, addr := .data time, len := 1, off := 0 }

def do_cancel (to_cancel continuation : κ) : Sqe κ :=
  { Sqe.zero .ASYNC_CANCEL continuation with addr := .io_base to_cancel }

def do_nop (continuation : κ) : Sqe κ := Sqe.zero .NOP continuation

def do_accept (fd : Int) (addr len : Nat) (flags : Int) (continuation : κ) : Sqe κ :=
  { Sqe.zero .ACCEPT continuation with
    fd := fd, flags := BitVec.ofInt 8 flags, addr := .data addr, off := len }

def do_connect (fd : Int) (addr len : Nat) (continuation : κ) : Sqe κ :=
  { Sqe.zero .CONNECT continuation with fd := fd, addr := .data addr, off := len }

def do_sendmsg (fd : Int) (addr : Nat) (flags : Int) (continuation : κ) : Sqe κ :=
  { Sqe.zero .SENDMSG continuation with
    fd := fd, addr := .data addr, flags := BitVec.ofInt 8 flags }

def do_recvmsg (fd : Int) (addr : Nat) (flags : Int) (continuation : κ) : Sqe κ :=
  { Sqe.zero .RECVMSG continuation with
    fd := fd, addr := .data addr, flags := BitVec.ofInt 8 flags }

def do_read (fd : Int) (vec size : Nat) (continuation : κ) : Sqe κ :=
  { Sqe.zero .READV continuation with fd := fd, addr := .data vec, len := BitVec.ofNat 32 size }

def do_write (fd : Int) (vec size : Nat) (continuation : κ) : Sqe κ :=
  { Sqe.zero .WRITEV continuation with fd := fd, addr := .data vec, len := BitVec.ofNat 32 size }

def do_open_at (fd : Int) (name : Nat) (flags : Int) (continuation : κ) : Sqe κ :=
  { Sqe.zero .OPENAT continuation with
    fd := fd, addr := .data name, op_flags := BitVec.ofInt 32 flags }

/-- What the member function of the operation writes into the element. -/
def element : Operation κ → κ → Sqe κ
  | .cancel c => do_cancel c
  | .nop => do_nop
  | .timer time => do_timer time
  | .accept fd addr len flags => do_accept fd addr len flags
  | .connect fd addr len => do_connect fd addr len
  | .sendmsg fd msg flags => do_sendmsg fd msg flags
  | .recvmsg fd msg flags => do_recvmsg fd msg flags
  | .read fd vec size => do_read fd vec size
  | .write fd vec size => do_write fd vec size
  | .open_at fd name flags => do_open_at fd name flags

/-- The result comes back to the continuation of the operation. -/
@[simp]
theorem element_user_data (op : Operation κ) (c : κ) : (element op c).user_data = c := by
  cases op <;> rfl

/-- Where the program is: `entering` is the `io_uring_enter` of `submit`, `waiting`
the one of `run_one`, `checking` the point before `process_result`. -/
inductive Pc (κ : Type)
  | idle
  | entering
  | waiting
  | checking
  | calling (result : Cqe κ)
  deriving DecidableEq, Repr

/-- `inflight` are the operations that the kernel works on. -/
structure State (κ : Type) where
  d_submission : RingQueue.Ring 32 (BitVec 32)
  d_submission_elements : BitVec 32 → Sqe κ
  d_completion : RingQueue.Ring 32 (Cqe κ)
  d_outstanding : BitVec 32
  inflight : List (Sqe κ)
  pc : Pc κ

inductive Label (κ : Type)
  | submit (op : Operation κ) (c : κ)
  | enter (es : List (Sqe κ))
  | run_one
  | wake
  | process_result (taken : Option (Cqe κ))
  | result (c : κ) (res : Int) (flags : BitVec 32)
  | complete (e : Sqe κ) (res : Int) (flags : BitVec 32)
  deriving DecidableEq, Repr

/-- `submit(op)` up to `intern_submit`. -/
def State.submit (s : State κ) (e : Sqe κ) : State κ :=
  let index := s.d_submission.slot s.d_submission.tail
  { s with
    d_submission_elements := Function.update s.d_submission_elements index e
    d_submission := (s.d_submission.write index).advance_tail
    d_outstanding := s.d_outstanding + 1
    pc := .entering }

/-- The entry that the kernel consumes next. -/
def State.front (s : State κ) : Sqe κ :=
  s.d_submission_elements (s.d_submission.get s.d_submission.head)

def next [DecidableEq κ] (s : State κ) : Label κ → Option (State κ)
  | .submit op c => if s.pc = .idle then some (s.submit (element op c)) else none
  -- io_uring_enter(fd, 1, 0, 0): consumes nothing or one entry
  | .enter [] => if s.pc = .entering then some { s with pc := .idle } else none
  | .enter [e] =>
    if s.pc = .entering ∧ s.d_submission.head ≠ s.d_submission.tail ∧ s.front = e then
      some { s with
        d_submission := s.d_submission.advance_head
        inflight := s.inflight ++ [e]
        pc := .idle }
    else none
  | .enter _ => none
  | .run_one =>
    if s.pc = .idle then
      if s.d_outstanding = 0 then some s else some { s with pc := .waiting }
    else none
  -- io_uring_enter(fd, 0, 1, IORING_ENTER_GETEVENTS) returns
  | .wake => if s.pc = .waiting then some { s with pc := .checking } else none
  | .process_result none =>
    if s.pc = .checking ∧ s.d_completion.head = s.d_completion.tail then
      some { s with pc := .idle }
    else none
  | .process_result (some result) =>
    if s.pc = .checking ∧ s.d_completion.head ≠ s.d_completion.tail ∧
        s.d_completion.get s.d_completion.head = result then
      some { s with
        d_completion := s.d_completion.advance_head
        d_outstanding := s.d_outstanding - 1
        pc := .calling result }
    else none
  | .result c res flags =>
    if s.pc = .calling ⟨c, res, flags⟩ then some { s with pc := .idle } else none
  -- the kernel completes an operation
  | .complete e res flags =>
    if e ∈ s.inflight ∧
        (s.d_completion.tail - s.d_completion.head).toNat < 2 ^ s.d_completion.bits then
      some { s with
        inflight := s.inflight.erase e
        d_completion := (s.d_completion.write ⟨e.user_data, res, flags⟩).advance_tail }
    else none

/-- Both rings are empty after the setup. -/
def system (κ : Type) [DecidableEq κ] : System (State κ) (Label κ) where
  init s := s.d_submission.head = s.d_submission.tail ∧
    s.d_completion.head = s.d_completion.tail ∧ s.d_outstanding = 0 ∧ s.inflight = [] ∧ s.pc = .idle
  step s l s' := next s l = some s'

/-! ## 1. The rings -/

def Label.submits : Label κ → Option (Sqe κ)
  | .submit op c => some (element op c)
  | _ => none

def Label.consumes : Label κ → List (Sqe κ)
  | .enter es => es
  | _ => []

def Label.calls : Label κ → Option κ
  | .result c _ _ => some c
  | _ => none

/-- The elements that were submitted. -/
def submitted (tr : List (Label κ)) : List (Sqe κ) := tr.filterMap Label.submits

/-- The elements that the kernel has consumed. -/
def handed (tr : List (Label κ)) : List (Sqe κ) := tr.flatMap Label.consumes

/-- The continuations that were called. -/
def results (tr : List (Label κ)) : List κ := tr.filterMap Label.calls

/-- The continuation that is about to be called. -/
def State.called (s : State κ) : List κ :=
  match s.pc with
  | .calling r => [r.user_data]
  | _ => []

/-- The elements in the cells of the submission ring. -/
def State.elements (s : State κ) : RingQueue.Ring 32 (Sqe κ) :=
  { s.d_submission with array := s.d_submission_elements }

/-- `es` are the elements in the submission ring, `cs` the completions in the other
one. -/
structure Held (tr : List (Label κ)) (s : State κ) (es : List (Sqe κ)) (cs : List (Cqe κ)) :
    Prop where
  order : submitted tr = handed tr ++ es
  elements : RingQueue.Contains s.elements es
  indices : ∀ i < es.length, s.d_submission.get (s.d_submission.head + BitVec.ofNat 32 i) =
    s.d_submission.slot (s.d_submission.head + BitVec.ofNat 32 i)
  completions : RingQueue.Contains s.d_completion cs
  ledger : ((handed tr).map Sqe.user_data).Perm
    (results tr ++ s.called ++ cs.map Cqe.user_data ++ s.inflight.map Sqe.user_data)
  outstanding : s.d_outstanding + BitVec.ofNat 32 (results tr ++ s.called).length =
    BitVec.ofNat 32 (submitted tr).length

namespace RingContextLemmas

variable {tr : List (Label κ)} {s s' : State κ} {es : List (Sqe κ)} {cs : List (Cqe κ)}

@[simp]
theorem submitted_snoc (tr : List (Label κ)) (l : Label κ) :
    submitted (tr ++ [l]) = submitted tr ++ l.submits.toList := by
  cases h : l.submits <;> simp [submitted, h]

@[simp]
theorem handed_snoc (tr : List (Label κ)) (l : Label κ) :
    handed (tr ++ [l]) = handed tr ++ l.consumes := by
  simp [handed]

@[simp]
theorem results_snoc (tr : List (Label κ)) (l : Label κ) :
    results (tr ++ [l]) = results tr ++ l.calls.toList := by
  cases h : l.calls <;> simp [results, h]

theorem held_initial [DecidableEq κ] (h : (system κ).init s) : Held [] s [] [] := by
  obtain ⟨hsub, hcomp, hout, hin, hpc⟩ := h
  refine ⟨rfl, .nil hsub, fun i hi => absurd hi (Nat.not_lt_zero i), .nil hcomp, ?_, ?_⟩
  · simp [handed, results, State.called, hpc, hin]
  · simp [submitted, results, State.called, hpc, hout]

/-- An element is written while the ring is not full. -/
theorem held_submit {op : Operation κ} {c : κ} (h : Held tr s es cs) (hpc : s.pc = .idle)
    (hroom : es.length < 2 ^ s.d_submission.bits) :
    Held (tr ++ [.submit op c]) (s.submit (element op c)) (es ++ [element op c]) cs := by
  have hcalled : s.called = [] := by simp [State.called, hpc]
  have hslot : ∀ i < es.length, s.d_submission.slot (s.d_submission.head + BitVec.ofNat 32 i) ≠
      s.d_submission.slot s.d_submission.tail := fun i hi => h.elements.slot_ne hroom hi
  obtain ⟨horder, helements, hindices, hcompletions, hledger, houtstanding⟩ := h
  rw [hcalled] at hledger houtstanding
  refine ⟨by simp [horder, Label.submits, Label.consumes], helements.push hroom _, fun i hi => ?_,
    hcompletions, ?_, ?_⟩
  · show Function.update s.d_submission.array (s.d_submission.slot s.d_submission.tail)
      (s.d_submission.slot s.d_submission.tail)
      (s.d_submission.slot (s.d_submission.head + BitVec.ofNat 32 i)) = _
    rcases Nat.lt_or_ge i es.length with hlt | hge
    · rw [Function.update_of_ne (hslot i hlt)]
      exact hindices i hlt
    · have he : i = es.length := by
        rw [List.length_append, List.length_singleton] at hi
        omega
      have htail : s.d_submission.head + BitVec.ofNat 32 i = s.d_submission.tail := by
        rw [he]
        exact helements.tail.symm
      rw [htail, Function.update_self]
      show s.d_submission.slot s.d_submission.tail = _
      rw [← htail]
      rfl
  · simpa [Label.consumes, Label.calls, State.called, State.submit] using hledger
  · have hsubmitted : (submitted (tr ++ [Label.submit op c])).length = (submitted tr).length + 1 := by
      simp [Label.submits]
    have hresults : (results (tr ++ [Label.submit op c]) ++ (s.submit (element op c)).called).length =
        (results tr ++ []).length := by
      simp [Label.calls, State.called, State.submit]
    show s.d_outstanding + 1 + BitVec.ofNat 32 _ = _
    rw [hsubmitted, hresults, BitVec.ofNat_add, ← houtstanding, BitVec.add_assoc,
      BitVec.add_comm 1, ← BitVec.add_assoc]
    rfl

/-- The kernel consumes the first element. -/
theorem held_consume {e : Sqe κ} (h : Held tr s es cs) (hpc : s.pc = .entering)
    (hne : s.d_submission.head ≠ s.d_submission.tail) (he : s.front = e) :
    Held (tr ++ [.enter [e]])
      { s with
        d_submission := s.d_submission.advance_head, inflight := s.inflight ++ [e], pc := .idle }
      es.tail cs ∧ es ≠ [] := by
  have hes : es ≠ [] := fun hnil => hne (h.elements.empty_iff.mpr hnil)
  have hcalled : s.called = [] := by simp [State.called, hpc]
  obtain ⟨horder, helements, hindices, hcompletions, hledger, houtstanding⟩ := h
  rw [hcalled] at hledger houtstanding
  obtain ⟨e', es, rfl⟩ := List.exists_cons_of_ne_nil hes
  refine ⟨?_, hes⟩
  -- the index in the cell at `head` is that of the cell
  have hindex : s.d_submission.get s.d_submission.head = s.d_submission.slot s.d_submission.head := by
    simpa using hindices 0 (Nat.zero_lt_succ _)
  obtain rfl : e = e' := by
    rw [← he, State.front, hindex]
    exact helements.front
  refine ⟨by simp [horder, Label.submits, Label.consumes], helements.pop, fun i hi => ?_,
    hcompletions, ?_, by simpa [Label.submits, Label.calls, State.called] using houtstanding⟩
  · have hnext : s.d_submission.head + 1 + BitVec.ofNat 32 i =
        s.d_submission.head + BitVec.ofNat 32 (i + 1) := by
      rw [Nat.add_comm, BitVec.ofNat_add, ← BitVec.add_assoc]
      rfl
    show s.d_submission.get (s.d_submission.head + 1 + BitVec.ofNat 32 i) =
      s.d_submission.slot (s.d_submission.head + 1 + BitVec.ofNat 32 i)
    rw [hnext]
    exact hindices (i + 1) (Nat.succ_lt_succ hi)
  · simpa [Label.consumes, Label.calls, State.called] using hledger.append_right [e.user_data]

/-- A completion is taken. -/
theorem held_take {r : Cqe κ} (h : Held tr s es cs) (hpc : s.pc = .checking)
    (hne : s.d_completion.head ≠ s.d_completion.tail)
    (hr : s.d_completion.get s.d_completion.head = r) :
    Held (tr ++ [.process_result (some r)])
      { s with
        d_completion := s.d_completion.advance_head, d_outstanding := s.d_outstanding - 1,
        pc := .calling r } es cs.tail := by
  have hcalled : s.called = [] := by simp [State.called, hpc]
  obtain ⟨r', cs, rfl⟩ := List.exists_cons_of_ne_nil fun hnil =>
    hne (h.completions.empty_iff.mpr hnil)
  obtain rfl : r = r' := hr.symm.trans h.completions.front
  obtain ⟨horder, helements, hindices, hcompletions, hledger, houtstanding⟩ := h
  rw [hcalled] at hledger houtstanding
  refine ⟨by simp [horder, Label.submits, Label.consumes], helements, hindices, hcompletions.pop,
    ?_, ?_⟩
  · simpa [Label.consumes, Label.calls, State.called] using hledger
  · show s.d_outstanding - 1 + BitVec.ofNat 32 _ = _
    rw [submitted_snoc, results_snoc]
    simp only [Label.submits, Label.calls, State.called, Option.toList_none, List.append_nil,
      List.length_append, List.length_singleton, BitVec.ofNat_add] at houtstanding ⊢
    rw [← houtstanding, BitVec.add_comm (BitVec.ofNat 32 _), ← BitVec.add_assoc]
    congr 1
    exact BitVec.sub_add_cancel _ _

/-- A continuation is called. -/
theorem held_result {r : Cqe κ} (h : Held tr s es cs) (hpc : s.pc = .calling r) :
    Held (tr ++ [.result r.user_data r.res r.flags]) { s with pc := .idle } es cs := by
  have hcalled : s.called = [r.user_data] := by simp [State.called, hpc]
  obtain ⟨horder, helements, hindices, hcompletions, hledger, houtstanding⟩ := h
  rw [hcalled] at hledger houtstanding
  refine ⟨by simp [horder, Label.submits, Label.consumes], helements, hindices, hcompletions, ?_, ?_⟩
  · simpa [Label.consumes, Label.calls, State.called] using hledger
  · simpa [Label.submits, Label.calls, State.called] using houtstanding

/-- The kernel completes an operation. -/
theorem held_complete [DecidableEq κ] {e : Sqe κ} {res : Int} {flags : BitVec 32}
    (h : Held tr s es cs) (he : e ∈ s.inflight)
    (hroom : (s.d_completion.tail - s.d_completion.head).toNat < 2 ^ s.d_completion.bits) :
    Held (tr ++ [.complete e res flags])
      { s with
        inflight := s.inflight.erase e
        d_completion := (s.d_completion.write ⟨e.user_data, res, flags⟩).advance_tail } es
      (cs ++ [⟨e.user_data, res, flags⟩]) := by
  rw [h.completions.distance] at hroom
  obtain ⟨horder, helements, hindices, hcompletions, hledger, houtstanding⟩ := h
  refine ⟨by simp [horder, Label.submits, Label.consumes], helements, hindices,
    hcompletions.push hroom _, ?_, ?_⟩
  · have herase := (List.perm_cons_erase he).map Sqe.user_data
    have hmoved := hledger.trans
      (herase.append_left (results tr ++ s.called ++ cs.map Cqe.user_data))
    simpa [Label.consumes, Label.calls, State.called] using hmoved
  · simpa [Label.submits, Label.calls, State.called] using houtstanding

/-- A step that only moves the program. -/
theorem held_quiet {l : Label κ} (pc : Pc κ) (h : Held tr s es cs)
    (hl : l.submits = none ∧ l.consumes = [] ∧ l.calls = none)
    (hpc : State.called { s with pc := pc } = s.called) :
    Held (tr ++ [l]) { s with pc := pc } es cs := by
  obtain ⟨horder, helements, hindices, hcompletions, hledger, houtstanding⟩ := h
  refine ⟨by simp [horder, hl], helements, hindices, hcompletions, ?_, ?_⟩
  · simpa [hl, hpc] using hledger
  · simpa [hl, hpc] using houtstanding

end RingContextLemmas

open RingContextLemmas

/-- The submission ring has a free cell when an element is written. -/
def Room (s : State κ) : Label κ → Prop
  | .submit _ _ => (s.d_submission.tail - s.d_submission.head).toNat < 2 ^ s.d_submission.bits
  | _ => True

/-- Every step that writes to a free cell only keeps the account of the rings, and
the submission ring gets longer by a submission and shorter by what is consumed. -/
theorem held_step [DecidableEq κ] {tr : List (Label κ)} {s s' : State κ} {l : Label κ} {es : List (Sqe κ)}
    {cs : List (Cqe κ)} (h : Held tr s es cs) (hr : Room s l) (hs : next s l = some s') :
    ∃ es' cs', Held (tr ++ [l]) s' es' cs' ∧
      es'.length + l.consumes.length = es.length + l.submits.toList.length := by
  cases l with
  | submit op c =>
    obtain ⟨hpc, hs⟩ := Option.ite_none_right_eq_some.mp hs
    cases hs
    have hroom : es.length < 2 ^ s.d_submission.bits := by
      rw [← h.elements.distance]
      exact hr
    exact ⟨_, _, held_submit h hpc hroom, by simp [Label.consumes, Label.submits]⟩
  | enter es₀ =>
    match es₀ with
    | [] =>
      obtain ⟨hpc, hs⟩ := Option.ite_none_right_eq_some.mp hs
      cases hs
      refine ⟨_, _, held_quiet _ h ⟨rfl, rfl, rfl⟩ ?_, by simp [Label.consumes, Label.submits]⟩
      simp [State.called, hpc]
    | [e] =>
      obtain ⟨⟨hpc, hne, he⟩, hs⟩ := Option.ite_none_right_eq_some.mp hs
      cases hs
      obtain ⟨hheld, hes⟩ := held_consume h hpc hne he
      refine ⟨_, _, hheld, ?_⟩
      have hpos : 0 < es.length := List.length_pos_iff.mpr hes
      simp [Label.consumes, Label.submits]
      omega
    | _ :: _ :: _ => cases hs
  | run_one =>
    obtain ⟨hpc, hs⟩ := Option.ite_none_right_eq_some.mp hs
    split at hs <;> cases hs
    · exact ⟨_, _, held_quiet s.pc h ⟨rfl, rfl, rfl⟩ rfl, by simp [Label.consumes, Label.submits]⟩
    · refine ⟨_, _, held_quiet _ h ⟨rfl, rfl, rfl⟩ ?_, by simp [Label.consumes, Label.submits]⟩
      simp [State.called, hpc]
  | wake =>
    obtain ⟨hpc, hs⟩ := Option.ite_none_right_eq_some.mp hs
    cases hs
    refine ⟨_, _, held_quiet _ h ⟨rfl, rfl, rfl⟩ ?_, by simp [Label.consumes, Label.submits]⟩
    simp [State.called, hpc]
  | process_result taken =>
    cases taken with
    | none =>
      obtain ⟨⟨hpc, -⟩, hs⟩ := Option.ite_none_right_eq_some.mp hs
      cases hs
      refine ⟨_, _, held_quiet _ h ⟨rfl, rfl, rfl⟩ ?_, by simp [Label.consumes, Label.submits]⟩
      simp [State.called, hpc]
    | some r =>
      obtain ⟨⟨hpc, hne, hr⟩, hs⟩ := Option.ite_none_right_eq_some.mp hs
      cases hs
      exact ⟨_, _, held_take h hpc hne hr, by simp [Label.consumes, Label.submits]⟩
  | result c res flags =>
    obtain ⟨hpc, hs⟩ := Option.ite_none_right_eq_some.mp hs
    cases hs
    exact ⟨_, _, held_result h hpc, by simp [Label.consumes, Label.submits]⟩
  | complete e res flags =>
    obtain ⟨⟨he, hroom⟩, hs⟩ := Option.ite_none_right_eq_some.mp hs
    cases hs
    exact ⟨_, _, held_complete h he hroom, by simp [Label.consumes, Label.submits]⟩

/-! ## 2. The runs -/

/-- How many elements of a submission are on their way to the kernel. -/
def State.entering (s : State κ) : Nat :=
  match s.pc with
  | .entering => 1
  | _ => 0

/-- Each `io_uring_enter` of `submit` consumes the entry, and the counter does not
overflow. -/
def Clear (s : State κ) : Label κ → Prop
  | .submit _ _ => s.d_outstanding ≠ BitVec.allOnes 32
  | .enter es => es ≠ []
  | _ => True

instance (s : State κ) : (l : Label κ) → Decidable (Clear s l)
  | .submit _ _ => inferInstanceAs (Decidable (s.d_outstanding ≠ BitVec.allOnes 32))
  | .enter es => inferInstanceAs (Decidable (es ≠ []))
  | .run_one | .wake | .process_result _ | .result _ _ _ | .complete _ _ _ => .isTrue trivial

/-- What an `io_uring_enter` of `submit` does not consume stays behind, and
who is about to be called is called. -/
theorem position_step [DecidableEq κ] {s s' : State κ} {l : Label κ} (hs : next s l = some s') :
    s'.entering + l.consumes.length + (if l = .enter [] then 1 else 0) =
      s.entering + l.submits.toList.length ∧
    s.called.length ≤ l.calls.toList.length + s'.called.length := by
  cases l with
  | submit op c =>
    obtain ⟨hpc, hs⟩ := Option.ite_none_right_eq_some.mp hs
    cases hs
    simp [State.entering, State.called, Label.calls, State.submit, Label.consumes, Label.submits, hpc]
  | enter es =>
    match es with
    | [] =>
      obtain ⟨hpc, hs⟩ := Option.ite_none_right_eq_some.mp hs
      cases hs
      simp [State.entering, State.called, Label.calls, Label.consumes, Label.submits, hpc]
    | [e] =>
      obtain ⟨⟨hpc, -⟩, hs⟩ := Option.ite_none_right_eq_some.mp hs
      cases hs
      simp [State.entering, State.called, Label.calls, Label.consumes, Label.submits, hpc]
    | _ :: _ :: _ => cases hs
  | run_one =>
    obtain ⟨hpc, hs⟩ := Option.ite_none_right_eq_some.mp hs
    split at hs <;> cases hs <;> simp [State.entering, State.called, Label.calls, Label.consumes, Label.submits, hpc]
  | wake =>
    obtain ⟨hpc, hs⟩ := Option.ite_none_right_eq_some.mp hs
    cases hs
    simp [State.entering, State.called, Label.calls, Label.consumes, Label.submits, hpc]
  | process_result taken =>
    cases taken with
    | none =>
      obtain ⟨⟨hpc, -⟩, hs⟩ := Option.ite_none_right_eq_some.mp hs
      cases hs
      simp [State.entering, State.called, Label.calls, Label.consumes, Label.submits, hpc]
    | some r =>
      obtain ⟨⟨hpc, -⟩, hs⟩ := Option.ite_none_right_eq_some.mp hs
      cases hs
      simp [State.entering, State.called, Label.calls, Label.consumes, Label.submits, hpc]
  | result c res flags =>
    obtain ⟨hpc, hs⟩ := Option.ite_none_right_eq_some.mp hs
    cases hs
    simp [State.entering, State.called, Label.calls, Label.consumes, Label.submits, hpc]
  | complete e res flags =>
    obtain ⟨-, hs⟩ := Option.ite_none_right_eq_some.mp hs
    cases hs
    simp [State.entering, State.called, Label.calls, Label.consumes, Label.submits]

/-- Elements stay behind for good. -/
theorem entering_run [DecidableEq κ] {s s' : State κ} {tr : List (Label κ)} (h : Run (system κ) s tr s') :
    s'.entering + (handed tr).length ≤ s.entering + (submitted tr).length := by
  refine h.invariant (I := fun tr s' => s'.entering + (handed tr).length ≤
    s.entering + (submitted tr).length) (Nat.le_refl _) fun tr s₁ l s₂ ih hs => ?_
  have hstep := (position_step hs).1
  rw [handed_snoc, submitted_snoc, List.length_append, List.length_append]
  omega

/-- The account of the clear runs. -/
def Accounted (tr : List (Label κ)) (s : State κ) : Prop :=
  ∃ es cs, Held tr s es cs ∧ es.length = s.entering ∧
    (submitted tr).length < (results tr ++ s.called).length + 2 ^ 32

namespace RingContextLemmas

variable {tr : List (Label κ)} {s s' : State κ} {es : List (Sqe κ)} {cs : List (Cqe κ)}

/-- No more continuations are called than elements are consumed. -/
theorem results_le (h : Held tr s es cs) :
    (results tr ++ s.called).length ≤ (submitted tr).length := by
  have hledger := h.ledger.length_eq
  have horder := congrArg List.length h.order
  simp only [List.length_map, List.length_append] at hledger horder ⊢
  omega

theorem outstanding_eq (h : Held tr s es cs)
    (hlt : (submitted tr).length < (results tr ++ s.called).length + 2 ^ 32) :
    s.d_outstanding.toNat + (results tr ++ s.called).length = (submitted tr).length := by
  have hle := results_le h
  have hnat := congrArg BitVec.toNat h.outstanding
  rw [BitVec.toNat_add, BitVec.toNat_ofNat, BitVec.toNat_ofNat] at hnat
  have hbound := s.d_outstanding.isLt
  omega

theorem accounted_step [DecidableEq κ] {l : Label κ} (h : Accounted tr s) (hs : next s l = some s')
    (hl : Clear s l) : Accounted (tr ++ [l]) s' := by
  obtain ⟨es, cs, hheld, hes, hlt⟩ := h
  obtain ⟨hentering, hcalled⟩ := position_step hs
  have hroom : Room s l := by
    cases l with
    | submit op c =>
      obtain ⟨hpc, -⟩ := Option.ite_none_right_eq_some.mp hs
      show _ < _
      have hnone : es.length = 0 := by simpa [State.entering, hpc] using hes
      have hdistance : (s.d_submission.tail - s.d_submission.head).toNat = es.length :=
        hheld.elements.distance
      rw [hdistance, hnone]
      exact Nat.two_pow_pos _
    | _ => trivial
  obtain ⟨es', cs', hheld', hlength⟩ := held_step hheld hroom hs
  refine ⟨es', cs', hheld', ?_, ?_⟩
  · have hconsumed : l ≠ .enter [] := by
      rintro rfl
      exact hl rfl
    rw [if_neg hconsumed] at hentering
    omega
  · have hout := outstanding_eq hheld hlt
    have hbound := s.d_outstanding.isLt
    rw [submitted_snoc, results_snoc]
    simp only [List.length_append] at hlt hout ⊢
    cases l with
    | submit op c =>
      have hmax : s.d_outstanding.toNat ≠ 2 ^ 32 - 1 := fun he =>
        hl (BitVec.eq_of_toNat_eq (he.trans (by decide)))
      have hone : (Label.submit op c).submits.toList.length = 1 := rfl
      omega
    | _ =>
      simp only [Label.submits, Option.toList_none, List.length_nil]
      omega

end RingContextLemmas

theorem accounted_run [DecidableEq κ] {s₀ s : State κ} {tr : List (Label κ)}
    (h₀ : (system κ).init s₀) (h : Run ((system κ).restrict Clear) s₀ tr s) : Accounted tr s := by
  refine h.invariant ?_ fun tr s l s' ih hs => accounted_step ih hs.1 hs.2
  refine ⟨[], [], held_initial h₀, ?_, ?_⟩
  · simp [State.entering, h₀.2.2.2.2]
  · simp [submitted]

/-- In the clear runs the elements that are not consumed are in the cells from `head`
to `tail`, none of them is left when `run_one()` waits, the results are those of
submitted operations, each at most once, and the counter counts. -/
theorem submissions_kept [DecidableEq κ] {s₀ s : State κ} {tr : List (Label κ)}
    (h₀ : (system κ).init s₀) (h : Run ((system κ).restrict Clear) s₀ tr s) :
    (∃ es, submitted tr = handed tr ++ es ∧ RingQueue.Contains s.elements es ∧
      (∀ i < es.length, s.d_submission.get (s.d_submission.head + BitVec.ofNat 32 i) =
        s.d_submission.slot (s.d_submission.head + BitVec.ofNat 32 i)) ∧
      (s.pc = .waiting → es = [])) ∧
    (∀ c, (results tr).count c ≤ ((submitted tr).map Sqe.user_data).count c) ∧
    s.d_outstanding.toNat + (results tr ++ s.called).length = (submitted tr).length := by
  obtain ⟨es, cs, hheld, hes, hlt⟩ := accounted_run h₀ h
  refine ⟨⟨es, hheld.order, hheld.elements, hheld.indices, fun hpc => ?_⟩, fun c => ?_,
    outstanding_eq hheld hlt⟩
  · have hnone : es.length = 0 := by simpa [State.entering, hpc] using hes
    exact List.length_eq_zero_iff.mp hnone
  · have hledger := hheld.ledger.count_eq c
    rw [hheld.order]
    simp only [List.map_append, List.count_append] at hledger ⊢
    omega

/-- A ring of one cell after the setup. -/
def exRing (α : Type) (x : α) : RingQueue.Ring 32 α where
  head := 0
  tail := 0
  mask := 0
  array := fun _ => x
  bits := 0
  bits_lt := by decide
  mask_eq := rfl

def exState : State Nat where
  d_submission := exRing _ 0
  d_submission_elements := fun _ => Sqe.zero .NOP 0
  d_completion := exRing _ ⟨0, 0, 0⟩
  d_outstanding := 0
  inflight := []
  pc := .idle

/-- Two operations, the second one from the continuation of the first. -/
def exTwo : List (Label Nat) :=
  [.submit .nop 1, .enter [do_nop 1], .run_one, .complete (do_nop 1) 0 0, .wake,
    .process_result (some ⟨1, 0, 0⟩), .result 1 0 0, .submit .nop 2, .enter [do_nop 2], .run_one]

theorem submissions_kept_example : ∃ s, Run ((system Nat).restrict Clear) exState exTwo s ∧
    s.pc = .waiting ∧ s.d_outstanding.toNat + 1 = (submitted exTwo).length := by
  have hrun := run_replay_restrict (S := system Nat) (fun _ _ _ => id)
    (show (replay (fun s l => if Clear s l then next s l else none) exState exTwo).isSome from rfl)
  refine ⟨_, hrun, rfl, ?_⟩
  exact (submissions_kept ⟨rfl, rfl, rfl, rfl, rfl⟩ hrun).2.2

/-- What an `io_uring_enter` does not consume is never made up for. -/
theorem left_behind [DecidableEq κ] {s₀ s s' : State κ} {tr tr' : List (Label κ)}
    (h₀ : (system κ).init s₀) (h : Run (system κ) s₀ tr s)
    (h' : Run (system κ) s (.enter [] :: tr') s') :
    handed (tr ++ .enter [] :: tr') ≠ submitted (tr ++ .enter [] :: tr') := by
  intro he
  obtain ⟨s₁, hs, htail⟩ := h'.uncons
  have hbefore := entering_run h
  have hstep := (position_step hs).1
  have hafter := entering_run htail
  have hinit : s₀.entering = 0 := by simp [State.entering, h₀.2.2.2.2]
  have hlength := congrArg List.length he
  simp only [handed, submitted, List.flatMap_append, List.flatMap_cons, List.filterMap_append,
    List.filterMap_cons, Label.submits, Label.consumes, List.length_append, List.length_nil,
    List.nil_append, Option.toList_none, if_true] at hbefore hstep hafter hlength
  omega

/-- Two operations for a ring of one cell where the kernel does not take the first. -/
def exFailed : List (Label Nat) :=
  [.submit .nop 1, .enter [], .submit .nop 2, .enter [do_nop 2], .run_one]

theorem submission_lost :
    ¬ ∀ (s₀ s : State Nat) (tr : List (Label Nat)), (system Nat).init s₀ →
      Run (system Nat) s₀ tr s → s.pc = .waiting → ∀ e ∈ submitted tr, e ∈ handed tr := by
  intro h
  have hrun := run_replay (S := system Nat) (fun _ _ _ => id)
    (show (replay next exState exFailed).isSome from rfl)
  have hlost := h _ _ _ ⟨rfl, rfl, rfl, rfl, rfl⟩ hrun rfl (do_nop 1) (by decide)
  exact absurd hlost (by decide)

end Kuhllib.RingContext
