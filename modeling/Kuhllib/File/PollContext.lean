import Kuhllib.Lib.Transition
import Mathlib.Algebra.Ring.Nat
import Mathlib.Data.List.Basic

/-!
# `nstd::file::poll_context`

One thread submits operations and calls `do_run_one`; a continuation that gets
its result may submit further operations before it returns. A step of the model
is one call, one return of a continuation, or what `do_run_one` does up to its
next system call, its next call of a continuation or its next loop test. What
`poll(2)`, the other system calls and the clock say is a choice of the label.

Every submission gets a ticket, by which a list node and a call of a continuation
are told apart from others with the same `io_base`; the self-pipe has ticket `0`.
An iterator into `d_outstanding` is the ticket of its node, an iterator into
`d_poll` is an index, or nothing once the vector was changed.
-/

namespace Kuhllib.PollContext

open Transition

/-! ## 1. Operations -/

inductive Errno
  | EINTR
  | EAGAIN
  | EWOULDBLOCK
  | EALREADY
  | ENETDOWN
  | EPROTO
  | ENOPROTOOPT
  | EHOSTDOWN
  | ENONET
  | EHOSTUNREACH
  | EOPNOTSUPP
  | ENETUNREACH
  | ECANCELED
  | other (code : Nat)
  deriving DecidableEq, Repr

/-- The argument of `io_base::result`; `error e` is `-e`. -/
inductive Result
  | value (n : Int)
  | error (e : Errno)
  deriving DecidableEq, Repr

/-- A count becomes the `int32_t` argument of `io_base::result`. -/
def int32 (n : Int) : Int := n.bmod (2 ^ 32)

/-- What a system call returns, the `errno` it leaves and the `SO_ERROR` that
`getsockopt` reads. -/
structure Outcome where
  rc : Int
  errno : Errno
  so_error : Int
  deriving DecidableEq, Repr

inductive Syscall
  | accept
  | sendmsg
  | recvmsg
  | readv
  | writev
  deriving DecidableEq, Repr

/-- The cases of the `switch` on `errno` that return `false`. -/
def Syscall.again : Syscall → Errno → Bool
  | .accept, .EINTR | .accept, .EAGAIN | .accept, .EWOULDBLOCK | .accept, .ENETDOWN
  | .accept, .EPROTO | .accept, .ENOPROTOOPT | .accept, .EHOSTDOWN | .accept, .ENONET
  | .accept, .EHOSTUNREACH | .accept, .EOPNOTSUPP | .accept, .ENETUNREACH => true
  | .accept, _ => false
  | .sendmsg, .EAGAIN | .sendmsg, .EWOULDBLOCK | .sendmsg, .EALREADY | .sendmsg, .EINTR => true
  | .sendmsg, _ => false
  | .recvmsg, .EAGAIN | .recvmsg, .EWOULDBLOCK | .recvmsg, .EINTR => true
  | .recvmsg, _ => false
  | .readv, .EAGAIN | .readv, .EWOULDBLOCK | .readv, .EINTR => true
  | .readv, _ => false
  | .writev, .EAGAIN | .writev, .EWOULDBLOCK | .writev, .EINTR => true
  | .writev, _ => false

/-- The functions stored in `d_operation`. Each of them passes its result to the
continuation that is also `d_id`. -/
inductive Operation (κ : Type)
  | self_pipe
  | call (f : Syscall)
  | connect
  | nop
  | cancel (to_cancel : κ)
  deriving DecidableEq, Repr

/-- What a call of `d_operation` does: return `false`, pass a result to the
continuation and return `true`, or cancel. -/
inductive Attempt (κ : Type)
  | again
  | deliver (r : Result)
  | cancel (to_cancel : κ)
  deriving DecidableEq, Repr

variable {κ : Type}

def Operation.attempt : Operation κ → Outcome → Attempt κ
  | .self_pipe, _ => .again
  | .call f, o =>
    if 0 ≤ o.rc then .deliver (.value (int32 o.rc))
    else if f.again o.errno then .again
    else .deliver (.error o.errno)
  | .connect, o =>
    if o.so_error = 0 then .deliver (.value 0) else .deliver (.error o.errno)
  | .nop, _ => .deliver (.value 0)
  | .cancel to_cancel, _ => .cancel to_cancel

/-- Only a cancel request cancels. -/
theorem Operation.attempt_eq_cancel {op : Operation κ} {o : Outcome} {to_cancel : κ}
    (h : op.attempt o = .cancel to_cancel) : op = .cancel to_cancel := by
  fun_cases Operation.attempt op o <;> simp_all [Operation.attempt]

/-! ## 2. The context -/

abbrev POLLIN : BitVec 16 := 1

abbrev POLLOUT : BitVec 16 := 4

/-- `operation`; the `d_id` of the self-pipe is `d_completion`, written `none`. -/
structure Entry (κ : Type) where
  ticket : Nat
  d_fd : Int
  d_events : BitVec 16
  d_operation : Operation κ
  d_id : Option κ
  deriving DecidableEq, Repr

structure TimerEvent (κ : Type) where
  ticket : Nat
  d_expiry : Int
  d_continuation : κ
  deriving DecidableEq, Repr

structure PollFd where
  fd : Int
  events : BitVec 16
  revents : BitVec 16
  deriving DecidableEq, Repr

/-- A call of `io_base::result`. -/
structure Delivery (κ : Type) where
  ticket : Nat
  continuation : Option κ
  result : Result
  deriving DecidableEq, Repr

/-- Where `do_run_one` is. The points from `timerDone` on are those after a call
of a continuation. -/
inductive Point
  | idle
  | timer
  | scheduled
  | io
  | scanning (rit : Nat)
  | poll
  | polling
  | timerDone
  | cancelled (own : Nat) (found : Option Nat)
  | cancelling (own : Nat) (found : Nat)
  | erasing (own : Nat)
  | ioDone
  | undefined
  deriving DecidableEq, Repr

/-- The members of the context, and what has happened: the `io_base` of each
ticket in `submitted`, the `results` passed to continuations, `depth`
continuations that have not returned, and the last `count` that `do_run_one`
returned. -/
structure State (κ : Type) where
  d_poll : List PollFd
  d_next_poll : Option Nat
  d_outstanding : List (Entry κ)
  d_timers : List (TimerEvent κ)
  submitted : List (Option κ)
  results : List (Delivery κ)
  run : Point
  depth : Nat
  count : Nat
  deriving DecidableEq, Repr

/-- The constructor; `pipe` is `d_pipe[0]`. -/
def State.initial (pipe : Nat) : State κ where
  d_poll := []
  d_next_poll := some 0
  d_outstanding := [⟨0, pipe, POLLIN, .self_pipe, none⟩]
  d_timers := []
  submitted := [none]
  results := []
  run := .idle
  depth := 0
  count := 0

/-! ## 3. Submitting operations -/

def State.submit_io (s : State κ) (fd : Int) (events : BitVec 16) (op : Operation κ)
    (id : κ) : State κ :=
  let e : Entry κ := ⟨s.submitted.length, fd, events, op, some id⟩
  { s with
    d_outstanding := if 0 ≤ fd then e :: s.d_outstanding else s.d_outstanding ++ [e]
    submitted := s.submitted ++ [some id] }

/-- `continuation->result(..)`. -/
def State.deliver (s : State κ) (ticket : Nat) (continuation : Option κ) (r : Result) : State κ :=
  { s with results := s.results ++ [⟨ticket, continuation, r⟩], depth := s.depth + 1 }

/-- An operation whose result is known when it is submitted. -/
def State.complete (s : State κ) (continuation : κ) (r : Result) : State κ :=
  { s with submitted := s.submitted ++ [some continuation] }.deliver s.submitted.length
    (some continuation) r

/-- `submit`: a first attempt is made at once. -/
def State.submit (s : State κ) (fd : Int) (events : BitVec 16) (f : Syscall) (o : Outcome)
    (id : κ) : State κ :=
  match (Operation.call f : Operation κ).attempt o with
  | .deliver r => s.complete id r
  | _ => s.submit_io fd events (.call f) id

def State.do_nop (s : State κ) (continuation : κ) : State κ :=
  s.submit_io (-1) 0 .nop continuation

/-- `now() + offset`: nanoseconds modulo `2 ^ 64`, as a signed time point. -/
def expiry (now : Int) (sec : Nat) (nsec : Int) : Int :=
  (now + sec * 1000000000 + nsec).bmod (2 ^ 64)

def State.do_timer (s : State κ) (now : Int) (sec : Nat) (nsec : Int) (continuation : κ) :
    State κ :=
  { s with
    d_timers := ⟨s.submitted.length, expiry now sec nsec, continuation⟩ :: s.d_timers
    submitted := s.submitted ++ [some continuation] }

def State.do_accept (s : State κ) (fd : Int) (continuation : κ) : State κ :=
  s.submit_io fd POLLIN (.call .accept) continuation

def State.do_connect (s : State κ) (fd : Int) (o : Outcome) (continuation : κ) : State κ :=
  if o.rc = 0 then s.complete continuation (.value 0)
  else s.submit_io fd (POLLIN ||| POLLOUT) .connect continuation

def State.do_sendmsg (s : State κ) (fd : Int) (o : Outcome) (continuation : κ) : State κ :=
  s.submit fd POLLOUT .sendmsg o continuation

def State.do_recvmsg (s : State κ) (fd : Int) (o : Outcome) (continuation : κ) : State κ :=
  s.submit fd POLLIN .recvmsg o continuation

def State.do_read (s : State κ) (fd : Int) (o : Outcome) (continuation : κ) : State κ :=
  s.submit fd POLLIN .readv o continuation

def State.do_write (s : State κ) (fd : Int) (o : Outcome) (continuation : κ) : State κ :=
  s.submit fd POLLOUT .writev o continuation

def State.do_open_at (s : State κ) (o : Outcome) (continuation : κ) : State κ :=
  s.complete continuation (if o.rc < 0 then .error o.errno else .value (int32 o.rc))

def State.do_cancel (s : State κ) (to_cancel completion : κ) : State κ :=
  s.submit_io (-1) 0 (.cancel to_cancel) completion

inductive Call (κ : Type)
  | nop (continuation : κ)
  | timer (now : Int) (sec : Nat) (nsec : Int) (continuation : κ)
  | accept (fd : Int) (continuation : κ)
  | connect (fd : Int) (o : Outcome) (continuation : κ)
  | sendmsg (fd : Int) (o : Outcome) (continuation : κ)
  | recvmsg (fd : Int) (o : Outcome) (continuation : κ)
  | read (fd : Int) (o : Outcome) (continuation : κ)
  | write (fd : Int) (o : Outcome) (continuation : κ)
  | open_at (o : Outcome) (continuation : κ)
  | cancel (to_cancel completion : κ)
  deriving DecidableEq, Repr

def State.call (s : State κ) : Call κ → State κ
  | .nop c => s.do_nop c
  | .timer now sec nsec c => s.do_timer now sec nsec c
  | .accept fd c => s.do_accept fd c
  | .connect fd o c => s.do_connect fd o c
  | .sendmsg fd o c => s.do_sendmsg fd o c
  | .recvmsg fd o c => s.do_recvmsg fd o c
  | .read fd o c => s.do_read fd o c
  | .write fd o c => s.do_write fd o c
  | .open_at o c => s.do_open_at o c
  | .cancel to_cancel c => s.do_cancel to_cancel c

/-! ## 4. `do_run_one` -/

/-- `return n` of `do_run_one`. -/
def State.returns (s : State κ) (n : Nat) : State κ := { s with run := .idle, count := n }

/-- `i` is the place of `d_timers.top()`, one of the earliest. -/
def State.handle_timer (s : State κ) (now : Int) (i : Nat) : Option (State κ) :=
  match s.d_timers[i]? with
  | none => if s.d_timers = [] then some { s with run := .scheduled } else none
  | some t =>
    if ∀ u ∈ s.d_timers, t.d_expiry ≤ u.d_expiry then
      if t.d_expiry ≤ now then
        some ({ s with d_timers := s.d_timers.eraseIdx i, run := .timerDone }.deliver t.ticket
          (some t.d_continuation) (.value 0))
      else some { s with run := .scheduled }
    else none

variable [DecidableEq κ]

/-- The function of `do_cancel`, up to the result of its own continuation. -/
def State.cancel (s : State κ) (e : Entry κ) (to_cancel : κ) : State κ :=
  let it := s.d_outstanding.find? fun op => op.d_id = some to_cancel
  { s with run := .cancelled e.ticket (it.map Entry.ticket) }.deliver e.ticket e.d_id
    (.value (if it.isNone then -1 else 0))

/-- The result of `d_operation()` is not looked at. -/
def State.handle_scheduled (s : State κ) (o : Outcome) : State κ :=
  match s.d_outstanding.getLast? with
  | none => { s with run := .io }
  | some it =>
    if it.d_fd = -1 then
      match it.d_operation.attempt o with
      | .again => { s with run := .erasing it.ticket }
      | .deliver r => { s with run := .erasing it.ticket }.deliver it.ticket it.d_id r
      | .cancel to_cancel => s.cancel it to_cancel
    else { s with run := .io }

/-- `d_outstanding.erase(it)`, for the node with the given ticket. -/
def State.erase (s : State κ) (ticket : Nat) (p : Point) : State κ :=
  if ticket ∈ s.d_outstanding.map Entry.ticket then
    { s with d_outstanding := s.d_outstanding.eraseP fun e => e.ticket = ticket, run := p }
  else { s with run := .undefined }

/-- The loop test of `handle_io`: `find_if` from `d_next_poll` on. -/
def State.handle_io (s : State κ) : State κ :=
  match s.d_next_poll with
  | none => { s with run := .undefined }
  | some i =>
    let j := i + (s.d_poll.drop i).findIdx fun p => p.revents ≠ 0
    { s with d_next_poll := some j, run := if j < s.d_poll.length then .scanning 0 else .poll }

/-- The inner loop at `rit`. An operation that returns `false` is put back before
the node that followed it, that is, where it was. -/
def State.scan (s : State κ) (rit : Nat) (o : Outcome) : Option (State κ) := do
  let i ← s.d_next_poll
  let p ← s.d_poll[i]?
  match s.d_outstanding[rit]? with
  | none => some { s with d_next_poll := some (i + 1), run := .io }
  | some e =>
    if p.fd = e.d_fd ∧ p.revents &&& e.d_events ≠ 0 then
      match e.d_operation.attempt o with
      | .again => some { s with run := .scanning (rit + 1) }
      | .deliver r =>
        some ({ s with d_outstanding := s.d_outstanding.eraseIdx rit, run := .ioDone }.deliver
          e.ticket e.d_id r)
      -- no entry of d_poll has the descriptor of a cancel request
      | .cancel _ => none
    else some { s with run := .scanning (rit + 1) }

/-- `poll()` up to the system call. The vector changes, so `d_next_poll` is not
an iterator into it any more. -/
def State.poll (s : State κ) : State κ :=
  let d_poll := (s.d_outstanding.takeWhile fun e => 0 ≤ e.d_fd).map fun e =>
    (⟨e.d_fd, e.d_events, 0⟩ : PollFd)
  let s' := { s with d_poll := d_poll, d_next_poll := none }
  if d_poll.length = 1 ∧ s.d_timers = [] then s'.returns 0 else { s' with run := .polling }

inductive PollResult
  | ready (revents : Nat → BitVec 16)
  | interrupted
  | failed

def State.polled (s : State κ) : PollResult → State κ
  | .ready revents =>
    { s with
      d_poll := s.d_poll.mapIdx fun i p => { p with revents := revents i }
      d_next_poll := some 0
      run := .timer }
  | .interrupted => s
  | .failed => s.returns 0

/-- What follows the return of a continuation. -/
def State.resume (s : State κ) : Option (State κ) :=
  match s.run with
  | .timerDone => some (s.returns 1)
  | .cancelled own none => some { s with run := .erasing own }
  | .cancelled own (some found) =>
    match s.d_outstanding.find? fun e => e.ticket = found with
    | some it =>
      some ({ s with run := .cancelling own found }.deliver it.ticket it.d_id (.error .ECANCELED))
    | none => some { s with run := .undefined }
  | .cancelling own found => some (s.erase found (.erasing own))
  | .erasing own => some ({ s with count := 1 }.erase own .idle)
  | .ioDone => some ({ s with d_next_poll := s.d_next_poll.map (· + 1) }.returns 1)
  | _ => none

inductive Label (κ : Type)
  | call (c : Call κ)
  | returned
  | do_run_one
  | handle_timer (now : Int) (i : Nat)
  | handle_scheduled (o : Outcome)
  | handle_io
  | scan (o : Outcome)
  | poll
  | polled (r : PollResult)
  | resume

/-- The steps of `do_run_one`. -/
def State.advance (s : State κ) : Label κ → Option (State κ)
  | .do_run_one => if s.run = .idle then some { s with run := .timer } else none
  | .handle_timer now i => if s.run = .timer then s.handle_timer now i else none
  | .handle_scheduled o => if s.run = .scheduled then some (s.handle_scheduled o) else none
  | .handle_io => if s.run = .io then some s.handle_io else none
  | .scan o =>
    match s.run with
    | .scanning rit => s.scan rit o
    | _ => none
  | .poll => if s.run = .poll then some s.poll else none
  | .polled r => if s.run = .polling then some (s.polled r) else none
  | .resume => s.resume
  | .call _ | .returned => none

/-- Operations are submitted between calls of `do_run_one` and by continuations;
`do_run_one` goes on when no continuation is executing. -/
def next (s : State κ) : Label κ → Option (State κ)
  | .call c => if s.run = .idle ∨ 0 < s.depth then some (s.call c) else none
  | .returned => if 0 < s.depth then some { s with depth := s.depth - 1 } else none
  | l => if s.depth = 0 then s.advance l else none

def system (κ : Type) [DecidableEq κ] (pipe : Nat) : System (State κ) (Label κ) where
  init s := s = State.initial pipe
  step s l s' := next s l = some s'

/-! ## What a step does -/

variable {s s' : State κ}

/-- There is no timer, the first one is due, or it is not. -/
inductive HandlesTimer (s : State κ) (now : Int) (i : Nat) : State κ → Prop
  | none (hnil : s.d_timers = []) : HandlesTimer s now i { s with run := .scheduled }
  | due {t : TimerEvent κ} (ht : s.d_timers[i]? = some t)
    (hmin : ∀ u ∈ s.d_timers, t.d_expiry ≤ u.d_expiry) (hdue : t.d_expiry ≤ now) :
    HandlesTimer s now i
      ({ s with d_timers := s.d_timers.eraseIdx i, run := .timerDone }.deliver t.ticket
        (some t.d_continuation) (.value 0))
  | early {t : TimerEvent κ} (ht : s.d_timers[i]? = some t)
    (hmin : ∀ u ∈ s.d_timers, t.d_expiry ≤ u.d_expiry) (hdue : ¬ t.d_expiry ≤ now) :
    HandlesTimer s now i { s with run := .scheduled }

omit [DecidableEq κ] in
theorem handles_timer_of {now : Int} {i : Nat} (hs : s.handle_timer now i = some s') :
    HandlesTimer s now i s' := by
  unfold State.handle_timer at hs
  split at hs
  · obtain ⟨hnil, hs⟩ := Option.ite_none_right_eq_some.mp hs
    cases hs
    exact .none hnil
  · next t ht =>
    obtain ⟨hmin, hs⟩ := Option.ite_none_right_eq_some.mp hs
    split at hs
    · next hdue =>
      cases hs
      exact .due ht hmin hdue
    · next hdue =>
      cases hs
      exact .early ht hmin hdue

/-- The last operation has a descriptor, or it is called and erased. -/
inductive HandlesScheduled (s : State κ) (o : Outcome) : State κ → Prop
  | none (hnone : ∀ it, s.d_outstanding.getLast? = some it → it.d_fd ≠ -1) :
    HandlesScheduled s o { s with run := .io }
  | again {it : Entry κ} (hit : s.d_outstanding.getLast? = some it) (hfd : it.d_fd = -1)
    (ha : it.d_operation.attempt o = .again) :
    HandlesScheduled s o { s with run := .erasing it.ticket }
  | done {it : Entry κ} {r : Result} (hit : s.d_outstanding.getLast? = some it)
    (hfd : it.d_fd = -1) (ha : it.d_operation.attempt o = .deliver r) :
    HandlesScheduled s o ({ s with run := .erasing it.ticket }.deliver it.ticket it.d_id r)
  | cancel {it : Entry κ} {c : κ} (hit : s.d_outstanding.getLast? = some it)
    (hfd : it.d_fd = -1) (ha : it.d_operation.attempt o = .cancel c) :
    HandlesScheduled s o (s.cancel it c)

theorem handles_scheduled (s : State κ) (o : Outcome) :
    HandlesScheduled s o (s.handle_scheduled o) := by
  unfold State.handle_scheduled
  split
  · next hnone =>
    refine .none fun it hit => ?_
    cases hnone.symm.trans hit
  · next it hit =>
    split
    · next hfd =>
      split
      · next ha => exact .again hit hfd ha
      · next r ha => exact .done hit hfd ha
      · next c ha => exact .cancel hit hfd ha
    · next hfd =>
      refine .none fun it' hit' => ?_
      obtain rfl := Option.some.inj (hit.symm.trans hit')
      exact hfd

/-- The inner loop ends, goes on, or completes an operation. -/
inductive Scans (s : State κ) (rit : Nat) (o : Outcome) : State κ → Prop
  | ended {i : Nat} {p : PollFd} (hi : s.d_next_poll = some i) (hp : s.d_poll[i]? = some p)
    (hnone : s.d_outstanding[rit]? = none) :
    Scans s rit o { s with d_next_poll := some (i + 1), run := .io }
  | passed {i : Nat} {p : PollFd} {e : Entry κ} (hi : s.d_next_poll = some i)
    (hp : s.d_poll[i]? = some p) (he : s.d_outstanding[rit]? = some e)
    (hpass : p.fd = e.d_fd ∧ p.revents &&& e.d_events ≠ 0 → e.d_operation.attempt o = .again) :
    Scans s rit o { s with run := .scanning (rit + 1) }
  | done {i : Nat} {p : PollFd} {e : Entry κ} {r : Result} (hi : s.d_next_poll = some i)
    (hp : s.d_poll[i]? = some p) (he : s.d_outstanding[rit]? = some e)
    (hmatch : p.fd = e.d_fd ∧ p.revents &&& e.d_events ≠ 0)
    (ha : e.d_operation.attempt o = .deliver r) :
    Scans s rit o ({ s with d_outstanding := s.d_outstanding.eraseIdx rit, run := .ioDone }.deliver
      e.ticket e.d_id r)

omit [DecidableEq κ] in
theorem scans_of {rit : Nat} {o : Outcome} (hs : s.scan rit o = some s') : Scans s rit o s' := by
  simp only [State.scan, Option.bind_eq_bind, Option.bind_eq_some_iff] at hs
  obtain ⟨i, hi, p, hp, hs⟩ := hs
  split at hs
  · next hnone =>
    cases hs
    exact .ended hi hp hnone
  · next e he =>
    split at hs
    · next hmatch =>
      split at hs
      · next ha =>
        cases hs
        exact .passed hi hp he fun _ => ha
      · next r ha =>
        cases hs
        exact .done hi hp he hmatch ha
      · cases hs
    · next hmatch =>
      cases hs
      exact .passed hi hp he fun hm => absurd hm hmatch

/-- The point of the run decides what follows a continuation. -/
inductive Resumes (s : State κ) : State κ → Prop
  | timerDone (hrun : s.run = .timerDone) : Resumes s (s.returns 1)
  | none {own : Nat} (hrun : s.run = .cancelled own none) : Resumes s { s with run := .erasing own }
  | found {own found : Nat} {it : Entry κ} (hrun : s.run = .cancelled own (some found))
    (hit : it ∈ s.d_outstanding) (hticket : it.ticket = found) :
    Resumes s ({ s with run := .cancelling own found }.deliver it.ticket it.d_id
      (.error .ECANCELED))
  | lost {own found : Nat} (hrun : s.run = .cancelled own (some found))
    (hlost : found ∉ s.d_outstanding.map Entry.ticket) : Resumes s { s with run := .undefined }
  | cancelling {own found : Nat} (hrun : s.run = .cancelling own found) :
    Resumes s (s.erase found (.erasing own))
  | erasing {own : Nat} (hrun : s.run = .erasing own) :
    Resumes s ({ s with count := 1 }.erase own .idle)
  | ioDone (hrun : s.run = .ioDone) :
    Resumes s ({ s with d_next_poll := s.d_next_poll.map (· + 1) }.returns 1)

omit [DecidableEq κ] in
theorem resumes_of (hs : s.resume = some s') : Resumes s s' := by
  unfold State.resume at hs
  split at hs
  · next hrun =>
    cases hs
    exact .timerDone hrun
  · next own hrun =>
    cases hs
    exact .none hrun
  · next own found hrun =>
    split at hs
    · next it hit =>
      cases hs
      exact .found hrun (List.mem_of_find?_eq_some hit) (by simpa using List.find?_some hit)
    · next hnone =>
      cases hs
      refine .lost hrun fun hmem => ?_
      obtain ⟨e, he, hticket⟩ := List.mem_map.mp hmem
      exact absurd (List.find?_eq_none.mp hnone e he) (by simpa using hticket)
  · next own found hrun =>
    cases hs
    exact .cancelling hrun
  · next own hrun =>
    cases hs
    exact .erasing hrun
  · next hrun =>
    cases hs
    exact .ioDone hrun
  · cases hs

/-- A step of `do_run_one` belongs to the point of the run. -/
inductive Advances (s : State κ) : Label κ → State κ → Prop
  | do_run_one (hrun : s.run = .idle) : Advances s .do_run_one { s with run := .timer }
  | handle_timer {now : Int} {i : Nat} {s' : State κ} (hrun : s.run = .timer)
    (hs : HandlesTimer s now i s') : Advances s (.handle_timer now i) s'
  | handle_scheduled {o : Outcome} {s' : State κ} (hrun : s.run = .scheduled)
    (hs : HandlesScheduled s o s') : Advances s (.handle_scheduled o) s'
  | handle_io (hrun : s.run = .io) : Advances s .handle_io s.handle_io
  | scan {rit : Nat} {o : Outcome} {s' : State κ} (hrun : s.run = .scanning rit)
    (hs : Scans s rit o s') : Advances s (.scan o) s'
  | poll (hrun : s.run = .poll) : Advances s .poll s.poll
  | polled {r : PollResult} (hrun : s.run = .polling) : Advances s (.polled r) (s.polled r)
  | resume {s' : State κ} (hs : Resumes s s') : Advances s .resume s'

theorem advances_of {l : Label κ} (hs : s.advance l = some s') : Advances s l s' := by
  cases l with
  | call c | returned => cases hs
  | do_run_one =>
    obtain ⟨hrun, hs⟩ := Option.ite_none_right_eq_some.mp hs
    cases hs
    exact .do_run_one hrun
  | handle_timer now i =>
    obtain ⟨hrun, hs⟩ := Option.ite_none_right_eq_some.mp hs
    exact .handle_timer hrun (handles_timer_of hs)
  | handle_scheduled o =>
    obtain ⟨hrun, hs⟩ := Option.ite_none_right_eq_some.mp hs
    cases hs
    exact .handle_scheduled hrun (handles_scheduled s o)
  | handle_io =>
    obtain ⟨hrun, hs⟩ := Option.ite_none_right_eq_some.mp hs
    cases hs
    exact .handle_io hrun
  | scan o =>
    simp only [State.advance] at hs
    split at hs
    · next hrun => exact .scan hrun (scans_of hs)
    · cases hs
  | poll =>
    obtain ⟨hrun, hs⟩ := Option.ite_none_right_eq_some.mp hs
    cases hs
    exact .poll hrun
  | polled r =>
    obtain ⟨hrun, hs⟩ := Option.ite_none_right_eq_some.mp hs
    cases hs
    exact .polled hrun
  | resume => exact .resume (resumes_of hs)

/-- Operations are submitted, a continuation returns, or `do_run_one` goes on. -/
inductive Steps (s : State κ) : Label κ → State κ → Prop
  | call {c : Call κ} (hidle : s.run = .idle ∨ 0 < s.depth) : Steps s (.call c) (s.call c)
  | returned (hdepth : 0 < s.depth) : Steps s .returned { s with depth := s.depth - 1 }
  | advance {l : Label κ} {s' : State κ} (hdepth : s.depth = 0) (hs : Advances s l s') :
    Steps s l s'

theorem steps_of {l : Label κ} (hs : next s l = some s') : Steps s l s' := by
  unfold next at hs
  split at hs
  · obtain ⟨hidle, hs⟩ := Option.ite_none_right_eq_some.mp hs
    cases hs
    exact .call hidle
  · obtain ⟨hdepth, hs⟩ := Option.ite_none_right_eq_some.mp hs
    cases hs
    exact .returned hdepth
  · obtain ⟨hdepth, hs⟩ := Option.ite_none_right_eq_some.mp hs
    exact .advance hdepth (advances_of hs)

end Kuhllib.PollContext
