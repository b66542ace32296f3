import Kuhllib.Execution.Signal
import Kuhllib.File.AsyncIo

/-!
# Accesses after the completion

The outer receiver may destroy the whole operation state when it is completed.
An abstract machine with an explicit call stack runs any nesting of `then`,
`let`, `repeat_effect_until`, `add_value`, `on` and `async_io` over senders of any
other kind. A step takes one function of an adaptor up to its next call; it marks
the state `dangling` when it reads or writes a member after the outer receiver
was completed. The frame `outside` is the code of nobody's: the `start()` of
another sender, the I/O context, an event loop. It decides when a child
completes, so a child completes inside its `start()` or later.
-/

namespace Kuhllib.Lifetime

open Transition

/-- The nestings of adaptors; `other` is a sender of any other kind. -/
inductive Sender
  | other
  | then_ (tag : Tag) (sender : Sender)
  | let_ (tag : Tag) (sender : Sender)
  | repeat_effect_until (sender : Sender)
  | add_value (upstream : Sender)
  | on (schedule sender : Sender)
  | async_io (upstream : Sender)
  deriving DecidableEq, Repr

/-- The receivers that the adaptors connect their children to. Those of
`repeat_effect_until` and `async_io` have a pointer to a state with members. -/
inductive Receiver
  | outer
  | then_ (tag : Tag) (d_receiver : Receiver)
  | let_ (tag : Tag) (d_receiver : Receiver)
  | repeat_effect_until (d_state : Nat)
  | add_value (d_downstream : Receiver)
  | schedule (sender : Sender) (receiver : Receiver)
  | replace (receiver : Receiver)
  | async_io (d_state : Nat)
  deriving DecidableEq, Repr

/-- What is on the call stack: `start` and `signal` are calls to be made, the
others have something left to do after the frame above them has returned. -/
inductive Frame
  | outside
  | start (sender : Sender) (r : Receiver)
  | signal (tag : Tag) (r : Receiver)
  -- let: the constructor of the inner state has returned to variant::emplace
  | emplaced
  -- repeat_effect_until: the loop in next(), its lock_guard and the handler
  | loop (d_state : Nat)
  | unlock (d_state : Nat)
  | unwind (d_state : Nat)
  -- async_io: engage_callback() in set_value, and cancel::operator()
  | engaging (d_state : Nat)
  | callback (d_state : Nat)
  deriving DecidableEq, Repr

/-- Who has been started and completes next. -/
inductive Pending
  | none
  | other (r : Receiver)
  | engaging (d_state : Nat)
  | operation (d_state : Nat)
  deriving DecidableEq, Repr

/-- The members of the states of `repeat_effect_until` and `async_io`. -/
structure Members where
  d_receiver : Receiver
  d_sender : Sender
  d_running : Bool
  d_ready : Bool
  io : AsyncIo.State
  deriving DecidableEq, Repr

/-- `states` numbers the operation states from `0` to `fresh`; `completed` says
that the outer receiver has been completed. -/
structure State where
  stack : List Frame
  pending : Pending
  states : Nat → Members
  fresh : Nat
  completed : Bool
  dangling : Bool

def State.initial (sender : Sender) : State where
  stack := [.start sender .outer, .outside]
  pending := .none
  states _ := ⟨.outer, .other, false, false, AsyncIo.State.initial⟩
  fresh := 0
  completed := false
  dangling := false

/-- An adaptor reads or writes a member of its state. -/
def State.touch (s : State) : State := { s with dangling := s.dangling || s.completed }

def State.set (s : State) (id : Nat) (m : Members) : State :=
  { s with states := Function.update s.states id m }

def State.goto (s : State) (stack : List Frame) : State := { s with stack := stack }

/-- A new operation state. -/
def State.connect (s : State) (sender : Sender) (r : Receiver) : State :=
  { s.set s.fresh ⟨r, sender, false, false, AsyncIo.State.initial⟩ with fresh := s.fresh + 1 }

/-- What the user's functions and the code outside decide. -/
inductive Label
  | step
  -- a function of the user or connect() throws
  | throws
  -- the function of let returns a sender
  | returns (sender : Sender)
  -- repeat_effect_until: the stop token and the predicate
  | stop_requested
  | predicate (done : Bool)
  -- code outside the adaptors
  | leave
  | complete (tag : Tag)
  | stop
  | result (result : Int) (flags : Nat)
  | cancelled
  deriving DecidableEq, Repr

/-! ### `start()` -/

def State.start (s : State) (r : Receiver) (st : List Frame) : Sender → State
  | .other => { s with pending := .other r, stack := .outside :: st }
  -- the receiver of then or add_value is part of the state of the child
  | .then_ tag e => s.goto (.start e (.then_ tag r) :: st)
  | .add_value e => s.goto (.start e (.add_value r) :: st)
  | .let_ tag e => s.touch.goto (.start e (.let_ tag r) :: st)
  | .repeat_effect_until e =>
    (s.connect e r).touch.goto (.start e (.repeat_effect_until s.fresh) :: st)
  | .on schedule e => s.touch.goto (.start schedule (.schedule e r) :: st)
  | .async_io e => (s.connect e r).touch.goto (.start e (.async_io s.fresh) :: st)

/-! ### The receivers -/

/-- `next()` of `repeat_effect_until`. -/
def State.next_effect (s : State) (id : Nat) (st : List Frame) : State :=
  let m := s.states id
  if m.d_running then (s.set id { m with d_ready := true }).touch.goto st
  else (s.set id { m with d_running := true, d_ready := true }).touch.goto (.loop id :: st)

/-- `set_value` of `async_io` up to `engage_callback()`. -/
def State.count_operation (s : State) (id : Nat) (st : List Frame) : Option State :=
  (AsyncIo.next (s.states id).io .set_value).map fun io =>
    { (s.set id { s.states id with io := io }).touch.goto (.engaging id :: st) with
      pending := .engaging id }

/-- A completion function. The predicate, the functions and the stop token are
called before the member `d_receiver` is completed. -/
def State.signal (s : State) (tag : Tag) (st : List Frame) : Receiver → Label → Option State
  | .outer, .step => some { s.goto st with completed := true }
  | .then_ tag' r, .step =>
    some (s.touch.goto (.signal (if tag = tag' then .set_value else tag) r :: st))
  | .then_ tag' r, .throws =>
    if tag = tag' then some (s.touch.goto (.signal .set_error r :: st)) else none
  -- set_value is noexcept: an exception of the function of let terminates
  | .let_ tag' r, .step =>
    if tag = tag' then none else some (s.touch.goto (.signal tag r :: st))
  | .let_ tag' r, .returns e =>
    if tag = tag' then some (s.touch.goto (.start e r :: .emplaced :: st)) else none
  | .repeat_effect_until id, .step =>
    match tag with
    | .set_value => some (s.next_effect id st)
    | _ => some (s.touch.goto (.signal tag (s.states id).d_receiver :: st))
  -- set_stopped of add_value and async_io is a template over a type that no
  -- argument determines: only a child that is never stopped compiles
  | .add_value r, .step => some (s.touch.goto (.signal tag r :: st))
  -- schedule_receiver is completed with set_value only
  | .schedule e r, .step =>
    if tag = .set_value then some (s.touch.goto (.start e (.replace r) :: st)) else none
  | .schedule _ r, .throws =>
    if tag = .set_value then some (s.touch.goto (.signal .set_error r :: st)) else none
  | .replace r, .step => some (s.touch.goto (.signal tag r :: st))
  | .async_io id, .step =>
    match tag with
    | .set_value => s.count_operation id st
    | _ => some (s.touch.goto (.signal tag (s.states id).d_receiver :: st))
  | _, _ => none

/-! ### `repeat_effect_until` -/

/-- The test of the loop and its body. A thrown exception leaves the scope of the
`lock_guard` before the handler completes the receiver. -/
def State.loop (s : State) (id : Nat) (st : List Frame) (l : Label) : Option State :=
  let m := s.states id
  let s' := (s.set id { m with d_ready := false }).touch
  if m.d_ready then
    match l with
    | .stop_requested => some (s'.goto (.signal .set_stopped m.d_receiver :: .unlock id :: st))
    | .predicate true => some (s'.goto (.signal .set_value m.d_receiver :: .unlock id :: st))
    | .predicate false =>
      some (s'.goto (.start m.d_sender (.repeat_effect_until id) :: .loop id :: st))
    | .throws => some (s'.goto (.unwind id :: st))
    | _ => none
  else if l = .step then some (s.touch.goto (.unlock id :: st)) else none

/-- The destructor of the `lock_guard`. -/
def State.unlock (s : State) (id : Nat) (st : List Frame) : State :=
  (s.set id { s.states id with d_running := false }).touch.goto st

/-! ### `async_io` -/

def State.setIo (s : State) (id : Nat) (io : AsyncIo.State) : State :=
  (s.set id { s.states id with io := io }).touch

/-- The end of `engage_callback()` and the start of the operation. -/
def State.engaged (s : State) (id : Nat) (st : List Frame) : Option State := do
  let io ← AsyncIo.next (s.states id).io .engage_callback
  let io ← AsyncIo.next io .start
  pure { (s.setIo id io).goto (.outside :: st) with pending := .operation id }

/-- The stop callback is called with `st` below it. -/
def State.stop (s : State) (id : Nat) (st : List Frame) : Option State :=
  (AsyncIo.next (s.states id).io .callbackStart).map fun io =>
    { s.set id { s.states id with io := io } with stack := .callback id :: st }

/-- `cancel::operator()`. -/
def State.callback (s : State) (id : Nat) (st : List Frame) : Option State := do
  let io ← AsyncIo.next (s.states id).io .callbackCount
  if io.callback = .submitting then
    let io ← AsyncIo.next io .callbackSubmit
    pure ((s.setIo id io).goto (.outside :: st))
  else pure ((s.setIo id io).goto st)

def tagOf : AsyncIo.Completion → Tag
  | .stopped => .set_stopped
  | .error _ => .set_error
  | .complete _ _ => .set_value

/-- `state_base::do_result`. -/
def State.result (s : State) (id : Nat) (result : Int) (flags : Nat) (st : List Frame) :
    Option State := do
  let io ← AsyncIo.next (s.states id).io (.result result flags)
  let io ← AsyncIo.next io .resultCount
  if io.operation = .completing then
    let io' ← AsyncIo.next io .resultComplete
    pure { (s.setIo id io').goto
      (.signal (tagOf io.operationCompletion) (s.states id).d_receiver :: st) with
      pending := .none }
  else pure ((s.setIo id io).goto st)

/-- `cancel::do_result`. -/
def State.cancelled (s : State) (id : Nat) (st : List Frame) : Option State := do
  let io ← AsyncIo.next (s.states id).io .cancelResult
  let io ← AsyncIo.next io .cancelCount
  if io.cancel = .completing then
    let io' ← AsyncIo.next io .cancelComplete
    pure { (s.setIo id io').goto
      (.signal (tagOf io.cancelCompletion) (s.states id).d_receiver :: st) with
      pending := .none }
  else pure ((s.setIo id io).goto st)

/-! ### The machine -/

/-- What code outside the adaptors does: it returns, completes what is pending,
requests a stop or delivers a result. -/
def State.outside (s : State) (st : List Frame) : Label → Option State
  | .leave => some (s.goto st)
  | .complete tag =>
    match s.pending with
    | .other r => some { s with pending := .none, stack := .signal tag r :: .outside :: st }
    | _ => none
  | .stop =>
    match s.pending with
    | .engaging id | .operation id => s.stop id (.outside :: st)
    | _ => none
  | .result result flags =>
    match s.pending with
    | .operation id => s.result id result flags (.outside :: st)
    | _ => none
  | .cancelled =>
    match s.pending with
    | .engaging id | .operation id => s.cancelled id (.outside :: st)
    | _ => none
  | _ => none

def next (s : State) (l : Label) : Option State :=
  match s.stack with
  | [] => none
  | .outside :: st => s.outside st l
  | .start e r :: st => if l = .step then some (s.start r st e) else none
  | .signal tag r :: st => s.signal tag st r l
  | .emplaced :: st => if l = .step then some (s.touch.goto st) else none
  | .loop id :: st => s.loop id st l
  | .unlock id :: st => if l = .step then some (s.unlock id st) else none
  | .unwind id :: st =>
    if l = .step then
      some (s.unlock id (.signal .set_error (s.states id).d_receiver :: st))
    else none
  | .engaging id :: st =>
    match l with
    | .step => s.engaged id st
    | .stop => s.stop id (.engaging id :: st)
    | _ => none
  | .callback id :: st => if l = .step then s.callback id st else none

def system (sender : Sender) : System State Label where
  init s := s = State.initial sender
  step s l s' := next s l = some s'

end Kuhllib.Lifetime
