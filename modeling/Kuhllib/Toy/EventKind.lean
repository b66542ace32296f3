import Mathlib.Data.Nat.Bitwise

/-!
# The events of the toy networking

`event_kind` of `toy-networking-common.hpp` and what the contexts make of the flags that the
kernel reports.
-/

namespace Kuhllib.Toy

inductive EventKind
  | none
  | read
  | write
  | both
  deriving DecidableEq, Repr

/-- `int(event)` -/
def EventKind.toNat : EventKind → ℕ
  | none => 0
  | read => 1
  | write => 2
  | both => 3

def POLLIN : ℕ := 1
def POLLOUT : ℕ := 4

def to_event_kind (events : ℕ) : EventKind :=
  let e := events &&& (POLLIN ||| POLLOUT)
  if e = POLLIN then .read
  else if e = POLLOUT then .write
  else if e = POLLIN ||| POLLOUT then .both
  else .none

def to_poll : EventKind → ℕ
  | .none => 0
  | .read => POLLIN
  | .write => POLLOUT
  | .both => POLLIN ||| POLLOUT

theorem to_event_kind_to_poll (e : EventKind) : to_event_kind (to_poll e) = e := by
  cases e <;> decide

end Kuhllib.Toy
