/-!
# `nstd::file::context`

The operations of the contexts with their arguments, except for the continuation
that gets the result. Pointers to data are numbers, and `κ` are the objects with
the interface `io_base`.
-/

namespace Kuhllib.Context

inductive Operation (κ : Type)
  | cancel (to_cancel : κ)
  | nop
  | timer (time : Nat)
  | accept (fd : Int) (addr len : Nat) (flags : Int)
  | connect (fd : Int) (addr len : Nat)
  | sendmsg (fd : Int) (msg : Nat) (flags : Int)
  | recvmsg (fd : Int) (msg : Nat) (flags : Int)
  | read (fd : Int) (vec size : Nat)
  | write (fd : Int) (vec size : Nat)
  | open_at (fd : Int) (name : Nat) (flags : Int)
  deriving DecidableEq, Repr

/-- The same operation where other objects stand for the continuations. -/
def Operation.map {κ κ' : Type} (f : κ → κ') : Operation κ → Operation κ'
  | .cancel c => .cancel (f c)
  | .nop => .nop
  | .timer time => .timer time
  | .accept fd addr len flags => .accept fd addr len flags
  | .connect fd addr len => .connect fd addr len
  | .sendmsg fd msg flags => .sendmsg fd msg flags
  | .recvmsg fd msg flags => .recvmsg fd msg flags
  | .read fd vec size => .read fd vec size
  | .write fd vec size => .write fd vec size
  | .open_at fd name flags => .open_at fd name flags

end Kuhllib.Context
