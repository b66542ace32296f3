/-!
# Completion signals

How a sender completes its receiver: `set_value` with values, `set_error` with
an error, or `set_stopped`. `Tag` is the completion function alone.
-/

namespace Kuhllib

inductive Signal (ν ε : Type)
  | value (vs : List ν)
  | error (e : ε)
  | stopped
  deriving DecidableEq, Repr

inductive Tag
  | set_value
  | set_error
  | set_stopped
  deriving DecidableEq, Repr

end Kuhllib
