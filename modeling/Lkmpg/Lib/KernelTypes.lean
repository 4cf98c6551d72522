import Mathlib.Tactic

/-!
# Bytes and error numbers

The vocabulary the other modules share: a `char` is a `Byte`, and a kernel function that fails
returns a negated `Errno`.
-/

abbrev Byte := BitVec 8

/-- The error numbers the modules return (negated). -/
inductive Errno where
  | EINTR | EAGAIN | ENOMEM | EFAULT | EBUSY | ENODEV | EINVAL | ERANGE | ENOBUFS
  deriving DecidableEq, Repr
