/-! # Error numbers

The error numbers that the modelled calls return. A call that returns zero is
modelled by `none`.
-/

namespace LinuxKernel

/-- Error numbers, with the sign of the source dropped. -/
inductive Errno where
  | enoent
  | eagain
  | enomem
  | ebusy
  | eexist
  | einval
  | erange
  | edeadlk
  | enolck
  | efbig
  | enospc
  | ebadmsg
  deriving DecidableEq, Repr

end LinuxKernel
