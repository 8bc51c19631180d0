/-
The error numbers the modelled system calls return (`src/abi/errno.rs`).
-/
import Mathlib

namespace NixVm

inductive Errno
  | eperm
  | enoent
  | esrch
  | eintr
  | eio
  | ebadf
  | eagain
  | eacces
  | efault
  | ebusy
  | eexist
  | enotdir
  | eisdir
  | einval
  | efbig
  | enospc
  | erofs
  | epipe
  | enosys
  | enotempty
  | eloop
  | eoverflow
  | enodata
  | emsgsize
  | enotconn
  | enotsock
  | eopnotsupp
  | eafnosupport
  | eaddrinuse
  | eaddrnotavail
  | enetunreach
  | enobufs
  | eisconn
  | econnrefused
  | ealready
  | einprogress
  | enodev
  | econnreset
  | eprotonosupport
  | enomem
  | edeadlk
  | etimedout
  | exdev
  | enoexec
  | e2big
  | erange
  deriving DecidableEq, Repr

end NixVm
