/-
A receive that parks can be run again as if it had not been tried, as long as its headers have
nothing for the attempt to change.

`recvmsg` stores the lengths and the flags of a message it did not receive.
`recvmmsg` in addition parks on a later header after it has received into an earlier one. That is
all that can be seen of an attempt that parks, so the condition is exact.
-/
import NixVm.Kernel.Recv

namespace NixVm.Recv

open List

open Pipes (Byte Buffer Reply)

variable {F : Type} {domain : Domain}

/-- The address that a message of nothing is from. -/
def Sock.source : Sock F → Option InetAddr
  | .host _ peer _ => some peer
  | .pair p => p.peer
  | _ => none

variable {s : Sock F} {f : Flags} {h : Option Hdr}

/-! ### Receiving that parks -/

/-- Receiving that parks found nothing, and changed nothing. -/
structure Got.Idle (s : Sock F) (g : Got F) : Prop where
  sock : g.sock = s
  res : g.res = .ok ⟨s.source, [], false, []⟩

def Hdr.bufs (h : Hdr) : List Buffer := h.iov.filterMap id

/-- An attempt with nothing to receive leaves the header as it is. -/
def Hdr.Quiet (h : Hdr) (domain : Domain) (src : Option InetAddr) : Prop :=
  (h.name = 0 ∨ h.namelen = 0 ∨ h.namelen = addrLen domain src) ∧ h.controllen = 0 ∧
    h.truncated = false ∧ h.ctruncated = false

/-- A header as an attempt of `recvmmsg` leaves it that parks. -/
def parked (domain : Domain) (src : Option InetAddr) (h : Option Hdr) : Option Hdr :=
  h.map fun h => { h.fill domain (⟨src, [], false, []⟩ : Msg Unit) with len := 0 }

/-- An open stream with these bytes and descriptors for us, on which calls wait. -/
def stream (data : List Byte) (scm : List (Nat × List Nat)) : Sock Nat :=
  .pair ⟨data, scm, false, true, false, none⟩

/-- A header with one buffer and so much room for control data. -/
def header (controllen : Nat) : Option Hdr :=
  some ⟨0, 0, [some ⟨4, 4⟩], 4096, controllen, false, false, 0⟩

end NixVm.Recv
