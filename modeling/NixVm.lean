import NixVm.Proofs.Passthrough
import NixVm.Proofs.UserNs
import NixVm.Proofs.Seccomp
import NixVm.Proofs.SigFrame
import NixVm.Proofs.Pipe
import NixVm.Proofs.Write
import NixVm.Proofs.Recv
import NixVm.Proofs.Flight
import NixVm.Proofs.Ns
import NixVm.Proofs.Canonical
import NixVm.Proofs.Tables
import NixVm.Proofs.Forks
import NixVm.Proofs.Fcntl
import NixVm.Proofs.TmpfsTree
import NixVm.Proofs.Disk
import NixVm.Proofs.OverlayTree
import NixVm.Proofs.Close
import NixVm.Proofs.Deadline
import NixVm.Proofs.Epoll
import NixVm.Proofs.Futex
import NixVm.Proofs.Orphan
import NixVm.Proofs.PageCache
import NixVm.Proofs.Merge
import NixVm.Proofs.PidNs
import NixVm.Proofs.Cgroup
import NixVm.Proofs.Mmap
import NixVm.Proofs.Clone
import NixVm.Proofs.Ports
import NixVm.Proofs.Openat2
import NixVm.Proofs.Cover
import NixVm.Proofs.Sem
import NixVm.Proofs.TmpfsRename
import NixVm.Proofs.Wire
import NixVm.Proofs.Ptimer
import NixVm.Proofs.X86Shift
import NixVm.Proofs.Fair
import NixVm.Proofs.Crypto
