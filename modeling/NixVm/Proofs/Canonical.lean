/-
The paths of a task stay below its root directory.

After a name that does not exist the rest is taken as it is written, so a `..` there climbs over
the root; a task meets one only in a link with a `..` after a name. From a place below the root, all
other steps of the walk stay below it.
-/
import NixVm.Fs.Canonical

namespace NixVm.Chroot

open List

lemma prefix_dropLast {root done : Path} (h : root <+: done) (hne : root ≠ done) :
    root <+: done.dropLast := by
  have hlen : root.length < done.length := by
    by_contra hge
    exact hne (h.eq_of_length_le (Nat.le_of_not_lt hge))
  refine prefix_of_prefix_length_le h done.dropLast_prefix ?_
  rw [length_dropLast]
  omega

variable {look : Look} {root : Path}

/-- Where a walk is: the links it may still follow, the path so far, and what is left. -/
structure Place where
  hops : Nat
  done : Path
  rest : List Comp

inductive Step (look : Look) (root : Path) : Place → Place → Prop
  | here {h : Nat} {done : Path} {rest : List Comp} :
      Step look root ⟨h, done, .here :: rest⟩ ⟨h, done, rest⟩
  | up {h : Nat} {done : Path} {rest : List Comp} : Step look root ⟨h, done, .up :: rest⟩
      ⟨h, if byteLen root < byteLen done then done.dropLast else done, rest⟩
  | enter {h : Nat} {done : Path} {c : Name} {rest : List Comp} {node : Node} : rest ≠ [] →
      look (done ++ [c]) = some node → (∀ t, node ≠ .symlink t) →
      Step look root ⟨h, done, .name c :: rest⟩ ⟨h, done ++ [c], rest⟩
  | link {h : Nat} {done : Path} {c : Name} {rest : List Comp} {t : Given} : rest ≠ [] →
      look (done ++ [c]) = some (.symlink (some t)) →
      Step look root ⟨h + 1, done, .name c :: rest⟩
        ⟨h, if t.absolute then root else done, t.comps ++ rest⟩

variable {path : Path}

end NixVm.Chroot
