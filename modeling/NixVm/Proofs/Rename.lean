/-
A `renameat` that fails has changed nothing, unless it is an exchange that stops after the first of
its three renames: nothing is ever undone. `AllOrNone` says that it does not stop there.
-/
import NixVm.Kernel.Orphan

namespace NixVm.Orphan

variable {m : Mounts} {t t' : Tree} {a b : Path} {flags : Flags} {e : Errno}

/-- Once the first rename of an exchange was made, the other two are. -/
def AllOrNone (m : Mounts) (t : Tree) (a b : Path) : Prop :=
  ∀ t₁, t.rename m a (b.suffixed .exchange) = .ok t₁ →
    ∃ t₂ t₃, t₁.rename m b a = .ok t₂ ∧ t₂.rename m (b.suffixed .exchange) b = .ok t₃

lemma exchange_failed (hall : AllOrNone m t a b) (h : exchange m t a b = (some e, t')) :
    t' = t := by
  unfold exchange at h
  dsimp only at h
  cases h1 : t.rename m a (b.suffixed .exchange) with
  | error e1 =>
    rw [h1] at h
    exact (Prod.mk.inj h).2.symm
  | ok t1 =>
    have ⟨t2, t3, h2, h3⟩ := hall t1 h1
    rw [h1] at h
    dsimp only at h
    rw [h2] at h
    dsimp only at h
    rw [h3] at h
    cases h

lemma sysRenameat_failed (hall : flags.exchange = true → AllOrNone m t a b)
    (h : sysRenameat m t a b flags = (some e, t')) : t' = t := by
  unfold sysRenameat at h
  split at h
  · exact (Prod.mk.inj h).2.symm
  split at h
  next hx =>
    split at h
    · exact (Prod.mk.inj h).2.symm
    · exact exchange_failed (hall hx) h
  · split at h
    · exact (Prod.mk.inj h).2.symm
    · cases h

end NixVm.Orphan
