/-
A rename in a tmpfs relabels a subtree.

A name that is moved meets no other: the target was cleared, nothing can stand below what is not
there, and neither of the two paths lies below the other, since a directory cannot move into itself
and a directory that is replaced is empty.
-/
import NixVm.Proofs.TmpfsTree

namespace NixVm.Tmpfs

open Fs AList List

/-- The string of a path and a separator. -/
def Path.str (p : Path) : List Char := p.flatMap fun a => a.toList ++ ['/']

lemma Path.str_prefix_iff {p q : Path} (hp : ∀ a ∈ p, '/' ∉ a.toList)
    (hq : ∀ a ∈ q, '/' ∉ a.toList) : p.str <+: q.str ↔ p <+: q := by
  induction p generalizing q with
  | nil => simp [str]
  | cons a p ih =>
    cases q with
    | nil => simp [str]
    | cons b q =>
      have hstep : str (a :: p) <+: str (b :: q) ↔ a = b ∧ str p <+: str q := by
        simp only [str, flatMap_cons, append_assoc, singleton_append]
        constructor
        · rintro ⟨t, ht⟩
          have ha := hp a mem_cons_self
          have hb := hq b mem_cons_self
          rw [append_assoc, cons_append] at ht
          have hab : a.toList = b.toList := by
            rcases append_eq_append_iff.mp ht with ⟨l, h1, h2⟩ | ⟨l, h1, h2⟩ <;>
              cases l <;> grind
          rw [hab, append_cancel_left_eq, List.cons.injEq] at ht
          exact ⟨String.toList_inj.mp hab, t, ht.2⟩
        · rintro ⟨rfl, t, ht⟩
          exact ⟨t, by simp [← ht]⟩
      rw [hstep, ih (fun a ha => hp a (mem_cons_of_mem _ ha))
        (fun a ha => hq a (mem_cons_of_mem _ ha)), cons_prefix_cons]

lemma Fs.newKey_str (source target r : Path) : (newKey source target (source ++ r)).str =
    target.str ++ (source ++ r).str.drop source.str.length := by
  have happ : ∀ p q : Path, Path.str (p ++ q) = p.str ++ q.str := fun _ _ => flatMap_append
  rw [newKey_append, happ, happ, drop_left]

variable {fs fs₁ : Fs} {source target : Path} {node : Node}

/-- What stood at and below the source stands at the target, and a file the target named has a name
less. -/
structure Fs.Relabelled (fs fs' : Fs) (source target : Path) : Prop where
  moved : ∀ r, fs'.get (target ++ r) = fs.get (source ++ r)
  gone : ∀ r, fs'.get (source ++ r) = none
  others : ∀ k, ¬ source <+: k → ¬ target <+: k → fs'.get k = fs.get k
  replaced : ∀ i f, fs.get target = some (.file i) → fs.files.lookup i = some f →
    fs'.files.lookup i = if f.links = 1 then none else some { f with links := f.links - 1 }
  kept : ∀ i, fs.get target ≠ some (.file i) → fs'.files.lookup i = fs.files.lookup i

lemma Fs.Grounded.cleared (h : fs.Grounded) (hcl : fs.Cleared fs1 target) : fs1.Grounded := by
  intro k n hk hkp
  by_cases hkt : k = target
  · rw [hkt, hcl.get_target] at hk
    cases hk
  rw [hcl.get hkt] at hk
  rw [hcl.get (hcl.childless k n hk hkp)]
  exact h k n hk hkp

lemma Fs.Grounded.get_below (h : fs.Grounded) (hne : target ≠ []) (hnone : fs.get target = none)
    (r : Path) : fs.get (target ++ r) = none := by
  by_cases hr : r = []
  · rw [hr, append_nil]
    exact hnone
  rw [Option.eq_none_iff_forall_ne_some]
  intro n hn
  obtain ⟨i, x, hdir⟩ := h.dir_above hne r n hr hn
  rw [hnone] at hdir
  cases hdir

lemma Fs.MayMove.apart (hm : fs.MayMove source target node) (h : fs.Grounded)
    (hcl : fs.Cleared fs1 target) (hs : source ≠ []) (hne : source ≠ target) {r r' : Path} :
    target ++ r ≠ source ++ r' := by
  intro heq
  rcases append_eq_append_iff.mp heq with ⟨x, hx, -⟩ | ⟨x, hx, -⟩
  · -- the source stands below the target, which was cleared
    have hget : fs1.get source = some node := (hcl.get hne).trans hm.found
    rw [hx, (h.cleared hcl).get_below hcl.ne_root hcl.get_target] at hget
    cases hget
  have hxne : x ≠ [] := by
    rintro rfl
    exact hne (hx.trans (append_nil _)).symm
  have hpar : parentOf target = source ++ x.dropLast := by
    rw [hx]
    exact dropLast_append_of_ne_nil hxne
  refine hm.parent_stays h hcl.ne_root ?_ hpar (absurd · hs)
  rw [hpar]
  exact append_ne_nil_of_left_ne_nil hs _

lemma Fs.Linked.replaced_files (h : fs.Linked) (hcl : fs.Cleared fs1 target)
    (hfs : fs1 = fs ∨ fs1 = fs.removeEntry target) :
    (∀ i f, fs.get target = some (.file i) → fs.files.lookup i = some f →
      fs1.files.lookup i = if f.links = 1 then none else some { f with links := f.links - 1 }) ∧
    ∀ i, fs.get target ≠ some (.file i) → fs1.files.lookup i = fs.files.lookup i := by
  rcases hfs with rfl | rfl
  · refine ⟨?_, fun i _ => rfl⟩
    intro i f hget
    rw [hcl.get_target] at hget
    cases hget
  refine ⟨?_, ?_⟩
  · intro i f hget hf
    rw [h.removeEntry_lookup hget hf, if_pos rfl]
  intro i hi
  cases hget : fs.get target with
  | none => rw [Fs.removeEntry, hget]
  | some n =>
    by_cases hn : ∃ j, n = .file j
    · obtain ⟨j, rfl⟩ := hn
      obtain ⟨f, hf⟩ := h.named target j hget
      rw [h.removeEntry_lookup hget hf, if_neg]
      rintro rfl
      exact hi hget
    · rw [removeEntry_files hget fun j hj => hn ⟨j, hj⟩]

lemma Fs.MayMove.relabelled (hm : fs.MayMove source target node) (h : fs.Grounded)
    (hl : fs.Linked) (hs : source ≠ []) (hne : source ≠ target) (hcl : fs.Cleared fs1 target)
    (hfs : fs1 = fs ∨ fs1 = fs.removeEntry target) :
    fs.Relabelled ((fs1.movedKeys source).foldl (moveKey source target) fs1) source target := by
  have h1 := h.cleared hcl
  have hmov := h1.movable source hcl.get_target hcl.ne_root
  have hget : ∀ k, ((fs1.movedKeys source).foldl (moveKey source target) fs1).get k =
      (Assoc.moveAll (newKey source target) (fs1.movedKeys source) fs1.nodes).lookup k := by
    intro k
    unfold Fs.get
    rw [foldl_moveKey_nodes]
  have hapart : ∀ r r', target ++ r ≠ source ++ r' := fun r r' => hm.apart h hcl hs hne
  have hfiles := (foldl_moveKey_files source target (fs1.movedKeys source) fs1).1
  obtain ⟨hrep, hkept⟩ := hl.replaced_files hcl hfs
  refine ⟨?_, ?_, ?_, ?_, ?_⟩
  · intro r
    have hsr : fs1.get (source ++ r) = fs.get (source ++ r) := by
      refine hcl.get fun heq => hapart [] r ?_
      rw [append_nil, heq]
    rw [hget, ← hsr]
    by_cases hin : source ++ r ∈ fs1.nodes
    · rw [← newKey_append source, hmov.lookup_target (mem_movedKeys_append hs hin)]
      rfl
    rw [get_eq_none_iff.mpr hin, hmov.lookup_other]
    · exact h1.get_below hcl.ne_root hcl.get_target r
    · intro hk
      obtain ⟨-, r', hr', -⟩ := mem_movedKeys hk
      exact hapart r r' hr'
    intro k hk heq
    obtain ⟨hk, r', rfl, -⟩ := mem_movedKeys hk
    rw [newKey_append] at heq
    exact hin (append_cancel_left heq ▸ hk)
  · intro r
    rw [hget]
    by_cases hin : source ++ r ∈ fs1.nodes
    · exact hmov.lookup_source (mem_movedKeys_append hs hin)
    rw [hmov.lookup_other fun hk => hin (mem_movedKeys hk).1]
    · exact get_eq_none_iff.mpr hin
    intro k hk heq
    obtain ⟨-, r', rfl, -⟩ := mem_movedKeys hk
    rw [newKey_append] at heq
    exact hapart r' r heq
  · intro k hks hkt
    rw [hget, hmov.lookup_other]
    · refine hcl.get ?_
      rintro rfl
      exact hkt prefix_rfl
    · intro hk
      obtain ⟨-, r, rfl, -⟩ := mem_movedKeys hk
      exact hks (prefix_append ..)
    intro k' hk' heq
    obtain ⟨-, r, rfl, -⟩ := mem_movedKeys hk'
    rw [newKey_append] at heq
    exact hkt ⟨r, heq⟩
  · rw [hfiles]
    exact hrep
  · rw [hfiles]
    exact hkept

/-- **A rename that succeeds relabels**, and one that fails changes nothing. -/
theorem Fs.rename_relabels (h : fs.Grounded) (hl : fs.Linked) (hs : source ≠ []) :
    (∀ e, (fs.rename source target).1 = .error e → (fs.rename source target).2 = fs) ∧
    ((fs.rename source target).1 = .ok () → source ≠ target → fs.sameFile source target = false →
      fs.Relabelled (fs.rename source target).2 source target) := by
  rcases fs.rename_cases source target with ⟨heq, hok⟩ | ⟨node, fs₁, hm, hne, hr, heq⟩
  · refine ⟨fun _ _ => heq, ?_⟩
    intro h1 hne hsame
    rcases hok h1 with h2 | h2
    · exact absurd h2 hne
    · rw [hsame] at h2
      cases h2
  obtain ⟨hcl, hfs⟩ := replaceTarget_ok h hm.parent hr
  rw [heq]
  exact ⟨nofun, fun _ _ _ => hm.relabelled h hl hs hne hcl hfs⟩

theorem Fs.rename_relabels_over : ∃ fs : Fs, fs.Grounded ∧ fs.Linked ∧
    fs.Relabelled (fs.rename ["a"] ["b"]).2 ["a"] ["b"] ∧
    (fs.rename ["a"] ["b"]).2.get ["b"] = some (.file 2) := by
  have hs := ((Sound.init ⟨5000, 0⟩).create ["a"]).create ["b"]
  have hl := ((Linked.init ⟨5000, 0⟩).create (Sound.init _) ["a"]).create
    ((Sound.init _).create ["a"]) ["b"]
  refine ⟨_, hs.grounded, hl, ?_, rfl⟩
  exact (rename_relabels hs.grounded hl (by decide)).2 (by decide) (by decide) (by decide)

end NixVm.Tmpfs
