/-
Moving a subtree of the namespace, and the paths of descriptors with it.

That a descriptor which is rewritten along with a move names the same node is `Named.fix`, and it
needs that the descriptor was not at the target.
-/
import NixVm.Kernel.Orphan

namespace NixVm.Orphan

open List

variable {m : Mounts} {t t' : Tree} {a b p q : Path} {f : Fd}

def Mounts.NoneBelow (m : Mounts) (p : Path) : Prop := ∀ x, m.pointOf (p ++ x) = m.pointOf p

/-- Paths without links, and mount points that have no hidden name. -/
structure Mounts.Plain (m : Mounts) : Prop where
  canonical : ∀ t p, m.canonical t p = p
  point : ∀ p r, m.pointOf p = some r → r <+: p
  hidden : ∀ p n, m.NoneBelow (p ++ [.orphan n])

structure Moves (m : Mounts) (t : Tree) (a b : Path) : Prop where
  point : m.pointOf b = m.pointOf a
  source : t.node a ≠ none
  apart : ¬a <+: b
  free : ∀ q, b <+: q → q ≠ b → m.pointOf q = m.pointOf b → t.node q = none
  parent : ∃ n, t.node b.dropLast = some n ∧ n.kind = .dir
  kind : ∀ n o, t.node a = some n → t.node b = some o → o.kind ≠ .dir → n.kind ≠ .dir

lemma Tree.inDirectory_ok (h : t.inDirectory p = .ok ()) :
    ∃ n, t.node p.dropLast = some n ∧ n.kind = .dir := by
  unfold Tree.inDirectory at h
  split at h
  · cases h
  rename_i n hn
  split at h
  next hdir => exact ⟨n, hn, hdir⟩
  · cases h

lemma Tree.not_occupied (h : ¬t.occupied m b = true) (hq : b <+: q) (hne : q ≠ b)
    (hpoint : m.pointOf q = m.pointOf b) : t.node q = none := by
  by_contra hnode
  refine h (any_eq_true.mpr ⟨q, t.finite q hnode, ?_⟩)
  simp only [Bool.and_eq_true, decide_eq_true_eq]
  exact ⟨⟨⟨hq, hne⟩, Option.isSome_iff_ne_none.mpr hnode⟩, hpoint⟩

lemma Tree.rename_ok (hm : m.Plain) (hab : a ≠ b) (h : t.rename m a b = .ok t') :
    t' = t.moved m a b ∧ Moves m t a b := by
  unfold Tree.rename at h
  dsimp only at h
  rw [hm.canonical, hm.canonical] at h
  split at h
  · cases h
  split at h
  · cases h
  rename_i hpoint
  split at h
  · cases h
  · cases h
  rename_i n _ hn
  split at h
  · cases h
  rename_i hapart
  split at h
  · cases h
  rename_i hfree
  have hmoves : t.inDirectory b = .ok () →
      (∀ o, t.node b = some o → o.kind ≠ .dir → n.kind ≠ .dir) → Moves m t a b := by
    intro hdir hkind
    refine ⟨(not_not.mp hpoint).symm, by rw [hn]; nofun, hapart,
      fun q hq hne hp => Tree.not_occupied hfree hq hne hp, Tree.inDirectory_ok hdir,
      fun n' o hn' ho hk => ?_⟩
    rw [hn] at hn'
    cases hn'
    exact hkind o ho hk
  split at h
  · cases h
  next hdir hb =>
    cases h
    exact ⟨rfl, hmoves hdir fun o ho => by rw [hb] at ho; cases ho⟩
  rename_i o hdir hb
  split at h
  · cases h
  split at h
  · cases h
  rename_i hkind
  cases h
  refine ⟨rfl, hmoves hdir fun o' ho' hk hd => ?_⟩
  rw [hb] at ho'
  cases ho'
  exact hkind ⟨hk, hd⟩

lemma Tree.rename_self (hm : m.Plain) (h : t.rename m a a = .ok t') : t' = t := by
  unfold Tree.rename at h
  dsimp only at h
  rw [hm.canonical] at h
  split at h
  · cases h
  split at h
  · cases h
  split at h
  · cases h
  · cases h
  rw [if_pos rfl] at h
  cases h
  rfl

lemma Moves.node_below (h : Moves m t a b) (ha : m.NoneBelow a) (hb : m.NoneBelow b)
    (x : Path) : (t.moved m a b).node (b ++ x) = t.node (a ++ x) := by
  change t.movedNode m a b (b ++ x) = _
  unfold Tree.movedNode
  rw [if_neg (not_not.mpr ((hb x).trans h.point)), if_pos (prefix_append b x),
    drop_left, if_pos (ha x)]

lemma Tree.moved_outside (hpa : ¬a <+: p) (hpb : ¬b <+: p) : (t.moved m a b).node p = t.node p := by
  change t.movedNode m a b p = _
  unfold Tree.movedNode
  rw [if_neg hpb, if_neg hpa, ite_self]

lemma Tree.moved_gone (ha : m.NoneBelow a) (hpa : a <+: p) (hpb : ¬b <+: p) :
    (t.moved m a b).node p = none := by
  obtain ⟨x, rfl⟩ := hpa
  change t.movedNode m a b (a ++ x) = _
  unfold Tree.movedNode
  rw [if_neg (not_not.mpr (ha x)), if_neg hpb, if_pos (prefix_append a x)]

lemma Moves.cases (h : Moves m t a b) (ha : m.NoneBelow a) (hb : m.NoneBelow b)
    (hp : (t.moved m a b).node p ≠ none) :
    (∃ x, p = b ++ x ∧ t.node (a ++ x) ≠ none) ∨ (¬a <+: p ∧ ¬b <+: p ∧ t.node p ≠ none) := by
  by_cases hpb : b <+: p
  · obtain ⟨x, rfl⟩ := hpb
    exact .inl ⟨x, rfl, h.node_below ha hb x ▸ hp⟩
  by_cases hpa : a <+: p
  · exact absurd (Tree.moved_gone ha hpa hpb) hp
  · exact .inr ⟨hpa, hpb, Tree.moved_outside hpa hpb ▸ hp⟩

/-- Whatever is there is in a directory. -/
def Tree.Closed (t : Tree) : Prop :=
  ∀ p q, t.node q ≠ none → p <+: q → p ≠ q → ∃ n, t.node p = some n ∧ n.kind = .dir

lemma prefix_dropLast (h : p <+: q) (hne : p ≠ q) : p <+: q.dropLast := by
  rcases eq_nil_or_concat q with rfl | ⟨l, x, rfl⟩
  · exact absurd (prefix_nil.mp h) hne
  rw [concat_eq_append] at h hne ⊢
  rw [dropLast_concat]
  exact (prefix_concat_iff.mp h).resolve_left hne

lemma Tree.Closed.above (hc : t.Closed) (hparent : ∃ n, t.node b.dropLast = some n ∧ n.kind = .dir)
    (hp : p <+: b) (hne : p ≠ b) : ∃ n, t.node p = some n ∧ n.kind = .dir := by
  obtain ⟨n, hn, hdir⟩ := hparent
  by_cases heq : p = b.dropLast
  · exact ⟨n, heq ▸ hn, hdir⟩
  · exact hc p b.dropLast (by rw [hn]; nofun) (prefix_dropLast hp hne) heq

lemma Tree.Closed.moved (hc : t.Closed) (h : Moves m t a b) (ha : m.NoneBelow a)
    (hb : m.NoneBelow b) : (t.moved m a b).Closed := by
  intro p q hq hpq hne
  rcases h.cases ha hb hq with ⟨x, rfl, hx⟩ | ⟨hqa, hqb, hq'⟩
  · by_cases hbp : b <+: p
    · obtain ⟨y, rfl⟩ := hbp
      rw [h.node_below ha hb]
      have hyx : y <+: x := (prefix_append_right_inj b).mp hpq
      exact hc (a ++ y) (a ++ x) hx ((prefix_append_right_inj a).mpr hyx)
        fun heq => hne (by rw [append_cancel_left heq])
    -- above the target nothing moved
    have hcompare := List.prefix_or_prefix_of_prefix hpq (prefix_append b x)
    have hpb : p <+: b := hcompare.resolve_right hbp
    rw [Tree.moved_outside (fun hap => h.apart (hap.trans hpb)) hbp]
    exact hc.above h.parent hpb fun heq => hbp (heq ▸ prefix_rfl)
  · rw [Tree.moved_outside (fun hap => hqa (hap.trans hpq)) fun hbp => hqb (hbp.trans hpq)]
    exact hc p q hq' hpq hne

lemma Tree.Closed.file (hc : t.Closed) {n : Node} (hp : t.node p = some n) (hk : n.kind ≠ .dir)
    (hpq : p <+: q) (hne : q ≠ p) : t.node q = none := by
  by_contra hq
  have ⟨n', hn', hdir⟩ := hc p q hq hpq hne.symm
  rw [hp] at hn'
  cases hn'
  exact hk hdir

lemma Tree.Closed.add (hc : t.Closed) {n : Node} (hp : t.node p = none)
    (hparent : ∃ n, t.node p.dropLast = some n ∧ n.kind = .dir) : (t.set p (some n)).Closed := by
  intro x y hy hxy hne
  change (if y = p then some n else t.node y) ≠ none at hy
  change ∃ n', (if x = p then some n else t.node x) = some n' ∧ _
  by_cases hyp : y = p
  · subst hyp
    rw [if_neg hne]
    exact hc.above hparent hxy hne
  rw [if_neg hyp] at hy
  have ⟨n', hn', hdir⟩ := hc x y hy hxy hne
  rw [if_neg (fun hxp => by rw [hxp, hp] at hn'; cases hn')]
  exact ⟨n', hn', hdir⟩

lemma Tree.Closed.remove (hc : t.Closed) {n : Node} (hp : t.node p = some n)
    (hk : n.kind ≠ .dir) : (t.set p none).Closed := by
  intro x y hy hxy hne
  change (if y = p then none else t.node y) ≠ none at hy
  change ∃ n', (if x = p then none else t.node x) = some n' ∧ _
  by_cases hyp : y = p
  · rw [if_pos hyp] at hy
    exact absurd rfl hy
  rw [if_neg hyp] at hy
  have ⟨n', hn', hdir⟩ := hc x y hy hxy hne
  refine ⟨n', ?_, hdir⟩
  rwa [if_neg]
  rintro rfl
  rw [hp] at hn'
  cases hn'
  exact hk hdir

lemma names_imp (h : names p q = true) : q <+: p := by
  unfold names at h
  simp only [Bool.or_eq_true, Bool.and_eq_true, decide_eq_true_eq] at h
  rcases h with rfl | h
  · exact prefix_rfl
  · exact List.isPrefixOf_iff_prefix.mp h.2

lemma names_of_below (hq : q ≠ []) (h : q <+: p) : names p q = true := by
  unfold names
  simp only [Bool.or_eq_true, Bool.and_eq_true, decide_eq_true_eq]
  exact .inr ⟨hq, List.isPrefixOf_iff_prefix.mpr h⟩

lemma names_self (p : Path) : names p p = true := by simp [names]

def Named (t : Tree) (f : Fd) : Prop := f.dir = false → t.node f.path = some ⟨.file, f.node⟩

lemma Moves.ne_nil (h : Moves m t a b) : a ≠ [] := fun h0 => h.apart (h0 ▸ List.nil_prefix)

lemma Named.fix (h : Named t f) (hmv : Moves m t a b) (ha : m.NoneBelow a)
    (hb : m.NoneBelow b) (hfree : f.dir = false → f.path ≠ b) :
    Named (t.moved m a b) (State.fix a b f) := by
  by_cases hn : names f.path a = true
  · intro hd
    unfold State.fix at hd ⊢
    rw [if_pos hn] at hd ⊢
    have ⟨x, hx⟩ := names_imp hn
    rw [Tree.rebase, ← hx, drop_left, hmv.node_below ha hb, hx]
    exact h hd
  intro hd
  unfold State.fix at hd ⊢
  rw [if_neg hn] at hd ⊢
  have hfb : ¬b <+: f.path := by
    intro hp
    have hpoint : m.pointOf f.path = m.pointOf b := by
      obtain ⟨x, hx⟩ := hp
      rw [← hx, hb x]
    have hnone := hmv.free f.path hp (hfree hd) hpoint
    rw [h hd] at hnone
    cases hnone
  rw [Tree.moved_outside (fun hp => hn (names_of_below hmv.ne_nil hp)) hfb]
  exact h hd

end NixVm.Orphan
