/-
An open descriptor goes on naming its file.

A descriptor names its file by the path, and what has to be shown is that whenever a subtree moves
the paths move with it, and that nothing is put where an open file is.
-/
import NixVm.Proofs.Moves
import NixVm.Proofs.Rename

namespace NixVm.Orphan

open List State

variable {g : Name → Name}

variable {m : Mounts} {t t' : Tree} {s s' : State} {a b p q : Path} {f : Fd}

/-! ### The invariant -/

def State.all (s : State) : List Fd := s.seen ++ s.away.flatten

def Hidden (p : Path) : Prop := ∃ n, p.getLast? = some (.orphan n)

def Visible (p : Path) : Prop := ∀ n, .orphan n ∉ p

lemma Visible.not_hidden (h : Visible p) : ¬Hidden p :=
  fun ⟨n, hn⟩ => h n (mem_of_getLast? hn)

/-- Descriptors name their files, and the hidden names, `extra` apart, are those of open orphans.
-/
structure State.Kept (s : State) (extra : Path → Prop) : Prop where
  closed : s.tree.Closed
  fds : ∀ f ∈ s.all, Named s.tree f
  files : ∀ o ∈ s.orphans, ∃ n, s.tree.node o = some n ∧ n.kind ≠ .dir
  numbered : ∀ o ∈ s.orphans, ∃ n < s.seq, o.getLast? = some (.orphan n)
  isOpen : ∀ o ∈ s.orphans, ∃ f ∈ s.all, o <+: f.path
  only : ∀ q, Hidden q → s.tree.node q ≠ none → q ∈ s.orphans ∨ extra q

abbrev State.Inv (s : State) : Prop := s.Kept fun _ => False

lemma State.Inv.hidden_mem (h : s.Inv) (hq : Hidden q) (hn : s.tree.node q ≠ none) :
    q ∈ s.orphans := (h.only q hq hn).resolve_right id

lemma State.Kept.hidden {extra : Path → Prop} (h : s.Kept extra) {o : Path}
    (ho : o ∈ s.orphans) : Hidden o := by
  obtain ⟨n, -, hn⟩ := h.numbered o ho
  exact ⟨n, hn⟩

lemma State.Inv.seq_mono (h : s.Inv) {n : Nat} (hn : s.seq ≤ n) :
    State.Inv { s with seq := n } := by
  refine ⟨h.closed, h.fds, h.files, fun o ho => ?_, h.isOpen, h.only⟩
  obtain ⟨k, hk, hlast⟩ := h.numbered o ho
  exact ⟨k, lt_of_lt_of_le hk hn, hlast⟩

lemma State.all_of_alone (h : s.away = []) : s.all = s.seen := by
  rw [all, h, flatten_nil, append_nil]

lemma State.seen_repoint : (s.repoint a b).seen = s.seen.map (fix a b) := by
  simp only [seen, repoint, map_append, map_flatten]

lemma Moves.orphan (hmv : Moves m s.tree a b) (hb : m.NoneBelow b) {o : Path} {n : Node}
    (ho : s.tree.node o = some n) (hoa : ¬a <+: o) (hob : o ≠ b) :
    (s.tree.moved m a b).node o = s.tree.node o := by
  refine Tree.moved_outside hoa fun hp => ?_
  have hnone := hmv.free o hp hob (by obtain ⟨x, hx⟩ := hp; rw [← hx, hb x])
  rw [ho] at hnone
  cases hnone

lemma State.Inv.moved (h : s.Inv) (haway : s.away = []) (hmv : Moves m s.tree a b)
    (ha : m.NoneBelow a) (hb : m.NoneBelow b) (hvis : Visible a)
    (hclear : ∀ o ∈ s.orphans, ¬a <+: o)
    (hfree : ∀ f ∈ s.seen, f.dir = false → f.path ≠ b) (hbo : b ∉ s.orphans) :
    (({ s with tree := s.tree.moved m a b } : State).repoint a b).Kept (· = b) := by
  have hall : (({ s with tree := s.tree.moved m a b } : State).repoint a b).all =
      s.seen.map (fix a b) := by
    rw [all_of_alone (by exact haway), seen_repoint]
    rfl
  refine ⟨h.closed.moved hmv ha hb, fun f hf => ?_, fun o ho => ?_, h.numbered, fun o ho => ?_,
    fun q hq hn => ?_⟩
  · rw [hall] at hf
    obtain ⟨g, hg, rfl⟩ := mem_map.mp hf
    exact (h.fds g (mem_append_left _ hg)).fix hmv ha hb (hfree g hg)
  · obtain ⟨n, hn, hk⟩ := h.files o ho
    refine ⟨n, ?_, hk⟩
    change (s.tree.moved m a b).node o = some n
    rw [hmv.orphan hb hn (hclear o ho) fun heq => hbo (heq ▸ ho), hn]
  · obtain ⟨f, hf, hpre⟩ := h.isOpen o ho
    rw [all_of_alone haway] at hf
    rw [hall]
    refine ⟨fix a b f, mem_map_of_mem hf, ?_⟩
    unfold fix
    split
    · -- then `a` would be below an orphan, or an orphan below `a`
      rename_i hname
      rcases prefix_or_prefix_of_prefix hpre (names_imp hname) with hoa | hao
      · obtain ⟨n, -, hn⟩ := h.numbered o ho
        exact absurd (hoa.subset (mem_of_getLast? hn)) (hvis n)
      · exact absurd hao (hclear o ho)
    · exact hpre
  rcases hmv.cases ha hb hn with ⟨x, rfl, hx⟩ | ⟨-, -, hn'⟩
  · by_cases hx0 : x = []
    · exact .inr (by rw [hx0, append_nil])
    obtain ⟨n, hlast⟩ := hq
    have hlast' : (a ++ x).getLast? = some (.orphan n) := by
      rw [List.getLast?_append] at hlast ⊢
      cases hz : x.getLast? with
      | none => exact absurd (List.getLast?_eq_none_iff.mp hz) hx0
      | some z =>
        rw [hz] at hlast
        exact hlast
    exact absurd (prefix_append a x) (hclear _ (h.hidden_mem ⟨n, hlast'⟩ hx))
  · exact .inl (h.hidden_mem hq hn')

/-! ### Moving a file to a hidden name -/

lemma State.orphanMove_ok (hm : m.Plain) {hidden : Path}
    (h : s.orphanMove m p = .ok (hidden, t)) : ∃ d n, hidden = d ++ [.orphan n] ∧
      d <+: p ∧ s.seq ≤ n ∧ n < s.seq + 2 ∧ s.tree.rename m p hidden = .ok t := by
  unfold orphanMove orphanHomes at h
  dsimp only at h
  rw [hm.canonical] at h
  split at h
  next t' hr =>
    cases h
    refine ⟨_, s.seq, rfl, ?_, le_rfl, by omega, hr⟩
    cases hpoint : m.pointOf p.dropLast with
    | none => exact nil_prefix
    | some r => exact (hm.point _ r hpoint).trans (List.dropLast_prefix p)
  · split at h
    next t' hr =>
      cases h
      exact ⟨p.dropLast, s.seq + 1, rfl, dropLast_prefix p, by omega, by omega, hr⟩
    · cases h

lemma State.isFile_iff (hm : m.Plain) : s.isFile m p = true ↔
    ∃ n, s.tree.node p = some n ∧ n.kind ≠ .dir := by
  unfold isFile Tree.stat
  rw [hm.canonical]
  constructor
  · intro h
    split at h
    next n hn =>
      exact ⟨n, hn, by simpa using h⟩
    · cases h
  · rintro ⟨n, hn, hk⟩
    rw [hn]
    simpa using hk

section

variable (hm : m.Plain) (h : s.Inv)
include hm h

lemma State.Inv.keep (haway : s.away = []) (hvis : Visible p)
    (hp : m.NoneBelow p) (hfile : s.isFile m p = true) (hopen : s.pathIsOpen p = true)
    {hidden : Path} (hmove : s.orphanMove m p = .ok (hidden, t)) : (s.keep p hidden t).Inv := by
  obtain ⟨d, k, rfl, -, hk, hk', hr⟩ := orphanMove_ok hm hmove
  obtain ⟨n, hn, hkind⟩ := (isFile_iff hm).mp hfile
  have hlast : (d ++ [Name.orphan k]).getLast? = some (.orphan k) := List.getLast?_concat
  -- the number is new, so the name is
  have hfresh : s.tree.node (d ++ [.orphan k]) = none := by
    by_contra hne
    obtain ⟨j, hj, hjl⟩ := h.numbered _ (h.hidden_mem ⟨k, hlast⟩ hne)
    rw [hlast] at hjl
    cases hjl
    omega
  have hpne : p ≠ d ++ [.orphan k] := fun heq => by
    rw [← heq, hn] at hfresh
    cases hfresh
  obtain ⟨rfl, hmv⟩ := Tree.rename_ok hm hpne hr
  have hs := h.seq_mono (Nat.le_add_right s.seq 2)
  have hkept := hs.moved haway hmv hp (hm.hidden d k) hvis
    (fun o ho hpo => by
      obtain ⟨n', hn', -⟩ := h.files o ho
      have hne : o ≠ p := fun heq => hvis.not_hidden (heq ▸ h.hidden ho)
      rw [h.closed.file hn hkind hpo hne] at hn'
      cases hn')
    (fun f hf hd heq => by
      have hf' := h.fds f (mem_append_left _ hf) hd
      rw [heq, hfresh] at hf'
      cases hf')
    (fun hmem => by
      obtain ⟨n', hn', -⟩ := h.files _ hmem
      rw [hfresh] at hn'
      cases hn')
  refine ⟨hkept.closed, hkept.fds, fun o ho => ?_, fun o ho => ?_, fun o ho => ?_, fun q hq hne => ?_⟩
  · rcases mem_cons.mp ho with rfl | ho
    · refine ⟨n, ?_, hkind⟩
      have hbelow := hmv.node_below hp (hm.hidden d k) []
      rw [append_nil, append_nil] at hbelow
      exact hbelow.trans hn
    · exact hkept.files o ho
  · rcases mem_cons.mp ho with rfl | ho
    · exact ⟨k, hk', hlast⟩
    · exact hkept.numbered o ho
  · rcases mem_cons.mp ho with rfl | ho
    · obtain ⟨f, hf, hname⟩ := any_eq_true.mp hopen
      refine ⟨fix p (d ++ [.orphan k]) f, mem_append_left _ ?_, ?_⟩
      · change _ ∈ (repoint ..).seen
        rw [seen_repoint]
        exact mem_map_of_mem hf
      unfold fix
      rw [if_pos hname]
      exact prefix_append ..
    · exact hkept.isOpen o ho
  · rcases hkept.only q hq hne with hmem | rfl
    · exact .inl (mem_cons_of_mem _ hmem)
    · exact .inl mem_cons_self

/-! ### The calls -/

lemma State.Inv.sysUnlink (haway : s.away = []) (hvis : Visible p)
    (hp : m.NoneBelow p) : (s.sysUnlink m p).2.Inv := by
  unfold State.sysUnlink
  split
  next hopen =>
    rw [Bool.and_eq_true] at hopen
    split
    next hidden t hmove =>
      exact h.keep hm haway hvis hp hopen.1 hopen.2 hmove
    · exact h.seq_mono (Nat.le_add_right s.seq 2)
  rename_i hopen
  rw [Bool.and_eq_true, not_and] at hopen
  split
  next t hun =>
    unfold Tree.unlink Tree.stat at hun
    rw [hm.canonical] at hun
    split at hun
    · cases hun
    rename_i n hn
    split at hun
    · cases hun
    rename_i hk
    cases hun
    have hclosed := hopen ((State.isFile_iff hm).mpr ⟨n, hn, hk⟩)
    refine ⟨h.closed.remove hn hk, fun f hf hd => ?_, fun o ho => ?_, h.numbered, h.isOpen,
      fun q hq hne => ?_⟩
    · change (if f.path = p then none else s.tree.node f.path) = _
      rw [if_neg]
      · exact h.fds f hf hd
      intro heq
      have hf' : f ∈ s.seen := State.all_of_alone haway ▸ hf
      exact hclosed (any_eq_true.mpr ⟨f, hf', heq ▸ names_self f.path⟩)
    · obtain ⟨n', hn', hk'⟩ := h.files o ho
      refine ⟨n', ?_, hk'⟩
      change (if o = p then none else s.tree.node o) = _
      rw [if_neg (fun heq : o = p => hvis.not_hidden (heq ▸ h.hidden ho))]
      exact hn'
    change (if q = p then none else s.tree.node q) ≠ none at hne
    split at hne
    · exact absurd rfl hne
    · exact h.only q hq hne
  · exact h

lemma State.Inv.target_free (hmv : Moves m s.tree a b) {flags : Flags}
    (hrep : ¬s.replacesOpen m a b flags = true) (hno : ¬(flags.noreplace = true ∧
      (s.tree.stat m b).isSome = true)) : ∀ f ∈ s.seen, f.dir = false → f.path ≠ b := by
  rintro f hf hd rfl
  have hnode := h.fds f (mem_append_left _ hf) hd
  refine hrep ?_
  unfold replacesOpen
  have hfile : s.isFile m f.path = true := (isFile_iff hm).mpr ⟨_, hnode, nofun⟩
  have hsource : s.isFile m a = true := by
    obtain ⟨n, hn⟩ := Option.ne_none_iff_exists'.mp hmv.source
    exact (isFile_iff hm).mpr ⟨n, hn, hmv.kind n _ hn hnode nofun⟩
  have hopen : s.pathIsOpen f.path = true := any_eq_true.mpr ⟨f, hf, names_self f.path⟩
  have hflag : flags.noreplace = false := by
    by_contra htrue
    refine hno ⟨by simpa using htrue, ?_⟩
    unfold Tree.stat
    rw [hm.canonical, hnode]
    rfl
  rw [hfile, hsource, hopen, hflag]
  rfl

omit hm h in
lemma sysRenameat_ok {flags : Flags} (hx : flags.exchange = false)
    (h : sysRenameat m t a b flags = (none, t')) :
    ¬(flags.noreplace = true ∧ (t.stat m b).isSome = true) ∧ t.rename m a b = .ok t' := by
  unfold sysRenameat at h
  split at h
  · cases h
  rename_i hno
  rw [if_neg (by rw [hx]; nofun)] at h
  split at h
  · cases h
  rename_i t'' hr
  cases h
  exact ⟨hno, hr⟩

lemma State.Inv.renamed (haway : s.away = []) (hab : a ≠ b)
    (ha : m.NoneBelow a) (hb : m.NoneBelow b) (hva : Visible a) (hvb : Visible b)
    (hclear : s.tree.rename m a b = .ok t → ∀ o ∈ s.orphans, ¬a <+: o)
    (hfree : s.tree.rename m a b = .ok t → ∀ f ∈ s.seen, f.dir = false → f.path ≠ b)
    (hr : s.tree.rename m a b = .ok t) : (({ s with tree := t } : State).repoint a b).Inv := by
  obtain ⟨rfl, hmv⟩ := Tree.rename_ok hm hab hr
  have hkept := h.moved haway hmv ha hb hva (hclear hr) (hfree hr)
    fun hmem => hvb.not_hidden (h.hidden hmem)
  refine ⟨hkept.closed, hkept.fds, hkept.files, hkept.numbered, hkept.isOpen, fun q hq hne => ?_⟩
  rcases hkept.only q hq hne with hmem | rfl
  · exact .inl hmem
  · exact absurd hq hvb.not_hidden

/-- No mount point and no orphan is below what is moved, and an open target can be moved aside. -/
structure State.CleanRename (m : Mounts) (s : State) (a b : Path) (flags : Flags) : Prop where
  source : Visible a
  target : Visible b
  below : m.NoneBelow a
  below' : m.NoneBelow b
  clear : ∀ o ∈ s.orphans, ¬a <+: o
  aside : s.replacesOpen m a b flags = true → ∃ hidden t, s.orphanMove m b = .ok (hidden, t)

lemma State.Inv.setAside (haway : s.away = []) {flags : Flags}
    (hc : s.CleanRename m a b flags) (hrep : s.replacesOpen m a b flags = true) :
    ∃ d n t, s.setAside m a b flags = s.keep b (d ++ [.orphan n]) t ∧ d <+: b ∧
      (s.setAside m a b flags).Inv := by
  obtain ⟨hidden, t, hmove⟩ := hc.aside hrep
  obtain ⟨d, n, rfl, hd, -⟩ := State.orphanMove_ok hm hmove
  have hkeep : s.setAside m a b flags = s.keep b (d ++ [.orphan n]) t := by
    unfold State.setAside
    rw [if_pos hrep, hmove]
  refine ⟨d, n, t, hkeep, hd, hkeep ▸ ?_⟩
  unfold State.replacesOpen at hrep
  simp only [Bool.and_eq_true] at hrep
  exact h.keep hm haway hc.target hc.below' hrep.1.1.2 hrep.2 hmove

end

/-! ### Exchanges -/

lemma State.Inv.congr (h : s.Inv) (ht : s'.tree = s.tree) (ho : s'.orphans = s.orphans)
    (hs : s'.seq = s.seq) (hall : ∀ f, f ∈ s'.all ↔ f ∈ s.all) : s'.Inv := by
  refine ⟨ht ▸ h.closed, fun f hf => ?_, ?_, ?_, fun o hmem => ?_, ?_⟩
  · rw [ht]
    exact h.fds f ((hall f).mp hf)
  · rw [ht, ho]
    exact h.files
  · rw [ho, hs]
    exact h.numbered
  · obtain ⟨f, hf, hpre⟩ := h.isOpen o (ho ▸ hmem)
    exact ⟨f, (hall f).mpr hf, hpre⟩
  · rw [ht, ho]
    exact h.only

/-- The temporary names of an exchange, on disk and in the descriptors. -/
def Path.tmpName (b : Path) : Path := b.suffixed .exchange

def Path.swapName (b : Path) : Path := b.suffixed .swap

/-- An exchange is whole or not made, its temporary names are free, and both paths are clean. -/
structure State.CleanExchange (m : Mounts) (s : State) (a b : Path) : Prop where
  ne : a ≠ b
  source : Visible a
  target : Visible b
  below : m.NoneBelow a
  below' : m.NoneBelow b
  belowTmp : m.NoneBelow b.tmpName
  clear : ∀ o ∈ s.orphans, ¬a <+: o ∧ ¬b <+: o
  whole : AllOrNone m s.tree a b
  free : s.tree.node b.tmpName = none
  spare : ∀ f ∈ s.all, ¬b.tmpName <+: f.path ∧ ¬b.swapName <+: f.path
  spare' : ¬b.swapName <+: a

lemma suffixed_dropLast : (b.suffixed g).dropLast = b.dropLast := by
  rw [Path.suffixed, dropLast_concat]

lemma suffixed_ne (hg : ∀ n, g n ≠ n) : b.suffixed g ≠ b := by
  rcases eq_nil_or_concat b with rfl | ⟨l, z, rfl⟩
  · exact cons_ne_nil _ _
  rw [concat_eq_append, Path.suffixed, dropLast_concat, List.getLast?_concat]
  intro heq
  exact hg z (List.cons.inj (append_cancel_left heq)).1

lemma Name.swap_ne (n : Name) : Name.swap n ≠ n := by
  intro h
  have := congrArg sizeOf h
  simp at this

lemma suffixed_length (hb : b ≠ []) : (b.suffixed g).length = b.length := by
  have hlen := length_pos_iff.mpr hb
  rw [Path.suffixed, length_append, length_dropLast, length_singleton]
  omega

lemma Visible.tmpName (h : Visible b) : Visible b.tmpName := by
  intro n hn
  rcases mem_append.mp hn with hn | hn
  · exact h n (mem_of_mem_dropLast hn)
  · cases mem_singleton.mp hn

lemma not_above_of_suffixed (hab : a ≠ b) (h : ¬a <+: b.suffixed g) : ¬a <+: b := by
  intro hpre
  have hdir := prefix_dropLast hpre hab
  rw [← suffixed_dropLast (g := g)] at hdir
  exact h (hdir.trans (List.dropLast_prefix _))

lemma not_above_sibling {c x : Path} (hlen : b.length = c.length) (hne : b ≠ c) :
    ¬b <+: c ++ x := by
  intro h
  rcases prefix_or_prefix_of_prefix h (prefix_append c x) with hbc | hcb
  · exact hne (hbc.eq_of_length hlen)
  · exact hne (hcb.eq_of_length hlen.symm).symm

lemma fix_path (ha : a ≠ []) : fix a b f =
    if a <+: f.path then { f with path := Tree.rebase a b f.path } else f := by
  unfold fix
  by_cases hn : names f.path a = true
  · rw [if_pos hn, if_pos (names_imp hn)]
  · rw [if_neg hn, if_neg fun hp => hn (names_of_below ha hp)]

lemma fix_swap_source {c : Path} (ha : a ≠ []) (hb : b ≠ []) (hc : c ≠ [])
    (hlen : b.length = c.length) (hne : b ≠ c) (hf : a <+: f.path) : fix c b (fix b a (fix a c f)) =
      { f with path := Tree.rebase a b f.path } := by
  have hout : ¬b <+: ({ f with path := Tree.rebase a c f.path } : Fd).path :=
    not_above_sibling hlen hne
  have hin : c <+: ({ f with path := Tree.rebase a c f.path } : Fd).path := prefix_append c _
  rw [fix_path ha, if_pos hf, fix_path hb, if_neg hout, fix_path hc, if_pos hin]
  unfold Tree.rebase
  rw [drop_left]

lemma fix_swap_other {c : Path} (ha : a ≠ []) (hb : b ≠ []) (hc : c ≠ [])
    (hca : ¬c <+: a) (hac : ¬a <+: c) (hfc : ¬c <+: f.path) (hf : ¬a <+: f.path) :
    fix c b (fix b a (fix a c f)) = fix b a f := by
  rw [fix_path ha, if_neg hf, fix_path hc, if_neg]
  rw [fix_path hb]
  split
  · intro hpre
    rcases prefix_or_prefix_of_prefix hpre (prefix_append a _) with h | h
    · exact hca h
    · exact hac h
  · exact hfc

lemma State.Inv.exchanged (hm : m.Plain) (h : s.Inv) (haway : s.away = [])
    (hc : s.CleanExchange m a b) (ha : s.tree.node a ≠ none) (hb : s.tree.node b ≠ none)
    (hx : exchange m s.tree a b = (none, t)) :
    (((({ s with tree := t } : State).repoint a b.swapName).repoint b a).repoint b.swapName b).Inv := by
  unfold exchange at hx
  dsimp only at hx
  split at hx
  · cases hx
  rename_i t1 h1
  split at hx
  · cases hx
  rename_i t2 h2
  split at hx
  · cases hx
  rename_i t3 h3
  cases hx
  change s.tree.rename m a b.tmpName = .ok t1 at h1
  change t2.rename m b.tmpName b = .ok t at h3
  have hnotmp : ∀ q, s.tree.node q ≠ none → ¬b.tmpName <+: q := by
    intro q hq hpre
    by_cases heq : b.tmpName = q
    · exact hq (heq ▸ hc.free)
    obtain ⟨n, hn, -⟩ := h.closed _ q hq hpre heq
    rw [hc.free] at hn
    cases hn
  have hne : a ≠ b.tmpName := fun heq => ha (heq ▸ hc.free)
  obtain ⟨-, hmv1⟩ := Tree.rename_ok hm hne h1
  have hbt : b ≠ b.tmpName := fun heq => hb (heq ▸ hc.free)
  have hnb : b ≠ [] := by
    rintro rfl
    obtain ⟨-, hmv2⟩ := Tree.rename_ok hm hc.ne.symm h2
    exact hmv2.ne_nil rfl
  have hab : ¬a <+: b := not_above_of_suffixed hc.ne hmv1.apart
  have hta : ¬b.tmpName <+: a := hnotmp a hmv1.source
  have hlen : b.length = b.tmpName.length := (suffixed_length hnb).symm
  have htnil : b.tmpName ≠ [] := fun h0 => hnb (length_eq_zero_iff.mp (by rw [hlen, h0]; rfl))
  -- the three renames, with the name on disk for the descriptors too
  have hi1 := h.renamed hm haway hne hc.below hc.belowTmp hc.source hc.target.tmpName
    (fun _ o ho => (hc.clear o ho).1)
    (fun _ f hf _ heq => (hc.spare f (mem_append_left _ hf)).1 (heq ▸ prefix_rfl)) h1
  have hi2 := hi1.renamed hm haway hc.ne.symm hc.below' hc.below hc.target hc.source
    (fun _ o ho => (hc.clear o ho).2)
    (fun _ f hf _ heq => by
      rw [seen_repoint] at hf
      obtain ⟨g, -, rfl⟩ := mem_map.mp hf
      rw [fix_path hmv1.ne_nil] at heq
      split at heq
      · exact hta (heq ▸ prefix_append b.tmpName _)
      rename_i hg
      exact hg (heq ▸ prefix_rfl)) h2
  have hi3 := hi2.renamed hm haway hbt.symm hc.belowTmp hc.below' hc.target.tmpName hc.target
    (fun _ o ho => hnotmp o (by
      obtain ⟨n, hn, -⟩ := h.files o ho
      rw [hn]
      exact Option.some_ne_none n))
    (fun _ f hf _ heq => by
      rw [seen_repoint] at hf
      obtain ⟨g, -, rfl⟩ := mem_map.mp hf
      rw [fix_path hnb] at heq
      split at heq
      · exact hab (heq ▸ prefix_append a _)
      rename_i hg
      exact hg (heq ▸ prefix_rfl)) h3
  -- and with the one in the descriptors only
  have hsame : ∀ f ∈ s.seen,
      fix b.swapName b (fix b a (fix a b.swapName f)) =
        fix b.tmpName b (fix b a (fix a b.tmpName f)) := by
    intro f hf
    obtain ⟨hft, hfa⟩ := hc.spare f (mem_append_left _ hf)
    have hlen' : b.length = b.swapName.length := (suffixed_length hnb).symm
    have hanil : b.swapName ≠ [] := fun h0 => hnb (length_eq_zero_iff.mp (by rw [hlen', h0]; rfl))
    have hba : b ≠ b.swapName := (suffixed_ne Name.swap_ne).symm
    have hal : ¬a <+: b.swapName := by
      intro hpre
      by_cases heq : a = b.swapName
      · exact hc.spare' (heq ▸ prefix_rfl)
      have hdir := prefix_dropLast hpre heq
      rw [Path.swapName, suffixed_dropLast] at hdir
      exact hab (hdir.trans (List.dropLast_prefix b))
    by_cases hfa' : a <+: f.path
    · rw [fix_swap_source hmv1.ne_nil hnb hanil hlen' hba hfa',
        fix_swap_source hmv1.ne_nil hnb htnil hlen hbt hfa']
    · rw [fix_swap_other hmv1.ne_nil hnb hanil hc.spare' hal hfa hfa',
        fix_swap_other hmv1.ne_nil hnb htnil hta hmv1.apart hft hfa']
  have hseen : ∀ (c : Path) (u u1 u2 : Tree), (repoint { repoint { repoint
      { s with tree := u } a c with tree := u1 } b a with tree := u2 } c b).seen =
      s.seen.map fun f => fix c b (fix b a (fix a c f)) := by
    intro c u u1 u2
    rw [seen_repoint]
    change ((repoint _ b a).seen).map _ = _
    rw [seen_repoint]
    change (((repoint _ a c).seen).map _).map _ = _
    rw [seen_repoint, map_map, map_map]
    rfl
  refine hi3.congr rfl rfl rfl fun f => ?_
  rw [all_of_alone (by exact haway), all_of_alone (by exact haway), hseen b.tmpName t1 t2 t]
  change f ∈ (repoint { repoint { repoint { s with tree := t } a b.swapName with
    tree := t } b a with tree := t } b.swapName b).seen ↔ _
  rw [hseen b.swapName t t t, map_congr_left hsame]

lemma sysRenameat_exchange {flags : Flags} (hx : flags.exchange = true)
    (h : sysRenameat m t a b flags = (none, t')) :
    t.stat m a ≠ none ∧ t.stat m b ≠ none ∧ exchange m t a b = (none, t') := by
  unfold sysRenameat at h
  split at h
  · cases h
  split at h
  · cases h
  rename_i hboth
  rw [not_or, Option.isNone_iff_eq_none, Option.isNone_iff_eq_none] at hboth
  exact ⟨hboth.1, hboth.2, h⟩

section

variable (hm : m.Plain)
include hm

lemma State.Inv.sysRename (h : s.Inv) (haway : s.away = []) {flags : Flags} {old new : Option Path}
    (hc : ∀ a b, old = some a → new = some b →
      if flags.exchange then s.CleanExchange m a b else s.CleanRename m a b flags) :
    (s.sysRename m old new flags).2.Inv := by
  unfold State.sysRename
  split
  · exact h
  split
  swap
  · exact h
  rename_i a b
  have hc := hc a b rfl rfl
  cases hx : flags.exchange with
  | true =>
    rw [if_pos hx] at hc
    rw [if_pos (.inr rfl)]
    rcases hr : sysRenameat m s.tree a b flags with ⟨r, t⟩
    dsimp only
    cases r with
    | some e =>
      have htree : t = s.tree := sysRenameat_failed (fun _ => hc.whole) hr
      rw [htree]
      exact h
    | none =>
      obtain ⟨ha, hb, hex⟩ := sysRenameat_exchange hx hr
      unfold Tree.stat at ha hb
      rw [hm.canonical] at ha hb
      exact h.exchanged hm haway hc ha hb hex
  | false =>
  rw [if_neg (by rw [hx]; exact Bool.false_ne_true)] at hc
  split
  next hab =>
    have hab : a = b := hab.resolve_right Bool.false_ne_true
    subst hab
    dsimp only
    rcases hr : sysRenameat m s.tree a a flags with ⟨r, t⟩
    dsimp only
    rw [if_neg fun hr => Bool.false_ne_true hr.2]
    have htree : t = s.tree := by
      cases r with
      | some e => exact sysRenameat_failed (fun hx' => by rw [hx] at hx'; cases hx') hr
      | none => exact Tree.rename_self hm (sysRenameat_ok hx hr).2
    rw [htree]
    exact h
  next hab =>
    rw [not_or] at hab
    dsimp only
    rcases hr : sysRenameat m (s.setAside m a b flags).tree a b flags with ⟨r, t⟩
    dsimp only
    by_cases hrep : s.replacesOpen m a b flags = true
    · obtain ⟨d, n, t1, hkeep, hd, hinv⟩ := h.setAside hm haway hc hrep
      cases r with
      | some e =>
        rw [if_neg nofun]
        rw [sysRenameat_failed (fun hx' => by rw [hx] at hx'; cases hx') hr]
        exact hinv
      | none =>
        rw [if_pos rfl]
        obtain ⟨-, hr⟩ := sysRenameat_ok hx hr
        have hawayk : (s.setAside m a b flags).away = [] := by rw [hkeep]; exact haway
        refine hinv.renamed hm hawayk hab.1 hc.below hc.below' hc.source hc.target
          (fun hr o ho hao => ?_) (fun _ f hf hdir => ?_) hr
        · obtain ⟨-, hmv⟩ := Tree.rename_ok hm hab.1 hr
          rw [hkeep] at ho
          rcases mem_cons.mp ho with rfl | ho
          · -- the new orphan is not below the source, since the target is not
            have hne : a ≠ d ++ [.orphan n] := fun heq =>
              hc.source n (heq ▸ mem_append_right d mem_cons_self)
            have hpre := prefix_dropLast hao hne
            rw [dropLast_concat] at hpre
            exact hmv.apart (hpre.trans hd)
          · exact hc.clear o ho hao
        rw [hkeep] at hf
        change f ∈ (State.repoint ..).seen at hf
        rw [State.seen_repoint] at hf
        obtain ⟨g, -, rfl⟩ := mem_map.mp hf
        unfold State.fix
        split
        · intro heq
          refine hc.target n ?_
          rw [← heq]
          exact mem_append_left _ (mem_append_right d mem_cons_self)
        next hname =>
          exact fun heq => hname (heq ▸ names_self g.path)
    have hsame : s.setAside m a b flags = s := by
      unfold State.setAside
      rw [if_neg hrep]
    rw [hsame] at hr ⊢
    cases r with
    | some e =>
      rw [if_neg nofun]
      rw [sysRenameat_failed (fun hx' => by rw [hx] at hx'; cases hx') hr]
      exact h
    | none =>
      rw [if_pos rfl]
      obtain ⟨hno, hr⟩ := sysRenameat_ok hx hr
      exact h.renamed hm haway hab.1 hc.below hc.below' hc.source hc.target
        (fun _ => hc.clear)
        (fun hr => h.target_free hm (Tree.rename_ok hm hab.1 hr).2 hrep hno) hr

lemma State.Kept.noneBelow {extra : Path → Prop} (h : s.Kept extra) {o : Path}
    (ho : o ∈ s.orphans) : m.NoneBelow o := by
  obtain ⟨n, hn⟩ := h.hidden ho
  obtain ⟨d, rfl⟩ := List.getLast?_eq_some_iff.mp hn
  exact hm.hidden d n

lemma State.Inv.linked (h : s.Inv) (haway : s.away = []) {old new : Path}
    (hvis : Visible new) (hnew : m.NoneBelow new) (hold : old ∈ s.orphans)
    (hothers : ∀ f ∈ s.tables.flatten, f.dir = false → f.path ≠ old)
    (hfree : s.tree.node new = none) (hr : s.tree.rename m old new = .ok t) : State.Inv { s with
      tree := t
      orphans := s.orphans.filter (· ≠ old)
      cur := s.cur.map fun f => if !f.dir && f.path = old then { f with path := new } else f } := by
  obtain ⟨n, hn, hk⟩ := h.files old hold
  have hne : old ≠ new := fun heq => by
    rw [heq, hfree] at hn
    cases hn
  obtain ⟨rfl, hmv⟩ := Tree.rename_ok hm hne hr
  have hbelow : ∀ q, s.tree.node q ≠ none → q ≠ old → ¬old <+: q :=
    fun q hq hqo hpre => hq (h.closed.file hn hk hpre hqo)
  -- what was there and is not the orphan is there still
  have hsame : ∀ q x, s.tree.node q = some x → q ≠ old →
      (s.tree.moved m old new).node q = some x := by
    intro q x hq hqo
    rw [hmv.orphan hnew hq (hbelow q (by rw [hq]; nofun) hqo), hq]
    rintro rfl
    rw [hfree] at hq
    cases hq
  have hmoved : (s.tree.moved m old new).node new = s.tree.node old := by
    have := hmv.node_below (h.noneBelow hm hold) hnew []
    rwa [append_nil, append_nil] at this
  refine ⟨h.closed.moved hmv (h.noneBelow hm hold) hnew, fun f hf => ?_, fun o ho => ?_,
    fun o ho => h.numbered o (mem_filter.mp ho).1, fun o ho => ?_, fun q hq hne => ?_⟩
  · rw [all_of_alone (by exact haway)] at hf
    rcases mem_append.mp hf with hf | hf
    · obtain ⟨g, hg, rfl⟩ := mem_map.mp hf
      have hgn := h.fds g (mem_append_left _ (mem_append_left _ hg))
      intro hd
      split at hd
      next hold' =>
        rw [if_pos hold']
        rw [Bool.and_eq_true, decide_eq_true_eq] at hold'
        exact hmoved.trans (hold'.2 ▸ hgn hd)
      rename_i hold'
      rw [if_neg hold']
      refine hsame g.path _ (hgn hd) fun heq => hold' ?_
      rw [hd, heq]
      simp
    · intro hd
      exact hsame f.path _ (h.fds f (mem_append_left _ (mem_append_right _ hf)) hd)
        (hothers f hf hd)
  · obtain ⟨ho, hoo⟩ := mem_filter.mp ho
    obtain ⟨n', hn', hk'⟩ := h.files o ho
    exact ⟨n', hsame o n' hn' (by simpa using hoo), hk'⟩
  · obtain ⟨ho, hoo⟩ := mem_filter.mp ho
    obtain ⟨f, hf, hpre⟩ := h.isOpen o ho
    rw [all_of_alone haway] at hf
    rw [all_of_alone (by exact haway)]
    rcases mem_append.mp hf with hf | hf
    · refine ⟨_, mem_append_left _ (mem_map_of_mem hf), ?_⟩
      split
      · -- an orphan is not below another
        rename_i hold'
        rw [Bool.and_eq_true, decide_eq_true_eq] at hold'
        obtain ⟨n', hn', hk'⟩ := h.files o ho
        have hnone := h.closed.file hn' hk' (hold'.2 ▸ hpre)
          fun heq => (by simpa using hoo : o ≠ old) heq.symm
        rw [hn] at hnone
        cases hnone
      · exact hpre
    · exact ⟨f, mem_append_right _ hf, hpre⟩
  rcases hmv.cases (h.noneBelow hm hold) hnew hne with ⟨x, rfl, hx⟩ | ⟨hqo, -, hq'⟩
  · by_cases hx0 : x = []
    · rw [hx0, append_nil] at hq
      exact absurd hq hvis.not_hidden
    · exact absurd (prefix_append old x)
        (hbelow _ hx fun heq => hx0 (append_right_eq_self.mp heq))
  · refine .inl (mem_filter.mpr ⟨h.hidden_mem hq hq', ?_⟩)
    exact decide_eq_true fun heq => hqo (heq ▸ prefix_rfl)

lemma Tree.add_ok {n : Node} (h : t.add m p n = .ok t') :
    t.node p = none ∧ (∃ n, t.node p.dropLast = some n ∧ n.kind = .dir) ∧
      t' = t.set p (some n) := by
  unfold Tree.add Tree.stat at h
  rw [hm.canonical] at h
  split at h
  · cases h
  · cases h
  rename_i hn hdir
  cases h
  exact ⟨hn, Tree.inDirectory_ok hdir, rfl⟩

lemma State.Inv.added (h : s.Inv) (hvis : Visible p) {n : Node}
    (hadd : s.tree.add m p n = .ok t) : State.Inv { s with tree := t } := by
  obtain ⟨hnone, hparent, rfl⟩ := Tree.add_ok hm hadd
  have hsame : ∀ q, s.tree.node q ≠ none → (s.tree.set p (some n)).node q = s.tree.node q :=
    fun q hq => if_neg fun heq : q = p => hq (heq ▸ hnone)
  refine ⟨h.closed.add hnone hparent, fun f hf hd => ?_, fun o ho => ?_, h.numbered, h.isOpen,
    fun q hq hne => ?_⟩
  · have hf' := h.fds f hf hd
    exact (hsame f.path (by rw [hf']; nofun)).trans hf'
  · obtain ⟨n', hn', hk⟩ := h.files o ho
    exact ⟨n', (hsame o (by rw [hn']; nofun)).trans hn', hk⟩
  change (if q = p then some n else s.tree.node q) ≠ none at hne
  split at hne
  next heq =>
    exact absurd (heq ▸ hq) hvis.not_hidden
  · exact h.only q hq hne

lemma State.Inv.sysLink (h : s.Inv) (haway : s.away = []) {old new : Path}
    (hvis : Visible new) (hnew : m.NoneBelow new)
    (hothers : old ∈ s.orphans → ∀ f ∈ s.tables.flatten, f.dir = false → f.path ≠ old) :
    (s.sysLink m old new).2.Inv := by
  unfold State.sysLink
  split
  next r hr =>
    unfold State.linkOrphan at hr
    split at hr
    · cases hr
    rename_i hold
    rw [not_not] at hold
    split at hr
    · cases hr
      exact h
    rename_i hfree
    split at hr
    · cases hr
      exact h
    rename_i t hren
    cases hr
    refine h.linked hm haway hvis hnew hold (hothers hold) ?_ hren
    unfold Tree.stat at hfree
    rw [hm.canonical] at hfree
    simpa using hfree
  · split
    · exact h
    rename_i n hn
    split
    · exact h
    split
    next t hadd =>
      exact h.added hm hvis hadd
    · exact h

/-! ### Deleting orphans -/

lemma Tree.discard_other (hq : q ≠ p) : (t.discard m p).node q = t.node q := by
  unfold Tree.discard Tree.unlink Tree.stat
  rw [hm.canonical]
  cases t.node p with
  | none => rfl
  | some n =>
    dsimp only
    split
    next hk =>
      split at hk
      · cases hk
      cases hk
      exact if_neg hq
    · rfl

lemma Tree.discard_self {n : Node} (hn : t.node p = some n)
    (hk : n.kind ≠ .dir) : t.discard m p = t.set p none := by
  unfold Tree.discard Tree.unlink Tree.stat
  rw [hm.canonical, hn]
  dsimp only
  rw [if_neg hk]

lemma foldl_discard_other (l : List Path) (hq : q ∉ l) :
    (l.foldl (Tree.discard m) t).node q = t.node q := by
  induction l generalizing t with
  | nil => rfl
  | cons p l ih =>
    rw [foldl_cons, ih fun hmem => hq (mem_cons_of_mem p hmem)]
    exact Tree.discard_other hm fun heq => hq (heq ▸ mem_cons_self)

lemma foldl_discard (l : List Path)
    (hl : ∀ p ∈ l, ∀ n, t.node p = some n → n.kind ≠ .dir) (hc : t.Closed) :
    (l.foldl (Tree.discard m) t).Closed ∧ (∀ q ∈ l, (l.foldl (Tree.discard m) t).node q = none) ∧
      ∀ q, (l.foldl (Tree.discard m) t).node q ≠ none → t.node q ≠ none := by
  induction l generalizing t with
  | nil => exact ⟨hc, nofun, fun _ h => h⟩
  | cons p l ih =>
    have hnode : ∀ q, (t.discard m p).node q = if q = p then none else t.node q := by
      intro q
      split
      next heq =>
        rw [heq]
        cases hn : t.node p with
        | none =>
          unfold Tree.discard Tree.unlink Tree.stat
          rw [hm.canonical, hn]
          exact hn
        | some n =>
          rw [Tree.discard_self hm hn (hl p mem_cons_self n hn)]
          exact if_pos rfl
      next hne =>
        exact Tree.discard_other hm hne
    have hclosed : (t.discard m p).Closed := by
      cases hn : t.node p with
      | none =>
        unfold Tree.discard Tree.unlink Tree.stat
        rw [hm.canonical, hn]
        exact hc
      | some n =>
        rw [Tree.discard_self hm hn (hl p mem_cons_self n hn)]
        exact hc.remove hn (hl p mem_cons_self n hn)
    obtain ⟨h1, h2, h3⟩ := ih (t := t.discard m p) (fun q hq n hn => by
      rw [hnode] at hn
      split at hn
      · cases hn
      · exact hl q (mem_cons_of_mem p hq) n hn) hclosed
    refine ⟨h1, fun q hq => ?_, fun q hq => ?_⟩
    · rcases mem_cons.mp hq with rfl | hq
      · by_contra hne
        have := h3 q hne
        rw [hnode, if_pos rfl] at this
        exact this rfl
      · exact h2 q hq
    have := h3 q hq
    rw [hnode] at this
    split at this
    · exact absurd rfl this
    · exact this

lemma State.Inv.reap (h : s.Inv) (haway : s.away = []) {cur : List Fd}
    (hcur : ∀ f ∈ cur, f ∈ s.cur) : (State.reap m { s with cur := cur }).Inv := by
  generalize hs1 : ({ s with cur := cur } : State) = s1
  have htree : s1.tree = s.tree := by subst hs1; rfl
  have horph : s1.orphans = s.orphans := by subst hs1; rfl
  have hseq : s1.seq = s.seq := by subst hs1; rfl
  have haway1 : s1.away = [] := by subst hs1; exact haway
  have hsub : ∀ f ∈ s1.seen, f ∈ s.all := by
    subst hs1
    intro f hf
    rcases mem_append.mp hf with hf | hf
    · exact mem_append_left _ (mem_append_left _ (hcur f hf))
    · exact mem_append_left _ (mem_append_right _ hf)
  have hgone : ∀ o, o ∈ s1.orphans.filter (fun o => !s1.pathIsOpen o) ↔
      o ∈ s.orphans ∧ ¬s1.pathIsOpen o = true := by
    intro o
    rw [mem_filter, horph, Bool.not_eq_true', Bool.not_eq_true]
  obtain ⟨hclosed, hnone, hold⟩ := foldl_discard (t := s1.tree) hm
    (s1.orphans.filter fun o => !s1.pathIsOpen o) (fun o ho n hn => by
      obtain ⟨n', hn', hk⟩ := h.files o ((hgone o).mp ho).1
      rw [htree, hn'] at hn
      cases hn
      exact hk) (by rw [htree]; exact h.closed)
  have hsame : ∀ q, s1.pathIsOpen q = true → (State.reap m s1).tree.node q = s.tree.node q := by
    intro q hq
    rw [← htree]
    exact foldl_discard_other hm _ fun hmem => ((hgone q).mp hmem).2 hq
  have hself : ∀ f ∈ s1.seen, s1.pathIsOpen f.path = true :=
    fun f hf => any_eq_true.mpr ⟨f, hf, names_self f.path⟩
  refine ⟨hclosed, fun f hf hd => ?_, fun o ho => ?_, fun o ho => ?_, fun o ho => ?_,
    fun q hq hne => ?_⟩
  · rw [State.all_of_alone (by exact haway1)] at hf
    rw [hsame f.path (hself f hf)]
    exact h.fds f (hsub f hf) hd
  · obtain ⟨ho, hopen⟩ := mem_filter.mp ho
    rw [hsame o hopen]
    exact h.files o (horph ▸ ho)
  · obtain ⟨ho, -⟩ := mem_filter.mp ho
    obtain ⟨n, hn, hlast⟩ := h.numbered o (horph ▸ ho)
    exact ⟨n, hseq ▸ hn, hlast⟩
  · obtain ⟨-, hopen⟩ := mem_filter.mp ho
    obtain ⟨f, hf, hname⟩ := any_eq_true.mp hopen
    exact ⟨f, mem_append_left _ hf, names_imp hname⟩
  have hmem := h.hidden_mem hq (htree ▸ hold q hne)
  refine .inl (mem_filter.mpr ⟨horph ▸ hmem, ?_⟩)
  by_contra hopen
  exact hne (hnone q ((hgone q).mpr ⟨hmem, hopen⟩))

end

/-! ### Runs -/

/-- Nothing is moved or deleted while a task runs on another CPU; programs do not use hidden names;
no mount point is below what is moved; an orphan gets a name only when open in the caller's table
alone. -/
def State.Clean (m : Mounts) (s : State) (o : Turn) : Prop :=
  match o.op with
  | .create p | .mkdir p => Visible p
  | .unlink p => s.away = [] ∧ Visible p ∧ m.NoneBelow p
  | .rename old new flags => s.away = [] ∧ ∀ a b, old = some a → new = some b →
      if flags.exchange then s.CleanExchange { m with refuses := o.refuses } a b
      else s.CleanRename { m with refuses := o.refuses } a b flags
  | .link old new => s.away = [] ∧ Visible new ∧ m.NoneBelow new ∧
      (old ∈ s.orphans → ∀ f ∈ s.tables.flatten, f.dir = false → f.path ≠ old)
  | .close _ => s.away = []
  | _ => True

lemma mem_flatten_at {ls : List (List Fd)} {k : Nat} {fds : List Fd} (h : ls[k]? = some fds) :
    f ∈ ls.flatten ↔ f ∈ fds ∨ f ∈ (ls.eraseIdx k).flatten := by
  induction ls generalizing k with
  | nil => cases h
  | cons x ls ih =>
    cases k with
    | zero =>
      cases h
      simp
    | succ k =>
      simp only [flatten_cons, mem_append, eraseIdx_cons_succ, ih h]
      tauto

lemma mem_flatten_set {ls : List (List Fd)} {k : Nat} {fds c : List Fd}
    (h : ls[k]? = some fds) : f ∈ (ls.set k c).flatten ↔ f ∈ c ∨ f ∈ (ls.eraseIdx k).flatten := by
  induction ls generalizing k with
  | nil => cases h
  | cons x ls ih =>
    cases k with
    | zero => simp
    | succ k =>
      simp only [set_cons_succ, flatten_cons, mem_append, eraseIdx_cons_succ, ih h]
      tauto

lemma State.Inv.opened (h : s.Inv) (hf : Named s.tree f) :
    State.Inv { s with cur := f :: s.cur } := by
  refine ⟨h.closed, fun g hg => ?_, h.files, h.numbered, fun o ho => ?_, h.only⟩
  · rcases mem_cons.mp (by exact hg : g ∈ f :: s.all) with rfl | hg
    · exact hf
    · exact h.fds g hg
  · obtain ⟨g, hg, hpre⟩ := h.isOpen o ho
    exact ⟨g, mem_cons_of_mem f hg, hpre⟩

lemma State.apply_inv (hm : m.Plain) {op : Op} (h : s.Inv)
    (hc : s.Clean m ⟨op, m.refuses⟩) (hs : s.apply m op = some s') : s'.Inv := by
  cases op with
  | openFile p =>
    simp only [apply] at hs
    split at hs
    next id hn =>
      cases hs
      refine h.opened fun _ => ?_
      unfold Tree.stat at hn
      rwa [hm.canonical] at hn
    · cases hs
  | create p =>
    simp only [apply] at hs
    split at hs
    next t hadd =>
      cases hs
      have hnamed : Named t ⟨p, false, s.ids⟩ := by
        obtain ⟨-, -, rfl⟩ := Tree.add_ok hm hadd
        exact fun _ => if_pos rfl
      exact ((h.added hm hc hadd).opened hnamed).congr rfl rfl rfl fun _ => Iff.rfl
    · cases hs
  | mkdir p =>
    simp only [apply] at hs
    split at hs
    next t hadd =>
      cases hs
      exact (h.added hm hc hadd).congr rfl rfl rfl fun _ => Iff.rfl
    · cases hs
  | unlink p =>
    cases hs
    exact h.sysUnlink hm hc.1 hc.2.1 hc.2.2
  | rename old new flags =>
    cases hs
    exact h.sysRename hm hc.1 hc.2
  | link old new =>
    cases hs
    exact h.sysLink hm hc.1 hc.2.1 hc.2.2.1 hc.2.2.2
  | close k =>
    cases hs
    exact h.reap hm hc fun f hf => mem_of_mem_eraseIdx hf
  | fork =>
    cases hs
    refine h.congr rfl rfl rfl fun f => ?_
    simp only [all, seen, flatten_cons, mem_append]
    tauto
  | switch k =>
    simp only [apply] at hs
    split at hs
    next fds hk =>
      cases hs
      refine h.congr rfl rfl rfl fun f => ?_
      simp only [all, seen, mem_append, mem_flatten_at hk, mem_flatten_set hk]
      tauto
    · cases hs
  | leave k | enter k =>
    simp only [apply] at hs
    split at hs
    next fds hk =>
      cases hs
      refine h.congr rfl rfl rfl fun f => ?_
      simp only [all, seen, mem_append, flatten_cons, mem_flatten_at hk]
      tauto
    · cases hs

lemma State.Reach.inv (hm : m.Plain) (h : Run.Reach (step m) (State.Clean m) init s) : s.Inv := by
  refine Run.Reach.invariant (P := State.Inv) h ?_ fun s o _ hi hc hs => ?_
  · refine ⟨fun p q hq hpq hne => ?_, nofun, nofun, nofun, nofun, fun q ⟨n, hn⟩ hne => ?_⟩
    · change (if q = [] then some (⟨.dir, 0⟩ : Node) else none) ≠ none at hq
      split at hq
      next heq =>
        rw [heq] at hpq hne
        exact absurd (prefix_nil.mp hpq) hne
      · exact absurd rfl hq
    change (if q = [] then some (⟨.dir, 0⟩ : Node) else none) ≠ none at hne
    split at hne
    next heq =>
      rw [heq] at hn
      cases hn
    · exact absurd rfl hne
  · have hm' : Mounts.Plain { m with refuses := o.refuses } := ⟨hm.canonical, hm.point, hm.hidden⟩
    exact apply_inv hm' hi hc hs

def turn (op : Op) : Turn := ⟨op, fun _ _ _ => none⟩

end NixVm.Orphan
