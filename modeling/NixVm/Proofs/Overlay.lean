/-
The overlay, one call at a time: what its parts do to the two layers and to the merged view.

`ensure_dir_in_upper` adds directories to the upper layer and nothing else (`Fills`); copying up
runs to the depth of the lower layer, which is never written.
-/
import NixVm.Fs.Overlay

namespace NixVm.OverlayFs

open List

variable {p q d : Path} {n : Node} {e : Entry} {mode : Nat} {name : String}

/-! ### Paths -/

lemma above_parent (h : q <+: p) (hne : q ≠ p) : q <+: p.dropLast := by
  have hlt : q.length ≠ p.length := fun heq => hne (h.eq_of_length heq)
  have hle := h.length_le
  rw [dropLast_eq_take]
  exact prefix_take_iff.mpr ⟨h, by omega⟩

/-! ### Layers -/

structure Layer.Tree (l : Layer) : Prop where
  root : l.isDir [] = true
  parent : ∀ p, p ≠ [] → l.stat p ≠ none → l.isDir p.dropLast = true

namespace Layer

variable {l : Layer}

lemma isDir_iff : l.isDir p = true ↔ ∃ n, l.stat p = some n ∧ n.entry = .dir := by
  simp [isDir, Option.any_eq_true]

lemma stat_of_depth (h : l.depth < p.length) : l.stat p = none := by
  have hle : ∀ ps : List Path, p ∈ ps → p.length ≤ (ps.map List.length).foldr max 0 := by
    intro ps
    induction ps with
    | nil => exact nofun
    | cons q ps ih =>
      intro hm
      rcases mem_cons.mp hm with rfl | hm
      · exact le_max_left ..
      · exact le_trans (ih hm) (le_max_right ..)
  by_contra hp
  exact not_lt.mpr (hle l.paths (l.covers p hp)) h

lemma stat_ne_none (h : l.isDir p = true) : l.stat p ≠ none := by
  obtain ⟨n, hn, -⟩ := isDir_iff.mp h
  rw [hn]
  exact nofun

lemma Tree.isDir_above (h : l.Tree) (hp : l.stat p ≠ none) (hq : q <+: p) (hne : q ≠ p) :
    l.isDir q = true := by
  induction p using List.reverseRecOn with
  | nil => exact absurd (prefix_nil.mp hq) hne
  | append_singleton p x ih =>
    have hdir := h.parent _ (by simp) hp
    rw [dropLast_concat] at hdir
    have hqp : q <+: p := by simpa using above_parent hq hne
    by_cases heq : q = p
    · exact heq ▸ hdir
    · exact ih (stat_ne_none hdir) hqp heq

lemma Tree.stat_above (h : l.Tree) (hp : l.stat p ≠ none) (hq : q <+: p) : l.stat q ≠ none := by
  by_cases hne : q = p
  · exact hne ▸ hp
  · exact stat_ne_none (h.isDir_above hp hq hne)

lemma Tree.set (h : l.Tree) (hp : l.stat p = none)
    (hd : l.isDir p.dropLast = true) (n : Node) : (l.set p n).Tree := by
  have hkeep : ∀ q, l.isDir q = true → (l.set p n).isDir q = true := by
    intro q hq
    have hne : q ≠ p := fun heq => stat_ne_none hq (heq ▸ hp)
    obtain ⟨m, hm, he⟩ := isDir_iff.mp hq
    exact isDir_iff.mpr ⟨m, (if_neg hne).trans hm, he⟩
  refine ⟨hkeep _ h.root, fun q hq hs => ?_⟩
  by_cases hqp : q = p
  · exact hkeep _ (hqp ▸ hd)
  · exact hkeep _ (h.parent q hq (by simpa [Layer.set, hqp] using hs))

lemma mem_names : name ∈ l.names p ↔ l.isDir p = true ∧ l.stat (p ++ [name]) ≠ none := by
  unfold names
  split
  next hdir =>
    simp only [mem_dedup, mem_map, mem_filter, Bool.and_eq_true,
      decide_eq_true_eq, hdir, true_and, Option.isSome_iff_ne_none]
    constructor
    · rintro ⟨q, ⟨-, ⟨hq, rfl⟩, hne⟩, rfl⟩
      rwa [getLastD_eq_getLast?, List.getLast?_eq_some_getLast hne, Option.getD_some,
        dropLast_append_getLast hne]
    · intro hq
      exact ⟨p ++ [name], ⟨l.covers _ hq, ⟨hq, dropLast_concat⟩, by simp⟩, by simp⟩
  next hdir =>
    simp [hdir]

end Layer

/-! ### The upper layer -/

namespace Upper

variable {u : Upper}

lemma checkNew_eq_none :
    u.checkNew p = none ↔ u.stat p = none ∧ u.layer.isDir p.dropLast = true := by
  unfold checkNew
  split
  next h =>
    simp [Option.isSome_iff_ne_none.mp h]
  rename_i h
  have hp : u.stat p = none := by simpa using h
  rw [Layer.isDir_iff]
  split
  next hd =>
    simp [hp, show u.layer.stat p.dropLast = none from hd]
  rename_i n hd
  have hd : u.layer.stat p.dropLast = some n := hd
  by_cases hn : n.entry = .dir <;> simp [hp, hd, hn]

lemma attempt_layer {f : Upper → Res} {P : Res → Prop}
    (hrefused : ∀ e, P (some e, { u with tick := u.tick + 1 }))
    (hdone : P (f { u with tick := u.tick + 1 })) : P (u.attempt f) := by
  unfold attempt
  split
  · exact hrefused _
  · exact hdone

lemma make_cases (u : Upper) (p : Path) (e : Entry) (mode : Nat) :
    ((u.make p e mode).1 ≠ none ∧ (u.make p e mode).2.layer = u.layer) ∨
    ((u.make p e mode).1 = none ∧ u.stat p = none ∧ u.layer.isDir p.dropLast = true ∧
      (u.make p e mode).2.layer = u.layer.set p ⟨e, mode, u.nextIno⟩) := by
  refine attempt_layer (P := fun r => (r.1 ≠ none ∧ r.2.layer = u.layer) ∨
    (r.1 = none ∧ u.stat p = none ∧ u.layer.isDir p.dropLast = true ∧
      r.2.layer = u.layer.set p ⟨e, mode, u.nextIno⟩)) (fun e => .inl ⟨nofun, rfl⟩) ?_
  split
  · exact .inl ⟨nofun, rfl⟩
  rename_i h
  obtain ⟨hp, hd⟩ := checkNew_eq_none.mp h
  exact .inr ⟨rfl, hp, hd, rfl⟩

end Upper

/-! ### Whiteouts -/

namespace Overlay

variable {o o' : Overlay}

lemma isWhited_iff : o.isWhited p = true ↔
    ∃ q, q <+: p ∧ o.whiteouts q = true ∧ (q ≠ [] ∨ p = []) := by
  simp [isWhited, any_eq_true, mem_inits]

lemma isWhited_below (h : o.isWhited q = true) (hq : q <+: p) (hne : q ≠ []) :
    o.isWhited p = true := by
  obtain ⟨r, hr, hw, hor⟩ := isWhited_iff.mp h
  exact isWhited_iff.mpr ⟨r, hr.trans hq, hw, .inl (hor.resolve_right hne)⟩

lemma isWhited_congr (h : o'.whiteouts = o.whiteouts) (p : Path) :
    o'.isWhited p = o.isWhited p := by
  unfold isWhited
  rw [h]

lemma isWhited_of_removeWhiteout (h : (o.removeWhiteout p).isWhited q = true) :
    o.isWhited q = true := by
  obtain ⟨r, hr, hw, hor⟩ := isWhited_iff.mp h
  exact isWhited_iff.mpr ⟨r, hr, (Bool.and_eq_true_iff.mp hw).2, hor⟩

lemma isWhited_removeWhiteout (h : ¬p <+: q) : (o.removeWhiteout p).isWhited q = o.isWhited q := by
  rw [Bool.eq_iff_iff]
  refine ⟨isWhited_of_removeWhiteout, fun hw => ?_⟩
  obtain ⟨r, hr, hw, hor⟩ := isWhited_iff.mp hw
  have hne : r ≠ p := fun hrp => h (hrp ▸ hr)
  exact isWhited_iff.mpr ⟨r, hr, by simp [removeWhiteout, hne, hw], hor⟩

lemma whiteouts_of_isWhited (h : o.isWhited p = true) (hd : o.isWhited p.dropLast = false) :
    o.whiteouts p = true := by
  obtain ⟨q, hq, hw, hor⟩ := isWhited_iff.mp h
  by_cases hqp : q = p
  · exact hqp ▸ hw
  have hne : q ≠ [] := hor.resolve_right fun hp => hqp (by
    rw [hp] at hq ⊢
    exact prefix_nil.mp hq)
  have := isWhited_iff.mpr ⟨q, above_parent hq hqp, hw, .inl hne⟩
  rw [hd] at this
  cases this

/-! ### The merged view -/

lemma view_of_isWhited (h : o.isWhited p = true) : o.view p = none := by
  simp [view, stat, h]

lemma view_of_not_isWhited (h : o.isWhited p = false) :
    o.view p = ((o.upper.stat p).or (o.lower.stat p)).map (·.entry) := by
  simp [view, stat, h]

lemma view_of_upper (h : o.isWhited p = false) (hu : o.upper.stat p = some n) :
    o.view p = some n.entry := by
  rw [view_of_not_isWhited h, hu]
  rfl

lemma view_of_lower (h : o.isWhited p = false) (hu : o.upper.stat p = none) :
    o.view p = (o.lower.stat p).map (·.entry) := by
  rw [view_of_not_isWhited h, hu]
  rfl

lemma isWhited_of_view (h : o.view p ≠ none) : o.isWhited p = false := by
  cases hw : o.isWhited p with
  | false => rfl
  | true => exact absurd (view_of_isWhited hw) h

structure Layers (o : Overlay) : Prop where
  upper : o.upper.layer.Tree
  lower : o.lower.Tree

def Lists (o : Overlay) (p : Path) (name : String) : Prop :=
  ∃ names, o.readdir p = .ok names ∧ name ∈ names

lemma lists_iff (h : o.Layers) : o.Lists p name ↔ o.view p ≠ none ∧
    (o.upper.stat (p ++ [name]) ≠ none ∨
      o.lower.stat (p ++ [name]) ≠ none ∧ o.isWhited (p ++ [name]) = false) := by
  have hup : ∀ {l : Layer}, l.Tree → (name ∈ l.names p ↔ l.stat (p ++ [name]) ≠ none) := by
    intro l hl
    rw [Layer.mem_names]
    refine ⟨And.right, fun hn => ⟨?_, hn⟩⟩
    simpa using hl.parent _ (by simp) hn
  unfold Lists readdir
  by_cases hv : o.view p = none
  · have hs : o.stat p = none := Option.map_eq_none_iff.mp hv
    simp [hv, hs]
  have hs : (o.stat p).isNone = false := by simpa [view, ← Option.isSome_iff_ne_none] using hv
  simp only [isWhited_of_view hv, hs, Bool.or_self, Bool.false_eq_true, if_false, hv, ne_eq,
    not_false_eq_true, true_and, Except.ok.injEq, exists_eq_left', mem_dedup,
    mem_append, mem_filter, hup h.lower, hup h.upper, Bool.not_eq_true']
  exact or_comm

/-! ### Directories added to the upper layer -/

/-- New directories in the upper layer, at paths that meet `A`. -/
structure Fills (o o' : Overlay) (A : Path → Prop) : Prop where
  lower : o'.lower = o.lower
  whiteouts : o'.whiteouts = o.whiteouts
  stat : ∀ q, o'.upper.stat q = o.upper.stat q ∨
    (A q ∧ o.upper.stat q = none ∧ o'.upper.layer.isDir q = true)
  tree : o.upper.layer.Tree → o'.upper.layer.Tree

variable {A : Path → Prop}

lemma Fills.refl (o : Overlay) (A : Path → Prop) : Fills o o A :=
  ⟨rfl, rfl, fun _ => .inl rfl, id⟩

lemma Fills.trans {o'' : Overlay} (h : Fills o o' A) (h' : Fills o' o'' A) : Fills o o'' A where
  lower := h'.lower.trans h.lower
  whiteouts := h'.whiteouts.trans h.whiteouts
  stat q := by
    rcases h.stat q with hq | ⟨hA, hnone, hdir⟩
    · rw [← hq]
      exact h'.stat q
    refine .inr ⟨hA, hnone, ?_⟩
    rcases h'.stat q with hq | ⟨-, -, hdir'⟩
    · obtain ⟨n, hn, he⟩ := Layer.isDir_iff.mp hdir
      exact Layer.isDir_iff.mpr ⟨n, hq.trans hn, he⟩
    · exact hdir'
  tree ht := h'.tree (h.tree ht)

lemma Fills.mono {B : Path → Prop} (h : Fills o o' A) (hAB : ∀ q, A q → B q) : Fills o o' B :=
  ⟨h.lower, h.whiteouts, fun q => (h.stat q).imp_right fun ⟨hA, hr⟩ => ⟨hAB q hA, hr⟩, h.tree⟩

lemma Fills.of_layer_eq (h : Fills o o' A) {u : Upper} (hu : u.layer = o'.upper.layer) :
    Fills o { o' with upper := u } A where
  lower := h.lower
  whiteouts := h.whiteouts
  stat q := by
    have hq : u.stat q = o'.upper.stat q := congrFun (congrArg Layer.stat hu) q
    rw [hq, hu]
    exact h.stat q
  tree ht := hu ▸ h.tree ht

lemma fills_mkdir (o : Overlay) (hA : A p) :
    Fills o (o.tryUpper fun u => u.make p .dir mode) A := by
  rcases o.upper.make_cases p .dir mode with ⟨-, hl⟩ | ⟨-, hp, hd, hl⟩
  · exact (Fills.refl o A).of_layer_eq hl
  refine ⟨rfl, rfl, fun q => ?_, fun ht => ?_⟩
  · show (o.upper.make p .dir mode).2.layer.stat q = _ ∨ _ ∧ _ ∧
      (o.upper.make p .dir mode).2.layer.isDir q = true
    rw [hl]
    by_cases hq : q = p
    · subst hq
      exact .inr ⟨hA, hp, Layer.isDir_iff.mpr ⟨_, if_pos rfl, rfl⟩⟩
    · exact .inl (if_neg hq)
  · show (o.upper.make p .dir mode).2.layer.Tree
    rw [hl]
    exact ht.set hp hd _

/-- The induction is on the path, from its end: the ancestors come first. -/
lemma fills_ensureDirInUpper (o : Overlay) (dir : Path) :
    Fills o (o.ensureDirInUpper dir) fun q => q ≠ [] ∧ q <+: dir := by
  unfold ensureDirInUpper
  induction dir using List.reverseRecOn with
  | nil => exact Fills.refl o _
  | append_singleton dir x ih =>
    rw [reverse_concat]
    unfold ensureDirRev
    dsimp only
    split
    · exact Fills.refl o _
    refine (ih.mono fun q hq => ⟨hq.1, hq.2.trans (prefix_append ..)⟩).trans ?_
    rw [reverse_cons, reverse_reverse]
    exact fills_mkdir _ ⟨by simp, prefix_rfl⟩

/-- The added directories cover directories of the lower layer. -/
def Shadows (o : Overlay) (A : Path → Prop) : Prop :=
  ∀ q, A q → o.upper.stat q = none → o.lower.isDir q = true ∧ o.isWhited q = false

lemma Fills.view (h : Fills o o' A) (hA : Shadows o A) (q : Path) : o'.view q = o.view q := by
  have hw : o'.isWhited q = o.isWhited q := isWhited_congr h.whiteouts q
  rcases h.stat q with hq | ⟨hq, hnone, hdir⟩
  · simp only [Overlay.view, Overlay.stat, hw, hq, h.lower]
  obtain ⟨hlow, hvis⟩ := hA q hq hnone
  obtain ⟨n, hn, he⟩ := Layer.isDir_iff.mp hdir
  obtain ⟨m, hm, he'⟩ := Layer.isDir_iff.mp hlow
  rw [view_of_upper (hw.trans hvis) hn, view_of_lower hvis hnone, hm, he, Option.map_some, he']

lemma isDir_of_view (hd : o.view d = some .dir) :
    o.upper.layer.isDir d = true ∨ o.upper.stat d = none ∧ o.lower.isDir d = true := by
  have hw := isWhited_of_view (o := o) (p := d) (by rw [hd]; exact nofun)
  cases hu : o.upper.stat d with
  | some n =>
    rw [view_of_upper hw hu] at hd
    exact .inl (Layer.isDir_iff.mpr ⟨n, hu, Option.some.inj hd⟩)
  | none =>
    rw [view_of_lower hw hu] at hd
    obtain ⟨n, hn, he⟩ := Option.map_eq_some_iff.mp hd
    exact .inr ⟨rfl, Layer.isDir_iff.mpr ⟨n, hn, he⟩⟩

lemma shadows_of_view (hl : o.Layers) (hd : o.view d = some .dir) :
    Shadows o fun q => q ≠ [] ∧ q <+: d := by
  rintro q ⟨hne, hq⟩ hnone
  have hw := isWhited_of_view (o := o) (p := d) (by rw [hd]; exact nofun)
  have hvis : o.isWhited q = false := by
    cases h : o.isWhited q with
    | false => rfl
    | true => exact absurd (isWhited_below h hq hne) (by rw [hw]; exact nofun)
  refine ⟨?_, hvis⟩
  rcases isDir_of_view hd with hu | ⟨-, hlow⟩
  · exact absurd hnone (hl.upper.stat_above (Layer.stat_ne_none hu) hq)
  by_cases hqd : q = d
  · exact hqd ▸ hlow
  · exact hl.lower.isDir_above (Layer.stat_ne_none hlow) hq hqd

/-! ### Creations -/

/-- What the whiteout of a path hides below it stays hidden without it. -/
def Bare (o : Overlay) (p : Path) : Prop :=
  o.whiteouts p = true → ∀ q, p <+: q → q ≠ p → o.lower.stat q ≠ none →
    (o.removeWhiteout p).isWhited q = true

lemma make_ok (hok : (o.make p e mode).1 = none) :
    ∃ o2 : Overlay, Fills (o.removeWhiteout p) o2 (fun q => q ≠ [] ∧ q <+: p.dropLast) ∧
      o.stat p = none ∧ o2.upper.stat p = none ∧ o2.upper.layer.isDir p.dropLast = true ∧
      (o.make p e mode).2 = { o2 with upper := (o2.upper.make p e mode).2 } ∧
      (o2.upper.make p e mode).2.layer = o2.upper.layer.set p ⟨e, mode, o2.upper.nextIno⟩ := by
  unfold make at hok ⊢
  split at hok
  · cases hok
  rename_i hs
  rw [if_neg hs]
  refine ⟨_, fills_ensureDirInUpper .., by simpa using hs, ?_⟩
  rcases Upper.make_cases ((o.removeWhiteout p).ensureDirInUpper p.dropLast).upper p e mode with
    ⟨hne, -⟩ | ⟨-, hp, hd, hl⟩
  · exact absurd hok hne
  · exact ⟨hp, hd, rfl, hl⟩

/-- A successful creation in a directory that is seen changes the view at its path only, unless a
whiteout over lower entries goes. -/
lemma make_local (o : Overlay) (hl : o.Layers) (p : Path) (e : Entry) (mode : Nat)
    (hd : o.view p.dropLast = some .dir) (hb : Bare o p) (hok : (o.make p e mode).1 = none) :
    (o.make p e mode).2.view p = some e ∧ ∀ q, q ≠ p → (o.make p e mode).2.view q = o.view q := by
  obtain ⟨o2, hf, hs, hp2, -, heq, hlay⟩ := make_ok hok
  have hdw : o.isWhited p.dropLast = false := isWhited_of_view (by rw [hd]; exact nofun)
  have hmono : ∀ q, o.isWhited q = false → (o.removeWhiteout p).isWhited q = false := by
    intro q hq
    cases h : (o.removeWhiteout p).isWhited q with
    | false => rfl
    | true => exact absurd (isWhited_of_removeWhiteout h) (by rw [hq]; exact nofun)
  have hup : o.upper.stat p = none := by
    rcases hf.stat p with h | ⟨-, h, -⟩
    · exact h.symm.trans hp2
    · exact h
  have hstat : ∀ q, (o.make p e mode).2.upper.stat q =
      if q = p then some ⟨e, mode, o2.upper.nextIno⟩ else o2.upper.stat q := by
    intro q
    rw [heq]
    exact congrFun (congrArg Layer.stat hlay) q
  have hwhite : ∀ q, (o.make p e mode).2.isWhited q = (o.removeWhiteout p).isWhited q := by
    intro q
    rw [heq]
    exact isWhited_congr hf.whiteouts q
  constructor
  · -- neither the path nor its directory is hidden any more
    have hvis : (o.make p e mode).2.isWhited p = false := by
      rw [hwhite]
      cases h : (o.removeWhiteout p).isWhited p with
      | false => rfl
      | true => simpa [removeWhiteout] using whiteouts_of_isWhited h (hmono _ hdw)
    exact view_of_upper hvis ((hstat p).trans (if_pos rfl))
  intro q hq
  have hview2 : (o.make p e mode).2.view q = o2.view q := by
    have hlow : (o.make p e mode).2.lower = o2.lower := by rw [heq]
    simp only [Overlay.view, Overlay.stat, hwhite, hstat, if_neg hq, hlow,
      isWhited_congr hf.whiteouts]
  have hshadow : Shadows (o.removeWhiteout p) fun q => q ≠ [] ∧ q <+: p.dropLast :=
    fun r hr hnone => (shadows_of_view hl hd r hr hnone).imp_right (hmono r)
  rw [hview2, hf.view hshadow]
  by_cases hpq : p <+: q
  · -- below the path nothing was seen, and nothing is
    have hnone : o.upper.stat q = none := by
      by_contra h
      exact hl.upper.stat_above h hpq hup
    by_cases hlow : o.lower.stat q = none
    · simp [Overlay.view, Overlay.stat, removeWhiteout, hnone, hlow]
    have hp : o.isWhited p = true := by
      by_contra h
      have hlp := hl.lower.stat_above hlow hpq
      simp [Overlay.stat, h, hup, hlp] at hs
    have hq' := hb (whiteouts_of_isWhited hp hdw) q hpq hq hlow
    rw [view_of_isWhited hq', view_of_isWhited (isWhited_of_removeWhiteout hq')]
  · simp only [Overlay.view, Overlay.stat, isWhited_removeWhiteout hpq]
    rfl

lemma rootLayer_tree : rootLayer.Tree := by
  refine ⟨rfl, fun p hp h => ?_⟩
  exact absurd (if_neg hp) h

lemma init_layers {lower : Layer} (h : lower.Tree) (refuse : Nat → Option Errno) :
    (init lower refuse).Layers :=
  ⟨rootLayer_tree, h⟩

/-! ### Copying up

`copyUp` runs its body to a depth, and the lower layer, which is never written, bounds it. -/

lemma lower_ensureDirInUpper (o : Overlay) (d : Path) : (o.ensureDirInUpper d).lower = o.lower := by
  unfold ensureDirInUpper
  induction d.reverse with
  | nil => rfl
  | cons n rest ih =>
    unfold ensureDirRev
    dsimp only
    split
    · rfl
    · exact ih

lemma lower_andThen {r : Res} {f : Overlay → Res} {l : Layer} (h : r.2.lower = l)
    (hf : ∀ o : Overlay, o.lower = l → (f o).2.lower = l) : (r.andThen f).2.lower = l := by
  unfold Res.andThen
  split
  · exact hf _ h
  · exact h

lemma lower_foldl {f : String → Overlay → Res} {l : Layer}
    (hf : ∀ name (o : Overlay), o.lower = l → (f name o).2.lower = l) (names : List String) :
    ∀ r : Res, r.2.lower = l → (names.foldl (fun r name => r.andThen (f name)) r).2.lower = l := by
  induction names with
  | nil => exact fun _ h => h
  | cons name names ih => exact fun r h => ih _ (lower_andThen h (hf name))

lemma foldl_congr_lower {f g : String → Overlay → Res} {l : Layer}
    (hf : ∀ name (o : Overlay), o.lower = l → (f name o).2.lower = l)
    (hfg : ∀ name (o : Overlay), o.lower = l → f name o = g name o) (names : List String) :
    ∀ r : Res, r.2.lower = l → names.foldl (fun r name => r.andThen (f name)) r =
        names.foldl (fun r name => r.andThen (g name)) r := by
  induction names with
  | nil => exact fun _ _ => rfl
  | cons name names ih =>
    intro r h
    have heq : r.andThen (f name) = r.andThen (g name) := by
      unfold Res.andThen
      split
      · exact hfg name _ h
      · rfl
    rw [foldl_cons, foldl_cons, ← heq]
    exact ih _ (lower_andThen h (hf name))

section Body

variable {f g : Overlay → Path → Res}

lemma lower_copyUpStep (hf : ∀ o p, (f o p).2.lower = o.lower) (o : Overlay) (p : Path) :
    (copyUpStep f o p).2.lower = o.lower := by
  unfold copyUpStep
  split
  · rfl
  split
  · rfl
  have hparent := lower_ensureDirInUpper o p.dropLast
  generalize o.ensureDirInUpper p.dropLast = o1 at hparent ⊢
  split
  · refine lower_foldl (fun name o' h' => ?_) _ _ ((lower_ensureDirInUpper o1 p).trans hparent)
    split
    · exact h'
    · exact (hf o' _).trans h'
  · exact hparent
  · exact lower_andThen hparent fun _ h' => h'

lemma copyUpStep_congr (hf : ∀ o p, (f o p).2.lower = o.lower)
    (hfg : ∀ (o' : Overlay) name, o'.lower = o.lower → f o' (p ++ [name]) = g o' (p ++ [name])) :
    copyUpStep f o p = copyUpStep g o p := by
  unfold copyUpStep
  split
  · rfl
  split
  · rfl
  have hparent := lower_ensureDirInUpper o p.dropLast
  generalize o.ensureDirInUpper p.dropLast = o₁ at hparent ⊢
  split
  · refine foldl_congr_lower (fun name o' h' => ?_) (fun name o' h' => ?_) _ _
      ((lower_ensureDirInUpper o₁ p).trans hparent)
    · split
      · exact h'
      · exact (hf o' _).trans h'
    · rw [hfg o' name h']
  · rfl
  · rfl

end Body

lemma lower_copyUpTo (fuel : Nat) : ∀ (o : Overlay) (p : Path),
    (copyUpTo fuel o p).2.lower = o.lower := by
  induction fuel with
  | zero => exact fun _ _ => rfl
  | succ fuel ih => exact lower_copyUpStep ih

lemma copyUpTo_succ (fuel : Nat) : ∀ (o : Overlay) (p : Path),
    o.lower.depth < p.length + fuel → copyUpTo (fuel + 1) o p = copyUpTo fuel o p := by
  induction fuel with
  | zero =>
    intro o p h
    unfold copyUpTo copyUpStep
    rw [Layer.stat_of_depth h]
    split <;> rfl
  | succ fuel ih =>
    intro o p h
    refine copyUpStep_congr (lower_copyUpTo _) fun o' name h' => ih o' (p ++ [name]) ?_
    rw [h', length_append, length_singleton]
    omega

/-- **`copy_up` is the recursion of the source**: the bound on its depth never ends it. -/
lemma copyUp_eq (o : Overlay) (p : Path) : o.copyUp p = copyUpStep copyUp o p := by
  refine copyUpStep_congr (lower_copyUpTo _) fun o' name h' => ?_
  unfold copyUp
  rw [h']
  refine (copyUpTo_succ _ o' (p ++ [name]) ?_).symm
  rw [h', length_append, length_singleton]
  omega

/-! ### Paths that need no copy -/

def Settled (o : Overlay) (p : Path) : Prop := o.upper.stat p ≠ none ∨ o.lower.stat p = none

lemma copyUp_of_settled (h : Settled o p) : o.copyUp p = (none, o) := by
  rw [copyUp_eq, copyUpStep]
  rcases h with h | h
  · rw [if_pos (Option.isSome_iff_ne_none.mpr h)]
  rw [h]
  split <;> rfl

lemma removeWhiteout_eq (h : o.whiteouts p = false) : o.removeWhiteout p = o := by
  have hw : (fun q => decide (q ≠ p) && o.whiteouts q) = o.whiteouts := by
    funext q
    by_cases hq : q = p
    · simp [hq, h]
    · simp [hq]
  unfold removeWhiteout
  rw [hw]

end Overlay

end NixVm.OverlayFs
