/-
The merged view of an overlay is a tree, over whole runs.

What carries it is `Overlay.Inv`: no node of the upper layer is hidden, and below what is not a
directory there the lower layer's nodes are.
-/
import NixVm.Proofs.Overlay

namespace NixVm.OverlayFs

open List Layer Option

variable {p q d : Path} {n : Node} {e : Entry} {mode : Nat} {name : String}

/-! ### Shapes -/

/-- Whether there is a node, and if it is a directory. -/
def Layer.shape (l : Layer) (p : Path) : Option Bool := (l.stat p).map fun n => n.entry = .dir

variable {l : Layer}

lemma Layer.shape_eq_none : l.shape p = none ↔ l.stat p = none :=
  map_eq_none_iff

lemma Layer.shape_eq_true : l.shape p = some true ↔ l.isDir p = true := by
  simp [shape, isDir_iff]

lemma Layer.Tree.congr {l' : Layer} (h : l.Tree) (hs : ∀ q, l'.shape q = l.shape q) : l'.Tree := by
  have hdir : ∀ q, l'.isDir q = true ↔ l.isDir q = true := fun q => by
    rw [← shape_eq_true, ← shape_eq_true, hs]
  refine ⟨(hdir _).mpr h.root, fun p hp hn => (hdir _).mpr (h.parent p hp ?_)⟩
  exact fun hnone => hn (shape_eq_none.mp ((hs p).trans (shape_eq_none.mpr hnone)))

lemma Layer.shape_modify (l : Layer) (ino : Nat) (f : List UInt8 → List UInt8) (q : Path) :
    (l.modify ino f).shape q = l.shape q := by
  unfold shape modify
  dsimp only
  cases l.stat q with
  | none => rfl
  | some n =>
    simp only [map_some]
    split
    · cases h : n.entry <;> simp [h]
    · rfl

lemma Layer.shape_set (l : Layer) (p : Path) (n : Node) (q : Path) :
    (l.set p n).shape q = if q = p then some (decide (n.entry = .dir)) else l.shape q := by
  unfold shape set
  dsimp only
  split <;> rfl

lemma Layer.shape_erase (l : Layer) (p q : Path) :
    (l.erase p).shape q = if q = p then none else l.shape q := by
  unfold shape erase
  dsimp only
  split <;> rfl

lemma Layer.Tree.below_of_names (h : l.Tree) (hn : l.names p = []) (hpq : p <+: q)
    (hne : q ≠ p) : l.stat q = none := by
  by_contra hq
  obtain ⟨r, rfl⟩ := hpq
  cases r with
  | nil => exact hne (append_nil p)
  | cons x r =>
    have hx : x ∈ l.names p := mem_names.mpr
      ⟨h.isDir_above hq (prefix_append ..) (by simp), h.stat_above hq ⟨r, by simp⟩⟩
    rw [hn] at hx
    cases hx

/-! ### Moving a subtree -/

section Move

variable {l : Layer} {source target r : Path}

lemma Layer.isDir_congr {l' : Layer} (h : l'.stat q = l.stat p) : l'.isDir q = l.isDir p := by
  unfold isDir
  rw [h]

lemma Layer.stat_moved : (l.move source target).stat (target ++ r) = l.stat (source ++ r) := by
  unfold move
  dsimp only
  rw [if_pos (prefix_append ..), drop_left]

lemma Layer.stat_gone (ht : ¬target <+: q) (hs : source <+: q) :
    (l.move source target).stat q = none := by
  unfold move
  dsimp only
  rw [if_neg ht, if_pos hs]

lemma Layer.stat_unmoved (ht : ¬target <+: q) (hs : ¬source <+: q) :
    (l.move source target).stat q = l.stat q := by
  unfold move
  dsimp only
  rw [if_neg ht, if_neg hs]

lemma not_above_parent (h : ¬p <+: q) : ¬p <+: q.dropLast :=
  fun hp => h (hp.trans q.dropLast_prefix)

lemma Layer.Tree.move (h : l.Tree) (hsr : source ≠ []) (htr : target ≠ [])
    (hst : ¬source <+: target) (hdir : l.isDir target.dropLast = true) :
    (l.move source target).Tree := by
  have htd : ¬target <+: target.dropLast := fun hp => by
    have := hp.length_le
    have := length_pos_iff.mpr htr
    rw [length_dropLast] at *
    omega
  refine ⟨?_, fun q hq hs => ?_⟩
  · have hroot : (l.move source target).stat [] = l.stat [] :=
      stat_unmoved (fun hp => htr (prefix_nil.mp hp))
        fun hp => hsr (prefix_nil.mp hp)
    rw [isDir_congr hroot]
    exact h.root
  by_cases ht : target <+: q
  · obtain ⟨r, rfl⟩ := ht
    rw [stat_moved] at hs
    by_cases hr : r = []
    · rw [hr, append_nil, isDir_congr (stat_unmoved htd (not_above_parent hst))]
      exact hdir
    have hpar := h.parent (source ++ r) (by simp [hsr]) hs
    rw [dropLast_append_of_ne_nil hr] at hpar ⊢
    rw [isDir_congr stat_moved]
    exact hpar
  by_cases hsq : source <+: q
  · exact absurd (stat_gone ht hsq) hs
  rw [stat_unmoved ht hsq] at hs
  rw [isDir_congr
    (stat_unmoved (not_above_parent ht) (not_above_parent hsq))]
  exact h.parent q hq hs

end Move

/-! ### What the upper layer does -/

lemma Upper.link_cases (u : Upper) (old new : Path) :
    (u.link old new).2.layer = u.layer ∨ u.stat new = none ∧
      u.layer.isDir new.dropLast = true ∧ ∃ n, (u.link old new).2.layer = u.layer.set new n := by
  refine Upper.attempt_layer (P := fun r => r.2.layer = u.layer ∨ u.stat new = none ∧
      u.layer.isDir new.dropLast = true ∧ ∃ n, r.2.layer = u.layer.set new n)
    (fun _ => .inl rfl) ?_
  split
  · exact .inl rfl
  split
  · exact .inl rfl
  split
  · exact .inl rfl
  rename_i hc
  have ⟨hp, hd⟩ := Upper.checkNew_eq_none.mp hc
  exact .inr ⟨hp, hd, _, rfl⟩

lemma Upper.shape_unlink {u : Upper} (h : u.layer.isDir p = false) (q : Path) :
    (u.unlink p).2.layer.shape q = if q = p then none else u.layer.shape q := by
  unfold Upper.unlink
  cases hs : u.stat p with
  | none =>
    have : u.layer.shape p = none := shape_eq_none.mpr hs
    by_cases hq : q = p <;> simp [hq, this]
  | some n =>
    have hn : n.entry ≠ .dir := fun he => by
      rw [isDir_iff.mpr ⟨n, hs, he⟩] at h
      cases h
    dsimp only
    rw [if_neg hn]
    exact shape_erase _ p q

lemma Upper.shape_rmdir {u : Upper} (h : u.stat p = none ∨ u.layer.isDir p = true)
    (hn : u.layer.names p = []) (q : Path) :
    (u.rmdir p).2.layer.shape q = if q = p then none else u.layer.shape q := by
  unfold Upper.rmdir
  cases hs : u.stat p with
  | none =>
    have : u.layer.shape p = none := shape_eq_none.mpr hs
    by_cases hq : q = p <;> simp [hq, this]
  | some n =>
    have hd : n.entry = .dir := by
      have ⟨m, hm, he⟩ := isDir_iff.mp (h.resolve_left (by rw [hs]; exact nofun))
      cases hs.symm.trans hm
      exact he
    dsimp only
    rw [if_neg (not_not.mpr hd), if_neg (not_not.mpr hn)]
    exact shape_erase _ p q

lemma Upper.rename_cases (u : Upper) (source target : Path) :
    ((u.rename source target).2.layer = u.layer ∧
      ((u.rename source target).1 ≠ none ∨ source = target)) ∨
    (u.stat source ≠ none ∧ ¬source <+: target ∧ ¬(target <+: source ∧ u.layer.Tree) ∧
      u.layer.isDir target.dropLast = true ∧ (u.rename source target).1 = none ∧
      (u.rename source target).2.layer = u.layer.move source target) := by
  refine Upper.attempt_layer (P := fun r => (r.2.layer = u.layer ∧ (r.1 ≠ none ∨ source = target)) ∨
    (u.stat source ≠ none ∧ ¬source <+: target ∧ ¬(target <+: source ∧ u.layer.Tree) ∧
      u.layer.isDir target.dropLast = true ∧ r.1 = none ∧
      r.2.layer = u.layer.move source target))
    (fun _ => .inl ⟨rfl, .inl nofun⟩) ?_
  split
  · exact .inl ⟨rfl, .inl nofun⟩
  rename_i n hs
  have hs : u.stat source = some n := hs
  split
  · exact .inl ⟨rfl, .inr ‹_›⟩
  split
  · exact .inl ⟨rfl, .inl nofun⟩
  rename_i hne hinto
  split
  · exact .inl ⟨rfl, .inl nofun⟩
  rename_i d hd
  split
  · exact .inl ⟨rfl, .inl nofun⟩
  rename_i hdir
  split
  · exact .inl ⟨rfl, .inl nofun⟩
  rename_i hc
  refine .inr ⟨by rw [hs]; exact nofun, hinto, ?_, isDir_iff.mpr ⟨d, hd, not_not.mp hdir⟩, rfl, rfl⟩
  -- a target above the source is a directory that is not empty
  rintro ⟨hts, htree⟩
  have hsn : u.layer.stat source ≠ none := by rw [show u.layer.stat source = some n from hs]; exact nofun
  have htd := htree.isDir_above hsn hts (Ne.symm hne)
  have hnames : u.layer.names target ≠ [] := fun hnil =>
    hsn (htree.below_of_names hnil hts hne)
  have ⟨m, hm, he⟩ := isDir_iff.mp htd
  have hm' : ({ u with tick := u.tick + 1 } : Upper).stat target = some m := hm
  unfold Upper.checkTarget at hc
  rw [hm'] at hc
  cases hb : decide (n.entry = .dir) <;> simp [hb, he, hnames] at hc

namespace Overlay

variable {o o' : Overlay}

def shape (o : Overlay) (p : Path) : Option Bool := (o.view p).map (· = .dir)

lemma shape_eq_none : o.shape p = none ↔ o.view p = none := map_eq_none_iff

lemma shape_eq_true : o.shape p = some true ↔ o.view p = some .dir := by
  simp [shape]

lemma shape_of_isWhited (h : o.isWhited p = true) : o.shape p = none :=
  shape_eq_none.mpr (view_of_isWhited h)

lemma shape_of_not_isWhited (h : o.isWhited p = false) :
    o.shape p = (o.upper.layer.shape p).or (o.lower.shape p) := by
  unfold shape
  cases hu : o.upper.stat p with
  | some n =>
    have hu' : o.upper.layer.stat p = some n := hu
    simp [view_of_upper h hu, Layer.shape, hu']
  | none =>
    have hu' : o.upper.layer.stat p = none := hu
    rw [view_of_lower h hu]
    cases hl : o.lower.stat p <;> simp [Layer.shape, hu', hl]

/-! ### The invariant -/

structure Inv (o : Overlay) : Prop where
  layers : o.Layers
  root : o.whiteouts [] = false
  seen : ∀ p, o.upper.stat p ≠ none → o.isWhited p = false
  bare : ∀ p, o.upper.layer.shape p = some false → ∀ q, p <+: q → q ≠ p →
    o.lower.stat q ≠ none → o.isWhited q = true

lemma isWhited_prefix_false (h : o.isWhited p = false) (hq : q <+: p) (hne : q ≠ []) :
    o.isWhited q = false := by
  cases hw : o.isWhited q with
  | false => rfl
  | true => exact absurd (isWhited_below hw hq hne) (by rw [h]; exact nofun)

lemma Inv.root_seen (h : o.Inv) : o.isWhited [] = false := by
  cases hw : o.isWhited [] with
  | false => rfl
  | true =>
    obtain ⟨q, hq, hq', -⟩ := isWhited_iff.mp hw
    rw [prefix_nil.mp hq, h.root] at hq'
    cases hq'

lemma Inv.prefix_seen (h : o.Inv) (hp : o.isWhited p = false) (hq : q <+: p) :
    o.isWhited q = false := by
  by_cases hne : q = []
  · exact hne ▸ h.root_seen
  · exact isWhited_prefix_false hp hq hne

lemma Inv.parent_dir (h : o.Inv) (hp : p ≠ []) (hv : o.view p ≠ none) :
    o.view p.dropLast = some .dir := by
  have hw : o.isWhited p = false := isWhited_of_view hv
  have hdw := h.prefix_seen hw p.dropLast_prefix
  have hne : p ≠ p.dropLast := fun heq => by
    have := congrArg List.length heq
    have := length_pos_iff.mpr hp
    rw [length_dropLast] at *
    omega
  rw [← shape_eq_true, shape_of_not_isWhited hdw]
  by_cases hu : o.upper.stat p = none
  · -- a lower node: its directory is the lower one, unless something else covers that
    have hlow : o.lower.stat p ≠ none := by
      intro hl
      rw [view_of_lower hw hu, hl] at hv
      exact hv rfl
    have hdir := Layer.shape_eq_true.mpr (h.layers.lower.parent p hp hlow)
    cases hs : o.upper.layer.shape p.dropLast with
    | none => exact hdir
    | some b =>
      cases b with
      | true => rfl
      | false =>
        have := h.bare _ hs p p.dropLast_prefix hne hlow
        rw [hw] at this
        cases this
  · rw [Layer.shape_eq_true.mpr (h.layers.upper.parent p hp hu)]
    rfl

lemma Inv.dir_above (h : o.Inv) (hv : o.view p ≠ none) (hq : q <+: p) (hne : q ≠ p) :
    o.view q = some .dir := by
  induction p using List.reverseRecOn with
  | nil => exact absurd (prefix_nil.mp hq) hne
  | append_singleton p x ih =>
    have hdir := h.parent_dir (by simp) hv
    rw [dropLast_concat] at hdir
    have hqp : q <+: p := by simpa using above_parent hq hne
    by_cases heq : q = p
    · exact heq ▸ hdir
    · exact ih (by rw [hdir]; exact nofun) hqp heq

lemma Inv.lists (h : o.Inv) : o.Lists p name ↔ o.view (p ++ [name]) ≠ none := by
  rw [lists_iff h.layers]
  constructor
  · rintro ⟨-, hu | ⟨hl, hw⟩⟩
    · have ⟨n, hn⟩ := ne_none_iff_exists'.mp hu
      rw [view_of_upper (h.seen _ hu) hn]
      exact nofun
    intro hv
    have hs := shape_eq_none.mpr hv
    rw [shape_of_not_isWhited hw, or_eq_none_iff] at hs
    exact hl (Layer.shape_eq_none.mp hs.2)
  intro hv
  have hd := h.parent_dir (by simp) hv
  rw [dropLast_concat] at hd
  refine ⟨by rw [hd]; exact nofun, ?_⟩
  by_cases hu : o.upper.stat (p ++ [name]) = none
  · refine .inr ⟨fun hl => hv ?_, isWhited_of_view hv⟩
    rw [view_of_lower (isWhited_of_view hv) hu, hl]
    rfl
  · exact .inl hu

/-! ### Copying up -/

/-- The upper layer has more of what is seen of the lower one. -/
structure Copies (o o' : Overlay) : Prop where
  lower : o'.lower = o.lower
  whiteouts : o'.whiteouts = o.whiteouts
  tree : o.upper.layer.Tree → o'.upper.layer.Tree
  shape : ∀ q, o'.upper.layer.shape q = o.upper.layer.shape q ∨
    (o.upper.layer.shape q = none ∧ o.isWhited q = false ∧ o'.upper.layer.shape q = o.lower.shape q)

lemma Copies.refl (o : Overlay) : Copies o o := ⟨rfl, rfl, id, fun _ => .inl rfl⟩

lemma Copies.isWhited (h : Copies o o') (q : Path) : o'.isWhited q = o.isWhited q :=
  isWhited_congr h.whiteouts q

lemma Copies.trans {o'' : Overlay} (h : Copies o o') (h' : Copies o' o'') : Copies o o'' where
  lower := h'.lower.trans h.lower
  whiteouts := h'.whiteouts.trans h.whiteouts
  tree ht := h'.tree (h.tree ht)
  shape q := by
    have hw := h.isWhited q
    rcases h.shape q with hq | ⟨hnone, hvis, hq⟩ <;>
      rcases h'.shape q with hq' | ⟨hnone', hvis', hq'⟩
    · exact .inl (hq'.trans hq)
    · exact .inr ⟨hq.symm.trans hnone', hw ▸ hvis', h.lower ▸ hq'⟩
    · exact .inr ⟨hnone, hvis, hq'.trans hq⟩
    · exact .inr ⟨hnone, hvis, h.lower ▸ hq'⟩

lemma Copies.merged (h : Copies o o') (q : Path) : o'.shape q = o.shape q := by
  cases hw : o.isWhited q with
  | true => rw [shape_of_isWhited hw, shape_of_isWhited ((h.isWhited q).trans hw)]
  | false =>
    rw [shape_of_not_isWhited hw, shape_of_not_isWhited ((h.isWhited q).trans hw), h.lower]
    rcases h.shape q with hq | ⟨hnone, -, hq⟩
    · rw [hq]
    · rw [hq, hnone, Option.none_or, Option.or_self]

lemma Inv.copies (h : o.Inv) (hc : Copies o o') : o'.Inv where
  layers := ⟨hc.tree h.layers.upper, hc.lower ▸ h.layers.lower⟩
  root := hc.whiteouts ▸ h.root
  seen p hp := by
    rw [hc.isWhited]
    rcases hc.shape p with hq | ⟨-, hvis, -⟩
    · refine h.seen p fun hnone => hp ?_
      exact Layer.shape_eq_none.mp (hq.trans (Layer.shape_eq_none.mpr hnone))
    · exact hvis
  bare p hp q hpq hne hlow := by
    rw [hc.isWhited]
    rw [hc.lower] at hlow
    rcases hc.shape p with hq | ⟨-, -, hq⟩
    · exact h.bare p (hq ▸ hp) q hpq hne hlow
    -- a lower node that is no directory has nothing below it
    have hdir := Layer.shape_eq_true.mpr
      (h.layers.lower.isDir_above hlow hpq (Ne.symm hne))
    rw [← hq, hp] at hdir
    cases hdir

lemma Fills.copies {A : Path → Prop} (h : Fills o o' A) (hA : Shadows o A) : Copies o o' where
  lower := h.lower
  whiteouts := h.whiteouts
  tree := h.tree
  shape q := by
    rcases h.stat q with hq | ⟨hq, hnone, hdir⟩
    · exact .inl (congrArg (Option.map _) hq)
    have ⟨hlow, hvis⟩ := hA q hq hnone
    refine .inr ⟨Layer.shape_eq_none.mpr hnone, hvis, ?_⟩
    rw [Layer.shape_eq_true.mpr hdir, Layer.shape_eq_true.mpr hlow]

variable {u : Upper} {names : List String} {source target : Path} {isDir : Bool}

lemma Copies.of_shape (h : ∀ q, u.layer.shape q = o.upper.layer.shape q) :
    Copies o { o with upper := u } :=
  ⟨rfl, rfl, fun ht => ht.congr h, fun q => .inl (h q)⟩

lemma copies_modify (o : Overlay) (p : Path) (f : List UInt8 → List UInt8) :
    Copies o (o.onUpper fun u => u.modify p f).2 := by
  refine Copies.of_shape fun q => ?_
  refine Upper.attempt_layer (P := fun r => r.2.layer.shape q = o.upper.layer.shape q)
    (fun _ => rfl) ?_
  split
  · rfl
  split
  · rfl
  · exact shape_modify _ _ _ q
  · rfl

lemma copies_make (hw : o.isWhited p = false) (hlow : o.lower.shape p = some false)
    (he : e ≠ .dir) (mode : Nat) : Copies o (o.onUpper fun u => u.make p e mode).2 := by
  rcases o.upper.make_cases p e mode with ⟨-, hl⟩ | ⟨-, hp, hd, hl⟩
  · exact Copies.of_shape fun q => congrArg (Layer.shape · q) hl
  refine ⟨rfl, rfl, fun ht => ?_, fun q => ?_⟩
  · show (o.upper.make p e mode).2.layer.Tree
    rw [hl]
    exact ht.set hp hd _
  show (o.upper.make p e mode).2.layer.shape q = _ ∨ _ ∧ _ ∧
    (o.upper.make p e mode).2.layer.shape q = _
  rw [hl, Layer.shape_set]
  by_cases hq : q = p
  · subst hq
    refine .inr ⟨Layer.shape_eq_none.mpr hp, hw, ?_⟩
    simp [he, hlow]
  · simp [hq]

lemma Copies.andThen {r : Res} {f : Overlay → Res} (h : Copies o r.2)
    (hf : Copies r.2 (f r.2).2) : Copies o (r.andThen f).2 := by
  obtain ⟨_ | e, o1⟩ := r
  · exact h.trans hf
  · exact h

lemma Copies.layers (h : Copies o o') (hl : o.Layers) : o'.Layers :=
  ⟨h.tree hl.upper, h.lower ▸ hl.lower⟩

lemma Copies.foldl {f : Overlay → String → Res}
    (hf : ∀ o' name, Copies o o' → Copies o' (f o' name).2) : ∀ r : Res, Copies o r.2 →
      Copies o (names.foldl (fun r name => r.andThen fun o => f o name) r).2 := by
  induction names with
  | nil => exact fun r hr => hr
  | cons name names ih => exact fun r hr => ih _ (hr.andThen (hf r.2 name hr))

lemma copies_ensureDir (hl : o.Layers) (hw : o.isWhited p = false)
    (hlow : o.lower.stat p ≠ none) (hd : d <+: p) (hdir : d = p → o.lower.isDir p = true) :
    Copies o (o.ensureDirInUpper d) := by
  refine (fills_ensureDirInUpper o d).copies ?_
  rintro q ⟨hne, hq⟩ -
  have hqp := hq.trans hd
  refine ⟨?_, isWhited_prefix_false hw hqp hne⟩
  by_cases heq : q = p
  · subst heq
    exact hdir (hd.eq_of_length_le hq.length_le)
  · exact hl.lower.isDir_above hlow hqp heq

/-- By induction on the depth; the loop over the names keeps that the state so far is a copy. -/
lemma copies_copyUpTo (fuel : Nat) : ∀ (o : Overlay) (p : Path), o.Layers →
    o.isWhited p = false → p ≠ [] → Copies o (copyUpTo fuel o p).2 := by
  induction fuel with
  | zero => exact fun o p _ _ _ => Copies.refl o
  | succ fuel ih =>
    intro o p hl hw hp
    unfold copyUpTo copyUpStep
    split
    · exact Copies.refl o
    cases hs : o.lower.stat p with
    | none => exact Copies.refl o
    | some n =>
      have hlow : o.lower.stat p ≠ none := by rw [hs]; exact some_ne_none n
      have hparent : Copies o (o.ensureDirInUpper p.dropLast) := by
        refine copies_ensureDir hl hw hlow p.dropLast_prefix fun heq => ?_
        have := congrArg List.length heq
        have := length_pos_iff.mpr hp
        rw [length_dropLast] at *
        omega
      refine hparent.trans ?_
      have hl1 := hparent.layers hl
      have hw1 := (hparent.isWhited p).trans hw
      have hs1 : (o.ensureDirInUpper p.dropLast).lower.stat p = some n := hparent.lower ▸ hs
      generalize o.ensureDirInUpper p.dropLast = o1 at hl1 hw1 hs1 ⊢
      have hshape : n.entry ≠ .dir → o1.lower.shape p = some false := by
        intro he
        simp [Layer.shape, hs1, he]
      dsimp only
      split
      next he =>
        have hown : Copies o1 (o1.ensureDirInUpper p) :=
          copies_ensureDir hl1 hw1 (by rw [hs1]; exact some_ne_none n) prefix_rfl
            fun _ => Layer.isDir_iff.mpr ⟨n, hs1, he⟩
        refine Copies.foldl (fun o' name hc => ?_) _ hown
        split
        · exact Copies.refl o'
        rename_i hvis
        exact ih o' _ (hc.layers hl1) (by simpa using hvis) (by simp)
      next target he =>
        exact copies_make (e := .symlink target) hw1 (hshape (by simp [he])) (by simp) _
      next hnd _ =>
        exact (copies_make (e := .file []) hw1 (hshape hnd) (by simp) _).andThen (copies_modify _ p _)

lemma copies_copyUp (hl : o.Layers) (hw : o.isWhited p = false) (hp : p ≠ []) :
    Copies o (o.copyUp p).2 :=
  copies_copyUpTo _ o p hl hw hp

/-! ### New names -/

lemma Inv.dir_seen (hd : o.view d = some .dir) : o.isWhited d = false :=
  isWhited_of_view (by rw [hd]; exact nofun)

section

variable (h : o.Inv)
include h

lemma Inv.removeWhiteout (hd : o.view p.dropLast = some .dir) : (o.removeWhiteout p).Inv := by
  cases hwp : o.whiteouts p with
  | false => exact (removeWhiteout_eq hwp).symm ▸ h
  | true =>
    refine ⟨⟨h.layers.upper, h.layers.lower⟩, by simp [Overlay.removeWhiteout, h.root],
      fun q hq => ?_, ?_⟩
    · cases hw : (o.removeWhiteout p).isWhited q with
      | false => rfl
      | true =>
        have := isWhited_of_removeWhiteout hw
        rw [h.seen q hq] at this
        cases this
    intro x hx q hxq hne hlow
    change o.upper.layer.shape x = some false at hx
    obtain ⟨r, hr, hwr, hor⟩ := isWhited_iff.mp (h.bare x hx q hxq hne hlow)
    by_cases hrp : r = p
    · subst hrp
      exfalso
      have hup : o.upper.stat r = none := by
        by_contra hup
        have := h.seen r hup
        have hne' : r ≠ [] := fun h0 => by rw [h0, h.root] at hwp; cases hwp
        rw [isWhited_iff.mpr ⟨r, prefix_rfl, hwp, .inl hne'⟩] at this
        cases this
      have hxs : o.upper.stat x ≠ none := fun h0 => by
        rw [Layer.shape_eq_none.mpr h0] at hx
        cases hx
      -- the node is above the path, and so it is a directory
      have hxr : x <+: r := by
        rcases prefix_or_prefix_of_prefix hxq hr with h1 | h1
        · exact h1
        · exact absurd hup (h.layers.upper.stat_above hxs h1)
      have hxne : x ≠ r := fun heq => hxs (heq ▸ hup)
      have hview : o.view x = some .dir := by
        have hxd := above_parent hxr hxne
        by_cases heq : x = r.dropLast
        · exact heq ▸ hd
        · exact h.dir_above (by rw [hd]; exact some_ne_none _) hxd heq
      have hsh := shape_eq_true.mpr hview
      rw [shape_of_not_isWhited (h.seen x hxs), hx] at hsh
      cases hsh
    · exact isWhited_iff.mpr ⟨r, hr, by simp [Overlay.removeWhiteout, hrp, hwr], hor⟩

lemma Inv.set (hw : o.isWhited p = false) (hp : o.upper.stat p = none)
    (hd : o.upper.layer.isDir p.dropLast = true) (hu : u.layer = o.upper.layer.set p n)
    (hb : ∀ q, p <+: q → q ≠ p → o.lower.stat q ≠ none → o.isWhited q = true) :
    ({ o with upper := u } : Overlay).Inv := by
  have hshape : ∀ q, u.layer.shape q =
      if q = p then some (decide (n.entry = .dir)) else o.upper.layer.shape q := by
    intro q
    rw [hu]
    exact Layer.shape_set _ p n q
  refine ⟨⟨?_, h.layers.lower⟩, h.root, fun q hq => ?_, fun x hx q hxq hne hlow => ?_⟩
  · show u.layer.Tree
    rw [hu]
    exact h.layers.upper.set hp hd n
  · by_cases hqp : q = p
    · exact hqp ▸ hw
    refine h.seen q fun h0 => hq ?_
    have h1 := hshape q
    rw [if_neg hqp, Layer.shape_eq_none.mpr h0] at h1
    exact Layer.shape_eq_none.mp h1
  by_cases hxp : x = p
  · subst hxp
    exact hb q hxq hne hlow
  have h1 := hshape x
  rw [if_neg hxp] at h1
  exact h.bare x (h1.symm.trans hx) q hxq hne hlow

lemma Inv.hidden_below (hs : o.stat p = none) (hd : o.view p.dropLast = some .dir)
    (hb : Bare o p) (hpq : p <+: q) (hne : q ≠ p) (hlow : o.lower.stat q ≠ none) :
    (o.removeWhiteout p).isWhited q = true := by
  have hw : o.isWhited p = true := by
    by_contra hw
    have hlp := h.layers.lower.stat_above hlow hpq
    simp [Overlay.stat, hw, hlp] at hs
  exact hb (whiteouts_of_isWhited hw (Inv.dir_seen hd)) q hpq hne hlow

lemma Inv.newName (hs : o.stat p = none) (hd : o.view p.dropLast = some .dir)
    (hb : Bare o p) {f : Upper → Upper.Res}
    (hf : ∀ u, (f u).2.layer = u.layer ∨ u.stat p = none ∧ u.layer.isDir p.dropLast = true ∧
      ∃ n, (f u).2.layer = u.layer.set p n) :
    (((o.removeWhiteout p).ensureDirInUpper p.dropLast).onUpper f).2.Inv := by
  have h1 := h.removeWhiteout hd
  have hw1 : ∀ q, o.isWhited q = false → (o.removeWhiteout p).isWhited q = false := by
    intro q hq
    cases hw : (o.removeWhiteout p).isWhited q with
    | false => rfl
    | true =>
      have := isWhited_of_removeWhiteout hw
      rw [hq] at this
      cases this
  have hc : Copies (o.removeWhiteout p) ((o.removeWhiteout p).ensureDirInUpper p.dropLast) :=
    (fills_ensureDirInUpper ..).copies fun r hr hnone =>
      (shadows_of_view h.layers hd r hr hnone).imp_right (hw1 r)
  have h2 := h1.copies hc
  have hlow := hc.lower
  have hwhite := hc.isWhited
  generalize (o.removeWhiteout p).ensureDirInUpper p.dropLast = o2 at h2 hlow hwhite ⊢
  rcases hf o2.upper with hl | ⟨hp, hdir, n, hl⟩
  · exact h2.copies (Copies.of_shape fun q => congrArg (Layer.shape · q) hl)
  refine h2.set ?_ hp hdir hl fun q hpq hne hq => ?_
  · rw [hwhite]
    cases hw : (o.removeWhiteout p).isWhited p with
    | false => rfl
    | true =>
      simpa [Overlay.removeWhiteout] using
        whiteouts_of_isWhited hw (hw1 _ (Inv.dir_seen hd))
  · rw [hwhite]
    exact h.hidden_below hs hd hb hpq hne (by rw [hlow] at hq; exact hq)

lemma Inv.make (hp : o.stat p = none → o.view p.dropLast = some .dir ∧ Bare o p) :
    (o.make p e mode).2.Inv := by
  unfold Overlay.make
  split
  · exact h
  rename_i hs
  have hs : o.stat p = none := by simpa using hs
  have ⟨hd, hb⟩ := hp hs
  refine h.newName hs hd hb fun u => ?_
  rcases u.make_cases p e mode with ⟨-, hl⟩ | ⟨-, hnone, hdir, hl⟩
  · exact .inl hl
  · exact .inr ⟨hnone, hdir, _, hl⟩

omit h in
lemma Bare.copies (h : Bare o p) (hc : Copies o o') : Bare o' p := by
  intro hw q hpq hne hlow
  rw [hc.whiteouts] at hw
  rw [hc.lower] at hlow
  have := h hw q hpq hne hlow
  have hsame : (o'.removeWhiteout p).whiteouts = (o.removeWhiteout p).whiteouts := by
    simp [Overlay.removeWhiteout, hc.whiteouts]
  rwa [isWhited_congr hsame]

lemma ne_root_of_nondir (hs : o.stat p = some n) (hn : n.entry ≠ .dir) : p ≠ [] := by
  rintro rfl
  have hv : o.shape [] = some true := by
    rw [shape_of_not_isWhited h.root_seen, Layer.shape_eq_true.mpr h.layers.upper.root]
    rfl
  rw [shape_eq_true, view, hs] at hv
  exact hn (Option.some.inj hv)

lemma Inv.link {old new : Path}
    (hp : o.stat new = none → o.view new.dropLast = some .dir ∧ Bare o new) :
    (o.link old new).2.Inv := by
  unfold Overlay.link
  cases hs : o.stat old with
  | none => exact h
  | some n =>
    dsimp only
    split
    · exact h
    rename_i hn
    split
    · exact h
    rename_i hnew
    have hnew : o.stat new = none := by simpa using hnew
    have ⟨hd, hb⟩ := hp hnew
    have hw : o.isWhited old = false := isWhited_of_view (by simp [view, hs])
    have hc := copies_copyUp h.layers hw (ne_root_of_nondir h hs hn)
    have h1 := h.copies hc
    cases hr : o.copyUp old with
    | mk err o1 =>
      rw [hr] at hc h1
      cases err with
      | some e => exact h1
      | none =>
        refine h1.newName ?_ ?_ (hb.copies hc) fun u => Upper.link_cases u old new
        · have := (hc.merged new).trans (shape_eq_none.mpr (by simp [view, hnew]))
          simpa [Overlay.shape, view] using this
        · exact shape_eq_true.mp ((hc.merged _).trans (shape_eq_true.mpr hd))

lemma Inv.modify (hw : o.isWhited p = false) (f : List UInt8 → List UInt8) :
    (o.modify p f).2.Inv := by
  unfold Overlay.modify
  by_cases hp : p = []
  · -- the root is in the upper layer
    have hset : Settled o p := .inl (hp ▸ stat_ne_none h.layers.upper.root)
    rw [copyUp_of_settled hset]
    exact h.copies (copies_modify o p f)
  · exact h.copies ((copies_copyUp h.layers hw hp).andThen (copies_modify _ p f))

/-! ### Removed names -/

lemma Inv.erase (hp : p ≠ []) (hbelow : ∀ q, p <+: q → q ≠ p → o.upper.stat q = none)
    (hu : ∀ q, u.layer.shape q = if q = p then none else o.upper.layer.shape q) :
    ({ o with upper := u } : Overlay).Inv := by
  have hsub : ∀ q, u.layer.stat q ≠ none → q ≠ p ∧ o.upper.stat q ≠ none := by
    intro q hq
    by_cases hqp : q = p
    · have h1 := hu q
      rw [if_pos hqp] at h1
      exact absurd (Layer.shape_eq_none.mp h1) hq
    refine ⟨hqp, fun h0 => hq ?_⟩
    have h1 := hu q
    rw [if_neg hqp, Layer.shape_eq_none.mpr h0] at h1
    exact Layer.shape_eq_none.mp h1
  have hdir : ∀ q, q ≠ p → o.upper.layer.isDir q = true → u.layer.isDir q = true := by
    intro q hq hd
    rw [← Layer.shape_eq_true, hu, if_neg hq, Layer.shape_eq_true.mpr hd]
  refine ⟨⟨⟨hdir _ (Ne.symm hp) h.layers.upper.root, fun q hq hs => ?_⟩, h.layers.lower⟩, h.root,
    fun q hq => h.seen q (hsub q hq).2, fun x hx q hxq hne hlow => ?_⟩
  · have ⟨hqp, hqs⟩ := hsub q hs
    refine hdir _ (fun heq => ?_) (h.layers.upper.parent q hq hqs)
    exact hqs (hbelow q (heq ▸ dropLast_prefix q) hqp)
  have hxp : x ≠ p := fun heq => by
    have h1 := hu x
    rw [if_pos heq] at h1
    rw [show u.layer.shape x = some false from hx] at h1
    cases h1
  have h1 := hu x
  rw [if_neg hxp] at h1
  exact h.bare x (h1.symm.trans hx) q hxq hne hlow

lemma Inv.addWhiteout (hp : p ≠ []) (hup : ∀ q, p <+: q → o.upper.stat q = none) :
    (o.addWhiteout p).Inv := by
  have hmono : ∀ q, o.isWhited q = true → (o.addWhiteout p).isWhited q = true := by
    intro q hq
    have ⟨r, hr, hw, hor⟩ := isWhited_iff.mp hq
    exact isWhited_iff.mpr ⟨r, hr, by simp [Overlay.addWhiteout, hw], hor⟩
  refine ⟨⟨h.layers.upper, h.layers.lower⟩, ?_, fun q hq => ?_, fun x hx q hxq hne hlow =>
    hmono q (h.bare x hx q hxq hne hlow)⟩
  · simp [Overlay.addWhiteout, h.root, Ne.symm hp]
  cases hw : (o.addWhiteout p).isWhited q with
  | false => rfl
  | true =>
    have ⟨r, hr, hwr, hor⟩ := isWhited_iff.mp hw
    have hrp : r ≠ p := fun heq => hq (hup q (heq ▸ hr))
    have := h.seen q hq
    rw [isWhited_iff.mpr ⟨r, hr, by simpa [Overlay.addWhiteout, hrp] using hwr, hor⟩] at this
    cases this

lemma upper_below (hp : o.upper.layer.isDir p = false) (hpq : p <+: q)
    (hne : q ≠ p) : o.upper.stat q = none := by
  by_contra hq
  rw [h.layers.upper.isDir_above hq hpq (Ne.symm hne)] at hp
  cases hp

lemma upper_of_nondir (hs : o.stat p = some n) (hn : n.entry ≠ .dir) :
    o.upper.layer.isDir p = false := by
  by_contra hd
  obtain ⟨m, hm, he⟩ := isDir_iff.mp (by simpa using hd)
  have hv := view_of_upper (h.seen p (by rw [show o.upper.stat p = some m from hm]; exact nofun)) hm
  rw [view, hs, he] at hv
  exact hn (Option.some.inj hv)

omit h in
lemma upper_of_dir (hs : o.stat p = some n) (hn : n.entry = .dir) :
    o.upper.stat p = none ∨ o.upper.layer.isDir p = true := by
  have hv : o.view p = some .dir := by rw [view, hs, map_some, hn]
  exact (isDir_of_view hv).symm.imp_left And.left

omit h in
lemma upper_names (hr : o.readdir p = .ok names) (hn : names = []) :
    o.upper.layer.names p = [] := by
  unfold readdir at hr
  split at hr
  · cases hr
  cases hr
  rw [dedup_eq_nil, append_eq_nil_iff] at hn
  exact hn.2

/-- What a call that removes a name takes out of the upper layer. -/
structure Cleared (o o' : Overlay) (p : Path) : Prop where
  inv : o'.Inv
  lower : o'.lower = o.lower
  whiteouts : o'.whiteouts = o.whiteouts
  shape : ∀ q, o'.upper.layer.shape q = if q = p then none else o.upper.layer.shape q
  below : ∀ q, p <+: q → o'.upper.stat q = none

lemma cleared_of_shape (hp : p ≠ []) (hbelow : ∀ q, p <+: q → q ≠ p → o.upper.stat q = none)
    (hu : ∀ q, u.layer.shape q = if q = p then none else o.upper.layer.shape q) :
    Cleared o { o with upper := u } p := by
  refine ⟨h.erase hp hbelow hu, rfl, rfl, hu, fun q hpq => ?_⟩
  have h1 := hu q
  by_cases hq : q = p
  · rw [if_pos hq] at h1
    exact Layer.shape_eq_none.mp h1
  · rw [if_neg hq, Layer.shape_eq_none.mpr (hbelow q hpq hq)] at h1
    exact Layer.shape_eq_none.mp h1

lemma cleared_unlink (hs : o.stat p = some n) (hn : n.entry ≠ .dir) :
    Cleared o (o.tryUpper fun u => u.unlink p) p :=
  have hd := upper_of_nondir h hs hn
  cleared_of_shape h (ne_root_of_nondir h hs hn) (fun _ => upper_below h hd)
    (Upper.shape_unlink hd)

lemma cleared_rmdir (hp : p ≠ []) (hs : o.stat p = some n) (hn : n.entry = .dir)
    (hr : o.readdir p = .ok names) (hnil : names = []) :
    Cleared o (o.tryUpper fun u => u.rmdir p) p :=
  have hnames := upper_names hr hnil
  cleared_of_shape h hp (fun _ => h.layers.upper.below_of_names hnames)
    (Upper.shape_rmdir (upper_of_dir hs hn) hnames)

lemma Inv.unlink : (o.unlink p).2.Inv := by
  unfold Overlay.unlink
  cases hs : o.stat p with
  | none => exact h
  | some n =>
    dsimp only
    split
    · exact h
    rename_i hn
    have hc := cleared_unlink h hs hn
    exact hc.inv.addWhiteout (ne_root_of_nondir h hs hn) hc.below

lemma Inv.rmdir (hp : p ≠ []) : (o.rmdir p).2.Inv := by
  unfold Overlay.rmdir
  cases hs : o.stat p with
  | none => exact h
  | some n =>
    dsimp only
    split
    · exact h
    rename_i hn
    split
    · exact h
    rename_i names hr
    split
    · exact h
    rename_i hnil
    have hc := cleared_rmdir h hp hs (not_not.mp hn) hr (not_not.mp hnil)
    exact hc.inv.addWhiteout hp hc.below

/-! ### Renames -/

lemma Inv.seen_moved {r : Path} (htr : target ≠ [])
    (hst : ¬source <+: target) (hts : ¬target <+: source) (hvis : o.isWhited target = false)
    (hstale : ∀ r, r ≠ [] → o.upper.stat (source ++ r) ≠ none →
      o.whiteouts (target ++ r) = false) (hq : o.upper.stat (source ++ r) ≠ none) :
    (o.addWhiteout source).isWhited (target ++ r) = false := by
  refine Bool.eq_false_iff.mpr fun hw => ?_
  have ⟨x, hx, hwx, hor⟩ := isWhited_iff.mp hw
  have hwx : x = source ∨ o.whiteouts x = true := by
    simpa [Overlay.addWhiteout] using hwx
  have hxne : x ≠ [] := hor.resolve_right (by simp [htr])
  rcases prefix_or_prefix_of_prefix hx (prefix_append target r) with hxt | hxt
  · -- a whiteout at or above the target
    rcases hwx with rfl | hwx
    · exact hst hxt
    have := isWhited_iff.mpr ⟨x, hxt, hwx, .inl hxne⟩
    rw [hvis] at this
    cases this
  -- one below it, at a node that has been moved
  rcases hwx with rfl | hwx
  · exact hts hxt
  obtain ⟨r', rfl⟩ := hxt
  by_cases hr' : r' = []
  · have := isWhited_iff.mpr
      ⟨target, prefix_rfl, by simpa [hr'] using hwx, .inl htr⟩
    rw [hvis] at this
    cases this
  have hpre : source ++ r' <+: source ++ r :=
    (prefix_append_right_inj _).mpr ((prefix_append_right_inj _).mp hx)
  rw [hstale r' hr' (h.layers.upper.stat_above hq hpre)] at hwx
  cases hwx

omit h in
lemma isWhited_addWhiteout_of_not_below (h : o.isWhited q = false)
    (hs : ¬source <+: q) : (o.addWhiteout source).isWhited q = false := by
  refine Bool.eq_false_iff.mpr fun hw => ?_
  have ⟨x, hx, hwx, hor⟩ := isWhited_iff.mp hw
  have hwx : x = source ∨ o.whiteouts x = true := by
    simpa [Overlay.addWhiteout] using hwx
  rcases hwx with rfl | hwx
  · exact hs hx
  have := isWhited_iff.mpr ⟨x, hx, hwx, hor⟩
  rw [h] at this
  cases this

lemma Inv.move (hsr : source ≠ []) (htr : target ≠ [])
    (hst : ¬source <+: target) (hts : ¬target <+: source)
    (hdir : o.upper.layer.isDir target.dropLast = true) (hvis : o.isWhited target = false)
    (hstale : ∀ r, r ≠ [] → o.upper.stat (source ++ r) ≠ none → o.whiteouts (target ++ r) = false)
    (hbare : ∀ q, target <+: q → q ≠ target → o.lower.stat q ≠ none → o.isWhited q = true)
    (hu : u.layer = o.upper.layer.move source target) :
    (({ o with upper := u } : Overlay).addWhiteout source).Inv := by
  have hsame : ∀ q, (({ o with upper := u } : Overlay).addWhiteout source).isWhited q =
      (o.addWhiteout source).isWhited q := isWhited_congr rfl
  have hmono : ∀ q, o.isWhited q = true → (o.addWhiteout source).isWhited q = true := by
    intro q hq
    have ⟨x, hx, hw, hor⟩ := isWhited_iff.mp hq
    exact isWhited_iff.mpr ⟨x, hx, by simp [Overlay.addWhiteout, hw], hor⟩
  refine ⟨⟨?_, h.layers.lower⟩, by simp [Overlay.addWhiteout, h.root, Ne.symm hsr], ?_, ?_⟩
  · show u.layer.Tree
    rw [hu]
    exact h.layers.upper.move hsr htr hst hdir
  · intro q hq
    replace hq : u.layer.stat q ≠ none := hq
    rw [hu] at hq
    by_cases htq : target <+: q
    · obtain ⟨r, rfl⟩ := htq
      rw [Layer.stat_moved] at hq
      exact h.seen_moved htr hst hts hvis hstale hq
    by_cases hsq : source <+: q
    · exact absurd (Layer.stat_gone htq hsq) hq
    rw [Layer.stat_unmoved htq hsq] at hq
    exact isWhited_addWhiteout_of_not_below (h.seen q hq) hsq
  intro x hx q hxq hne hlow
  replace hx : u.layer.shape x = some false := hx
  rw [hu] at hx
  refine (hsame q).trans (hmono q ?_)
  by_cases htx : target <+: x
  · refine hbare q (htx.trans hxq) (fun heq => ?_) hlow
    exact hne (heq ▸ (htx.eq_of_length_le (heq ▸ hxq).length_le))
  by_cases hsx : source <+: x
  · rw [Layer.shape_eq_none.mpr (Layer.stat_gone htx hsx)] at hx
    cases hx
  have hshape : (o.upper.layer.move source target).shape x = o.upper.layer.shape x :=
    congrArg (Option.map _) (Layer.stat_unmoved htx hsx)
  exact h.bare x (hshape ▸ hx) q hxq hne hlow

lemma cleared_target (hp : p ≠ []) (hc : o.checkTarget isDir p = none) :
    o.clearTarget p = o ∨ Cleared o (o.clearTarget p) p := by
  unfold checkTarget at hc
  unfold clearTarget
  cases hs : o.stat p with
  | none => exact .inl rfl
  | some n =>
    rw [hs] at hc
    dsimp only at hc ⊢
    right
    by_cases hn : n.entry = .dir
    · rw [if_pos hn]
      cases isDir with
      | false => simp [hn] at hc
      | true =>
        cases hr : o.readdir p with
        | error e => simp [hn, hr] at hc
        | ok names =>
          have hnil : names = [] := by simpa [hn, hr] using hc
          exact cleared_rmdir h hp hs hn hr hnil
    · rw [if_neg hn]
      exact cleared_unlink h hs hn

lemma Inv.target_bare (hp : p ≠ []) (hd : o.view p.dropLast = some .dir)
    (hb : Bare o p) (hc : o.checkTarget isDir p = none) (hpq : p <+: q)
    (hne : q ≠ p) (hlow : o.lower.stat q ≠ none) : (o.removeWhiteout p).isWhited q = true := by
  cases hs : o.stat p with
  | none => exact h.hidden_below hs hd hb hpq hne hlow
  | some n =>
    have hw : o.isWhited p = false := isWhited_of_view (by simp [view, hs])
    have hwp : o.whiteouts p = false := by
      refine Bool.eq_false_iff.mpr fun hwp => ?_
      rw [isWhited_iff.mpr ⟨p, prefix_rfl, hwp, .inl hp⟩] at hw
      cases hw
    rw [removeWhiteout_eq hwp]
    have hv : o.shape p = some (decide (n.entry = .dir)) := by simp [shape, view, hs]
    by_cases hn : n.entry = .dir
    · -- an empty directory: its lower names are hidden one by one
      have hempty : ∀ x, ¬o.Lists p x := by
        rintro x ⟨names, hr, hx⟩
        unfold checkTarget at hc
        rw [hs] at hc
        cases isDir with
        | false => simp [hn] at hc
        | true =>
          have hnil : names = [] := by simpa [hn, hr] using hc
          rw [hnil] at hx
          cases hx
      obtain ⟨r, rfl⟩ := hpq
      cases r with
      | nil => exact absurd (append_nil p) hne
      | cons x r =>
        have hpre : p ++ [x] <+: p ++ x :: r := ⟨r, by simp⟩
        refine isWhited_below (q := p ++ [x]) ?_ hpre (by simp)
        by_contra hwx
        have hwx : o.isWhited (p ++ [x]) = false := by simpa using hwx
        refine hempty x (h.lists.mpr fun hv => ?_)
        have hsx := shape_eq_none.mpr hv
        rw [shape_of_not_isWhited hwx, or_eq_none_iff] at hsx
        exact h.layers.lower.stat_above hlow hpre (Layer.shape_eq_none.mp hsx.2)
    rw [shape_of_not_isWhited hw] at hv
    cases hu : o.upper.layer.shape p with
    | some b =>
      rw [hu, some_or] at hv
      exact h.bare p (by rw [hu, hv]; simp [hn]) q hpq hne hlow
    | none =>
      have hdir := h.layers.lower.isDir_above hlow hpq (Ne.symm hne)
      rw [hu, none_or, Layer.shape_eq_true.mpr hdir] at hv
      simp [hn] at hv

/-- What a rename asks for, to keep the tree. -/
structure Renamable (o : Overlay) (source target : Path) : Prop where
  source_ne : source ≠ []
  target_ne : target ≠ []
  dir : o.view target.dropLast = some .dir
  bare : Bare o target
  /-- No whiteout left from before is where something moves to. -/
  fresh : ∀ r, r ≠ [] → o.view (source ++ r) ≠ none → o.whiteouts (target ++ r) = false

/-- The state before the upper layer moves the subtree. -/
structure Prepared (o o' : Overlay) (target : Path) : Prop where
  inv : o'.Inv
  lower : o'.lower = o.lower
  whiteouts : o'.whiteouts = o.whiteouts
  shape : ∀ q, q ≠ target → o'.shape q = o.shape q

omit h in
lemma Prepared.copies {o'' : Overlay} (h : Prepared o o' target)
    (hc : Copies o' o'') : Prepared o o'' target :=
  ⟨h.inv.copies hc, hc.lower.trans h.lower, hc.whiteouts.trans h.whiteouts,
    fun q hq => (hc.merged q).trans (h.shape q hq)⟩

lemma prepared_clearTarget (hp : p ≠ [])
    (hc : o.checkTarget isDir p = none) : Prepared o (o.clearTarget p) p := by
  rcases cleared_target h hp hc with heq | hcl
  · rw [heq]
    exact ⟨h, rfl, rfl, fun _ _ => rfl⟩
  refine ⟨hcl.inv, hcl.lower, hcl.whiteouts, fun q hq => ?_⟩
  have hw := isWhited_congr hcl.whiteouts q
  cases hwq : o.isWhited q with
  | true => rw [shape_of_isWhited hwq, shape_of_isWhited (hw.trans hwq)]
  | false =>
    rw [shape_of_not_isWhited hwq, shape_of_not_isWhited (hw.trans hwq), hcl.shape, hcl.lower,
      if_neg hq]

lemma Inv.rename_last (hr : Renamable o source target)
    (hc : o.checkTarget isDir target = none) (hne : source ≠ target)
    (hp : Prepared o o' target) (hd : o'.view target.dropLast = some .dir) :
    (((o'.removeWhiteout target).onUpper fun u => u.rename source target).andThen
      fun o => (none, o.addWhiteout source)).2.Inv := by
  have h4 := hp.inv.removeWhiteout hd
  have hwhite : ∀ q, (o'.removeWhiteout target).isWhited q = (o.removeWhiteout target).isWhited q :=
    isWhited_congr (by simp [Overlay.removeWhiteout, hp.whiteouts])
  rcases (o'.removeWhiteout target).upper.rename_cases source target with
    ⟨hl, hor⟩ | ⟨hs, hst, hts, hdir, he, hl⟩
  · have herr := hor.resolve_right hne
    have hsame := h4.copies (Copies.of_shape fun q => congrArg (Layer.shape · q) hl)
    cases he : ((o'.removeWhiteout target).upper.rename source target).1 with
    | none => exact absurd he herr
    | some e => simpa [onUpper, he, Res.andThen] using hsame
  have hfin := h4.move hr.source_ne hr.target_ne hst (fun hp' => hts ⟨hp', h4.layers.upper⟩) hdir ?_ ?_ ?_
    hl
  · simpa [onUpper, he, Res.andThen] using hfin
  · -- neither the target nor its directory is hidden
    refine Bool.eq_false_iff.mpr fun hw => ?_
    have hdw : (o'.removeWhiteout target).isWhited target.dropLast = false := by
      refine Bool.eq_false_iff.mpr fun hw' => ?_
      have := isWhited_of_removeWhiteout hw'
      rw [Inv.dir_seen hd] at this
      cases this
    simpa [Overlay.removeWhiteout] using whiteouts_of_isWhited hw hdw
  · intro r hrne hup
    have hv : o'.shape (source ++ r) ≠ none := by
      rw [shape_of_not_isWhited (hp.inv.seen _ hup)]
      intro h0
      rw [or_eq_none_iff] at h0
      exact hup (Layer.shape_eq_none.mp h0.1)
    rw [hp.shape _ fun heq => hst (heq ▸ prefix_append ..)] at hv
    have := hr.fresh r hrne fun h0 => hv (shape_eq_none.mpr h0)
    simp [Overlay.removeWhiteout, hp.whiteouts, this]
  intro q hpq hqne hlow
  rw [hwhite]
  have hlow : o.lower.stat q ≠ none := by
    rw [← hp.lower]
    exact hlow
  exact h.target_bare hr.target_ne hr.dir hr.bare hc hpq hqne hlow

lemma Inv.rename (hr : o.stat source ≠ none → source ≠ target → Renamable o source target) :
    (o.rename source target).2.Inv := by
  unfold Overlay.rename
  cases hs : o.stat source with
  | none => exact h
  | some n =>
    dsimp only
    split
    · exact h
    rename_i hne
    split
    · exact h
    have hr := hr (by rw [hs]; exact nofun) hne
    cases hc : o.checkTarget (n.entry = .dir) target with
    | some e => exact h
    | none =>
      have hp1 := prepared_clearTarget h hr.target_ne hc
      have hw : (o.clearTarget target).isWhited source = false := by
        rw [isWhited_congr hp1.whiteouts]
        exact isWhited_of_view (by simp [view, hs])
      have hcopy := copies_copyUp hp1.inv.layers hw hr.source_ne
      have hp2 := hp1.copies hcopy
      cases hcu : (o.clearTarget target).copyUp source with
      | mk err o2 =>
        rw [hcu] at hp2
        cases err with
        | some e => exact hp2.inv
        | none =>
          have hdne : target.dropLast ≠ target := fun heq => by
            have := congrArg List.length heq
            have := length_pos_iff.mpr hr.target_ne
            rw [length_dropLast] at *
            omega
          have hd : ∀ {o'}, Prepared o o' target → o'.view target.dropLast = some .dir :=
            fun hp => shape_eq_true.mp ((hp.shape _ hdne).trans (shape_eq_true.mpr hr.dir))
          have hp3 := hp2.copies ((fills_ensureDirInUpper o2 target.dropLast).copies
            (shadows_of_view hp2.inv.layers (hd hp2)))
          exact h.rename_last hr hc hne hp3 (hd hp3)

/-! ### Every run -/

/-- A new name is in a directory that is seen and takes no whiteout over lower nodes away; what is
written is not hidden; the root stays. -/
def Proper (o : Overlay) : Op → Prop
  | .create p _ | .mkdir p _ | .mknod p _ _ | .symlink _ p | .link _ p =>
    o.stat p = none → o.view p.dropLast = some .dir ∧ Bare o p
  | .writeAt p _ _ | .truncate p _ => o.isWhited p = false
  | .unlink _ => True
  | .rmdir p => p ≠ []
  | .rename source target => o.stat source ≠ none → source ≠ target → Renamable o source target

lemma Inv.call (op : Op) (hop : Proper o op) : (o.call op).2.Inv := by
  cases op with
  | create p mode => exact h.make hop
  | mkdir p mode => exact h.make hop
  | mknod p kind mode => exact h.make hop
  | symlink target p => exact h.make hop
  | link old new => exact h.link hop
  | writeAt p off buf => exact h.modify hop _
  | truncate p len => exact h.modify hop _
  | unlink p => exact h.unlink
  | rmdir p => exact h.rmdir hop
  | rename source target => exact h.rename hop

end

lemma Inv.init {lower : Layer} (hl : lower.Tree) (refuse : Nat → Option Errno) :
    (Overlay.init lower refuse).Inv := by
  refine ⟨init_layers hl refuse, rfl, fun p _ => ?_, fun p hp => ?_⟩
  · refine Bool.eq_false_iff.mpr fun hw => ?_
    obtain ⟨q, -, hq, -⟩ := isWhited_iff.mp hw
    cases hq
  replace hp : rootLayer.shape p = some false := hp
  unfold Layer.shape rootLayer at hp
  dsimp only at hp
  split at hp <;> simp at hp

/-- The states of the runs whose calls meet a condition. -/
abbrev Reach (can : Overlay → Op → Prop) (lower : Layer) (refuse : Nat → Option Errno) :
    Overlay → Prop :=
  Run.Reach step can (init lower refuse)

lemma Inv.of_reach {lower : Layer} (hl : lower.Tree) {refuse : Nat → Option Errno}
    (h : Reach Proper lower refuse o) : o.Inv := by
  refine Run.Reach.invariant (P := Inv) h (.init hl refuse) fun o op o' hi hop hs => ?_
  cases hs
  exact hi.call op hop

/-- **The merged view is a tree.** Over every run of proper calls, what is seen is in a directory, a
directory lists what is seen in it, and one just made is empty. -/
theorem merged_tree (lower : Layer) (hl : lower.Tree) (refuse : Nat → Option Errno)
    (o : Overlay) (h : Reach Proper lower refuse o) :
    (∀ p, p ≠ [] → o.view p ≠ none → o.view p.dropLast = some .dir) ∧
    (∀ p name, o.Lists p name ↔ o.view (p ++ [name]) ≠ none) ∧
    ∀ p mode, Proper o (.mkdir p mode) → (o.call (.mkdir p mode)).1 = none →
      ∀ name, ¬(o.call (.mkdir p mode)).2.Lists p name := by
  have hi := Inv.of_reach hl h
  refine ⟨fun p => hi.parent_dir, fun p name => hi.lists, fun p mode hp hok name => ?_⟩
  obtain ⟨-, -, hs, -⟩ := make_ok hok
  obtain ⟨hd, hb⟩ := hp hs
  have hview := (make_local o hi.layers p .dir mode hd hb hok).2 (p ++ [name]) (by simp)
  rw [(hi.call (.mkdir p mode) hp).lists, not_not]
  refine hview.trans ?_
  by_contra hv
  have hpd := hi.parent_dir (by simp) hv
  rw [List.dropLast_concat, view, hs] at hpd
  cases hpd

def dirLayer : Layer :=
  (rootLayer.set ["d"] ⟨.dir, 0o755, 2⟩).set ["d", "x"] ⟨.file [1], 0o644, 3⟩

lemma dirLayer_tree : dirLayer.Tree := (rootLayer_tree.set rfl rfl _).set rfl rfl _

theorem merged_tree_removed : ∃ o, Reach Proper dirLayer (fun _ => none) o ∧
    o.view ["d"] = none ∧ (∀ name, ¬o.Lists ["d"] name) := by
  have hcan : Run.Allowed step Proper [.unlink ["d", "x"], .rmdir ["d"]]
      (init dirLayer fun _ => none) :=
    ⟨trivial, fun _ _ => ⟨List.cons_ne_nil _ _, fun _ _ => trivial⟩⟩
  have hr : Reach Proper dirLayer (fun _ => none) _ := .of_exec _ rfl hcan
  refine ⟨_, hr, by decide, fun name hn => ?_⟩
  obtain ⟨htree, hlists, -⟩ := merged_tree dirLayer dirLayer_tree _ _ hr
  have hd := htree (["d"] ++ [name]) (by simp) ((hlists ["d"] name).mp hn)
  rw [List.dropLast_concat] at hd
  exact absurd hd (by decide)

/-- `rename d e`, then `mkdir d`: the new directory has the lower `x` in it. -/
theorem mkdir_not_empty : ∃ o, Reach (fun _ _ => True) dirLayer (fun _ => none) o ∧
    (o.call (.mkdir ["d"] 0o755)).1 = none ∧ (o.call (.mkdir ["d"] 0o755)).2.Lists ["d"] "x" :=
  ⟨_, .of_exec_free [.rename ["d"] ["e"]] rfl, by decide, ["x"], by decide, by decide⟩

end Overlay

end NixVm.OverlayFs
