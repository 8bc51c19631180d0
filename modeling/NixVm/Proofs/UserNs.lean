/-
What the id maps of user namespaces guarantee, and when.

A map whose lines do not overlap is injective, and injective maps compose along the chain of
parents; that gives the first two properties for every table whose maps are `Apart`.

`write_map` checks less than this needs. `Careful` is what has to be asked of a map beside what is
checked.
-/
import NixVm.Kernel.UserNs
import NixVm.Lib.Run

namespace NixVm.UserNs

open Table List Option

/-! ### One map -/

def Within (first count id : Nat) : Prop := first ≤ id ∧ id < first + count

/-- No id is in two lines, on either side. -/
def Apart (es : List Extent) : Prop :=
  ∀ e ∈ es, ∀ f ∈ es, e ≠ f → ∀ id, ¬ (Within e.inside e.count id ∧ Within f.inside f.count id) ∧
    ¬ (Within e.outside e.count id ∧ Within f.outside f.count id)

variable {es : List Extent} {id out ns b parent : Nat} {e entry : Entry} {t' : Table}
  {kind : IdKind} {text : List Char}

lemma toOutside_eq_some (h : toOutside es id = some out) :
    ∃ e ∈ es, Within e.inside e.count id ∧ out = e.outside + (id - e.inside) := by
  have ⟨e, he, hout⟩ := exists_of_findSome?_eq_some h
  split at hout
  next hin =>
    refine ⟨e, he, ⟨hin.1, ?_⟩, (Option.some.inj hout).symm⟩
    omega
  · cases hout

lemma toInside_eq_some (h : toInside es id = some out) :
    ∃ e ∈ es, Within e.outside e.count id ∧ out = e.inside + (id - e.outside) := by
  have ⟨e, he, hout⟩ := exists_of_findSome?_eq_some h
  split at hout
  next hin =>
    refine ⟨e, he, ⟨hin.1, ?_⟩, (Option.some.inj hout).symm⟩
    omega
  · cases hout

lemma toInside_toOutside (h : Apart es)
    (hout : toOutside es id = some out) : toInside es out = some id := by
  obtain ⟨e, he, ⟨hlo, hhi⟩, rfl⟩ := toOutside_eq_some hout
  have hin : Within e.outside e.count (e.outside + (id - e.inside)) := by
    constructor <;> omega
  -- some line holds the id outside, and it can only be the line that was used
  cases hback : toInside es (e.outside + (id - e.inside)) with
  | none =>
    have hnone := List.findSome?_eq_none_iff.mp hback e he
    rw [if_pos ⟨hin.1, by omega⟩] at hnone
    cases hnone
  | some back =>
    obtain ⟨f, hf, hfin, rfl⟩ := toInside_eq_some hback
    obtain rfl : f = e := by
      by_contra hne
      exact (h f hf e he hne _).2 ⟨hfin, hin⟩
    congr 1
    omega

/-! ### Chains -/

/-- The entries and their parents are in order, and no chain is too long for its loop. -/
structure Table.Nested (t : Table) : Prop where
  parent_lt : ∀ ns e, t.entry ns = some e → e.parent < ns
  depth : ∀ ns, (t.chain ns).length < maxDepth

variable {t : Table}

lemma chainFrom_stable (t : Table) (fuel : Nat) :
    ∀ ns, (t.chainFrom fuel ns).length < fuel → t.chainFrom (fuel + 1) ns = t.chainFrom fuel ns := by
  induction fuel with
  | zero => intro ns h; omega
  | succ fuel ih =>
    intro ns h
    unfold chainFrom at h ⊢
    cases he : t.entry ns with
    | none => rfl
    | some e =>
      simp only [he, length_cons] at h
      simp only [ih e.parent (by omega)]

lemma Table.chain_none (h : t.entry ns = none) : t.chain ns = [] := by
  simp only [chain, maxDepth, chainFrom, h]

lemma Table.Nested.chain_some (ht : t.Nested) (h : t.entry ns = some e) :
    t.chain ns = ns :: t.chain e.parent := by
  have hdepth := ht.depth ns
  have hcons : t.chain ns = ns :: t.chainFrom 31 e.parent := by
    simp only [chain, maxDepth, chainFrom, h]
  rw [hcons] at hdepth ⊢
  have hstable := chainFrom_stable t 31 e.parent (by
    simp only [length_cons, maxDepth] at hdepth
    omega)
  exact congrArg _ hstable.symm

lemma Table.toGlobal_none (h : t.entry ns = none)
    (kind : IdKind) (id : Nat) : t.toGlobal ns kind id = some id := by
  rw [toGlobal, chain_none h]
  rfl

lemma Table.Nested.toGlobal_some (ht : t.Nested)
    (h : t.entry ns = some e) (kind : IdKind) (id : Nat) :
    t.toGlobal ns kind id = (e.ids kind).bind fun es =>
      (toOutside es id).bind (t.toGlobal e.parent kind) := by
  have hids : t.ids ns kind = e.ids kind := by rw [ids, h]; rfl
  rw [toGlobal, ht.chain_some h, foldlM_cons, hids]
  cases e.ids kind with
  | none => rfl
  | some es => rfl

/-! ### The properties -/

/-- Ids of one namespace stay apart, read back as they are, and none is made up. -/
structure Table.Sound (t : Table) : Prop where
  injective : ∀ ns kind a b g, t.toGlobal ns kind a = some g → t.toGlobal ns kind b = some g → a = b
  inverse : ∀ ns kind id g, t.toGlobal ns kind id = some g → t.seenFromGlobal ns kind g = id
  mapped : ∀ ns entry kind es, t.entry ns = some entry → entry.ids kind = some es →
    ∀ e ∈ es, ∀ id, Within e.outside e.count id → t.isMapped entry.parent kind id = true

/-- The invariant behind `Sound`. -/
structure Table.Kept (t : Table) : Prop extends t.Nested where
  apart : ∀ ns entry kind es, t.entry ns = some entry → entry.ids kind = some es → Apart es
  mapped : ∀ ns entry kind es, t.entry ns = some entry → entry.ids kind = some es →
    ∀ e ∈ es, ∀ id, Within e.outside e.count id → t.isMapped entry.parent kind id = true

lemma foldlM_inverse (ht : t.Kept) (kind : IdKind) : ∀ ns id g, t.toGlobal ns kind id = some g →
      (t.chain ns).reverse.foldlM
        (fun id level => (t.ids level kind).bind fun es => toInside es id) g = some id := by
  intro ns
  induction ns using Nat.strongRecOn with
  | ind ns ih =>
    intro id g hg
    cases he : t.entry ns with
    | none =>
      rw [toGlobal_none he] at hg
      rw [chain_none he]
      simpa using hg.symm
    | some e =>
      rw [ht.toGlobal_some he] at hg
      have ⟨es, hes, hg⟩ := bind_eq_some_iff.mp hg
      have ⟨out, hout, hg⟩ := bind_eq_some_iff.mp hg
      have hids : t.ids ns kind = some es := by rw [ids, he]; exact hes
      have hup := ih e.parent (ht.parent_lt ns e he) out g hg
      have hdown := toInside_toOutside (ht.apart ns e kind es he hes) hout
      rw [ht.chain_some he, reverse_cons, foldlM_append, hup]
      simp [hids, hdown]

lemma Table.Kept.sound (ht : t.Kept) : t.Sound where
  injective := by
    intro ns kind a b g ha hb
    have ha := foldlM_inverse ht kind ns a g ha
    have hb := foldlM_inverse ht kind ns b g hb
    rw [ha] at hb
    exact Option.some.inj hb
  inverse := by
    intro ns kind id g hg
    rw [seenFromGlobal, foldlM_inverse ht kind ns id g hg]
    rfl
  mapped := ht.mapped

/-! ### A table that grows -/

/-- Below `b`, `t'` has the namespaces of `t`, with the maps they had. -/
structure Table.Grows (t t' : Table) (b : Nat) : Prop where
  none : ∀ m < b, t.entry m = none → t'.entry m = none
  some : ∀ m < b, ∀ e, t.entry m = some e → ∃ e', t'.entry m = some e' ∧ e'.parent = e.parent ∧
    ∀ kind es, e.ids kind = some es → e'.ids kind = some es

lemma Table.Grows.toGlobal (hg : t.Grows t' b) (ht : t.Nested)
    (ht' : t'.Nested) (kind : IdKind) : ∀ m < b, ∀ id g, t.toGlobal m kind id = Option.some g →
      t'.toGlobal m kind id = Option.some g := by
  intro m
  induction m using Nat.strongRecOn with
  | ind m ih =>
    intro hm id g h
    cases he : t.entry m with
    | none => rw [toGlobal_none (hg.none m hm he), ← h, toGlobal_none he]
    | some e =>
      have ⟨e', he', hparent, hids⟩ := hg.some m hm e he
      have hlt := ht.parent_lt m e he
      rw [ht.toGlobal_some he] at h
      have ⟨es, hes, h⟩ := bind_eq_some_iff.mp h
      have ⟨out, hout, h⟩ := bind_eq_some_iff.mp h
      rw [ht'.toGlobal_some he', hids kind es hes, hparent]
      simpa [hout] using ih e.parent hlt (by omega) out g h

lemma Table.Grows.isMapped (hg : t.Grows t' b) (ht : t.Nested)
    (ht' : t'.Nested) {m : Nat} (hm : m < b)
    (h : t.isMapped m kind id = true) : t'.isMapped m kind id = true := by
  have ⟨g, hg'⟩ := isSome_iff_exists.mp h
  rw [Table.isMapped, hg.toGlobal ht ht' kind m hm id g hg']
  rfl

/-! ### Creating a namespace -/

/-- What the kernel's counter gives: a number above all that are in use. -/
def Table.Fresh (t : Table) (ns parent : Nat) : Prop :=
  (∀ m, (t.entry m).isSome → m < ns) ∧ parent < ns

lemma chainFrom_insert (hne : ∀ m x, t.entry m = some x → x.parent ≠ ns)
    (fuel : Nat) : ∀ m, m ≠ ns → (t.insert ns e).chainFrom fuel m = t.chainFrom fuel m := by
  induction fuel with
  | zero => intro m _; rfl
  | succ fuel ih =>
    intro m hm
    have hentry : (t.insert ns e).entry m = t.entry m := if_neg hm
    unfold chainFrom
    rw [hentry]
    cases he : t.entry m with
    | none => rfl
    | some x => simp only [ih x.parent (hne m x he)]

lemma chainFrom_length_le (t : Table) (fuel : Nat) :
    ∀ m, (t.chainFrom fuel m).length ≤ (t.chainFrom (fuel + 1) m).length := by
  induction fuel with
  | zero => intro m; exact Nat.zero_le _
  | succ fuel ih =>
    intro m
    cases he : t.entry m with
    | none => simp only [chainFrom, he, Nat.le_refl]
    | some x =>
      rw [chainFrom, chainFrom, he]
      exact Nat.succ_le_succ (ih x.parent)

lemma nested_create (ht : t.Nested) (hf : t.Fresh ns parent) (hp : e.parent = parent)
    (hdepth : (t.chain parent).length + 1 < maxDepth) : (t.insert ns e).Nested := by
  have hne : ∀ m x, t.entry m = some x → x.parent ≠ ns := by
    intro m x hx
    have := ht.parent_lt m x hx
    have := hf.1 m (by rw [hx]; rfl)
    omega
  constructor
  · intro m x hx
    by_cases hm : m = ns
    · subst hm
      have hxe : x = e := (Option.some.inj ((if_pos rfl).symm.trans hx)).symm
      rw [hxe, hp]
      exact hf.2
    · exact ht.parent_lt m x ((if_neg hm).symm.trans hx)
  intro m
  by_cases hm : m = ns
  · subst hm
    have hentry : (t.insert m e).entry m = some e := if_pos rfl
    have hparent : e.parent ≠ m := by rw [hp]; exact ne_of_lt hf.2
    have hchain : (t.insert m e).chain m = m :: t.chainFrom 31 parent := by
      rw [chain, maxDepth, chainFrom, hentry, ← hp]
      exact congrArg _ (chainFrom_insert hne 31 e.parent hparent)
    have hle := chainFrom_length_le t 31 parent
    rw [hchain, length_cons]
    exact lt_of_le_of_lt (Nat.succ_le_succ hle) hdepth
  · rw [chain, chainFrom_insert hne maxDepth m hm]
    exact ht.depth m

lemma create_ok {uid gid : Nat}
    (h : t.create ns parent uid gid = .ok t') : (t.chain parent).length + 1 < maxDepth ∧
      ∃ e, t' = t.insert ns e ∧ e.parent = parent ∧ ∀ kind, e.ids kind = none := by
  unfold create at h
  split at h
  · cases h
  rename_i hdepth
  cases h
  exact ⟨Nat.lt_of_not_le hdepth, _, rfl, rfl, fun kind => by cases kind <;> rfl⟩

lemma kept_create (ht : t.Kept) {uid gid : Nat} (hf : t.Fresh ns parent)
    (h : t.create ns parent uid gid = .ok t') : t'.Kept := by
  obtain ⟨hdepth, x, rfl, hparent, hnone⟩ := create_ok h
  have hn := nested_create ht.toNested hf hparent hdepth
  have hgrow : t.Grows (t.insert ns x) ns :=
    ⟨fun m hm h => (if_neg (ne_of_lt hm)).trans h,
      fun m hm e he => ⟨e, (if_neg (ne_of_lt hm)).trans he, rfl, fun _ _ h => h⟩⟩
  -- the new namespace has no map yet, and the others are as they were
  have hold : ∀ m entry kind es, (t.insert ns x).entry m = some entry →
      entry.ids kind = some es → t.entry m = some entry := by
    intro m entry kind es hentry hes
    by_cases hm : m = ns
    · subst hm
      obtain rfl := Option.some.inj ((if_pos rfl).symm.trans hentry)
      rw [hnone] at hes
      cases hes
    · exact (if_neg hm).symm.trans hentry
  refine ⟨hn, fun m entry kind es hentry hes => ?_, fun m entry kind es hentry hes e he id hid => ?_⟩
  · exact ht.apart m entry kind es (hold m entry kind es hentry hes) hes
  have hentry := hold m entry kind es hentry hes
  refine hgrow.isMapped ht.toNested hn ?_ (ht.mapped m entry kind es hentry hes e he id hid)
  have := ht.parent_lt m entry hentry
  have := hf.1 m (by rw [hentry]; rfl)
  omega

/-! ### Writing a map -/

/-- Two lines both hold the largest id, on one side or the other. -/
def Extent.BothTop (e f : Extent) : Prop :=
  (Within e.inside e.count topId ∧ Within f.inside f.count topId) ∨
  (Within e.outside e.count topId ∧ Within f.outside f.count topId)

/-- Namespaces are numbered in order, ids of a line mean something in the parent, and at most one
line holds the largest id. -/
def Table.Careful (t : Table) : Op → Prop
  | .create ns parent _ _ => t.Fresh ns parent
  | .writeMap ns kind text _ => ∀ es entry, parseExtents text = .ok es → t.entry ns = some entry →
      (∀ e ∈ es, ∀ id, Within e.outside e.count id → t.isMapped entry.parent kind id = true) ∧
      es.Pairwise fun e f => ¬ e.BothTop f

lemma parseLine_le {line : List Char} {e : Extent} (h : parseLine line = some e) :
    e.inside + e.count ≤ topId + 1 := by
  unfold parseLine at h
  split at h
  · split at h
    · split at h
      · cases h
      cases h
      dsimp only
      omega
    · cases h
  · cases h

lemma inside_of_parse (h : parseExtents text = .ok es) :
    (∀ e ∈ es, e.inside + e.count ≤ topId + 1) ∧ es.Pairwise fun f e => clash e f = false := by
  unfold parseExtents at h
  split at h
  · cases h
  rename_i es' hes
  split at h
  · cases h
  split at h
  next hpair =>
    cases h
    refine ⟨fun e he => ?_, hpair⟩
    have ⟨line, hline⟩ := Run.exists_of_mem_mapM hes _ he
    exact parseLine_le hline
  · cases h

lemma outside_of_endsMapped (h : es.forM (t.endsMapped parent kind) = .ok ()) :
    ∀ e ∈ es, e.outside + e.count ≤ topId + 1 := by
  induction es with
  | nil => intro e he; cases he
  | cons x es ih =>
    rw [List.forM_eq_forM, List.forM_cons] at h
    cases hx : t.endsMapped parent kind x with
    | error err => rw [hx] at h; cases h
    | ok u =>
      rw [hx] at h
      intro e he
      rcases List.mem_cons.mp he with rfl | he
      · unfold endsMapped at hx
        split at hx
        · cases hx
        · omega
      · exact ih h e he

/-- Ids in two ranges at once: the overlap test sees them, unless they are the largest. -/
lemma top_of_not_overlaps {a n m : Nat} (h : overlaps a n b m = false)
    (ha : Within a n id) (hb : Within b m id) (hn : a + n ≤ topId + 1) : id = topId := by
  obtain ⟨ha1, ha2⟩ := ha
  obtain ⟨hb1, hb2⟩ := hb
  by_contra hne
  have hover : overlaps a n b m = true := by
    simp only [overlaps, saturatingAdd, Bool.and_eq_true]
    exact ⟨decide_eq_true (Nat.lt_min.mpr ⟨by omega, by omega⟩),
      decide_eq_true (Nat.lt_min.mpr ⟨by omega, by omega⟩)⟩
  rw [h] at hover
  cases hover

lemma apart_of_checks (hin : ∀ e ∈ es, e.inside + e.count ≤ topId + 1)
    (hout : ∀ e ∈ es, e.outside + e.count ≤ topId + 1)
    (hpair : es.Pairwise fun f e => clash e f = false)
    (htop : es.Pairwise fun e f => ¬ e.BothTop f) : Apart es := by
  have hdisjoint : es.Pairwise fun e f => ∀ id,
      ¬ (Within e.inside e.count id ∧ Within f.inside f.count id) ∧
      ¬ (Within e.outside e.count id ∧ Within f.outside f.count id) := by
    refine (hpair.and htop).imp_of_mem fun {e f} he _ ⟨hclash, hnot⟩ id => ?_
    simp only [clash, Bool.or_eq_false_iff] at hclash
    constructor
    · intro hid
      obtain rfl := top_of_not_overlaps hclash.1 hid.2 hid.1 (hin f ‹_›)
      exact hnot (.inl hid)
    intro hid
    obtain rfl := top_of_not_overlaps hclash.2 hid.2 hid.1 (hout f ‹_›)
    exact hnot (.inr hid)
  have hsymm : Std.Symm fun e f : Extent => ∀ id,
      ¬ (Within e.inside e.count id ∧ Within f.inside f.count id) ∧
      ¬ (Within e.outside e.count id ∧ Within f.outside f.count id) :=
    ⟨fun a b hab id => ⟨fun hc => (hab id).1 hc.symm, fun hc => (hab id).2 hc.symm⟩⟩
  intro e he f hf hne
  exact hdisjoint.forall he hf hne

lemma writeMap_ok {privileged : Bool} (h : t.writeMap ns kind text privileged = .ok t') :
    ∃ es entry, parseExtents text = .ok es ∧ t.entry ns = some entry ∧ entry.ids kind = none ∧
      es.forM (t.endsMapped entry.parent kind) = .ok () ∧
      t' = t.insert ns (entry.setIds kind es) := by
  unfold writeMap at h
  split at h
  · cases h
  rename_i es hes
  split at h
  · cases h
  rename_i entry hentry
  split at h
  · cases h
  rename_i hnone
  split at h
  · cases h
  split at h
  · cases h
  rename_i hends
  cases h
  exact ⟨es, entry, hes, hentry, by simpa using hnone, hends, rfl⟩

@[simp] lemma Entry.setIds_parent (e : Entry) (kind : IdKind) (es : List Extent) :
    (e.setIds kind es).parent = e.parent := by cases kind <;> rfl

lemma Entry.setIds_ids (e : Entry) (kind kind' : IdKind) (es : List Extent) :
    (e.setIds kind es).ids kind' = if kind' = kind then some es else e.ids kind' := by
  cases kind <;> cases kind' <;> rfl

lemma chainFrom_setIds (hentry : t.entry ns = some entry)
    (kind : IdKind) (es : List Extent) (fuel : Nat) :
    ∀ m, (t.insert ns (entry.setIds kind es)).chainFrom fuel m = t.chainFrom fuel m := by
  induction fuel with
  | zero => intro m; rfl
  | succ fuel ih =>
    intro m
    by_cases hm : m = ns
    · subst hm
      have hnew : (t.insert m (entry.setIds kind es)).entry m = some (entry.setIds kind es) :=
        if_pos rfl
      rw [chainFrom, chainFrom, hnew, hentry]
      exact congrArg _ ((ih _).trans (by rw [Entry.setIds_parent]))
    have hold : (t.insert ns (entry.setIds kind es)).entry m = t.entry m := if_neg hm
    rw [chainFrom, chainFrom, hold]
    cases t.entry m with
    | none => rfl
    | some x => exact congrArg _ (ih _)

lemma nested_setIds (ht : t.Nested)
    (hentry : t.entry ns = some entry) (kind : IdKind) (es : List Extent) :
    (t.insert ns (entry.setIds kind es)).Nested := by
  constructor
  · intro m x hx
    by_cases hm : m = ns
    · subst hm
      obtain rfl := Option.some.inj ((if_pos rfl).symm.trans hx)
      rw [Entry.setIds_parent]
      exact ht.parent_lt m entry hentry
    · exact ht.parent_lt m x ((if_neg hm).symm.trans hx)
  · intro m
    rw [chain, chainFrom_setIds hentry]
    exact ht.depth m

/-- A map is written where there was none, so nothing that was there changes. -/
lemma grows_setIds (hentry : t.entry ns = some entry)
    (hnone : entry.ids kind = none) (es : List Extent) (b : Nat) :
    t.Grows (t.insert ns (entry.setIds kind es)) b := by
  constructor
  · intro m _ hm
    have hne : m ≠ ns := fun h => by rw [h, hentry] at hm; cases hm
    exact (if_neg hne).trans hm
  intro m _ e he
  by_cases hm : m = ns
  · subst hm
    obtain rfl : entry = e := Option.some.inj (hentry.symm.trans he)
    refine ⟨entry.setIds kind es, if_pos rfl, Entry.setIds_parent .., fun kind' es' h => ?_⟩
    rw [Entry.setIds_ids, if_neg fun hk => by rw [hk, hnone] at h; cases h]
    exact h
  · exact ⟨e, (if_neg hm).trans he, rfl, fun _ _ h => h⟩

lemma kept_writeMap (ht : t.Kept)
    {privileged : Bool} (hc : t.Careful (.writeMap ns kind text privileged))
    (h : t.writeMap ns kind text privileged = .ok t') : t'.Kept := by
  obtain ⟨es, entry, hes, hentry, hnone, hends, rfl⟩ := writeMap_ok h
  have ⟨hmapped, htop⟩ := hc es entry hes hentry
  have ⟨hin, hpair⟩ := inside_of_parse hes
  have hapart := apart_of_checks hin (outside_of_endsMapped hends) hpair htop
  have hn := nested_setIds ht.toNested hentry kind es
  -- a map of the new table is the one just written or one that was there
  have hsplit : ∀ m x kind' es', (t.insert ns (entry.setIds kind es)).entry m = some x →
      x.ids kind' = some es' → (es' = es ∧ kind' = kind ∧ x.parent = entry.parent) ∨
        ∃ y, t.entry m = some y ∧ y.ids kind' = some es' ∧ x.parent = y.parent := by
    intro m x kind' es' hx hids
    by_cases hm : m = ns
    · subst hm
      obtain rfl := Option.some.inj ((if_pos rfl).symm.trans hx)
      rw [Entry.setIds_ids] at hids
      by_cases hk : kind' = kind
      · rw [if_pos hk] at hids
        exact .inl ⟨(Option.some.inj hids).symm, hk, Entry.setIds_parent ..⟩
      · rw [if_neg hk] at hids
        exact .inr ⟨entry, hentry, hids, Entry.setIds_parent ..⟩
    · exact .inr ⟨x, (if_neg hm).symm.trans hx, hids, rfl⟩
  refine ⟨hn, fun m x kind' es' hx hids => ?_, fun m x kind' es' hx hids e he id hid => ?_⟩
  · rcases hsplit m x kind' es' hx hids with ⟨rfl, -, -⟩ | ⟨y, hy, hyids, -⟩
    · exact hapart
    · exact ht.apart m y kind' es' hy hyids
  have hgrow := grows_setIds hentry hnone es (x.parent + 1)
  refine hgrow.isMapped ht.toNested hn (Nat.lt_succ_self _) ?_
  rcases hsplit m x kind' es' hx hids with ⟨rfl, rfl, hp⟩ | ⟨y, hy, hyids, hp⟩
  · rw [hp]
    exact hmapped e he id hid
  · rw [hp]
    exact ht.mapped m y kind' es' hy hyids e he id hid

/-! ### Runs -/

lemma kept_init : init.Kept := by
  refine ⟨⟨?_, ?_⟩, ?_, ?_⟩
  · intro ns e h; cases h
  · intro ns
    rw [chain_none rfl]
    decide
  · intro ns e kind es h; cases h
  · intro ns e kind es h; cases h

lemma kept_next (ht : t.Kept) (h : t.Next Table.Careful t') : t'.Kept := by
  obtain ⟨op, hc, hop⟩ := h
  cases op with
  | create ns parent uid gid => exact kept_create ht hc hop
  | writeMap ns kind text privileged => exact kept_writeMap ht hc hop

/-- **Careful maps are sound.** In every table reached by careful calls, ids are translated
injectively and back, and none is made up. -/
theorem careful_maps_sound (h : Relation.ReflTransGen (Table.Next Table.Careful) Table.init t) :
    t.Sound := by
  suffices hk : t.Kept from hk.sound
  induction h with
  | refl => exact kept_init
  | tail _ hlast ih => exact kept_next ih hlast

def bare : Table := Table.init.insert 1 ⟨0, none, none, false, 0, 0⟩

/-- The same after its uid map was written. -/
def child (es : List Extent) : Table := bare.insert 1 ⟨0, some es, none, false, 0, 0⟩

lemma fresh_first : init.Fresh 1 0 :=
  ⟨fun m hm => (by cases hm), by decide⟩

theorem careful_maps_sound_shifted :
    (child [⟨0, 100000, 65536⟩]).seenFromGlobal 1 .uid 100005 = 5 := by
  have hcreate : Table.init.Next Table.Careful bare := ⟨.create 1 0 0 0, fresh_first, rfl⟩
  have hwrite : bare.Next Table.Careful (child [⟨0, 100000, 65536⟩]) := by
    refine ⟨.writeMap 1 .uid
      ['0', ' ', '1', '0', '0', '0', '0', '0', ' ', '6', '5', '5', '3', '6'] true, ?_, rfl⟩
    intro es entry hes hentry
    obtain rfl : es = [⟨0, 100000, 65536⟩] := (Except.ok.inj hes).symm
    obtain rfl := Option.some.inj hentry
    refine ⟨fun e _ id _ => ?_, List.pairwise_singleton ..⟩
    rfl
  have hsound := careful_maps_sound ((Relation.ReflTransGen.single hcreate).tail hwrite)
  exact hsound.inverse 1 .uid 5 100005 rfl

/-- What the kernel by itself guarantees of its calls: the numbering. -/
def Table.Numbered (t : Table) : Op → Prop
  | .create ns parent _ _ => t.Fresh ns parent
  | .writeMap .. => True

/-- Two lines for the largest id, and a line over a gap in the parent's map. -/
theorem careless_maps_unsound :
    (∃ t, Relation.ReflTransGen (Table.Next Table.Numbered) Table.init t ∧
      t.toGlobal 1 .uid 0 = some topId ∧ t.toGlobal 1 .uid 1 = some topId) ∧
    ∃ t, Relation.ReflTransGen (Table.Next Table.Numbered) Table.init t ∧ ∃ entry,
      t.entry 2 = some entry ∧ entry.ids .uid = some [⟨0, 0, 6⟩] ∧
      t.isMapped entry.parent .uid 3 = false := by
  have hcreate : Table.init.Next Table.Numbered bare := ⟨.create 1 0 0 0, fresh_first, rfl⟩
  have hfirst := Relation.ReflTransGen.single hcreate
  constructor
  · have hwrite : bare.Next Table.Numbered (child [⟨0, 4294967295, 1⟩, ⟨1, 4294967295, 1⟩]) :=
      ⟨.writeMap 1 .uid
        ['0', ' ', '4', '2', '9', '4', '9', '6', '7', '2', '9', '5', ' ', '1', '\n',
         '1', ' ', '4', '2', '9', '4', '9', '6', '7', '2', '9', '5', ' ', '1'] true, trivial, rfl⟩
    exact ⟨_, hfirst.tail hwrite, rfl, rfl⟩
  let c := child [⟨0, 0, 1⟩, ⟨5, 5, 1⟩]
  have hwrite : bare.Next Table.Numbered c :=
    ⟨.writeMap 1 .uid ['0', ' ', '0', ' ', '1', '\n', '5', ' ', '5', ' ', '1'] true, trivial, rfl⟩
  have hfresh : c.Fresh 2 1 := by
    refine ⟨fun m hm => ?_, by decide⟩
    by_cases h1 : m = 1
    · omega
    · simp [c, child, bare, Table.insert, Table.init, h1] at hm
  let d := c.insert 2 ⟨1, none, none, false, 0, 0⟩
  have hnest : c.Next Table.Numbered d := ⟨.create 2 1 0 0, hfresh, rfl⟩
  have hgap : d.Next Table.Numbered (d.insert 2 ⟨1, some [⟨0, 0, 6⟩], none, false, 0, 0⟩) :=
    ⟨.writeMap 2 .uid ['0', ' ', '0', ' ', '6'] true, trivial, rfl⟩
  exact ⟨_, ((hfirst.tail hwrite).tail hnest).tail hgap, _, rfl, rfl, rfl⟩

/-! ### What stays -/

/-- The namespaces `S`, and those above them, are in `t'` as in `t`; more of them may have maps. -/
structure Table.Keeps (t t' : Table) (S : Nat → Prop) : Prop where
  up : ∀ m e, S m → t.entry m = some e → S e.parent
  none : ∀ m, S m → t.entry m = none → t'.entry m = none
  some : ∀ m, S m → ∀ e, t.entry m = some e → ∃ e', t'.entry m = some e' ∧ e'.parent = e.parent ∧
    ∀ kind es, e.ids kind = some es → e'.ids kind = some es

section

variable {S : Nat → Prop} (hk : t.Keeps t' S)
include hk

lemma Table.Keeps.chainFrom (fuel : Nat) : ∀ m, S m → t'.chainFrom fuel m = t.chainFrom fuel m ∧
    ∀ x ∈ t.chainFrom fuel m, S x := by
  induction fuel with
  | zero => exact fun _ _ => ⟨rfl, nofun⟩
  | succ fuel ih =>
    intro m hm
    unfold Table.chainFrom
    cases he : t.entry m with
    | none =>
      rw [hk.none m hm he]
      exact ⟨rfl, nofun⟩
    | some e =>
      obtain ⟨e', he', hparent, -⟩ := hk.some m hm e he
      obtain ⟨hrest, hall⟩ := ih e.parent (hk.up m e hm he)
      simp only [he', hparent, hrest, true_and]
      exact fun x hx => (mem_cons.mp hx).elim (fun h => h ▸ hm) (hall x)

lemma Table.Keeps.toGlobal {kind : IdKind} {g : Nat} (hns : S ns)
    (h : t.toGlobal ns kind id = Option.some g) : t'.toGlobal ns kind id = Option.some g := by
  obtain ⟨heq, hall⟩ := hk.chainFrom maxDepth ns hns
  unfold Table.toGlobal Table.chain at *
  rw [heq]
  -- along a list of namespaces that are kept, a translation that goes through still does
  generalize t.chainFrom maxDepth ns = l at h hall
  induction l generalizing id with
  | nil => exact h
  | cons m l ih =>
    rw [foldlM_cons] at h ⊢
    obtain ⟨out, hout, hrest⟩ := bind_eq_some_iff.mp h
    obtain ⟨es, hes, hid⟩ := bind_eq_some_iff.mp hout
    obtain ⟨e, he, hids⟩ := bind_eq_some_iff.mp hes
    obtain ⟨e', he', -, hmore⟩ := hk.some m (hall m mem_cons_self) e he
    have hes' : t'.ids m kind = Option.some es := by rw [ids, he']; exact hmore kind es hids
    rw [hes', Option.bind_some, hid]
    exact ih hrest fun x hx => hall x (mem_cons_of_mem m hx)

end

/-- What happens to the table; whenever garbage is collected, what is in use is as `used` says. -/
inductive Table.Step (used : List Nat → Prop) (t : Table) : Table → Prop
  | call {t' : Table} (h : t.Next Table.Numbered t') : Step used t t'
  | setgroups {m : Nat} {text : Text.Str} {t' : Table} (h : t.writeSetgroups m text = .ok t') :
    Step used t t'
  | collect {keys inUse : List Nat} (hkeys : ∀ m, (t.entry m).isSome → m ∈ keys)
    (h : used inUse) : Step used t (t.collectGarbage keys inUse)

/-- Parents come before their children. -/
def Table.Ordered (t : Table) : Prop := ∀ m e, t.entry m = some e → e.parent < m

lemma Table.Ordered.insert (ho : t.Ordered) {n : Nat} {x : Entry} (hx : t.Fresh n x.parent ∨
    ∃ e, t.entry n = some e ∧ x.parent = e.parent ∧
      ∀ kind es, e.ids kind = some es → x.ids kind = some es) : (t.insert n x).Ordered ∧
    ((t.entry ns).isSome → ∃ S : Nat → Prop, S ns ∧ t.Keeps (t.insert n x) S) := by
  refine ⟨fun m e he => ?_, fun hns => ?_⟩
  · by_cases hm : m = n
    · cases (if_pos hm).symm.trans he
      rcases hx with hx | ⟨e, hn, hp, -⟩
      · exact hm ▸ hx.2
      · rw [hp, hm]
        exact ho n e hn
    · exact ho m e ((if_neg hm).symm.trans he)
  rcases hx with hx | ⟨e, hn, hp, hids⟩
  · refine ⟨(· < n), hx.1 ns hns, fun m e hm he => (ho m e he).trans hm, fun m hm h => ?_,
      fun m hm e he => ⟨e, (if_neg hm.ne).trans he, rfl, fun _ _ => id⟩⟩
    exact (if_neg hm.ne).trans h
  · refine ⟨fun _ => True, trivial, fun _ _ _ _ => trivial, fun m _ h => ?_, fun m _ e' he => ?_⟩
    · exact (if_neg fun heq => by rw [heq, hn] at h; cases h).trans h
    by_cases hm : m = n
    · subst hm
      rw [hn] at he
      cases he
      exact ⟨x, if_pos rfl, hp, hids⟩
    · exact ⟨e', (if_neg hm).trans he, rfl, fun _ _ => id⟩

lemma Table.Step.spec (ns : Nat) {used : List Nat → Prop} (h : t.Step used t') (ho : t.Ordered) :
    t'.Ordered ∧ ((∀ l, used l → ns ∈ l) → (t.entry ns).isSome →
      ∃ S : Nat → Prop, S ns ∧ t.Keeps t' S) := by
  cases h with
  | call h =>
    obtain ⟨op, hc, hop⟩ := h
    cases op with
    | create new parent uid gid =>
      obtain ⟨-, x, rfl, hparent, -⟩ := create_ok hop
      exact (ho.insert (.inl (hparent ▸ hc))).imp_right fun h _ => h
    | writeMap m kind text privileged =>
      obtain ⟨es, entry, -, hentry, hnone, -, rfl⟩ := writeMap_ok hop
      refine (ho.insert (.inr ⟨entry, hentry, ?_, fun k es' h => ?_⟩)).imp_right fun h _ => h
      · cases kind <;> rfl
      · cases kind <;> cases k <;> simp_all [Entry.ids, Entry.setIds]
  | setgroups h =>
    unfold writeSetgroups at h
    split at h
    · cases h
    next entry hentry =>
      split at h
      · cases h
        refine (ho.insert (.inr ⟨entry, hentry, ?_, fun k es h => ?_⟩)).imp_right fun h _ => h
        · rfl
        · cases k <;> exact h
      split at h
      · split at h <;> cases h
        exact ⟨ho, fun _ _ => ⟨fun _ => True, trivial, fun _ _ _ _ => trivial, fun _ _ => id,
          fun _ _ e he => ⟨e, he, rfl, fun _ _ => id⟩⟩⟩
      · cases h
  | @collect keys inUse hkeys hused =>
    refine ⟨fun m e he => ho m e (ite_none_right_eq_some.mp he).2, fun hall _ => ?_⟩
    -- an entry keeps its parent in the table, and that its own
    let parents := keys.filterMap fun k => (t.entry k).map Entry.parent
    refine ⟨fun m => m ∈ inUse ∨ m ∈ parents ∨ t.entry m = none, .inl (hall _ hused),
      fun m e _ he => ?_, fun m _ he => ?_, fun m hm e he => ?_⟩
    · exact .inr (.inl (mem_filterMap.mpr ⟨m, hkeys m (by rw [he]; rfl), by rw [he]; rfl⟩))
    · simp only [Table.collectGarbage, he, ite_self]
    · have hin : m ∈ inUse ∨ m ∈ parents := or_assoc.mpr hm |>.resolve_right (by rw [he]; nofun)
      exact ⟨e, (if_pos hin).trans he, rfl, fun _ _ => id⟩

/-- **A namespace in use keeps its meaning**: an id that is mapped means the same ever after, and so
does being nested, whatever is created, mapped, denied or collected later. -/
theorem meaning_permanent (h : Relation.ReflTransGen (Table.Step fun _ => True) Table.init t)
    (hlater : Relation.ReflTransGen (Table.Step (ns ∈ ·)) t t') (hns : (t.entry ns).isSome) :
    (∀ kind id g, t.toGlobal ns kind id = some g → t'.toGlobal ns kind id = some g) ∧
      ∀ outer, t'.isWithin ns outer = t.isWithin ns outer := by
  have hordered : t.Ordered := by
    clear hlater hns
    induction h with
    | refl => exact nofun
    | tail _ hlast ih => exact (hlast.spec ns ih).1
  suffices hall : t'.Ordered ∧ (t'.entry ns).isSome ∧ t'.chain ns = t.chain ns ∧
      ∀ kind id g, t.toGlobal ns kind id = some g → t'.toGlobal ns kind id = some g from
    ⟨hall.2.2.2, fun outer => by rw [isWithin, isWithin, hall.2.2.1]⟩
  induction hlater with
  | refl => exact ⟨hordered, hns, rfl, fun _ _ _ => id⟩
  | tail _ hlast ih =>
    obtain ⟨ho, hentry, hchain, hglobal⟩ := ih
    obtain ⟨ho', hkeep⟩ := hlast.spec ns ho
    obtain ⟨S, hS, hkeeps⟩ := hkeep (fun _ h => h) hentry
    obtain ⟨e, he⟩ := isSome_iff_exists.mp hentry
    obtain ⟨e', he', -⟩ := hkeeps.some ns hS e he
    refine ⟨ho', by rw [he']; rfl, (hkeeps.chainFrom maxDepth ns hS).1.trans hchain, ?_⟩
    exact fun kind id g h => hkeeps.toGlobal hS (hglobal kind id g h)

theorem meaning_permanent_collected : let c := child [⟨0, 100000, 65536⟩]
    (c.collectGarbage [1] [1]).toGlobal 1 .uid 5 = some 100005 := by
  intro c
  have hcreate : Table.init.Next Table.Numbered bare := ⟨.create 1 0 0 0, fresh_first, rfl⟩
  have hwrite : bare.Next Table.Numbered c := ⟨.writeMap 1 .uid
    ['0', ' ', '1', '0', '0', '0', '0', '0', ' ', '6', '5', '5', '3', '6'] true, trivial, rfl⟩
  have hkeys : ∀ m, (c.entry m).isSome → m ∈ [1] := by
    intro m hm
    by_contra h1
    simp [c, child, bare, Table.insert, Table.init, mem_singleton.not.mp h1] at hm
  exact (meaning_permanent ((Relation.ReflTransGen.single (.call hcreate)).tail (.call hwrite))
    (.single (.collect hkeys mem_cons_self)) rfl).1 .uid 5 100005 rfl

end NixVm.UserNs
