/-
The numbering of tasks in PID namespaces.

A namespace's two maps are kept inverse by every call that numbers a task with an id that is not
numbered yet, and numbers are not given twice until the counter has gone round (`Ns.Good`).
-/
import NixVm.Kernel.PidNs

namespace NixVm.PidNs

open List AList

/-! ### One namespace -/

structure Ns.Good (n : Ns) : Prop where
  inverse : ∀ g l, n.numbers.lookup g = some l ↔ n.globals.lookup l = some g
  given : n.given = (List.range n.given.length).map (fun i => (i + 1) % 2 ^ 32)
  next : n.next = (n.given.length + 1) % 2 ^ 32
  few : n.given.length ≤ 2 ^ 32
  known : ∀ l g, n.globals.lookup l = some g → l ∈ n.given

variable {n : Ns}

lemma Ns.Good.nodup (h : n.Good) : n.given.Nodup := by
  rw [h.given]
  refine List.Nodup.map_on ?_ nodup_range
  intro i hi j hj hij
  have hfew := h.few
  rw [mem_range] at hi hj
  omega

lemma Ns.good_new (parent : Nat) : (Ns.new parent).Good where
  inverse g l := by
    constructor <;> intro h <;> cases h
  given := rfl
  next := rfl
  few := Nat.zero_le _
  known l g h := by cases h

lemma Ns.Good.next_not_mem (h : n.Good) (hfew : n.given.length < 2 ^ 32) : n.next ∉ n.given := by
  intro hmem
  rw [h.given, h.next] at hmem
  obtain ⟨i, hi, heq⟩ := mem_map.mp hmem
  rw [mem_range] at hi
  omega

lemma Ns.Good.add (h : n.Good) {g : Nat} (own : Bool)
    (hg : n.numbers.lookup g = none) (hfew : n.given.length < 2 ^ 32) : (n.add g own).Good where
  inverse g' l := by
    have hnew := h.next_not_mem hfew
    simp only [Ns.add]
    by_cases hg' : g' = g
    · subst hg'
      rw [lookup_insert]
      by_cases hl : l = n.next
      · subst hl
        rw [lookup_insert]
        exact ⟨fun _ => rfl, fun _ => rfl⟩
      rw [lookup_insert_ne hl]
      refine ⟨fun hc => absurd (Option.some.inj hc).symm hl, fun hc => ?_⟩
      rw [(h.inverse g' l).mpr hc] at hg
      cases hg
    rw [lookup_insert_ne hg']
    by_cases hl : l = n.next
    · subst hl
      rw [lookup_insert]
      refine ⟨fun hc => ?_, fun hc => absurd (Option.some.inj hc).symm hg'⟩
      exact absurd (h.known _ _ ((h.inverse g' n.next).mp hc)) hnew
    · rw [lookup_insert_ne hl]
      exact h.inverse g' l
  given := by
    simp only [Ns.add, length_append, length_singleton, range_succ, map_append,
      map_singleton, ← h.given, ← h.next]
  next := by
    have hnext := h.next
    simp only [Ns.add, length_append, length_singleton]
    omega
  few := by
    simp only [Ns.add, length_append, length_singleton]
    omega
  known l g' hl := by
    simp only [Ns.add] at hl ⊢
    by_cases hl' : l = n.next
    · subst hl'
      exact mem_append_right _ (mem_singleton_self _)
    · rw [lookup_insert_ne hl'] at hl
      exact mem_append_left _ (h.known l g' hl)

lemma Ns.Good.remove (h : n.Good) (g : Nat) : (n.remove g).Good := by
  unfold Ns.remove
  split
  · next l hl =>
    refine ⟨fun g' l' => ?_, h.given, h.next, h.few, fun l' g' hl' => ?_⟩
    · by_cases hg : g' = g
      · subst hg
        rw [lookup_erase]
        refine ⟨fun hc => absurd hc.symm (Option.some_ne_none _), fun hc => ?_⟩
        by_cases hll : l' = l
        · subst hll
          rw [lookup_erase] at hc
          cases hc
        rw [lookup_erase_ne hll] at hc
        rw [(h.inverse g' l').mpr hc] at hl
        exact absurd (Option.some.inj hl) hll
      rw [lookup_erase_ne hg]
      by_cases hll : l' = l
      · subst hll
        rw [lookup_erase]
        refine ⟨fun hc => ?_, fun hc => absurd hc.symm (Option.some_ne_none _)⟩
        have := (h.inverse g' l').mp hc
        rw [(h.inverse g l').mp hl] at this
        exact absurd (Option.some.inj this).symm hg
      · rw [lookup_erase_ne hll]
        exact h.inverse g' l'
    by_cases hll : l' = l
    · subst hll
      rw [lookup_erase] at hl'
      cases hl'
    · rw [lookup_erase_ne hll] at hl'
      exact h.known l' g' hl'
  · exact h

lemma Ns.add_lookup (n : Ns) (g g' : Nat) (own : Bool) :
    (n.add g own).numbers.lookup g' = if g' = g then some n.next else n.numbers.lookup g' := by
  split
  · next h =>
    subst h
    exact lookup_insert _
  · next h => exact lookup_insert_ne h

lemma Ns.remove_lookup (n : Ns) (g g' : Nat) :
    (n.remove g).numbers.lookup g' = if g' = g then none else n.numbers.lookup g' := by
  unfold Ns.remove
  split
  · split
    · next h =>
      subst h
      exact lookup_erase ..
    · next h => exact lookup_erase_ne h
  next hnone =>
  split
  · next h =>
    subst h
    exact hnone
  · rfl

@[simp]
lemma Ns.remove_parent (n : Ns) (g : Nat) : (n.remove g).parent = n.parent := by
  unfold Ns.remove
  split <;> rfl

namespace Table

variable {t t' : Table}

/-! ### Chains -/

variable {ns id : Nat} {n m : Ns} {inUse : List Nat}

lemma chainFrom_some (h : t.entry ns = some n) (fuel : Nat) :
    t.chainFrom (fuel + 1) ns = ns :: t.chainFrom fuel n.parent := by
  simp only [chainFrom, h]

lemma chainFrom_none (h : t.entry ns = none) (fuel : Nat) : t.chainFrom fuel ns = [] := by
  cases fuel with
  | zero => rfl
  | succ fuel => simp only [chainFrom, h]

lemma chainFrom_congr (h : ∀ k, (t'.entry k).map (·.parent) = (t.entry k).map (·.parent)) :
    ∀ fuel ns, t'.chainFrom fuel ns = t.chainFrom fuel ns := by
  intro fuel
  induction fuel with
  | zero => exact fun _ => rfl
  | succ fuel ih =>
    intro ns
    have hns := h ns
    cases he : t.entry ns with
    | none =>
      rw [he, Option.map_none, Option.map_eq_none_iff] at hns
      rw [chainFrom_none he, chainFrom_none hns]
    | some n =>
      rw [he, Option.map_some] at hns
      obtain ⟨n', hn', hp⟩ := Option.map_eq_some_iff.mp hns
      rw [chainFrom_some he, chainFrom_some hn', ih, hp]

/-- The namespaces have greater ids than those above them. -/
structure Below (t : Table) (bound : Nat) : Prop where
  pos : ∀ id n, t.entry id = some n → 0 < id
  lt : ∀ id n, t.entry id = some n → id < bound
  parent : ∀ id n, t.entry id = some n → n.parent < id
  up : ∀ id n, t.entry id = some n → n.parent = 0 ∨ ∃ p, t.entry n.parent = some p

variable {bound : Nat}

lemma Below.entry_zero (h : t.Below bound) : t.entry 0 = none := by
  cases he : t.entry 0 with
  | none => rfl
  | some n => exact absurd (h.pos 0 n he) (lt_irrefl 0)

lemma le_of_mem_chainFrom (h : t.Below bound) :
    ∀ {fuel ns id : Nat}, id ∈ t.chainFrom fuel ns → id ≤ ns := by
  intro fuel
  induction fuel with
  | zero =>
    intro ns id hid
    cases hid
  | succ fuel ih =>
    intro ns id hid
    cases he : t.entry ns with
    | none =>
      rw [chainFrom_none he] at hid
      cases hid
    | some n =>
      rw [chainFrom_some he] at hid
      rcases mem_cons.mp hid with rfl | hid
      · exact le_refl _
      · exact (ih hid).trans (h.parent ns n he).le

lemma nodup_chainFrom (h : t.Below bound) : ∀ fuel ns, (t.chainFrom fuel ns).Nodup := by
  intro fuel
  induction fuel with
  | zero => exact fun _ => nodup_nil
  | succ fuel ih =>
    intro ns
    cases he : t.entry ns with
    | none =>
      rw [chainFrom_none he]
      exact nodup_nil
    | some n =>
      rw [chainFrom_some he]
      refine nodup_cons.mpr ⟨fun hc => ?_, ih _⟩
      have := le_of_mem_chainFrom h hc
      have := h.parent ns n he
      omega

lemma parent_mem_chainFrom : ∀ {fuel ns id : Nat} {n p : Ns},
    (t.chainFrom fuel ns).length < fuel → id ∈ t.chainFrom fuel ns → t.entry id = some n →
      t.entry n.parent = some p → n.parent ∈ t.chainFrom fuel ns := by
  intro fuel
  induction fuel with
  | zero =>
    intro ns id n p hlen
    exact absurd hlen (Nat.not_lt_zero _)
  | succ fuel ih =>
    intro ns id n p hlen hid hn hp
    cases he : t.entry ns with
    | none =>
      rw [chainFrom_none he] at hid
      cases hid
    | some m =>
      rw [chainFrom_some he] at hid hlen ⊢
      replace hlen : (t.chainFrom fuel m.parent).length < fuel := Nat.lt_of_succ_lt_succ hlen
      rcases mem_cons.mp hid with rfl | hid
      · rw [hn] at he
        cases he
        cases fuel with
        | zero => exact absurd hlen (Nat.not_lt_zero _)
        | succ fuel =>
          rw [chainFrom_some hp]
          exact mem_cons_of_mem _ mem_cons_self
      · exact mem_cons_of_mem _ (ih hlen hid hn hp)

lemma chainFrom_length_le_succ : ∀ (fuel ns : Nat),
    (t.chainFrom fuel ns).length ≤ (t.chainFrom (fuel + 1) ns).length := by
  intro fuel
  induction fuel with
  | zero => exact fun _ => Nat.zero_le _
  | succ fuel ih =>
    intro ns
    cases he : t.entry ns with
    | none => rw [chainFrom_none he, chainFrom_none he]
    | some n =>
      rw [chainFrom_some he, chainFrom_some he]
      exact Nat.succ_le_succ (ih _)

/-! ### Changes along a chain -/

lemma entry_foldl_modify (F : Nat → Ns → Ns) : ∀ (l : List Nat) (t : Table) (id : Nat), l.Nodup →
    (l.foldl (fun t id => t.modify id (F id)) t).entry id =
      if id ∈ l then (t.entry id).map (F id) else t.entry id := by
  intro l
  induction l with
  | nil =>
    intro t id _
    simp
  | cons k l ih =>
    intro t id hl
    obtain ⟨hk, hl⟩ := nodup_cons.mp hl
    rw [foldl_cons, ih _ _ hl]
    by_cases hid : id = k
    · subst hid
      simp [hk, modify]
    · simp [hid, modify]

lemma entry_addTask (h : t.Below bound) (g ns id : Nat) : (t.addTask g ns).entry id =
      if id ∈ t.chain ns then (t.entry id).map (Ns.add g (id = ns)) else t.entry id :=
  entry_foldl_modify (fun id => Ns.add g (id = ns)) _ t id (nodup_chainFrom h ..)

lemma entry_removeTask (h : t.Below bound) (g ns id : Nat) : (t.removeTask g ns).entry id =
      if id ∈ t.chain ns then (t.entry id).map (Ns.remove g) else t.entry id :=
  entry_foldl_modify (fun _ => Ns.remove g) _ t id (nodup_chainFrom h ..)

/-- A change of the entries of some namespaces that leaves what is above them. -/
structure Changes (t t' : Table) (F : Nat → Ns → Ns) (who : Nat → Prop) : Prop where
  hit : ∀ id, who id → t'.entry id = (t.entry id).map (F id)
  other : ∀ id, ¬ who id → t'.entry id = t.entry id
  parent : ∀ id n, (F id n).parent = n.parent

variable {F : Nat → Ns → Ns} {who : Nat → Prop}

section

variable (h : Changes t t' F who)
include h

lemma Changes.map_parent (k : Nat) : (t'.entry k).map (·.parent) = (t.entry k).map (·.parent) := by
  by_cases hk : who k
  · rw [h.hit k hk, Option.map_map]
    exact congrArg (fun f => (t.entry k).map f) (funext fun n => h.parent k n)
  · rw [h.other k hk]

lemma Changes.chainFrom (fuel ns : Nat) :
    t'.chainFrom fuel ns = t.chainFrom fuel ns := chainFrom_congr h.map_parent fuel ns

lemma Changes.of_some (hn : t'.entry id = some n) :
    ∃ m, t.entry id = some m ∧ n.parent = m.parent ∧ ((who id ∧ n = F id m) ∨ ¬ who id ∧ n = m) := by
  by_cases hk : who id
  · rw [h.hit id hk] at hn
    obtain ⟨m, hm, rfl⟩ := Option.map_eq_some_iff.mp hn
    exact ⟨m, hm, h.parent id m, .inl ⟨hk, rfl⟩⟩
  · rw [h.other id hk] at hn
    exact ⟨n, hn, rfl, .inr ⟨hk, rfl⟩⟩

lemma Changes.to_some (hm : t.entry id = some m) : ∃ n, t'.entry id = some n := by
  by_cases hk : who id
  · exact ⟨F id m, by rw [h.hit id hk, hm]; rfl⟩
  · exact ⟨m, by rw [h.other id hk, hm]⟩

lemma Changes.below (hb : t.Below bound) : t'.Below bound where
  pos id n hn := by
    obtain ⟨m, hm, -⟩ := h.of_some hn
    exact hb.pos id m hm
  lt id n hn := by
    obtain ⟨m, hm, -⟩ := h.of_some hn
    exact hb.lt id m hm
  parent id n hn := by
    obtain ⟨m, hm, hp, -⟩ := h.of_some hn
    rw [hp]
    exact hb.parent id m hm
  up id n hn := by
    obtain ⟨m, hm, hp, -⟩ := h.of_some hn
    rw [hp]
    exact (hb.up id m hm).imp (fun hz => hz) fun ⟨p, hp⟩ => h.to_some hp

end

/-! ### The invariant of the table -/

structure Inv (t : Table) (bound : Nat) : Prop where
  below : t.Below bound
  depth : ∀ ns, (t.chain ns).length < maxDepth
  good : ∀ id n, t.entry id = some n → n.Good
  numbered : ∀ id n g, t.entry id = some n → (n.numbers.lookup g).isSome → n.parent = 0 ∨
    ∃ p, t.entry n.parent = some p ∧ (p.numbers.lookup g).isSome

lemma changes_addTask (h : t.Below bound) (g ns : Nat) :
    Changes t (t.addTask g ns) (fun id => Ns.add g (id = ns)) (· ∈ t.chain ns) where
  hit id hid := by rw [entry_addTask h, if_pos hid]
  other id hid := by rw [entry_addTask h, if_neg hid]
  parent _ _ := rfl

lemma changes_removeTask (h : t.Below bound) (g ns : Nat) :
    Changes t (t.removeTask g ns) (fun _ => Ns.remove g) (· ∈ t.chain ns) where
  hit id hid := by rw [entry_removeTask h, if_pos hid]
  other id hid := by rw [entry_removeTask h, if_neg hid]
  parent _ n := n.remove_parent g

lemma Inv.addTask (h : t.Inv bound) {g : Nat}
    (hg : ∀ id n, t.entry id = some n → n.numbers.lookup g = none ∧ n.given.length < 2 ^ 32) :
    (t.addTask g ns).Inv bound := by
  have hc := changes_addTask h.below g ns
  refine ⟨hc.below h.below, fun k => ?_, fun id n hn => ?_, fun id n g' hn hg' => ?_⟩
  · unfold chain
    rw [hc.chainFrom]
    exact h.depth k
  · obtain ⟨m, hm, -, ⟨-, rfl⟩ | ⟨-, rfl⟩⟩ := hc.of_some hn
    · exact (h.good id m hm).add _ (hg id m hm).1 (hg id m hm).2
    · exact h.good id n hm
  obtain ⟨m, hm, hp, hcase⟩ := hc.of_some hn
  rw [hp]
  -- the number was there before, or it is the new one and the chain goes on above
  have key : (m.numbers.lookup g').isSome ∨ g' = g ∧ id ∈ t.chain ns := by
    rcases hcase with ⟨hmem, rfl⟩ | ⟨-, rfl⟩
    · rw [Ns.add_lookup] at hg'
      split at hg'
      · next hgg => exact .inr ⟨hgg, hmem⟩
      · exact .inl hg'
    · exact .inl hg'
  rcases h.below.up id m hm with hz | ⟨p, hpe⟩
  · exact .inl hz
  right
  have above (hold : (m.numbers.lookup g').isSome) : (p.numbers.lookup g').isSome := by
    rcases h.numbered id m g' hm hold with hz | ⟨q, hq, hqs⟩
    · rw [hz, h.below.entry_zero] at hpe
      cases hpe
    · cases hpe.symm.trans hq
      exact hqs
  by_cases hpm : m.parent ∈ t.chain ns
  · refine ⟨p.add g (m.parent = ns), by rw [hc.hit _ hpm, hpe]; rfl, ?_⟩
    rw [Ns.add_lookup]
    split
    · rfl
    next hne =>
    rcases key with hold | ⟨hgg, -⟩
    · exact above hold
    · exact absurd hgg hne
  refine ⟨p, by rw [hc.other _ hpm, hpe], ?_⟩
  rcases key with hold | ⟨-, hmem⟩
  · exact above hold
  · exact absurd (parent_mem_chainFrom (h.depth ns) hmem hm hpe) hpm

lemma Inv.removeTask (h : t.Inv bound) {g : Nat}
    (hown : ∀ id n, t.entry id = some n → (n.numbers.lookup g).isSome → id ∈ t.chain ns) :
    (t.removeTask g ns).Inv bound := by
  have hc := changes_removeTask h.below g ns
  refine ⟨hc.below h.below, fun k => ?_, fun id n hn => ?_, fun id n g' hn hg' => ?_⟩
  · unfold chain
    rw [hc.chainFrom]
    exact h.depth k
  · obtain ⟨m, hm, -, ⟨-, rfl⟩ | ⟨-, rfl⟩⟩ := hc.of_some hn
    · exact (h.good id m hm).remove g
    · exact h.good id n hm
  obtain ⟨m, hm, hp, hcase⟩ := hc.of_some hn
  rw [hp]
  have key : g' ≠ g ∧ (m.numbers.lookup g').isSome := by
    rcases hcase with ⟨-, rfl⟩ | ⟨hmem, rfl⟩
    · rw [Ns.remove_lookup] at hg'
      split at hg'
      · cases hg'
      · next hne => exact ⟨hne, hg'⟩
    · refine ⟨?_, hg'⟩
      rintro rfl
      exact hmem (hown id n hm hg')
  rcases h.numbered id m g' hm key.2 with hz | ⟨q, hq, hqs⟩
  · exact .inl hz
  right
  by_cases hpm : m.parent ∈ t.chain ns
  · refine ⟨q.remove g, by rw [hc.hit _ hpm, hq]; rfl, ?_⟩
    rw [Ns.remove_lookup, if_neg key.1]
    exact hqs
  · exact ⟨q, by rw [hc.other _ hpm, hq], hqs⟩

lemma Inv.close (h : t.Inv bound) (ns : Nat) : (t.close ns).Inv bound := by
  have hc : Changes t (t.close ns) (fun _ n => { n with dead := true }) (· = ns) := by
    refine ⟨fun id hid => ?_, fun id hid => ?_, fun _ _ => rfl⟩
    · show (if id = ns then _ else _) = _
      rw [if_pos hid]
    · show (if id = ns then _ else _) = _
      rw [if_neg hid]
  have hnum : ∀ {id : Nat} {n : Ns}, (t.close ns).entry id = some n → ∃ m, t.entry id = some m ∧
      n.parent = m.parent ∧ n.numbers = m.numbers ∧ (m.Good → n.Good) := by
    intro id n hn
    obtain ⟨m, hm, hp, ⟨-, rfl⟩ | ⟨-, rfl⟩⟩ := hc.of_some hn
    · exact ⟨m, hm, hp, rfl, fun hg => ⟨hg.inverse, hg.given, hg.next, hg.few, hg.known⟩⟩
    · exact ⟨n, hm, rfl, rfl, fun hg => hg⟩
  refine ⟨hc.below h.below, fun k => ?_, fun id n hn => ?_, fun id n g hn hg => ?_⟩
  · unfold chain
    rw [hc.chainFrom]
    exact h.depth k
  · obtain ⟨m, hm, -, -, hgood⟩ := hnum hn
    exact hgood (h.good id m hm)
  obtain ⟨m, hm, hp, hn', -⟩ := hnum hn
  rw [hn'] at hg
  rw [hp]
  refine (h.numbered id m g hm hg).imp (fun hz => hz) ?_
  rintro ⟨q, hq, hqs⟩
  by_cases hpm : m.parent = ns
  · exact ⟨{ q with dead := true }, by rw [hc.hit _ hpm, hq]; rfl, hqs⟩
  · exact ⟨q, by rw [hc.other _ hpm, hq], hqs⟩

/-! ### Garbage -/

lemma gc_some (h : (t.collectGarbage bound inUse).entry id = some n) : t.entry id = some n := by
  obtain ⟨h, -⟩ := Option.filter_eq_some_iff.mp h
  exact h

lemma gc_parent (hb : t.Below bound) {p : Ns}
    (h : t.entry id = some n) (hp : t.entry n.parent = some p) :
    (t.collectGarbage bound inUse).entry n.parent = some p := by
  refine Option.filter_eq_some_iff.mpr ⟨hp, ?_⟩
  have : t.isParent bound n.parent = true := by
    unfold isParent
    rw [any_eq_true]
    exact ⟨id, mem_range.mpr (hb.lt id n h), by simp [h]⟩
  simp [this]

lemma gc_inUse (h : t.entry id = some n)
    (hid : id ∈ inUse) : (t.collectGarbage bound inUse).entry id = some n := by
  refine Option.filter_eq_some_iff.mpr ⟨h, ?_⟩
  simp [hid]

lemma gc_chainFrom (hb : t.Below bound) : ∀ {fuel id : Nat} {n : Ns},
    (t.collectGarbage bound inUse).entry id = some n →
      (t.collectGarbage bound inUse).chainFrom fuel id = t.chainFrom fuel id := by
  intro fuel
  induction fuel with
  | zero => exact fun _ => rfl
  | succ fuel ih =>
    intro id n h
    have ht := gc_some h
    rw [chainFrom_some h, chainFrom_some ht]
    congr 1
    rcases hb.up id n ht with hz | ⟨p, hp⟩
    · have hnone := hb.entry_zero
      rw [hz, chainFrom_none hnone, chainFrom_none]
      cases hg : (t.collectGarbage bound inUse).entry 0 with
      | none => rfl
      | some m =>
        rw [gc_some hg] at hnone
        cases hnone
    · exact ih (gc_parent hb ht hp)

lemma Inv.collectGarbage (h : t.Inv bound) (inUse : List Nat) :
    (t.collectGarbage bound inUse).Inv bound where
  below := {
    pos := fun id n hn => h.below.pos id n (gc_some hn)
    lt := fun id n hn => h.below.lt id n (gc_some hn)
    parent := fun id n hn => h.below.parent id n (gc_some hn)
    up := fun id n hn => (h.below.up id n (gc_some hn)).imp (fun hz => hz)
      fun ⟨p, hp⟩ => ⟨p, gc_parent h.below (gc_some hn) hp⟩ }
  depth ns := by
    unfold chain
    cases he : (t.collectGarbage bound inUse).entry ns with
    | none =>
      rw [chainFrom_none he]
      exact Nat.zero_lt_of_lt (h.depth ns)
    | some n =>
      rw [gc_chainFrom h.below he]
      exact h.depth ns
  good id n hn := h.good id n (gc_some hn)
  numbered id n g hn hg := (h.numbered id n g (gc_some hn) hg).imp (fun hz => hz)
    fun ⟨p, hp, hps⟩ => ⟨p, gc_parent h.below (gc_some hn) hp, hps⟩

/-! ### A new namespace -/

lemma chainFrom_insert (hb : t.Below bound) : ∀ {fuel id : Nat}, id < bound →
    (t.insert bound m).chainFrom fuel id = t.chainFrom fuel id := by
  intro fuel
  induction fuel with
  | zero => exact fun _ => rfl
  | succ fuel ih =>
    intro id hid
    have hent : (t.insert bound m).entry id = t.entry id := if_neg (ne_of_lt hid)
    cases he : t.entry id with
    | none => rw [chainFrom_none he, chainFrom_none (hent.trans he)]
    | some n =>
      rw [chainFrom_some he, chainFrom_some (hent.trans he), ih ((hb.parent id n he).trans hid)]

lemma Inv.create (h : t.Inv bound) {parent : Nat} (hpos : 0 < bound)
    (hp : parent = 0 ∨ ∃ p, t.entry parent = some p) (hc : t.create bound parent = some t') :
    t'.Inv (bound + 1) ∧ t' = t.insert bound (.new parent) := by
  unfold Table.create at hc
  split at hc
  · cases hc
  next hdepth =>
  cases hc
  have hlt : parent < bound := by
    rcases hp with rfl | ⟨p, hp⟩
    · exact hpos
    · exact h.below.lt parent p hp
  have hself : (t.insert bound (.new parent)).entry bound = some (.new parent) := if_pos rfl
  have hof : ∀ {id : Nat} {n : Ns}, (t.insert bound (.new parent)).entry id = some n →
      (id = bound ∧ n = .new parent) ∨ t.entry id = some n := by
    intro id n hn
    by_cases hid : id = bound
    · subst hid
      rw [hself] at hn
      cases hn
      exact .inl ⟨rfl, rfl⟩
    · exact .inr ((if_neg hid).symm.trans hn)
  have hto : ∀ {id : Nat} {n : Ns}, t.entry id = some n →
      (t.insert bound (.new parent)).entry id = some n := by
    intro id n hn
    exact (if_neg (Nat.ne_of_lt (h.below.lt id n hn))).trans hn
  refine ⟨⟨⟨?_, ?_, ?_, ?_⟩, ?_, ?_, ?_⟩, rfl⟩
  · intro id n hn
    rcases hof hn with ⟨rfl, -⟩ | hn
    · exact hpos
    · exact h.below.pos id n hn
  · intro id n hn
    rcases hof hn with ⟨rfl, -⟩ | hn
    · exact Nat.lt_succ_self _
    · exact (h.below.lt id n hn).trans (Nat.lt_succ_self _)
  · intro id n hn
    rcases hof hn with ⟨rfl, rfl⟩ | hn
    · exact hlt
    · exact h.below.parent id n hn
  · intro id n hn
    rcases hof hn with ⟨rfl, rfl⟩ | hn
    · exact hp.imp (fun hz => hz) fun ⟨p, hp⟩ => ⟨p, hto hp⟩
    · exact (h.below.up id n hn).imp (fun hz => hz) fun ⟨p, hp⟩ => ⟨p, hto hp⟩
  · intro ns
    unfold chain
    by_cases hns : ns = bound
    · subst hns
      have h32 : maxDepth = 31 + 1 := rfl
      rw [h32, chainFrom_some hself, length_cons]
      have hpar : (Ns.new parent).parent = parent := rfl
      rw [hpar, chainFrom_insert h.below hlt]
      have h1 := chainFrom_length_le_succ (t := t) 31 parent
      unfold chain at hdepth
      rw [h32] at hdepth
      omega
    by_cases hlt' : ns < bound
    · rw [chainFrom_insert h.below hlt']
      exact h.depth ns
    have hnone : (t.insert bound (.new parent)).entry ns = none := by
      cases he : (t.insert bound (.new parent)).entry ns with
      | none => rfl
      | some n =>
        rcases hof he with ⟨hc, -⟩ | he
        · exact absurd hc hns
        · exact absurd (h.below.lt ns n he) hlt'
    rw [chainFrom_none hnone]
    exact Nat.zero_lt_of_lt (h.depth 0)
  · intro id n hn
    rcases hof hn with ⟨-, rfl⟩ | hn
    · exact Ns.good_new parent
    · exact h.good id n hn
  intro id n g hn hg
  rcases hof hn with ⟨-, rfl⟩ | hn
  · cases hg
  · exact (h.numbered id n g hn hg).imp (fun hz => hz) fun ⟨p, hp, hps⟩ => ⟨p, hto hp, hps⟩

lemma Inv.mono {bound' : Nat} (h : t.Inv bound) (hle : bound ≤ bound') : t.Inv bound' :=
  ⟨⟨h.below.pos, fun id n hn => (h.below.lt id n hn).trans_le hle, h.below.parent, h.below.up⟩,
    h.depth, h.good, h.numbered⟩

/-- The namespace has an entry or is the initial one. -/
def Has (t : Table) (ns : Nat) : Prop := ns = 0 ∨ ∃ n, t.entry ns = some n

/-- An id that is numbered nowhere, and counters that have not gone round. -/
def Unnumbered (t : Table) (pid : Nat) : Prop :=
  ∀ id n, t.entry id = some n → n.numbers.lookup pid = none ∧ n.given.length < 2 ^ 32

/-- The tasks are in namespaces that there are, and numbered on their own chain only. -/
structure Houses (t : Table) (tasks : List Task) : Prop where
  ns : ∀ u ∈ tasks, t.Has u.ns
  children : ∀ u ∈ tasks, t.Has u.forChildren
  own : ∀ u ∈ tasks, ∀ id n, t.entry id = some n → (n.numbers.lookup u.pid).isSome →
    id ∈ t.chain u.ns

variable {tasks : List Task}

lemma Has.gc (h : t.Has ns) (hns : ns ∈ inUse) : (t.collectGarbage bound inUse).Has ns :=
  h.imp id fun ⟨n, hn⟩ => ⟨n, gc_inUse hn hns⟩

lemma Houses.gc (h : t.Houses tasks) (hb : t.Below bound) (huse : ∀ u ∈ tasks, u.ns ∈ inUse)
    (hch : ∀ u ∈ tasks, (t.collectGarbage bound inUse).Has u.forChildren) :
    (t.collectGarbage bound inUse).Houses tasks where
  ns u hu := (h.ns u hu).gc (huse u hu)
  children := hch
  own u hu id n hn hs := by
    have hid := h.own u hu id n (gc_some hn) hs
    rcases h.ns u hu with hz | ⟨m, hm⟩
    · rw [hz, chain, chainFrom_none hb.entry_zero] at hid
      cases hid
    · rw [chain, gc_chainFrom hb (gc_inUse hm (huse u hu))]
      exact hid

lemma Has.lt (hb : t.Below bound) (hpos : 0 < bound) (h : t.Has ns) : ns < bound := by
  rcases h with rfl | ⟨n, hn⟩
  · exact hpos
  · exact hb.lt ns n hn

lemma Has.insert (hb : t.Below bound) (h : t.Has ns) : (t.insert bound m).Has ns :=
  h.imp id fun ⟨n, hn⟩ => ⟨n, (if_neg (ne_of_lt (hb.lt ns n hn))).trans hn⟩

lemma Houses.insert (h : t.Houses tasks) (hb : t.Below bound) (hpos : 0 < bound) (parent : Nat) :
    (t.insert bound (.new parent)).Houses tasks where
  ns u hu := (h.ns u hu).insert hb
  children u hu := (h.children u hu).insert hb
  own u hu id n hn hs := by
    rw [chain, chainFrom_insert hb ((h.ns u hu).lt hb hpos)]
    by_cases hid : id = bound
    · subst hid
      have hnew : some (Ns.new parent) = some n := (if_pos rfl).symm.trans hn
      cases hnew
      cases hs
    · exact h.own u hu id n ((if_neg hid).symm.trans hn) hs

lemma Unnumbered.gc {pid : Nat} (h : t.Unnumbered pid) (inUse : List Nat) :
    (t.collectGarbage bound inUse).Unnumbered pid :=
  fun id n hn => h id n (gc_some hn)

lemma Unnumbered.insert {pid : Nat} (h : t.Unnumbered pid) (parent : Nat) :
    (t.insert bound (.new parent)).Unnumbered pid := by
  intro id n hn
  by_cases hid : id = bound
  · have hnew : some (Ns.new parent) = some n := (if_pos hid).symm.trans hn
    cases hnew
    exact ⟨rfl, Nat.two_pow_pos 32⟩
  · exact h id n ((if_neg hid).symm.trans hn)

lemma Changes.has (hc : Changes t t' F who) (h : t.Has ns) : t'.Has ns :=
  h.imp id fun ⟨_, hn⟩ => hc.to_some hn

lemma Changes.houses (hc : Changes t t' F who) (h : t.Houses tasks)
    (hF : ∀ id n, ∀ u ∈ tasks, who id → t.entry id = some n →
      ((F id n).numbers.lookup u.pid).isSome → (n.numbers.lookup u.pid).isSome) :
    t'.Houses tasks where
  ns u hu := hc.has (h.ns u hu)
  children u hu := hc.has (h.children u hu)
  own u hu id n hn hs := by
    rw [chain, hc.chainFrom]
    obtain ⟨m, hm, -, ⟨hw, rfl⟩ | ⟨-, rfl⟩⟩ := hc.of_some hn
    · exact h.own u hu id m hm (hF id m u hu hw hm hs)
    · exact h.own u hu id n hm hs

lemma Houses.subset {tasks' : List Task} (h : t.Houses tasks) (hs : ∀ u ∈ tasks', u ∈ tasks) :
    t.Houses tasks' :=
  ⟨fun u hu => h.ns u (hs u hu), fun u hu => h.children u (hs u hu),
    fun u hu => h.own u (hs u hu)⟩

end Table

namespace Sys

variable {s s' : Sys}

structure Inv (s : Sys) : Prop where
  table : s.table.Inv s.nextNs
  pos : 0 < s.nextNs
  houses : s.table.Houses s.tasks

lemma mem_inUse {u : Task} (hu : u ∈ s.tasks) : u.ns ∈ s.inUse ∧ u.forChildren ∈ s.inUse := by
  unfold inUse
  simp only [mem_flatMap]
  exact ⟨⟨u, hu, by simp⟩, ⟨u, hu, by simp⟩⟩

/-- A new namespace, if those collected are neither its parent nor used by the tasks. -/
lemma newPidNamespace_spec (htab : s.table.Inv s.nextNs) (hpos : 0 < s.nextNs)
    {tasks : List Task} (hhouses : s.table.Houses tasks) {parent : Nat}
    (hhas : s.table.Has parent) (huse : ∀ u ∈ tasks, u.ns ∈ s.inUse)
    (hkept : maxNamespaces / 2 ≤ s.table.count s.nextNs →
      (∀ u ∈ tasks, (s.table.collectGarbage s.nextNs s.inUse).Has u.forChildren) ∧
        (s.table.collectGarbage s.nextNs s.inUse).Has parent) :
    (s.newPidNamespace s.nextNs parent).1.Inv (s.nextNs + 1) ∧
      (s.newPidNamespace s.nextNs parent).1.Houses tasks ∧
      ((s.newPidNamespace s.nextNs parent).2 = true →
        (s.newPidNamespace s.nextNs parent).1.Has s.nextNs) ∧
      ∀ pid, s.table.Unnumbered pid → (s.newPidNamespace s.nextNs parent).1.Unnumbered pid := by
  -- the table once garbage was collected, or not
  have hgc : ∃ t : Table, (t = if s.table.count s.nextNs ≥ maxNamespaces / 2
      then s.table.collectGarbage s.nextNs s.inUse else s.table) ∧ t.Inv s.nextNs ∧
      t.Houses tasks ∧ t.Has parent ∧ ∀ pid, s.table.Unnumbered pid → t.Unnumbered pid := by
    refine ⟨_, rfl, ?_⟩
    split
    next hmany =>
      obtain ⟨hch, hpar⟩ := hkept hmany
      exact ⟨htab.collectGarbage _, hhouses.gc htab.below huse hch, hpar,
        fun pid hpid => hpid.gc _⟩
    · exact ⟨htab, hhouses, hhas, fun _ hpid => hpid⟩
  obtain ⟨t, ht, hinv, hhouse, hpar, hun⟩ := hgc
  unfold Sys.newPidNamespace
  simp only [← ht]
  split
  · exact ⟨hinv.mono (Nat.le_succ _), hhouse, fun hc => absurd hc Bool.false_ne_true, hun⟩
  split
  · next t' hcr =>
    obtain ⟨hinv', rfl⟩ := hinv.create hpos hpar hcr
    exact ⟨hinv', hhouse.insert hinv.below hpos parent, fun _ => .inr ⟨_, if_pos rfl⟩,
      fun pid hpid => (hun pid hpid).insert parent⟩
  · exact ⟨hinv.mono (Nat.le_succ _), hhouse, fun hc => absurd hc Bool.false_ne_true, hun⟩

/-! ### The steps -/

/-- The namespace that `c` has set aside for its children outlives an `unshare` that sets another
aside: no garbage is collected, or something else keeps it. -/
def KeepsAside (s : Sys) (c : Task) : Prop :=
  s.table.count s.nextNs < maxNamespaces / 2 ∨ c.forChildren = 0 ∨ c.forChildren = c.ns ∨
    (∃ u ∈ s.tasks, u ≠ c ∧ (c.forChildren = u.ns ∨ c.forChildren = u.forChildren)) ∨
    (s.table.entry c.forChildren).any (fun n => !n.numbers.entries.isEmpty) = true ∨
    s.table.isParent s.nextNs c.forChildren = true

/-- `alloc_pid` returns an id in use nowhere and no counter has gone round; no `unshare` fails
half-way, or lets go of the namespace that the new one is in; `setns` is to a namespace that is
there. -/
def Sound (s : Sys) : Op → Prop
  | .clone _ newPid _ pid _ => (∀ u ∈ s.tasks, u.pid ≠ pid) ∧ s.table.Unnumbered pid ∧
      (newPid = true → s.nextNs + 1 < 2 ^ 32)
  | .unshare c userFails => userFails = false ∧ s.nextNs + 1 < 2 ^ 32 ∧ s.KeepsAside c
  | .setns _ target => s.table.Has target
  | _ => True

lemma Inv.numbered (h : s.Inv) {pid ns : Nat} (tgid : Nat) (hns : s.table.Has ns)
    (hpid : ∀ u ∈ s.tasks, u.pid ≠ pid) (hun : s.table.Unnumbered pid) (late : Bool) : Inv { s with
      table := s.table.addTask pid ns
      tasks := if late then s.tasks else s.tasks ++ [⟨pid, tgid, ns, ns, false⟩] } := by
  have hc := Table.changes_addTask h.table.below pid ns
  have hold : (s.table.addTask pid ns).Houses s.tasks := by
    refine hc.houses h.houses fun id n u hu _ _ hs => ?_
    rw [Ns.add_lookup, if_neg (hpid u hu)] at hs
    exact hs
  refine ⟨h.table.addTask hun, h.pos, ?_⟩
  cases late with
  | true => exact hold
  | false =>
    refine ⟨fun u hu => ?_, fun u hu => ?_, fun u hu => ?_⟩
    · rcases mem_append.mp hu with hu | hu
      · exact hold.ns u hu
      rw [mem_singleton.mp hu]
      exact hc.has hns
    · rcases mem_append.mp hu with hu | hu
      · exact hold.children u hu
      rw [mem_singleton.mp hu]
      exact hc.has hns
    rcases mem_append.mp hu with hu | hu
    · exact hold.own u hu
    rw [mem_singleton.mp hu]
    intro id n hn hs
    rw [Table.chain, hc.chainFrom]
    obtain ⟨m, hm, -, ⟨hw, -⟩ | ⟨-, rfl⟩⟩ := hc.of_some hn
    · exact hw
    rw [(hun id n hm).1] at hs
    cases hs

variable {c : Task}

lemma Inv.clone (h : s.Inv) {newPid thread late : Bool} {pid : Nat}
    (hs : s.Sound (.clone c newPid thread pid late))
    (hstep : s.clone c newPid thread pid late = some s') : s'.Inv := by
  unfold Sys.clone at hstep
  split at hstep
  · cases hstep
  next hok =>
  have hc : c ∈ s.tasks := by
    by_contra hc
    simp [hc] at hok
  obtain ⟨hpid, hun, hnum⟩ := hs
  -- the table and the namespace of the child
  have hmade : ∃ (t : Table) (made : Bool) (ns next : Nat),
      (ns = if newPid then s.nextNs else c.forChildren) ∧
      ((t, made) = if newPid then s.newPidNamespace ns c.forChildren else (s.table, true)) ∧
      (next = if newPid then (s.nextNs + 1) % 2 ^ 32 else s.nextNs) ∧
      Inv { s with table := t, nextNs := next } ∧ (made = true → t.Has ns) ∧
      t.Unnumbered pid := by
    cases newPid with
    | false => exact ⟨_, _, _, _, rfl, rfl, rfl, h, fun _ => h.houses.children c hc, hun⟩
    | true =>
      obtain ⟨h1, h2, h3, h4⟩ := newPidNamespace_spec h.table h.pos h.houses
        (h.houses.children c hc) (fun u hu => (mem_inUse hu).1) fun _ =>
          ⟨fun u hu => (h.houses.children u hu).gc (mem_inUse hu).2,
            (h.houses.children c hc).gc (mem_inUse hc).2⟩
      refine ⟨_, _, _, _, rfl, rfl, rfl, ?_, h3, h4 pid hun⟩
      rw [if_pos rfl, Nat.mod_eq_of_lt (hnum rfl)]
      exact ⟨h1, Nat.succ_pos _, h2⟩
  obtain ⟨t, made, ns, next, hns, htm, hnext, hinv, hhas, hun'⟩ := hmade
  simp only [← hns, ← htm, ← hnext] at hstep
  split at hstep
  · cases hstep
    exact hinv
  next hacc =>
  have hm : made = true := by
    cases made with
    | true => rfl
    | false => simp at hacc
  have hnum := hinv.numbered (if thread then c.tgid else pid) (hhas hm) hpid hun' late
  cases late with
  | true =>
    cases hstep
    exact hnum
  | false =>
    cases hstep
    exact hnum

lemma Inv.setTask (h : s.Inv) {u : Task} (hc : c ∈ s.tasks) (hpid : u.pid = c.pid)
    (hns : u.ns = c.ns) (hch : s.table.Has u.forChildren) : (s.setTask c u).Inv := by
  have hmem : ∀ v ∈ (s.setTask c u).tasks, v = u ∨ v ∈ s.tasks := by
    intro v hv
    obtain ⟨w, hw, rfl⟩ := mem_map.mp hv
    split
    · exact .inl rfl
    · exact .inr hw
  refine ⟨h.table, h.pos, fun v hv => ?_, fun v hv => ?_, fun v hv => ?_⟩
  · rcases hmem v hv with rfl | hv
    · rw [hns]
      exact h.houses.ns c hc
    · exact h.houses.ns v hv
  · rcases hmem v hv with rfl | hv
    · exact hch
    · exact h.houses.children v hv
  rcases hmem v hv with rfl | hv
  · rw [hpid, hns]
    exact h.houses.own c hc
  · exact h.houses.own v hv

lemma Inv.keptAside (h : s.Inv) (hc : c ∈ s.tasks) (hk : s.KeepsAside c)
    (hmany : maxNamespaces / 2 ≤ s.table.count s.nextNs) {u : Task} (hns : u.ns = c.ns) :
    (s.table.collectGarbage s.nextNs (s.setTask c u).inUse).Has c.forChildren := by
  have hhas := h.houses.children c hc
  have hu : u ∈ (s.setTask c u).tasks := mem_map.mpr ⟨c, hc, if_pos rfl⟩
  rcases hk with hfew | hzero | hown | ⟨v, hv, hne, hother⟩ | hnum | hpar
  · exact absurd hmany (not_le.mpr hfew)
  · exact .inl hzero
  · refine hhas.gc ?_
    rw [hown, ← hns]
    exact (mem_inUse hu).1
  · have hv' : v ∈ (s.setTask c u).tasks := mem_map.mpr ⟨v, hv, if_neg hne⟩
    refine hhas.gc ?_
    rcases hother with hn | hf
    · exact hn ▸ (mem_inUse hv').1
    · exact hf ▸ (mem_inUse hv').2
  · obtain ⟨n, hn, hsome⟩ := (Option.any_eq_true ..).mp hnum
    exact .inr ⟨n, by simp [Table.collectGarbage, hn, hsome]⟩
  · refine hhas.imp id fun ⟨n, hn⟩ => ⟨n, ?_⟩
    simp [Table.collectGarbage, hn, hpar]

lemma Inv.unshare (h : s.Inv) (hid : s.nextNs + 1 < 2 ^ 32) (hk : s.KeepsAside c)
    (hstep : s.unshare c false = some s') : s'.Inv := by
  unfold Sys.unshare at hstep
  split at hstep
  · cases hstep
  next hok =>
  have hc : c ∈ s.tasks := by
    by_contra hc
    simp [hc] at hok
  set stored := s.setTask c { c with forChildren := s.nextNs } with hstored
  have hmem : ∀ u ∈ s.tasks, u ≠ c → u ∈ stored.tasks := fun u hu hne =>
    mem_map.mpr ⟨u, hu, if_neg hne⟩
  have hself : { c with forChildren := s.nextNs } ∈ stored.tasks :=
    mem_map.mpr ⟨c, hc, if_pos rfl⟩
  have huse : ∀ u ∈ s.tasks, u.ns ∈ stored.inUse := by
    intro u hu
    by_cases hne : u = c
    · rw [hne]
      exact (mem_inUse hself).1
    · exact (mem_inUse (hmem u hu hne)).1
  obtain ⟨h1, h2, h3, -⟩ := newPidNamespace_spec (s := stored) h.table h.pos h.houses
    (h.houses.children c hc) huse fun hmany => by
      have haside := h.keptAside hc hk hmany (u := { c with forChildren := s.nextNs }) rfl
      refine ⟨fun u hu => ?_, haside⟩
      by_cases hne : u = c
      · rw [hne]
        exact haside
      · exact (h.houses.children u hu).gc (mem_inUse (hmem u hu hne)).2
  simp only [Bool.false_eq_true, if_false, Nat.mod_eq_of_lt hid] at hstep
  cases hstep
  have hinv : Inv { s with
      table := (stored.newPidNamespace s.nextNs c.forChildren).1
      nextNs := s.nextNs + 1 } := ⟨h1, Nat.succ_pos _, h2⟩
  cases hm : (stored.newPidNamespace s.nextNs c.forChildren).2 with
  | false => exact hinv
  | true =>
    have hset := hinv.setTask (u := { c with forChildren := s.nextNs }) hc rfl rfl (h3 hm)
    exact ⟨hset.table, hset.pos, hset.houses⟩

lemma Inv.step (h : s.Inv) {op : Op} (hs : s.Sound op) (hstep : s.step op = some s') : s'.Inv := by
  cases op with
  | clone c newPid thread pid late => exact h.clone hs hstep
  | unshare c userFails =>
    obtain ⟨rfl, hid, hk⟩ := hs
    exact h.unshare hid hk hstep
  | setns c target =>
    simp only [Sys.step, Sys.setns] at hstep
    split at hstep
    · cases hstep
    next hok =>
    have hc : c ∈ s.tasks := by
      by_contra hc
      simp [hc] at hok
    cases hstep
    exact h.setTask hc rfl rfl hs
  | exit c =>
    simp only [Sys.step, Sys.exit] at hstep
    split at hstep
    · cases hstep
    next hok =>
    have hc : c ∈ s.tasks := by
      by_contra hc
      simp [hc] at hok
    cases hstep
    have hset := h.setTask (u := { c with zombie := true }) hc rfl rfl (h.houses.children c hc)
    split
    · have hcl := hset.table.close c.ns
      refine ⟨hcl, hset.pos, ?_⟩
      have hch : Table.Changes s.table (s.table.close c.ns) (fun _ n => { n with dead := true })
          (· = c.ns) := ⟨fun id hid => if_pos hid, fun id hid => if_neg hid, fun _ _ => rfl⟩
      exact hch.houses hset.houses fun _ _ _ _ _ _ hs => hs
    · exact ⟨hset.table, hset.pos, hset.houses⟩
  | reap c =>
    simp only [Sys.step, Sys.reap] at hstep
    split at hstep
    · cases hstep
    next hok =>
    have hc : c ∈ s.tasks := by
      by_contra hc
      simp [hc] at hok
    cases hstep
    have hch := Table.changes_removeTask h.table.below c.pid c.ns
    refine ⟨h.table.removeTask (h.houses.own c hc), h.pos, ?_⟩
    refine hch.houses (h.houses.subset fun u hu => mem_of_mem_erase hu) ?_
    intro id n u _ _ _ hs
    rw [Ns.remove_lookup] at hs
    split at hs
    · cases hs
    · exact hs

lemma inv_init : Sys.init.Inv where
  table := ⟨⟨fun _ _ h => absurd h.symm (Option.some_ne_none _),
      fun _ _ h => absurd h.symm (Option.some_ne_none _),
      fun _ _ h => absurd h.symm (Option.some_ne_none _),
      fun _ _ h => absurd h.symm (Option.some_ne_none _)⟩,
    fun ns => by
      exact Nat.zero_lt_succ 31,
    fun _ _ h => absurd h.symm (Option.some_ne_none _),
    fun _ _ _ h => absurd h.symm (Option.some_ne_none _)⟩
  pos := Nat.one_pos
  houses := ⟨fun u hu => .inl (by rw [mem_singleton.mp hu]),
    fun u hu => .inl (by rw [mem_singleton.mp hu]),
    fun _ _ _ _ h => absurd h.symm (Option.some_ne_none _)⟩

/-! ### The numbering -/

/-- `ns` has an unbroken chain of entries up to the initial namespace. -/
inductive Rooted (t : Table) : Nat → Prop
  | initial : Rooted t 0
  | nested {ns : Nat} {n : Ns} : t.entry ns = some n → Rooted t n.parent → Rooted t ns

structure Numbering (t : Table) : Prop where
  inverse : ∀ id n, t.entry id = some n → ∀ g l,
    n.numbers.lookup g = some l ↔ n.globals.lookup l = some g
  above : ∀ id n g, t.entry id = some n → (n.numbers.lookup g).isSome → ∀ a ∈ t.chain id,
    ∃ m, t.entry a = some m ∧ (m.numbers.lookup g).isSome
  once : ∀ id n, t.entry id = some n → n.given.Nodup
  numbers : ∀ id n, t.entry id = some n → ∀ g l, n.numbers.lookup g = some l → l ∈ n.given
  rooted : ∀ id n, t.entry id = some n → Rooted t id
  depth : ∀ id, (t.chain id).length < maxDepth

lemma rooted_of_below {t : Table} {bound : Nat} (h : t.Below bound) :
    ∀ id n, t.entry id = some n → Rooted t id := by
  intro id
  induction id using Nat.strong_induction_on with
  | _ id ih =>
    intro n hn
    refine .nested hn ?_
    rcases h.up id n hn with hz | ⟨p, hp⟩
    · rw [hz]
      exact .initial
    · exact ih n.parent (h.parent id n hn) p hp

lemma above_of_numbered {t : Table} {bound : Nat} (h : t.Inv bound) : ∀ (fuel id : Nat) (n : Ns)
    (g : Nat), t.entry id = some n → (n.numbers.lookup g).isSome → ∀ a ∈ t.chainFrom fuel id,
      ∃ m, t.entry a = some m ∧ (m.numbers.lookup g).isSome := by
  intro fuel
  induction fuel with
  | zero =>
    intro id n g _ _ a ha
    cases ha
  | succ fuel ih =>
    intro id n g hn hg a ha
    rw [Table.chainFrom_some hn] at ha
    rcases mem_cons.mp ha with rfl | ha
    · exact ⟨n, hn, hg⟩
    rcases h.numbered id n g hn hg with hz | ⟨p, hp, hps⟩
    · rw [hz, Table.chainFrom_none h.below.entry_zero] at ha
      cases ha
    · exact ih n.parent p g hp hps a ha

/-- **The numbering of PID namespaces is sound** in every run that meets the condition. -/
theorem numbering_sound {s : Sys} (hr : Run.Reach step Sound init s) : Numbering s.table := by
  have h : s.Inv := hr.invariant inv_init fun s op s' h hs hstep => h.step hs hstep
  exact {
    inverse := fun id n hn => (h.table.good id n hn).inverse
    above := fun id n g hn hg => above_of_numbered h.table maxDepth id n g hn hg
    once := fun id n hn => (h.table.good id n hn).nodup
    numbers := fun id n hn g l hl =>
      (h.table.good id n hn).known l g (((h.table.good id n hn).inverse g l).mp hl)
    rooted := rooted_of_below h.table.below
    depth := h.table.depth }

theorem numbering_sound_child : ∃ s : Sys, Run.Reach step Sound init s ∧
    (s.table.entry 1).any (fun n => n.numbers.lookup 2 = some 1) = true ∧ Numbering s.table := by
  have hcan : Run.Allowed step Sound [.clone ⟨1, 1, 0, 0, false⟩ true false 2 false] init :=
    ⟨⟨fun u hu => by
        rw [List.mem_singleton.mp hu]
        decide,
      fun _ _ h => absurd h.symm (Option.some_ne_none _), fun _ => by decide⟩, fun _ _ => trivial⟩
  have hr : ∃ s : Sys, Run.Reach step Sound init s ∧
      (s.table.entry 1).any (fun n => n.numbers.lookup 2 = some 1) = true :=
    ⟨_, .of_exec _ rfl hcan, by decide⟩
  obtain ⟨s, hr, hone⟩ := hr
  exact ⟨s, hr, hone, numbering_sound hr⟩

/-- An `unshare` fails for the user namespace and leaves a namespace for children that has no
entry; a child in a new namespace below it is not connected to the initial one. -/
theorem numbering_broken : ∃ s : Sys, Run.Reach step (fun _ _ => True) init s ∧
    (s.table.entry 2).any (fun n => (n.numbers.lookup 2).isSome) = true ∧ ¬ Rooted s.table 2 := by
  refine ⟨_, .of_exec_free [.unshare ⟨1, 1, 0, 0, false⟩ true,
    .clone ⟨1, 1, 0, 1, false⟩ true false 2 false] rfl, by decide, fun h => ?_⟩
  cases h with
  | nested hn hp =>
    cases hn
    cases hp with
    | nested hn _ => cases hn

end Sys

end NixVm.PidNs
