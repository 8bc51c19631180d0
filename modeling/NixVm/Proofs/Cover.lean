/-
What a new mount covers, and what an unmount that fails leaves (`Fs/Mount`).

A new mount is the last of those at its point, so it covers what is below unless an older mount has
a longer point. An unmount removes its copies under the peers of the parent before it finds the
mount busy.
-/
import NixVm.Proofs.Mount

namespace NixVm.Mounts

open List Longest

lemma lastAt_point {ms : List Mount} {point : Path} {m : Mount} (h : lastAt ms point = some m) :
    m.point = point := by
  simpa using List.find?_some h

/-! ### An unmount that fails -/

/-- Steps that can only make something smaller leave it in the end as it was exactly if none of them
changes it. -/
lemma foldl_eq_self {α β : Type*} (size : β → Nat) {g : β → α → β}
    (hg : ∀ b a, g b a = b ∨ size (g b a) < size b) (l : List α) (b : β) :
    l.foldl g b = b ↔ ∀ a ∈ l, g b a = b := by
  have hle : ∀ (l : List α) b, size (l.foldl g b) ≤ size b := by
    intro l
    induction l with
    | nil => exact fun b => Nat.le_refl _
    | cons a l ih =>
      intro b
      refine (ih _).trans ?_
      rcases hg b a with h | h
      · rw [h]
      · exact h.le
  induction l with
  | nil => simp
  | cons a l ih =>
    rw [foldl_cons, forall_mem_cons]
    rcases hg b a with h | h
    · rw [h]
      exact ih.trans (and_iff_right rfl).symm
    · have hlt := (hle l (g b a)).trans_lt h
      constructor
      · intro heq
        rw [heq] at hlt
        exact absurd hlt (Nat.lt_irrefl _)
      · rintro ⟨heq, -⟩
        rw [heq] at h
        exact absurd h (Nat.lt_irrefl _)

def State.size (s : State) : Nat := s.mounts.length + (s.parked.map (·.2.length)).sum

/-- The lists of a namespace. -/
def State.lists (s : State) (ns : Nat) : List (List Mount) :=
  if ns = s.current then [s.mounts] else (s.parked.filter (·.1 = ns)).map (·.2)

lemma modify_eq_self {s : State} {ns : Nat} {f : List Mount → List Mount} :
    s.modify ns f = s ↔ ∀ ms ∈ s.lists ns, f ms = ms := by
  unfold State.modify State.lists
  split
  · cases s
    simp
  · have hmap : s.parked.map (fun e => if e.1 = ns then (e.1, f e.2) else e) = s.parked ↔
        ∀ e ∈ s.parked, e.1 = ns → f e.2 = e.2 := by
      have hid := map_inj_left (l := s.parked) (g := id)
        (f := fun e => if e.1 = ns then (e.1, f e.2) else e)
      rw [map_id] at hid
      refine hid.trans (forall_congr' fun e => imp_congr_right fun _ => ?_)
      by_cases hns : e.1 = ns <;> simp [hns, Prod.ext_iff]
    have hlists : (∀ ms ∈ (s.parked.filter (·.1 = ns)).map (·.2), f ms = ms) ↔
        ∀ e ∈ s.parked, e.1 = ns → f e.2 = e.2 := by
      simp only [forall_mem_map, mem_filter, decide_eq_true_eq, and_imp]
    rw [hlists, ← hmap]
    cases s
    simp

lemma sum_smaller {l : List (Nat × List Mount)} {f : Nat × List Mount → Nat × List Mount}
    (hf : ∀ e, f e = e ∨ (f e).2.length < e.2.length) :
    l.map f = l ∨ ((l.map f).map (·.2.length)).sum < (l.map (·.2.length)).sum := by
  induction l with
  | nil => exact .inl rfl
  | cons e l ih =>
    simp only [map_cons, sum_cons]
    rcases hf e with he | he <;> rcases ih with hl | hl
    · exact .inl (by rw [he, hl])
    · exact .inr (by rw [he]; omega)
    · exact .inr (by rw [hl]; omega)
    · exact .inr (by omega)

lemma modify_smaller {s : State} {ns : Nat} {f : List Mount → List Mount}
    (hf : ∀ ms, f ms = ms ∨ (f ms).length < ms.length) :
    s.modify ns f = s ∨ (s.modify ns f).size < s.size := by
  unfold State.modify State.size
  split
  · rcases hf s.mounts with h | h
    · exact .inl (by rw [h])
    · exact .inr (by dsimp only; omega)
  · have hstep : ∀ e : Nat × List Mount, (if e.1 = ns then (e.1, f e.2) else e) = e ∨
        (if e.1 = ns then (e.1, f e.2) else e).2.length < e.2.length := by
      intro e
      split
      · exact (hf e.2).imp_left fun h => by rw [h]
      · exact .inl rfl
    rcases sum_smaller (l := s.parked) hstep with h | h
    · exact .inl (by rw [h])
    · exact .inr (by dsimp only; omega)

lemma removeLast_eq_self {ms : List Mount} {q : Mount → Bool} :
    removeLast ms q = ms ↔ ∀ m ∈ ms, ¬q m = true := by
  rw [removeLast, reverse_eq_iff, eraseP_eq_self_iff]
  simp

lemma removeLast_smaller (ms : List Mount) (q : Mount → Bool) :
    removeLast ms q = ms ∨ (removeLast ms q).length < ms.length := by
  by_cases h : ∀ m ∈ ms, ¬q m = true
  · exact .inl (removeLast_eq_self.mpr h)
  · push Not at h
    obtain ⟨m, hm, hq⟩ := h
    have hlen := length_eraseP_of_mem (mem_reverse.mpr hm) hq
    have hpos := length_pos_of_mem hm
    rw [length_reverse] at hlen
    exact .inr (by rw [removeLast, length_reverse, hlen]; omega)

/-- The receiver has a copy of the mount with nothing mounted below it. -/
def State.HasCopy (s : State) (dir : Path) (parent gone : Mount) (t : Nat × Mount) : Prop :=
  ¬(t.1 = s.current ∧ t.2.point = parent.point) ∧ t.2.fs = parent.fs ∧
    ∃ rel, strip dir t.2.subdir = some rel ∧ ∃ ms ∈ s.lists t.1,
      (∃ m ∈ ms, m.point = t.2.point ++ rel ∧ m.fs = gone.fs) ∧
      ∀ m ∈ ms, t.2.point ++ rel <+: m.point → m.point = t.2.point ++ rel

lemma unmountCopy_eq_self {s : State} {dir : Path} {parent gone : Mount} {t : Nat × Mount} :
    unmountCopy dir parent gone s t = s ↔ ¬s.HasCopy dir parent gone t := by
  unfold unmountCopy State.HasCopy
  split
  next hsource => exact iff_of_true rfl fun h => hsource.elim h.1 (absurd h.2.1)
  next hsource =>
    push Not at hsource
    cases hrel : strip dir t.2.subdir with
    | none => simp
    | some rel =>
      simp only [modify_eq_self, Option.some.injEq, exists_eq_left', not_and, not_exists]
      constructor
      · rintro h - - ms hms ⟨m, hm, hpoint, hfs⟩ hclear
        have hkept := h ms hms
        have hnone : ¬(ms.any fun m => m.point ≠ t.2.point ++ rel && below m.point (t.2.point ++ rel))
            = true := by
          simp only [any_eq_true, Bool.and_eq_true, decide_eq_true_eq, below, not_exists, not_and]
          exact fun m hm hne hpre => hne (hclear m hm hpre)
        rw [if_neg hnone, removeLast_eq_self] at hkept
        exact hkept m hm (by simp [hpoint, hfs])
      · intro h ms hms
        split
        · rfl
        rename_i hnone
        rw [removeLast_eq_self]
        intro m hm hq
        simp only [Bool.and_eq_true, decide_eq_true_eq] at hq
        refine h (fun hns => hsource.1 hns) hsource.2 ms hms ⟨m, hm, hq⟩ fun m' hm' hpre => ?_
        by_contra hne
        exact hnone (any_eq_true.mpr ⟨m', hm', by simp [below, hne, hpre]⟩)

lemma unmountCopy_smaller (dir : Path) (parent gone : Mount) (s : State) (t : Nat × Mount) :
    unmountCopy dir parent gone s t = s ∨ (unmountCopy dir parent gone s t).size < s.size := by
  unfold unmountCopy
  split
  · exact .inl rfl
  split
  · exact .inl rfl
  refine modify_smaller fun ms => ?_
  split
  · exact .inl rfl
  · exact removeLast_smaller ms _

/-- The unmount gets as far as its copies, and there is one that goes. -/
def State.Spreads (s : State) (point : Path) : Prop :=
  ∃ top, lastAt s.mounts point = some top ∧ top.locked = false ∧
    (top.guest = true ∨ s.current ≠ 0) ∧
    ∃ parent, s.parentOf point = some parent ∧ parent.peer ≠ 0 ∧
      ∃ t ∈ s.receiversFrom s.spreadFuel [parent.peer] [] [],
        s.HasCopy (parent.fsPath (relativeTo point parent.point)) parent top t

lemma propagateUnmount_eq_self {s : State} {gone : Mount} :
    s.propagateUnmount gone = s ↔ ∀ parent, s.parentOf gone.point = some parent →
      parent.peer ≠ 0 → ∀ t ∈ s.receiversFrom s.spreadFuel [parent.peer] [] [],
        ¬s.HasCopy (parent.fsPath (relativeTo gone.point parent.point)) parent gone t := by
  unfold State.propagateUnmount
  split
  next hnone => simp [hnone]
  next parent hparent =>
    rw [hparent]
    split
    next hpeer => simp [hpeer]
    next hpeer =>
      rw [foldl_eq_self State.size (unmountCopy_smaller _ parent gone)]
      simp [unmountCopy_eq_self, hpeer]

/-- **An unmount that fails leaves every namespace as it was** exactly if no copy of the mount is in
reach of its propagation, or it is refused before. -/
theorem unmount_failed (s : State) (point : Path) (detach : Bool) (e : Errno)
    (h : s.unmountError point detach = some e) :
    (s.unmount point detach).getD s = s ↔ ¬s.Spreads point := by
  unfold State.unmountError at h
  unfold State.unmount State.Spreads
  cases htop : lastAt s.mounts point with
  | none => simp
  | some top =>
    rw [htop] at h
    dsimp only at h ⊢
    split
    next hlocked => simp [hlocked]
    next hlocked =>
    rw [if_neg hlocked] at h
    split
    next hvm =>
      simp only [Bool.and_eq_true, Bool.not_eq_true', decide_eq_true_eq] at hvm
      simp [hvm]
    next hvm =>
    rw [if_neg hvm] at h
    -- whatever it fails with now, what is left is what the propagation left
    have hleft : ∀ r : Option State, r = some (s.propagateUnmount top) → (r.getD s = s ↔
        s.propagateUnmount top = s) := by
      rintro r rfl
      rfl
    have hguest : top.guest = true ∨ s.current ≠ 0 := by
      by_contra hnot
      push Not at hnot
      exact hvm (by simp [hnot])
    refine (hleft _ ?_).trans ?_
    · cases hgone : lastAt (s.propagateUnmount top).mounts point with
      | none => rfl
      | some gone =>
        rw [hgone] at h
        dsimp only at h ⊢
        split at h
        next hbusy => rw [if_pos hbusy]
        next => cases h
    · rw [propagateUnmount_eq_self, lastAt_point htop]
      simp only [Option.some.injEq, exists_eq_left', hguest, true_and]
      simp only [Bool.not_eq_true] at hlocked
      simp [hlocked]

/-- Namespace 1 has `/a` and `/a/b`; the peer of its root in 2 has a copy of `/a`. -/
def peers (group : Nat) : State :=
  let shared := [{ rootMount with peer := group }, { dataMount with locked := false }]
  { inheriting [] with
    mounts := shared ++ [{ dataMount with point := [.plain "a", .plain "b"] }]
    parked := [(2, shared)]
    groups := 1 }

theorem unmount_failed_private : (peers 0).unmountError [.plain "a"] false = some .ebusy ∧
    ((peers 0).unmount [.plain "a"] false).getD (peers 0) = peers 0 := by
  have h : (peers 0).unmountError [.plain "a"] false = some .ebusy := by decide
  refine ⟨h, (unmount_failed _ _ _ _ h).mpr ?_⟩
  rintro ⟨top, -, -, -, parent, hparent, hpeer, -⟩
  have hroot : (peers 0).parentOf [.plain "a"] = some rootMount := by decide
  cases hparent
  exact hpeer rfl

/-- The unmount of `/a` is refused, and `/a` is gone in the other namespace. -/
theorem unmount_failed_removes_copy : (peers 1).unmountError [.plain "a"] false = some .ebusy ∧
      (((peers 1).unmount [.plain "a"] false).getD (peers 1)).parked ≠ (peers 1).parked := by
  decide

/-- Where an operation mounts something. -/
def Op.target : Op → Option Path
  | .mount point => some point
  | .bind _ target _ => some target
  | .move _ target => some target
  | _ => none

def State.newTree (s : State) : Op → List Mount
  | .mount point => [⟨point, s.nextFs, [], true, false, false, 0, 0, 0, false⟩]
  | .bind source target recursive =>
    ((bestMount s.mounts source).map (bindTree s.mounts · source target recursive)).getD []
  | .move source target => (s.mounts.filter (below ·.point source)).map (Mount.moved source target)
  | _ => []

/-- The copies that propagation adds to the namespace for a new tree. -/
def State.copiesOf (s : State) : List Mount → List Mount
  | [] => []
  | first :: rest =>
    match bestMount s.mounts first.point with
    | none => []
    | some parent =>
      if parent.peer = 0 then []
      else
        let r := number s.groups ((first :: rest).map (·.peer))
        let tree := ((first :: rest).zip r.2).map fun e => { e.1 with peer := e.2 }
        let dir := parent.fsPath (relativeTo first.point parent.point)
        ((s.spread parent tree first.point dir s.spreadFuel
          ⟨[(parent.peer, r.2, List.replicate tree.length 0)], [], [], r.1⟩).copies.filter
            (·.1 = s.current)).map (·.2)

/-- A mount that shows at its point what one of the new tree shows there. -/
def State.IsNew (s : State) (op : Op) (m : Mount) : Prop := ∃ n ∈ s.newTree op, m.core = n.core

/-- Of a move: a mount that stays and is the last at its point, at or below the new one, shows what
a moved one does. Of the others: where an older mount is at or below the point, one of the new tree
or a copy of it is, and a copy there that is the last at its point shows what the tree does. -/
def State.Clear (s : State) (point : Path) (op : Op) : Prop :=
  match op with
  | .move source _ => ∀ m, Last (fun n => (n.moved source point).point) s.mounts m →
      ¬source <+: m.point → point <+: m.point → s.IsNew op m
  | _ => (∀ m ∈ s.mounts, point <+: m.point →
        ∃ n ∈ s.newTree op ++ s.copiesOf (s.newTree op), n.point = m.point) ∧
      ∀ m, Last Mount.point (s.copiesOf (s.newTree op)) m → point <+: m.point → s.IsNew op m

section Covers

variable {s : State} {point : Path}

lemma attach_adds (s : State) (tree : List Mount) : (s.attach tree).cores =
    s.cores ++ (tree ++ s.copiesOf tree).map Mount.core := by
  cases tree with
  | nil => simp [State.attach, State.copiesOf]
  | cons first rest =>
    unfold State.attach State.copiesOf
    dsimp only
    cases bestMount s.mounts first.point with
    | none => simp [State.cores]
    | some parent =>
      dsimp only
      by_cases hpeer : parent.peer = 0
      · rw [if_pos hpeer, if_pos hpeer]
        simp [State.cores]
      rw [if_neg hpeer, if_neg hpeer]
      refine (push_all _ _).1.trans ?_
      have hpeers := renumbered_cores (first :: rest)
        (number s.groups ((first :: rest).map (·.peer))).2 (by rw [number_length, length_map])
      simp only [State.cores, map_append, hpeers, map_map, append_assoc]
      rfl

lemma spread_nextFs (n : Nat) (parent : Mount) (tree : List Mount) (top dir : Path) (fuel : Nat) :
    ∀ w, ({ s with nextFs := n } : State).spread parent tree top dir fuel w =
      s.spread parent tree top dir fuel w := by
  induction fuel with
  | zero => exact fun w => rfl
  | succ fuel ih =>
    intro w
    unfold State.spread
    simp only [ih]
    rfl

lemma copiesOf_nextFs (n : Nat) (tree : List Mount) :
    ({ s with nextFs := n } : State).copiesOf tree = s.copiesOf tree := by
  unfold State.copiesOf
  simp only [spread_nextFs]
  rfl

/-- A tree covers its point exactly if no older mount and no copy shows below it. -/
lemma covers_attached {tree copies : List Mount} {first : Mount} {cs : List Core}
    (hfirst : first ∈ tree) :
    (∀ c, Last Core.point (cs ++ (tree ++ copies).map Mount.core) c → first.point <+: c.point →
      ∃ n ∈ tree, c = n.core) ↔
    (∀ c ∈ cs, first.point <+: c.point → ∃ n ∈ tree ++ copies, n.point = c.point) ∧
      ∀ m, Last Mount.point copies m → first.point <+: m.point → ∃ n ∈ tree, m.core = n.core := by
  constructor
  · intro h
    constructor
    · intro c hc hpre
      by_contra hnone
      push Not at hnone
      -- the last of the older ones there is the last of all
      obtain ⟨d, hd, hpoint⟩ : ∃ d, Last Core.point cs d ∧ d.point = c.point := exists_last hc
      have hlast : Last Core.point (cs ++ (tree ++ copies).map Mount.core) d := by
        refine last_append.mpr (.inr ⟨hd, fun e he => ?_⟩)
        obtain ⟨m, hm, rfl⟩ := mem_map.mp he
        rw [hpoint]
        exact hnone m hm
      obtain ⟨n, hn, rfl⟩ := h d hlast (by rwa [hpoint])
      exact hnone n (mem_append_left _ hn) hpoint
    · intro m hm hpre
      refine h m.core (last_append.mpr (.inl ?_)) hpre
      exact last_map.mpr ⟨m, rfl, last_append.mpr (.inl hm)⟩
  · rintro ⟨hold, hcopies⟩ c hc hpre
    rcases last_append.mp hc with hnew | ⟨⟨l1, l2, rfl, -⟩, hafter⟩
    · obtain ⟨m, rfl, hm⟩ := last_map.mp hnew
      rcases last_append.mp hm with hcopy | ⟨⟨l1, l2, rfl, -⟩, -⟩
      · exact hcopies m hcopy hpre
      · exact ⟨m, by simp, rfl⟩
    · obtain ⟨n, hn, hpoint⟩ := hold c (by simp) hpre
      exact absurd hpoint (hafter _ (mem_map_of_mem hn))

lemma covers_moved {source : Path} :
    (∀ c, Last Core.point ((s.mounts.map (Mount.moved source point)).map Mount.core) c →
      point <+: c.point →
      ∃ n ∈ (s.mounts.filter (below ·.point source)).map (Mount.moved source point),
        c = n.core) ↔
    ∀ m, Last (fun n => (n.moved source point).point) s.mounts m → ¬source <+: m.point →
      point <+: m.point →
      ∃ n ∈ (s.mounts.filter (below ·.point source)).map (Mount.moved source point),
        m.core = n.core := by
  have hstays : ∀ m : Mount, ¬source <+: m.point → m.moved source point = m :=
    fun m hm => if_neg (by simpa [below] using hm)
  constructor
  · intro h m hm hsource hpre
    refine h m.core ?_ hpre
    rw [map_map]
    exact last_map.mpr ⟨m, by rw [Function.comp_apply, hstays m hsource], hm⟩
  · intro h c hc hpre
    rw [map_map] at hc
    obtain ⟨m, rfl, hm⟩ := last_map.mp hc
    by_cases hsource : source <+: m.point
    · obtain ⟨l1, l2, heq, -⟩ := hm
      refine ⟨_, mem_map_of_mem (mem_filter.mpr ⟨?_, by simpa [below] using hsource⟩), rfl⟩
      rw [heq]
      simp
    · rw [Function.comp_apply, hstays m hsource] at hpre ⊢
      exact h m hm hsource hpre

/-- What resolves below the point, in terms of what is last at its place. -/
lemma resolves_iff (s : State) (op : Op) {ms : List Mount} {m : Mount} (hm : m ∈ ms) :
    (∀ p, m.point <+: p → ∃ n, s.IsNew op n ∧
      resolve ms p = some (n, n.fsPath (relativeTo p n.point))) ↔
    ∀ c, Last Core.point (ms.map Mount.core) c → m.point <+: c.point →
      ∃ n ∈ s.newTree op, c = n.core := by
  have hmem : m.core ∈ ms.map Mount.core := mem_map_of_mem hm
  have hlast : (∀ p, m.core.point <+: p → ∃ c, (∃ n ∈ s.newTree op, c = n.core) ∧
      best Core.point (ms.map Mount.core) p = some c) ↔ _ := forall_best_iff hmem
  refine Iff.trans (forall_congr' fun p => imp_congr_right fun _ => ?_) hlast
  have hbest : best Core.point (ms.map Mount.core) p = (bestMount ms p).map Mount.core :=
    best_map Mount.core ms p
  rw [hbest, resolve]
  cases bestMount ms p with
  | none => simp
  | some n => simp [State.IsNew]

/-- The operations that attach a tree. -/
lemma attached_iff {s₁ : State} {op : Op} (first : Mount) (hfirst : first ∈ s.newTree op)
    (hadds : s₁.cores = s.cores ++ (s.newTree op ++ s.copiesOf (s.newTree op)).map Mount.core) :
    (∀ p, first.point <+: p → ∃ m, s.IsNew op m ∧
      resolve s₁.mounts p = some (m, m.fsPath (relativeTo p m.point))) ↔
    (∀ m ∈ s.mounts, first.point <+: m.point →
      ∃ n ∈ s.newTree op ++ s.copiesOf (s.newTree op), n.point = m.point) ∧
      ∀ m, Last Mount.point (s.copiesOf (s.newTree op)) m → first.point <+: m.point →
        s.IsNew op m := by
  obtain ⟨m, hm, hcore⟩ : ∃ m ∈ s₁.mounts, m.core = first.core := by
    have hmem : first.core ∈ s₁.cores := by
      rw [hadds]
      exact mem_append_right _ (mem_map_of_mem (mem_append_left _ hfirst))
    exact mem_map.mp hmem
  have hpoint : m.point = first.point := congrArg Core.point hcore
  have hiff := resolves_iff s op hm
  rw [hpoint] at hiff
  refine hiff.trans ?_
  change (∀ c, Last Core.point s₁.cores c → _ → _) ↔ _
  rw [hadds, covers_attached hfirst]
  refine and_congr_left fun _ => ?_
  constructor
  · exact fun h m hm => h m.core (mem_map_of_mem hm)
  · intro h c hc
    obtain ⟨m, hm, rfl⟩ := mem_map.mp hc
    exact h m hm

/-- **A new mount covers its point**: what is found at any path at or below it is what the new tree
shows there, exactly if no older mount and no copy of the new ones is in the way. -/
theorem new_mount_covers (s s' : State) (op : Op) (point : Path) (h : s.step op = some s')
    (htarget : op.target = some point) :
    (∀ p, point <+: p → ∃ m, s.IsNew op m ∧
      resolve s'.mounts p = some (m, m.fsPath (relativeTo p m.point))) ↔ s.Clear point op := by
  cases op with
  | mount point =>
    cases h
    cases htarget
    have hadds := attach_adds { s with nextFs := s.nextFs + 1 } (s.newTree (.mount point))
    rw [copiesOf_nextFs] at hadds
    exact attached_iff ⟨point, s.nextFs, [], true, false, false, 0, 0, 0, false⟩ mem_cons_self hadds
  | bind source target recursive =>
    cases htarget
    simp only [State.step, State.bind] at h
    split at h
    · cases h
    rename_i i hi
    split at h
    · cases h
    cases h
    have htree : s.newTree (.bind source point recursive) =
        bindTree s.mounts i source point recursive := by
      rw [State.newTree, hi]
      rfl
    have hadds := attach_adds s (bindTree s.mounts i source point recursive)
    rw [← htree] at hadds ⊢
    refine attached_iff ((bindTree s.mounts i source point recursive).head (by simp [bindTree])) ?_
      hadds
    rw [htree]
    exact head_mem _
  | move source target =>
    cases htarget
    simp only [State.step, State.moveMount] at h
    split at h
    · rename_i hany
      cases h
      obtain ⟨m₀, hm₀, hsource⟩ := List.any_eq_true.mp hany
      simp only [Bool.and_eq_true, decide_eq_true_eq] at hsource
      have hpoint : (m₀.moved source point).point = point := by
        simp [Mount.moved, below, relativeTo, hsource.1]
      have hiff := resolves_iff s (.move source point)
        (mem_map_of_mem (f := Mount.moved source point) hm₀)
      rw [hpoint] at hiff
      exact hiff.trans covers_moved
    · cases h
  | _ => cases htarget

end Covers

/-- On a shared root, whose peer in another namespace gets a copy. -/
theorem new_mount_covers_c : (peers 1).Clear [.plain "c"] (.mount [.plain "c"]) ∧
    ∀ p, [.plain "c"] <+: p → ∃ m, (peers 1).IsNew (.mount [.plain "c"]) m ∧
      resolve ((peers 1).mount [.plain "c"]).mounts p =
        some (m, m.fsPath (relativeTo p m.point)) := by
  have hclear : (peers 1).Clear [.plain "c"] (.mount [.plain "c"]) := by
    constructor
    · intro m hm hpre
      exact absurd hpre (by revert m; decide)
    · intro m hm
      have hnone : (peers 1).copiesOf ((peers 1).newTree (.mount [.plain "c"])) = [] := by decide
      obtain ⟨l1, l2, heq, -⟩ := hm
      simp [hnone] at heq
  exact ⟨hclear, (new_mount_covers (peers 1) _ (.mount [.plain "c"]) _ rfl rfl).mpr hclear⟩

/-- A path below an older mount is not covered by a new one above it. -/
theorem new_mount_covered : resolve ((peers 0).mount [.plain "a"]).mounts [.plain "a", .plain "b"] =
        resolve (peers 0).mounts [.plain "a", .plain "b"] ∧
      ∀ m ∈ (peers 0).newTree (.mount [.plain "a"]),
        (resolve ((peers 0).mount [.plain "a"]).mounts [.plain "a", .plain "b"]).map Prod.fst ≠
          some m := by
  decide

end NixVm.Mounts
