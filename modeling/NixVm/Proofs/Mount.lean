/-
What a namespace of inherited mounts can come to show.

An operation adds copies of mounts it has, under other points, or takes mounts away.
-/
import NixVm.Fs.Mount

namespace NixVm.Mounts

open List Longest Mount

/-! ### What resolution sees of a mount -/

structure Core where
  point : Path
  fs : Nat
  subdir : Path
  readOnly : Bool

def Mount.core (m : Mount) : Core := ⟨m.point, m.fs, m.subdir, m.readOnly⟩

def Core.shift (t : Path) (c : Core) : Core := { c with point := t ++ c.point }

def Core.unshift (t : Path) (c : Core) : Core := { c with point := relativeTo c.point t }

def State.cores (s : State) : List Core := s.mounts.map Mount.core

/-- What a list of mounts shows is among the files `A`. -/
def Sees (A : Nat → Path → Prop) (cs : List Core) : Prop :=
  ∀ p c, Longest.best Core.point cs p = some c → A c.fs (c.subdir ++ p.drop c.point.length)

variable {A : Nat → Path → Prop}

lemma Sees.nil : Sees A [] := fun _ _ h => by cases h

variable {cs R : List Core} {tree ms : List Mount} {top point : Path} {s s' init : State}
  {m : Mount}

lemma Sees.append {ds : List Core} (hc : Sees A cs) (hd : Sees A ds) : Sees A (cs ++ ds) := by
  intro p c h
  rcases best_append h with h | h
  · exact hc p c h
  · exact hd p c h

lemma Sees.shift (h : Sees A cs) (t : Path) : Sees A (cs.map (Core.shift t)) := by
  intro p c hbest
  obtain ⟨-, hpre, -⟩ := best_spec _ hbest
  rw [best_map] at hbest
  obtain ⟨d, hd, rfl⟩ := Option.map_eq_some_iff.mp hbest
  obtain ⟨x, rfl⟩ : ∃ x, p = t ++ x := by
    obtain ⟨y, hy⟩ := hpre
    exact ⟨d.point ++ y, by rw [← hy]; simp [Core.shift]⟩
  have hd' : best Core.point cs x = some d := by
    rw [← best_shift t cs x]
    exact hd
  have hdrop : (t ++ x).drop (t ++ d.point).length = x.drop d.point.length := by
    rw [length_append, drop_append, drop_eq_nil_of_le (by omega)]
    simp
  show A d.fs (d.subdir ++ (t ++ x).drop (t ++ d.point).length)
  rw [hdrop]
  exact h x d hd'

/-! ### Adding a tree of mounts -/

/-- Copies of the mounts `R`, given by relative points, at several places. -/
def copiesAt (R : List Core) (ts : List Path) : List Core := ts.flatMap fun t => R.map (Core.shift t)

lemma Sees.copiesAt (h : Sees A R) (ts : List Path) : Sees A (copiesAt R ts) := by
  induction ts with
  | nil => exact Sees.nil
  | cons t ts ih => exact (h.shift t).append ih

def Spread.for_ (w : Spread) (ns : Nat) : List Core :=
  ((w.copies.filter (·.1 = ns)).map fun c => c.2.core)

lemma place_cores (htree : tree.map core = R.map (Core.shift top)) (dir : Path) (target : Mount)
    (peers masters : List Nat) :
    ∃ ts, (place tree top dir target peers masters).map core = copiesAt R ts := by
  unfold place
  cases strip dir target.subdir with
  | none => exact ⟨[], rfl⟩
  | some rel =>
    refine ⟨[target.point ++ rel], ?_⟩
    have hfst : ∀ t : Path, (tree.zipIdx.map fun e : Mount × Nat =>
        (⟨t ++ relativeTo e.1.point top, e.1.fs, e.1.subdir, e.1.readOnly⟩ : Core)) =
        (tree.map core).map fun c => (c.unshift top).shift t := by
      intro t
      rw [← zipIdx_map_fst 0 tree, map_map, map_map, zipIdx_map_fst]
      rfl
    simp only [map_map, copiesAt, flatMap_cons, flatMap_nil, append_nil]
    refine (hfst (target.point ++ rel)).trans ?_
    rw [htree, map_map]
    refine map_congr_left fun c _ => ?_
    simp [Core.shift, Core.unshift, relativeTo]

lemma copiesAt_append (R : List Core) (ts us : List Path) :
    copiesAt R (ts ++ us) = copiesAt R ts ++ copiesAt R us := by
  simp [copiesAt]

/-- Every namespace has been given copies of the whole tree. -/
def Spread.Whole (R : List Core) (w : Spread) : Prop := ∀ ns, ∃ ts, w.for_ ns = copiesAt R ts

lemma whole_add {w : Spread} (h : w.Whole R) (hms : ∃ ts, ms.map core = copiesAt R ts) (n : Nat) :
    Spread.Whole R { w with copies := w.copies ++ ms.map (n, ·) } := by
  intro ns
  have ⟨ts, hts⟩ := h ns
  obtain ⟨us, hus⟩ := hms
  by_cases hn : n = ns
  · refine ⟨ts ++ us, ?_⟩
    rw [copiesAt_append, ← hts, ← hus]
    simp only [Spread.for_, filter_append, filter_map, hn, Function.comp_def,
      decide_true, map_append, map_map]
    rw [filter_eq_self.mpr fun _ _ => rfl]
  · refine ⟨ts, ?_⟩
    rw [← hts]
    simp [Spread.for_, filter_map, hn, Function.comp_def]

lemma whole_visit {parent : Mount}
    {dir : Path} (htree : tree.map core = R.map (Core.shift top)) {group : Nat}
    {peers masters : List Nat} {w : Spread} (h : w.Whole R) (t : Nat × Mount) :
    (s.visit parent tree top dir group peers masters w t).Whole R := by
  unfold State.visit
  dsimp only
  split
  · exact whole_add h (place_cores htree ..) _
  split
  · split
    · exact whole_add h (place_cores htree ..) _
    · exact h
  · exact h

lemma whole_spread (s : State) (parent : Mount) (dir : Path)
    (htree : tree.map core = R.map (Core.shift top)) (fuel : Nat) :
    ∀ w : Spread, w.Whole R → (s.spread parent tree top dir fuel w).Whole R := by
  have hfold : ∀ (group : Nat) (peers masters : List Nat) (ts : List (Nat × Mount)) (w : Spread),
      w.Whole R → (ts.foldl (s.visit parent tree top dir group peers masters) w).Whole R := by
    intro group peers masters ts
    induction ts with
    | nil => exact fun w h => h
    | cons t ts ih => exact fun w h => ih _ (whole_visit htree h t)
  induction fuel with
  | zero => exact fun w h => h
  | succ fuel ih =>
    intro w h
    unfold State.spread
    split
    · exact h
    dsimp only
    split
    · exact ih _ h
    · exact ih _ (hfold _ _ _ _ _ h)

lemma push_all (copies : List (Nat × Mount)) : ∀ s : State, (copies.foldl State.push s).cores =
        s.cores ++ (copies.filter (·.1 = s.current)).map (fun c => c.2.core) ∧
      (copies.foldl State.push s).nextFs = s.nextFs := by
  induction copies with
  | nil => exact fun s => ⟨by simp [State.cores], rfl⟩
  | cons c copies ih =>
    intro s
    have ⟨hcores, hfs⟩ := ih (s.push c)
    by_cases hc : c.1 = s.current
    · have hpush : s.push c = { s with mounts := s.mounts ++ [c.2] } := by
        simp [State.push, State.modify, hc]
      rw [foldl_cons, hcores, hfs, hpush]
      simp [State.cores, hc]
    have hpush : (s.push c).cores = s.cores ∧ (s.push c).current = s.current ∧
        (s.push c).nextFs = s.nextFs := by
      simp [State.push, State.modify, hc, State.cores]
    rw [foldl_cons, hcores, hfs, hpush.1, hpush.2.1, hpush.2.2]
    simp [hc]

lemma number_length (l : List Nat) : ∀ g, (number g l).2.length = l.length := by
  induction l with
  | nil => exact fun g => rfl
  | cons n l ih =>
    intro g
    cases n with
    | zero => simp [number, ih]
    | succ n => simp [number, ih]

/-- The peer groups that a tree gets do not show. -/
lemma renumbered_cores (tree : List Mount) (ps : List Nat) (hlen : ps.length = tree.length) :
    ((tree.zip ps).map fun e => ({ e.1 with peer := e.2 } : Mount)).map core = tree.map core := by
  have hfst : (tree.zip ps).map Prod.fst = tree := map_fst_zip (by omega)
  have hcore : (tree.zip ps).map (fun e => core ({ e.1 with peer := e.2 } : Mount)) =
      ((tree.zip ps).map Prod.fst).map core := by
    rw [map_map]
    rfl
  rw [map_map]
  exact hcore.trans (by rw [hfst])

lemma attach_cores (s : State) {first : Mount} {rest : List Mount}
    (htree : (first :: rest).map core = R.map (Core.shift first.point)) :
    (∃ ts, (s.attach (first :: rest)).cores = s.cores ++ copiesAt R ts) ∧
      (s.attach (first :: rest)).nextFs = s.nextFs := by
  have hself : (first :: rest).map core = copiesAt R [first.point] := by
    rw [htree]
    simp [copiesAt]
  unfold State.attach
  dsimp only
  split
  · refine ⟨⟨[first.point], ?_⟩, rfl⟩
    rw [← hself]
    simp [State.cores]
  split
  · refine ⟨⟨[first.point], ?_⟩, rfl⟩
    rw [← hself]
    simp [State.cores]
  rename_i parent _ _
  have hnum := renumbered_cores (first :: rest) (number s.groups ((first :: rest).map (·.peer))).2
    (by rw [number_length, length_map])
  generalize hr : number s.groups ((first :: rest).map (·.peer)) = r at hnum ⊢
  generalize htr : ((first :: rest).zip r.2).map (fun e => ({ e.1 with peer := e.2 } : Mount))
    = tree at hnum ⊢
  have hwhole := whole_spread s parent
    (parent.fsPath (relativeTo first.point parent.point)) (hnum.trans htree)
    s.spreadFuel ⟨[(parent.peer, r.2, List.replicate tree.length 0)], [], [], r.1⟩
    fun ns => ⟨[], rfl⟩
  generalize s.spread parent tree first.point
    (parent.fsPath (relativeTo first.point parent.point)) s.spreadFuel
    ⟨[(parent.peer, r.2, List.replicate tree.length 0)], [], [], r.1⟩ = w at hwhole ⊢
  have ⟨hcores, hfs⟩ := push_all w.copies
    { s with mounts := s.mounts ++ tree, groups := w.groups }
  have ⟨ts, hts⟩ := hwhole s.current
  refine ⟨⟨first.point :: ts, ?_⟩, hfs⟩
  refine hcores.trans ?_
  have hmounts : State.cores { s with mounts := s.mounts ++ tree, groups := w.groups } =
      s.cores ++ tree.map core := by simp [State.cores]
  rw [hmounts, hnum, hself]
  show _ ++ w.for_ s.current = _
  rw [hts]
  simp [copiesAt]

/-! ### The other operations -/

lemma filter_eraseP {α : Type} {q r : α → Bool} (l : List α)
    (h : ∀ x, l.find? q = some x → r x = false) : (l.eraseP q).filter r = l.filter r := by
  induction l with
  | nil => rfl
  | cons a l ih =>
    cases hq : q a with
    | true =>
      have hr := h a (List.find?_cons_of_pos hq)
      rw [eraseP_cons_of_pos hq, filter_cons_of_neg (by simp [hr])]
    | false =>
      have hneg : ¬q a = true := by simp [hq]
      rw [eraseP_cons_of_neg hneg, filter_cons, filter_cons,
        ih fun x hx => h x (by rw [List.find?_cons_of_neg hneg]; exact hx)]

lemma filter_removeLast {q r : Mount → Bool} (h : ∀ m, ms.reverse.find? q = some m → r m = false) :
    (removeLast ms q).filter r = ms.filter r := by
  rw [removeLast, filter_reverse, filter_eraseP _ h, ← filter_reverse, reverse_reverse]

lemma mem_removeLast {q : Mount → Bool} (h : m ∈ removeLast ms q) : m ∈ ms := by
  rw [removeLast, mem_reverse] at h
  exact mem_reverse.mp (mem_of_mem_eraseP h)

lemma unmountCopy_mounts (dir : Path) (parent gone : Mount) (s : State) (t : Nat × Mount) :
    (unmountCopy dir parent gone s t).mounts = s.mounts ∨
      ∃ point, (unmountCopy dir parent gone s t).mounts =
        removeLast s.mounts fun m => m.point = point && m.fs = gone.fs := by
  unfold unmountCopy
  split
  · exact .inl rfl
  split
  · exact .inl rfl
  rename_i rel _
  unfold State.modify
  split
  · dsimp only
    split
    · exact .inl rfl
    · exact .inr ⟨t.2.point ++ rel, rfl⟩
  · exact .inl rfl

lemma unmountCopy_nextFs {dir : Path} {parent gone : Mount} (s : State)
    (t : Nat × Mount) : (unmountCopy dir parent gone s t).nextFs = s.nextFs := by
  unfold unmountCopy
  repeat' split
  all_goals first | rfl | (unfold State.modify; split <;> rfl)

lemma propagateUnmount_spec (s : State) (gone : Mount) :
    (s.propagateUnmount gone).nextFs = s.nextFs ∧
    (∀ m ∈ (s.propagateUnmount gone).mounts, m ∈ s.mounts) ∧
    ∀ r : Mount → Bool, (∀ m, m.fs = gone.fs → r m = false) →
      (s.propagateUnmount gone).mounts.filter r = s.mounts.filter r := by
  have hone : ∀ (dir : Path) (parent : Mount) (s : State) (t : Nat × Mount),
      (∀ m ∈ (unmountCopy dir parent gone s t).mounts, m ∈ s.mounts) ∧
      ∀ r : Mount → Bool, (∀ m, m.fs = gone.fs → r m = false) →
        (unmountCopy dir parent gone s t).mounts.filter r = s.mounts.filter r := by
    intro dir parent s t
    rcases unmountCopy_mounts dir parent gone s t with h | ⟨point, h⟩
    · rw [h]
      exact ⟨fun m hm => hm, fun r _ => rfl⟩
    rw [h]
    refine ⟨fun m hm => mem_removeLast hm, fun r hr => filter_removeLast fun m hm => hr m ?_⟩
    have := List.find?_some hm
    simp only [Bool.and_eq_true, decide_eq_true_eq] at this
    exact this.2
  have hall : ∀ (dir : Path) (parent : Mount) (ts : List (Nat × Mount)) (s : State),
      (ts.foldl (unmountCopy dir parent gone) s).nextFs = s.nextFs ∧
      (∀ m ∈ (ts.foldl (unmountCopy dir parent gone) s).mounts, m ∈ s.mounts) ∧
      ∀ r : Mount → Bool, (∀ m, m.fs = gone.fs → r m = false) →
        (ts.foldl (unmountCopy dir parent gone) s).mounts.filter r = s.mounts.filter r := by
    intro dir parent ts
    induction ts with
    | nil => exact fun s => ⟨rfl, fun m hm => hm, fun r _ => rfl⟩
    | cons t ts ih =>
      intro s
      have ⟨hfs, hmem, hfilter⟩ := ih (unmountCopy dir parent gone s t)
      have ⟨hmem', hfilter'⟩ := hone dir parent s t
      exact ⟨hfs.trans (unmountCopy_nextFs s t), fun m hm => hmem' m (hmem m hm),
        fun r hr => (hfilter r hr).trans (hfilter' r hr)⟩
  unfold State.propagateUnmount
  split
  · exact ⟨rfl, fun m hm => hm, fun r _ => rfl⟩
  split
  · exact ⟨rfl, fun m hm => hm, fun r _ => rfl⟩
  · exact hall _ _ _ s

lemma changeLast_cores {g : Mount → Mount} {f : Core → Core}
    (h : ∀ m, f (g m).core = f m.core) (point : Path) (ms : List Mount) :
    (changeLast ms point g).map (fun m => f m.core) = ms.map fun m => f m.core := by
  induction ms with
  | nil => rfl
  | cons m ms ih =>
    unfold changeLast
    split
    · simp [h]
    · simp [ih]

lemma propagate_core (kind : Propagation) (others : Bool) (fresh : Nat) (m : Mount) :
    (m.propagate kind others fresh).core = m.core := by
  cases kind with
  | shared => rfl
  | private_ => rfl
  | unbindable => rfl
  | slave =>
    unfold propagate
    dsimp only
    split <;> rfl

lemma propagateFrom_cores (kind : Propagation) (is : List Nat) :
    ∀ s : State, (s.propagateFrom kind is).cores = s.cores ∧
      (s.propagateFrom kind is).nextFs = s.nextFs := by
  induction is with
  | nil => exact fun s => ⟨rfl, rfl⟩
  | cons i is ih =>
    intro s
    unfold State.propagateFrom
    split
    · exact ih s
    rename_i m hm
    have ⟨hcores, hfs⟩ := ih { s with
      mounts := s.mounts.set i (m.propagate kind
        (decide (1 < (s.all.filter (·.2.peer = m.peer)).length)) (s.groups + 1))
      groups := if kind = .shared ∧ m.peer = 0 then s.groups + 1 else s.groups }
    refine ⟨hcores.trans ?_, hfs⟩
    show (s.mounts.set i _).map core = s.mounts.map core
    rw [map_set, propagate_core]
    have hcore : (s.mounts.map core)[i]? = some m.core := by simp [hm]
    have ⟨hlt, heq⟩ := List.getElem?_eq_some_iff.mp hcore
    rw [← heq, set_getElem_self]

lemma setPropagation_cores {kind : Propagation} {recursive : Bool}
    (h : s.setPropagation point kind recursive = some s') :
    s'.cores = s.cores ∧ s'.nextFs = s.nextFs := by
  unfold State.setPropagation at h
  split at h
  · cases h
  cases h
  exact propagateFrom_cores kind _ s

/-- The mounts a bind adds, by their points relative to its target. -/
def bindCores (ms : List Mount) (i : Mount) (source : Path) (recursive : Bool) : List Core :=
  ⟨[], i.fs, i.fsPath (relativeTo source i.point), i.readOnly⟩ ::
  if recursive then
    (ms.filter fun m => m.point ≠ source && below m.point source && !m.unbindable).map
      fun m => m.core.unshift source
  else []

lemma bindTree_cores (ms : List Mount) (i : Mount) (source target : Path) (recursive : Bool) :
    (bindTree ms i source target recursive).map core =
      (bindCores ms i source recursive).map (Core.shift target) := by
  unfold bindTree bindCores
  cases recursive with
  | true =>
    simp only [if_true, map_cons, map_map]
    refine congrArg₂ List.cons ?_ rfl
    simp [core, Core.shift]
  | false => simp [core, Core.shift]

lemma bind_cores {source target : Path} {recursive : Bool}
    (h : s.bind source target recursive = some s') :
    ∃ i, bestMount s.mounts source = some i ∧ s'.nextFs = s.nextFs ∧
      ∃ ts, s'.cores = s.cores ++ copiesAt (bindCores s.mounts i source recursive) ts := by
  unfold State.bind at h
  split at h
  · cases h
  rename_i i hi
  split at h
  · cases h
  cases h
  have ⟨hcores, hfs⟩ := attach_cores s (bindTree_cores s.mounts i source target recursive)
  exact ⟨i, hi, hfs, hcores⟩

lemma mount_cores (s : State) (point : Path) : (s.mount point).nextFs = s.nextFs + 1 ∧
      ∃ ts, (s.mount point).cores = s.cores ++ copiesAt [⟨[], s.nextFs, [], false⟩] ts := by
  have htree : [(⟨point, s.nextFs, [], true, false, false, 0, 0, 0, false⟩ : Mount)].map
      core = [⟨[], s.nextFs, [], false⟩].map (Core.shift point) := by
    simp [core, Core.shift]
  have ⟨hcores, hfs⟩ := attach_cores { s with nextFs := s.nextFs + 1 } htree
  exact ⟨hfs, hcores⟩

lemma mem_changeLast {g : Mount → Mount} (ms : List Mount) (h : m ∈ changeLast ms point g) :
    m ∈ ms ∨ ∃ m', lastAt ms point = some m' ∧ m = g m' := by
  induction ms with
  | nil => cases h
  | cons a ms ih =>
    unfold changeLast at h
    split at h
    next hlast =>
      rcases mem_cons.mp h with rfl | h
      · refine .inr ⟨a, ?_, rfl⟩
        rw [lastAt, reverse_cons, List.find?_append, List.find?_eq_none.mpr]
        · simp [hlast.1]
        intro x hx
        simpa using hlast.2 x (mem_reverse.mp hx)
      · exact .inl (mem_cons_of_mem _ h)
    rcases mem_cons.mp h with rfl | h
    · exact .inl mem_cons_self
    rcases ih h with h | ⟨m', hm', rfl⟩
    · exact .inl (mem_cons_of_mem _ h)
    refine .inr ⟨m', ?_, rfl⟩
    unfold lastAt at hm'
    rw [lastAt, reverse_cons, List.find?_append, hm']
    rfl

lemma unmount_cases {detach : Bool} (h : s.unmount point detach = some s') :
    ∃ top, lastAt s.mounts point = some top ∧ s'.nextFs = s.nextFs ∧
      (s'.mounts = (s.propagateUnmount top).mounts ∨
        ∃ gone, lastAt (s.propagateUnmount top).mounts point = some gone ∧
          (s'.mounts = removeLast (s.propagateUnmount top).mounts (·.point = point) ∨
            detach = true ∧ ∃ hidden,
              s'.mounts = (removeLast (s.propagateUnmount top).mounts (·.point = point)).map
                (Mount.detach point hidden gone.pivotSide) ++ [{ gone with point := hidden }])) := by
  unfold State.unmount at h
  split at h
  · cases h
  rename_i top htop
  refine ⟨top, htop, ?_⟩
  have hfs := (propagateUnmount_spec s top).1
  split at h
  · cases h
  split at h
  · cases h
  dsimp only at h
  split at h
  · cases h
    exact ⟨hfs, .inl rfl⟩
  rename_i gone hgone
  split at h
  · cases h
    exact ⟨hfs, .inl rfl⟩
  split at h
  · cases h
    exact ⟨hfs, .inr ⟨gone, hgone, .inl rfl⟩⟩
  rename_i hdetach
  cases h
  exact ⟨hfs, .inr ⟨gone, hgone, .inr ⟨by simpa using hdetach, _, rfl⟩⟩⟩

lemma detach_same (point hidden : Path) (side : Nat) (m : Mount) :
    (m.detach point hidden side).fs = m.fs ∧ (m.detach point hidden side).subdir = m.subdir ∧
      (m.detach point hidden side).readOnly = m.readOnly := by
  unfold detach
  split <;> exact ⟨rfl, rfl, rfl⟩

lemma moved_same (from_ to_ : Path) (m : Mount) :
    (m.moved from_ to_).fs = m.fs ∧ (m.moved from_ to_).subdir = m.subdir ∧
      (m.moved from_ to_).readOnly = m.readOnly := by
  unfold moved
  split <;> exact ⟨rfl, rfl, rfl⟩

/-! ### Writable mounts -/

/-- The mount shows this file of this filesystem. -/
def Mount.Exposes (m : Mount) (fs : Nat) (fp : Path) : Prop := m.fs = fs ∧ m.subdir <+: fp

/-- A mount of an inherited filesystem is writable only where an inherited mount was. -/
def Kept (init : State) (m : Core) : Prop :=
  m.fs < init.nextFs → m.readOnly = false →
    ∃ m₀ ∈ init.mounts, m₀.Exposes m.fs m.subdir ∧ m₀.readOnly = false

lemma Kept.like {c d : Core} (h : Kept init c) (hfs : d.fs = c.fs)
    (hsub : c.subdir <+: d.subdir) (hro : d.readOnly = c.readOnly) : Kept init d := by
  intro hlt hw
  have ⟨m0, hmem, ⟨hf, hpre⟩, hrw⟩ := h (by rw [← hfs]; exact hlt) (by rw [← hro]; exact hw)
  exact ⟨m0, hmem, ⟨by rw [hfs]; exact hf, hpre.trans hsub⟩, hrw⟩

lemma kept_copiesAt (h : ∀ c ∈ R, Kept init c)
    {ts : List Path} : ∀ c ∈ copiesAt R ts, Kept init c := by
  intro c hc
  obtain ⟨t, -, hc⟩ := mem_flatMap.mp hc
  obtain ⟨r, hr, rfl⟩ := mem_map.mp hc
  exact (h r hr).like rfl prefix_rfl rfl

/-- A mount becomes writable only if it was, its filesystem is new, or an inherited mount of its
subtree is. -/
def Respects (init : State) (s : State) : Op → Prop
  | .remount point readOnly => readOnly = false → ∀ m, lastAt s.mounts point = some m →
      m.readOnly = false ∨ init.nextFs ≤ m.fs ∨
        ∃ m₀ ∈ init.mounts, m₀.Exposes m.fs m.subdir ∧ m₀.readOnly = false
  | _ => True

/-- The invariant of the writable mounts. -/
structure AllKept (init s : State) : Prop where
  later : init.nextFs ≤ s.nextFs
  kept : ∀ m ∈ s.mounts, Kept init m.core

lemma AllKept.cores (h : AllKept init s) : ∀ c ∈ s.cores, Kept init c := by
  intro c hc
  obtain ⟨m, hm, rfl⟩ := mem_map.mp hc
  exact h.kept m hm

lemma allKept_of_cores (hlater : init.nextFs ≤ s.nextFs)
    (h : ∀ c ∈ s.cores, Kept init c) : AllKept init s :=
  ⟨hlater, fun m hm => h m.core (mem_map_of_mem hm)⟩

lemma allKept_step {op : Op} (h : AllKept init s)
    (hop : Respects init s op) (hstep : s.step op = some s') : AllKept init s' := by
  cases op with
  | mount point =>
    cases hstep
    have ⟨hfs, ts, hcores⟩ := mount_cores s point
    refine allKept_of_cores (by rw [hfs]; exact Nat.le_succ_of_le h.later) fun c hc => ?_
    rw [hcores] at hc
    rcases mem_append.mp hc with hc | hc
    · exact h.cores c hc
    refine kept_copiesAt (fun r hr => ?_) c hc
    rw [mem_singleton.mp hr]
    exact fun hlt => absurd hlt (not_lt.mpr h.later)
  | bind source target recursive =>
    have ⟨i, hi, hfs, ts, hcores⟩ := bind_cores hstep
    refine allKept_of_cores (by rw [hfs]; exact h.later) fun c hc => ?_
    rw [hcores] at hc
    rcases mem_append.mp hc with hc | hc
    · exact h.cores c hc
    refine kept_copiesAt (fun r hr => ?_) c hc
    rcases mem_cons.mp hr with rfl | hr
    · exact (h.kept i (best_spec _ hi).1).like rfl (prefix_append ..) rfl
    cases recursive with
    | false => cases hr
    | true =>
      obtain ⟨m, hm, rfl⟩ := mem_map.mp hr
      exact (h.kept m (mem_filter.mp hm).1).like rfl prefix_rfl rfl
  | remount point readOnly =>
    have hstep : s.setReadOnly point readOnly = some s' := hstep
    unfold State.setReadOnly at hstep
    split at hstep
    · cases hstep
    split at hstep
    · cases hstep
    cases hstep
    refine ⟨h.later, fun m hm => ?_⟩
    rcases mem_changeLast s.mounts hm with hm | ⟨m', hm', rfl⟩
    · exact h.kept m hm
    intro hlt hw
    have hmem : m' ∈ s.mounts := mem_reverse.mp (mem_of_find?_eq_some hm')
    rcases hop hw m' hm' with hro | hnew | hold
    · exact h.kept m' hmem hlt hro
    · exact absurd hlt (not_lt.mpr hnew)
    · exact hold
  | move source target =>
    have hstep : s.moveMount source target = some s' := hstep
    unfold State.moveMount at hstep
    split at hstep
    · cases hstep
      refine ⟨h.later, fun m hm => ?_⟩
      obtain ⟨m', hm', rfl⟩ := mem_map.mp hm
      have ⟨hf, hd, hr⟩ := moved_same source target m'
      refine (h.kept m' hm').like hf ?_ hr
      show _ <+: (m'.moved source target).subdir
      rw [hd]
      exact prefix_rfl
    · cases hstep
  | pivotRoot newRoot putOld =>
    have hstep : s.pivotRoot newRoot putOld = some s' := hstep
    unfold State.pivotRoot at hstep
    split at hstep
    · cases hstep
    cases hstep
    refine ⟨h.later, fun m hm => ?_⟩
    have hidx : ∀ e ∈ s.mounts.zipIdx, Kept init e.1.core :=
      fun e he => h.kept e.1 (fst_mem_of_mem_zipIdx he)
    rcases mem_append.mp hm with hm | hm
    · obtain ⟨e, he, rfl⟩ := mem_map.mp hm
      exact (hidx e (mem_filter.mp he).1).like rfl prefix_rfl rfl
    · obtain ⟨e, he, rfl⟩ := mem_map.mp hm
      exact (hidx e (mem_filter.mp he).1).like rfl prefix_rfl rfl
  | setPropagation point kind recursive =>
    have ⟨hcores, hfs⟩ := setPropagation_cores hstep
    refine allKept_of_cores (by rw [hfs]; exact h.later) fun c hc => ?_
    rw [hcores] at hc
    exact h.cores c hc
  | unmount point detach =>
    obtain ⟨top, -, hfs, hmounts⟩ := unmount_cases hstep
    have hsub := (propagateUnmount_spec s top).2.1
    refine ⟨by rw [hfs]; exact h.later, fun m hm => ?_⟩
    rcases hmounts with hm' | ⟨gone, hgone, hm' | ⟨-, hidden, hm'⟩⟩
    · rw [hm'] at hm
      exact h.kept m (hsub m hm)
    · rw [hm'] at hm
      exact h.kept m (hsub m (mem_removeLast hm))
    rw [hm'] at hm
    rcases mem_append.mp hm with hm | hm
    · obtain ⟨m', hm', rfl⟩ := mem_map.mp hm
      have ⟨hf, hd, hr⟩ := detach_same point hidden gone.pivotSide m'
      refine (h.kept m' (hsub m' (mem_removeLast hm'))).like hf ?_ hr
      show _ <+: (m'.detach point hidden gone.pivotSide).subdir
      rw [hd]
      exact prefix_rfl
    rw [mem_singleton.mp hm]
    have hmem : gone ∈ (s.propagateUnmount top).mounts :=
      mem_reverse.mp (mem_of_find?_eq_some hgone)
    exact (h.kept gone (hsub gone hmem)).like rfl prefix_rfl rfl

/-- **Inherited read-only mounts stay read-only.** A path leads to an inherited file through a
writable mount only if one of those that show it was writable. -/
theorem read_only_kept {init s : State} (hinit : Inherited init)
    (h : State.Reach (Respects init) init s) {p fp : Path} {m : Mount}
    (hp : resolve s.mounts p = some (m, fp)) (hw : m.readOnly = false)
    (hshown : ∃ m₀ ∈ init.mounts, m₀.Exposes m.fs fp) :
    ∃ m₀ ∈ init.mounts, m₀.Exposes m.fs fp ∧ m₀.readOnly = false := by
  have hstart : AllKept init init := by
    refine ⟨le_rfl, fun m hm _ hw => ⟨m, hm, ⟨rfl, List.prefix_rfl⟩, hw⟩⟩
  have hkept := h.invariant (P := AllKept init) hstart
    fun _ _ _ hs hop hstep => allKept_step hs hop hstep
  obtain ⟨m', hbest, heq⟩ := Option.map_eq_some_iff.mp hp
  cases heq
  obtain ⟨m₁, hm₁, hf₁, -⟩ := hshown
  have hlt : m.fs < init.nextFs := by
    rw [← hf₁]
    exact hinit.fresh m₁ hm₁
  obtain ⟨m₀, hm₀, ⟨hf, hpre⟩, hrw⟩ := hkept.kept m (Longest.best_spec _ hbest).1 hlt hw
  exact ⟨m₀, hm₀, ⟨hf, hpre.trans (List.prefix_append ..)⟩, hrw⟩

/-- A writable root and a locked read-only mount at `/a`, as a namespace inherits them. -/
def rootMount : Mount := ⟨[], 0, [], false, false, false, 0, 0, 0, false⟩

def dataMount : Mount := ⟨[.plain "a"], 1, [], false, true, true, 0, 0, 0, false⟩

/-- A namespace with these two, and `more`. -/
def inheriting (more : List Mount) : State where
  mounts := rootMount :: dataMount :: more
  current := 1
  parked := []
  groups := 0
  pivots := 0
  detached := 0
  nextFs := 2

lemma inheriting_inherited : Inherited (inheriting []) :=
  ⟨⟨[rootMount, { dataMount with locked := false }], by decide⟩, by decide⟩

theorem read_only_kept_bound : ∃ s m fp, State.Reach (Respects (inheriting [])) (inheriting []) s ∧
      resolve s.mounts [.plain "b", .plain "x"] = some (m, fp) ∧
      ∃ m₀ ∈ (inheriting []).mounts, m₀.Exposes m.fs fp ∧ m₀.readOnly = false := by
  let bound : Mount := { rootMount with point := [.plain "b"], guest := true }
  have hbind : (inheriting []).step (.bind [] [.plain "b"] false) = some (inheriting [bound]) := by
    decide
  have hremount : (inheriting [bound]).step (.remount [.plain "b"] false) =
      some (inheriting [bound]) := by decide
  have hsafe : Respects (inheriting []) (inheriting [bound]) (.remount [.plain "b"] false) := by
    intro _ m hm
    have hlast : lastAt (inheriting [bound]).mounts [.plain "b"] = some bound := by decide
    cases hm
    exact .inl rfl
  have hreach : State.Reach (Respects (inheriting [])) (inheriting []) (inheriting [bound]) :=
    .tail (.single ⟨.bind [] [.plain "b"] false, trivial, hbind⟩) ⟨_, hsafe, hremount⟩
  have hres : resolve (inheriting [bound]).mounts [.plain "b", .plain "x"] =
      some (bound, [.plain "x"]) := by decide
  exact ⟨_, _, _, hreach, hres, read_only_kept inheriting_inherited hreach hres rfl
    ⟨rootMount, List.mem_cons_self, rfl, List.nil_prefix⟩⟩

/-- A bind mount of a locked read-only mount is not locked, and can be made writable. -/
theorem read_only_lost : ∃ init s, Inherited init ∧ State.Reach (fun _ _ => True) init s ∧
      ∃ p m fp, resolve s.mounts p = some (m, fp) ∧ m.readOnly = false ∧
        (∃ m₀ ∈ init.mounts, m₀.Exposes m.fs fp) ∧
        ∀ m₀ ∈ init.mounts, m₀.Exposes m.fs fp → m₀.readOnly = true := by
  let bound : Mount := { dataMount with
    point := [.plain "b"], guest := true, locked := false, readOnly := false }
  have hrun : Run.exec State.step
      [.bind [.plain "a"] [.plain "b"] false, .remount [.plain "b"] false] (inheriting []) =
      some (inheriting [bound]) := by decide
  refine ⟨_, _, inheriting_inherited, .of_exec_free _ hrun,
    [.plain "b", .plain "x"], bound, [.plain "x"], by decide, rfl,
    ⟨dataMount, by decide, rfl, List.nil_prefix⟩, fun m₀ hm₀ hexp => ?_⟩
  rcases List.mem_cons.mp hm₀ with rfl | hm₀
  · cases hexp.1
  rw [List.mem_singleton.mp hm₀]
  rfl

/-! ### What the inherited filesystems show -/

/-- One of the first `n` filesystems. -/
def Core.old (n : Nat) (c : Core) : Bool := decide (c.fs < n)

def Mount.old (n : Nat) (m : Mount) : Bool := decide (m.fs < n)

/-- The mounts of the first `n` filesystems, all others left out, show only files in `A`. -/
def State.Shows (A : Nat → Path → Prop) (n : Nat) (s : State) : Prop :=
  Sees A (s.cores.filter (Core.old n))

lemma filter_old (n : Nat) (ms : List Mount) :
    (ms.map core).filter (Core.old n) = (ms.filter (old n)).map core :=
  filter_map

lemma Sees.of_mounts (h : Sees A (ms.map Mount.core)) {p : Path}
    (hm : best Mount.point ms p = some m) : A m.fs (m.subdir ++ p.drop m.point.length) := by
  refine h p m.core ?_
  rw [best_map]
  exact congrArg (Option.map Mount.core) hm

lemma filter_copiesAt (n : Nat) (R : List Core) (ts : List Path) :
    (copiesAt R ts).filter (Core.old n) = copiesAt (R.filter (Core.old n)) ts := by
  rw [copiesAt, filter_flatMap]
  refine congrArg (List.flatMap · ts) (funext fun t => ?_)
  exact filter_map

/-- Whether it is read-only does not matter for what a mount shows. -/
def Core.erase (c : Core) : Core := { c with readOnly := false }

lemma Sees.erase_iff : Sees A (cs.map Core.erase) ↔ Sees A cs := by
  have hbest : ∀ p, best Core.point (cs.map Core.erase) p =
      (best Core.point cs p).map Core.erase := fun p => best_map ..
  constructor
  · intro h p c hc
    exact h p c.erase (by rw [hbest, hc]; rfl)
  intro h p c hc
  rw [hbest] at hc
  obtain ⟨d, hd, rfl⟩ := Option.map_eq_some_iff.mp hc
  exact h p d hd

lemma prefix_or_below {q t x : Path} (h : q <+: t ++ x) : q <+: t ∨ (t <+: q ∧ q ≠ t) := by
  rcases prefix_or_prefix_of_prefix h (prefix_append t x) with h | h
  · exact .inl h
  by_cases heq : q = t
  · exact .inl (heq ▸ prefix_rfl)
  · exact .inr ⟨h, heq⟩

lemma strictly_longer {q t : Path} (h : t <+: q) (hne : q ≠ t) : t.length < q.length := by
  rcases lt_or_ge t.length q.length with hlt | hge
  · exact hlt
  · exact absurd (h.eq_of_length_le hge).symm hne

section Bind

variable {n : Nat} {ms : List Mount} {i : Mount} {source : Path} {recursive : Bool}

lemma bind_first (h : Sees A ((ms.filter (Mount.old n)).map Mount.core))
    (hi : bestMount ms source = some i) (hold : i.old n = true) {x : Path}
    (hnone : ∀ m ∈ ms, m.old n = true → source <+: m.point → m.point ≠ source →
      ¬m.point <+: source ++ x) : A i.fs (i.subdir ++ source.drop i.point.length ++ x) := by
  have hbest : best Mount.point (ms.filter (Mount.old n)) (source ++ x) = some i := by
    rw [← best_filter hi hold]
    refine best_congr (fun _ _ => rfl) fun m hm => ⟨fun hpre => ?_, fun hpre =>
      hpre.trans (prefix_append ..)⟩
    have ⟨hm, hmold⟩ := mem_filter.mp hm
    rcases prefix_or_below hpre with hpre' | ⟨hbelow, hne⟩
    · exact hpre'
    · exact absurd hpre (hnone m hm hmold hbelow hne)
  have hlen := (best_spec _ hi).2.1.length_le
  have := h.of_mounts hbest
  rw [drop_append_of_le_length hlen, ← append_assoc] at this
  exact this

lemma bind_rest (h : Sees A ((ms.filter (Mount.old n)).map Mount.core))
    {q : Mount → Bool} (hq : ∀ m ∈ ms, m.old n = true →
      (q m = true ↔ source <+: m.point ∧ m.point ≠ source)) :
    Sees A (((ms.filter (Mount.old n)).filter q).map fun m => m.core.unshift source) := by
  intro x c hc
  have hbelow : ∀ m ∈ (ms.filter (Mount.old n)).filter q, source <+: m.point ∧ m.point ≠ source := by
    intro m hm
    have ⟨hm, hqm⟩ := mem_filter.mp hm
    have ⟨hm, hold⟩ := mem_filter.mp hm
    exact (hq m hm hold).mp hqm
  rw [best_map] at hc
  obtain ⟨m, hm, rfl⟩ := Option.map_eq_some_iff.mp hc
  have hback : ∀ m ∈ (ms.filter (Mount.old n)).filter q,
      m.point = source ++ relativeTo m.point source := fun m hm =>
    (prefix_iff_eq_append.mp (hbelow m hm).1).symm
  have hshift : best Mount.point ((ms.filter (Mount.old n)).filter q) (source ++ x) =
      some m := by
    rw [← hm]
    refine Eq.trans (best_congr hback fun _ _ => Iff.rfl) ?_
    exact best_shift source _ x
  have hmem := (best_spec _ hshift).1
  have hall : best Mount.point (ms.filter (Mount.old n)) (source ++ x) = some m := by
    refine best_of_longer hshift fun y hy hqy hpre => ?_
    have ⟨hy, hold⟩ := mem_filter.mp hy
    have hlt := strictly_longer (hbelow m hmem).1 (hbelow m hmem).2
    rcases prefix_or_below hpre with hpre | hb
    · exact lt_of_le_of_lt hpre.length_le hlt
    rw [(hq y hy hold).mpr hb] at hqy
    cases hqy
  have hdrop : (source ++ x).drop m.point.length =
      x.drop (relativeTo m.point source).length := by
    rw [hback m hmem, length_append, ← drop_drop, drop_left]
    simp [relativeTo]
  have := h.of_mounts hall
  rw [hdrop] at this
  exact this

lemma bind_sees (h : Sees A ((ms.filter (old n)).map core)) (hi : bestMount ms source = some i)
    (hcond : (recursive = false ∧ n ≤ i.fs) ∨ ∀ m ∈ ms, m.fs < n → source <+: m.point →
      m.point ≠ source → recursive = true ∧ m.unbindable = false) :
    Sees A ((bindCores ms i source recursive).filter (Core.old n)) := by
  rcases hcond with ⟨rfl, hnew⟩ | hcond
  · have : (bindCores ms i source false).filter (Core.old n) = [] := by
      simp [bindCores, Core.old, not_lt.mpr hnew]
    rw [this]
    exact Sees.nil
  -- the mounts taken along, of the old ones: all those below the source
  let q : Mount → Bool := fun m =>
    recursive && (m.point ≠ source && below m.point source && !m.unbindable)
  have hq : ∀ m ∈ ms, m.old n = true → (q m = true ↔ source <+: m.point ∧ m.point ≠ source) := by
    intro m hm hold
    have hold : m.fs < n := by simpa [old] using hold
    constructor
    · intro hqm
      simp only [q, below, Bool.and_eq_true, decide_eq_true_eq] at hqm
      exact ⟨hqm.2.1.2, hqm.2.1.1⟩
    rintro ⟨hbelow, hne⟩
    have ⟨hrec, hbind⟩ := hcond m hm hold hbelow hne
    simp [q, below, hrec, hbind, hbelow, hne]
  have hrest := bind_rest h hq
  have hcores : (bindCores ms i source recursive).filter (Core.old n) =
      [(⟨[], i.fs, i.fsPath (relativeTo source i.point), i.readOnly⟩ : Core)].filter (Core.old n) ++
        ((ms.filter (old n)).filter q).map fun m => m.core.unshift source := by
    have hsplit : bindCores ms i source recursive =
        [(⟨[], i.fs, i.fsPath (relativeTo source i.point), i.readOnly⟩ : Core)] ++
          (ms.filter q).map fun m => m.core.unshift source := by
      cases recursive with
      | true => simp [bindCores, q]
      | false => simp [bindCores, q]
    rw [hsplit, filter_append, filter_map, filter_filter, filter_filter]
    refine congrArg (_ ++ List.map _ ·) (filter_congr fun m _ => ?_)
    exact Bool.and_comm ..
  intro x c hc
  have hspec := best_spec _ hc
  rw [hcores] at hc hspec
  rcases best_append hc with hc | hc
  · obtain ⟨hmem, -, -⟩ := best_spec _ hc
    have ⟨hmem, hold⟩ := mem_filter.mp hmem
    cases mem_singleton.mp hmem
    refine bind_first h hi hold fun m hm hmold hbelow hne hpre => ?_
    -- such a mount has a longer point than the mount bound
    have hin : m.core.unshift source ∈ ((ms.filter (old n)).filter q).map
        fun m => m.core.unshift source :=
      mem_map_of_mem (mem_filter.mpr
        ⟨mem_filter.mpr ⟨hm, hmold⟩, (hq m hm hmold).mpr ⟨hbelow, hne⟩⟩)
    obtain ⟨r, hr⟩ := hbelow
    have hrel : relativeTo m.point source = r := by simp [relativeTo, ← hr]
    have hle := hspec.2.2 _ (mem_append_right _ hin) (by
      show relativeTo m.point source <+: x
      rw [hrel]
      rw [← hr] at hpre
      exact (prefix_append_right_inj source).mp hpre)
    have hnil : r = [] := by
      have hle : (relativeTo m.point source).length ≤ 0 := hle
      rw [hrel] at hle
      exact eq_nil_of_length_eq_zero (Nat.le_zero.mp hle)
    exact hne (by rw [← hr, hnil, append_nil])
  · exact hrest x c hc

end Bind

/-- Mounts of inherited filesystems stay, and a bind mount of one takes those below along. -/
def Settled (init : State) (s : State) : Op → Prop
  | .bind source _ recursive => ∀ i, bestMount s.mounts source = some i →
      (recursive = false ∧ init.nextFs ≤ i.fs) ∨
        ∀ m ∈ s.mounts, m.fs < init.nextFs → source <+: m.point → m.point ≠ source →
          recursive = true ∧ m.unbindable = false
  | .move source _ => ∀ m ∈ s.mounts, source <+: m.point → init.nextFs ≤ m.fs
  | .pivotRoot newRoot _ => ∀ e ∈ s.mounts.zipIdx,
      pivotKeeps (lastIdx s.mounts newRoot) newRoot e = true → init.nextFs ≤ e.1.fs
  | .unmount point detach =>
    ((∀ m ∈ s.mounts, m.point = point → init.nextFs ≤ m.fs) ∨
      (∀ parent, s.parentOf point = some parent → parent.peer = 0) ∧
        ∀ m, lastAt s.mounts point = some m → init.nextFs ≤ m.fs) ∧
    (detach = true → ∀ m ∈ s.mounts, point <+: m.point → m.point ≠ point → init.nextFs ≤ m.fs)
  | _ => True

lemma filter_map_fixed {α : Type} {q : α → Bool} {f : α → α} (l : List α)
    (hq : ∀ x ∈ l, q (f x) = q x) (hf : ∀ x ∈ l, q x = true → f x = x) :
    (l.map f).filter q = l.filter q := by
  induction l with
  | nil => rfl
  | cons a l ih =>
    rw [map_cons, filter_cons, filter_cons, hq a mem_cons_self,
      ih (fun x hx => hq x (mem_cons_of_mem _ hx))
        fun x hx => hf x (mem_cons_of_mem _ hx)]
    split
    · rw [hf a mem_cons_self (by assumption)]
    · rfl

lemma unmount_old {detach : Bool}
    (hop : Settled init s (.unmount point detach)) (h : s.unmount point detach = some s') :
    s'.mounts.filter (Mount.old init.nextFs) = s.mounts.filter (Mount.old init.nextFs) ∧
      s'.nextFs = s.nextFs := by
  have ⟨top, htop, hfs, hmounts⟩ := unmount_cases h
  obtain ⟨hplace, hbelow⟩ := hop
  have htopMem : top ∈ s.mounts := mem_reverse.mp (mem_of_find?_eq_some htop)
  have htopAt : top.point = point := by simpa using List.find?_some htop
  have hnewOld : ∀ {m : Mount}, init.nextFs ≤ m.fs → m.old init.nextFs = false := by
    intro m hm
    simp [Mount.old, hm]
  -- nothing old goes with the copies, and the mount that goes itself is new
  obtain ⟨hfilter, hgoneNew⟩ :
      (s.propagateUnmount top).mounts.filter (Mount.old init.nextFs) =
        s.mounts.filter (Mount.old init.nextFs) ∧
      ∀ gone, lastAt (s.propagateUnmount top).mounts point = some gone →
        init.nextFs ≤ gone.fs := by
    obtain ⟨-, hsub, hkeep⟩ := propagateUnmount_spec s top
    rcases hplace with hnew | ⟨hpeer, hnew⟩
    · refine ⟨hkeep _ fun m hm => hnewOld ?_, fun gone hgone => hnew gone (hsub gone ?_) ?_⟩
      · rw [hm]
        exact hnew top htopMem htopAt
      · exact mem_reverse.mp (mem_of_find?_eq_some hgone)
      · simpa using List.find?_some hgone
    have hsame : s.propagateUnmount top = s := by
      unfold State.propagateUnmount
      split
      · rfl
      rename_i parent hparent
      rw [htopAt] at hparent
      rw [if_pos (hpeer parent hparent)]
    rw [hsame]
    exact ⟨rfl, hnew⟩
  have hsub := (propagateUnmount_spec s top).2.1
  refine ⟨?_, hfs⟩
  rcases hmounts with hm | ⟨gone, hgone, hm | ⟨hdetach, hidden, hm⟩⟩
  · rw [hm, hfilter]
  · rw [hm, filter_removeLast fun m hm => hnewOld (hgoneNew m hm), hfilter]
  rw [hm, filter_append, filter_map_fixed,
    filter_removeLast fun m hm => hnewOld (hgoneNew m hm), hfilter]
  · have : ({ gone with point := hidden } : Mount).old init.nextFs = false :=
      hnewOld (m := { gone with point := hidden }) (hgoneNew gone hgone)
    simp [this]
  · intro m _
    rw [Mount.old, Mount.old, (detach_same point hidden gone.pivotSide m).1]
  intro m hm hold
  refine if_neg ?_
  rintro ⟨hne, -, hb⟩
  have := hbelow hdetach m (hsub m (mem_removeLast hm)) (by simpa [below] using hb) hne
  rw [hnewOld this] at hold
  cases hold

/-- What inherited filesystems show, over the operations. -/
structure Covered (A : Nat → Path → Prop) (init s : State) : Prop where
  later : init.nextFs ≤ s.nextFs
  shows : s.Shows A init.nextFs

lemma covered_added (h : Covered A init s)
    (hlater : s.nextFs ≤ s'.nextFs) {ts : List Path} (hcores : s'.cores = s.cores ++ copiesAt R ts)
    (hR : Sees A (R.filter (Core.old init.nextFs))) : Covered A init s' := by
  refine ⟨le_trans h.later hlater, ?_⟩
  unfold State.Shows
  rw [hcores, filter_append, filter_copiesAt]
  exact h.shows.append (hR.copiesAt ts)

lemma covered_same (h : Covered A init s) (hfs : s'.nextFs = s.nextFs)
    (hmounts : s'.mounts.filter (old init.nextFs) =
      s.mounts.filter (old init.nextFs)) : Covered A init s' := by
  refine ⟨by rw [hfs]; exact h.later, ?_⟩
  have := h.shows
  unfold State.Shows State.cores at this ⊢
  rw [filter_old] at this ⊢
  rw [hmounts]
  exact this

section Pivot

variable {keeps : Mount × Nat → Bool} {f : Mount × Nat → Core}
  (hnew : ∀ e ∈ ms.zipIdx, keeps e = true → n ≤ e.1.fs)
include hnew

lemma pivot_kept (hf : ∀ e, (f e).fs = e.1.fs) :
    ((ms.zipIdx.filter keeps).map f).filter (Core.old n) = [] := by
  rw [filter_eq_nil_iff]
  intro c hc hold
  obtain ⟨e, he, rfl⟩ := mem_map.mp hc
  have ⟨he, hk⟩ := mem_filter.mp he
  have := hnew e he hk
  simp only [Core.old, hf, decide_eq_true_eq] at hold
  omega

lemma pivot_rest (g : Core → Core) (hfs : ∀ c, (g c).fs = c.fs) (hf : ∀ e, f e = g e.1.core) :
    ((ms.zipIdx.filter (!keeps ·)).map f).filter (Core.old n) =
      ((ms.filter (old n)).map core).map g := by
  have hold : ms.zipIdx.filter (fun e => Core.old n (f e) && !keeps e) =
      ms.zipIdx.filter fun e => e.1.old n := by
    refine filter_congr fun e he => ?_
    have hsame : Core.old n (f e) = e.1.old n := by
      rw [hf, Core.old, hfs]
      rfl
    rw [hsame]
    cases hk : keeps e with
    | false => exact Bool.and_true _
    | true =>
      have := hnew e he hk
      simp only [old, Bool.not_true, Bool.and_false]
      exact (decide_eq_false (by omega)).symm
  rw [filter_map, filter_filter, map_map]
  refine (congrArg (List.map _) hold).trans ?_
  conv_rhs => rw [← zipIdx_map_fst 0 ms, filter_map, map_map]
  exact map_congr_left fun e _ => hf e

end Pivot

lemma covered_step {op : Op} (h : Covered A init s)
    (hop : Settled init s op) (hstep : s.step op = some s') : Covered A init s' := by
  have hold : Sees A ((s.mounts.filter (old init.nextFs)).map core) := by
    rw [← filter_old]
    exact h.shows
  cases op with
  | mount point =>
    cases hstep
    have ⟨hfs, ts, hcores⟩ := mount_cores s point
    refine covered_added h (by rw [hfs]; exact Nat.le_succ _) hcores ?_
    rw [filter_cons_of_neg (by simp [Core.old, h.later])]
    exact Sees.nil
  | bind source target recursive =>
    have ⟨i, hi, hfs, ts, hcores⟩ := bind_cores hstep
    exact covered_added h (le_of_eq hfs.symm) hcores (bind_sees hold hi (hop i hi))
  | remount point readOnly =>
    have hstep : s.setReadOnly point readOnly = some s' := hstep
    unfold State.setReadOnly at hstep
    split at hstep
    · cases hstep
    split at hstep
    · cases hstep
    cases hstep
    refine ⟨h.later, Sees.erase_iff.mp ?_⟩
    have hshows := Sees.erase_iff.mpr h.shows
    have hcomm : ∀ cs : List Core, (cs.filter (Core.old init.nextFs)).map Core.erase =
        (cs.map Core.erase).filter (Core.old init.nextFs) := by
      intro cs
      rw [filter_map]
      rfl
    rw [hcomm] at hshows ⊢
    unfold State.cores at hshows ⊢
    rw [map_map] at hshows ⊢
    have := changeLast_cores (f := Core.erase) (g := fun m => { m with readOnly })
      (fun _ => rfl) point s.mounts
    exact this ▸ hshows
  | move source target =>
    have hstep : s.moveMount source target = some s' := hstep
    unfold State.moveMount at hstep
    split at hstep
    · cases hstep
      refine covered_same h rfl (filter_map_fixed _ (fun m _ => ?_) fun m hm hmold => ?_)
      · rw [old, old, (moved_same source target m).1]
      refine if_neg fun hb => ?_
      have := hop m hm (by simpa [below] using hb)
      simp only [old, decide_eq_true_eq] at hmold
      omega
    · cases hstep
  | pivotRoot newRoot putOld =>
    have hstep : s.pivotRoot newRoot putOld = some s' := hstep
    unfold State.pivotRoot at hstep
    split at hstep
    · cases hstep
    cases hstep
    refine ⟨h.later, ?_⟩
    unfold State.Shows State.cores
    rw [map_append, filter_append, map_map, map_map]
    refine Sees.append ?_ ?_
    · rw [pivot_kept hop fun _ => rfl]
      exact Sees.nil
    rw [pivot_rest hop (Core.shift (relativeTo putOld newRoot)) (fun _ => rfl)]
    · exact hold.shift _
    · exact fun _ => rfl
  | setPropagation point kind recursive =>
    have ⟨hcores, hfs⟩ := setPropagation_cores hstep
    refine ⟨by rw [hfs]; exact h.later, ?_⟩
    unfold State.Shows
    rw [hcores]
    exact h.shows
  | unmount point detach =>
    have ⟨hmounts, hfs⟩ := unmount_old hop hstep
    exact covered_same h hfs hmounts

def State.Shown (s : State) (fs : Nat) (fp : Path) : Prop :=
  ∃ p m, resolve s.mounts p = some (m, fp) ∧ m.fs = fs

/-- A file of a mounted filesystem that no path leads to, since a mount covers it. -/
def State.Hides (s : State) (fs : Nat) (fp : Path) : Prop :=
  (∃ m ∈ s.mounts, m.Exposes fs fp) ∧ ¬s.Shown fs fp

/-- **Inherited mounts keep covering what is beneath them.** -/
theorem hidden_stays_hidden {init s : State} (hinit : Inherited init)
    (h : State.Reach (Settled init) init s) {p fp : Path} {m : Mount}
    (hp : resolve s.mounts p = some (m, fp)) : ¬init.Hides m.fs fp := by
  rintro ⟨⟨m₁, hm₁, hf₁, -⟩, hnone⟩
  have hstart : Covered init.Shown init init := by
    refine ⟨le_rfl, ?_⟩
    unfold State.Shows State.cores
    rw [filter_old, List.filter_eq_self.mpr fun m hm => by
      simpa [Mount.old] using hinit.fresh m hm]
    intro p c hc
    rw [Longest.best_map] at hc
    obtain ⟨m, hm, rfl⟩ := Option.map_eq_some_iff.mp hc
    exact ⟨p, m, congrArg (Option.map _) hm, rfl⟩
  have hcov := h.invariant hstart fun _ _ _ hs hop hstep => covered_step hs hop hstep
  obtain ⟨m', hbest, heq⟩ := Option.map_eq_some_iff.mp hp
  cases heq
  have hold : m.old init.nextFs = true := by
    simpa [Mount.old, ← hf₁] using hinit.fresh m₁ hm₁
  have hshows : Sees init.Shown ((s.mounts.filter (Mount.old init.nextFs)).map Mount.core) := by
    rw [← filter_old]
    exact hcov.shows
  exact hnone (hshows.of_mounts (Longest.best_filter hbest hold))

theorem hidden_stays_hidden_bound :
    ∃ s m fp, State.Reach (Settled (inheriting [])) (inheriting []) s ∧
      resolve s.mounts [.plain "b", .plain "a", .plain "x"] = some (m, fp) ∧
      ¬(inheriting []).Hides m.fs fp := by
  let root : Mount := { rootMount with point := [.plain "b"], guest := true }
  let data : Mount :=
    { dataMount with point := [.plain "b", .plain "a"], guest := true, locked := false }
  have hbind : (inheriting []).step (.bind [] [.plain "b"] true) =
      some (inheriting [root, data]) := by decide
  have hreach : State.Reach (Settled (inheriting [])) (inheriting []) (inheriting [root, data]) :=
    .single ⟨.bind [] [.plain "b"] true, fun _ _ => .inr (by decide), hbind⟩
  have hres : resolve (inheriting [root, data]).mounts [.plain "b", .plain "a", .plain "x"] =
      some (data, [.plain "x"]) := by decide
  exact ⟨_, _, _, hreach, hres, hidden_stays_hidden inheriting_inherited hreach hres⟩

/-- A bind mount of the root alone shows what an inherited mount on it covers. -/
theorem hidden_comes_to_light : ∃ init s, Inherited init ∧ State.Reach (fun _ _ => True) init s ∧
      ∃ p m fp, resolve s.mounts p = some (m, fp) ∧ init.Hides m.fs fp := by
  let root : Mount := { rootMount with point := [.plain "b"], guest := true }
  have hrun : Run.exec State.step [.bind [] [.plain "b"] false] (inheriting []) =
      some (inheriting [root]) := by decide
  refine ⟨_, _, inheriting_inherited, .of_exec_free _ hrun,
    [.plain "b", .plain "a", .plain "x"], root, [.plain "a", .plain "x"], by decide,
    ⟨rootMount, List.mem_cons_self, rfl, List.nil_prefix⟩, ?_⟩
  rintro ⟨p, m, hp, hfs⟩
  obtain ⟨m', hbest, heq⟩ := Option.map_eq_some_iff.mp hp
  obtain ⟨hmem, -, hmax⟩ := Longest.best_spec _ hbest
  rcases List.mem_cons.mp hmem with rfl | hmem
  · -- the path of the file itself, where the mount at `/a` is longer
    have hpath : p = [.plain "a", .plain "x"] := congrArg Prod.snd heq
    subst hpath
    have := hmax dataMount (by decide) (by decide)
    exact absurd this (by decide)
  · have hm : m' = m := congrArg Prod.fst heq
    rw [← hm, List.mem_singleton.mp hmem] at hfs
    cases hfs

end NixVm.Mounts
