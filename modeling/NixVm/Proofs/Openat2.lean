/-
Where the walk of `openat2` goes (`Kernel/Openat2`).

One turn moves up, enters a name or starts on the target of a link (`Turned`). What holds of the
directory after each of them holds of every directory of the walk (`visits`). The mount is compared
after a name and after a link, but not after a step up nor where the walk starts, and these are all
the ways to leave it.
-/
import NixVm.Kernel.Openat2
import NixVm.Lib.Longest

namespace NixVm.Openat2

open Chroot

section Visits

variable (w : RestrictedWalk) (look : Look) (mountOf : Path → Option Path) (root base : Path)

/-- The places a walk comes through, whether it ends well or not. -/
inductive Visits (s₀ : Place) : Place → Prop
  | refl : Visits s₀ s₀
  | turn {cur : Path} {c : Comp} {todo : List Comp} {hops : Nat} {s : Place} :
      Visits s₀ ⟨cur, c :: todo, hops⟩ → turn w look mountOf root base c ⟨cur, todo, hops⟩ = .ok s →
      Visits s₀ s

variable {w look mountOf root base}

lemma walk_cons {cur : Path} {c : Comp} {todo : List Comp} {hops : Nat} {s : Place}
    (h : turn w look mountOf root base c ⟨cur, todo, hops⟩ = .ok s) :
    walk w look mountOf root base ⟨cur, c :: todo, hops⟩ = walk w look mountOf root base s := by
  rw [walk]
  split
  next herr => cases h.symm.trans herr
  rename_i hok
  cases h.symm.trans hok
  rfl

lemma walk_visits {s0 s : Place} {p : Path} (hs : Visits w look mountOf root base s0 s)
    (h : walk w look mountOf root base s = .ok p) :
    ∃ s, Visits w look mountOf root base s0 s ∧ s.cur = p := by
  fun_induction walk w look mountOf root base s with
  | case1 cur hops =>
    cases h
    exact ⟨_, hs, rfl⟩
  | case2 => cases h
  | case3 cur c todo hops s' hturn ih => exact ih (hs.turn hturn) h

/-- What every kind of turn keeps holds wherever the walk comes. -/
lemma visits {P : Path → Prop}
    (hup : ∀ cur cur', P cur → goUp w base cur = .ok cur' → P cur')
    (hname : ∀ cur n, P cur → (w.noXdev = true → mountOf (cur ++ [n]) = mountOf base) →
      P (cur ++ [n]))
    (habs : w.beneath = false → (w.noXdev = true → mountOf (restart w root base) = mountOf base) →
      P (restart w root base))
    {s0 s : Place} (h0 : P s0.cur) (hs : Visits w look mountOf root base s0 s) : P s.cur := by
  induction hs with
  | refl => exact h0
  | turn _ hturn hP =>
    cases turn_turned w look mountOf root base hturn with
    | here => exact hP
    | up hgo => exact hup _ _ hP hgo
    | enter hc =>
      obtain ⟨rfl, hmount⟩ := check_ok w mountOf base hc
      exact hname _ _ hP hmount
    | @link n t _ hlook _ hbeneath hc =>
      obtain ⟨rfl, hmount⟩ := check_ok w mountOf base hc
      cases hab : t.absolute with
      | false => simpa [hab] using hP
      | true =>
        rw [hab] at hmount hbeneath
        exact habs (by simpa using hbeneath) hmount

end Visits

section Confined

variable {w : RestrictedWalk} {look : Look} {mountOf : Path → Option Path} {root base : Path}

lemma goUp_below {cur cur' : Path} (hw : w.beneath = true ∨ w.inRoot = true) (hP : base <+: cur)
    (h : goUp w base cur = .ok cur') : base <+: cur' := by
  have hfloor : (w.beneath || w.inRoot) = true := by simpa using hw
  simp only [goUp, hfloor, if_true] at h
  split at h
  next hlt =>
    cases h
    rw [List.dropLast_eq_take]
    exact List.prefix_take_iff.mpr ⟨hP, by omega⟩
  split at h
  · cases h
  rename_i hbeneath
  rw [if_pos (hw.resolve_left hbeneath)] at h
  cases h
  exact hP

def RestrictedWalk.free (w : RestrictedWalk) : RestrictedWalk :=
  { w with beneath := false, inRoot := false }

section

variable (hw : w.beneath = true)
include hw

lemma goUp_free {cur cur' : Path} (h : goUp w base cur = .ok cur') :
    goUp w.free base cur = .ok cur' := by
  simp only [goUp, hw, Bool.true_or, if_true] at h
  split at h
  next hlt => simpa [goUp, RestrictedWalk.free] using h
  · cases h

lemma followLink_free {cand : Path} {target : Option Given} {s s' : Place}
    (h : followLink w mountOf root base cand target s = .ok s') :
    followLink w.free mountOf root base cand target s = .ok s' := by
  unfold followLink at h ⊢
  split at h
  · cases h
  rename_i hlinks
  refine (if_neg hlinks).trans ?_
  split at h
  · cases h
  rename_i hhops
  refine (if_neg hhops).trans ?_
  cases target with
  | none => cases h
  | some t =>
    dsimp only at h ⊢
    rw [hw, Bool.and_true] at h
    cases hab : t.absolute with
    | true => rw [hab] at h; cases h
    | false => rw [hab] at h; exact h

lemma turn_free {c : Comp} {s s' : Place}
    (h : turn w look mountOf root base c s = .ok s') :
    turn w.free look mountOf root base c s = .ok s' := by
  cases c with
  | here => exact h
  | up =>
    unfold turn at h ⊢
    cases hup : goUp w base s.cur with
    | error e => rw [hup] at h; cases h
    | ok cur =>
      rw [hup] at h
      rw [goUp_free hw hup]
      exact h
  | name n =>
    unfold turn at h ⊢
    dsimp only at h ⊢
    split at h
    · by_cases hfollow : s.todo ≠ [] ∨ w.followFinal = true
      · exact (if_pos hfollow).trans (followLink_free hw ((if_pos hfollow).symm.trans h))
      · exact (if_neg hfollow).trans ((if_neg hfollow).symm.trans h)
    · exact h

lemma walk_free {s : Place} {p : Path}
    (h : walk w look mountOf root base s = .ok p) :
    walk w.free look mountOf root base s = .ok p := by
  fun_induction walk w look mountOf root base s with
  | case1 => rw [walk]; exact h
  | case2 => cases h
  | case3 cur c todo hops s' hturn ih =>
    rw [walk_cons (turn_free hw hturn)]
    exact ih h

end

/-- **A confined walk stays below its base**: every place it comes through, and so the path it
returns, is the base or below it. Beneath the base nothing was changed for that. -/
theorem openat2_confined (w : RestrictedWalk) (look : Look) (mountOf : Path → Option Path)
    (root base : Path) (rel : Given) (hw : w.beneath = true ∨ w.inRoot = true) :
    ∀ p, resolve w look mountOf root base rel = .ok p → base <+: p ∧
      (∀ s, Visits w look mountOf root base (start w root base rel) s → base <+: s.cur) ∧
      (w.beneath = true → resolve w.free look mountOf root base rel = .ok p) := by
  intro p h
  unfold resolve at h
  split at h
  · cases h
  rename_i hrel
  have hrestart : w.beneath = false → base <+: restart w root base := by
    intro hb
    rw [restart, if_pos (hw.resolve_left (by simp [hb]))]
  have hstart : base <+: (start w root base rel).cur := by
    unfold start
    split
    · rename_i hab
      exact hrestart (by simpa [hab] using hrel)
    · exact List.prefix_rfl
  have hall : ∀ s, Visits w look mountOf root base (start w root base rel) s → base <+: s.cur :=
    fun s hs => visits (fun _ _ hP hgo => goUp_below hw hP hgo)
      (fun _ _ hP _ => hP.trans (List.prefix_append ..)) (fun hb _ => hrestart hb) hstart hs
  obtain ⟨s, hs, rfl⟩ := walk_visits .refl h
  refine ⟨hall s hs, hall, fun hb => ?_⟩
  have hab : rel.absolute = false := by simpa [hb] using hrel
  rw [resolve, if_neg (by simp [hab])]
  simpa [start, hab] using walk_free hb h

end Confined

def linked : Look := fun p =>
  if p = ["b".toList, "l".toList] then some (.symlink (some ⟨false, [.name "c".toList]⟩))
  else some .dir

lemma linked_resolves :
    resolve ⟨true, false, false, false, false, true⟩ linked (fun _ => none) [] ["b".toList]
      ⟨false, [.name "l".toList, .up, .name "x".toList]⟩ = .ok ["b".toList, "x".toList] := by
  simp [resolve, start, walk, turn, linked, followLink, check, goUp, maxHops, Except.map]

theorem openat2_confined_link : ["b".toList] <+: ["b".toList, "x".toList] ∧
    (∀ s, Visits ⟨true, false, false, false, false, true⟩ linked (fun _ => none) [] ["b".toList]
      ⟨["b".toList], [.name "l".toList, .up, .name "x".toList], 0⟩ s → ["b".toList] <+: s.cur) ∧
    resolve ⟨false, false, false, false, false, true⟩ linked (fun _ => none) [] ["b".toList]
      ⟨false, [.name "l".toList, .up, .name "x".toList]⟩ = .ok ["b".toList, "x".toList] := by
  obtain ⟨hbelow, hall, hfree⟩ := openat2_confined _ _ _ _ _ _ (by decide) _ linked_resolves
  exact ⟨hbelow, hall, hfree rfl⟩

/-! ### One mount -/

section SameMount

variable {w : RestrictedWalk} {look : Look} {mountOf : Path → Option Path} {root base : Path}

/-- The walk without `RESOLVE_NO_XDEV`, where every mount may be entered. -/
def RestrictedWalk.anyMount (w : RestrictedWalk) : RestrictedWalk := { w with noXdev := false }

lemma check_anyMount {s s' : Place} (h : check w mountOf base s = .ok s') :
    check w.anyMount mountOf base s = .ok s' := by
  rw [(check_ok w mountOf base h).1]
  rfl

lemma turn_anyMount {c : Comp} {s s' : Place} (h : turn w look mountOf root base c s = .ok s') :
    turn w.anyMount look mountOf root base c s = .ok s' := by
  unfold turn at h ⊢
  split at h
  · exact h
  · exact h
  dsimp only at h ⊢
  split at h
  · split at h
    next hfollow =>
      refine (if_pos hfollow).trans ?_
      unfold followLink at h ⊢
      split at h
      · cases h
      rename_i hlinks
      refine (if_neg hlinks).trans ?_
      split at h
      · cases h
      rename_i hhops
      refine (if_neg hhops).trans ?_
      split at h
      · cases h
      split at h
      · cases h
      rename_i hbeneath
      exact (if_neg hbeneath).trans (check_anyMount h)
    next hfollow =>
      refine (if_neg hfollow).trans ?_
      split at h
      · cases h
      rename_i hlinks
      exact (if_neg hlinks).trans (check_anyMount h)
  · exact check_anyMount h

lemma Visits.anyMount {s0 s : Place} (h : Visits w look mountOf root base s0 s) :
    Visits w.anyMount look mountOf root base s0 s := by
  induction h with
  | refl => exact .refl
  | turn _ hturn ih => exact ih.turn (turn_anyMount hturn)

/-- A walk that returns comes wherever the one without the flag does. -/
lemma Visits.of_anyMount {s0 s : Place} {p : Path}
    (hwalk : walk w look mountOf root base s0 = .ok p)
    (h : Visits w.anyMount look mountOf root base s0 s) :
    Visits w look mountOf root base s0 s ∧ walk w look mountOf root base s = .ok p := by
  induction h with
  | refl => exact ⟨.refl, hwalk⟩
  | @turn cur c todo hops s' _ hturn ih =>
    obtain ⟨hvisits, hrest⟩ := ih
    cases hown : Openat2.turn w look mountOf root base c ⟨cur, todo, hops⟩ with
    | error e =>
      rw [walk] at hrest
      split at hrest
      · cases hrest
      next hok => cases hown.symm.trans hok
    | ok s'' =>
      cases (turn_anyMount hown).symm.trans hturn
      exact ⟨hvisits.turn hown, by rw [← walk_cons hown]; exact hrest⟩

/-- The walk starts in the mount of its base, and no `..` that it meets leads out of it. -/
structure KeepsMount (w : RestrictedWalk) (look : Look) (mountOf : Path → Option Path)
    (root base : Path) (rel : Given) : Prop where
  begins : rel.absolute = true → mountOf (restart w root base) = mountOf base
  up : ∀ cur todo hops cur',
    Visits w.anyMount look mountOf root base (start w root base rel) ⟨cur, .up :: todo, hops⟩ →
    goUp w base cur = .ok cur' → mountOf cur' = mountOf base

/-- What is not looked at is where the walk starts and where a `..` leads. -/
lemma visits_same_mount {rel : Given} (hw : w.noXdev = true)
    (hkeeps : KeepsMount w look mountOf root base rel) {s : Place}
    (hs : Visits w look mountOf root base (start w root base rel) s) :
    mountOf s.cur = mountOf base := by
  induction hs with
  | refl =>
    unfold start
    split
    · exact hkeeps.begins ‹_›
    · rfl
  | turn hvisits hturn ih =>
    cases turn_turned w look mountOf root base hturn with
    | here => exact ih
    | up hgo => exact hkeeps.up _ _ _ _ hvisits.anyMount hgo
    | enter hc =>
      obtain ⟨rfl, hmount⟩ := check_ok w mountOf base hc
      exact hmount hw
    | link _ _ _ hc =>
      obtain ⟨rfl, hmount⟩ := check_ok w mountOf base hc
      exact hmount hw

/-- **A walk under `RESOLVE_NO_XDEV` that returns has stayed in the mount of its base** exactly if
it starts there and no `..` on its way leads out. -/
theorem resolve_same_mount (w : RestrictedWalk) (look : Look) (mountOf : Path → Option Path)
    (root base : Path) (rel : Given) (hw : w.noXdev = true) (p : Path)
    (h : resolve w look mountOf root base rel = .ok p) :
    (mountOf p = mountOf base ∧
      ∀ s, Visits w look mountOf root base (start w root base rel) s →
        mountOf s.cur = mountOf base) ↔
      KeepsMount w look mountOf root base rel := by
  have hwalk : walk w look mountOf root base (start w root base rel) = .ok p := by
    unfold resolve at h
    split at h
    · cases h
    · exact h
  constructor
  · rintro ⟨-, hall⟩
    constructor
    · intro habs
      have hstart := hall _ .refl
      rwa [start, if_pos habs] at hstart
    · intro cur todo hops cur' hvisits hgo
      have hturn : turn w look mountOf root base .up ⟨cur, todo, hops⟩ = .ok ⟨cur', todo, hops⟩ := by
        unfold turn
        rw [hgo]
        rfl
      exact hall _ ((hvisits.of_anyMount hwalk).1.turn hturn)
  · intro hkeeps
    obtain ⟨s, hs, rfl⟩ := walk_visits .refl hwalk
    exact ⟨visits_same_mount hw hkeeps hs, fun s' hs' => visits_same_mount hw hkeeps hs'⟩

end SameMount

def twoMounts : Path → Option Path := Longest.best id [[], ["mnt".toList]]

def noXdev : RestrictedWalk := ⟨false, false, false, false, true, true⟩

def intoAndBack : Given := ⟨false, [.name "x".toList, .up]⟩

lemma intoAndBack_resolves :
    resolve noXdev (fun _ => some .dir) twoMounts [] ["mnt".toList] intoAndBack =
      .ok ["mnt".toList] := by
  rw [resolve, if_neg (by decide), start, intoAndBack, walk_cons rfl, walk_cons rfl, walk]
  rfl

/-- The walk goes up once, from `/mnt/x`. -/
lemma intoAndBack_keeps :
    KeepsMount noXdev (fun _ => some .dir) twoMounts [] ["mnt".toList] intoAndBack := by
  have hplaces : ∀ s, Visits noXdev.anyMount (fun _ => some .dir) twoMounts [] ["mnt".toList]
      (start noXdev [] ["mnt".toList] intoAndBack) s →
      s = ⟨["mnt".toList], [.name "x".toList, .up], 0⟩ ∨
      s = ⟨["mnt".toList, "x".toList], [.up], 0⟩ ∨ s = ⟨["mnt".toList], [], 0⟩ := by
    intro s hs
    induction hs with
    | refl => exact .inl rfl
    | turn _ hturn ih =>
      rcases ih with h | h | h <;> cases h <;> cases hturn
      · exact .inr (.inl rfl)
      · exact .inr (.inr rfl)
  constructor
  · intro h
    cases h
  · intro cur todo hops cur' hvisits hgo
    rcases hplaces _ hvisits with h | h | h <;> cases h
    cases hgo
    rfl

theorem resolve_same_mount_back :
    resolve noXdev (fun _ => some .dir) twoMounts [] ["mnt".toList] intoAndBack =
        .ok ["mnt".toList] ∧
      ∀ s, Visits noXdev (fun _ => some .dir) twoMounts [] ["mnt".toList]
        (start noXdev [] ["mnt".toList] intoAndBack) s → twoMounts s.cur = some ["mnt".toList] :=
  ⟨intoAndBack_resolves,
    ((resolve_same_mount _ _ _ _ _ _ rfl _ intoAndBack_resolves).mpr intoAndBack_keeps).2⟩

/-- From `/mnt`, `..` leads to `/`, which is another mount. -/
theorem resolve_up_leaves_mount :
    resolve noXdev (fun _ => some .dir) twoMounts [] ["mnt".toList] ⟨false, [.up]⟩ = .ok [] ∧
      twoMounts [] ≠ twoMounts ["mnt".toList] :=
  ⟨by simp [resolve, start, walk, turn, goUp, noXdev, Except.map], by decide⟩

end NixVm.Openat2
