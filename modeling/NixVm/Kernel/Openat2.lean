/-
The walk of `openat2` (`RestrictedWalk::resolve` in `src/kernel/splice.rs`).

`look` is what `stat` and `readlink` say of a path and `mountOf` its mount point, for any mounts
and any content. `root` is the root directory of the task.
-/
import NixVm.Fs.Canonical
import NixVm.Kernel.Errno

namespace NixVm.Openat2

open Chroot

variable {s s' : Place}

structure RestrictedWalk where
  beneath : Bool
  inRoot : Bool
  noSymlinks : Bool
  noMagiclinks : Bool
  noXdev : Bool
  followFinal : Bool

/-- Where the walk is, the components still to walk, and the links followed. -/
structure Place where
  cur : Path
  todo : List Comp
  hops : Nat

def maxHops : Nat := 40

def isProc (p : Path) : Bool := decide (1 < p.length) && p.head? = some "proc".toList

section Walk

variable (w : RestrictedWalk) (look : Look) (mountOf : Path → Option Path) (root base : Path)

def restart : Path := if w.inRoot then base else root

def goUp (cur : Path) : Except Errno Path :=
  let floor := if w.beneath || w.inRoot then base.length else 0
  if floor < cur.length then .ok cur.dropLast
  else if w.beneath then .error .exdev
  else if w.inRoot then .ok cur
  else .ok cur.dropLast

def check (s : Place) : Except Errno Place :=
  if w.noXdev && mountOf s.cur ≠ mountOf base then .error .exdev else .ok s

def followLink (cand : Path) (target : Option Given) (s : Place) : Except Errno Place :=
  if w.noSymlinks || w.noMagiclinks && isProc cand then .error .eloop
  else if maxHops < s.hops + 1 then .error .eloop
  else
    match target with
    | none => .error .eio
    | some t =>
      if t.absolute && w.beneath then .error .exdev
      else check w mountOf base ⟨if t.absolute then restart w root base else s.cur,
        t.comps ++ s.todo, s.hops + 1⟩

def turn (c : Comp) (s : Place) : Except Errno Place :=
  match c with
  | .here => .ok s
  | .up => (goUp w base s.cur).map ({ s with cur := · })
  | .name n =>
    let cand := s.cur ++ [n]
    match look cand with
    | some (.symlink target) =>
      if s.todo ≠ [] ∨ w.followFinal then followLink w mountOf root base cand target s
      else if w.noSymlinks then .error .eloop
      else check w mountOf base { s with cur := cand }
    | _ => check w mountOf base { s with cur := cand }

inductive Turned (s : Place) : Comp → Place → Prop
  | here : Turned s .here s
  | up {cur : Path} : goUp w base s.cur = .ok cur → Turned s .up { s with cur }
  | enter {n : Name} {s' : Place} : check w mountOf base { s with cur := s.cur ++ [n] } = .ok s' →
      Turned s (.name n) s'
  | link {n : Name} {t : Given} {s' : Place} : look (s.cur ++ [n]) = some (.symlink (some t)) →
      s.hops < maxHops → (t.absolute && w.beneath) = false →
      check w mountOf base ⟨if t.absolute then restart w root base else s.cur,
        t.comps ++ s.todo, s.hops + 1⟩ = .ok s' → Turned s (.name n) s'

lemma followLink_turned {n : Name} {target : Option Given}
    (hlook : look (s.cur ++ [n]) = some (.symlink target))
    (h : followLink w mountOf root base (s.cur ++ [n]) target s = .ok s') :
    Turned w look mountOf root base s (.name n) s' := by
  unfold followLink at h
  split at h
  · cases h
  split at h
  · cases h
  cases target with
  | none => cases h
  | some t =>
    dsimp only at h
    split at h
    · cases h
    rename_i hbeneath
    exact .link hlook (by omega) (by simpa using hbeneath) h

lemma turn_turned {c : Comp} (h : turn w look mountOf root base c s = .ok s') :
    Turned w look mountOf root base s c s' := by
  unfold turn at h
  split at h
  · cases h
    exact .here
  · cases hup : goUp w base s.cur with
    | error e => rw [hup] at h; cases h
    | ok cur => rw [hup] at h; cases h; exact .up hup
  dsimp only at h
  split at h
  next hlook =>
    split at h
    · exact followLink_turned w look mountOf root base hlook h
    split at h
    · cases h
    · exact .enter h
  · exact .enter h

lemma check_ok (h : check w mountOf base s = .ok s') :
    s' = s ∧ (w.noXdev = true → mountOf s.cur = mountOf base) := by
  unfold check at h
  split at h
  · cases h
  rename_i hc
  cases h
  exact ⟨rfl, fun hx => by simpa [hx] using hc⟩

/-- A link adds to what is left, but only so many are followed. -/
lemma turn_lt {c : Comp} (h : turn w look mountOf root base c s = .ok s') :
    maxHops - s'.hops < maxHops - s.hops ∨ s'.hops = s.hops ∧ s'.todo = s.todo := by
  cases turn_turned w look mountOf root base h with
  | here | up => exact .inr ⟨rfl, rfl⟩
  | enter hc => rw [(check_ok w mountOf base hc).1]; exact .inr ⟨rfl, rfl⟩
  | link _ hhops _ hc =>
    rw [(check_ok w mountOf base hc).1]
    exact .inl (by dsimp only; omega)

def walk (s : Place) : Except Errno Path :=
  match s with
  | ⟨cur, [], _⟩ => .ok cur
  | ⟨cur, c :: todo, hops⟩ =>
    match _h : turn w look mountOf root base c ⟨cur, todo, hops⟩ with
    | .error e => .error e
    | .ok s' => walk s'
termination_by (maxHops - s.hops, s.todo.length)
decreasing_by
  rcases turn_lt w look mountOf root base _h with hlt | ⟨hhops, htodo⟩
  · exact Prod.Lex.left _ _ hlt
  rw [hhops, htodo]
  exact Prod.Lex.right _ (Nat.lt_succ_self _)

def start (rel : Given) : Place :=
  ⟨if rel.absolute then restart w root base else base, rel.comps, 0⟩

def resolve (rel : Given) : Except Errno Path :=
  if rel.absolute && w.beneath then .error .exdev
  else walk w look mountOf root base (start w root base rel)

end Walk

end NixVm.Openat2
