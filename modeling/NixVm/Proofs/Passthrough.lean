/-
A resolution below a host directory stays below it, and ends.

Everything the loop hands to the host is one component, because the queue never holds anything
else: `..` is taken out before a name is looked at, and the pieces between slashes hold no slash.
The loop ends because every turn counts one more component.
-/
import NixVm.Fs.Passthrough

namespace NixVm.Passthrough

open Text List

inductive Node (Fd : Type)
  | dir (fd : Fd)
  | symlink (target : Str)
  | other (fd : Fd)

/-- A host directory tree, named by the descriptors that open it; `.` and `..` may lead out. -/
structure Host (Fd : Type) where
  root : Fd
  entry : Fd → Str → Option (Node Fd)

/-- One component of a path, naming an entry of the directory it is looked up in. -/
structure Component (name : Str) : Prop where
  ne_nil : name ≠ []
  ne_dot : name ≠ dot
  ne_dotdot : name ≠ dotdot
  no_slash : '/' ∉ name

/-- Reached from the root by descending real directories only. -/
inductive Host.Inside {Fd : Type} (host : Host Fd) : Fd → Prop
  | root : Inside host host.root
  | descend {d e : Fd} {name : Str} (hd : Inside host d) (hname : Component name)
    (he : host.entry d name = some (.dir e)) : Inside host e

/-- Opening a component without following opens that entry, and fails with `ELOOP` on a symlink. -/
structure Calls.On {Fd : Type} (calls : Calls Fd) (host : Host Fd) : Prop where
  rootFd : ∀ fd, calls.rootFd = .ok fd → fd = host.root
  openat : ∀ d name fd, Component name → calls.openat d name true = .ok fd →
    host.entry d name = some (.dir fd)
  symlink : ∀ d name target directory, Component name →
    host.entry d name = some (.symlink target) → calls.openat d name directory = .error eloop

/-- The calls of a host whose directories can all be opened and read. -/
def Host.calls {Fd : Type} (host : Host Fd) : Calls Fd where
  rootFd := .ok host.root
  openat := fun d name directory =>
    match host.entry d name with
    | none => .error enoent
    | some (.dir fd) => .ok fd
    | some (.symlink _) => .error eloop
    | some (.other fd) => if directory then .error 20 else .ok fd
  readlinkat := fun d name =>
    match host.entry d name with
    | none => .error enoent
    | some (.symlink target) => .ok (some target)
    | some _ => .ok none

lemma Host.calls_on {Fd : Type} (host : Host Fd) : host.calls.On host where
  rootFd := fun fd h => (Except.ok.inj h).symm
  openat := by
    intro d name fd _ h
    unfold Host.calls at h
    dsimp only at h
    split at h
    · cases h
    next e he =>
      cases h
      exact he
    · cases h
    · cases h
  symlink := by
    intro d name target directory _ h
    simp only [Host.calls, h]

variable {Fd : Type} {calls : Calls Fd} {host : Host Fd}

/-- What the queue holds: components, and the `..` of symlink targets. -/
def Piece (c : Str) : Prop := c = dotdot ∨ Component c

lemma piece_of_splitTarget {target c : Str} (hc : c ∈ (splitTarget target).2) : Piece c := by
  have ⟨hmem, hne⟩ := mem_filter.mp hc
  have ⟨h0, h1⟩ := of_decide_eq_true hne
  by_cases h2 : c = dotdot
  · exact .inl h2
  · exact .inr ⟨h0, h1, h2, not_mem_of_mem_split hmem⟩

lemma piece_of_splitRel {rel : Str} {queue : List Str} (h : splitRel rel = .ok queue) :
    ∀ c ∈ queue, Piece c := by
  unfold splitRel at h
  split at h
  · cases h
  cases h
  -- the components are cut as those of a target are
  exact fun _ => piece_of_splitTarget

structure Walk.Confined (host : Host Fd) (w : Walk Fd) : Prop where
  pieces : ∀ c ∈ w.queue, Piece c
  nonempty : w.stack ≠ []
  inside : ∀ fd ∈ w.stack, host.Inside fd

/-- What the end of a turn may look like. -/
def Turn.Confined (host : Host Fd) (seen : Nat) : Turn Fd → Prop
  | .next w => w.Confined host ∧ w.seen = seen
  | .done (.ok r) => host.Inside r.1 ∧ Component r.2
  | .done (.error _) => True
  | .panic => False

lemma found_confined {w : Walk Fd} (hw : w.Confined host) {name : Str}
    (hname : Component name) : (w.found name).Confined host w.seen := by
  unfold Walk.found
  rw [List.getLast?_eq_some_getLast hw.nonempty]
  exact ⟨hw.inside _ (getLast_mem hw.nonempty), hname⟩

lemma follow_confined {w : Walk Fd} (hw : w.Confined host) (parent : Fd) (name : Str) :
    (w.follow calls parent name).Confined host w.seen := by
  unfold Walk.follow
  split
  · trivial
  · trivial
  split
  · trivial
  refine ⟨⟨fun c hc => ?_, ?_, fun fd hfd => ?_⟩, rfl⟩
  · rcases mem_append.mp hc with hc | hc
    · exact piece_of_splitTarget hc
    · exact hw.pieces c hc
  · dsimp only
    split
    · simp [hw.nonempty]
    · exact hw.nonempty
  split at hfd
  · exact hw.inside fd (mem_of_mem_take hfd)
  · exact hw.inside fd hfd

lemma visit_confined (hc : calls.On host) {w : Walk Fd} (hw : w.Confined host)
    {name : Str} (hname : Component name) (followFinal allowMissingFinal : Bool) :
    (w.visit calls followFinal allowMissingFinal name).Confined host w.seen := by
  unfold Walk.visit cstr
  split
  · trivial
  rename_i name' hcstr
  -- a component without NUL is passed on as it is
  obtain rfl : name' = name := by
    split at hcstr
    · cases hcstr
    · exact (Except.ok.inj hcstr).symm
  rw [List.getLast?_eq_some_getLast hw.nonempty]
  have hparent := hw.inside _ (getLast_mem hw.nonempty)
  dsimp only
  split
  · exact found_confined hw hname
  split
  next fd hopen =>
    split
    · exact found_confined hw hname
    rename_i hlast
    refine ⟨⟨hw.pieces, by simp, fun d hd => ?_⟩, rfl⟩
    rcases mem_append.mp hd with hd | hd
    · exact hw.inside d hd
    obtain rfl : d = fd := by simpa using hd
    have hdir : (!w.queue.isEmpty) = true := by simpa using hlast
    rw [hdir] at hopen
    exact .descend hparent hname (hc.openat _ _ _ hname hopen)
  · split
    · exact found_confined hw hname
    split
    · exact follow_confined hw ..
    · trivial

lemma turn_confined (hc : calls.On host) {w : Walk Fd} (hw : w.Confined host)
    (followFinal allowMissingFinal : Bool) :
    (w.turn calls followFinal allowMissingFinal).Confined host (w.seen + 1) := by
  unfold Walk.turn
  split
  · trivial
  rename_i name rest hqueue
  have hpieces : ∀ c ∈ rest, Piece c := fun c hc => hw.pieces c (by simp [hqueue, hc])
  dsimp only
  split
  · trivial
  split
  · refine ⟨⟨hpieces, ?_, fun fd hfd => ?_⟩, rfl⟩
    · dsimp only
      split
      next hlen =>
        intro hnil
        have : w.stack.length - 1 = 0 := by rw [← length_dropLast, hnil]; rfl
        omega
      · exact hw.nonempty
    dsimp only at hfd
    split at hfd
    · exact hw.inside fd (dropLast_subset _ hfd)
    · exact hw.inside fd hfd
  next hne =>
    have hname : Component name := (hw.pieces name (by simp [hqueue])).resolve_left hne
    exact visit_confined hc (w := { w with queue := rest, seen := w.seen + 1 })
      ⟨hpieces, hw.nonempty, hw.inside⟩ hname followFinal allowMissingFinal

lemma turn_over {w : Walk Fd} (h : maxComponents ≤ w.seen) (followFinal allowMissingFinal : Bool) :
    ∃ e, w.turn calls followFinal allowMissingFinal = .done (.error e) := by
  unfold Walk.turn
  split
  · exact ⟨_, rfl⟩
  dsimp only
  rw [if_pos (by omega)]
  exact ⟨_, rfl⟩

lemma run_confined (hc : calls.On host) (followFinal allowMissingFinal : Bool)
    (fuel : Nat) : ∀ w : Walk Fd, w.Confined host → w.seen ≤ maxComponents →
      maxComponents < w.seen + fuel →
      ∃ r, Walk.run calls followFinal allowMissingFinal fuel w = some (.done r) ∧
        ∀ dir name, r = .ok (dir, name) → host.Inside dir ∧ Component name := by
  -- every turn counts one component, so `seen + fuel` stays what it is
  induction fuel with
  | zero =>
    intro w _ hle hlt
    omega
  | succ fuel ih =>
    intro w hw hle hlt
    have hturn := turn_confined hc hw followFinal allowMissingFinal
    unfold Walk.run
    rcases Nat.lt_or_eq_of_le hle with hless | heq
    · cases ht : w.turn calls followFinal allowMissingFinal with
      | next w' =>
        rw [ht] at hturn
        exact ih w' hturn.1 (by rw [hturn.2]; omega) (by rw [hturn.2]; omega)
      | done r =>
        rw [ht] at hturn
        refine ⟨r, rfl, fun dir name hr => ?_⟩
        subst hr
        exact hturn
      | panic =>
        rw [ht] at hturn
        exact hturn.elim
    have hover : ∃ e, w.turn calls followFinal allowMissingFinal = .done (.error e) :=
      turn_over (by omega) followFinal allowMissingFinal
    obtain ⟨e, he⟩ := hover
    rw [he]
    exact ⟨.error e, rfl, fun _ _ h => by cases h⟩

/-- **Resolution is confined to the tree below the root, and ends.** -/
theorem resolve_confined (hc : calls.On host) (rel : Str) (followFinal allowMissingFinal : Bool)
    {fuel : Nat} (hfuel : maxComponents < fuel) :
    ∃ r, resolve calls fuel rel followFinal allowMissingFinal = some (.done r) ∧
      ∀ dir name, r = .ok (dir, name) → host.Inside dir ∧ Component name := by
  unfold resolve
  split
  · exact ⟨_, rfl, fun _ _ h => by cases h⟩
  rename_i queue hqueue
  split
  · exact ⟨_, rfl, fun _ _ h => by cases h⟩
  split
  · exact ⟨_, rfl, fun _ _ h => by cases h⟩
  rename_i root hroot
  refine run_confined hc followFinal allowMissingFinal fuel _ ⟨?_, by simp, ?_⟩
    (Nat.zero_le _) (by simpa using hfuel)
  · exact piece_of_splitRel hqueue
  intro fd hfd
  obtain rfl : fd = root := by simpa using hfd
  rw [hc.rootFd _ hroot]
  exact .root

/-- A root with a directory `b`, and a symlink `a` to it that first climbs too far. -/
def linked : Host Nat where
  root := 0
  entry := fun d name =>
    if d = 0 ∧ name = ['b'] then some (.dir 1)
    else if d = 0 ∧ name = ['a'] then some (.symlink ['/', '.', '.', '/', 'b'])
    else none

theorem resolve_confined_linked :
    resolve linked.calls 4097 ['a', '/', 'f'] true true = some (.done (.ok (1, ['f']))) ∧
      linked.Inside 1 ∧ Component ['f'] := by
  have hrun : resolve linked.calls 4097 ['a', '/', 'f'] true true
      = some (.done (.ok (1, ['f']))) := rfl
  obtain ⟨r, hr, hinside⟩ := resolve_confined linked.calls_on ['a', '/', 'f'] true true
    (show maxComponents < 4097 by decide)
  rw [hrun] at hr
  cases hr
  exact ⟨rfl, hinside 1 ['f'] rfl⟩

end NixVm.Passthrough
