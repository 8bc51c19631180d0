/-
A tmpfs stays a tree, as long as its root is neither removed nor renamed.

The root is a node like any other to the source, so `rmdir` of the empty path takes it out of an
empty file system and `rename` moves it away from under its children.
-/
import NixVm.Proofs.Tmpfs

namespace NixVm.Tmpfs

open Fs AList

def nameOf (ino : Nat) (n : Node) : Nat := if n.isFile ino then 1 else 0

def Fs.names (fs : Fs) (ino : Nat) : Nat := Assoc.weight (fun _ n => nameOf ino n) fs.nodes

@[simp]
lemma nameOf_file (ino i : Nat) : nameOf ino (.file i) = if i = ino then 1 else 0 := by
  simp [nameOf, Node.isFile]

lemma nameOf_eq_zero {node : Node} (h : ∀ i, node ≠ .file i) (ino : Nat) : nameOf ino node = 0 := by
  cases node with
  | file i => exact absurd rfl (h i)
  | dir i x => rfl
  | fifo i x => rfl
  | symlink i x t => rfl

variable {fs fs' : Fs} {rel : Path} {node : Node} {ino : Nat} {f : FileData} {o : Nat}

lemma Fs.exists_name (h : 0 < fs.names ino) : ∃ k, fs.get k = some (.file ino) := by
  have ⟨k, n, hk, hn⟩ := Assoc.exists_of_weight_pos _ h
  refine ⟨k, ?_⟩
  cases n with
  | file i =>
    rw [nameOf_file] at hn
    split at hn
    next heq => exact heq ▸ hk
    · exact absurd hn (lt_irrefl 0)
  | dir i x | fifo i x | symlink i x t => exact absurd hn (lt_irrefl 0)

lemma Fs.names_pos (h : fs.get rel = some (.file ino)) : 0 < fs.names ino := by
  have hle : nameOf ino (.file ino) ≤ fs.names ino := Assoc.le_weight (fun _ n => nameOf ino n) h
  rw [nameOf_file, if_pos rfl] at hle
  exact hle

structure Fs.Linked (fs : Fs) : Prop where
  root : ∃ i x, fs.get [] = some (.dir i x)
  named : ∀ k ino, fs.get k = some (.file ino) → ∃ f, fs.files.lookup ino = some f
  links : ∀ ino f, fs.files.lookup ino = some f →
    f.links = fs.names ino ∧ 0 < f.links ∧ f.links < 2 ^ 32

lemma Fs.Linked.congr (h : fs.Linked) (hn : fs'.nodes = fs.nodes)
    (hf : ∀ i, (fs'.files.lookup i).map FileData.links = (fs.files.lookup i).map FileData.links) :
    fs'.Linked := by
  have hget : ∀ k, fs'.get k = fs.get k := fun k => by unfold get; rw [hn]
  have hnames : ∀ i, fs'.names i = fs.names i := fun i => by unfold names; rw [hn]
  refine ⟨?_, ?_, ?_⟩
  · rw [hget]
    exact h.root
  · intro k i hk
    rw [hget] at hk
    have ⟨g, hg⟩ := h.named k i hk
    have := hf i
    rw [hg] at this
    obtain ⟨g', hg', -⟩ := Option.map_eq_some_iff.mp this
    exact ⟨g', hg'⟩
  intro i g hg
  have := hf i
  rw [hg] at this
  have ⟨g', hg', hl⟩ := Option.map_eq_some_iff.mp this.symm
  rw [hnames, ← hl]
  exact h.links i g' hg'

lemma Fs.Linked.setFile (h : fs.Linked) (hf : fs.files.lookup ino = some f) {f' : FileData}
    (hl : f'.links = f.links) (q : Quota) : (fs.setFile ino f' q).Linked := by
  refine h.congr rfl fun i => ?_
  show ((fs.files.insert ino f').lookup i).map _ = _
  by_cases hi : i = ino
  · subst hi
    rw [lookup_insert, hf]
    simp [hl]
  · rw [lookup_insert_ne hi]

lemma Fs.Linked.setQuota (h : fs.Linked) (q : Quota) : ({ fs with quota := q } : Fs).Linked :=
  h.congr rfl fun _ => rfl

structure Fs.Adds (fs fs' : Fs) (rel : Path) (node : Node) : Prop where
  new : fs.get rel = none
  nodes : fs'.nodes = fs.nodes.insert rel node

section

variable (h : fs.Adds fs' rel node)
include h

lemma Fs.Adds.get_ne {k : Path} (hk : k ≠ rel) : fs'.get k = fs.get k := by
  unfold get
  rw [h.nodes]
  exact lookup_insert_ne hk

lemma Fs.Adds.get_eq : fs'.get rel = some node := by
  unfold get
  rw [h.nodes]
  exact lookup_insert _

lemma Fs.Adds.names (i : Nat) : fs'.names i = nameOf i node + fs.names i := by
  unfold Fs.names
  rw [h.nodes]
  exact Assoc.weight_insert _ (Fs.get_eq_none_iff.mp h.new)

lemma Fs.Adds.root (hr : ∃ i x, fs.get [] = some (.dir i x)) :
    ∃ i x, fs'.get [] = some (.dir i x) := by
  obtain ⟨i, x, hr⟩ := hr
  have hne : [] ≠ rel := by
    intro heq
    rw [heq, h.new] at hr
    cases hr
  exact ⟨i, x, (h.get_ne hne).trans hr⟩

end

section

variable (h : fs.Linked)
include h

lemma Fs.Linked.adds_other (ha : fs.Adds fs' rel node)
    (hf : ∀ i, fs'.files.lookup i = fs.files.lookup i) (hnode : ∀ i, node ≠ .file i) :
    fs'.Linked := by
  refine ⟨ha.root h.root, ?_, ?_⟩
  · intro k i hk
    rw [hf]
    by_cases hkr : k = rel
    · rw [hkr, ha.get_eq] at hk
      exact absurd (Option.some.inj hk) (hnode i)
    · exact h.named k i ((ha.get_ne hkr).symm.trans hk)
  intro i g hg
  rw [hf] at hg
  rw [ha.names, nameOf_eq_zero hnode, zero_add]
  exact h.links i g hg

lemma Fs.Linked.adds_file (ha : fs.Adds fs' rel (.file ino))
    (hother : ∀ i, i ≠ ino → fs'.files.lookup i = fs.files.lookup i)
    (hf : fs'.files.lookup ino = some f) (hl : f.links = fs.names ino + 1)
    (hlt : f.links < 2 ^ 32) : fs'.Linked := by
  refine ⟨ha.root h.root, ?_, ?_⟩
  · intro k i hk
    by_cases hi : i = ino
    · exact ⟨f, hi ▸ hf⟩
    rw [hother i hi]
    by_cases hkr : k = rel
    · rw [hkr, ha.get_eq] at hk
      cases hk
      exact absurd rfl hi
    · exact h.named k i ((ha.get_ne hkr).symm.trans hk)
  intro i g hg
  rw [ha.names, nameOf_file]
  by_cases hi : i = ino
  · subst hi
    rw [hf] at hg
    cases hg
    rw [if_pos rfl]
    omega
  · rw [hother i hi] at hg
    rw [if_neg (fun heq => hi heq.symm), zero_add]
    exact h.links i g hg

lemma Fs.Linked.names_fresh (hs : fs.Sound o) : fs.names fs.nextInode = 0 := by
  by_contra hne
  have ⟨k, hk⟩ := exists_name (pos_of_ne_zero hne)
  have ⟨f, hf⟩ := h.named k _ hk
  exact lt_irrefl _ (hs.fresh _ f hf)

lemma Fs.Linked.create (hs : fs.Sound o) (rel : Path) : (fs.create rel).2.Linked := by
  unfold Fs.create
  split
  · exact h
  rename_i hnew
  have hget := (Fs.checkNew_ok hnew).1
  dsimp only [Fs.newFile]
  have hlookup := lookup_eq_none.mpr hs.nextInode_free
  have hother : ∀ i, i ≠ fs.nextInode →
      (fs.files.insert fs.nextInode ⟨∅, [], 0, 1⟩).lookup i = fs.files.lookup i :=
    fun i hi => lookup_insert_ne hi
  rcases Fs.insertNode_cases { fs with
      files := fs.files.insert fs.nextInode ⟨∅, [], 0, 1⟩
      nextInode := fs.nextInode + 1 } rel (.file fs.nextInode) with heq | heq
  · -- no room for the name: the file goes again
    rw [heq]
    refine h.congr (removeFile_nodes ..) fun i => ?_
    simp only [Fs.removeFile, lookup_insert]
    by_cases hi : i = fs.nextInode
    · subst hi
      rw [hlookup]
      exact congrArg (Option.map _) (lookup_erase ..)
    · exact congrArg (Option.map _) ((lookup_erase_ne hi).trans (hother i hi))
  · rw [heq]
    refine h.adds_file (f := ⟨∅, [], 0, 1⟩) ⟨hget, rfl⟩ hother (lookup_insert _) ?_ (by simp)
    rw [h.names_fresh hs]

lemma Fs.Linked.make (hnew : fs.checkNew rel = .ok ())
    (hnode : ∀ i, node ≠ .file i) : (fs.newMeta.2.insertNode rel node).2.Linked := by
  have hget := (checkNew_ok hnew).1
  rcases insertNode_cases fs.newMeta.2 rel node with heq | heq
  · rw [heq]
    exact h.congr rfl fun _ => rfl
  · rw [heq]
    exact h.adds_other ⟨hget, rfl⟩ (fun _ => rfl) hnode

lemma Fs.Linked.link {old new : Path}
    (hroom : ∀ ino f, fs.get old = some (.file ino) → fs.files.lookup ino = some f →
      f.links + 1 < 2 ^ 32) : (fs.link old new).2.Linked := by
  unfold Fs.link
  split
  next ino hold =>
    split
    · exact h
    rename_i hnew
    have ⟨f, hf⟩ := h.named old ino hold
    have hlt := hroom ino f hold hf
    rcases fs.insertNode_cases new (.file ino) with heq | heq
    · rw [heq]
      exact h
    rw [heq]
    simp only [Fs.addLink, hf]
    have hinc : Fs.inc32 f.links = f.links + 1 := if_neg (ne_of_lt hlt)
    refine h.adds_file (f := { f with links := Fs.inc32 f.links })
      ⟨(Fs.checkNew_ok hnew).1, rfl⟩ (fun i hi => lookup_insert_ne hi)
      (lookup_insert _) ?_ ?_
    · rw [hinc, (h.links ino f hf).1]
    rw [hinc]
    exact hlt
  · exact h
  · exact h
  · exact h

end

lemma dec32_of_pos {n : Nat} (h : 0 < n) : dec32 n = n - 1 := if_neg (ne_of_gt h)

lemma dropLink_lookup (hf : fs.files.lookup ino = some f) (hpos : 0 < f.links) (i : Nat) :
    (fs.dropLink ino).files.lookup i =
      if i = ino then (if f.links = 1 then none else some { f with links := f.links - 1 })
      else fs.files.lookup i := by
  simp only [dropLink, hf, dec32_of_pos hpos]
  by_cases hone : f.links = 1
  · rw [if_pos (by omega)]
    simp only [removeFile, lookup_insert]
    by_cases hi : i = ino
    · subst hi
      rw [if_pos rfl, if_pos hone]
      exact lookup_erase ..
    · rw [if_neg hi, lookup_erase_ne hi, lookup_insert_ne hi]
  rw [if_neg (by omega)]
  by_cases hi : i = ino
  · subst hi
    rw [if_pos rfl, if_neg hone]
    exact lookup_insert _
  · rw [if_neg hi]
    exact lookup_insert_ne hi

lemma removeEntry_get {k : Path} {n : Node} (h : (fs.removeEntry rel).get k = some n) :
    k ≠ rel ∧ fs.get k = some n := by
  unfold Fs.get at h
  rw [removeEntry_nodes] at h
  by_cases hk : k = rel
  · rw [hk, lookup_erase] at h
    cases h
  · exact ⟨hk, (lookup_erase_ne hk).symm.trans h⟩

lemma removeEntry_names (hget : fs.get rel = some node) (i : Nat) :
    nameOf i node + (fs.removeEntry rel).names i = fs.names i := by
  unfold names
  rw [removeEntry_nodes]
  exact Assoc.weight_erase (fun _ n => nameOf i n) hget

lemma removeEntry_files (hget : fs.get rel = some node) (hnode : ∀ i, node ≠ .file i) :
    (fs.removeEntry rel).files = fs.files := by
  simp only [removeEntry, hget]
  cases node with
  | file i => exact absurd rfl (hnode i)
  | dir i x => rfl
  | fifo i x => rfl
  | symlink i x t => rfl

section

variable (h : fs.Linked)
include h

lemma Fs.Linked.removeEntry_root (hrel : rel ≠ []) :
    ∃ i x, (fs.removeEntry rel).get [] = some (.dir i x) := by
  obtain ⟨i, x, hr⟩ := h.root
  refine ⟨i, x, ?_⟩
  unfold get
  rw [removeEntry_nodes]
  exact (lookup_erase_ne hrel.symm).trans hr

lemma Fs.Linked.removeEntry_lookup (hget : fs.get rel = some (.file ino))
    (hf : fs.files.lookup ino = some f) (i : Nat) : (fs.removeEntry rel).files.lookup i =
      if i = ino then (if f.links = 1 then none else some { f with links := f.links - 1 })
      else fs.files.lookup i := by
  simp only [Fs.removeEntry, hget]
  have hf' : (fs.eraseNode rel (.file ino)).files.lookup ino = some f := hf
  exact dropLink_lookup hf' (h.links ino f hf).2.1 i

lemma Fs.Linked.removeEntry_file (hrel : rel ≠ [])
    (hget : fs.get rel = some (.file ino)) : (fs.removeEntry rel).Linked := by
  have ⟨f, hf⟩ := h.named rel ino hget
  have ⟨hl, hpos, hlt⟩ := h.links ino f hf
  have hlook := h.removeEntry_lookup hget hf
  have hino := removeEntry_names hget ino
  rw [nameOf_file, if_pos rfl] at hino
  refine ⟨h.removeEntry_root hrel, ?_, ?_⟩
  · intro k i hk
    obtain ⟨-, hk'⟩ := removeEntry_get hk
    rw [hlook]
    by_cases hi : i = ino
    · -- a name is left, so this was not the last link
      subst hi
      have := names_pos hk
      rw [if_pos rfl, if_neg (by omega)]
      exact ⟨_, rfl⟩
    · rw [if_neg hi]
      exact h.named k i hk'
  intro i g hg
  rw [hlook] at hg
  by_cases hi : i = ino
  · subst hi
    rw [if_pos rfl] at hg
    split at hg
    · cases hg
    cases hg
    show f.links - 1 = _ ∧ 0 < f.links - 1 ∧ f.links - 1 < 2 ^ 32
    omega
  rw [if_neg hi] at hg
  have := removeEntry_names hget i
  rw [nameOf_file, if_neg (fun heq => hi heq.symm), zero_add] at this
  rw [this]
  exact h.links i g hg

lemma Fs.Linked.removeEntry (hrel : rel ≠ []) : (fs.removeEntry rel).Linked := by
  cases hget : fs.get rel with
  | none =>
    unfold Fs.removeEntry
    rw [hget]
    exact h
  | some node =>
    by_cases hfile : ∃ i, node = .file i
    · obtain ⟨ino, rfl⟩ := hfile
      exact h.removeEntry_file hrel hget
    have hnode : ∀ i, node ≠ .file i := fun i heq => hfile ⟨i, heq⟩
    have hfiles := removeEntry_files hget hnode
    refine ⟨h.removeEntry_root hrel, ?_, ?_⟩
    · intro k i hk
      rw [hfiles]
      exact h.named k i (removeEntry_get hk).2
    intro i g hg
    rw [hfiles] at hg
    have := removeEntry_names hget i
    rw [nameOf_eq_zero hnode, zero_add] at this
    rw [this]
    exact h.links i g hg

omit h in
lemma growFile_links {q q' : Quota} {f' : FileData} {len : Nat} {alloc : Option Nat}
    (h : growFile q f len alloc = (.ok f', q')) : f'.links = f.links := by
  rcases growFile_spec q f len alloc with ⟨e, q1, heq, -⟩ | ⟨c, q1, heq, -⟩
  · rw [heq] at h
    cases h
  rw [heq] at h
  cases h
  rfl

lemma Fs.Linked.writeAt (off : Nat) (buf : List UInt8) (alloc : Option Nat) :
    (fs.writeAt rel off buf alloc).2.Linked := by
  unfold Fs.writeAt
  split
  · exact h
  rename_i ino f hfile
  have hf := (Fs.fileOf_ok hfile).2
  dsimp only
  split
  · exact h
  split
  · split
    · exact h.setQuota _
    rename_i hgrow
    have hlinks := growFile_links hgrow
    refine h.setFile hf ?_ _
    exact hlinks
  · refine h.setFile hf ?_ _
    rfl

lemma Fs.Linked.truncate (len : Nat) (alloc : Option Nat) (slack : Nat) :
    (fs.truncate rel len alloc slack).2.Linked := by
  unfold Fs.truncate
  split
  · exact h
  rename_i ino f hfile
  have hf := (Fs.fileOf_ok hfile).2
  dsimp only
  split
  · exact h
  split
  · exact h.setQuota _
  rename_i hgrow
  have hlinks := growFile_links hgrow
  split
  · refine h.setFile hf ?_ _
    exact hlinks
  · refine h.setFile hf ?_ _
    exact hlinks

lemma Fs.Linked.replace (hget : fs.get rel = some node) {node' : Node}
    (hdir : node.isDir = true → node'.isDir = true) (hnode : ∀ i, node ≠ .file i)
    (hnode' : ∀ i, node' ≠ .file i) :
    ({ fs with nodes := fs.nodes.insert rel node' } : Fs).Linked := by
  have hne : ∀ k, k ≠ rel → (fs.nodes.insert rel node').lookup k = fs.get k :=
    fun k hk => lookup_insert_ne hk
  have hself : (fs.nodes.insert rel node').lookup rel = some node' := lookup_insert _
  refine ⟨?_, ?_, ?_⟩
  · obtain ⟨i, x, hr⟩ := h.root
    by_cases hrel : [] = rel
    · rw [hrel, hget] at hr
      cases hr
      have hd := hdir rfl
      cases node' with
      | dir i' x' => exact ⟨i', x', by rw [hrel]; exact hself⟩
      | file i => cases hd
      | fifo i x => cases hd
      | symlink i x t => cases hd
    · exact ⟨i, x, (hne [] hrel).trans hr⟩
  · intro k i hk
    by_cases hkr : k = rel
    · rw [hkr] at hk
      exact absurd (Option.some.inj (hself.symm.trans hk)) (hnode' i)
    · exact h.named k i ((hne k hkr).symm.trans hk)
  intro i g hg
  have hw := Assoc.weight_replace (fun _ n => nameOf i n) hget node'
  rw [nameOf_eq_zero hnode, nameOf_eq_zero hnode'] at hw
  have ⟨hl, hrest⟩ := h.links i g hg
  exact ⟨hl.trans hw.symm, hrest⟩

lemma Fs.Linked.xattrs {x : Xattrs} {put : Xattrs → Fs}
    (hx : fs.xattrsAt rel = some (x, put)) (x' : Xattrs) : (put x').Linked := by
  unfold xattrsAt at hx
  split at hx
  · cases hx
  next ino hget =>
    have ⟨f, hf, heq⟩ := Option.map_eq_some_iff.mp hx
    cases heq
    refine h.setFile hf ?_ fs.quota
    rfl
  next hget =>
    cases hx
    refine h.replace hget ?_ nofun ?_
    · exact fun h => h
    · exact nofun
  next hget =>
    cases hx
    refine h.replace hget ?_ nofun ?_
    · exact fun h => h
    · exact nofun
  rename_i hget
  cases hx
  refine h.replace hget ?_ nofun ?_
  · exact fun h => h
  · exact nofun

lemma Fs.Linked.rename (hs : fs.Sound o) {source target : Path}
    (hsource : source ≠ []) : (fs.rename source target).2.Linked := by
  rcases fs.rename_cases source target with ⟨heq, -⟩ | ⟨node, fs1, hm, -, hr, heq⟩
  · rw [heq]
    exact h
  rw [heq]
  have ⟨hcl, hfs1⟩ := replaceTarget_ok hs.grounded hm.parent hr
  have h1 : fs1.Linked ∧ fs1.Sound o := by
    rcases hfs1 with rfl | rfl
    · exact ⟨h, hs⟩
    · exact ⟨h.removeEntry hcl.ne_root, hs.removeEntry hcl.childless⟩
  obtain ⟨hl, hs1⟩ := h1
  have hmov := hs1.grounded.movable source hcl.get_target hcl.ne_root
  obtain ⟨hfiles, -⟩ := foldl_moveKey_files source target (fs1.movedKeys source) fs1
  have hnodes := foldl_moveKey_nodes source target (fs1.movedKeys source) fs1
  refine ⟨?_, ?_, ?_⟩
  · -- the root is not below the source and nothing moves onto it
    obtain ⟨i, x, hroot⟩ := hl.root
    refine ⟨i, x, ?_⟩
    unfold get
    rw [hnodes, hmov.lookup_other]
    · exact hroot
    · intro hin
      obtain ⟨-, r, hr, -⟩ := mem_movedKeys hin
      exact hsource (List.append_eq_nil_iff.mp hr.symm).1
    intro k hk hnil
    obtain ⟨-, r, rfl, -⟩ := mem_movedKeys hk
    rw [newKey_append] at hnil
    exact hcl.ne_root (List.append_eq_nil_iff.mp hnil).1
  · intro k i hk
    unfold get at hk
    rw [hnodes] at hk
    rw [hfiles]
    -- what is found at a key was found somewhere before
    by_cases hkt : ∃ k0 ∈ fs1.movedKeys source, newKey source target k0 = k
    · obtain ⟨k0, hk0, rfl⟩ := hkt
      rw [hmov.lookup_target hk0] at hk
      exact hl.named k0 i hk
    push Not at hkt
    have hkm : k ∉ fs1.movedKeys source := by
      intro hkm
      rw [hmov.lookup_source hkm] at hk
      cases hk
    rw [hmov.lookup_other hkm hkt] at hk
    exact hl.named k i hk
  intro i g hg
  rw [hfiles] at hg
  have hnames : names ((fs1.movedKeys source).foldl (moveKey source target) fs1) i =
      fs1.names i := by
    unfold names
    rw [hnodes]
    exact hmov.weight_eq (nameOf i)
  rw [hnames]
  exact hl.links i g hg

end

/-- The root is not removed or renamed, and a file with `2 ^ 32 - 1` names gets no other. -/
def Mounted.Proper (m : Mounted) : Event → Prop
  | .call (.rmdir rel) => rel ≠ []
  | .call (.rename source _) => source ≠ []
  | .call (.link old _) => ∀ ino f, m.fs.get old = some (.file ino) →
      m.fs.files.lookup ino = some f → f.links + 1 < 2 ^ 32
  | _ => True

lemma Fs.Linked.perform {m : Mounted} (h : m.fs.Linked) (hs : m.fs.Sound o) {op : Op}
    (hp : m.Proper (.call op)) : (m.fs.perform op).Linked := by
  cases op with
  | create rel => exact h.create hs rel
  | mkdir rel =>
    simp only [Fs.perform, Fs.mkdir]
    split
    · exact h
    rename_i hnew
    exact h.make hnew (by intros; simp)
  | mknod rel mode =>
    simp only [Fs.perform, Fs.mknod]
    split
    · exact h
    · exact h.create hs rel
    split
    · exact h
    rename_i hnew
    exact h.make hnew (by intros; simp)
  | symlink target rel =>
    simp only [Fs.perform, Fs.symlink]
    split
    · exact h
    rename_i hnew
    exact h.make hnew (by intros; simp)
  | link old new => exact h.link hp
  | unlink rel =>
    simp only [Fs.perform, Fs.unlink]
    split
    · exact h
    split
    · exact h
    next node hnd hget =>
      refine h.removeEntry ?_
      rintro rfl
      obtain ⟨i, x, hr⟩ := h.root
      cases hget.symm.trans hr
      exact hnd i x rfl
    · exact h
  | rmdir rel =>
    simp only [Fs.perform, Fs.rmdir]
    split
    · exact h
    split
    · split
      · exact h
      · exact h.removeEntry hp
    · exact h
    · exact h
  | writeAt rel off buf alloc => exact h.writeAt off buf alloc
  | truncate rel len alloc slack => exact h.truncate len alloc slack
  | setxattr rel name value =>
    simp only [Fs.perform, Fs.setxattr]
    split
    · exact h
    rename_i x put hx
    split
    · exact h
    · exact (h.xattrs hx _).setQuota _
  | removexattr rel name =>
    simp only [Fs.perform, Fs.removexattr]
    split
    · exact h
    rename_i x put hx
    split
    · exact h
    · exact (h.xattrs hx _).setQuota _
  | rename source target => exact h.rename hs hp

lemma Mounted.step_linked {m m' : Mounted} {e : Event}
    (h : m.fs.Sound m.others ∧ m.fs.Linked) (hp : m.Proper e) (hs : m.step e = some m') :
    m'.fs.Sound m'.others ∧ m'.fs.Linked := by
  refine ⟨Mounted.step_sound h.1 hs, ?_⟩
  cases e with
  | call op =>
    cases hs
    exact h.2.perform h.1 hp
  | outside used limit | attach quota =>
    cases hs
    exact h.2.setQuota _

lemma Fs.Linked.init (quota : Quota) : (Mounted.init quota).fs.Linked := by
  refine ⟨⟨1, ∅, rfl⟩, ?_, nofun⟩
  intro k ino hk
  by_cases hk0 : k = []
  · subst hk0
    cases hk
  have : (Mounted.init quota).fs.get k = none := AList.lookup_insert_ne hk0
  rw [this] at hk
  cases hk

/-- **The names are a tree.** After any such run the root is a directory, every other name stands in
one, and a file has as many links as names, at least one. -/
theorem Mounted.tree (m : Mounted) (h : m.Reach Mounted.Proper) :
    (∃ i x, m.fs.get [] = some (.dir i x)) ∧
    (∀ k n, k ≠ [] → m.fs.get k = some n → ∃ i x, m.fs.get (parentOf k) = some (.dir i x)) ∧
    (∀ k ino, m.fs.get k = some (.file ino) → ∃ f, m.fs.files.lookup ino = some f) ∧
    (∀ ino f, m.fs.files.lookup ino = some f → f.links = m.fs.names ino ∧
      ∃ k, m.fs.get k = some (.file ino)) := by
  have hinv : m.fs.Sound m.others ∧ m.fs.Linked := by
    obtain ⟨quota, h⟩ := h
    refine Run.Reach.invariant (P := fun m => m.fs.Sound m.others ∧ m.fs.Linked) h ?_ ?_
    · exact ⟨Fs.Sound.init quota, Fs.Linked.init quota⟩
    · intro m e m' hi hp hs
      exact Mounted.step_linked hi hp hs
  obtain ⟨hs, hl⟩ := hinv
  refine ⟨hl.root, ?_, hl.named, ?_⟩
  · intro k n hk hget
    by_cases hp : parentOf k = []
    · rw [hp]
      exact hl.root
    · exact hs.grounded k n hget hp
  · intro ino f hf
    obtain ⟨hlinks, hpos, -⟩ := hl.links ino f hf
    exact ⟨hlinks, Fs.exists_name (by omega)⟩

def proper (m : Mounted) : Event → Bool
  | .call (.rmdir rel) => rel ≠ []
  | .call (.rename source _) => source ≠ []
  | .call (.link old _) =>
    match m.fs.get old with
    | some (.file ino) => (m.fs.files.lookup ino).all fun f => f.links + 1 < 2 ^ 32
    | _ => true
  | _ => true

lemma proper_ok (m : Mounted) (e : Event) (h : proper m e = true) : m.Proper e := by
  unfold Mounted.Proper
  split
  · simpa [proper] using h
  · simpa [proper] using h
  · intro ino f hget hf
    simpa [proper, hget, hf] using h
  · trivial

theorem Mounted.tree_renamed : ∃ m : Mounted, m.Reach Mounted.Proper ∧
    m.fs.get ["e", "a"] = some (.file 3) ∧ m.fs.get ["b"] = some (.file 3) ∧
    ∃ f, m.fs.files.lookup 3 = some f ∧ f.links = m.fs.names 3 := by
  have hrun : ∃ m, Run.exec (fun m e => if proper m e then Mounted.step m e else none)
      [.call (.mkdir ["d"]), .call (.create ["d", "a"]), .call (.link ["d", "a"] ["b"]),
        .call (.rename ["d"] ["e"])] (Mounted.init ⟨5000, 0⟩) = some m ∧
      m.fs.get ["e", "a"] = some (.file 3) ∧ m.fs.get ["b"] = some (.file 3) :=
    ⟨_, rfl, rfl, rfl⟩
  obtain ⟨m, hm, ha, hb⟩ := hrun
  have hreach : m.Reach Mounted.Proper := ⟨_, .of_exec_guarded proper_ok _ hm⟩
  obtain ⟨-, -, hnamed, hlinks⟩ := Mounted.tree m hreach
  obtain ⟨f, hf⟩ := hnamed _ 3 ha
  exact ⟨m, hreach, ha, hb, f, hf, (hlinks 3 f hf).1⟩

/-- An empty file system loses its root to `rmdir`. -/
theorem Mounted.root_removed : ∃ m : Mounted, (m.Reach fun _ _ => True) ∧ m.fs.get [] = none :=
  ⟨_, ⟨⟨2 ^ 64 - 1, 0⟩, .of_exec_free [.call (.rmdir [])] rfl⟩, rfl⟩

end NixVm.Tmpfs
