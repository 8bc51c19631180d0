/-
A tmpfs is charged exactly for what it holds; dropping it gives back only the files.

When the file system is dropped each file gives its charge back, and nothing gives back that of the
nodes.
-/
import NixVm.Fs.Tmpfs

namespace NixVm.Tmpfs

open Assoc Fs List Option AList

/-! ### Paths -/

lemma mem_movedKeys {fs : Fs} {source k : Path} (h : k ∈ fs.movedKeys source) :
    k ∈ fs.nodes ∧ ∃ r, k = source ++ r ∧ (source = [] → r = []) := by
  have ⟨hk, hb⟩ := mem_filter.mp h
  refine ⟨mem_keys.mpr hk, ?_⟩
  simp only [Bool.or_eq_true, decide_eq_true_eq, below, Bool.and_eq_true, ne_eq,
    List.isPrefixOf_iff_prefix] at hb
  rcases hb with rfl | ⟨⟨hne, ⟨r, rfl⟩⟩, -⟩
  · exact ⟨[], by simp, fun _ => rfl⟩
  · exact ⟨r, rfl, fun h => absurd h hne⟩

lemma mem_movedKeys_append {fs : Fs} {source r : Path} (hs : source ≠ [])
    (h : source ++ r ∈ fs.nodes) : source ++ r ∈ fs.movedKeys source := by
  refine mem_filter.mpr ⟨mem_keys.mp h, ?_⟩
  by_cases hr : r = []
  · simp [hr]
  · simp [below, hs, hr]

lemma newKey_append (source target r : Path) :
    newKey source target (source ++ r) = target ++ r := by
  simp [newKey]

/-! ### The invariant -/

/-- Below the first level every name stands in a directory. -/
def Fs.Grounded (fs : Fs) : Prop :=
  ∀ k n, fs.get k = some n → parentOf k ≠ [] → ∃ i x, fs.get (parentOf k) = some (.dir i x)

structure Fs.Sound (others : Nat) (fs : Fs) : Prop where
  grounded : fs.Grounded
  fresh : ∀ ino f, fs.files.lookup ino = some f → ino < fs.nextInode
  charged : fs.quota.used = others + fs.nodesCost + fs.filesCost

variable {fs fs' : Fs} {o : Nat} {rel : Path} {ino : Nat} {f : FileData} {node : Node}

lemma Fs.get_eq_none_iff : fs.get rel = none ↔ rel ∉ fs.nodes := lookup_eq_none

lemma Fs.mem_of_get (h : fs.get rel = some node) : rel ∈ fs.nodes :=
  lookup_isSome.mp (by rw [get] at h; rw [h]; rfl)

lemma Fs.exists_get (h : rel ∈ fs.nodes) : ∃ n, fs.get rel = some n :=
  isSome_iff_exists.mp (lookup_isSome.mpr h)

lemma Fs.Grounded.dir_above (h : fs.Grounded) {p : Path} (hp : p ≠ []) (r : Path) :
    ∀ n, r ≠ [] → fs.get (p ++ r) = some n → ∃ i x, fs.get p = some (.dir i x) := by
  induction r using List.reverseRecOn with
  | nil => exact fun _ hr => absurd rfl hr
  | append_singleton r a ih =>
    intro n _ hget
    have hpar : parentOf (p ++ (r ++ [a])) = p ++ r := by
      rw [parentOf, ← append_assoc, dropLast_concat]
    have ⟨i, x, hdir⟩ := h _ _ hget (by rw [hpar]; simp [hp])
    rw [hpar] at hdir
    by_cases hr : r = []
    · subst hr
      exact ⟨i, x, by simpa using hdir⟩
    · exact ih _ hr hdir

lemma Fs.Sound.of_files (h : fs.Sound o) (hn : fs'.nodes = fs.nodes)
    (hfresh : ∀ ino f, fs'.files.lookup ino = some f → ino < fs'.nextInode)
    (hc : fs'.quota.used = o + fs.nodesCost + fs'.filesCost) : fs'.Sound o where
  grounded := by
    unfold Fs.Grounded get
    rw [hn]
    exact h.grounded
  fresh := hfresh
  charged := by rw [hc, nodesCost, nodesCost, hn]

lemma Fs.Sound.nextInode_free (h : fs.Sound o) : fs.nextInode ∉ fs.files := by
  intro hin
  have ⟨f, hf⟩ := isSome_iff_exists.mp (lookup_isSome.mpr hin)
  exact lt_irrefl _ (h.fresh _ f hf)

/-! ### Files -/

lemma Fs.filesCost_insert (h : fs.files.lookup ino = some f) (f' : FileData) :
    weight (fun _ f => f.cost) (fs.files.insert ino f') + f.cost = fs.filesCost + f'.cost :=
  weight_replace (fun _ (f : FileData) => f.cost) h _

lemma Fs.lookup_insert_fresh {n : Nat} {f' g : FileData} {i : Nat}
    (hfresh : ∀ ino f, fs.files.lookup ino = some f → ino < n) (hino : ino < n)
    (hi : (fs.files.insert ino f').lookup i = some g) : i < n := by
  by_cases heq : i = ino
  · omega
  rw [lookup_insert_ne heq] at hi
  exact hfresh i g hi

lemma Fs.Sound.setFile (h : fs.Sound o) (hf : fs.files.lookup ino = some f) {f' : FileData}
    {q : Quota} (hq : q.used + f.cost = fs.quota.used + f'.cost) :
    (fs.setFile ino f' q).Sound o := by
  refine h.of_files rfl ?_ ?_
  · intro i g hi
    exact lookup_insert_fresh h.fresh (h.fresh ino f hf) hi
  have := filesCost_insert hf f'
  have := h.charged
  show q.used = o + fs.nodesCost + weight _ (fs.files.insert ino f')
  omega

lemma Fs.Sound.removeFile (h : fs.Sound o) (ino : Nat) : (fs.removeFile ino).Sound o := by
  unfold Fs.removeFile
  cases hf : fs.files.lookup ino with
  | none => exact h
  | some f =>
    refine h.of_files rfl ?_ ?_
    · intro i g hi
      by_cases heq : i = ino
      · subst heq
        simp at hi
      · rw [lookup_erase_ne heq] at hi
        exact h.fresh i g hi
    have := weight_erase (fun _ (f : FileData) => f.cost) hf
    have := h.charged
    show fs.quota.used - f.cost = o + fs.nodesCost + weight _ (fs.files.erase ino)
    unfold Fs.filesCost at this
    omega

lemma Fs.Sound.dropLink (h : fs.Sound o) (ino : Nat) : (fs.dropLink ino).Sound o := by
  unfold Fs.dropLink
  cases hf : fs.files.lookup ino with
  | none => exact h
  | some f =>
    have hset : ∀ links, ({ fs with files := fs.files.insert ino { f with links := links } }
        : Fs).Sound o := fun links => h.setFile hf rfl
    dsimp only
    split
    · exact (hset _).removeFile ino
    · exact hset _

lemma Fs.Sound.addLink (h : fs.Sound o) (ino : Nat) : (fs.addLink ino).Sound o := by
  unfold Fs.addLink
  cases hf : fs.files.lookup ino with
  | none => exact h
  | some f => exact h.setFile hf rfl

lemma Fs.Sound.newFile (h : fs.Sound o) : fs.newFile.2.Sound o := by
  refine h.of_files rfl ?_ ?_
  · intro i g hi
    exact lookup_insert_fresh (fun ino f hf => Nat.lt_succ_of_lt (h.fresh ino f hf))
      (Nat.lt_succ_self _) hi
  have hw := weight_insert (fun _ (f : FileData) => f.cost) (b := ⟨∅, [], 0, 1⟩)
    h.nextInode_free
  have hzero : FileData.cost ⟨∅, [], 0, 1⟩ = 0 := rfl
  rw [hzero, zero_add] at hw
  show fs.quota.used = o + fs.nodesCost + weight _ (fs.files.insert fs.nextInode _)
  rw [h.charged, hw, filesCost]

lemma Fs.Sound.newMeta (h : fs.Sound o) : fs.newMeta.2.Sound o :=
  h.of_files rfl (fun ino f hf => Nat.lt_succ_of_lt (h.fresh ino f hf)) h.charged

/-! ### Nodes -/

lemma Fs.requireParent_ok (h : fs.requireParent rel = .ok ()) :
    ∃ i x, fs.get (parentOf rel) = some (.dir i x) := by
  unfold requireParent at h
  split at h
  · cases h
  split at h
  next i x hget => exact ⟨i, x, hget⟩
  · cases h
  · cases h

lemma Fs.checkNew_ok (h : fs.checkNew rel = .ok ()) :
    fs.get rel = none ∧ ∃ i x, fs.get (parentOf rel) = some (.dir i x) := by
  unfold checkNew at h
  split at h
  · cases h
  rename_i hp
  split at h
  · cases h
  rename_i hnone
  exact ⟨not_isSome_iff_eq_none.mp hnone, requireParent_ok hp⟩

lemma Fs.insertNode_cases (fs : Fs) (rel : Path) (node : Node) :
    fs.insertNode rel node = (.error .enospc, fs) ∨ fs.insertNode rel node = (.ok (), { fs with
      nodes := fs.nodes.insert rel node
      quota := { fs.quota with used := fs.quota.used + nodeCost rel node } }) := by
  unfold insertNode
  split
  · exact .inl rfl
  rename_i q hq
  rw [Quota.tryCharge_eq_some hq]
  exact .inr rfl

lemma Fs.Sound.insertNode (h : fs.Sound o) (hnew : fs.get rel = none)
    (hpar : ∃ i x, fs.get (parentOf rel) = some (.dir i x)) (node : Node) :
    (fs.insertNode rel node).2.Sound o := by
  rcases fs.insertNode_cases rel node with heq | heq <;> rw [heq]
  · exact h
  refine ⟨?_, h.fresh, ?_⟩
  · -- the parent of every name is still there: only the new name changed
    have hkeep : ∀ p i x, fs.get p = some (.dir i x) →
        (fs.nodes.insert rel node).lookup p = some (.dir i x) := by
      intro p i x hp
      have hne : p ≠ rel := by
        intro heq
        rw [heq, hnew] at hp
        cases hp
      rw [lookup_insert_ne hne]
      exact hp
    intro k n hk hkp
    have hdir : ∃ i x, fs.get (parentOf k) = some (.dir i x) := by
      by_cases hkr : k = rel
      · exact hkr ▸ hpar
      refine h.grounded k n ?_ hkp
      rw [← hk]
      exact (lookup_insert_ne hkr).symm
    obtain ⟨i, x, hdir⟩ := hdir
    exact ⟨i, x, hkeep _ i x hdir⟩
  have := weight_insert nodeCost (b := node) (get_eq_none_iff.mp hnew)
  have := h.charged
  show fs.quota.used + nodeCost rel node =
    o + weight nodeCost (fs.nodes.insert rel node) + fs.filesCost
  unfold nodesCost at *
  omega

def Fs.Childless (fs : Fs) (rel : Path) : Prop :=
  ∀ k n, fs.get k = some n → parentOf k ≠ [] → parentOf k ≠ rel

lemma Fs.Grounded.childless_of_not_dir (h : fs.Grounded) (hget : fs.get rel = some node)
    (hnd : node.isDir = false) : fs.Childless rel := by
  intro k n hk hkp heq
  have ⟨i, x, hdir⟩ := h k n hk hkp
  rw [heq, hget] at hdir
  cases hdir
  cases hnd

lemma Fs.childless_of_keys (h : (fs.nodes.keys.any fun k => parentOf k = rel && k ≠ []) = false) :
    fs.Childless rel := by
  intro k n hk hkp heq
  have hmem := AList.mem_keys.mp (mem_of_get hk)
  have := any_eq_false.mp h k hmem
  have hne : k ≠ [] := by
    rintro rfl
    exact hkp rfl
  simp [heq, hne] at this

lemma Fs.Sound.eraseNode (h : fs.Sound o) (hget : fs.get rel = some node)
    (hc : fs.Childless rel) : (fs.eraseNode rel node).Sound o := by
  refine ⟨?_, h.fresh, ?_⟩
  · intro k n hk hkp
    have hkr : k ≠ rel := by
      rintro rfl
      simp [get, eraseNode] at hk
    have hk' : fs.get k = some n := by
      rw [← hk]
      exact (lookup_erase_ne hkr).symm
    have ⟨i, x, hdir⟩ := h.grounded k n hk' hkp
    refine ⟨i, x, ?_⟩
    rw [← hdir]
    exact lookup_erase_ne (hc k n hk' hkp)
  have := weight_erase nodeCost hget
  have := h.charged
  show fs.quota.used - nodeCost rel node = o + weight nodeCost (fs.nodes.erase rel) + fs.filesCost
  unfold nodesCost at *
  omega

lemma Fs.Sound.removeEntry (h : fs.Sound o) (hc : fs.Childless rel) :
    (fs.removeEntry rel).Sound o := by
  unfold Fs.removeEntry
  split
  · exact h
  next ino hget => exact (h.eraseNode hget hc).dropLink ino
  next hget => exact h.eraseNode hget hc

/-! ### Contents -/

lemma charged_spec {q q1 : Quota} {f : FileData} {len target : Nat} (hlen : f.capacity < len)
    (h : (match q.tryCharge (max len (f.capacity * 2) - f.capacity) with
      | some q => some (max len (f.capacity * 2), q)
      | none => (q.tryCharge (len - f.capacity)).map fun q => (len, q)) = some (target, q1)) :
    q1.used = q.used + (target - f.capacity) ∧ f.capacity ≤ target := by
  split at h
  next q2 hq =>
    cases h
    rw [Quota.tryCharge_eq_some hq]
    exact ⟨rfl, by omega⟩
  have ⟨q2, hq, heq⟩ := map_eq_some_iff.mp h
  cases heq
  rw [Quota.tryCharge_eq_some hq]
  exact ⟨rfl, by omega⟩

lemma growFile_spec (q : Quota) (f : FileData) (len : Nat) (alloc : Option Nat) :
    (∃ e q', growFile q f len alloc = (.error e, q') ∧ q'.used = q.used) ∨
    ∃ c q', growFile q f len alloc = (.ok { f with capacity := c }, q') ∧
      q'.used + f.capacity = q.used + c := by
  unfold growFile
  split
  · exact .inr ⟨f.capacity, q, rfl, rfl⟩
  dsimp only
  split
  · exact .inl ⟨_, _, rfl, rfl⟩
  rename_i target q1 h
  have ⟨hq, hle⟩ := charged_spec (by omega) h
  cases alloc with
  | none =>
    refine .inl ⟨_, _, rfl, ?_⟩
    show q1.used - (target - f.capacity) = q.used
    omega
  | some more =>
    refine .inr ⟨_, _, rfl, ?_⟩
    show q1.used + more + f.capacity = q.used + (target + more)
    omega

lemma Fs.fileOf_ok (h : fs.fileOf rel = .ok (ino, f)) :
    fs.get rel = some (.file ino) ∧ fs.files.lookup ino = some f := by
  unfold fileOf at h
  split at h
  next i hget =>
    split at h
    next g hg =>
      cases h
      exact ⟨hget, hg⟩
    · cases h
  · cases h
  · cases h
  · cases h

lemma Fs.Sound.setUsed (h : fs.Sound o) {q : Quota} (hq : q.used = fs.quota.used) :
    ({ fs with quota := q } : Fs).Sound o :=
  h.of_files rfl h.fresh (hq.trans h.charged)

lemma Fs.Sound.writeAt (h : fs.Sound o) (off : Nat) (buf : List UInt8) (alloc : Option Nat) :
    (fs.writeAt rel off buf alloc).2.Sound o := by
  unfold Fs.writeAt
  split
  · exact h
  rename_i ino f hfile
  have hf := (Fs.fileOf_ok hfile).2
  dsimp only
  split
  · exact h
  split
  · rcases growFile_spec fs.quota f (off + buf.length) alloc with
      ⟨e, q, heq, hq⟩ | ⟨c, q, heq, hq⟩
    · rw [heq]
      exact h.setUsed hq
    rw [heq]
    refine h.setFile hf ?_
    simp only [FileData.cost]
    omega
  · exact h.setFile hf rfl

lemma Fs.Sound.truncate (h : fs.Sound o) (len : Nat) (alloc : Option Nat) (slack : Nat) :
    (fs.truncate rel len alloc slack).2.Sound o := by
  unfold Fs.truncate
  split
  · exact h
  rename_i ino f hfile
  have hf := (Fs.fileOf_ok hfile).2
  split
  · exact h
  rcases growFile_spec fs.quota f len alloc with ⟨e, q, heq, hq⟩ | ⟨c, q, heq, hq⟩
  · rw [heq]
    exact h.setUsed hq
  rw [heq]
  dsimp only
  split
  · -- the buffer shrinks by what is given back, which was charged
    refine h.setFile hf ?_
    have hfc : f.cost ≤ fs.filesCost := le_weight (fun _ (f : FileData) => f.cost) hf
    have := h.charged
    simp only [FileData.cost, Quota.release] at *
    omega
  · refine h.setFile hf ?_
    simp only [FileData.cost]
    omega

/-! ### Extended attributes -/

/-- Writing attributes back changes what they cost and nothing else. -/
structure Fs.Writes (fs : Fs) (x : Xattrs) (put : Xattrs → Fs) : Prop where
  quota : ∀ x', (put x').quota = fs.quota
  cost : ∀ x', (put x').nodesCost + (put x').filesCost + xattrCost x =
    fs.nodesCost + fs.filesCost + xattrCost x'
  fresh : (∀ ino f, fs.files.lookup ino = some f → ino < fs.nextInode) →
    ∀ x' ino f, (put x').files.lookup ino = some f → ino < (put x').nextInode
  grounded : fs.Grounded → ∀ x', (put x').Grounded

lemma Fs.Grounded.insert (h : fs.Grounded) (hget : fs.get rel = some node) {node' : Node}
    (hdir : node.isDir = true → node'.isDir = true) :
    ({ fs with nodes := fs.nodes.insert rel node' } : Fs).Grounded := by
  intro k n hk hkp
  have hk' : ∃ n, fs.get k = some n := by
    by_cases hkr : k = rel
    · exact ⟨node, hkr ▸ hget⟩
    refine ⟨n, ?_⟩
    rw [← hk]
    exact (lookup_insert_ne hkr).symm
  obtain ⟨n', hk'⟩ := hk'
  have ⟨i, x, hp⟩ := h k n' hk' hkp
  by_cases hpr : parentOf k = rel
  · rw [hpr, hget] at hp
    cases hp
    have hd := hdir rfl
    cases node' with
    | dir i' x' => exact ⟨i', x', by rw [hpr]; exact lookup_insert _⟩
    | file _ => cases hd
    | fifo _ _ => cases hd
    | symlink _ _ _ => cases hd
  · refine ⟨i, x, ?_⟩
    rw [← hp]
    exact lookup_insert_ne hpr

lemma writes_node (hget : fs.get rel = some node) (x : Xattrs) (g : Xattrs → Node)
    (hx : ∀ x', nodeCost rel (g x') + xattrCost x = nodeCost rel node + xattrCost x')
    (hdir : ∀ x', node.isDir = true → (g x').isDir = true) :
    fs.Writes x fun x' => { fs with nodes := fs.nodes.insert rel (g x') } where
  quota _ := rfl
  cost x' := by
    have := weight_replace nodeCost hget (g x')
    have := hx x'
    show weight nodeCost (fs.nodes.insert rel (g x')) + fs.filesCost + xattrCost x = _
    unfold nodesCost
    omega
  fresh h _ := h
  grounded h x' := h.insert hget (hdir x')

lemma Fs.xattrsAt_writes {x : Xattrs} {put : Xattrs → Fs} (h : fs.xattrsAt rel = some (x, put)) :
    fs.Writes x put := by
  unfold xattrsAt at h
  split at h
  · cases h
  next ino hget =>
    have ⟨f, hf, heq⟩ := map_eq_some_iff.mp h
    cases heq
    constructor
    · exact fun _ => rfl
    · intro x'
      have := filesCost_insert hf { f with xattrs := x' }
      show fs.nodesCost + weight _ (fs.files.insert ino _) + xattrCost f.xattrs = _
      simp only [FileData.cost] at this ⊢
      omega
    · intro hfresh x' i g hi
      exact lookup_insert_fresh hfresh (hfresh ino f hf) hi
    · exact fun hg _ => hg
  next i y hget =>
    cases h
    refine writes_node hget x (fun x => .dir i x) (fun x' => ?_) (fun _ h => h)
    simp only [nodeCost]
    omega
  next i y hget =>
    cases h
    refine writes_node hget x (fun x => .fifo i x) (fun x' => ?_) (fun _ h => h)
    simp only [nodeCost]
    omega
  rename_i i y t hget
  cases h
  refine writes_node hget x (fun x => .symlink i x t) (fun x' => ?_) (fun _ h => h)
  simp only [nodeCost]
  omega

lemma Fs.Sound.writes (h : fs.Sound o) {x x' : Xattrs} {put : Xattrs → Fs}
    (hw : fs.Writes x put) {q : Quota} (hq : q.used + xattrCost x = fs.quota.used + xattrCost x') :
    ({ put x' with quota := q } : Fs).Sound o where
  grounded := hw.grounded h.grounded x'
  fresh := hw.fresh h.fresh x'
  charged := by
    have := hw.cost x'
    have := h.charged
    show q.used = o + (put x').nodesCost + (put x').filesCost
    omega

lemma Fs.Sound.setxattr (h : fs.Sound o) (name : String) (value : List UInt8) :
    (fs.setxattr rel name value).2.Sound o := by
  unfold Fs.setxattr
  split
  · exact h
  rename_i x put hx
  split
  · exact h
  rename_i q hq
  rw [Quota.tryCharge_eq_some hq]
  refine h.writes (Fs.xattrsAt_writes hx) ?_
  cases hl : x.lookup name with
  | none =>
    have := weight_insert xattrEntry (b := value) (lookup_eq_none.mp hl)
    unfold xattrCost
    dsimp only
    omega
  | some old =>
    have := weight_replace xattrEntry hl value
    have := le_weight xattrEntry hl
    have hle := (Fs.xattrsAt_writes hx).cost ∅
    have := h.charged
    have hzero : xattrCost ∅ = 0 := rfl
    unfold xattrCost at *
    simp only [Quota.release]
    omega

lemma Fs.Sound.removexattr (h : fs.Sound o) (name : String) :
    (fs.removexattr rel name).2.Sound o := by
  unfold Fs.removexattr
  split
  · exact h
  rename_i x put hx
  split
  · exact h
  rename_i old hl
  refine h.writes (Fs.xattrsAt_writes hx) ?_
  have := weight_erase xattrEntry hl
  have hle := (Fs.xattrsAt_writes hx).cost ∅
  have := h.charged
  have hzero : xattrCost ∅ = 0 := rfl
  unfold xattrCost at *
  simp only [Quota.release]
  omega

/-! ### Renaming -/

lemma removeFile_nodes (fs : Fs) (ino : Nat) : (fs.removeFile ino).nodes = fs.nodes := by
  unfold removeFile
  split <;> rfl

lemma dropLink_nodes (fs : Fs) (ino : Nat) : (fs.dropLink ino).nodes = fs.nodes := by
  unfold dropLink
  split
  · rfl
  split
  · exact removeFile_nodes _ ino
  · rfl

lemma erase_eq_self (h : fs.get rel = none) : fs.nodes.erase rel = fs.nodes :=
  ext (kerase_of_notMem_keys (get_eq_none_iff.mp h))

lemma removeEntry_nodes (fs : Fs) (rel : Path) :
    (fs.removeEntry rel).nodes = fs.nodes.erase rel := by
  unfold removeEntry
  split
  next hnone => exact (erase_eq_self hnone).symm
  · exact dropLink_nodes ..
  · rfl

/-- What a rename finds once its target is out of the way. -/
structure Fs.Cleared (fs fs' : Fs) (target : Path) : Prop where
  nodes : fs'.nodes = fs.nodes.erase target
  childless : fs.Childless target
  ne_root : target ≠ []

lemma Fs.replaceTarget_ok (h : fs.Grounded) {sourceIsDir : Bool} {target : Path}
    (hpar : ∃ i x, fs.get (parentOf target) = some (.dir i x))
    (hr : fs.replaceTarget sourceIsDir target = .ok fs') :
    fs.Cleared fs' target ∧ (fs' = fs ∨ fs' = fs.removeEntry target) := by
  unfold replaceTarget at hr
  split at hr
  next hnone =>
    cases hr
    refine ⟨⟨?_, ?_, ?_⟩, .inl rfl⟩
    · exact (erase_eq_self hnone).symm
    · intro k n hk hkp heq
      have ⟨i, x, hdir⟩ := h k n hk hkp
      rw [heq, hnone] at hdir
      cases hdir
    -- the root has itself for a parent
    rintro rfl
    obtain ⟨i, x, hdir⟩ := hpar
    exact absurd (hnone.symm.trans hdir) (by simp)
  rename_i node hget
  split at hr
  · split at hr
    · cases hr
    rename_i hno
    cases hr
    have hno' := any_eq_false.mp (Bool.not_eq_true _ ▸ hno)
    refine ⟨⟨removeEntry_nodes fs target, ?_, ?_⟩, .inr rfl⟩
    · intro k n hk hkp heq
      exact hno' k (mem_keys.mp (mem_of_get hk)) (by simpa using heq)
    · rintro rfl
      exact hno' [] (mem_keys.mp (mem_of_get hget)) rfl
  · cases hr
  · cases hr
  rename_i hnd
  cases hr
  refine ⟨⟨removeEntry_nodes fs target, h.childless_of_not_dir hget hnd, ?_⟩, .inr rfl⟩
  rintro rfl
  obtain ⟨i, x, hdir⟩ := hpar
  cases hget.symm.trans hdir
  cases hnd

variable {source target : Path}

lemma Fs.Grounded.movable (h : fs.Grounded) (source : Path) (htarget : fs.get target = none)
    (hne : target ≠ []) : Assoc.Movable (newKey source target) (fs.movedKeys source) fs.nodes where
  nodup := fs.nodes.keys_nodup.filter _
  mem k hk := (mem_movedKeys hk).1
  inj k hk k' hk' heq := by
    obtain ⟨-, r, rfl, -⟩ := mem_movedKeys hk
    obtain ⟨-, r', rfl, -⟩ := mem_movedKeys hk'
    rw [newKey_append, newKey_append] at heq
    rw [append_cancel_left heq]
  free k hk hin := by
    obtain ⟨-, r, rfl, -⟩ := mem_movedKeys hk
    rw [newKey_append] at hin
    have ⟨n, hget⟩ := exists_get hin
    by_cases hr : r = []
    · rw [hr, append_nil, htarget] at hget
      cases hget
    have ⟨i, x, hdir⟩ := h.dir_above hne r n hr hget
    rw [htarget] at hdir
    cases hdir

lemma foldl_moveKey_nodes (source target : Path) (ks : List Path) :
    ∀ fs : Fs, (ks.foldl (moveKey source target) fs).nodes =
      moveAll (newKey source target) ks fs.nodes := by
  induction ks with
  | nil => exact fun _ => rfl
  | cons k ks ih => exact fun fs => ih _

lemma foldl_moveKey_files (source target : Path) (ks : List Path) :
    ∀ fs : Fs, (ks.foldl (moveKey source target) fs).files = fs.files ∧
      (ks.foldl (moveKey source target) fs).nextInode = fs.nextInode := by
  induction ks with
  | nil => exact fun _ => ⟨rfl, rfl⟩
  | cons k ks ih => exact fun fs => ih _

lemma foldl_moveKey_charged (ks : List Path) : ∀ fs : Fs,
    Assoc.Movable (newKey source target) ks fs.nodes →
    fs.quota.used = o + fs.nodesCost + fs.filesCost →
    (ks.foldl (moveKey source target) fs).quota.used =
      o + (ks.foldl (moveKey source target) fs).nodesCost +
        (ks.foldl (moveKey source target) fs).filesCost := by
  induction ks with
  | nil => exact fun _ _ h => h
  | cons k ks ih =>
    intro fs hm hc
    refine ih _ hm.tail ?_
    obtain ⟨n, hn⟩ := hm.head
    have hw := weight_move nodeCost hn (hm.free k mem_cons_self)
    have hcost : ∀ p : Path, nodeCost p n = Path.len p + nodeCost [] n := by
      intro p
      simp only [nodeCost, Path.len, map_nil, sum_nil, length_nil]
      omega
    have := hcost k
    have := hcost (newKey source target k)
    show fs.quota.used + Path.len (newKey source target k) - Path.len k =
      o + weight nodeCost (move (newKey source target) fs.nodes k) + fs.filesCost
    unfold nodesCost at hc
    omega

lemma Fs.Cleared.get {fs1 : Fs} (h : fs.Cleared fs1 target) {p : Path} (hp : p ≠ target) :
    fs1.get p = fs.get p := by
  unfold Fs.get
  rw [h.nodes]
  exact lookup_erase_ne hp

lemma Fs.Cleared.get_target {fs1 : Fs} (h : fs.Cleared fs1 target) : fs1.get target = none := by
  unfold Fs.get
  rw [h.nodes]
  exact lookup_erase ..

lemma eq_parentOf_append {k : Path} (h : k ≠ []) : ∃ a, k = parentOf k ++ [a] :=
  ⟨k.getLast h, (dropLast_append_getLast h).symm⟩

structure Fs.MayMove (fs : Fs) (source target : Path) (node : Node) : Prop where
  found : fs.get source = some node
  below : node.isDir = true → Tmpfs.below source target = false
  parent : ∃ i x, fs.get (parentOf target) = some (.dir i x)

lemma Fs.MayMove.parent_stays (hm : fs.MayMove source target node) (h : fs.Grounded)
    (ht : target ≠ []) (hp : parentOf target ≠ []) {r : Path} :
    parentOf target = source ++ r → (source = [] → r = []) → False := by
  intro hr hroot
  have hs : source ≠ [] := by
    intro hs
    rw [hs, hroot hs] at hr
    exact hp hr
  have ⟨a, ha⟩ := eq_parentOf_append ht
  have hbelow : Tmpfs.below source target = true := by
    rw [ha, hr]
    simp [Tmpfs.below, hs]
  -- the source is not a directory, but a name stands in it
  have hnd : ∃ i x, fs.get source = some (.dir i x) := by
    obtain ⟨i, x, hdir⟩ := hm.parent
    by_cases hr0 : r = []
    · rw [hr, hr0, append_nil] at hdir
      exact ⟨i, x, hdir⟩
    · rw [hr] at hdir
      exact h.dir_above hs r _ hr0 hdir
  obtain ⟨i, x, hdir⟩ := hnd
  cases hm.found.symm.trans hdir
  rw [hm.below rfl] at hbelow
  cases hbelow

section Renamed

variable {fs₁ : Fs}

abbrev Fs.movedNodes (fs : Fs) (source target : Path) : Assoc Path Node :=
  Assoc.moveAll (Fs.newKey source target) (fs.movedKeys source) fs.nodes

lemma Fs.MayMove.target_dir (hm : fs.MayMove source target node) (h : fs.Grounded)
    (hcl : fs.Cleared fs1 target) (h1 : fs1.Grounded) (hkp : parentOf target ≠ []) :
    ∃ i x, (fs1.movedNodes source target).lookup (parentOf target) = some (.dir i x) := by
  have hmov := h1.movable source hcl.get_target hcl.ne_root
  obtain ⟨i, x, hdir⟩ := hm.parent
  have hlen : (parentOf target).length < target.length := by
    rw [parentOf, length_dropLast]
    have := length_pos_iff.mpr hcl.ne_root
    omega
  refine ⟨i, x, ?_⟩
  rw [hmov.lookup_other]
  · refine (hcl.get ?_).trans hdir
    intro heq
    rw [heq] at hlen
    exact lt_irrefl _ hlen
  · intro hpm
    obtain ⟨-, r', hr', hroot'⟩ := mem_movedKeys hpm
    exact hm.parent_stays h hcl.ne_root hkp hr' hroot'
  intro k' hk' heq
  obtain ⟨-, r', rfl, -⟩ := mem_movedKeys hk'
  rw [newKey_append] at heq
  rw [← heq, length_append] at hlen
  omega

lemma Fs.Grounded.moved_dir (h1 : fs1.Grounded) (hcl : fs.Cleared fs1 target) {r : Path}
    (hin : source ++ r ∈ fs1.nodes) (hs : source ≠ []) (hr : r ≠ []) :
    ∃ i x, (fs1.movedNodes source target).lookup (parentOf (target ++ r)) = some (.dir i x) := by
  have hmov := h1.movable source hcl.get_target hcl.ne_root
  have hpar : ∀ p : Path, parentOf (p ++ r) = p ++ r.dropLast := fun p =>
    dropLast_append_of_ne_nil hr
  have ⟨n0, hn0⟩ := exists_get hin
  have ⟨i, x, hdir⟩ := h1 _ n0 hn0 (by rw [hpar]; simp [hs])
  rw [hpar] at hdir
  refine ⟨i, x, ?_⟩
  rw [hpar, ← newKey_append source, hmov.lookup_target
    (mem_movedKeys_append hs (mem_of_get hdir))]
  exact hdir

lemma Fs.Grounded.stayed_dir (h1 : fs1.Grounded) (hcl : fs.Cleared fs1 target) {k : Path}
    {n : Node} (hkm : k ∉ fs1.movedKeys source) (hk : fs1.get k = some n) (hkp : parentOf k ≠ []) :
    ∃ i x, (fs1.movedNodes source target).lookup (parentOf k) = some (.dir i x) := by
  have hmov := h1.movable source hcl.get_target hcl.ne_root
  have ⟨i, x, hdir⟩ := h1 k n hk hkp
  refine ⟨i, x, ?_⟩
  rw [hmov.lookup_other]
  · exact hdir
  · intro hpm
    obtain ⟨-, r, hr, hroot⟩ := mem_movedKeys hpm
    have hs : source ≠ [] := by
      intro hs
      rw [hs, hroot hs] at hr
      exact hkp hr
    have hk0 : k ≠ [] := by
      rintro rfl
      exact hkp rfl
    have ⟨a, ha⟩ := eq_parentOf_append hk0
    rw [hr, append_assoc] at ha
    exact hkm (ha ▸ mem_movedKeys_append hs (ha ▸ mem_of_get hk))
  · intro k' hk' heq
    exact hmov.free k' hk' (heq ▸ mem_of_get hdir)

lemma Fs.Grounded.renamed (h : fs.Grounded) (hm : fs.MayMove source target node)
    (hcl : fs.Cleared fs1 target) (h1 : fs1.Grounded) :
    ((fs1.movedKeys source).foldl (moveKey source target) fs1).Grounded := by
  have hmov := h1.movable source hcl.get_target hcl.ne_root
  intro k n hk hkp
  unfold get at hk ⊢
  rw [foldl_moveKey_nodes] at hk ⊢
  by_cases hkt : ∃ k0 ∈ fs1.movedKeys source, newKey source target k0 = k
  · obtain ⟨k0, hk0, rfl⟩ := hkt
    obtain ⟨hin, r, rfl, hroot⟩ := mem_movedKeys hk0
    rw [newKey_append] at hkp ⊢
    by_cases hr : r = []
    · rw [hr, append_nil] at hkp ⊢
      exact hm.target_dir h hcl h1 hkp
    · exact h1.moved_dir hcl hin (fun hs => hr (hroot hs)) hr
  push Not at hkt
  have hkm : k ∉ fs1.movedKeys source := by
    intro hkm
    rw [hmov.lookup_source hkm] at hk
    cases hk
  rw [hmov.lookup_other hkm hkt] at hk
  exact h1.stayed_dir hcl hkm hk hkp

end Renamed

lemma Fs.rename_cases (fs : Fs) (source target : Path) :
    (fs.rename source target).2 = fs ∧ ((fs.rename source target).1 = .ok () →
      source = target ∨ fs.sameFile source target = true) ∨
    ∃ node fs1, fs.MayMove source target node ∧ source ≠ target ∧
      fs.replaceTarget node.isDir target = .ok fs1 ∧ fs.rename source target =
        (.ok (), (fs1.movedKeys source).foldl (moveKey source target) fs1) := by
  unfold rename
  split
  next heq => split <;> exact .inl ⟨rfl, fun _ => .inl heq⟩
  rename_i hne
  split
  · exact .inl ⟨rfl, nofun⟩
  rename_i node hget
  split
  next hsame => exact .inl ⟨rfl, fun _ => .inr hsame⟩
  split
  · exact .inl ⟨rfl, nofun⟩
  rename_i hbelow
  split
  · exact .inl ⟨rfl, nofun⟩
  rename_i hpar
  split
  · exact .inl ⟨rfl, nofun⟩
  rename_i fs1 hr
  refine .inr ⟨node, fs1, ⟨hget, ?_, requireParent_ok hpar⟩, hne, hr, rfl⟩
  intro hd
  exact Bool.not_eq_true _ ▸ fun hb => hbelow ⟨hd, hb⟩

section

variable (h : fs.Sound o)
include h

lemma Fs.Sound.rename (source target : Path) :
    (fs.rename source target).2.Sound o := by
  rcases fs.rename_cases source target with ⟨heq, -⟩ | ⟨node, fs1, hm, -, hr, heq⟩
  · rw [heq]
    exact h
  rw [heq]
  have ⟨hcl, hfs1⟩ := replaceTarget_ok h.grounded hm.parent hr
  have h1 : fs1.Sound o := by
    rcases hfs1 with rfl | rfl
    · exact h
    · exact h.removeEntry hcl.childless
  have ⟨hfiles, hnext⟩ := foldl_moveKey_files source target (fs1.movedKeys source) fs1
  refine ⟨h.grounded.renamed hm hcl h1.grounded, ?_, ?_⟩
  · rw [hfiles, hnext]
    exact h1.fresh
  · exact foldl_moveKey_charged _ fs1
      (h1.grounded.movable source hcl.get_target hcl.ne_root) h1.charged

/-! ### A call -/

lemma Fs.Sound.create (rel : Path) : (fs.create rel).2.Sound o := by
  unfold Fs.create
  split
  · exact h
  rename_i hnew
  have ⟨hget, hpar⟩ := Fs.checkNew_ok hnew
  have hins := h.newFile.insertNode (show fs.newFile.2.get rel = none from hget) hpar
    (.file fs.nextInode)
  dsimp only [Fs.newFile] at hins ⊢
  split
  next heq =>
    rw [heq] at hins
    exact hins.removeFile _
  rename_i heq
  rw [heq] at hins
  exact hins

lemma Fs.Sound.link (old new : Path) : (fs.link old new).2.Sound o := by
  unfold Fs.link
  split
  next ino hold =>
    split
    · exact h
    rename_i hnew
    have ⟨hget, hpar⟩ := Fs.checkNew_ok hnew
    have hins := h.insertNode hget hpar (.file ino)
    split
    next heq =>
      rw [heq] at hins
      exact hins
    rename_i heq
    rw [heq] at hins
    exact hins.addLink ino
  · exact h
  · exact h
  · exact h

lemma Fs.Sound.make (hnew : fs.checkNew rel = .ok ()) (node : Node) :
    (fs.newMeta.2.insertNode rel node).2.Sound o := by
  have ⟨hget, hpar⟩ := checkNew_ok hnew
  exact h.newMeta.insertNode hget hpar node

lemma Fs.Sound.perform (op : Op) : (fs.perform op).Sound o := by
  cases op with
  | create rel => exact h.create rel
  | mkdir rel =>
    simp only [Fs.perform, Fs.mkdir]
    split
    · exact h
    rename_i hnew
    exact h.make hnew _
  | mknod rel mode =>
    simp only [Fs.perform, Fs.mknod]
    split
    · exact h
    · exact h.create rel
    split
    · exact h
    rename_i hnew
    exact h.make hnew _
  | symlink target rel =>
    simp only [Fs.perform, Fs.symlink]
    split
    · exact h
    rename_i hnew
    exact h.make hnew _
  | link old new => exact h.link old new
  | unlink rel =>
    simp only [Fs.perform, Fs.unlink]
    split
    · exact h
    split
    · exact h
    next node hnd hget =>
      refine h.removeEntry (h.grounded.childless_of_not_dir hget ?_)
      cases node with
      | dir i x => exact absurd rfl (hnd i x)
      | file i => rfl
      | fifo i x => rfl
      | symlink i x t => rfl
    · exact h
  | rmdir rel =>
    simp only [Fs.perform, Fs.rmdir]
    split
    · exact h
    split
    · split
      · exact h
      rename_i hno
      exact h.removeEntry (Fs.childless_of_keys (Bool.not_eq_true _ ▸ hno))
    · exact h
    · exact h
  | writeAt rel off buf alloc => exact h.writeAt off buf alloc
  | truncate rel len alloc slack => exact h.truncate len alloc slack
  | setxattr rel name value => exact h.setxattr name value
  | removexattr rel name => exact h.removexattr name
  | rename source target => exact h.rename source target

end

/-! ### A run -/

lemma Fs.Sound.init (quota : Quota) : (Mounted.init quota).fs.Sound quota.used where
  grounded k n hk hkp := by
    by_cases hk0 : k = []
    · subst hk0
      exact absurd rfl hkp
    have : (Mounted.init quota).fs.get k = none := lookup_insert_ne hk0
    rw [this] at hk
    cases hk
  fresh ino f hf := by cases hf
  charged := rfl

lemma Mounted.step_sound {m m' : Mounted} {e : Event} (h : m.fs.Sound m.others)
    (hs : m.step e = some m') : m'.fs.Sound m'.others := by
  cases e with
  | call op =>
    cases hs
    exact h.perform op
  | outside used limit =>
    cases hs
    refine ⟨h.grounded, h.fresh, ?_⟩
    have := h.charged
    show m.fs.quota.used - m.others + used = used + m.fs.nodesCost + m.fs.filesCost
    omega
  | attach quota =>
    cases hs
    exact ⟨h.grounded, h.fresh, rfl⟩

lemma Mounted.Reach.sound {m : Mounted} {can : Mounted → Event → Prop} (h : m.Reach can) :
    m.fs.Sound m.others := by
  obtain ⟨quota, h⟩ := h
  exact Run.Reach.invariant (P := fun m => m.fs.Sound m.others) h (Fs.Sound.init quota)
    fun _ _ _ hi _ hs => Mounted.step_sound hi hs

lemma Fs.Sound.drop_used (h : fs.Sound o) : fs.drop.used = o + fs.nodesCost := by
  have := h.charged
  show fs.quota.used - fs.filesCost = o + fs.nodesCost
  omega

lemma nodesCost_eq_zero : fs.nodesCost = 0 ↔ fs.nodes = ∅ := by
  constructor
  · intro h
    refine AList.ext (List.eq_nil_iff_forall_not_mem.mpr fun e he => ?_)
    have hle := Assoc.le_weight nodeCost (AList.mem_lookup_iff.mpr he)
    have hpos : 0 < nodeCost e.1 e.2 := by
      simp only [nodeCost, nodeOverhead]
      omega
    exact absurd (hle.trans_eq h) (not_le.mpr hpos)
  · intro h
    rw [Fs.nodesCost, h]
    rfl

/-- **The quota is exact.** In every run it is charged for nodes and files and nothing else;
dropping gives it all back exactly if no node is left. -/
theorem Mounted.quota_exact (m : Mounted) (h : m.Reach fun _ _ => True) :
    m.fs.quota.used = m.others + (Assoc.weight nodeCost m.fs.nodes +
      Assoc.weight (fun _ f => f.cost) m.fs.files) ∧
    (m.fs.drop.used = m.others ↔ m.fs.nodes = ∅) := by
  have hsound := h.sound
  constructor
  · rw [hsound.charged, add_assoc]
    rfl
  · rw [hsound.drop_used, Nat.add_eq_left, nodesCost_eq_zero]

/-- A file is written and removed, and the root after it. -/
theorem Mounted.quota_exact_emptied : ∃ m : Mounted, (m.Reach fun _ _ => True) ∧
    m.fs.nodes = ∅ ∧ m.others = 7 ∧ m.fs.drop.used = 7 := by
  have hreach : ∃ m, Run.exec Mounted.step [.call (.create ["f"]),
      .call (.writeAt ["f"] 0 [1, 2] (some 8)), .call (.unlink ["f"]), .call (.rmdir [])]
      (Mounted.init ⟨10000, 7⟩) = some m ∧ m.fs.nodes = ∅ ∧ m.others = 7 := ⟨_, rfl, rfl, rfl⟩
  obtain ⟨m, hm, hempty, hothers⟩ := hreach
  have hr : m.Reach fun _ _ => True := ⟨_, .of_exec_free _ hm⟩
  exact ⟨m, hr, hempty, hothers, ((Mounted.quota_exact m hr).2.mpr hempty).trans hothers⟩

/-- Otherwise the charge of the nodes stays behind: that of the root already. -/
theorem Mounted.dropped_nodes_charged : ∃ m : Mounted, (m.Reach fun _ _ => True) ∧
    m.others = 0 ∧ m.fs.drop.used = 256 :=
  ⟨Mounted.init ⟨1000, 0⟩, ⟨_, .refl⟩, rfl, rfl⟩

end NixVm.Tmpfs
