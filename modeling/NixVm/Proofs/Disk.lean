/-
The charge for a mapped host directory is what it holds, for calls that leave nothing behind
unseen.

Each call charges before it asks the host, gives back what did not come about, and misses what the
host's answer does not say.
-/
import NixVm.Fs.Disk

namespace NixVm.Disk

open Option Host AList

variable {at? : Except Errno Loc}

/-- The cost of the entries and of the regular files, each inode once. -/
def Host.cost (h : Host) : Nat :=
  entryCost * h.entries.keys.length + Assoc.weight (fun _ n => n.len) h.inodes

@[simp]
lemma Inode.len_file (len : Nat) : (Inode.file len).len = len := rfl

def Host.Fresh (h : Host) : Prop := ∀ ino n, h.inodes.lookup ino = some n → ino < h.next

variable {h h' : Host} {loc : Loc} {ino : Nat} {n : Inode}

lemma Host.node_eq_some (hn : h.node loc = some (ino, n)) :
    h.entries.lookup loc = some ino ∧ h.inodes.lookup ino = some n := by
  have ⟨i, hi, hn⟩ := bind_eq_some_iff.mp hn
  have ⟨m, hm, heq⟩ := map_eq_some_iff.mp hn
  cases heq
  exact ⟨hi, hm⟩

lemma Host.Fresh.next_free (hf : h.Fresh) : h.next ∉ h.inodes := by
  intro hin
  have ⟨n, hn⟩ := isSome_iff_exists.mp (lookup_isSome.mpr hin)
  exact Nat.lt_irrefl _ (hf _ n hn)

lemma length_insert (hl : h.entries.lookup loc = none) (ino : Nat) :
    (h.entries.insert loc ino).keys.length = h.entries.keys.length + 1 := by
  have hmem := lookup_eq_none.mp hl
  rw [keys_insert, List.erase_of_not_mem (fun hin => hmem (mem_keys.mpr hin))]
  rfl

lemma length_erase (hl : h.entries.lookup loc = some ino) :
    (h.entries.erase loc).keys.length + 1 = h.entries.keys.length := by
  have hmem : loc ∈ h.entries.keys := mem_keys.mp (lookup_isSome.mp (by rw [hl]; rfl))
  rw [keys_erase, List.length_erase_of_mem hmem]
  have := List.length_pos_of_mem hmem
  omega

lemma Host.cost_add (hf : h.Fresh) (hl : h.entries.lookup loc = none) (n : Inode) :
    (h.add loc n).cost = h.cost + entryCost + n.len := by
  have hlen := length_insert hl h.next
  have hw := Assoc.weight_insert (fun _ (n : Inode) => n.len) (b := n) hf.next_free
  simp only [cost, add, hlen, hw, entryCost]
  omega

lemma Host.Fresh.add (hf : h.Fresh) (loc : Loc) (n : Inode) : (h.add loc n).Fresh := by
  intro i m hi
  by_cases heq : i = h.next
  · rw [heq]
    exact Nat.lt_succ_self _
  refine Nat.lt_succ_of_lt (hf i m ?_)
  rw [← hi]
  exact (lookup_insert_ne heq).symm

lemma Host.cost_setLen (hl : h.inodes.lookup ino = some n) (len : Nat) :
    (h.setLen ino len).cost + n.len = h.cost + len := by
  have hw := Assoc.weight_replace (fun _ (n : Inode) => n.len) hl (.file len)
  rw [Inode.len_file] at hw
  simp only [cost, setLen]
  omega

lemma Host.Fresh.setLen (hf : h.Fresh) (hl : h.inodes.lookup ino = some n) (len : Nat) :
    (h.setLen ino len).Fresh := by
  intro i m hi
  by_cases heq : i = ino
  · exact heq ▸ hf ino n hl
  refine hf i m ?_
  rw [← hi]
  exact (lookup_insert_ne heq).symm

lemma Host.cost_remove (hn : h.node loc = some (ino, n)) :
    (h.remove loc ino).cost + entryCost + (if h.nlink ino = 1 then n.len else 0) = h.cost := by
  have ⟨hl, hi⟩ := node_eq_some hn
  have hlen := length_erase hl
  have hw := Assoc.weight_erase (fun _ (n : Inode) => n.len) hi
  simp only [cost, remove, entryCost]
  split <;> omega

lemma Host.Fresh.remove (hf : h.Fresh) (loc : Loc) (ino : Nat) : (h.remove loc ino).Fresh := by
  intro i m hi
  simp only [Host.remove] at hi
  split at hi
  · by_cases heq : i = ino
    · rw [heq, lookup_erase] at hi
      cases hi
    · rw [lookup_erase_ne heq] at hi
      exact hf i m hi
  · exact hf i m hi

lemma Host.cost_moveEntry {source target : Loc} (hs : h.entries.lookup source = some ino)
    (ht : h.entries.lookup target = none) : (h.moveEntry source target ino).cost = h.cost := by
  have hne : target ≠ source := by
    rintro rfl
    rw [hs] at ht
    cases ht
  have herase := length_erase hs
  have hfree : (h.entries.erase source).lookup target = none := (lookup_erase_ne hne).trans ht
  have hinsert := length_insert (h := { h with entries := h.entries.erase source }) hfree ino
  simp only [cost, moveEntry] at hinsert ⊢
  rw [hinsert, herase]

structure Passthrough.Balanced (p : Passthrough) : Prop where
  charged : p.disk.used = p.host.cost
  fresh : p.host.Fresh

variable {p p' : Passthrough} {low : Bool} {refused late : Option Errno}

lemma Passthrough.chargeDisk_spec (p : Passthrough) (bytes : Nat) (low : Bool) :
    (p.chargeDisk bytes low).2.host = p.host ∧ (p.chargeDisk bytes low).2.disk.used =
      p.disk.used + if (p.chargeDisk bytes low).1 then bytes else 0 := by
  unfold Passthrough.chargeDisk
  split
  · exact ⟨rfl, rfl⟩
  rename_i q hq
  rw [Quota.tryCharge_eq_some hq]
  dsimp only
  split
  · exact ⟨rfl, rfl⟩
  split
  · refine ⟨rfl, ?_⟩
    show p.disk.used + bytes - bytes = p.disk.used
    omega
  · exact ⟨rfl, rfl⟩

/-- An entry is made where the call goes through, and nothing is where it does not. -/
def Counted (make : Host → Except Errno Unit × Host) (h : Host) : Prop :=
  match make h with
  | (.ok _, h') => h'.cost = h.cost + entryCost ∧ h'.Fresh
  | (.error _, h') => h' = h

lemma Passthrough.Balanced.withEntryCharge (hb : p.Balanced)
    {make : Host → Except Errno Unit × Host} (hm : Counted make p.host) :
    (p.withEntryCharge low make).2.Balanced := by
  unfold Passthrough.withEntryCharge
  split
  · exact hb
  have ⟨hhost, hused⟩ := p.chargeDisk_spec entryCost low
  split
  next p1 heq =>
    rw [heq] at hhost hused
    exact ⟨by rw [hused, hhost]; exact hb.charged, by rw [hhost]; exact hb.fresh⟩
  rename_i p1 heq
  rw [heq] at hhost hused
  dsimp only at hhost hused
  rw [if_pos rfl] at hused
  have := hb.charged
  rw [hhost]
  unfold Counted at hm
  split
  next e h1 hmake =>
    rw [hmake] at hm
    dsimp only at hm
    refine ⟨?_, by rw [hm]; exact hb.fresh⟩
    show p1.disk.used - entryCost = h1.cost
    rw [hm]
    omega
  next h1 hmake =>
    rw [hmake] at hm
    dsimp only at hm
    refine ⟨?_, hm.2⟩
    show p1.disk.used = h1.cost
    omega

lemma counted_makeEntry {α : Type} {at? : Except Errno α} {make : Host → α → Except Errno Host}
    (hm : ∀ l h', at? = .ok l → refused = none → make h l = .ok h' →
      h'.cost = h.cost + entryCost ∧ h'.Fresh ∧ late = none) :
    Counted (Passthrough.makeEntry at? refused make late) h := by
  unfold Counted Passthrough.makeEntry
  cases at? with
  | error e => rfl
  | ok l =>
    cases refused with
    | some e => rfl
    | none =>
      dsimp only
      cases hmake : make h l with
      | error e => rfl
      | ok h1 =>
        obtain ⟨hcost, hfresh, rfl⟩ := hm l h1 rfl rfl hmake
        exact ⟨hcost, hfresh⟩

lemma Host.make_ok (hf : h.Fresh) (hm : h.make n loc = .ok h') :
    h.entries.lookup loc = none ∧ h'.cost = h.cost + entryCost + n.len ∧ h'.Fresh := by
  unfold make at hm
  split at hm
  · cases hm
  rename_i hnone
  cases hm
  have hnone := not_isSome_iff_eq_none.mp hnone
  exact ⟨hnone, cost_add hf hnone n, hf.add loc n⟩

/-- The host holds afterwards what the call thinks it does. -/
def Passthrough.Seen (p : Passthrough) : Op → Prop
  | .create loc refused late _ => ∀ l, loc = .ok l → refused = none →
      (p.host.entries.lookup l = none ∧ late = none) ∨
      ∃ ino, p.host.node l = some (ino, .dir) ∨ p.host.node l = some (ino, .symlink)
  | .mkdir loc refused late _ => ∀ l, loc = .ok l → refused = none →
      p.host.entries.lookup l = none → late = none
  | .writeAt loc refused off len answer _ => ∀ l ino size written, loc = .ok l → refused = none →
      p.host.node l = some (ino, .file size) → answer = .ok written →
      0 < min written len ∨ off + len ≤ size
  | .unlink loc readable refused => ∀ l ino len, loc = .ok l → refused = none →
      p.host.node l = some (ino, .file len) → p.host.nlink ino = 1 → readable = true ∨ len = 0
  | .rename locs refused => ∀ l, locs = .ok l → refused = none →
      p.host.entries.lookup l.2 = none ∨
      p.host.entries.lookup l.1 = p.host.entries.lookup l.2
  | _ => True

lemma Passthrough.openFile_ok {size : Nat} (ho : p.openFile at? refused = .ok (ino, size)) :
    ∃ l, at? = .ok l ∧ refused = none ∧ p.host.node l = some (ino, .file size) := by
  unfold Passthrough.openFile at ho
  split at ho
  · cases ho
  · cases ho
  rename_i l
  split at ho
  · cases ho
  next hn =>
    cases ho
    exact ⟨l, rfl, rfl, hn⟩
  · cases ho
  · cases ho
  · cases ho

section

variable (hb : p.Balanced)
include hb

lemma Passthrough.Balanced.uncharged {bytes : Nat}
    (hc : p.chargeDisk bytes low = (false, p')) : p'.Balanced := by
  have ⟨hhost, hused⟩ := p.chargeDisk_spec bytes low
  rw [hc] at hhost hused
  exact ⟨by rw [hused, hhost]; exact hb.charged, by rw [hhost]; exact hb.fresh⟩

lemma Passthrough.Balanced.resized {bytes size : Nat} {q : Quota}
    (hc : p.chargeDisk bytes low = (true, p'))
    (hi : p.host.inodes.lookup ino = some (.file size)) {len : Nat}
    (hq : p'.disk.used = p.disk.used + bytes → q.used + size = p.disk.used + len) :
    ({ p' with host := p'.host.setLen ino len, disk := q } : Passthrough).Balanced := by
  have ⟨hhost, hused⟩ := p.chargeDisk_spec bytes low
  rw [hc] at hhost hused
  rw [if_pos rfl] at hused
  have hq := hq hused
  have hcost := cost_setLen hi len
  rw [Inode.len_file] at hcost
  have := hb.charged
  refine ⟨?_, ?_⟩
  · show q.used = (p'.host.setLen ino len).cost
    rw [hhost]
    omega
  rw [hhost]
  exact hb.fresh.setLen hi len

lemma Passthrough.Balanced.undone {bytes : Nat} (hc : p.chargeDisk bytes low = (true, p')) :
    ({ p' with disk := p'.disk.release bytes } : Passthrough).Balanced := by
  have ⟨hhost, hused⟩ := p.chargeDisk_spec bytes low
  rw [hc] at hhost hused
  dsimp only at hhost hused
  rw [if_pos rfl] at hused
  have := hb.charged
  refine ⟨?_, by rw [hhost]; exact hb.fresh⟩
  show p'.disk.used - bytes = p'.host.cost
  rw [hhost]
  omega

lemma Passthrough.Balanced.create (hs : p.Seen (.create at? refused late low)) :
    (p.create at? refused late low).2.Balanced := by
  refine hb.withEntryCharge (counted_makeEntry ?_)
  intro l h' hat href hmake
  unfold openCreate at hmake
  rcases hs l hat href with ⟨hnone, hlate⟩ | ⟨i, hd | hd⟩
  · have hnode : p.host.node l = none := by
      unfold node
      rw [hnone]
      rfl
    rw [hnode, hnone] at hmake
    cases hmake
    exact ⟨cost_add hb.fresh hnone _, hb.fresh.add _ _, hlate⟩
  · rw [hd] at hmake
    cases hmake
  · rw [hd] at hmake
    cases hmake

lemma Passthrough.Balanced.link {at? : Except Errno (Loc × Loc)} :
    (p.link at? refused low).2.Balanced := by
  refine hb.withEntryCharge (counted_makeEntry ?_)
  intro l h' _ _ hmake
  unfold linkat at hmake
  split at hmake
  · cases hmake
  · cases hmake
  rename_i ino n _ hn
  split at hmake
  · cases hmake
  rename_i hnone
  cases hmake
  have hlen := length_insert (not_isSome_iff_eq_none.mp hnone) ino
  refine ⟨?_, hb.fresh, rfl⟩
  simp only [cost, hlen, entryCost]
  omega

lemma Passthrough.Balanced.writeAt {off len : Nat}
    {answer : Except Errno Nat} (hs : p.Seen (.writeAt at? refused off len answer low)) :
    (p.writeAt at? refused off len answer low).2.Balanced := by
  unfold Passthrough.writeAt
  split
  · exact hb
  split
  · exact hb
  rename_i ino size ho
  have ⟨l, hat, href, hn⟩ := Passthrough.openFile_ok ho
  dsimp only
  split
  next hc => exact hb.uncharged hc
  rename_i p1 hc
  cases answer with
  | error e => exact hb.undone hc
  | ok written =>
    dsimp only
    split
    · exact hb.undone hc
    -- the file ends where the bytes written do, or where it ended before
    rename_i hoff
    have hw := hs l ino size written hat href hn rfl
    have hle : min written len ≤ len := Nat.min_le_right _ _
    refine hb.resized hc (node_eq_some hn).2 ?_
    intro hused
    simp only [Quota.release, u64Max, maxOffset] at *
    split <;> omega

lemma Passthrough.Balanced.truncate {len : Nat}
    {fails : Option Errno} : (p.truncate at? refused len fails low).2.Balanced := by
  unfold Passthrough.truncate
  split
  · exact hb
  split
  · exact hb
  rename_i ino size ho
  obtain ⟨l, -, -, hn⟩ := Passthrough.openFile_ok ho
  split
  next hc => exact hb.uncharged hc
  rename_i p1 hc
  cases fails with
  | some e => exact hb.undone hc
  | none =>
    have hi := (node_eq_some hn).2
    refine hb.resized hc hi ?_
    intro hused
    have hle : size ≤ p.host.cost := by
      have := Assoc.le_weight (fun _ (n : Inode) => n.len) hi
      rw [Inode.len_file] at this
      unfold cost
      omega
    have := hb.charged
    simp only [Quota.release]
    omega

lemma Passthrough.Balanced.unlink {readable : Bool} (hs : p.Seen (.unlink at? readable refused)) :
    (p.unlink at? readable refused).2.Balanced := by
  unfold Passthrough.unlink
  split
  · exact hb
  split
  · exact hb
  · exact hb
  rename_i l
  split
  · exact hb
  rename_i h1 hu
  unfold unlinkat at hu
  split at hu
  · cases hu
  · cases hu
  rename_i ino n hnd hn
  cases hu
  have hcost := cost_remove hn
  refine ⟨?_, hb.fresh.remove l ino⟩
  -- what is freed is the data that goes with the name
  have hfreed : Passthrough.freed p.host l readable = if p.host.nlink ino = 1 then n.len else 0 := by
    unfold Passthrough.freed
    rw [hn]
    cases n with
    | file len =>
      by_cases hlast : p.host.nlink ino = 1
      · rcases hs l ino len rfl rfl hn hlast with hr | hr <;> simp [hlast, hr, Inode.len]
      · simp [hlast]
    | dir => simp [Inode.len]
    | symlink => simp [Inode.len]
    | special => simp [Inode.len]
  have := hb.charged
  show p.disk.used - (Passthrough.freed p.host l readable + entryCost) = (p.host.remove l ino).cost
  rw [hfreed]
  omega

lemma Passthrough.Balanced.rmdir : (p.rmdir at? refused).2.Balanced := by
  unfold Passthrough.rmdir
  split
  · exact hb
  split
  · exact hb
  · exact hb
  rename_i l
  split
  · exact hb
  rename_i h1 hu
  unfold rmdirat at hu
  split at hu
  · cases hu
  next ino hn =>
    split at hu
    · cases hu
      have hcost := cost_remove hn
      have := hb.charged
      refine ⟨?_, hb.fresh.remove l ino⟩
      show p.disk.used - entryCost = (p.host.remove l ino).cost
      simp only [Inode.len, ite_self] at hcost
      omega
    · cases hu
  · cases hu

lemma Passthrough.Balanced.rename {at? : Except Errno (Loc × Loc)}
    (hs : p.Seen (.rename at? refused)) : (p.rename at? refused).2.Balanced := by
  unfold Passthrough.rename
  split
  · exact hb
  split
  · exact hb
  · exact hb
  rename_i l
  split
  · exact hb
  rename_i h1 hr
  have hsrc := hs l rfl rfl
  unfold renameat at hr
  split at hr
  · cases hr
  next ino n hns hnt =>
    split at hr
    · cases hr
    rename_i hnone
    cases hr
    refine ⟨?_, hb.fresh⟩
    show p.disk.used = (p.host.moveEntry l.1 l.2 ino).cost
    rw [cost_moveEntry (node_eq_some hns).1 (not_isSome_iff_eq_none.mp hnone)]
    exact hb.charged
  rename_i ino n ino' n' hns hnt
  -- the target leads somewhere, so it is the same inode and nothing happens
  have hsame : ino = ino' := by
    rw [(node_eq_some hns).1, (node_eq_some hnt).1] at hsrc
    rcases hsrc with hsrc | hsrc
    · cases hsrc
    · exact Option.some.inj hsrc
  rw [if_pos hsame] at hr
  cases hr
  exact hb

lemma Passthrough.step_balanced {op : Op} (hs : p.Seen op)
    (hstep : p.step op = some p') : p'.Balanced := by
  cases op with
  | create loc refused late low => cases hstep; exact hb.create hs
  | mkdir loc refused late low =>
    cases hstep
    refine hb.withEntryCharge (counted_makeEntry ?_)
    intro l h' hat href hmake
    have ⟨hnone, hcost, hfresh⟩ := make_ok hb.fresh hmake
    exact ⟨hcost, hfresh, hs l hat href hnone⟩
  | mknod loc regular refused low =>
    cases hstep
    refine hb.withEntryCharge (counted_makeEntry ?_)
    intro l h' hat href hmake
    have ⟨hnone, hcost, hfresh⟩ := make_ok hb.fresh hmake
    refine ⟨hcost.trans ?_, hfresh, rfl⟩
    cases regular <;> rfl
  | symlink loc refused low =>
    cases hstep
    refine hb.withEntryCharge (counted_makeEntry ?_)
    intro l h' hat href hmake
    have ⟨hnone, hcost, hfresh⟩ := make_ok hb.fresh hmake
    exact ⟨hcost, hfresh, rfl⟩
  | link locs refused low => cases hstep; exact hb.link
  | writeAt loc refused off len answer low => cases hstep; exact hb.writeAt hs
  | truncate loc refused len fails low => cases hstep; exact hb.truncate
  | unlink loc readable refused => cases hstep; exact hb.unlink hs
  | rmdir loc refused => cases hstep; exact hb.rmdir
  | rename locs refused => cases hstep; exact hb.rename hs

end

/-- **The disk quota is conserved.** After any run of calls that are counted right it is charged for
each entry, and for each regular file once. -/
theorem Passthrough.disk_conserved (p : Passthrough) (h : p.Reach Passthrough.Seen) :
    p.disk.used = entryCost * p.host.entries.keys.length +
      Assoc.weight (fun _ n => n.len) p.host.inodes := by
  obtain ⟨limit, readOnly, h⟩ := h
  have hb : p.Balanced := by
    refine Run.Reach.invariant (P := Passthrough.Balanced) h ⟨rfl, nofun⟩ ?_
    intro p op p' hi hs hstep
    exact Passthrough.step_balanced hi hs hstep
  exact hb.charged

def rootLoc (name : String) : Except Errno Loc := .ok ⟨1, name⟩

theorem Passthrough.disk_conserved_written : ∃ p : Passthrough, p.Reach Passthrough.Seen ∧
    p.disk.used = 4096 * p.host.entries.keys.length + 10 := by
  have hrun : ∃ p, Run.exec Passthrough.step
      [.create (rootLoc "a") none none false, .writeAt (rootLoc "a") none 0 10 (.ok 10) false]
      (Passthrough.init 100000 false) = some p ∧
      Assoc.weight (fun _ n => n.len) p.host.inodes = 10 := ⟨_, rfl, rfl⟩
  obtain ⟨p, hp, hw⟩ := hrun
  have hreach : p.Reach Passthrough.Seen := by
    refine ⟨_, _, .of_exec _ hp ⟨?_, ?_⟩⟩
    · intro l hl _
      exact .inl ⟨rfl, rfl⟩
    intro p₁ _
    refine ⟨?_, fun _ _ => trivial⟩
    intro l ino size written _ _ _ hans
    cases hans
    exact .inl (by decide)
  refine ⟨p, hreach, ?_⟩
  rw [Passthrough.disk_conserved p hreach, hw]
  rfl

/-- A rename over another file leaves one entry and the charge for two. -/
theorem Passthrough.disk_leaked : ∃ p : Passthrough, (p.Reach fun _ _ => True) ∧
    p.disk.used = 8192 ∧ p.host.entries.keys.length = 1 ∧
    Assoc.weight (fun _ n => n.len) p.host.inodes = 0 :=
  ⟨_, ⟨100000, false, .of_exec_free
    [.create (rootLoc "a") none none false, .create (rootLoc "b") none none false,
      .rename (.ok (⟨1, "a"⟩, ⟨1, "b"⟩)) none] rfl⟩, rfl, rfl, rfl⟩

end NixVm.Disk
