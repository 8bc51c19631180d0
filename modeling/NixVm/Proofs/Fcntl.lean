/-
Record locks mean what was asked for, as long as the path of a descriptor still leads to its file.

What an owner holds at a byte is read off the list of locks (`modeAt`) and compared with the record
of what happened (`lastMode`). The list is kept tidy: no range is empty, and two locks of one
owner, or two of which one is exclusive, are disjoint (`Tidy`).
-/
import NixVm.Kernel.Fcntl

namespace NixVm.Fcntl

open List RecLock Option

lemma checkedAdd_bounds {a b s : Int} (h : checkedAdd a b = some s) : -2 ^ 63 ≤ s ∧ s < 2 ^ 63 := by
  unfold checkedAdd toI64 at h
  split at h
  · cases h
    rename_i heq
    rw [heq, Int.bmod_def]
    split <;> omega
  · cases h

lemma rangeOf_lt {s len s' e : Int} (hs : -2 ^ 63 ≤ s ∧ s < 2 ^ 63)
    (hlen : -2 ^ 63 ≤ len) (h : rangeOf s len = some (s', e)) (hpos : ¬s' < 0) :
    s'.toNat < if e = i64Max then u64Max else (e % 2 ^ 64).toNat := by
  unfold rangeOf at h
  split at h
  · -- to the end of the file
    cases h
    rw [if_pos rfl, u64Max]
    omega
  split at h
  · have ⟨e', he', heq⟩ := map_eq_some_iff.mp h
    cases heq
    have he := checkedAdd_bounds he'
    unfold checkedAdd at he'
    split at he'
    · cases he'
      unfold u64Max
      split <;> omega
    · cases he'
  -- what is before the start; where the sum wraps, the end is negative and comes out large
  cases h
  have hwrap : toI64 (s + len) < 2 ^ 63 ∧
      (toI64 (s + len) = s + len ∨ toI64 (s + len) = s + len + 2 ^ 64) := by
    unfold toI64
    rw [Int.bmod_def]
    split <;> omega
  unfold u64Max i64Max
  split <;> omega

lemma readFlock_nonempty {arg : Option FlockArg} {pos size : Nat} {r : Request}
    (h : readFlock arg pos size = .ok r) : r.start < r.stop := by
  unfold readFlock at h
  split at h
  · cases h
  rename_i raw
  split at h
  · cases h
  · cases h
  split at h
  · cases h
  rename_i s hs
  split at h
  · cases h
  rename_i s' e hr
  split at h
  · cases h
  rename_i hpos
  cases h
  exact rangeOf_lt (checkedAdd_bounds hs) raw.len.le_toInt hr hpos

def RecLock.Apart (a b : RecLock) : Prop := a.stop ≤ b.start ∨ b.stop ≤ a.start

/-- Two locks of one owner are disjoint, and so are two of which one is exclusive. -/
def RecLock.Agree (a b : RecLock) : Prop :=
  (a.owner = b.owner ∨ a.write = true ∨ b.write = true) → a.Apart b

structure Tidy (v : List RecLock) : Prop where
  nonempty : ∀ l ∈ v, l.start < l.stop
  agree : v.Pairwise RecLock.Agree

def RecLock.covers (l : RecLock) (o : Owner) (x : Nat) : Bool :=
  l.owner = o && l.start ≤ x && x < l.stop

def modeAt (v : List RecLock) (o : Owner) (x : Nat) : Option Bool :=
  (v.find? fun l => l.covers o x).map RecLock.write

lemma RecLock.covers_iff {l : RecLock} {o : Owner} {x : Nat} :
    l.covers o x = true ↔ l.owner = o ∧ l.start ≤ x ∧ x < l.stop := by
  simp [covers, and_assoc]

instance : Std.Symm RecLock.Agree where
  symm a b h := by
    intro hb
    rcases h (by tauto) with h | h
    · exact .inr h
    · exact .inl h

lemma Tidy.covers_unique {v : List RecLock} (h : Tidy v) {a b : RecLock} (ha : a ∈ v)
    (hb : b ∈ v) {o : Owner} {x : Nat} (hca : a.covers o x = true)
    (hcb : b.covers o x = true) : a = b := by
  by_contra hne
  rw [covers_iff] at hca hcb
  have hab := h.agree.forall ha hb hne
  rcases hab (.inl (hca.1.trans hcb.1.symm)) with hap | hap <;> omega

lemma Tidy.modeAt_eq_some {v : List RecLock} (h : Tidy v) {o : Owner} {x : Nat} {m : Bool} :
    modeAt v o x = some m ↔ ∃ l ∈ v, l.covers o x = true ∧ l.write = m := by
  unfold modeAt
  rw [map_eq_some_iff]
  constructor
  · rintro ⟨l, hl, hm⟩
    have hc := List.find?_some hl
    exact ⟨l, mem_of_find?_eq_some hl, hc, hm⟩
  rintro ⟨l, hl, hc, hm⟩
  cases hf : v.find? fun l => l.covers o x with
  | none => exact absurd hc (by simpa using List.find?_eq_none.mp hf l hl)
  | some l' =>
    have hc' := List.find?_some hf
    have heq := h.covers_unique (mem_of_find?_eq_some hf) hl hc' hc
    exact ⟨l', rfl, heq ▸ hm⟩

/-- A lock that is part of another: the same but for a shorter range. -/
structure RecLock.Part (l' l : RecLock) : Prop where
  owner : l'.owner = l.owner
  write : l'.write = l.write
  start : l.start ≤ l'.start
  stop : l'.stop ≤ l.stop

lemma RecLock.Part.agree {a a' b b' : RecLock} (ha : a'.Part a) (hb : b'.Part b)
    (h : a.Agree b) : a'.Agree b' := by
  intro hw
  rw [ha.owner, hb.owner, ha.write, hb.write] at hw
  have := ha.start
  have := ha.stop
  have := hb.start
  have := hb.stop
  rcases h hw with h | h
  · exact .inl (by omega)
  · exact .inr (by omega)

variable {l l' : RecLock} {o : Owner} {start stop : Nat}

lemma RecLock.mem_trim (h : l' ∈ l.trim o start stop) (hne : l.start < l.stop) :
    l'.Part l ∧ l'.start < l'.stop ∧ (l.owner = o → l'.stop ≤ start ∨ stop ≤ l'.start) := by
  unfold trim at h
  split at h
  next hout =>
    cases mem_singleton.mp h
    refine ⟨⟨rfl, rfl, le_rfl, le_rfl⟩, hne, fun ho => ?_⟩
    rcases hout with hout | hout
    · exact absurd ho hout
    · exact hout
  rename_i hin
  rcases mem_append.mp h with h | h
  · split at h
    · cases mem_singleton.mp h
      exact ⟨⟨rfl, rfl, le_rfl, by simp only; omega⟩, by simpa, fun _ =>
        .inl (le_rfl)⟩
    · cases h
  split at h
  · cases mem_singleton.mp h
    exact ⟨⟨rfl, rfl, by simp only; omega, le_rfl⟩, by simpa, fun _ =>
      .inr (le_rfl)⟩
  · cases h

lemma RecLock.exists_mem_trim {p : Owner} {x : Nat} (hc : l.covers p x = true)
    (hx : p = o → x < start ∨ stop ≤ x) :
    ∃ l' ∈ l.trim o start stop, l'.covers p x = true ∧ l'.write = l.write := by
  have hlx := covers_iff.mp hc
  unfold trim
  split
  · exact ⟨l, mem_singleton_self l, hc, rfl⟩
  rename_i hin
  push Not at hin
  rcases hx (hlx.1.symm.trans hin.1) with hx | hx
  · refine ⟨{ l with stop := start }, mem_append_left _ ?_, ?_, rfl⟩
    · rw [if_pos (by omega)]
      exact mem_singleton_self _
    · exact covers_iff.mpr ⟨hlx.1, hlx.2.1, hx⟩
  refine ⟨{ l with start := stop }, mem_append_right _ ?_, ?_, rfl⟩
  · rw [if_pos (by omega)]
    exact mem_singleton_self _
  · exact covers_iff.mpr ⟨hlx.1, hx, hlx.2.2⟩

lemma RecLock.pairwise_trim (hlt : start < stop) :
    (l.trim o start stop).Pairwise RecLock.Agree := by
  unfold trim
  split
  · exact pairwise_singleton ..
  · split <;> split <;> simp [RecLock.Agree, RecLock.Apart, le_of_lt hlt]

variable {v : List RecLock} {typ : LockType} {pid : Int}

lemma mem_new {l : RecLock} {m : Option Bool}
    (h : l ∈ (m.map fun write => mk o write start stop pid).toList) :
    l.owner = o ∧ l.start = start ∧ l.stop = stop ∧ m = some l.write := by
  obtain ⟨w, rfl, rfl⟩ := map_eq_some_iff.mp (mem_toList.mp h)
  exact ⟨rfl, rfl, rfl, rfl⟩

lemma mem_setIn (h : l' ∈ setIn v o typ start stop pid) : (∃ l ∈ v, l' ∈ l.trim o start stop) ∨
      (l'.owner = o ∧ l'.start = start ∧ l'.stop = stop ∧ typ.mode = some l'.write) := by
  rcases mem_append.mp h with h | h
  · exact .inl (mem_flatMap.mp h)
  · exact .inr (mem_new h)

lemma Tidy.setIn (h : Tidy v) (hlt : start < stop)
    (hfree : ∀ w, typ.mode = some w → ∀ l ∈ v, l.blocks o w start stop = false) (pid : Int) :
    Tidy (setIn v o typ start stop pid) := by
  constructor
  · intro l hl
    rcases mem_setIn hl with ⟨l0, hl0, ht⟩ | ⟨-, hs, he, -⟩
    · exact (mem_trim ht (h.nonempty l0 hl0)).2.1
    · omega
  refine pairwise_append.mpr ⟨?_, ?_, ?_⟩
  · refine pairwise_flatMap.mpr ⟨fun l _ => pairwise_trim hlt, ?_⟩
    refine (List.Pairwise.and_mem.mp h.agree).imp ?_
    rintro a b ⟨ha, hb, hab⟩ a' ha' b' hb'
    exact (mem_trim ha' (h.nonempty a ha)).1.agree
      (mem_trim hb' (h.nonempty b hb)).1 hab
  · cases typ.mode with
    | none => exact List.Pairwise.nil
    | some w => exact pairwise_singleton ..
  intro a ha b hb
  have ⟨l, hl, hal⟩ := mem_flatMap.mp ha
  have ⟨hbo, hbs, hbe, hbw⟩ := mem_new hb
  obtain ⟨hpart, -, hout⟩ := mem_trim hal (h.nonempty l hl)
  have := hpart.start
  have := hpart.stop
  intro hw
  unfold RecLock.Apart
  rw [hbs, hbe]
  by_cases ho : l.owner = o
  · exact hout ho
  -- another owner's lock: it does not stand against the request
  have hblock := hfree b.write hbw l hl
  have hww : (b.write || l.write) = true := by
    rw [← hpart.write, Bool.or_eq_true]
    rcases hw with hw | hw | hw
    · exact absurd (hpart.owner.symm.trans (hw.trans hbo)) ho
    · exact .inr hw
    · exact .inl hw
  simp only [blocks, hww, Bool.and_true, ne_eq, ho, not_false_eq_true,
    decide_true, Bool.true_and, Bool.and_eq_false_iff, decide_eq_false_iff_not] at hblock
  omega

lemma Tidy.modeAt_setIn (h : Tidy v) (hlt : start < stop)
    (hfree : ∀ w, typ.mode = some w → ∀ l ∈ v, l.blocks o w start stop = false)
    (p : Owner) (x : Nat) : modeAt (Fcntl.setIn v o typ start stop pid) p x =
      if o = p ∧ start ≤ x ∧ x < stop then typ.mode else modeAt v p x := by
  have h' := h.setIn hlt hfree pid
  refine Option.ext fun m => ?_
  rw [h'.modeAt_eq_some]
  split
  next hin =>
    obtain ⟨rfl, hin⟩ := hin
    constructor
    · rintro ⟨l, hl, hc, rfl⟩
      rw [covers_iff] at hc
      rcases mem_setIn hl with ⟨l0, hl0, ht⟩ | ⟨-, -, -, hm⟩
      · -- a piece of an old lock is outside the range
        obtain ⟨hpart, -, hout⟩ := mem_trim ht (h.nonempty l0 hl0)
        have := hout (hpart.owner.symm.trans hc.1)
        omega
      · exact hm
    intro hm
    refine ⟨⟨o, m, start, stop, pid⟩, mem_append_right _ ?_, ?_, rfl⟩
    · rw [hm]
      exact mem_singleton_self _
    · exact covers_iff.mpr ⟨rfl, hin⟩
  next hout =>
    rw [h.modeAt_eq_some]
    constructor
    · rintro ⟨l, hl, hc, rfl⟩
      rcases mem_setIn hl with ⟨l0, hl0, ht⟩ | ⟨ho, hs, he, -⟩
      · have hpart := (mem_trim ht (h.nonempty l0 hl0)).1
        rw [covers_iff] at hc
        refine ⟨l0, hl0, covers_iff.mpr ⟨hpart.owner ▸ hc.1, ?_, ?_⟩, hpart.write.symm⟩
        · exact le_trans hpart.start hc.2.1
        · exact lt_of_lt_of_le hc.2.2 hpart.stop
      · rw [covers_iff, ho, hs, he] at hc
        exact absurd hc hout
    rintro ⟨l, hl, hc, rfl⟩
    have hx : p = o → x < start ∨ stop ≤ x := by
      intro hpo
      by_contra hin
      exact hout ⟨hpo.symm, by omega, by omega⟩
    have ⟨l', hl', hc', hw⟩ := exists_mem_trim hc hx
    exact ⟨l', mem_append_left _ (mem_flatMap.mpr ⟨l, hl, hl'⟩), hc', hw⟩

lemma Tidy.filter (h : Tidy v) (f : RecLock → Bool) : Tidy (v.filter f) where
  nonempty l hl := h.nonempty l ((mem_filter.mp hl).1)
  agree := h.agree.filter f

lemma Tidy.modeAt_drop (h : Tidy v) (gone : Owner → Bool) (p : Owner) (x : Nat) :
    modeAt (v.filter fun l => !gone l.owner) p x = if gone p then none else modeAt v p x := by
  refine Option.ext fun m => ?_
  rw [(h.filter _).modeAt_eq_some]
  cases hp : gone p with
  | true =>
    simp only [if_true, reduceCtorEq, iff_false]
    rintro ⟨l, hl, hc, -⟩
    have := (mem_filter.mp hl).2
    rw [(covers_iff.mp hc).1, hp] at this
    cases this
  | false =>
    rw [if_neg (by decide), h.modeAt_eq_some]
    constructor
    · rintro ⟨l, hl, hc⟩
      exact ⟨l, (mem_filter.mp hl).1, hc⟩
    rintro ⟨l, hl, hc⟩
    refine ⟨l, mem_filter.mpr ⟨hl, ?_⟩, hc⟩
    rw [(covers_iff.mp hc.1).1, hp]
    rfl

/-- What an event says about the mode of an owner at a byte, if anything. -/
def Event.decides : Event → FileKey → Owner → Nat → Option (Option Bool)
  | .set o k m start stop, key, p, x =>
    if k = key ∧ o = p ∧ start ≤ x ∧ x < stop then some m else none
  | .closed tgid ofd last file, key, p, _ =>
    if file = key ∧ (p = .process tgid ∨ last ∧ p = .ofd ofd) then some none else none
  | .exited tgid, _, p, _ => if p = .process tgid then some none else none

/-- The mode of an owner's last request that covers the byte, unless given up since. -/
def lastMode : List Event → FileKey → Owner → Nat → Option Bool
  | [], _, _, _ => none
  | e :: es, key, p, x => (e.decides key p x).getD (lastMode es key p x)

def FileLocks.AllTidy (t : FileLocks) : Prop := ∀ k, Tidy (t.records k)

/-- The table says what the history says. -/
def Sys.Matches (s : Sys) : Prop :=
  ∀ k o x, modeAt (s.locks.records k) o x = lastMode s.events k o x

/-- The path of the descriptor a call uses still leads to the file it was opened on. -/
def Sys.Found (s : Sys) : Op → Prop
  | .fcntl _ i _ _ _ _ _ | .close _ i => ∀ f, s.fd? i = some (.file f) → s.names f.path = some f.file
  | _ => True

lemma lockFile_cases (t : FileLocks) (tgid : Int) (f : FileFd) (key : Option FileKey)
    (cmd : Cmd) (ofdCmd : Bool) (arg : Option FlockArg) (pos size : Nat) :
    (∃ r, lockFile t tgid f key cmd ofdCmd arg pos size = (r, t) ∧ ∀ o q, r ≠ .done o q) ∨
    ∃ k o r pid, key = some k ∧ r.start < r.stop ∧
      (∀ w, r.typ.mode = some w → ∀ l ∈ t.records k, l.blocks o w r.start r.stop = false) ∧
      lockFile t tgid f key cmd ofdCmd arg pos size =
        (.done o r, t.set k o r.typ r.start r.stop pid) := by
  unfold lockFile
  split
  · exact .inl ⟨_, rfl, nofun⟩
  rename_i k
  split
  · exact .inl ⟨_, rfl, nofun⟩
  rename_i r hr
  simp only
  split
  · exact .inl ⟨_, rfl, nofun⟩
  split
  · split
    · exact .inl ⟨_, rfl, nofun⟩
    · exact .inl ⟨_, rfl, nofun⟩
  split
  · exact .inl ⟨_, rfl, nofun⟩
  split
  · refine .inl ⟨_, rfl, ?_⟩
    split <;> nofun
  rename_i hhit
  refine .inr ⟨k, ownerOf tgid f ofdCmd, r, _, rfl, readFlock_nonempty hr, ?_, rfl⟩
  intro w hw l hl
  have hne : r.typ ≠ .unlck := by
    intro h
    rw [h] at hw
    cases hw
  have hww : w = decide (r.typ = .wrlck) := by
    cases ht : r.typ <;> rw [ht] at hw <;> cases hw <;> rfl
  have hnone : t.conflict k (ownerOf tgid f ofdCmd) (decide (r.typ = .wrlck)) r.start r.stop
      = none := by
    simpa [hne] using hhit
  rw [hww]
  simpa using List.find?_eq_none.mp hnone l hl

lemma FileLocks.AllTidy.set {t : FileLocks} (h : t.AllTidy) {k : FileKey} (hlt : start < stop)
    (hfree : ∀ w, typ.mode = some w → ∀ l ∈ t.records k, l.blocks o w start stop = false) :
    (t.set k o typ start stop pid).AllTidy := by
  intro k'
  show Tidy (if k' = k then _ else _)
  split
  next heq => exact heq ▸ (h k).setIn hlt hfree _
  · exact h k'

lemma FileLocks.AllTidy.dropWhere {t : FileLocks} (h : t.AllTidy) (key : Option FileKey)
    (rec : RecLock → Bool) (fl : Flock → Bool) : (t.dropWhere key rec fl).AllTidy := by
  intro k
  show Tidy (if _ then _ else _)
  split
  · exact (h k).filter _
  · exact h k

lemma FileLocks.AllTidy.modeAt_dropWhere {t : FileLocks} (h : t.AllTidy)
    (key : Option FileKey) (gone : Owner → Bool) (fl : Flock → Bool) (k : FileKey) (p : Owner)
    (x : Nat) : modeAt ((t.dropWhere key (fun l => gone l.owner) fl).records k) p x =
      if (key.all (· = k) && gone p) = true then none else modeAt (t.records k) p x := by
  simp only [FileLocks.dropWhere]
  cases key.all (· = k) with
  | true => exact (h k).modeAt_drop gone p x
  | false => rfl

lemma FileLocks.flock_records (t : FileLocks) (key : FileKey) (ofd : Nat) (op : FlockOp) :
    ((t.flock key ofd op).getD t).records = t.records := by
  unfold FileLocks.flock
  cases op with
  | un => rfl
  | sh => dsimp only; split <;> rfl
  | ex => dsimp only; split <;> rfl

variable {s s' : Sys} {op : Op}

inductive Sys.Changes (s : Sys) : Op → Sys → Prop
  | none {op : Op} {s' : Sys} (hrec : s'.locks.records = s.locks.records) (hev : s'.events = s.events) :
    s.Changes op s'
  | set {tgid : Int} {i : Nat} {cmd : Cmd} {ofdCmd : Bool} {arg : Option FlockArg}
    {pos size : Nat} {f : FileFd} {k : FileKey} {o : Owner} {r : Request} {pid : Int}
    (hf : s.fd? i = some (.file f))
    (hk : s.names f.path = some k) (hlt : r.start < r.stop)
    (hfree : ∀ w, r.typ.mode = some w →
      ∀ l ∈ s.locks.records k, l.blocks o w r.start r.stop = false) :
    s.Changes (.fcntl tgid i cmd ofdCmd arg pos size) { s with
      locks := s.locks.set k o r.typ r.start r.stop pid
      events := .set o f.file r.typ.mode r.start r.stop :: s.events }
  | closed {tgid : Int} {i : Nat} {f : FileFd} (hf : s.fd? i = some (.file f)) :
    s.Changes (.close tgid i) (s.closeFile tgid f i)
  | exited {tgid : Int} : s.Changes (.exit tgid)
      { s with locks := s.locks.releaseProcess tgid, events := .exited tgid :: s.events }

lemma Sys.lock_changes {i : Nat} {f : FileFd} (hf : s.fd? i = some (.file f)) (tgid : Int)
    (cmd : Cmd) (ofdCmd : Bool) (arg : Option FlockArg) (pos size : Nat) :
    s.Changes (.fcntl tgid i cmd ofdCmd arg pos size) (s.lock tgid f cmd ofdCmd arg pos size) := by
  unfold Sys.lock
  rcases lockFile_cases s.locks tgid f (s.names f.path) cmd ofdCmd arg pos size with
    ⟨r, hr, hnd⟩ | ⟨k, o, r, pid, hk, hlt, hfree, hr⟩
  · rw [hr]
    cases r with
    | done o q => exact absurd rfl (hnd o q)
    | err e => exact .none rfl rfl
    | block => exact .none rfl rfl
    | report l => exact .none rfl rfl
    | free => exact .none rfl rfl
  · rw [hr]
    exact .set hf hk hlt hfree

lemma Sys.step_changes (hs : s.step op = some s') : s.Changes op s' := by
  cases op with
  | bind path file | hide path | rename source target => cases hs; exact .none rfl rfl
  | openFile path ofd r w =>
    simp only [Sys.step] at hs
    split at hs
    · split at hs
      · cases hs; exact .none rfl rfl
      · cases hs
    · cases hs
  | openOther => cases hs; exact .none rfl rfl
  | dup i =>
    obtain ⟨d, -, rfl⟩ := map_eq_some_iff.mp hs
    exact .none rfl rfl
  | fcntl tgid i cmd ofdCmd arg pos size =>
    simp only [Sys.step] at hs
    split at hs
    next f hf =>
      cases hs
      exact Sys.lock_changes hf tgid cmd ofdCmd arg pos size
    · cases hs; exact .none rfl rfl
    · cases hs
  | flock i op =>
    simp only [Sys.step] at hs
    split at hs
    · split at hs
      · cases hs
        exact .none (FileLocks.flock_records ..) rfl
      · cases hs; exact .none rfl rfl
    · cases hs; exact .none rfl rfl
    · cases hs
  | close tgid i =>
    simp only [Sys.step] at hs
    split at hs
    next f hf =>
      cases hs
      exact .closed hf
    · cases hs; exact .none rfl rfl
    · cases hs
  | exit tgid =>
    cases hs
    exact .exited

lemma Sys.step_tidy (h : s.locks.AllTidy) (hs : s.step op = some s') : s'.locks.AllTidy := by
  cases Sys.step_changes hs with
  | none hrec hev =>
    unfold FileLocks.AllTidy
    rw [hrec]
    exact h
  | set hf hk hlt hfree => exact h.set hlt hfree
  | closed hf => exact h.dropWhere _ _ _
  | exited => exact h.dropWhere _ _ _

lemma Sys.step_matches (ht : s.locks.AllTidy) (h : s.Matches) (hfound : s.Found op)
    (hs : s.step op = some s') : s'.Matches := by
  cases Sys.step_changes hs with
  | none hrec hev =>
    unfold Sys.Matches
    rw [hrec, hev]
    exact h
  | @set tgid i cmd ofdCmd arg pos size f k o r pid hf hk hlt hfree =>
    -- the key found is that of the file, so the range is set where the history has it
    cases hk.symm.trans (hfound f hf)
    intro k' p x
    simp only [FileLocks.set, lastMode, Event.decides]
    by_cases hkk : k' = f.file
    · subst hkk
      rw [if_pos rfl, (ht _).modeAt_setIn hlt hfree, h]
      simp only [true_and]
      split <;> rfl
    · rw [if_neg hkk, if_neg (fun hc => hkk hc.1.symm), h]
      rfl
  | @closed tgid i f hf =>
    intro k p x
    simp only [Sys.closeFile, FileLocks.releaseFd, lastMode, Event.decides, hfound f hf]
    rw [ht.modeAt_dropWhere _ (fun o => o = .process tgid ||
      (decide (s.refs f.ofd = 1) && decide (o = .ofd f.ofd))), h]
    simp only [all_some, Bool.and_eq_true, Bool.or_eq_true, decide_eq_true_eq]
    split <;> rfl
  | @exited tgid =>
    intro k p x
    simp only [FileLocks.releaseProcess, lastMode, Event.decides]
    rw [ht.modeAt_dropWhere none (fun o => o = .process tgid), h]
    simp only [all_none, Bool.true_and, decide_eq_true_eq]
    split <;> rfl

lemma init_tidy : Sys.init.locks.AllTidy := fun _ => ⟨nofun, List.Pairwise.nil⟩

lemma Sys.Reach.tidy {can : Sys → Op → Prop} (h : s.Reach can) : s.locks.AllTidy :=
  Run.Reach.invariant (P := fun s => s.locks.AllTidy) h init_tidy
    fun _ _ _ hi _ hs => Sys.step_tidy hi hs

/-- **Record locks exclude.** After any run in which lock calls and closes find the file the
descriptor was opened on, locks of different owners are disjoint where one is exclusive, each
owner's are non-empty and disjoint, and the mode at a byte is that of the owner's last request. -/
theorem Sys.record_locks (s : Sys) (h : s.Reach Sys.Found) (k : FileKey) :
    (s.locks.records k).Pairwise (fun a b => a.owner ≠ b.owner →
      (a.write = true ∨ b.write = true) → a.Apart b) ∧ (∀ l ∈ s.locks.records k, l.start < l.stop) ∧
    (s.locks.records k).Pairwise (fun a b => a.owner = b.owner → a.Apart b) ∧
    ∀ o x, modeAt (s.locks.records k) o x = lastMode s.events k o x := by
  have hinv : s.locks.AllTidy ∧ s.Matches := by
    refine Run.Reach.invariant (P := fun s => s.locks.AllTidy ∧ s.Matches) h
      ⟨init_tidy, fun _ _ _ => rfl⟩ ?_
    intro s op s' hi hc hs
    exact ⟨Sys.step_tidy hi.1 hs, Sys.step_matches hi.1 hi.2 hc hs⟩
  obtain ⟨htidy, hmatch⟩ := hinv
  refine ⟨?_, (htidy k).nonempty, ?_, hmatch k⟩
  · exact (htidy k).agree.imp fun hab _ hw => hab (.inr hw)
  · exact (htidy k).agree.imp fun hab ho => hab (.inl ho)

def firstByte : FlockArg := ⟨1#16, 0#16, 0#64, 1#64, 0#32⟩

def lockedOps : List Op :=
  [.bind "/a" ("/", 2), .bind "/d/b" ("/", 3), .openFile "/a" 0 true true,
    .openFile "/d/b" 1 true true, .fcntl 10 0 .setlk false (some firstByte) 0 0]

def found (s : Sys) : Op → Bool
  | .fcntl _ i _ _ _ _ _ | .close _ i =>
    match s.fd? i with
    | some (.file f) => s.names f.path = some f.file
    | _ => true
  | _ => true

lemma found_ok (s : Sys) (op : Op) (h : found s op = true) : s.Found op := by
  cases op <;> simp only [Sys.Found, found] at h ⊢ <;> intro f hf <;> rw [hf] at h <;>
    exact of_decide_eq_true h

theorem Sys.record_locks_closed : ∃ s : Sys, s.Reach Sys.Found ∧
    lastMode s.events ("/", 2) (.process 10) 0 = some true := by
  have hrun : ∃ s, Run.exec (fun s op => if found s op then Sys.step s op else none)
      (lockedOps ++ [.rename "/d/b" "/hidden", .close 10 1]) Sys.init = some s ∧
      modeAt (s.locks.records ("/", 2)) (.process 10) 0 = some true :=
    ⟨_, rfl, by decide⟩
  obtain ⟨s, hs, hmode⟩ := hrun
  have hreach : s.Reach Sys.Found := .of_exec_guarded found_ok _ hs
  exact ⟨s, hreach, by rw [← (Sys.record_locks s hreach ("/", 2)).2.2.2, hmode]⟩

/-- With a file system mounted over the directory of the second, its key is not found, and closing
it takes the lock on the first away. -/
theorem Sys.record_lock_lost : ∃ s : Sys, s.Reach (fun _ _ => True) ∧
    modeAt (s.locks.records ("/", 2)) (.process 10) 0 = none ∧
    lastMode s.events ("/", 2) (.process 10) 0 = some true :=
  ⟨_, Run.Reach.of_exec_free (lockedOps ++ [.hide "/d/b", .close 10 1]) rfl, by decide, by decide⟩

end NixVm.Fcntl
