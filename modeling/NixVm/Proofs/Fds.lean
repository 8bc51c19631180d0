/-
The counts of pipe and socket ends are the references to them.

`Counted s extra` is the invariant inside a call: `extra` are the references it has taken out of
their places and not yet dropped, or counted and not yet put in theirs.
-/
import NixVm.Proofs.Slots

namespace NixVm.Fds

open List State

/-! ### Counting over lists of holders -/

lemma count_flatMap_set {α : Type} (g : α → List Fd) (e : Fd) (x : α) :
    ∀ (l : List α) (i : Nat) (y : α), l[i]? = some y →
      ((l.set i x).flatMap g).count e + (g y).count e = (l.flatMap g).count e + (g x).count e := by
  intro l
  induction l with
  | nil => intro i y h; simp at h
  | cons a l ih =>
    intro i y h
    cases i with
    | zero =>
      obtain rfl : a = y := by simpa using h
      simp only [set_cons_zero, flatMap_cons, count_append]
      omega
    | succ i =>
      have := ih i y (by simpa using h)
      simp only [set_cons_succ, flatMap_cons, count_append]
      omega

section Invariant

variable {e fd : Fd} {s s' : State} {extra extra' fds : List Fd} {k f t : Nat} {x : Kind} {p : Task}
  {far : Bool} {q : List (List Fd)}

lemma mem_flatMap_set {α : Type} {g : α → List Fd} {x : α} {l : List α}
    {i : Nat} (h : e ∈ (l.set i x).flatMap g) : e ∈ l.flatMap g ∨ e ∈ g x := by
  obtain ⟨a, ha, he⟩ := mem_flatMap.mp h
  rcases mem_or_eq_of_mem_set ha with ha | rfl
  · exact .inl (mem_flatMap.mpr ⟨a, ha, he⟩)
  · exact .inr he

lemma mem_flatMap_of_getElem? {α : Type} {g : α → List Fd} {l : List α}
    {i : Nat} {y : α} (hi : l[i]? = some y) (h : e ∈ g y) : e ∈ l.flatMap g :=
  mem_flatMap.mpr ⟨y, mem_of_getElem? hi, h⟩

/-! ### The references there are -/

def State.tabled (s : State) : List Fd := s.tables.flatMap Table.fds

def State.queued (s : State) : List Fd := s.socks.flatMap Kind.inFlight

def State.waiting (s : State) : List Fd := s.socks.flatMap Kind.backlog

def Kind.isPair : Kind → Bool
  | .pair .. => true
  | _ => false

def State.isPair (s : State) (k : Nat) : Bool := s.socks[k]?.any Kind.isPair

def State.Has (s : State) : Fd → Prop
  | .pipeRead i => i < s.pipes
  | .pipeWrite i => i < s.pipes
  | .socket k _ => k < s.socks.length
  | .other => True

/-- The counts are those of the references, `extra` included. -/
structure Counted (s : State) (extra : List Fd) : Prop where
  count : ∀ e, e ≠ .other → s.refs e =
    s.tabled.count e + s.queued.count e + s.waiting.count e + extra.count e
  has : ∀ e, e ≠ .other → 0 < s.refs e → s.Has e
  flat : ∀ k, s.isPair k = false → s.refs (.socket k true) = 0
  pending : ∀ e ∈ s.waiting, s.refs e = 1

lemma waiting_ne_other (h : e ∈ s.waiting) : e ≠ .other := by
  obtain ⟨x, -, he⟩ := mem_flatMap.mp h
  cases x with
  | listener b =>
    obtain ⟨k, -, rfl⟩ := mem_map.mp he
    simp
  | idle => cases he
  | pair q r => cases he
  | plain => cases he

section

variable (h : Counted s extra)
include h

lemma Counted.congr
    (hextra : ∀ e, e ≠ .other → extra'.count e = extra.count e) : Counted s extra' :=
  ⟨fun e he => by rw [h.count e he, hextra e he], h.has, h.flat, h.pending⟩

/-! ### Taking and dropping a reference -/

lemma Counted.counter (he : e ≠ .other) (hpos : 0 < s.refs e) : s.counter e = some e := by
  cases e with
  | pipeRead i => rfl
  | pipeWrite i => rfl
  | other => exact absurd rfl he
  | socket k far =>
    have hk : k < s.socks.length := h.has _ he hpos
    have hget : s.socks[k]? = some s.socks[k] := List.getElem?_eq_getElem hk
    unfold counter
    cases hx : s.socks[k] with
    | pair q r => simp [hget, hx]
    | idle | listener b | plain =>
      all_goals
        have hflat : s.isPair k = false := by simp [isPair, hget, hx, Kind.isPair]
        cases far with
        | true => exact absurd hpos (by rw [h.flat k hflat]; exact lt_irrefl 0)
        | false => simp [hget, hx]

lemma counted_setRefs {n : Nat} (he : e ≠ .other)
    (hself : n + extra.count e = s.refs e + extra'.count e)
    (hother : ∀ e', e' ≠ e → extra'.count e' = extra.count e')
    (hhas : 0 < n → s.Has e) (hflat : ∀ k, e = .socket k true → s.isPair k = false → n = 0)
    (hwait : e ∈ s.waiting → n = 1) : Counted (s.setRefs e n) extra' := by
  refine ⟨fun e' he' => ?_, fun e' he' hpos => ?_, fun k hk => ?_, fun e' he' => ?_⟩
  · show (if e' = e then n else s.refs e') = s.tabled.count e' + s.queued.count e' +
      s.waiting.count e' + extra'.count e'
    have hc := h.count e' he'
    split
    next heq =>
      subst heq
      omega
    rename_i hne
    rw [hother e' hne]
    exact hc
  · have hn : 0 < (if e' = e then n else s.refs e') := hpos
    split at hn
    next heq =>
      subst heq
      exact hhas hn
    · exact h.has e' he' hn
  · show (if Fd.socket k true = e then n else s.refs (.socket k true)) = 0
    split
    next heq =>
      exact hflat k heq.symm hk
    · exact h.flat k hk
  show (if e' = e then n else s.refs e') = 1
  split
  next heq =>
    subst heq
    exact hwait he'
  · exact h.pending e' he'

lemma Counted.retain (hfd : fd ∈ s.tabled) : Counted (s.retain fd) (fd :: extra) := by
  by_cases hother : fd = .other
  · subst hother
    exact h.congr fun e he => count_cons_of_ne (Ne.symm he)
  have hc := h.count fd hother
  have hmem := count_pos_iff.mpr hfd
  have hpos : 0 < s.refs fd := by omega
  unfold State.retain
  rw [h.counter hother hpos]
  refine counted_setRefs h hother (by rw [count_cons_self]; omega)
    (fun e' hne => count_cons_of_ne (Ne.symm hne)) (fun _ => h.has fd hother hpos)
    (fun k hk hflat => ?_) (fun hwait => ?_)
  · subst hk
    have := h.flat k hflat
    omega
  have := h.pending fd hwait
  have := count_pos_iff.mpr hwait
  omega

omit h in
lemma counted_decrement (h : Counted s (fd :: extra)) (hother : fd ≠ .other) :
    0 < s.refs fd ∧ Counted (s.setRefs fd (s.refs fd - 1)) extra := by
  have hc := h.count fd hother
  rw [count_cons_self] at hc
  have hpos : 0 < s.refs fd := by omega
  refine ⟨hpos, counted_setRefs h hother (by rw [count_cons_self]; omega)
    (fun e' hne => (count_cons_of_ne (Ne.symm hne)).symm) (fun _ => h.has fd hother hpos)
    (fun k hk hflat => ?_) (fun hwait => ?_)⟩
  · subst hk
    have := h.flat k hflat
    omega
  have := h.pending fd hwait
  have := count_pos_iff.mpr hwait
  omega

/-! ### Moving references -/

lemma Counted.setSock {old : Kind} (hk : s.socks[k]? = some old)
    (hcount : ∀ e, e ≠ .other → x.inFlight.count e + x.backlog.count e + extra'.count e =
        old.inFlight.count e + old.backlog.count e + extra.count e)
    (hpair : x.isPair = false → old.isPair = false)
    (hback : ∀ e ∈ x.backlog, e ∈ old.backlog ∨ s.refs e = 1) : Counted (s.setSock k x) extra' := by
  refine ⟨fun e he => ?_, fun e he hpos => ?_, fun k' hk' => ?_, fun e he => ?_⟩
  · have hq := count_flatMap_set Kind.inFlight e x s.socks k old hk
    have hw := count_flatMap_set Kind.backlog e x s.socks k old hk
    have hc := h.count e he
    have hx := hcount e he
    unfold State.queued State.waiting at hc
    show s.refs e = s.tabled.count e + ((s.socks.set k x).flatMap Kind.inFlight).count e +
      ((s.socks.set k x).flatMap Kind.backlog).count e + extra'.count e
    omega
  · have := h.has e he hpos
    cases e with
    | pipeRead i => exact this
    | pipeWrite i => exact this
    | other => trivial
    | socket j far =>
      show j < (s.socks.set k x).length
      rw [length_set]
      exact this
  · refine h.flat k' ?_
    by_cases heq : k = k'
    · subst heq
      have hlt := (List.getElem?_eq_some_iff.mp hk).1
      have hx : x.isPair = false := by
        simpa [State.isPair, State.setSock, List.getElem?_set, hlt] using hk'
      simp [State.isPair, hk, hpair hx]
    · simpa [State.isPair, State.setSock, List.getElem?_set, heq] using hk'
  rcases mem_flatMap_set he with he | he
  · exact h.pending e he
  rcases hback e he with hold | hone
  · exact h.pending e (mem_flatMap_of_getElem? hk hold)
  · exact hone

lemma counted_release (k : Nat) : Counted (s.release k) extra := by
  unfold release
  split
  next b hk =>
    have hmem : ∀ e ∈ b.map (Fd.socket · true), e ∈ s.waiting :=
      fun e he => mem_flatMap_of_getElem? hk he
    have hw : ∀ e, ((s.socks.set k .idle).flatMap Kind.backlog).count e +
        (b.map (Fd.socket · true)).count e = s.waiting.count e := by
      intro e
      have := count_flatMap_set Kind.backlog e Kind.idle s.socks k _ hk
      simpa [Kind.backlog, waiting] using this
    have hq : ∀ e, ((s.socks.set k .idle).flatMap Kind.inFlight).count e = s.queued.count e := by
      intro e
      have := count_flatMap_set Kind.inFlight e Kind.idle s.socks k _ hk
      simpa [Kind.inFlight, queued] using this
    refine ⟨fun e he => ?_, fun e he hpos => ?_, fun k' hk' => ?_, fun e he => ?_⟩
    · show (if e ∈ b.map (Fd.socket · true) then 0 else s.refs e) = s.tabled.count e +
        ((s.socks.set k .idle).flatMap Kind.inFlight).count e +
        ((s.socks.set k .idle).flatMap Kind.backlog).count e + extra.count e
      have hc := h.count e he
      have hwe := hw e
      rw [hq e]
      split
      next hb =>
        have hone := h.pending e (hmem e hb)
        have := count_pos_iff.mpr hb
        omega
      next hb =>
        have := count_eq_zero.mpr hb
        omega
    · have hpos : 0 < (if e ∈ b.map (Fd.socket · true) then 0 else s.refs e) := hpos
      split at hpos
      · omega
      have := h.has e he hpos
      cases e with
      | pipeRead i => exact this
      | pipeWrite i => exact this
      | other => trivial
      | socket j far =>
        show j < (s.socks.set k .idle).length
        rw [length_set]
        exact this
    · show (if Fd.socket k' true ∈ b.map (Fd.socket · true) then 0
        else s.refs (.socket k' true)) = 0
      split
      · rfl
      refine h.flat k' ?_
      by_cases heq : k = k'
      · subst heq
        simp [isPair, hk, Kind.isPair]
      · simpa [isPair, List.getElem?_set, heq] using hk'
    -- an end left in another backlog was not in this one
    have hin : e ∈ (s.socks.set k .idle).flatMap Kind.backlog := he
    have hpos := count_pos_iff.mpr hin
    have hold : e ∈ s.waiting := count_pos_iff.mp (by have := hw e; omega)
    have hone := h.pending e hold
    have hc := h.count e (waiting_ne_other hold)
    show (if e ∈ b.map (Fd.socket · true) then 0 else s.refs e) = 1
    split
    next hb =>
      have := count_pos_iff.mpr hb
      have := hw e
      omega
    · exact hone
  next hk =>
    exact h.setSock hk (fun _ _ => rfl) (fun _ => rfl) (by simp [Kind.backlog])
  · exact h

end

lemma Counted.drop (h : Counted s (fd :: extra)) : Counted (s.drop fd) extra := by
  by_cases hother : fd = .other
  · subst hother
    exact h.congr fun e he => (count_cons_of_ne (Ne.symm he)).symm
  obtain ⟨hpos, hdec⟩ := counted_decrement h hother
  unfold State.drop
  rw [h.counter hother hpos]
  dsimp only
  split
  · split
    · exact hdec
    split
    · exact counted_release hdec _
    · exact hdec
  · exact hdec

lemma Counted.dropAll (fds : List Fd) :
    ∀ {s : State} {extra : List Fd}, Counted s (fds ++ extra) → Counted (s.dropAll fds) extra := by
  induction fds with
  | nil => exact fun h => h
  | cons fd fds ih => exact fun h => ih h.drop

/-- What a call on the counts alone leaves as it is. -/
structure Frame (s s' : State) : Prop where
  tables : s'.tables = s.tables
  procs : s'.procs = s.procs
  free : s'.free = s.free

lemma Frame.trans {t u : State} (h : Frame s t) (h' : Frame t u) : Frame s u :=
  ⟨h'.tables.trans h.tables, h'.procs.trans h.procs, h'.free.trans h.free⟩

lemma Frame.table (h : Frame s s') (f : Nat) : s'.table f = s.table f := by
  rw [State.table, State.table, h.tables]

lemma frame_retain (s : State) (fd : Fd) : Frame s (s.retain fd) := by
  unfold retain
  split <;> exact ⟨rfl, rfl, rfl⟩

lemma frame_release (s : State) (k : Nat) : Frame s (s.release k) := by
  unfold release
  split <;> exact ⟨rfl, rfl, rfl⟩

lemma frame_drop (s : State) (fd : Fd) : Frame s (s.drop fd) := by
  unfold State.drop
  split
  · exact ⟨rfl, rfl, rfl⟩
  dsimp only
  repeat' split
  all_goals first
    | exact ⟨rfl, rfl, rfl⟩
    | exact Frame.trans (t := s.setRefs ..) ⟨rfl, rfl, rfl⟩ (frame_release ..)

lemma frame_dropAll (fds : List Fd) : ∀ s : State, Frame s (s.dropAll fds) := by
  induction fds with
  | nil => exact fun s => ⟨rfl, rfl, rfl⟩
  | cons fd fds ih => exact fun s => (frame_drop s fd).trans (ih _)

lemma frame_retainAll (fds : List Fd) : ∀ s : State, Frame s (s.retainAll fds) := by
  induction fds with
  | nil => exact fun s => ⟨rfl, rfl, rfl⟩
  | cons fd fds ih => exact fun s => (frame_retain s fd).trans (ih _)

lemma socks_retainAll (fds : List Fd) : ∀ s : State, (s.retainAll fds).socks = s.socks := by
  induction fds with
  | nil => exact fun s => rfl
  | cons fd fds ih =>
    intro s
    refine (ih (s.retain fd)).trans ?_
    unfold retain
    split <;> rfl

lemma Counted.retainAll (fds : List Fd) :
    ∀ {s : State} {extra : List Fd}, Counted s extra → (∀ fd ∈ fds, fd ∈ s.tabled) →
      Counted (s.retainAll fds) (fds ++ extra) := by
  induction fds with
  | nil => exact fun h _ => h
  | cons fd fds ih =>
    intro s extra h hmem
    have hnext := ih (h.retain (hmem fd (by simp))) fun fd' hfd' => by
      rw [tabled, (frame_retain s fd).tables]
      exact hmem fd' (by simp [hfd'])
    refine hnext.congr fun e _ => ?_
    simp only [cons_append, count_append, count_cons]
    omega

lemma table_eq (hf : f < s.tables.length) : s.tables[f]? = some (s.table f) := by
  rw [table, getD_eq_getElem?_getD, List.getElem?_eq_getElem hf]
  rfl

lemma mem_tabled (h : fd ∈ (s.table f).fds) : fd ∈ s.tabled := by
  by_cases hf : f < s.tables.length
  · exact mem_flatMap_of_getElem? (table_eq hf) h
  rw [table, getD_eq_getElem?_getD, List.getElem?_eq_none (by omega)] at h
  cases h

lemma Counted.setTable {t : Table} (h : Counted s extra) (hf : f < s.tables.length)
    (hcount : ∀ e, e ≠ .other →
      t.fds.count e + extra'.count e = (s.table f).fds.count e + extra.count e) :
    Counted (s.setTable f t) extra' := by
  refine ⟨fun e he => ?_, h.has, h.flat, h.pending⟩
  have ht := count_flatMap_set Table.fds e t s.tables f _ (table_eq hf)
  have hc := h.count e he
  have hx := hcount e he
  unfold tabled at hc
  show s.refs e = ((s.tables.set f t).flatMap Table.fds).count e + s.queued.count e +
    s.waiting.count e + extra'.count e
  omega

lemma Counted.addTable {t : Table}
    (h : Counted s (t.fds ++ extra)) : Counted { s with tables := s.tables ++ [t] } extra := by
  refine ⟨fun e he => ?_, h.has, h.flat, h.pending⟩
  have hc := h.count e he
  rw [count_append] at hc
  show s.refs e = ((s.tables ++ [t]).flatMap Table.fds).count e + s.queued.count e +
    s.waiting.count e + extra.count e
  unfold tabled at hc
  simp only [flatMap_append, flatMap_cons, flatMap_nil, append_nil, count_append]
  omega

lemma Counted.fresh (h : Counted s extra) (he : e ≠ .other) (hzero : s.refs e = 0) (hhas : s.Has e)
    (hpair : ∀ k, e = .socket k true → s.isPair k = true) :
    Counted (s.setRefs e 1) (e :: extra) := by
  refine counted_setRefs h he (by rw [count_cons_self]; omega)
    (fun e' hne => count_cons_of_ne (Ne.symm hne)) (fun _ => hhas)
    (fun k hk hflat => ?_) (fun _ => rfl)
  rw [hpair k hk] at hflat
  cases hflat

lemma Counted.addSock (h : Counted s extra)
    (hq : x.inFlight = []) (hb : x.backlog = []) : Counted (s.addSock x) extra := by
  refine ⟨fun e he => ?_, fun e he hpos => ?_, fun k hk => ?_, fun e he => ?_⟩
  · have hc := h.count e he
    unfold State.queued State.waiting at hc
    show s.refs e = s.tabled.count e + ((s.socks ++ [x]).flatMap Kind.inFlight).count e +
      ((s.socks ++ [x]).flatMap Kind.backlog).count e + extra.count e
    simp only [flatMap_append, flatMap_cons, flatMap_nil, append_nil, hq, hb]
    omega
  · have := h.has e he hpos
    cases e with
    | pipeRead i => exact this
    | pipeWrite i => exact this
    | other => trivial
    | socket j far =>
      have hj : j < s.socks.length := this
      show j < (s.socks ++ [x]).length
      rw [length_append]
      omega
  · show s.refs (.socket k true) = 0
    by_cases hlt : k < s.socks.length
    · refine h.flat k ?_
      simpa [State.isPair, State.addSock, List.getElem?_append_left hlt] using hk
    by_contra hne
    have hhas := h.has (.socket k true) (by simp) (pos_of_ne_zero hne)
    exact hlt hhas
  · refine h.pending e ?_
    have he : e ∈ (s.socks ++ [x]).flatMap Kind.backlog := he
    exact mem_flatMap.mpr (by simpa [hb] using he)

lemma Counted.addPipe (h : Counted s extra) : Counted { s with pipes := s.pipes + 1 } extra := by
  refine ⟨h.count, fun e he hpos => ?_, h.flat, h.pending⟩
  have := h.has e he hpos
  cases e with
  | pipeRead i | pipeWrite i =>
    have hi : i < s.pipes := this
    show i < s.pipes + 1
    omega
  | socket j far => exact this
  | other => trivial

/-! ### The tables and the tasks -/

/-- The tables are those of living tasks, and what is free is free. -/
structure Housed (s : State) : Prop where
  files : ∀ p ∈ s.procs, p.files < s.tables.length
  dead : ∀ f, s.inUse f = false → s.table f = []
  free : ∀ f ∈ s.free, f < s.tables.length ∧ ∀ p ∈ s.procs, p.files ≠ f
  nodup : s.free.Nodup

lemma inUse_eq_true : s.inUse f = true ↔ ∃ q ∈ s.procs, q.files = f ∧ q.zombie = false := by
  simp [inUse, any_eq_true]

lemma housed_iff : Housed s ↔ Settled s.procs s.free s.tables.length fun f => s.table f ≠ [] := by
  constructor
  · intro h
    refine ⟨h.files, h.free, h.nodup, fun f hf => inUse_eq_true.mp ?_⟩
    by_contra hu
    exact hf (h.dead f (Bool.eq_false_of_not_eq_true hu))
  intro h
  refine ⟨h.files, fun f hu => ?_, h.free, h.nodup⟩
  by_contra hf
  rw [inUse_eq_true.mpr (h.used f hf)] at hu
  cases hu

lemma Frame.inUse (h : Frame s s') (f : Nat) : s'.inUse f = s.inUse f := by
  rw [State.inUse, State.inUse, h.procs]

lemma Housed.frame (h : Housed s) (hf : Frame s s') : Housed s' := by
  refine ⟨fun p hp => ?_, fun f hu => ?_, fun f hm => ?_, ?_⟩
  · rw [hf.tables]
    exact h.files p (by rwa [hf.procs] at hp)
  · rw [hf.table]
    exact h.dead f (by rwa [hf.inUse] at hu)
  · rw [hf.free] at hm
    rw [hf.tables, hf.procs]
    exact h.free f hm
  · rw [hf.free]
    exact h.nodup

lemma table_setTable {t : Table} (g : Nat) :
    (s.setTable f t).table g = if f = g ∧ g < s.tables.length then t else s.table g := by
  unfold setTable table
  by_cases hfg : f = g
  · subst hfg
    by_cases hlt : f < s.tables.length
    · simp [hlt]
    · simp [hlt]
  · simp [hfg]

lemma Housed.setTable {t : Table} (h : Housed s)
    (hu : s.inUse f = true ∨ t = []) : Housed (s.setTable f t) := by
  refine ⟨fun p hp => ?_, fun g hg => ?_, fun g hg => ?_, h.nodup⟩
  · show p.files < (s.tables.set f t).length
    rw [length_set]
    exact h.files p hp
  · rw [table_setTable]
    split
    next hfg =>
      rcases hu with hu | ht
      · rw [hfg.1] at hu
        exact absurd (hu.symm.trans hg) (by decide)
      · exact ht
    · exact h.dead g hg
  · show g < (s.tables.set f t).length ∧ _
    rw [length_set]
    exact h.free g hg

structure Inv (s : State) : Prop where
  counted : Counted s []
  housed : Housed s

lemma running_spec (h : s.running t = some p) : s.procs[t]? = some p ∧ p.zombie = false := by
  obtain ⟨hget, hz⟩ := Option.filter_eq_some_iff.mp h
  exact ⟨hget, by simpa using hz⟩

lemma inUse_of_get (hget : s.procs[t]? = some p) (hz : p.zombie = false) : s.inUse p.files = true :=
  any_eq_true.mpr ⟨p, mem_of_getElem? hget, by simp [hz]⟩

lemma Housed.running (h : Housed s)
    (hr : s.running t = some p) : s.inUse p.files = true ∧ p.files < s.tables.length := by
  obtain ⟨hget, hz⟩ := running_spec hr
  exact ⟨inUse_of_get hget hz, h.files p (mem_of_getElem? hget)⟩

/-- The invariant with references in hand, on behalf of a task that uses table `f`. -/
structure Busy (s : State) (f : Nat) (extra : List Fd) : Prop where
  counted : Counted s extra
  housed : Housed s
  inUse : s.inUse f = true
  lt : f < s.tables.length

lemma Inv.busy (h : Inv s) (hr : s.running t = some p) : Busy s p.files [] :=
  ⟨h.counted, h.housed, (h.housed.running hr).1, (h.housed.running hr).2⟩

lemma Busy.inv (h : Busy s f []) : Inv s := ⟨h.counted, h.housed⟩

lemma Busy.frame (h : Busy s f extra)
    (hf : Frame s s') (hc : Counted s' extra') : Busy s' f extra' :=
  ⟨hc, h.housed.frame hf, by rw [hf.inUse]; exact h.inUse, by rw [hf.tables]; exact h.lt⟩

lemma Busy.setTable {t : Table} (h : Busy s f extra) (hcount : ∀ e, e ≠ .other →
      t.fds.count e + extra'.count e = (s.table f).fds.count e + extra.count e) :
    Busy (s.setTable f t) f extra' :=
  ⟨h.counted.setTable h.lt hcount, h.housed.setTable (.inl h.inUse), h.inUse, by
    show f < (s.tables.set f t).length
    rw [length_set]
    exact h.lt⟩

lemma Busy.alloc (h : Busy s f (fd :: extra))
    (low : Int) (cloexec : Bool) : Busy (s.alloc f fd low cloexec) f extra := by
  refine h.setTable fun e _ => ?_
  simp only [Table.allocFrom, Table.fds, map_cons, count_cons]
  omega

lemma Busy.allocAll (cloexec : Bool) (fds : List Fd) :
    ∀ {s : State} {extra : List Fd}, Busy s f (fds ++ extra) →
      Busy (fds.foldl (fun s fd => s.alloc f fd 0 cloexec) s) f extra := by
  induction fds with
  | nil => exact fun h => h
  | cons fd fds ih => exact fun h => ih (h.alloc 0 cloexec)

lemma Busy.retain (h : Busy s f extra) (hfd : fd ∈ s.tabled) : Busy (s.retain fd) f (fd :: extra) :=
  h.frame (frame_retain s fd) (h.counted.retain hfd)

lemma Busy.dropAll (h : Busy s f (fds ++ extra)) : Busy (s.dropAll fds) f extra :=
  h.frame (frame_dropAll fds s) (h.counted.dropAll fds)

lemma Busy.drop (h : Busy s f (fd :: extra)) : Busy (s.drop fd) f extra :=
  h.frame (frame_drop s fd) h.counted.drop

lemma Busy.retainAll (h : Busy s f extra) (hfds : ∀ fd ∈ fds, fd ∈ s.tabled) :
    Busy (s.retainAll fds) f (fds ++ extra) :=
  h.frame (frame_retainAll fds s) (h.counted.retainAll fds hfds)

/-! ### One table -/

lemma count_eraseP (t : Table) (n : Int) (e : Fd) : ∀ x : Entry, t.find? (·.num = n) = some x →
      (Table.fds (t.eraseP (·.num = n))).count e + [x.fd].count e = (Table.fds t).count e := by
  induction t with
  | nil => intro x h; cases h
  | cons a t ih =>
    intro x h
    by_cases hn : a.num = n
    · rw [List.find?_cons_of_pos (by simpa using hn)] at h
      cases h
      rw [eraseP_cons_of_pos (by simpa using hn)]
      simp only [Table.fds, map_cons, count_cons, count_nil]
      omega
    rw [List.find?_cons_of_neg (by simpa using hn)] at h
    rw [eraseP_cons_of_neg (by simpa using hn)]
    have := ih x h
    simp only [Table.fds, map_cons, count_cons] at this ⊢
    omega

lemma mem_fds_of_get {t : Table} {n : Int} (h : t.get n = some fd) : fd ∈ t.fds := by
  obtain ⟨x, hx, rfl⟩ := Option.map_eq_some_iff.mp h
  exact mem_map_of_mem (mem_of_find?_eq_some hx)

lemma Busy.close (h : Busy s f []) (n : Int) : Busy (s.close f n) f [] := by
  unfold State.close
  split
  · exact h
  rename_i fd hget
  obtain ⟨x, hx, rfl⟩ := Option.map_eq_some_iff.mp hget
  refine Busy.drop (h.setTable fun e _ => ?_)
  simpa using count_eraseP (s.table f) n e x hx

lemma Busy.closeAll (ns : List Int) :
    ∀ {s : State}, Busy s f [] → Busy (ns.foldl (fun s n => s.close f n) s) f [] := by
  induction ns with
  | nil => exact fun h => h
  | cons n ns ih => exact fun h => ih (h.close n)

lemma mem_tabled_close {old new : Int}
    (hget : (s.table f).get old = some fd) (hne : old ≠ new) (hf : f < s.tables.length) :
    fd ∈ (s.close f new).tabled := by
  unfold close
  split
  · exact mem_tabled (mem_fds_of_get hget)
  rw [tabled, (frame_drop ..).tables]
  refine mem_tabled (s := s.setTable f _) (f := f) ?_
  rw [table_setTable, if_pos ⟨rfl, hf⟩]
  obtain ⟨x, hx, rfl⟩ := Option.map_eq_some_iff.mp hget
  refine mem_map_of_mem ((mem_eraseP_of_neg ?_).mpr (mem_of_find?_eq_some hx))
  have hnum : x.num = old := by simpa using List.find?_some hx
  simpa [hnum] using hne

lemma count_filter_cloexec (t : Table) (e : Fd) :
    (Table.fds (t.filter (!·.cloexec))).count e + (Table.fds (t.filter (·.cloexec))).count e =
      (Table.fds t).count e := by
  induction t with
  | nil => rfl
  | cons a t ih =>
    cases hc : a.cloexec with
    | true =>
      simp only [filter_cons, hc, Bool.not_true, Bool.false_eq_true, if_false, if_true,
        Table.fds, map_cons, count_cons] at ih ⊢
      omega
    | false =>
      simp only [filter_cons, hc, Bool.not_false, Bool.false_eq_true, if_false, if_true,
        Table.fds, map_cons, count_cons] at ih ⊢
      omega

/-! ### The calls -/

lemma Busy.pipe2 (h : Busy s f []) (cloexec : Bool) : Busy (s.pipe2 f cloexec) f [] := by
  have hzero : ∀ e, e = Fd.pipeRead s.pipes ∨ e = Fd.pipeWrite s.pipes → s.refs e = 0 := by
    intro e he
    by_contra hne
    rcases he with rfl | rfl
    · exact lt_irrefl _ (h.counted.has _ (by simp) (pos_of_ne_zero hne))
    · exact lt_irrefl _ (h.counted.has _ (by simp) (pos_of_ne_zero hne))
  have hread := h.counted.addPipe.fresh (e := .pipeRead s.pipes) (by simp)
    (hzero _ (.inl rfl)) (Nat.lt_succ_self s.pipes) (by simp)
  have hwrite := hread.fresh (e := .pipeWrite s.pipes) (by simp)
    (by simpa [setRefs] using hzero _ (.inr rfl)) (Nat.lt_succ_self s.pipes) (by simp)
  have hboth : Busy ((({ s with pipes := s.pipes + 1 } : State).setRefs (.pipeRead s.pipes)
      1).setRefs (.pipeWrite s.pipes) 1) f [.pipeRead s.pipes, .pipeWrite s.pipes] :=
    h.frame ⟨rfl, rfl, rfl⟩ (hwrite.congr fun e _ => (List.Perm.swap _ _ []).count_eq e)
  exact (hboth.alloc 0 cloexec).alloc 0 cloexec

lemma refs_new_sock (h : Counted s extra) (far : Bool) :
    s.refs (.socket s.socks.length far) = 0 := by
  by_contra hne
  exact lt_irrefl _ (h.has _ (by simp) (pos_of_ne_zero hne))

lemma has_addSock (s : State) (x : Kind) (far : Bool) :
    (s.addSock x).Has (.socket s.socks.length far) := by
  show s.socks.length < (s.socks ++ [x]).length
  simp

lemma Busy.socket (h : Busy s f []) (stream cloexec : Bool) :
    Busy (s.socket f stream cloexec) f [] := by
  have hadd : Counted (s.addSock (if stream then .idle else .plain)) [] :=
    h.counted.addSock (by cases stream <;> rfl) (by cases stream <;> rfl)
  have hnew := hadd.fresh (e := .socket s.socks.length false) (by simp)
    (refs_new_sock h.counted false) (has_addSock s _ false) (by simp)
  have hbusy : Busy ((s.addSock (if stream then .idle else .plain)).setRefs
      (.socket s.socks.length false) 1) f [.socket s.socks.length false] :=
    h.frame ⟨rfl, rfl, rfl⟩ hnew
  exact hbusy.alloc 0 cloexec

lemma Busy.socketpair (h : Busy s f []) (cloexec : Bool) : Busy (s.socketpair f cloexec) f [] := by
  have hnear := (h.counted.addSock (x := .pair [] []) rfl rfl).fresh
    (e := .socket s.socks.length false) (by simp) (refs_new_sock h.counted false)
    (has_addSock s _ false) (by simp)
  have hfar := hnear.fresh (e := .socket s.socks.length true) (by simp)
    (by simpa [setRefs, addSock] using refs_new_sock h.counted true)
    (has_addSock s _ true) (by
      intro k hk
      cases hk
      simp [isPair, setRefs, addSock, Kind.isPair])
  have hboth : Busy (((s.addSock (.pair [] [])).setRefs (.socket s.socks.length false)
      1).setRefs (.socket s.socks.length true) 1) f
      [.socket s.socks.length false, .socket s.socks.length true] :=
    h.frame ⟨rfl, rfl, rfl⟩ (hfar.congr fun e _ => (List.Perm.swap _ _ []).count_eq e)
  exact (hboth.alloc 0 cloexec).alloc 0 cloexec

lemma Busy.setSock {old : Kind} (h : Busy s f extra) (hk : s.socks[k]? = some old)
    (hcount : ∀ e, e ≠ .other → x.inFlight.count e + x.backlog.count e + extra'.count e =
        old.inFlight.count e + old.backlog.count e + extra.count e)
    (hpair : x.isPair = false → old.isPair = false)
    (hback : ∀ e ∈ x.backlog, e ∈ old.backlog) : Busy (s.setSock k x) f extra' :=
  h.frame ⟨rfl, rfl, rfl⟩
    (h.counted.setSock hk hcount hpair fun e he => .inl (hback e he))

lemma Busy.connect {l : Nat} (h : Busy s f []) (hs : s.connect k l = some s') : Busy s' f [] := by
  unfold State.connect at hs
  split at hs
  next b hk hl =>
    split at hs
    · cases hs
      have hne : k ≠ l := by
        rintro rfl
        rw [hk] at hl
        cases hl
      have hlt := (List.getElem?_eq_some_iff.mp hk).1
      have hpair : Counted (s.setSock k (.pair [] [])) [] :=
        h.counted.setSock hk (fun _ _ => rfl) (by simp [Kind.isPair]) (by simp [Kind.backlog])
      have hzero : s.refs (.socket k true) = 0 :=
        h.counted.flat k (by simp [State.isPair, hk, Kind.isPair])
      have hfar := hpair.fresh (e := .socket k true) (by simp) hzero
        (by simpa [State.Has, State.setSock] using hlt) (by
          intro j hj
          cases hj
          simp [State.isPair, State.setSock, hlt, Kind.isPair])
      have hl' : ((s.setSock k (.pair [] [])).setRefs (.socket k true) 1).socks[l]? =
          some (.listener b) := by
        simpa [State.setRefs, State.setSock, List.getElem?_set, hne] using hl
      have hdone : Counted (((s.setSock k (.pair [] [])).setRefs (.socket k true) 1).setSock l
          (.listener (b ++ [k]))) [] := by
        refine hfar.setSock hl' (fun e _ => ?_) (fun _ => rfl) fun e he => ?_
        · simp only [Kind.inFlight, Kind.backlog, map_append, map_cons, map_nil,
            count_append, count_nil]
          omega
        simp only [Kind.backlog, map_append, map_cons, map_nil, mem_append, mem_singleton] at he
        rcases he with he | rfl
        · exact .inl he
        · exact .inr (by simp [State.setRefs])
      exact h.frame ⟨rfl, rfl, rfl⟩ hdone
    · cases hs
  · cases hs

lemma queue_eq (h : s.queue k far = some q) :
    ∃ near far', s.socks[k]? = some (.pair near far') ∧ q = if far then far' else near := by
  unfold queue at h
  split at h
  next near far' hk =>
    exact ⟨near, far', hk, (Option.some.inj h).symm⟩
  · cases h

lemma Busy.setQueue {g : List (List Fd)} (h : Busy s f extra) (hq : s.queue k far = some q)
    (hcount : ∀ e, e ≠ .other →
      g.flatten.count e + extra'.count e = q.flatten.count e + extra.count e) :
    Busy (s.setQueue k far g) f extra' := by
  obtain ⟨near, far', hk, hcase⟩ := queue_eq hq
  have hset : s.setQueue k far g =
      s.setSock k (if far then .pair near g else .pair g far') := by
    simp only [State.setQueue, hk]
  rw [hset]
  cases far with
  | true =>
    obtain rfl : q = far' := hcase
    refine h.setSock hk (fun e he => ?_) (by simp [Kind.isPair]) (by simp [Kind.backlog])
    have := hcount e he
    simp only [Kind.inFlight, Kind.backlog, if_true, count_append]
    omega
  | false =>
    obtain rfl : q = near := hcase
    refine h.setSock hk (fun e he => ?_) (by simp [Kind.isPair]) (by simp [Kind.backlog])
    have := hcount e he
    simp only [Kind.inFlight, Kind.backlog, Bool.false_eq_true, if_false, count_append]
    omega

lemma Busy.takeGroups (h : Busy s f []) (hq : s.queue k far = some q) (n : Nat) :
    Busy (s.setQueue k far (q.drop n)) f (q.take n).flatten := by
  refine h.setQueue hq fun e _ => ?_
  have hsplit : q.flatten = (q.take n).flatten ++ (q.drop n).flatten := by
    rw [← flatten_append, take_append_drop]
  rw [hsplit, count_append, count_nil]
  omega

lemma Busy.deliver (h : Busy s f fds) (capacity : Nat)
    (cloexec : Bool) : Busy (s.deliver f fds capacity cloexec false) f [] := by
  unfold State.deliver
  refine Busy.allocAll cloexec (fds.take capacity) ?_
  rw [append_nil]
  refine Busy.dropAll (h.frame ⟨rfl, rfl, rfl⟩ (h.counted.congr fun e _ => ?_))
  rw [count_append, add_comm, ← count_append, take_append_drop]

/-! ### Tasks -/

lemma mem_fds_tabled (s : State) (f : Nat) : ∀ fd ∈ (s.table f).fds, fd ∈ s.tabled :=
  fun _ h => mem_tabled h

lemma table_append {t : Table} (h : s'.tables = s.tables ++ [t])
    (f : Nat) : s'.table f = if f = s.tables.length then t else s.table f := by
  unfold table
  rw [h]
  simp only [getD_eq_getElem?_getD]
  by_cases hlt : f < s.tables.length
  · rw [List.getElem?_append_left hlt, if_neg (by omega)]
  by_cases heq : f = s.tables.length
  · simp [heq]
  rw [if_neg heq, List.getElem?_eq_none (by simp; omega),
    List.getElem?_eq_none (l := s.tables) (by omega)]

lemma Counted.of_tasks (h : Counted s extra) (procs : List Task) (free : List Nat) :
    Counted { s with procs := procs, free := free } extra := ⟨h.count, h.has, h.flat, h.pending⟩

section

variable (h : Inv s) (hr : s.running t = some p)
include h hr

lemma Inv.clone (share : Bool) (tgid : Nat) :
    Inv (s.clone p share tgid) := by
  have hb := h.busy hr
  have hmem := mem_of_getElem? (running_spec hr).1
  unfold State.clone
  cases share with
  | true =>
    exact ⟨h.counted.of_tasks .., housed_iff.mpr ((housed_iff.mp h.housed).share hmem rfl rfl)⟩
  | false =>
    rw [if_neg (by decide)]
    dsimp only
    have hcopy := hb.retainAll (mem_fds_tabled s p.files)
    revert hcopy
    generalize s.retainAll (s.table p.files).fds = s'
    intro hcopy
    have hsettled := housed_iff.mp hcopy.housed
    cases hfree : s'.free with
    | nil =>
      refine ⟨hcopy.counted.addTable.of_tasks .., housed_iff.mpr ?_⟩
      rw [length_append]
      refine hsettled.grow.add rfl (Nat.lt_succ_self _) (fun f hf => absurd hf not_mem_nil)
        nodup_nil fun f hf hfull => ?_
      rwa [table_append (s := s') rfl, if_neg hf] at hfull
    | cons slot rest =>
      rw [hfree] at hsettled
      obtain ⟨hlt, hno⟩ := hsettled.free slot mem_cons_self
      obtain ⟨hnew, hnodup⟩ := nodup_cons.mp hsettled.nodup
      have hempty : s'.table slot = [] := not_not.mp (hsettled.vacant hno)
      have hset : Counted (s'.setTable slot (s.table p.files)) [] :=
        hcopy.counted.setTable hlt fun e _ => by simp [hempty, Table.fds]
      refine ⟨hset.of_tasks .., housed_iff.mpr ?_⟩
      rw [length_set]
      refine hsettled.add rfl hlt (fun f hf =>
        ⟨mem_cons_of_mem _ hf, ne_of_mem_of_not_mem hf hnew⟩) hnodup fun f hf hfull => ?_
      have htab : (s'.setTable slot (s.table p.files)).table f ≠ [] := hfull
      rwa [table_setTable, if_neg fun hc => hf hc.1.symm] at htab

/-- If a task shares the caller's table, a living one does. -/
def State.Shares (s : State) (t : Nat) : Prop :=
  ∀ p, s.running t = some p → (s.procs.eraseIdx t).any (·.files = p.files) = true →
    (s.procs.eraseIdx t).any (fun q => q.files = p.files && !q.zombie) = true

lemma Inv.unshare (hshares : s.Shares t) :
    Inv (s.unshare t p) ∧ ∃ p', (s.unshare t p).running t = some p' := by
  unfold State.unshare
  split
  next hany =>
    obtain ⟨hget, hz⟩ := running_spec hr
    have hcopy := (h.busy hr).retainAll (mem_fds_tabled s p.files)
    have hframe := frame_retainAll (s.table p.files).fds s
    revert hcopy hframe
    generalize s.retainAll (s.table p.files).fds = s'
    intro hcopy hframe
    have hcopy' : Counted s' ((s'.table p.files).fds ++ []) := by
      rw [hframe.table]
      exact hcopy.counted
    have hget' : s'.procs[t]? = some p := by rw [hframe.procs]; exact hget
    have hlt := (List.getElem?_eq_some_iff.mp hget').1
    constructor
    · refine ⟨hcopy'.addTable.of_tasks .., housed_iff.mpr ?_⟩
      rw [length_append]
      have hsettled := housed_iff.mp hcopy.housed
      refine hsettled.grow.replace hget' (Nat.lt_succ_self _)
        (fun hc => absurd (hsettled.free _ hc).1 (lt_irrefl _)) fun f hf => ?_
      rw [table_append (s := s') rfl] at hf
      by_cases hnew : f = s'.tables.length
      · exact .inr ⟨_, mem_set hlt _, hnew.symm, hz⟩
      by_cases hfp : f = p.files
      · -- a living task shares the table that stays behind
        obtain ⟨q, hq, hqp⟩ := any_eq_true.mp (hshares p hr hany)
        have hqp : q.files = p.files ∧ q.zombie = false := by simpa using hqp
        refine .inr ⟨q, mem_set_of_mem_eraseIdx ?_, hqp.1.trans hfp.symm, hqp.2⟩
        rw [hframe.procs]
        exact hq
      · exact .inl ⟨by rwa [if_neg hnew] at hf, hfp⟩
    · exact ⟨_, Option.filter_eq_some_iff.mpr ⟨List.getElem?_set_self hlt, by simp [hz]⟩⟩
  · exact ⟨h, p, hr⟩

lemma Inv.exitTask : Inv (s.exitTask t p) := by
  obtain ⟨hget, hz⟩ := running_spec hr
  have hsettled := housed_iff.mp h.housed
  have hlt := h.housed.files p (mem_of_getElem? hget)
  unfold State.exitTask
  dsimp only
  split
  next hany =>
    refine ⟨h.counted.of_tasks .., housed_iff.mpr (hsettled.exit hget fun f hf =>
      ⟨hf, fun hfp => ?_⟩)⟩
    subst hfp
    simpa using hany
  have hset : Counted (s.setTable p.files []) ((s.table p.files).fds ++ []) :=
    h.counted.setTable hlt fun e _ => by simp [Table.fds]
  have hhoused : Housed ({ s with procs := s.procs.set t { p with zombie := true } }.setTable
      p.files []) := by
    rw [housed_iff]
    show Settled _ _ (s.tables.set p.files []).length _
    rw [length_set]
    refine hsettled.exit hget fun f hf => ?_
    have htab : (s.setTable p.files []).table f ≠ [] := hf
    rw [table_setTable] at htab
    split at htab
    · exact absurd rfl htab
    rename_i hne
    exact ⟨htab, fun hfp => absurd ⟨hfp.symm, hfp ▸ hlt⟩ hne⟩
  exact ⟨(hset.of_tasks ..).dropAll _, hhoused.frame (frame_dropAll ..)⟩

end

lemma counted_drainTable (h : Counted s []) (f : Nat) : Counted (s.drainTable f) [] := by
  unfold drainTable
  by_cases hf : f < s.tables.length
  · have hset : Counted (s.setTable f []) ((s.table f).fds ++ []) :=
      h.setTable hf fun e _ => by simp [Table.fds]
    exact hset.dropAll _
  have hnil : s.table f = [] := by
    rw [table, getD_eq_getElem?_getD, List.getElem?_eq_none (by omega)]
    rfl
  have hsame : s.setTable f [] = s := by
    rw [setTable, set_eq_of_length_le (by omega)]
  rw [hnil, hsame]
  exact h

lemma drainTables (fs : List Nat) : ∀ {s : State}, Counted s [] →
      Counted (fs.foldl drainTable s) [] ∧ (fs.foldl drainTable s).procs = s.procs ∧
        (fs.foldl drainTable s).free = s.free ∧
        (fs.foldl drainTable s).tables.length = s.tables.length ∧
        ∀ f, (fs.foldl drainTable s).table f = if f ∈ fs then [] else s.table f := by
  induction fs with
  | nil =>
    intro s h
    exact ⟨h, rfl, rfl, rfl, fun f => by simp⟩
  | cons g fs ih =>
    intro s h
    obtain ⟨hc, hp, hfree, hlen, htab⟩ := ih (counted_drainTable h g)
    have hframe := frame_dropAll (s.table g).fds (s.setTable g [])
    refine ⟨hc, hp.trans hframe.procs, hfree.trans hframe.free, hlen.trans ?_, fun f => ?_⟩
    · rw [drainTable, hframe.tables]
      exact length_set
    rw [foldl_cons, htab f]
    have hone : (s.drainTable g).table f = if g = f then [] else s.table f := by
      rw [drainTable, hframe.table, table_setTable]
      by_cases hgf : g = f
      · subst hgf
        by_cases hlt : g < s.tables.length
        · simp [hlt]
        simp only [hlt, and_false, if_false, if_true]
        rw [table, getD_eq_getElem?_getD, List.getElem?_eq_none (by omega)]
        rfl
      · simp [hgf]
    rw [hone]
    by_cases hfs : f ∈ fs
    · simp [hfs]
    by_cases hgf : g = f
    · simp [hgf]
    · simp [hfs, hgf, Ne.symm hgf]

lemma Inv.exitGroup (h : Inv s) (hr : s.running t = some p) : Inv (s.exitGroup t p) := by
  obtain ⟨hget, hz⟩ := running_spec hr
  let doomed := fun q : Task => decide (q.tgid = p.tgid) && !q.zombie
  let s1 : State := { s with procs := (s.procs.map fun q =>
    if doomed q then { q with zombie := true } else q).set t p }
  let ids := (((s.procs.eraseIdx t).filter doomed).map (·.files)).filter (· ≠ p.files)
  have hc1 : Counted s1 [] := h.counted.of_tasks ..
  obtain ⟨hc, hp, hfree, hlen, htab⟩ := drainTables ids hc1
  have hfull : ∀ f, (ids.foldl drainTable s1).table f ≠ [] → s.table f ≠ [] ∧ f ∉ ids := by
    intro f hf
    rw [htab] at hf
    split at hf
    · exact absurd rfl hf
    · exact ⟨hf, ‹_›⟩
  obtain ⟨hgroup, hat⟩ := (housed_iff.mp h.housed).group hget hz (rfl : s1.procs = _) hfull
  have hinv : Inv (ids.foldl drainTable s1) := by
    refine ⟨hc, housed_iff.mpr ?_⟩
    rw [hp, hfree, hlen]
    exact hgroup
  have hrun : (ids.foldl drainTable s1).running t = some p := by
    rw [running, hp, hat]
    simp [hz]
  exact hinv.exitTask hrun

lemma Inv.reap (h : Inv s) (hget : s.procs[t]? = some p) (hz : p.zombie = true) :
    Inv (s.reap t p) := by
  have hmem := mem_of_getElem? hget
  have hlt := h.housed.files p hmem
  have hrest := (housed_iff.mp h.housed).reap hget hz
  unfold State.reap
  dsimp only
  split
  · exact ⟨h.counted.of_tasks .., housed_iff.mpr hrest⟩
  rename_i hany
  have hnone : ∀ q ∈ s.procs.eraseIdx t, q.files ≠ p.files := by
    intro q hq heq
    exact hany (any_eq_true.mpr ⟨q, hq, by simpa using heq⟩)
  have hempty : s.table p.files = [] := not_not.mp (hrest.vacant hnone)
  have hset : Counted (s.setTable p.files []) [] :=
    h.counted.setTable hlt fun e _ => by simp [hempty]
  have htab : (s.setTable p.files []).table = s.table := by
    funext f
    rw [table_setTable]
    split
    next hf =>
      rw [← hf.1, hempty]
    · rfl
  refine ⟨hset.of_tasks .., housed_iff.mpr ?_⟩
  show Settled _ _ (s.tables.set p.files []).length fun f => (s.setTable p.files []).table f ≠ []
  rw [length_set, htab]
  exact hrest.reclaim hlt (fun hc => (h.housed.free _ hc).2 p hmem rfl) hnone

end Invariant

/-! ### Runs -/

/-- A table is left behind only to the living, and descriptors are received into writable buffers.
-/
def Tidy (s : State) : Op → Prop
  | .unshare t => s.Shares t
  | .closeRange t _ _ unshare => unshare = true → s.Shares t
  | .recv t n groups _ _ fault => fault = true → ∀ p k far q, s.running t = some p →
      s.sockOf p n = some (k, far) → s.queue k far = some q → (q.take groups).flatten = []
  | _ => True

lemma bind_eq_some {α β : Type} {x : Option α} {g : α → Option β} {b : β}
    (h : (do let a ← x; g a) = some b) : ∃ a, x = some a ∧ g a = some b :=
  Option.bind_eq_some_iff.mp h

/-- What a call that goes through does, and what it found. -/
inductive State.Call (s : State) : Op → State → Prop
  | pipe2 {t cloexec p} (hr : s.running t = some p) :
    s.Call (.pipe2 t cloexec) (s.pipe2 p.files cloexec)
  | socket {t stream cloexec p} (hr : s.running t = some p) :
    s.Call (.socket t stream cloexec) (s.socket p.files stream cloexec)
  | socketpair {t cloexec p} (hr : s.running t = some p) :
    s.Call (.socketpair t cloexec) (s.socketpair p.files cloexec)
  | listen {t n p k far} (hr : s.running t = some p) (hsock : s.sockOf p n = some (k, far))
    (hk : s.socks[k]? = some .idle) : s.Call (.listen t n) (s.setSock k (.listener []))
  | connect {t n l p k s'} (hr : s.running t = some p) (hsock : s.sockOf p n = some (k, false))
    (hc : s.connect k l = some s') : s.Call (.connect t n l) s'
  | bridge {t n p k far} (hr : s.running t = some p) (hsock : s.sockOf p n = some (k, far))
    (hk : s.socks[k]? = some .idle) : s.Call (.bridge t n) (s.setSock k .plain)
  | accept {t n cloexec p l far k b} (hr : s.running t = some p)
    (hsock : s.sockOf p n = some (l, far)) (hl : s.socks[l]? = some (.listener (k :: b))) :
    s.Call (.accept t n cloexec)
      ((s.setSock l (.listener b)).alloc p.files (.socket k true) 0 cloexec)
  | dup {t n low cloexec p fd} (hr : s.running t = some p)
    (hget : (s.table p.files).get n = some fd) :
    s.Call (.dup t n low cloexec) ((s.retain fd).alloc p.files fd low cloexec)
  | dup2Same {t n cloexec p fd} (hr : s.running t = some p)
    (hget : (s.table p.files).get n = some fd) : s.Call (.dup2 t n n cloexec) s
  | dup2 {t old new cloexec p fd} (hr : s.running t = some p)
    (hget : (s.table p.files).get old = some fd) (hne : old ≠ new) :
    s.Call (.dup2 t old new cloexec)
      (((s.close p.files new).retain fd).setTable p.files
        (⟨new, fd, cloexec⟩ :: ((s.close p.files new).retain fd).table p.files))
  | pidfdGetfd {t target n p q fd} (hr : s.running t = some p) (hq : s.running target = some q)
    (hget : (s.table q.files).get n = some fd) :
    s.Call (.pidfdGetfd t target n) ((s.retain fd).alloc p.files fd 0 true)
  | close {t n p} (hr : s.running t = some p) : s.Call (.close t n) (s.close p.files n)
  | closeRange {t first last unshare p} (s₁ : State) (hr : s.running t = some p)
    (hs₁ : s₁ = if unshare then s.unshare t p else s) :
    s.Call (.closeRange t first last unshare)
      (((s₁.table (s₁.filesOf t)).range first last).foldl (fun s n => s.close (s₁.filesOf t) n) s₁)
  | setCloexec {t first last on p} (hr : s.running t = some p) :
    s.Call (.setCloexec t first last on) (s.setTable p.files ((s.table p.files).map fun e =>
      if first ≤ e.num && e.num ≤ last then { e with cloexec := on } else e))
  | clone {t share tgid p} (hr : s.running t = some p) :
    s.Call (.clone t share tgid) (s.clone p share tgid)
  | unshare {t p} (hr : s.running t = some p) : s.Call (.unshare t) (s.unshare t p)
  | exec {t p} (hr : s.running t = some p) :
    s.Call (.exec t) ((s.setTable p.files ((s.table p.files).filter (!·.cloexec))).dropAll
      (Table.fds ((s.table p.files).filter (·.cloexec))))
  | exit {t p} (hr : s.running t = some p) : s.Call (.exit t) (s.exitTask t p)
  | exitGroup {t p} (hr : s.running t = some p) : s.Call (.exitGroup t) (s.exitGroup t p)
  | reap {t p} (hget : s.procs[t]? = some p) (hz : p.zombie = true) :
    s.Call (.reap t) (s.reap t p)
  | send {t n nums p k far fds q} (hr : s.running t = some p)
    (hsock : s.sockOf p n = some (k, far)) (hfds : nums.mapM (s.table p.files).get = some fds)
    (hq : s.queue k (!far) = some q) :
    s.Call (.send t n nums) ((s.retainAll fds).setQueue k (!far) (q ++ [fds]))
  | recv {t n groups capacity cloexec fault p k far q} (hr : s.running t = some p)
    (hsock : s.sockOf p n = some (k, far)) (hq : s.queue k far = some q) :
    s.Call (.recv t n groups capacity cloexec fault)
      ((s.setQueue k far (q.drop groups)).deliver p.files (q.take groups).flatten capacity
        cloexec fault)
  | discard {t n groups p k far q} (hr : s.running t = some p)
    (hsock : s.sockOf p n = some (k, far)) (hq : s.queue k far = some q) :
    s.Call (.discard t n groups)
      ((s.setQueue k far (q.drop groups)).dropAll (q.take groups).flatten)

variable {e : Fd} {s s' : State} {t : Nat} {p : Task}

lemma step_call {op : Op} (hstep : s.step op = some s') : s.Call op s' := by
  cases op with
  | pipe2 t cloexec =>
    obtain ⟨p, hr, rfl⟩ := Option.map_eq_some_iff.mp hstep
    exact .pipe2 hr
  | socket t stream cloexec =>
    obtain ⟨p, hr, rfl⟩ := Option.map_eq_some_iff.mp hstep
    exact .socket hr
  | socketpair t cloexec =>
    obtain ⟨p, hr, rfl⟩ := Option.map_eq_some_iff.mp hstep
    exact .socketpair hr
  | listen t n =>
    obtain ⟨p, hr, hstep⟩ := bind_eq_some hstep
    obtain ⟨⟨k, far⟩, hsock, hstep⟩ := bind_eq_some hstep
    dsimp only at hstep
    split at hstep
    next hk =>
      cases hstep
      exact .listen hr hsock hk
    · cases hstep
  | connect t n l =>
    obtain ⟨p, hr, hstep⟩ := bind_eq_some hstep
    obtain ⟨⟨k, far⟩, hsock, hstep⟩ := bind_eq_some hstep
    cases far with
    | true => cases hstep
    | false => exact .connect hr hsock hstep
  | bridge t n =>
    obtain ⟨p, hr, hstep⟩ := bind_eq_some hstep
    obtain ⟨⟨k, far⟩, hsock, hstep⟩ := bind_eq_some hstep
    dsimp only at hstep
    split at hstep
    next hk =>
      cases hstep
      exact .bridge hr hsock hk
    · cases hstep
  | accept t n cloexec =>
    obtain ⟨p, hr, hstep⟩ := bind_eq_some hstep
    obtain ⟨⟨l, far⟩, hsock, hstep⟩ := bind_eq_some hstep
    dsimp only at hstep
    split at hstep
    next k b hl =>
      cases hstep
      exact .accept hr hsock hl
    · cases hstep
  | dup t n low cloexec =>
    obtain ⟨p, hr, hstep⟩ := bind_eq_some hstep
    obtain ⟨fd, hget, hstep⟩ := bind_eq_some hstep
    cases hstep
    exact .dup hr hget
  | dup2 t old new cloexec =>
    obtain ⟨p, hr, hstep⟩ := bind_eq_some hstep
    obtain ⟨fd, hget, hstep⟩ := bind_eq_some hstep
    split at hstep
    next heq =>
      cases hstep
      exact heq ▸ .dup2Same hr hget
    rename_i hne
    cases hstep
    exact .dup2 hr hget hne
  | pidfdGetfd t target n =>
    obtain ⟨p, hr, hstep⟩ := bind_eq_some hstep
    obtain ⟨q, hq, hstep⟩ := bind_eq_some hstep
    obtain ⟨fd, hget, hstep⟩ := bind_eq_some hstep
    cases hstep
    exact .pidfdGetfd hr hq hget
  | close t n =>
    obtain ⟨p, hr, rfl⟩ := Option.map_eq_some_iff.mp hstep
    exact .close hr
  | closeRange t first last unshare =>
    obtain ⟨p, hr, hstep⟩ := bind_eq_some hstep
    cases hstep
    exact .closeRange _ hr rfl
  | setCloexec t first last on =>
    obtain ⟨p, hr, rfl⟩ := Option.map_eq_some_iff.mp hstep
    exact .setCloexec hr
  | clone t share tgid =>
    obtain ⟨p, hr, rfl⟩ := Option.map_eq_some_iff.mp hstep
    exact .clone hr
  | unshare t =>
    obtain ⟨p, hr, rfl⟩ := Option.map_eq_some_iff.mp hstep
    exact .unshare hr
  | exec t =>
    obtain ⟨p, hr, rfl⟩ := Option.map_eq_some_iff.mp hstep
    exact .exec hr
  | exit t =>
    obtain ⟨p, hr, rfl⟩ := Option.map_eq_some_iff.mp hstep
    exact .exit hr
  | exitGroup t =>
    obtain ⟨p, hr, rfl⟩ := Option.map_eq_some_iff.mp hstep
    exact .exitGroup hr
  | reap t =>
    obtain ⟨p, hget, hstep⟩ := bind_eq_some hstep
    split at hstep
    next hz =>
      cases hstep
      exact .reap hget hz
    · cases hstep
  | send t n nums =>
    obtain ⟨p, hr, hstep⟩ := bind_eq_some hstep
    obtain ⟨⟨k, far⟩, hsock, hstep⟩ := bind_eq_some hstep
    obtain ⟨fds, hfds, hstep⟩ := bind_eq_some hstep
    obtain ⟨q, hq, hstep⟩ := bind_eq_some hstep
    cases hstep
    exact .send hr hsock hfds hq
  | recv t n groups capacity cloexec fault =>
    obtain ⟨p, hr, hstep⟩ := bind_eq_some hstep
    obtain ⟨⟨k, far⟩, hsock, hstep⟩ := bind_eq_some hstep
    obtain ⟨q, hq, hstep⟩ := bind_eq_some hstep
    cases hstep
    exact .recv hr hsock hq
  | discard t n groups =>
    obtain ⟨p, hr, hstep⟩ := bind_eq_some hstep
    obtain ⟨⟨k, far⟩, hsock, hstep⟩ := bind_eq_some hstep
    obtain ⟨q, hq, hstep⟩ := bind_eq_some hstep
    cases hstep
    exact .discard hr hsock hq

lemma filesOf_running (hr : s.running t = some p) : s.filesOf t = p.files := by
  simp [filesOf, (running_spec hr).1]

lemma inv_step {op : Op} (h : Inv s) (hop : Tidy s op) (hstep : s.step op = some s') : Inv s' := by
  cases step_call hstep with
  | pipe2 hr => exact ((h.busy hr).pipe2 _).inv
  | socket hr => exact ((h.busy hr).socket ..).inv
  | socketpair hr => exact ((h.busy hr).socketpair _).inv
  | listen hr hsock hk =>
    exact ((h.busy hr).setSock (x := .listener []) hk (fun _ _ => rfl) (fun _ => rfl)
      (by simp [Kind.backlog])).inv
  | connect hr hsock hc => exact ((h.busy hr).connect hc).inv
  | bridge hr hsock hk =>
    exact ((h.busy hr).setSock (x := .plain) hk (fun _ _ => rfl) (fun _ => rfl)
      (by simp [Kind.backlog])).inv
  | @accept t n cloexec p l far k b hr hsock hl =>
    have hbusy : Busy (s.setSock l (.listener b)) p.files [.socket k true] := by
      refine (h.busy hr).setSock hl (fun e _ => ?_) (fun _ => rfl) fun e he => ?_
      · simp only [Kind.inFlight, Kind.backlog, map_cons, count_cons, count_nil]
        omega
      · exact mem_cons_of_mem _ he
    exact (hbusy.alloc 0 cloexec).inv
  | dup hr hget =>
    have hbusy := (h.busy hr).retain (mem_tabled (mem_fds_of_get hget))
    exact (hbusy.alloc ..).inv
  | dup2Same hr hget => exact h
  | dup2 hr hget hne =>
    have hb := h.busy hr
    have hbusy := (hb.close _).retain (mem_tabled_close hget hne hb.lt)
    refine (hbusy.setTable fun e _ => ?_).inv
    simp only [Table.fds, map_cons, count_cons]
    omega
  | pidfdGetfd hr hq hget =>
    have hbusy := (h.busy hr).retain (mem_tabled (mem_fds_of_get hget))
    exact (hbusy.alloc 0 true).inv
  | close hr => exact ((h.busy hr).close _).inv
  | @closeRange t first last unshare p s1 hr hs1 =>
    have hnext : Inv s1 ∧ ∃ p', s1.running t = some p' := by
      subst hs1
      cases unshare with
      | true => exact h.unshare hr (hop rfl)
      | false => exact ⟨h, p, hr⟩
    obtain ⟨hinv, p', hr'⟩ := hnext
    rw [filesOf_running hr']
    exact (Busy.closeAll _ (hinv.busy hr')).inv
  | @setCloexec t first last on p hr =>
    refine ((h.busy hr).setTable fun e _ => ?_).inv
    have hsame : Table.fds ((s.table p.files).map fun e =>
        if first ≤ e.num && e.num ≤ last then { e with cloexec := on } else e) =
          (s.table p.files).fds := by
      rw [Table.fds, Table.fds, map_map]
      refine map_congr_left fun x _ => ?_
      simp only [Function.comp]
      split <;> rfl
    rw [hsame]
  | clone hr => exact h.clone hr ..
  | unshare hr => exact (h.unshare hr hop).1
  | @exec t p hr =>
    refine Busy.inv (f := p.files) (Busy.dropAll ((h.busy hr).setTable fun e _ => ?_))
    rw [append_nil, count_filter_cloexec, count_nil, add_zero]
  | exit hr => exact h.exitTask hr
  | exitGroup hr => exact h.exitGroup hr
  | reap hget hz => exact h.reap hget hz
  | @send t n nums p k far fds q hr hsock hfds hq =>
    have hmem : ∀ fd ∈ fds, fd ∈ s.tabled := fun fd hfd => by
      obtain ⟨m, hm⟩ := Run.exists_of_mem_mapM hfds fd hfd
      exact mem_tabled (mem_fds_of_get hm)
    have hq' : (s.retainAll fds).queue k (!far) = some q := by
      rw [queue, socks_retainAll]
      exact hq
    refine (((h.busy hr).retainAll hmem).setQueue hq' fun e _ => ?_).inv
    simp only [flatten_append, flatten_cons, flatten_nil, append_nil, count_append, count_nil]
    omega
  | @recv t n groups capacity cloexec fault p k far q hr hsock hq =>
    have htaken := (h.busy hr).takeGroups hq groups
    cases fault with
    | true =>
      rw [hop rfl p k far q hr hsock hq] at htaken
      exact htaken.inv
    | false => exact (htaken.deliver capacity cloexec).inv
  | @discard t n groups p k far q hr hsock hq =>
    refine Busy.inv (f := p.files) (Busy.dropAll ?_)
    rw [append_nil]
    exact (h.busy hr).takeGroups hq groups

lemma inv_init : Inv init := by
  refine ⟨⟨fun e he => ?_, fun e _ hpos => ?_, fun _ _ => rfl, fun e he => by cases he⟩, ?_⟩
  · have hne : ¬Fd.other = e := fun h => he h.symm
    show 0 = List.count e [Fd.other, Fd.other, Fd.other] + 0 + 0 + 0
    simp [hne]
  · exact absurd hpos (lt_irrefl 0)
  refine ⟨fun p hp => ?_, fun f hf => ?_, nofun, nodup_nil⟩
  · rw [mem_singleton.mp hp]
    exact Nat.one_pos
  cases f with
  | zero => exact absurd hf (by decide)
  | succ f => rfl

/-! ### What is counted -/

lemma sum_filter_eq {p : Nat → Bool} {g : Nat → Nat} (l : List Nat)
    (h : ∀ x ∈ l, p x = false → g x = 0) : ((l.filter p).map g).sum = (l.map g).sum := by
  induction l with
  | nil => rfl
  | cons x l ih =>
    have hrest := ih fun y hy => h y (by simp [hy])
    cases hp : p x with
    | true => simp [hp, hrest]
    | false => simp [hp, hrest, h x (by simp) hp]

lemma tabled_count (s : State) (e : Fd) :
    s.tabled.count e = ((List.range s.tables.length).map fun f => (s.table f).fds.count e).sum := by
  have hmap : (List.range s.tables.length).map (fun f => (s.table f).fds.count e) =
      s.tables.map fun t => (Table.fds t).count e := by
    refine ext_getElem (by simp) fun i hi hi' => ?_
    have hlt : i < s.tables.length := by simpa using hi
    have htab : s.table i = s.tables[i] := by
      rw [table, getD_eq_getElem?_getD, List.getElem?_eq_getElem hlt]
      rfl
    simp [htab]
  rw [hmap, tabled, count_flatMap]
  rfl

lemma Inv.of_reach {can : State → Op → Prop} (hcan : ∀ s op, can s op → Tidy s op)
    (h : State.Reach can init s) : Inv s :=
  h.invariant (P := Inv) inv_init fun _ op _ hs hop hstep => inv_step hs (hcan _ op hop) hstep

lemma Inv.references (h : Inv s) (he : e ≠ .other) : s.refs e = s.references e := by
  have hlive := sum_filter_eq (p := s.inUse) (g := fun f => (s.table f).fds.count e)
    (List.range s.tables.length) fun f _ hf => by simp [h.housed.dead f hf, Table.fds]
  have hc := h.counted.count e he
  rw [tabled_count, ← hlive] at hc
  exact hc

/-- **The counts are the references.** In every run of tidy calls, an end counts the descriptors
for it that living tasks have or that are in flight, and its place in a backlog. -/
theorem counts_match {s : State} (h : State.Reach Tidy State.init s) :
    ∀ e, e ≠ .other → s.refs e = s.references e :=
  fun _ he => (Inv.of_reach (fun _ _ hop => hop) h).references he

theorem counts_match_forked : ∃ s, State.Reach Tidy State.init s ∧ s.refs (.pipeRead 0) = 1 ∧
      s.refs (.pipeRead 0) = s.references (.pipeRead 0) := by
  let ops : List Op := [.pipe2 0 false, .clone 0 false 1, .exit 1]
  have hallowed : Run.Allowed State.step Tidy ops State.init :=
    ⟨trivial, fun _ _ => ⟨trivial, fun _ _ => ⟨trivial, fun _ _ => trivial⟩⟩⟩
  exact ⟨_, .of_exec ops rfl hallowed, rfl,
    counts_match (.of_exec ops rfl hallowed) (.pipeRead 0) (by decide)⟩

/-- A table left behind to a zombie, and a descriptor sent to an unwritable buffer. -/
theorem counts_differ : (∃ s, State.Reach (fun _ _ => True) State.init s ∧
      s.refs (.pipeRead 0) = 2 ∧ s.references (.pipeRead 0) = 1) ∧
    ∃ s, State.Reach (fun _ _ => True) State.init s ∧
      s.refs (.pipeWrite 0) = 2 ∧ s.references (.pipeWrite 0) = 1 := by
  refine ⟨⟨_, .of_exec_free [.pipe2 0 false, .clone 0 true 1, .exit 1, .unshare 0, .reap 1] rfl,
      rfl, rfl⟩,
    ⟨_, .of_exec_free [.pipe2 0 false, .socketpair 0 false, .send 0 5 [4],
        .recv 0 6 1 8 false true] rfl,
      rfl, rfl⟩⟩

end NixVm.Fds
