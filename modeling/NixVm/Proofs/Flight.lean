/-
Descriptors in flight on a pair of sockets that nobody has any more.

`Net::bump` counts the ends of a pair down and frees nothing, so what is in flight on a pair goes
on counting when both ends are gone.
-/
import NixVm.Proofs.Fds

namespace NixVm.Fds

open List State

/-- The descriptors in flight on a socket. -/
def State.flight (s : State) (k : Nat) : List Fd := (s.socks[k]?.map Kind.inFlight).getD []

/-- What can still be reached: from the tables of living tasks, from a reachable pair, from a
reachable listener. -/
inductive State.Alive (s : State) : Fd → Prop
  | held {f : Nat} {e : Fd} (hu : s.inUse f = true) (he : e ∈ (s.table f).fds) : s.Alive e
  | flight {k : Nat} {far : Bool} {e : Fd} (hk : s.Alive (.socket k far)) (he : e ∈ s.flight k) :
    s.Alive e
  | waiting {l : Nat} {far : Bool} {e : Fd} (hl : s.Alive (.socket l far))
    (he : e ∈ (s.socks[l]?.map Kind.backlog).getD []) : s.Alive e

/-! ### What is in flight grows by sending only -/

/-- Where something is in flight, something was. -/
def Shrinks (s s' : State) : Prop := ∀ k, s'.flight k ≠ [] → s.flight k ≠ []

variable {s s' : State} {k t f : Nat} {op : Op} {p : Task} {e : Fd}

lemma Shrinks.trans {t u : State} (h : Shrinks s t) (h' : Shrinks t u) : Shrinks s u :=
  fun k hk => h k (h' k hk)

lemma Shrinks.of_socks (h : s'.socks = s.socks) : Shrinks s s' := by
  intro k hk
  rwa [flight, h] at hk

lemma shrinks_setSock {x : Kind}
    (hx : x.inFlight ≠ [] → s.flight k ≠ []) : Shrinks s (s.setSock k x) := by
  intro j hj
  unfold flight setSock at hj
  rw [List.getElem?_set] at hj
  by_cases hkj : k = j
  · subst hkj
    rw [if_pos rfl] at hj
    split at hj
    · exact hx (by simpa using hj)
    · simp at hj
  · simpa [hkj, flight] using hj

lemma shrinks_addSock {x : Kind} (hx : x.inFlight = []) : Shrinks s (s.addSock x) := by
  intro j hj
  unfold flight addSock at hj
  rw [List.getElem?_append] at hj
  split at hj
  · exact hj
  cases hi : ([x] : List Kind)[j - s.socks.length]? with
  | none => simp [hi] at hj
  | some y =>
    have : y = x := by simpa using mem_of_getElem? hi
    simp [hi, this, hx] at hj

lemma shrinks_clearSock {x : Kind} (hx : x.inFlight = []) : Shrinks s (s.setSock k x) :=
  shrinks_setSock fun h => absurd hx h

lemma shrinks_retain (s : State) (fd : Fd) : Shrinks s (s.retain fd) := by
  refine .of_socks ?_
  unfold retain
  split <;> rfl

lemma shrinks_release (s : State) (k : Nat) : Shrinks s (s.release k) := by
  unfold release
  split
  · exact shrinks_clearSock (s := s) (x := .idle) rfl
  · exact shrinks_clearSock rfl
  · exact .of_socks rfl

lemma shrinks_drop (s : State) (fd : Fd) : Shrinks s (s.drop fd) := by
  unfold State.drop
  split
  · exact .of_socks rfl
  dsimp only
  repeat' split
  all_goals first
    | exact .of_socks rfl
    | exact Shrinks.trans (t := s.setRefs _ _) (.of_socks rfl) (shrinks_release _ _)

lemma shrinks_dropAll (fds : List Fd) : ∀ s : State, Shrinks s (s.dropAll fds) := by
  induction fds with
  | nil => exact fun s => .of_socks rfl
  | cons fd fds ih => exact fun s => (shrinks_drop s fd).trans (ih _)

lemma shrinks_close (s : State) (f : Nat) (n : Int) : Shrinks s (s.close f n) := by
  unfold close
  split
  · exact .of_socks rfl
  · exact Shrinks.trans (t := s.setTable _ _) (.of_socks rfl) (shrinks_drop _ _)

lemma shrinks_closeAll (f : Nat) (ns : List Int) :
    ∀ s : State, Shrinks s (ns.foldl (fun s n => s.close f n) s) := by
  induction ns with
  | nil => exact fun s => .of_socks rfl
  | cons n ns ih => exact fun s => (shrinks_close s f n).trans (ih _)

lemma shrinks_drainTables (fs : List Nat) : ∀ s : State, Shrinks s (fs.foldl drainTable s) := by
  induction fs with
  | nil => exact fun s => .of_socks rfl
  | cons f fs ih =>
    intro s
    refine Shrinks.trans (t := s.drainTable f) ?_ (ih _)
    exact Shrinks.trans (t := s.setTable f []) (.of_socks rfl) (shrinks_dropAll _ _)

lemma shrinks_exitTask (s : State) (t : Nat) (p : Task) : Shrinks s (s.exitTask t p) := by
  unfold exitTask
  dsimp only
  split
  · exact .of_socks rfl
  exact Shrinks.trans (t := setTable { s with procs := _ } _ _) (.of_socks rfl)
    (shrinks_dropAll _ _)

lemma shrinks_unshare (s : State) (t : Nat) (p : Task) : Shrinks s (s.unshare t p) := by
  unfold unshare
  split
  · exact .of_socks (socks_retainAll _ s)
  · exact .of_socks rfl

lemma shrinks_setQueue {far : Bool} {q : List (List Fd)}
    (hq : s.queue k far = some q) (groups : Nat) :
    Shrinks s (s.setQueue k far (q.drop groups)) := by
  unfold queue at hq
  unfold setQueue
  split at hq
  next near far' hk =>
    have hdrop : ∀ l : List (List Fd), (l.drop groups).flatten ≠ [] → l.flatten ≠ [] := by
      intro l hl h0
      refine hl (flatten_eq_nil_iff.mpr fun g hg => ?_)
      exact flatten_eq_nil_iff.mp h0 g (mem_of_mem_drop hg)
    have hflight : s.flight k = near.flatten ++ far'.flatten := by
      simp [flight, hk, Kind.inFlight]
    refine shrinks_setSock fun hx => ?_
    rw [hflight]
    cases far with
    | true =>
      cases hq
      intro h0
      obtain ⟨h1, h2⟩ := append_eq_nil_iff.mp h0
      refine hdrop far' (fun h3 => hx ?_) h2
      simp [Kind.inFlight, h1, h3]
    | false =>
      cases hq
      intro h0
      obtain ⟨h1, h2⟩ := append_eq_nil_iff.mp h0
      refine hdrop near (fun h3 => hx ?_) h1
      simp [Kind.inFlight, h2, h3]
  · cases hq

lemma shrinks_alloc (s : State) (f : Nat) (fd : Fd) (low : Int) (cloexec : Bool) :
    Shrinks s (s.alloc f fd low cloexec) := .of_socks rfl

lemma shrinks_allocAll (f : Nat) (cloexec : Bool) (fds : List Fd) :
    ∀ s : State, Shrinks s (fds.foldl (fun s fd => s.alloc f fd 0 cloexec) s) := by
  induction fds with
  | nil => exact fun s => .of_socks rfl
  | cons fd fds ih => exact fun s => (shrinks_alloc s f fd 0 cloexec).trans (ih _)

lemma shrinks_connect {l : Nat} (hc : s.connect k l = some s') : Shrinks s s' := by
  unfold connect at hc
  split at hc
  · split at hc
    · cases hc
      refine Shrinks.trans (t := s.setSock k (.pair [] [])) (shrinks_clearSock rfl) ?_
      exact Shrinks.trans (shrinks_clearSock (x := .listener _) rfl) (.of_socks rfl)
    · cases hc
  · cases hc

lemma shrinks_clone (s : State) (p : Task) (share : Bool) (tgid : Nat) :
    Shrinks s (s.clone p share tgid) := by
  refine .of_socks ?_
  unfold clone
  split
  · rfl
  dsimp only
  split <;> exact socks_retainAll _ s

lemma shrinks_reap (s : State) (t : Nat) (p : Task) : Shrinks s (s.reap t p) := by
  refine .of_socks ?_
  unfold reap
  dsimp only
  split <;> rfl

lemma shrinks_deliver (s : State) (f : Nat) (fds : List Fd) (capacity : Nat)
    (cloexec fault : Bool) : Shrinks s (s.deliver f fds capacity cloexec fault) := by
  unfold deliver
  split
  · exact .of_socks rfl
  · exact (shrinks_dropAll _ _).trans (shrinks_allocAll _ _ _ _)

lemma flight_step (hstep : s.step op = some s') (hk : s'.flight k ≠ []) : s.flight k ≠ [] ∨
      ∃ t n fds p far, op = .send t n fds ∧ s.running t = some p ∧
        s.sockOf p n = some (k, far) := by
  have hle : ∀ {s' : State} {Q : Prop}, Shrinks s s' → s'.flight k ≠ [] →
      s.flight k ≠ [] ∨ Q := fun h hk => .inl (h k hk)
  cases step_call hstep with
  | pipe2 hr => exact hle (.of_socks rfl) hk
  | @socket t stream cloexec p hr =>
    refine hle (Shrinks.trans (shrinks_addSock ?_) (.of_socks rfl)) hk
    cases stream <;> rfl
  | socketpair hr =>
    exact hle (Shrinks.trans (shrinks_addSock (x := .pair [] []) rfl) (.of_socks rfl)) hk
  | listen hr hsock hidle => exact hle (shrinks_clearSock rfl) hk
  | connect hr hsock hc => exact hle (shrinks_connect hc) hk
  | bridge hr hsock hidle => exact hle (shrinks_clearSock rfl) hk
  | accept hr hsock hl =>
    exact hle (Shrinks.trans (shrinks_clearSock (x := .listener _) rfl) (.of_socks rfl)) hk
  | dup hr hget => exact hle ((shrinks_retain s _).trans (shrinks_alloc _ _ _ _ _)) hk
  | dup2Same hr hget => exact .inl hk
  | dup2 hr hget hne =>
    exact hle ((shrinks_close s _ _).trans ((shrinks_retain _ _).trans (.of_socks rfl))) hk
  | pidfdGetfd hr hq hget => exact hle ((shrinks_retain s _).trans (shrinks_alloc _ _ _ _ _)) hk
  | close hr => exact hle (shrinks_close s _ _) hk
  | closeRange s1 hr hs1 =>
    refine hle (Shrinks.trans (t := s1) ?_ (shrinks_closeAll _ _ _)) hk
    subst hs1
    split
    · exact shrinks_unshare s _ _
    · exact .of_socks rfl
  | setCloexec hr => exact hle (.of_socks rfl) hk
  | clone hr => exact hle (shrinks_clone s _ _ _) hk
  | unshare hr => exact hle (shrinks_unshare s _ _) hk
  | exec hr =>
    exact hle (Shrinks.trans (t := s.setTable _ _) (.of_socks rfl) (shrinks_dropAll _ _)) hk
  | exit hr => exact hle (shrinks_exitTask s _ _) hk
  | exitGroup hr =>
    refine hle (Shrinks.trans ?_ (shrinks_exitTask _ _ _)) hk
    exact Shrinks.trans (t := { s with procs := _ }) (.of_socks rfl) (shrinks_drainTables _ _)
  | reap hget hz => exact hle (shrinks_reap s _ _) hk
  | @send t n nums p j far fds q hr hsock hfds hq =>
    by_cases hjk : j = k
    · subst hjk
      exact .inr ⟨t, n, nums, p, far, rfl, hr, hsock⟩
    -- the queues of the other pairs are as they were
    left
    have hsame : ((s.retainAll fds).setQueue j (!far) (q ++ [fds])).socks[k]? = s.socks[k]? := by
      unfold setQueue
      rw [← socks_retainAll fds s]
      split
      · exact List.getElem?_set_ne hjk
      · rfl
    rwa [flight, hsame] at hk
  | recv hr hsock hq => exact hle ((shrinks_setQueue hq _).trans (shrinks_deliver _ _ _ _ _ _)) hk
  | discard hr hsock hq => exact hle ((shrinks_setQueue hq _).trans (shrinks_dropAll _ _)) hk

/-! ### What a call leaves in the tables -/

/-- The entry is in a slot that a living task uses. -/
def State.At (s : State) (f : Nat) (x : Entry) : Prop := s.inUse f = true ∧ x ∈ s.table f

/-- Whether a call takes an entry out of a table. -/
def State.Removes (s : State) (f : Nat) (x : Entry) : Op → Prop
  | .close t n => f = s.filesOf t ∧ x.num = n
  | .dup2 t old new _ => f = s.filesOf t ∧ x.num = new ∧ old ≠ new
  | .closeRange t first last unshare => f = s.filesOf t ∧ first ≤ x.num ∧ x.num ≤ last ∧
      -- a table that others refer to is left to them
      (unshare = true → (s.procs.eraseIdx t).any (·.files = f) = false)
  | .exec t => f = s.filesOf t ∧ x.cloexec = true
  | .exit t => f = s.filesOf t ∧
      (s.procs.eraseIdx t).any (fun q => q.files = f && !q.zombie) = false
  | .exitGroup t => ∃ p ∈ s.procs[t]?,
      -- the other tables of the group go even if somebody else uses them
      (∀ q ∈ s.procs, q.files = f → q.zombie = false → q.tgid = p.tgid) ∨
      f ≠ p.files ∧ ∃ q ∈ s.procs, q.files = f ∧ q.zombie = false ∧ q.tgid = p.tgid
  | _ => False

section At

variable {s s' : State} {f g : Nat} {x : Entry}

lemma State.At.lt (h : s.At f x) (hh : Housed s) : f < s.tables.length := by
  obtain ⟨q, hq, hqf, -⟩ := inUse_eq_true.mp h.1
  exact hqf ▸ hh.files q hq

lemma State.At.frame (h : s.At f x) (hf : Frame s s') : s'.At f x :=
  ⟨(hf.inUse f).trans h.1, hf.table f ▸ h.2⟩

lemma State.At.setTable (h : s.At f x) {t : Table} (hx : f = g → x ∈ t) :
    (s.setTable g t).At f x := by
  refine ⟨h.1, ?_⟩
  rw [table_setTable]
  split
  next hg => exact hx hg.1.symm
  · exact h.2

lemma State.At.alloc (h : s.At f x) (g : Nat) (fd : Fd) (low : Int) (cloexec : Bool) :
    (s.alloc g fd low cloexec).At f x :=
  h.setTable fun hfg => .tail _ (hfg ▸ h.2)

lemma State.At.close (h : s.At f x) {n : Int} (hx : ¬(f = g ∧ x.num = n)) :
    (s.close g n).At f x := by
  unfold State.close
  split
  · exact h
  refine (h.setTable fun hfg => ?_).frame (frame_drop ..)
  refine (mem_eraseP_of_neg (p := fun e : Entry => decide (e.num = n)) ?_).mpr (hfg ▸ h.2)
  simpa using fun hn => hx ⟨hfg, hn⟩

lemma State.At.closeAll (ns : List Int) (hx : f = g → x.num ∉ ns) :
    ∀ {s : State}, s.At f x → (ns.foldl (fun s n => s.close g n) s).At f x := by
  induction ns with
  | nil => exact fun h => h
  | cons n ns ih =>
    intro s h
    refine ih (fun hfg => (not_mem_of_not_mem_cons (hx hfg))) (h.close ?_)
    rintro ⟨hfg, rfl⟩
    exact hx hfg (.head _)

lemma State.At.allocAll (cloexec : Bool) (fds : List Fd) :
    ∀ {s : State}, s.At f x → (fds.foldl (fun s fd => s.alloc g fd 0 cloexec) s).At f x := by
  induction fds with
  | nil => exact fun h => h
  | cons fd fds ih => exact fun h => ih (h.alloc g fd 0 cloexec)

variable {t : Nat} {p : Task}

lemma inUse_set_of_other {y : Task} (hp : s.procs[t]? = some p)
    (hs' : s'.procs = s.procs.set t y) (hu : s.inUse f = true)
    (ho : f = p.files → (s.procs.eraseIdx t).any (fun q => q.files = f && !q.zombie) = true) :
    s'.inUse f = true := by
  have hstay : ∀ q ∈ s.procs.eraseIdx t, q.files = f → q.zombie = false → s'.inUse f = true :=
    fun q hq hqf hqz => inUse_eq_true.mpr
      ⟨q, by rw [hs']; exact mem_set_of_mem_eraseIdx hq, hqf, hqz⟩
  have ⟨q, hq, hqf, hqz⟩ := inUse_eq_true.mp hu
  rcases eq_or_mem_eraseIdx hp hq with rfl | hq
  · have ⟨r, hr, hrf⟩ := any_eq_true.mp (ho hqf.symm)
    have hrf : r.files = f ∧ r.zombie = false := by simpa using hrf
    exact hstay r hr hrf.1 hrf.2
  · exact hstay q hq hqf hqz

lemma State.At.unshare (h : s.At f x) (hh : Housed s)
    (hr : s.running t = some p) (hshares : s.Shares t) : (s.unshare t p).At f x := by
  have hframe := frame_retainAll (s.table p.files).fds s
  have hlt := h.lt hh
  unfold State.unshare
  split
  next hany =>
    refine ⟨inUse_set_of_other (running_spec hr).1
      (y := { p with files := (s.retainAll (s.table p.files).fds).tables.length }) ?_ h.1 ?_, ?_⟩
    · dsimp only
      rw [hframe.procs]
    · rintro rfl
      exact hshares p hr hany
    rw [table_append (s := s) (t := (s.retainAll (s.table p.files).fds).table p.files)
      (by dsimp only; rw [hframe.tables]), if_neg (by omega)]
    exact h.2
  · exact h

lemma State.At.clone (h : s.At f x) (hh : Housed s) (p : Task) (share : Bool) (tgid : Nat) :
    (s.clone p share tgid).At f x := by
  have happ : ∀ (s' : State) (q : Task), s'.procs = s.procs ++ [q] → s'.inUse f = true := by
    intro s' q hq
    have ⟨r, hr, hrf⟩ := inUse_eq_true.mp h.1
    exact inUse_eq_true.mpr ⟨r, by rw [hq]; exact mem_append_left _ hr, hrf⟩
  have hlt := h.lt hh
  have hframe := frame_retainAll (s.table p.files).fds s
  unfold State.clone
  split
  · exact ⟨happ _ _ rfl, h.2⟩
  dsimp only
  split
  next slot rest hfree =>
    -- a free slot is not one in use
    have hne : slot ≠ f := by
      rintro rfl
      obtain ⟨r, hr, hrf, -⟩ := inUse_eq_true.mp h.1
      exact (hh.free slot (by rw [← hframe.free, hfree]; exact .head _)).2 r hr hrf
    refine ⟨happ _ ⟨slot, tgid, false⟩ (by dsimp only; rw [hframe.procs]), ?_⟩
    have htab : (s.tables.set slot (s.table p.files)).getD f [] = s.table f := by
      rw [getD_eq_getElem?_getD, List.getElem?_set_ne hne, ← getD_eq_getElem?_getD]
      rfl
    change x ∈ ((s.retainAll (s.table p.files).fds).tables.set slot (s.table p.files)).getD f []
    rw [hframe.tables, htab]
    exact h.2
  · refine ⟨happ _ ⟨(s.retainAll (s.table p.files).fds).tables.length, tgid, false⟩
      (by dsimp only; rw [hframe.procs]), ?_⟩
    rw [table_append (s := s) (t := s.table p.files) (by dsimp only; rw [hframe.tables]),
      if_neg (by omega)]
    exact h.2

lemma State.At.exitTask (h : s.At f x) (hp : s.procs[t]? = some p)
    (ho : f = p.files → (s.procs.eraseIdx t).any (fun q => q.files = f && !q.zombie) = true) :
    (s.exitTask t p).At f x := by
  have hu : State.inUse { s with procs := s.procs.set t { p with zombie := true } } f = true :=
    inUse_set_of_other hp rfl h.1 ho
  unfold State.exitTask
  dsimp only
  split
  · exact ⟨hu, h.2⟩
  rename_i hnone
  refine State.At.frame ?_ (frame_dropAll ..)
  refine State.At.setTable (s := { s with procs := _ }) ⟨hu, h.2⟩ ?_
  rintro rfl
  exact absurd hu hnone

lemma State.At.drainTables {gs : List Nat} (hf : f ∉ gs) : ∀ {s : State}, s.At f x →
      (gs.foldl drainTable s).At f x ∧ (gs.foldl drainTable s).procs = s.procs := by
  induction gs with
  | nil => exact fun h => ⟨h, rfl⟩
  | cons g gs ih =>
    intro s h
    have hframe := frame_dropAll (s.table g).fds (s.setTable g [])
    have hg : (s.drainTable g).At f x :=
      (h.setTable fun hfg => absurd (hfg ▸ .head _) hf).frame hframe
    have ⟨hat, hprocs⟩ := ih (not_mem_of_not_mem_cons hf) hg
    exact ⟨hat, hprocs.trans hframe.procs⟩

lemma State.At.exitGroup (h : s.At f x) (hr : s.running t = some p)
    (hout : ∃ q ∈ s.procs, q.files = f ∧ q.zombie = false ∧ q.tgid ≠ p.tgid)
    (hin : f ≠ p.files → ∀ q ∈ s.procs, q.files = f → q.tgid = p.tgid → q.zombie = true) :
    (s.exitGroup t p).At f x := by
  obtain ⟨hget, -⟩ := running_spec hr
  have hlt := (List.getElem?_eq_some_iff.mp hget).1
  -- the task outside the group is not marked
  have hother : ∃ q ∈ ((s.procs.map fun q =>
      if (q.tgid = p.tgid && !q.zombie) = true then { q with zombie := true } else q).set t
        p).eraseIdx t, q.files = f ∧ q.zombie = false := by
    obtain ⟨q, hq, hqf, hqz, hqt⟩ := hout
    rcases eq_or_mem_eraseIdx hget hq with rfl | hq
    · exact absurd rfl hqt
    obtain ⟨i, hi, hne, rfl⟩ := mem_eraseIdx_iff_getElem.mp hq
    refine ⟨s.procs[i], ?_, hqf, hqz⟩
    refine mem_eraseIdx_iff_getElem.mpr ⟨i, by simpa using hi, hne, ?_⟩
    rw [getElem_set_ne (Ne.symm hne), getElem_map]
    simp [hqt]
  have hu : State.inUse { s with procs := (s.procs.map fun q =>
      if (q.tgid = p.tgid && !q.zombie) = true then { q with zombie := true } else q).set t p } f =
      true := by
    obtain ⟨q, hq, hqf, hqz⟩ := hother
    exact inUse_eq_true.mpr ⟨q, mem_of_mem_eraseIdx hq, hqf, hqz⟩
  have hids : f ∉ ((((s.procs.eraseIdx t).filter fun q => q.tgid = p.tgid && !q.zombie).map
      (·.files)).filter (· ≠ p.files)) := by
    intro hf
    have ⟨hm, hne⟩ := mem_filter.mp hf
    have ⟨q, hq, hqf⟩ := mem_map.mp hm
    have ⟨hq, hd⟩ := mem_filter.mp hq
    have hd : q.tgid = p.tgid ∧ q.zombie = false := by simpa using hd
    have hz := hin (by simpa using hne) q (mem_of_mem_eraseIdx hq) hqf hd.1
    rw [hd.2] at hz
    cases hz
  have ⟨hat, hprocs⟩ := State.At.drainTables (x := x) (s := { s with procs := _ }) hids ⟨hu, h.2⟩
  refine hat.exitTask ?_ fun _ => ?_
  · rw [hprocs, List.getElem?_set_self (by simpa using hlt)]
  rw [hprocs]
  obtain ⟨q, hq, hqf, hqz⟩ := hother
  exact any_eq_true.mpr ⟨q, hq, by simp [hqf, hqz]⟩

lemma State.At.reap (h : s.At f x) (hp : s.procs[t]? = some p)
    (hz : p.zombie = true) : (s.reap t p).At f x := by
  have hother : ∃ q ∈ s.procs.eraseIdx t, q.files = f ∧ q.zombie = false := by
    have ⟨q, hq, hqf, hqz⟩ := inUse_eq_true.mp h.1
    rcases eq_or_mem_eraseIdx hp hq with rfl | hq
    · rw [hz] at hqz
      cases hqz
    · exact ⟨q, hq, hqf, hqz⟩
  have hat : State.At { s with procs := s.procs.eraseIdx t } f x := ⟨inUse_eq_true.mpr hother, h.2⟩
  unfold State.reap
  dsimp only
  split
  · exact hat
  rename_i hnone
  obtain ⟨q, hq, hqf, -⟩ := hother
  refine ⟨hat.1, (hat.setTable (g := p.files) (t := []) ?_).2⟩
  intro hfp
  refine absurd (any_eq_true.mpr ⟨q, hq, ?_⟩) hnone
  simp [hqf, hfp]

end At

lemma filesOf_unshare (hr : s.running t = some p) : (s.unshare t p).filesOf t =
      if (s.procs.eraseIdx t).any (·.files = p.files) then s.tables.length else p.files := by
  have hframe := frame_retainAll (s.table p.files).fds s
  have hlt := (List.getElem?_eq_some_iff.mp (running_spec hr).1).1
  unfold unshare
  split
  · simp [filesOf, hframe.procs, hframe.tables, hlt]
  · exact filesOf_running hr

lemma frame_setQueue (s : State) (k : Nat) (far : Bool) (q : List (List Fd)) :
    Frame s (s.setQueue k far q) := by
  unfold setQueue
  split <;> exact ⟨rfl, rfl, rfl⟩

lemma frame_connect {l : Nat} (hc : s.connect k l = some s') : Frame s s' := by
  unfold connect at hc
  split at hc
  · split at hc
    · cases hc
      exact ⟨rfl, rfl, rfl⟩
    · cases hc
  · cases hc

lemma State.At.closeRange {x : Entry} (hat : s.At f x) (hh : Housed s)
    (hr : s.running t = some p) {first last : Int} {unshare : Bool}
    (hshares : unshare = true → s.Shares t) (hx : ¬(f = p.files ∧ first ≤ x.num ∧ x.num ≤ last ∧
      (unshare = true → (s.procs.eraseIdx t).any (·.files = f) = false))) {s1 : State}
    (hs1 : s1 = if unshare then s.unshare t p else s) :
    (((s1.table (s1.filesOf t)).range first last).foldl
      (fun s n => s.close (s1.filesOf t) n) s1).At f x := by
  have hrange : ∀ tab : Table, f = p.files →
      (unshare = true → (s.procs.eraseIdx t).any (·.files = f) = false) →
      x.num ∉ tab.range first last := by
    intro tab hf hu hnum
    have hin : first ≤ x.num ∧ x.num ≤ last := by simpa using (mem_filter.mp hnum).2
    exact hx ⟨hf, hin.1, hin.2, hu⟩
  subst hs1
  cases unshare with
  | true =>
    refine State.At.closeAll _ (fun hf => ?_) (hat.unshare hh hr (hshares rfl))
    replace hf := hf.trans (filesOf_unshare hr)
    split at hf
    · -- the table the caller has now is a new one
      exact absurd hf (ne_of_lt (hat.lt hh))
    next hnone => exact hrange _ hf fun _ => hf ▸ Bool.eq_false_iff.mpr hnone
  | false =>
    refine State.At.closeAll _ (fun hf => ?_) hat
    exact hrange _ (hf.trans (filesOf_running hr)) nofun

lemma State.At.step {x : Entry} (hat : s.At f x)
    (h : Inv s) (hop : Tidy s op) (hx : ¬s.Removes f x op) (hstep : s.step op = some s') :
    ∃ x', x'.fd = x.fd ∧ s'.At f x' := by
  have hsame : ∀ {s1 : State}, s1.At f x → ∃ x', x'.fd = x.fd ∧ s1.At f x' :=
    fun hat' => ⟨x, rfl, hat'⟩
  cases step_call hstep with
  | pipe2 hr =>
    refine hsame (State.At.alloc (State.At.alloc ?_ ..) ..)
    exact hat.frame ⟨rfl, rfl, rfl⟩
  | socket hr =>
    refine hsame (State.At.alloc ?_ ..)
    exact hat.frame ⟨rfl, rfl, rfl⟩
  | socketpair hr =>
    refine hsame (State.At.alloc (State.At.alloc ?_ ..) ..)
    exact hat.frame ⟨rfl, rfl, rfl⟩
  | listen hr hsock hk => exact hsame (hat.frame ⟨rfl, rfl, rfl⟩)
  | connect hr hsock hc => exact hsame (hat.frame (frame_connect hc))
  | bridge hr hsock hk => exact hsame (hat.frame ⟨rfl, rfl, rfl⟩)
  | accept hr hsock hl =>
    refine hsame (State.At.alloc ?_ ..)
    exact hat.frame ⟨rfl, rfl, rfl⟩
  | dup hr hget => exact hsame ((hat.frame (frame_retain s _)).alloc ..)
  | dup2Same hr hget => exact hsame hat
  | @dup2 t old new cloexec p fd hr hget hne =>
    rw [State.Removes, filesOf_running hr] at hx
    have hclose : ¬(f = p.files ∧ x.num = new) := fun hc => hx ⟨hc.1, hc.2, hne⟩
    have hat := (hat.close hclose).frame (frame_retain _ fd)
    exact hsame (hat.setTable fun hfp => .tail _ (hfp ▸ hat.2))
  | pidfdGetfd hr hq hget => exact hsame ((hat.frame (frame_retain s _)).alloc ..)
  | close hr =>
    rw [State.Removes, filesOf_running hr] at hx
    exact hsame (hat.close hx)
  | closeRange s1 hr hs1 =>
    rw [State.Removes, filesOf_running hr] at hx
    exact hsame (hat.closeRange h.housed hr hop hx hs1)
  | @setCloexec t first last on p hr =>
    by_cases hfp : f = p.files
    · subst hfp
      refine ⟨if first ≤ x.num && x.num ≤ last then { x with cloexec := on } else x, ?_, hat.1, ?_⟩
      · split <;> rfl
      rw [table_setTable, if_pos ⟨rfl, hat.lt h.housed⟩]
      exact mem_map_of_mem hat.2
    · exact hsame (hat.setTable fun hf => absurd hf hfp)
  | clone hr => exact hsame (hat.clone h.housed ..)
  | unshare hr => exact hsame (hat.unshare h.housed hr hop)
  | exec hr =>
    rw [State.Removes, filesOf_running hr] at hx
    refine hsame ((hat.setTable fun hfp => ?_).frame (frame_dropAll ..))
    refine mem_filter.mpr ⟨hfp ▸ hat.2, ?_⟩
    simpa using fun hc => hx ⟨hfp, hc⟩
  | exit hr =>
    rw [State.Removes, filesOf_running hr] at hx
    refine hsame (hat.exitTask (running_spec hr).1 fun hfp => ?_)
    exact Bool.of_not_eq_false fun hn => hx ⟨hfp, hn⟩
  | exitGroup hr =>
    have hget := (running_spec hr).1
    refine hsame (hat.exitGroup hr ?_ fun hne q hq hqf hqt => ?_)
    · by_contra hnone
      refine hx ⟨_, hget, .inl fun q hq hqf hqz => ?_⟩
      by_contra hqt
      exact hnone ⟨q, hq, hqf, hqz, hqt⟩
    · exact Bool.of_not_eq_false fun hz => hx ⟨_, hget, .inr ⟨hne, q, hq, hqf, hz, hqt⟩⟩
  | reap hget hz => exact hsame (hat.reap hget hz)
  | send hr hsock hfds hq =>
    exact hsame ((hat.frame (frame_retainAll _ s)).frame (frame_setQueue ..))
  | @recv t n groups capacity cloexec fault p k far q hr hsock hq =>
    have hat := hat.frame (frame_setQueue s k far (q.drop groups))
    unfold deliver
    split
    · exact hsame hat
    · exact hsame (State.At.allocAll _ _ (hat.frame (frame_dropAll ..)))
  | discard hr hsock hq =>
    exact hsame ((hat.frame (frame_setQueue s ..)).frame (frame_dropAll ..))

/-! ### Runs -/

/-- An end of every socket with something in flight is in a table and stays there. -/
def Spares (s : State) (op : Op) : Prop :=
  ∀ k, s.flight k ≠ [] → ∃ f x far, s.At f x ∧ x.fd = .socket k far ∧ ¬s.Removes f x op

/-- An end of every socket with something in flight is in a table. -/
def Held (s : State) : Prop :=
  ∀ k, s.flight k ≠ [] → ∃ f x far, s.At f x ∧ x.fd = .socket k far

lemma sockOf_at {n : Int} {far : Bool}
    (hr : s.running t = some p) (hsock : s.sockOf p n = some (k, far)) :
    ∃ x, s.At p.files x ∧ x.fd = .socket k far := by
  unfold sockOf at hsock
  split at hsock
  next k' far' hget =>
    cases hsock
    have ⟨x, hx, hfd⟩ := Option.map_eq_some_iff.mp hget
    have ⟨hp, hz⟩ := running_spec hr
    exact ⟨x, ⟨inUse_of_get hp hz, mem_of_find?_eq_some hx⟩, hfd⟩
  · cases hsock

lemma held_step (h : Inv s) (hop : Tidy s op) (hs : Spares s op)
    (hstep : s.step op = some s') : Held s' := by
  intro k hk
  have hkeep : ∃ f x far, s.At f x ∧ x.fd = .socket k far ∧ ¬s.Removes f x op := by
    rcases flight_step hstep hk with hk | ⟨t, n, fds, p, far, rfl, hr, hsock⟩
    · exact hs k hk
    -- the sender has an end itself
    have ⟨x, hat, hfd⟩ := sockOf_at hr hsock
    exact ⟨p.files, x, far, hat, hfd, id⟩
  obtain ⟨f, x, far, hat, hfd, hx⟩ := hkeep
  have ⟨x', hfd', hat'⟩ := hat.step h hop hx hstep
  exact ⟨f, x', far, hat', hfd'.trans hfd⟩

lemma Held.of_reach
    (h : State.Reach (fun s op => Tidy s op ∧ Spares s op) init s) : Inv s ∧ Held s := by
  refine Run.Reach.invariant (P := fun s => Inv s ∧ Held s) h ?_ ?_
  · have hinit : State.Reach Tidy init init := .refl
    exact ⟨Inv.of_reach (fun _ _ hop => hop) hinit, fun k hk => absurd rfl hk⟩
  · intro s op s' ⟨hi, hh⟩ ⟨hop, hs⟩ hstep
    exact ⟨inv_step hi hop hstep, held_step hi hop hs hstep⟩

lemma State.At.alive {x : Entry} (h : s.At f x) : s.Alive x.fd :=
  .held h.1 (mem_map_of_mem h.2)

lemma Held.alive (h : Held s) (hk : s.flight k ≠ []) : ∃ far, s.Alive (.socket k far) := by
  have ⟨f, x, far, hat, hfd⟩ := h k hk
  exact ⟨far, hfd ▸ hat.alive⟩

lemma Held.references (h : Held s) (he : ¬s.Alive e)
    (hw : e ∉ s.socks.flatMap Kind.backlog) : s.references e = 0 := by
  have htables : ∀ f ∈ (List.range s.tables.length).filter s.inUse,
      (s.table f).fds.count e = 0 := by
    intro f hf
    exact count_eq_zero.mpr fun hm => he (.held (mem_filter.mp hf).2 hm)
  have hflight : e ∉ s.socks.flatMap Kind.inFlight := by
    intro hm
    have ⟨x, hx, hm⟩ := mem_flatMap.mp hm
    have ⟨k, hk⟩ := mem_iff_getElem?.mp hx
    have hm : e ∈ s.flight k := by simpa [State.flight, hk] using hm
    have ⟨far, ha⟩ := h.alive (ne_nil_of_mem hm)
    exact he (.flight ha hm)
  unfold State.references
  rw [count_eq_zero.mpr hflight, count_eq_zero.mpr hw]
  have hsum : (((List.range s.tables.length).filter s.inUse).map fun f =>
      (s.table f).fds.count e).sum = 0 := by
    refine sum_eq_zero fun c hc => ?_
    obtain ⟨f, hf, rfl⟩ := mem_map.mp hc
    exact htables f hf
  rw [hsum]

/-- **What is in flight dies with its sockets.** In every run of tidy calls that spare an end of
every pair with something in flight, an unreachable pair has nothing in flight, and an unreachable
end counts zero unless it waits to be accepted. -/
theorem flight_dies {s : State}
    (h : State.Reach (fun s op => Tidy s op ∧ Spares s op) State.init s) :
    (∀ k, (∀ far, ¬s.Alive (.socket k far)) → s.flight k = []) ∧
    ∀ e, e ≠ .other → ¬s.Alive e → e ∉ s.socks.flatMap Kind.backlog → s.refs e = 0 := by
  obtain ⟨hi, hh⟩ := Held.of_reach h
  refine ⟨fun k hk => ?_, fun e hne he hw => ?_⟩
  · by_contra hne
    obtain ⟨far, ha⟩ := hh.alive hne
    exact hk far ha
  · rw [hi.references hne]
    exact hh.references he hw

lemma State.Alive.table (hs : ∀ f, s.inUse f = true → ∀ k far, .socket k far ∉ (s.table f).fds)
    (h : s.Alive e) : ∃ f, s.inUse f = true ∧ e ∈ (s.table f).fds := by
  induction h with
  | held hu he => exact ⟨_, hu, he⟩
  | flight _ _ ih | waiting _ _ ih =>
    obtain ⟨f, hu, hm⟩ := ih
    exact absurd hm (hs f hu _ _)

lemma not_alive_of_reader (hp : s.procs = [⟨0, 0, false⟩])
    (ht : (s.table 0).fds = [.pipeRead 0, .other, .other, .other])
    (he : e ≠ .pipeRead 0) (hne : e ≠ .other) : ¬s.Alive e := by
  have hu : ∀ f, s.inUse f = true → f = 0 := by
    intro f hf
    obtain ⟨q, hq, hqf, -⟩ := inUse_eq_true.mp hf
    rw [hp] at hq
    cases mem_singleton.mp hq
    exact hqf.symm
  intro h
  have ⟨f, hf, hm⟩ := h.table fun f hf => by simp [hu f hf, ht]
  simp [hu f hf, ht, he, hne] at hm

lemma spares_of_nil (h : s.socks.flatMap Kind.inFlight = []) (op : Op) : Spares s op := by
  intro k hk
  refine absurd ?_ hk
  unfold flight
  cases hs : s.socks[k]? with
  | none => rfl
  | some x => exact flatMap_eq_nil_iff.mp h x (mem_of_getElem? hs)

theorem flight_dies_received : ∃ s, State.Reach (fun s op => Tidy s op ∧ Spares s op) State.init s ∧
      ¬s.Alive (.pipeWrite 0) ∧ s.refs (.pipeWrite 0) = 0 := by
  let ops : List Op := [.pipe2 0 false, .socketpair 0 false, .send 0 5 [4], .close 0 4,
    .recv 0 6 1 8 false false, .close 0 4, .close 0 5, .close 0 6]
  have hallowed : Run.Allowed State.step (fun s op => Tidy s op ∧ Spares s op) ops State.init := by
    refine ⟨⟨trivial, spares_of_nil rfl _⟩, fun s₁ h₁ => ?_⟩
    cases Option.some.inj h₁
    refine ⟨⟨trivial, spares_of_nil rfl _⟩, fun s₂ h₂ => ?_⟩
    cases Option.some.inj h₂
    refine ⟨⟨trivial, spares_of_nil rfl _⟩, fun s₃ h₃ => ?_⟩
    cases Option.some.inj h₃
    -- the write end is in flight, and the task keeps number 5
    refine ⟨⟨trivial, fun k hk => ?_⟩, fun s₄ h₄ => ?_⟩
    · cases k with
      | zero => exact ⟨0, ⟨5, .socket 0 false, false⟩, false, ⟨rfl, by decide⟩, rfl,
          fun hx => absurd hx.2 (by decide)⟩
      | succ k => exact absurd rfl hk
    cases Option.some.inj h₄
    refine ⟨⟨nofun, fun k hk => ?_⟩, fun s₅ h₅ => ?_⟩
    · cases k with
      | zero => exact ⟨0, ⟨5, .socket 0 false, false⟩, false, ⟨rfl, by decide⟩, rfl, id⟩
      | succ k => exact absurd rfl hk
    cases Option.some.inj h₅
    refine ⟨⟨trivial, spares_of_nil rfl _⟩, fun s₆ h₆ => ?_⟩
    cases Option.some.inj h₆
    refine ⟨⟨trivial, spares_of_nil rfl _⟩, fun s₇ h₇ => ?_⟩
    cases Option.some.inj h₇
    exact ⟨⟨trivial, spares_of_nil rfl _⟩, fun _ _ => trivial⟩
  have hdead : ∀ s, Run.exec State.step ops State.init = some s → ¬s.Alive (.pipeWrite 0) := by
    intro s hs
    cases Option.some.inj hs
    exact not_alive_of_reader rfl rfl nofun nofun
  refine ⟨_, .of_exec ops rfl hallowed, hdead _ rfl, ?_⟩
  exact (flight_dies (.of_exec ops rfl hallowed)).2 (.pipeWrite 0) nofun (hdead _ rfl) nofun

/-- A write end sent on a pair whose ends are then closed: the pipe goes on having a writer. -/
theorem flight_outlives : ∃ s, State.Reach (fun _ _ => True) State.init s ∧
      (∀ far, ¬s.Alive (.socket 0 far)) ∧ ¬s.Alive (.pipeWrite 0) ∧
      s.flight 0 = [.pipeWrite 0] ∧ s.refs (.pipeWrite 0) = 1 := by
  refine ⟨_, .of_exec_free [.pipe2 0 false, .socketpair 0 false, .send 0 5 [4],
    .close 0 4, .close 0 5, .close 0 6] rfl, fun far => ?_, ?_, rfl, rfl⟩
  · exact not_alive_of_reader rfl rfl nofun nofun
  · exact not_alive_of_reader rfl rfl nofun nofun

end NixVm.Fds
