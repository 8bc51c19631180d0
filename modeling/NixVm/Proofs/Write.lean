/-
A call that writes appends what it reports, once, as long as the progress kept by the task is its
own.

`io_progress` counts the bytes the innermost unfinished call has appended. `Once` excludes what
breaks it: calls made while the count stands, errors that forget it, and a socket's `writev` that
starts each segment from it.
-/
import NixVm.Kernel.Write

namespace NixVm.Writes

open State List Option

open Pipes (Byte Reply)

/-- The call appended what it reports: its first `n` bytes, or nothing. -/
def Finished.Exact (f : Finished) : Prop :=
  match f.reply with
  | .ret n => n ≤ f.call.data.length ∧ f.log = f.call.data.take n
  | .err _ => f.log = []
  | .park => False

def Attempt.Fine (data log : List Byte) (a : Attempt) : Prop :=
  match a.reply with
  | .ret n => n ≤ data.length ∧ log ++ a.bytes = data.take n ∧ a.io = 0
  | .err _ => log ++ a.bytes = [] ∧ a.io = 0
  | .park => a.io ≤ data.length ∧ log ++ a.bytes = data.take a.io

lemma take_append_take_drop (data : List Byte) (io n : Nat) :
    data.take io ++ (data.drop io).take n = data.take (io + n) := by
  rw [take_add]

variable {data : List Byte} {io : Nat} {env : Env} {s : State} {c : Call}

lemma fine_short {n : Nat} {e : Errno} (h : io + n ≤ data.length) : Attempt.Fine data (data.take io)
      ⟨if 0 < io + n then .ret (io + n) else .err e, 0, (data.drop io).take n⟩ := by
  by_cases hpos : 0 < io + n
  · rw [if_pos hpos]
    exact ⟨h, take_append_take_drop data io n, rfl⟩
  rw [if_neg hpos]
  obtain ⟨rfl, rfl⟩ : io = 0 ∧ n = 0 := by omega
  exact ⟨by simp, rfl⟩

lemma fine_early {e : Errno} : Attempt.Fine data (data.take 0) ⟨.err e, 0, []⟩ :=
  ⟨by simp, rfl⟩

lemma fine_pipeWriteFrom (s : Stream) (readable : Bool) (h : io ≤ data.length) :
    (s.pipeWriteFrom io data readable).Fine data (data.take io) := by
  have hstop : ∀ e : Errno,
      Attempt.Fine data (data.take io) ⟨if 0 < io then .ret io else .err e, 0, []⟩ :=
    fun e => by simpa using fine_short (n := 0) (e := e) h
  unfold Stream.pipeWriteFrom
  split
  · exact hstop _
  dsimp only
  generalize hn : (if data.length - io ≤ pipeAtomicWrite ∧ s.room < data.length - io then 0
    else min (data.length - io) s.room) = n
  have hle : io + n ≤ data.length := by
    subst hn
    split <;> omega
  split
  · exact hstop _
  split
  · refine ⟨le_rfl, ?_, rfl⟩
    have : io + n = data.length := by omega
    rw [take_append_take_drop, this]
  split
  · exact fine_short hle
  · exact ⟨hle, take_append_take_drop data io n⟩

lemma fine_writeSocket (s : Stream) (dontwait : Bool)
    (h : io ≤ data.length) (hlive : io ≠ 0 → s.live = true) :
    (s.writeSocket io data dontwait).Fine data (data.take io) := by
  unfold Stream.writeSocket
  split
  next hdead =>
    obtain rfl : io = 0 := by
      by_contra hio
      simp [hlive hio] at hdead
    exact fine_early
  dsimp only
  rw [min_eq_left h]
  generalize hn : min s.room (data.length - io) = n
  have hle : io + n ≤ data.length := by omega
  split
  · exact ⟨hle, take_append_take_drop data io n, rfl⟩
  split
  · exact fine_short hle
  · exact ⟨hle, take_append_take_drop data io n⟩

lemma writevSocket_empty (s : Stream) (iov : List (List Byte)) :
    ∀ (bad : Option Nat) (io total : Nat) (acc : List Byte), (∀ seg ∈ iov, seg = []) →
      s.writevSocket iov bad io total acc = ⟨.ret total, io, acc⟩ ∨
      (total = 0 ∧ bad ≠ none ∧ s.writevSocket iov bad io total acc = ⟨.err .efault, io, acc⟩) := by
  induction iov with
  | nil =>
    intro bad io total acc _
    exact .inl rfl
  | cons seg rest ih =>
    intro bad io total acc h
    obtain rfl : seg = [] := h seg (by simp)
    have hrest : ∀ seg ∈ rest, seg = [] := fun seg hseg => h seg (by simp [hseg])
    match bad with
    | some 0 =>
      by_cases htotal : 0 < total
      · exact .inl (by simp [Stream.writevSocket, htotal])
      · exact .inr ⟨by omega, by simp, by simp [Stream.writevSocket, htotal]⟩
    | some (k + 1) =>
      have hstep : s.writevSocket ([] :: rest) (some (k + 1)) io total acc =
          s.writevSocket rest (some k) io total acc := by simp [Stream.writevSocket]
      rw [hstep]
      rcases ih (some k) io total acc hrest with hr | ⟨ht, -, hr⟩
      · exact .inl hr
      · exact .inr ⟨ht, by simp, hr⟩
    | none =>
      have hstep : s.writevSocket ([] :: rest) none io total acc =
          s.writevSocket rest none io total acc := by simp [Stream.writevSocket]
      rw [hstep]
      rcases ih none io total acc hrest with hr | ⟨-, hbad, -⟩
      · exact .inl hr
      · exact absurd rfl hbad

/-- At most one segment has anything in it. -/
def Single (iov : List (List Byte)) : Prop := (iov.filter fun seg => !seg.isEmpty).length ≤ 1

lemma Single.empty_rest {seg : List Byte} {rest : List (List Byte)}
    (h : Single (seg :: rest)) (hseg : seg ≠ []) : ∀ r ∈ rest, r = [] := by
  rw [Single, filter_cons_of_pos (by simp [hseg]), length_cons] at h
  have hnil : rest.filter (fun r => !r.isEmpty) = [] := length_eq_zero_iff.mp (by omega)
  intro r hr
  have := filter_eq_nil_iff.mp hnil r hr
  simpa using this

lemma fine_writevSocket (s : Stream) (iov : List (List Byte)) :
    ∀ (bad : Option Nat) (io : Nat), Single iov → io ≤ iov.flatten.length →
      (io ≠ 0 → bad = none ∧ s.live = true) →
      (s.writevSocket iov bad io 0 []).Fine iov.flatten (iov.flatten.take io) := by
  induction iov with
  | nil =>
    intro bad io _ hio _
    obtain rfl : io = 0 := Nat.le_zero.mp hio
    exact ⟨le_rfl, rfl, rfl⟩
  | cons seg rest ih =>
    intro bad io hsingle hio hsteady
    match bad with
    | some 0 =>
      obtain rfl : io = 0 := by
        by_contra hne
        cases (hsteady hne).1
      exact fine_early
    | none | some (k + 1) =>
      all_goals
        by_cases hseg : seg = []
        · subst hseg
          refine ih _ io ?_ hio fun hne => ?_
          · simpa [Single] using hsingle
          have ⟨hbad, hlive⟩ := hsteady hne
          exact ⟨by simp [hbad], hlive⟩
        have hrest := hsingle.empty_rest hseg
        have hdata : (seg :: rest).flatten = seg := by
          rw [flatten_cons, flatten_eq_nil_iff.mpr hrest, append_nil]
        rw [hdata] at hio ⊢
        have hfine := fine_writeSocket s false hio fun hne => (hsteady hne).2
        simp only [Stream.writevSocket, hseg, if_false, append_nil, nil_append,
          lt_irrefl, zero_add]
        unfold Attempt.Fine at hfine
        cases hreply : (s.writeSocket io seg false).reply with
        | err e | park =>
          rw [hreply] at hfine
          exact hfine
        | ret n =>
          rw [hreply] at hfine
          obtain ⟨hn, hlog, hzero⟩ := hfine
          dsimp only
          split
          · exact ⟨hn, hlog, hzero⟩
          have hpos : n ≠ 0 := by
            have := length_pos_iff.mpr hseg
            omega
          rcases writevSocket_empty s rest _ (s.writeSocket io seg false).io n
            (s.writeSocket io seg false).bytes hrest with hr | ⟨ht, -, -⟩
          · rw [hr]
            exact ⟨hn, hlog, hzero⟩
          · exact absurd ht hpos

/-- On a socket, a `writev` of one segment. -/
def Call.Plain (kind : Kind) (c : Call) : Prop :=
  kind = .pair → c.form = .writev → Single c.iov

/-- While there is progress, an attempt finds its arguments, data and reader, and no timeout
passes. -/
def Steady (s : State) (c : Call) (env : Env) (after : After) : Prop :=
  (s.io ≠ 0 → env.early = none ∧
    (env.bad = none ∨ (s.streams c.fd).kind = .pipe ∧ c.form = .write) ∧
    ((s.streams c.fd).kind = .pair → (s.streams c.fd).live = true)) ∧
  (after = .timeout → (s.streams c.fd).kind = .pair → c.form.timed = true →
    s.io = 0 ∧ (s.streams c.fd).room = 0)

lemma fine_gather {a : Attempt} (hbad : io ≠ 0 → env.bad = none) (ha : a.Fine data (data.take io)) :
    (env.gather io a).Fine data (data.take io) := by
  unfold Env.gather
  split
  next hsome =>
    obtain rfl : io = 0 := by
      by_contra hne
      simp [hbad hne] at hsome
    exact fine_early
  · exact ha

lemma fine_attempt {after : After}
    (hplain : c.Plain (s.streams c.fd).kind) (hsteady : Steady s c env after)
    (hio : s.io ≤ c.data.length) (hsend : ∀ d, c.form = .send d →
      (s.streams c.fd).kind = .pipe → s.io = 0) :
    ((s.streams c.fd).attempt s.io c env).Fine c.data (c.data.take s.io) := by
  unfold Stream.attempt
  cases hearly : env.early with
  | some e =>
    have hzero : s.io = 0 := by
      by_contra hne
      simp [(hsteady.1 hne).1] at hearly
    simp only [hzero]
    exact fine_early
  | none =>
    cases hkind : (s.streams c.fd).kind with
    | pipe =>
      cases hform : c.form with
      | write => exact fine_pipeWriteFrom _ _ hio
      | writev =>
        refine fine_gather (fun hne => ?_) (fine_pipeWriteFrom _ _ hio)
        rcases (hsteady.1 hne).2.1 with h | ⟨-, h⟩
        · exact h
        · simp [hform] at h
      | send d =>
        simp only [hsend d hform hkind]
        exact fine_early
    | pair =>
      have hbad : s.io ≠ 0 → env.bad = none := fun hne => by
        rcases (hsteady.1 hne).2.1 with h | ⟨h, -⟩
        · exact h
        · simp [hkind] at h
      have hlive : s.io ≠ 0 → (s.streams c.fd).live = true :=
        fun hne => (hsteady.1 hne).2.2 hkind
      cases hform : c.form with
      | write => exact fine_gather hbad (fine_writeSocket _ _ hio hlive)
      | writev =>
        exact fine_writevSocket _ _ _ _ (hplain hkind hform) hio
          fun hne => ⟨hbad hne, hlive hne⟩
      | send d => exact fine_gather hbad (fine_writeSocket _ _ hio hlive)

lemma attempt_park_send {s : Stream} {d : Bool}
    (hpark : (s.attempt io c env).reply = .park) (hform : c.form = .send d) : s.kind = .pair := by
  unfold Stream.attempt at hpark
  cases hearly : env.early with
  | some e => simp [hearly] at hpark
  | none =>
    cases hkind : s.kind with
    | pipe => simp [hearly, hkind, hform] at hpark
    | pair => rfl

lemma attempt_stuck {s : Stream} (hkind : s.kind = .pair)
    (htimed : c.form.timed = true) (hroom : s.room = 0) : (s.attempt 0 c env).io = 0 := by
  have hsock : ∀ d, (env.gather 0 (s.writeSocket 0 c.data d)).io = 0 := by
    intro d
    unfold Env.gather Stream.writeSocket
    simp only [hroom, Nat.zero_min, zero_add]
    repeat' split
    all_goals rfl
  unfold Stream.attempt
  cases env.early with
  | some e => rfl
  | none =>
    cases hform : c.form with
    | write => simpa [hkind] using hsock false
    | writev => simp [hform, Form.timed] at htimed
    | send d => simpa [hkind] using hsock d

def State.kinds (s : State) (fd : Nat) : Kind := (s.streams fd).kind

/-- A call that has appended its first `io` bytes, and will go on from there. -/
structure Pending.Ok (kinds : Nat → Kind) (io : Nat) (w : Pending) : Prop where
  plain : w.call.Plain (kinds w.call.fd)
  send : ∀ d, w.call.form = .send d → kinds w.call.fd = .pair
  le : io ≤ w.call.data.length
  log : w.log = w.call.data.take io

/-- The progress is that of the innermost call, and the others have none. -/
def Stacked (kinds : Nat → Kind) (io : Nat) : List Pending → Prop
  | [] => True
  | w :: rest => w.Ok kinds io ∧ ∀ v ∈ rest, v.Ok kinds 0

lemma Stacked.of_all {kinds : Nat → Kind} {ws : List Pending}
    (h : ∀ v ∈ ws, v.Ok kinds 0) : Stacked kinds 0 ws := by
  cases ws with
  | nil => trivial
  | cons w rest => exact ⟨h w (by simp), fun v hv => h v (by simp [hv])⟩

lemma Stacked.all {kinds : Nat → Kind} {ws : List Pending}
    (h : Stacked kinds 0 ws) : ∀ v ∈ ws, v.Ok kinds 0 := by
  cases ws with
  | nil => simp
  | cons w rest =>
    intro v hv
    rcases mem_cons.mp hv with rfl | hv
    · exact h.1
    · exact h.2 v hv

structure State.Sound (s : State) : Prop where
  finished : ∀ f ∈ s.finished, f.Exact
  waiting : Stacked s.kinds s.io (s.current.toList ++ s.suspended)

lemma kinds_setStream {fd : Nat} {st : Stream}
    (h : st.kind = (s.streams fd).kind) : (s.setStream fd st).kinds = s.kinds := by
  funext fd'
  by_cases hfd : fd' = fd
  · simp [kinds, setStream, hfd, h]
  · simp [kinds, setStream, hfd]

lemma exact_cons {f : Finished} {fs : List Finished} (hf : f.Exact)
    (h : ∀ g ∈ fs, g.Exact) : ∀ g ∈ f :: fs, g.Exact := by
  intro g hg
  rcases mem_cons.mp hg with rfl | hg
  · exact hf
  · exact h g hg

lemma sound_make {w : Pending} {after : After}
    (hfinished : ∀ f ∈ s.finished, f.Exact) (hcur : s.current = none)
    (hrest : ∀ v ∈ s.suspended, v.Ok s.kinds 0) (hplain : w.call.Plain (s.streams w.call.fd).kind)
    (hsend : ∀ d, w.call.form = .send d → (s.streams w.call.fd).kind = .pipe → s.io = 0)
    (hle : s.io ≤ w.call.data.length) (hlog : w.log = w.call.data.take s.io)
    (hsteady : Steady s w.call env after) : (s.make w env after).Sound := by
  have hfine := fine_attempt hplain hsteady hle hsend
  have hpend : ((s.streams w.call.fd).attempt s.io w.call env).reply = .park →
      ∀ d, w.call.form = .send d → s.kinds w.call.fd = .pair :=
    fun hpark d hd => attempt_park_send hpark hd
  rw [← hlog] at hfine
  unfold make
  unfold Attempt.Fine at hfine
  dsimp only
  have hstuck : (s.streams w.call.fd).kind = .pair ∧ w.call.form.timed = true →
      after = .timeout → ((s.streams w.call.fd).attempt s.io w.call env).io = 0 := by
    rintro ⟨hkind, htimed⟩ hafter
    have ⟨hio, hroom⟩ := hsteady.2 hafter hkind htimed
    rw [hio]
    exact attempt_stuck hkind htimed hroom
  generalize (s.streams w.call.fd).attempt s.io w.call env = a at *
  have hkinds : (s.setStream w.call.fd
      { s.streams w.call.fd with buf := (s.streams w.call.fd).buf ++ a.bytes }).kinds = s.kinds :=
    kinds_setStream rfl
  have hsuspended := Stacked.of_all hrest
  rw [← hkinds] at hrest hsuspended
  cases hreply : a.reply with
  | ret n =>
    rw [hreply] at hfine
    refine ⟨exact_cons ⟨hfine.1, hfine.2.1⟩ hfinished, ?_⟩
    simp only [setStream, hcur, hfine.2.2, toList_none, nil_append]
    exact hsuspended
  | err e =>
    rw [hreply] at hfine
    refine ⟨exact_cons hfine.1 hfinished, ?_⟩
    simp only [setStream, hcur, hfine.2, toList_none, nil_append]
    exact hsuspended
  | park =>
    rw [hreply] at hfine
    have hw : Pending.Ok s.kinds a.io ⟨w.call, w.log ++ a.bytes⟩ :=
      ⟨hplain, hpend hreply, hfine.1, hfine.2⟩
    rw [← hkinds] at hw
    cases after with
    | wait => exact ⟨hfinished, hw, hrest⟩
    | restart =>
      refine ⟨hfinished, ?_⟩
      simp only [setStream, hcur, toList_none, nil_append]
      exact ⟨hw, hrest⟩
    | interrupt =>
      refine ⟨exact_cons ?_ hfinished, ?_⟩
      · by_cases hpos : 0 < a.io
        · simp only [hpos, if_true]
          exact hfine
        obtain hzero : a.io = 0 := by omega
        have hempty := hfine.2
        rw [hzero, take_zero] at hempty
        simp only [hzero, lt_irrefl, if_false]
        exact hempty
      · simp only [setStream, hcur, toList_none, nil_append]
        exact hsuspended
    | timeout =>
      dsimp only
      split
      next htimed =>
        have hzero := hstuck htimed rfl
        have hempty := hfine.2
        rw [hzero, take_zero] at hempty
        refine ⟨exact_cons hempty hfinished, ?_⟩
        simp only [setStream, hcur, hzero, toList_none, nil_append]
        exact hsuspended
      · exact ⟨hfinished, hw, hrest⟩

/-- Calls are started, given up and interrupted only while none has progress, and attempts are
steady. -/
def Once (s : State) : Op → Prop
  | .start c env after => s.io = 0 ∧ c.Plain (s.streams c.fd).kind ∧ Steady s c env after
  | .rerun env after => ∀ w, s.current = some w → Steady s w.call env after
  | .resume env after => ∀ w ∈ s.suspended.head?, Steady s w.call env after
  | .abandon => s.io = 0
  | .other => s.io = 0
  | .adjust .. => True

lemma sound_step {s' : State} {op : Op} (hs : s.Sound) (hop : Once s op)
    (hstep : s.step op = some s') : s'.Sound := by
  have hwait := hs.waiting
  cases op with
  | start c env after =>
    cases hcur : s.current with
    | some w => simp [step, hcur] at hstep
    | none =>
      simp only [step, hcur, Option.some.injEq] at hstep
      subst hstep
      obtain ⟨hio, hplain, hsteady⟩ := hop
      rw [hcur, hio] at hwait
      exact sound_make hs.finished hcur hwait.all hplain (fun _ _ _ => hio)
        (by omega) (by simp [hio]) hsteady
  | rerun env after =>
    cases hcur : s.current with
    | none => simp [step, hcur] at hstep
    | some w =>
      simp only [step, hcur, Option.some.injEq] at hstep
      subst hstep
      rw [hcur] at hwait
      obtain ⟨hw, hrest⟩ := hwait
      refine sound_make (s := { s with current := none }) hs.finished rfl hrest hw.plain
        (fun d hd hpipe => ?_) hw.le hw.log (hop w hcur)
      have := (hw.send d hd).symm.trans hpipe
      cases this
  | resume env after =>
    cases hcur : s.current with
    | some w => simp [step, hcur] at hstep
    | none =>
      cases hsus : s.suspended with
      | nil => simp [step, hcur, hsus] at hstep
      | cons w rest =>
        simp only [step, hcur, hsus, Option.some.injEq] at hstep
        subst hstep
        rw [hcur, hsus] at hwait
        obtain ⟨hw, hrest⟩ := hwait
        refine sound_make (s := { s with current := none, suspended := rest }) hs.finished
          rfl hrest hw.plain (fun d hd hpipe => ?_) hw.le hw.log
          (hop w (by rw [hsus]; rfl))
        have := (hw.send d hd).symm.trans hpipe
        cases this
  | abandon =>
    cases hcur : s.current with
    | some w => simp [step, hcur] at hstep
    | none =>
      cases hsus : s.suspended with
      | nil => simp [step, hcur, hsus] at hstep
      | cons w rest =>
        simp only [step, hcur, hsus, Option.some.injEq] at hstep
        subst hstep
        have hio : s.io = 0 := hop
        rw [hcur, hsus] at hwait
        refine ⟨hs.finished, ?_⟩
        show Stacked s.kinds s.io rest
        rw [hio]
        exact Stacked.of_all hwait.2
  | other =>
    cases hstep
    have hio : s.io = 0 := hop
    rw [hio] at hwait
    exact ⟨hs.finished, hwait⟩
  | adjust fd buf capacity live nonblock =>
    cases hstep
    refine ⟨hs.finished, ?_⟩
    show Stacked (s.setStream fd _).kinds s.io _
    rw [kinds_setStream (s := s) (by rfl)]
    exact hwait

/-- **Writes are applied once.** In every such run a call that returned `n` appended its first `n`
bytes, and one that failed none. -/
theorem writes_applied_once {streams : Nat → Stream} {s : State}
    (h : State.Reach Once (State.init streams) s) : ∀ f ∈ s.finished, f.Exact :=
  (h.invariant (P := State.Sound) ⟨by simp [State.init], trivial⟩
    fun _ _ _ hs hop hstep => sound_step hs hop hstep).finished

def pairs (capacity : Nat) : Nat → Stream := fun _ => ⟨.pair, [], capacity, true, false⟩

/-- An attempt that finds everything in place. -/
def Env.fine : Env := ⟨none, none⟩

theorem writes_applied_once_parked : ∃ s, State.Reach Once (State.init (pairs 2)) s ∧
      s.finished = [⟨⟨0, .write, [[1, 2, 3]]⟩, [1, 2, 3], .ret 3⟩] ∧ ∀ f ∈ s.finished, f.Exact := by
  let ops : List Op := [.start ⟨0, .write, [[1, 2, 3]]⟩ Env.fine .wait,
    .adjust 0 [] 2 true false, .rerun Env.fine .wait]
  have hallowed : Run.Allowed State.step Once ops (State.init (pairs 2)) := by
    refine ⟨⟨rfl, nofun, nofun, nofun⟩, fun s₁ h₁ => ⟨trivial, fun s₂ h₂ => ⟨?_, fun _ _ => trivial⟩⟩⟩
    cases h₁
    cases h₂
    intro w hw
    cases hw
    exact ⟨fun _ => ⟨rfl, .inl rfl, fun _ => rfl⟩, nofun⟩
  exact ⟨_, .of_exec ops rfl hallowed, rfl, writes_applied_once (.of_exec ops rfl hallowed)⟩

/-- A timeout after part of the data, a handler that writes meanwhile, a reader that leaves, a
`writev`. -/
theorem writes_misapplied : (∃ s, State.Reach (fun _ _ => True) (State.init (pairs 2)) s ∧
      s.finished = [⟨⟨0, .write, [[1, 2, 3]]⟩, [1, 2], .err .eagain⟩]) ∧
    (∃ s, State.Reach (fun _ _ => True) (State.init (pairs 2)) s ∧
      s.finished = [⟨⟨1, .write, [[7, 8, 9]]⟩, [9], .ret 3⟩]) ∧
    (∃ s, State.Reach (fun _ _ => True) (State.init (pairs 2)) s ∧
      s.finished = [⟨⟨0, .write, [[1, 2, 3]]⟩, [1, 2], .err .epipe⟩]) ∧
    ∃ s, State.Reach (fun _ _ => True) (State.init (pairs 3)) s ∧
      s.finished = [⟨⟨0, .writev, [[1, 2], [3, 4]]⟩, [1, 2, 3, 2, 3, 4], .ret 4⟩] := by
  refine ⟨⟨_, .of_exec_free [.start ⟨0, .write, [[1, 2, 3]]⟩ Env.fine .wait,
        .rerun Env.fine .timeout] rfl,
      rfl⟩,
    ⟨_, .of_exec_free [.start ⟨0, .write, [[1, 2, 3]]⟩ Env.fine .restart,
      .start ⟨1, .write, [[7, 8, 9]]⟩ Env.fine .wait] rfl, rfl⟩,
    ⟨_, .of_exec_free [.start ⟨0, .write, [[1, 2, 3]]⟩ Env.fine .wait,
        .adjust 0 [1, 2] 2 false false,
      .rerun Env.fine .wait] rfl, rfl⟩,
    ⟨_, .of_exec_free [.start ⟨0, .writev, [[1, 2], [3, 4]]⟩ Env.fine .wait,
        .adjust 0 [] 3 true false,
      .rerun Env.fine .wait] rfl, rfl⟩⟩

end NixVm.Writes
