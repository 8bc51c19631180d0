/-
No byte of a pipe is lost between the writers and the calls that read.

The bytes written are those handed out followed by those in the buffer. The source takes first and
finds out later: `Safe` says which attempts do not run into that.
-/
import NixVm.Kernel.Pipe

namespace NixVm.Pipes

open List

variable {p : Pipe}

def lens (iov : List (Option Buffer)) : Nat :=
  (iov.map fun o => match o with
    | none => 0
    | some b => b.len).sum

/-- Attempts that take off the pipe only what they hand over. -/
def Safe (p : Pipe) : Op → Prop
  | .write _ => True
  | .adjust .. => True
  | .read b => min b.len p.buf.length ≤ b.fits
  | .readv iov => (∀ b, some b ∈ iov → b.len ≤ b.fits) ∧
      (p.writers = 0 ∨ p.readNonblock = true ∨ p.buf = [] ∨
        ∀ pre b post, iov = pre ++ some b :: post → b.len ≠ 0 → lens pre ≠ p.buf.length)
  | .splice _ _ (.pipe ..) => True
  | .splice _ _ (.file _) => True
  | .splice len _ (.socket room mayPark) => mayPark = false ∨ min len p.buf.length ≤ room
  | .splice _ _ (.stdio ok) => ok = true

/-- What is handed over comes off the front, and nothing if the attempt parks or fails. -/
structure Outcome.Exact (before : List Byte) (o : Outcome) : Prop where
  split : before = o.2.2 ++ o.2.1.buf
  nothing : (∀ n, o.1 ≠ .ret n) → o.2.2 = []

lemma exact_none {r : Reply} : Outcome.Exact p.buf (r, p, []) :=
  ⟨rfl, fun _ => rfl⟩

lemma exact_take (p : Pipe) (n m : Nat) : Outcome.Exact p.buf (.ret m, p.drain n, p.buf.take n) :=
  ⟨(take_append_drop n p.buf).symm, fun h => absurd rfl (h m)⟩

lemma exact_read {b : Buffer} (h : min b.len p.buf.length ≤ b.fits) :
    Outcome.Exact p.buf (p.read b) := by
  unfold Pipe.read
  split
  · exact exact_none
  rw [if_pos h]
  exact exact_take p ..

lemma read_cases {b : Buffer} (h : b.len ≤ b.fits) :
    (p.buf = [] ∧ p.read b = (p.whenEmpty false, p, [])) ∨
    (p.buf ≠ [] ∧ p.read b = (.ret (min b.len p.buf.length),
      p.drain (min b.len p.buf.length), p.buf.take (min b.len p.buf.length))) := by
  unfold Pipe.read
  by_cases hnil : p.buf = []
  · exact .inl ⟨hnil, if_pos hnil⟩
  refine .inr ⟨hnil, ?_⟩
  rw [if_neg hnil]
  rw [if_pos (by omega)]

/-- `got` and what is in the pipe are the bytes there were. By induction on the buffers. -/
lemma exact_readvFrom (iov : List (Option Buffer)) :
    ∀ (got : List Byte) (p : Pipe), (∀ b, some b ∈ iov → b.len ≤ b.fits) →
      (p.writers = 0 ∨ p.readNonblock = true ∨ (got = [] ∧ p.buf = []) ∨
        ∀ pre b post, iov = pre ++ some b :: post → b.len ≠ 0 → lens pre ≠ p.buf.length) →
      Outcome.Exact (got ++ p.buf) (Pipe.readvFrom iov got p) := by
  induction iov with
  | nil =>
    intro got p _ _
    exact ⟨rfl, fun h => absurd rfl (h _)⟩
  | cons o rest ih =>
    intro got p hfits hcond
    cases o with
    | none =>
      unfold Pipe.readvFrom
      split
      · exact ⟨rfl, fun h => absurd rfl (h _)⟩
      obtain rfl : got = [] := length_eq_zero_iff.mp (by omega)
      exact exact_none
    | some b =>
      have hrest : ∀ b, some b ∈ rest → b.len ≤ b.fits := fun b hb => hfits b (by simp [hb])
      have hb := hfits b (by simp)
      unfold Pipe.readvFrom
      split
      next hzero =>
        refine ih got p hrest ?_
        rcases hcond with h | h | h | h
        · exact .inl h
        · exact .inr (Or.inl h)
        · exact .inr (Or.inr (Or.inl h))
        refine Or.inr (Or.inr (Or.inr fun pre c post heq hc => ?_))
        have := h (some b :: pre) c post (by rw [heq]; rfl) hc
        simpa [lens, hzero] using this
      rename_i hlen
      rcases read_cases (p := p) hb with ⟨hnil, hread⟩ | ⟨hne, hread⟩
      · rw [hread]
        unfold Pipe.whenEmpty
        by_cases hw : p.writers = 0
        · rw [if_pos hw]
          dsimp only
          rw [if_pos (by omega)]
          exact ⟨by simp, fun h => absurd rfl (h _)⟩
        rw [if_neg hw]
        by_cases hn : p.readNonblock = true
        · simp only [hn, Bool.or_true, if_true]
          split
          · exact ⟨rfl, fun h => absurd rfl (h _)⟩
          rename_i hgot
          obtain rfl : got = [] := length_eq_zero_iff.mp (by omega)
          exact exact_none
        -- the call parks, so nothing may have been taken yet
        have hgot : got = [] := by
          rcases hcond with h | h | h | h
          · exact absurd h hw
          · exact absurd h hn
          · exact h.1
          have := h [] b rest rfl hlen
          simp [lens, hnil] at this
        subst hgot
        simp only [hn, Bool.or_self, Bool.false_eq_true, if_false]
        exact exact_none
      · rw [hread]
        dsimp only
        split
        · refine ⟨?_, fun h => absurd rfl (h _)⟩
          dsimp only [Pipe.drain]
          rw [append_assoc, take_append_drop]
        rename_i hfull
        have hmin : min b.len p.buf.length = b.len := by omega
        have hle : b.len ≤ p.buf.length := by omega
        rw [hmin]
        have hexact := ih (got ++ p.buf.take b.len) (p.drain b.len) hrest (by
          rcases hcond with h | h | h | h
          · exact .inl h
          · exact .inr (Or.inl h)
          · exact absurd h.2 hne
          refine Or.inr (Or.inr (Or.inr fun pre c post heq hc => ?_))
          have := h (some b :: pre) c post (by rw [heq]; rfl) hc
          simp only [lens, map_cons, sum_cons] at this
          simp only [lens, Pipe.drain, length_drop]
          omega)
        dsimp only [Pipe.drain] at hexact
        rw [append_assoc, take_append_drop] at hexact
        exact hexact

lemma exact_splice {len : Nat} {nonblock : Bool} {sink : Sink}
    (h : Safe p (.splice len nonblock sink)) :
    Outcome.Exact p.buf (p.splice len nonblock sink) := by
  cases sink with
  | pipe room readers outNonblock =>
    unfold Pipe.splice
    dsimp only
    split
    · exact exact_none
    split
    · exact exact_none
    split
    · exact exact_none
    · exact exact_take p ..
  | file write =>
    unfold Pipe.splice
    dsimp only
    split
    · exact exact_none
    split
    · exact exact_none
    · exact exact_take p ..
  | socket room mayPark =>
    unfold Pipe.splice
    dsimp only
    split
    · exact exact_none
    split
    · exact exact_take p ..
    rename_i hroom
    have hpark : mayPark = false := h.resolve_right hroom
    rw [if_neg (by simp [hpark])]
    split
    · exact exact_none
    · exact exact_take p ..
  | stdio ok =>
    obtain rfl : ok = true := h
    unfold Pipe.splice
    dsimp only
    split
    · exact exact_none
    · exact exact_take p ..

lemma exact_outcome {op : Op} (h : Safe p op) :
    Outcome.Exact (p.buf ++ op.input) (op.outcome p) := by
  cases op with
  | write data => exact ⟨rfl, fun _ => rfl⟩
  | adjust readers writers rn wn capacity => exact ⟨by simp [Op.input, Op.outcome], fun _ => rfl⟩
  | read b =>
    show Outcome.Exact (p.buf ++ []) _
    rw [append_nil]
    exact exact_read h
  | readv iov =>
    show Outcome.Exact (p.buf ++ []) _
    rw [append_nil]
    refine exact_readvFrom iov [] p h.1 ?_
    rcases h.2 with hc | hc | hc | hc
    · exact .inl hc
    · exact .inr (.inl hc)
    · exact .inr (.inr (.inl ⟨rfl, hc⟩))
    · exact .inr (.inr (.inr hc))
  | splice len nonblock sink =>
    show Outcome.Exact (p.buf ++ []) _
    rw [append_nil]
    exact exact_splice h

/-- **No input is lost.** In every run of safe attempts, what was written was handed out or is in
the pipe, and an attempt that parks or fails takes nothing. -/
theorem no_lost_input {s : State} (h : Relation.ReflTransGen (State.Next Safe) State.init s) :
    s.written = s.handed ++ s.pipe.buf ∧
    ∀ op, Safe s.pipe op → (∀ n, (op.outcome s.pipe).1 ≠ .ret n) →
      (op.outcome s.pipe).2.1.buf = s.pipe.buf ++ op.input := by
  constructor
  · induction h with
    | refl => rfl
    | @tail s _ _ hlast ih =>
      obtain ⟨op, hop, rfl⟩ := hlast
      have hsplit := (exact_outcome hop).split
      simp only [State.step]
      rw [ih, List.append_assoc, List.append_assoc, hsplit]
  intro op hop hfail
  have hexact := exact_outcome hop
  have hsplit := hexact.split
  rw [hexact.nothing hfail, List.nil_append] at hsplit
  exact hsplit.symm

theorem no_lost_input_readv :
    let s := (State.init.step (.write [1, 2, 3, 4])).step (.readv [some ⟨2, 2⟩, some ⟨3, 3⟩])
    s.handed = [1, 2, 3, 4] ∧ s.written = s.handed ++ s.pipe.buf := by
  have hwrite : State.Next Safe State.init (State.init.step (.write [1, 2, 3, 4])) :=
    ⟨.write [1, 2, 3, 4], trivial, rfl⟩
  have hread : State.Next Safe (State.init.step (.write [1, 2, 3, 4]))
      ((State.init.step (.write [1, 2, 3, 4])).step (.readv [some ⟨2, 2⟩, some ⟨3, 3⟩])) := by
    refine ⟨.readv [some ⟨2, 2⟩, some ⟨3, 3⟩], ⟨fun b hb => ?_, ?_⟩, rfl⟩
    · simp only [List.mem_cons, Option.some.injEq, List.not_mem_nil, or_false] at hb
      rcases hb with rfl | rfl <;> decide
    refine .inr (.inr (.inr fun pre b post heq _ => ?_))
    -- the buffers before one of the two hold 0 or 2 bytes, and the pipe holds 4
    match pre, heq with
    | [], _ => decide
    | [_], heq =>
      obtain ⟨rfl, -⟩ := List.cons.inj heq
      decide
    | _ :: _ :: _, heq => simp at heq
  exact ⟨rfl, (no_lost_input ((Relation.ReflTransGen.single hwrite).tail hread)).1⟩

/-- A list of buffers used up at the last byte of the pipe, and a buffer that cannot be
written. -/
theorem input_lost : (∃ s, Relation.ReflTransGen (State.Next fun _ _ => True) State.init s ∧
      s.written = [1, 2, 3, 4] ∧ s.handed = [3, 4] ∧ s.pipe.buf = []) ∧
    ∃ s, Relation.ReflTransGen (State.Next fun _ _ => True) State.init s ∧
      s.written = [1, 2] ∧ s.handed = [] ∧ s.pipe.buf = [] := by
  constructor
  · refine ⟨(((State.init.step (.write [1, 2])).step (.readv [some ⟨2, 2⟩, some ⟨2, 2⟩])).step
      (.write [3, 4])).step (.read ⟨2, 2⟩), ?_, rfl, rfl, rfl⟩
    exact (((Relation.ReflTransGen.single ⟨.write [1, 2], trivial, rfl⟩).tail
      ⟨.readv [some ⟨2, 2⟩, some ⟨2, 2⟩], trivial, rfl⟩).tail ⟨.write [3, 4], trivial, rfl⟩).tail
      ⟨.read ⟨2, 2⟩, trivial, rfl⟩
  · refine ⟨(State.init.step (.write [1, 2])).step (.read ⟨2, 0⟩), ?_, rfl, rfl, rfl⟩
    exact (Relation.ReflTransGen.single ⟨.write [1, 2], trivial, rfl⟩).tail
      ⟨.read ⟨2, 0⟩, trivial, rfl⟩

end NixVm.Pipes
