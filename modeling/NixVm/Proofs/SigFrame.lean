/-
What becomes of a caught signal that is delivered (`Kernel/SigFrame`).

The loop goes past the signals that are ignored, and the first of the others decides. If that one is
caught its frame has to be written; if it stops the task, it takes a pending `SIGCONT` away.
-/
import NixVm.Kernel.SigFrame

namespace NixVm.Signal

variable {α : Type} {p p' : Framed α} {n sig : Nat}

structure Framed.Caught (p : Framed α) (n : Nat) : Prop where
  pos : 1 ≤ n
  le : n ≤ nsig
  ne_stop : n ≠ sigstop
  ne_dfl : (p.task.handlers n).handler ≠ sigDfl
  ne_ign : (p.task.handlers n).handler ≠ sigIgn

def Framed.Keeps (p p' : Framed α) (n : Nat) : Prop :=
  has p'.task.pending n = has p.task.pending n ∧ p'.infos n = p.infos n

/-- The task goes on in the handler of `n`, with the oldest siginfo of `n` in its frame. -/
def Framed.Enters (p p' : Framed α) (n : Nat) : Prop :=
  (∃ restore, p'.frames =
    ⟨n, (p.infos n).head?, restore, (p.task.handlers n).handler⟩ :: p.frames) ∧
  p'.infos n = (if sigrtmin ≤ n then (p.infos n).tail else []) ∧
  (p'.infos n ≠ [] → has p'.task.pending n = true)

/-- The mask a call came with is in the frame, back in force, or kept. -/
def Framed.Restores (p p' : Framed α) : Prop :=
  ∀ prev, p.task.sigsuspendPrev = some prev → (∃ f, p'.frames = f :: p.frames ∧ f.restore = prev) ∨
    (p'.task.blocked = prev ∧ p'.task.sigsuspendPrev = none) ∨
    (p'.task.run ≠ .running ∧ p'.task.sigsuspendPrev = some prev)

lemma has_or (a b : SigSet) (sig : Nat) : has (a ||| b) sig = (has a sig || has b sig) :=
  BitVec.getLsbD_or

lemma has_bit_ne {a b : Nat} (ha : 1 ≤ a) (hb : 1 ≤ b) (hne : a ≠ b) : has (bit a) b = false := by
  rw [has, bit, BitVec.getLsbD_shiftLeft, BitVec.getLsbD_one]
  simp only [Bool.and_eq_false_imp, Bool.and_eq_true, decide_eq_true_eq, Bool.not_eq_true']
  intro h
  simp only [decide_eq_false_iff_not, not_lt] at h
  simp only [decide_eq_false_iff_not]
  omega

lemma has_and_not_bit (m : SigSet) (hs : 1 ≤ sig) (hn : 1 ≤ n) (hle : n ≤ nsig) (hne : sig ≠ n) :
    has (m &&& ~~~bit sig) n = has m n := by
  have hbit := has_bit_ne hs hn hne
  unfold has at hbit ⊢
  have hlt : n - 1 < 64 := by unfold nsig at hle; omega
  rw [BitVec.getLsbD_and, BitVec.getLsbD_not, hbit]
  simp [hlt]

lemma has_bit_self (hs : 1 ≤ sig) (hle : sig ≤ nsig) : has (bit sig) sig = true := by
  unfold nsig at hle
  rw [has, bit, BitVec.getLsbD_shiftLeft, BitVec.getLsbD_one]
  simp
  omega

/-- Every caught signal is kept or its handler entered, and the mask is restored. -/
def Framed.Safe (p p' : Framed α) : Prop :=
  p.Restores p' ∧ ∀ n, p.Caught n → p.Keeps p' n ∨ p.Enters p' n

/-! ### The signal that decides -/

section First

variable {d : SigSet} {a k : Nat}

end First

/-! ### One signal -/

/-- `sig` is taken off, with nothing else. -/
def Framed.without (p : Framed α) (sig : Nat) : Framed α :=
  { p with task := { p.task with pending := p.task.pending &&& ~~~bit sig } }

lemma Framed.Safe.deliverAsync (hs : 1 ≤ sig) : p.Safe ((p.without sig).deliverAsync true sig) := by
  refine ⟨fun prev hprev => .inl ⟨_, rfl, ?_⟩, fun n hc => ?_⟩
  · show p.task.sigsuspendPrev.getD _ = prev
    rw [hprev]
    rfl
  by_cases hne : sig = n
  · subst hne
    refine .inr ⟨⟨_, rfl⟩, if_pos rfl, fun hrest => ?_⟩
    show has (if _ then _ else _) sig = true
    rw [if_neg fun h => hrest ((if_pos rfl).trans (List.isEmpty_iff.mp h)), has_or,
      has_bit_self hs hc.le, Bool.or_true]
  have hbit := has_and_not_bit p.task.pending hs hc.pos hc.le hne
  have hrearm : ∀ b : Bool, has (if b then p.task.pending &&& ~~~bit sig
      else p.task.pending &&& ~~~bit sig ||| bit sig) n = has p.task.pending n
    | true => hbit
    | false => by rw [if_neg nofun, has_or, hbit, has_bit_ne hs hc.pos hne, Bool.or_false]
  exact .inl ⟨hrearm _, if_neg (Ne.symm hne)⟩

/-- `rt_sigsuspend` with an empty mask, when 10 is pending with siginfo 7 and has a handler. -/
def suspended : Framed Nat where
  task := { Task.init with
    pending := bit 10
    handlers := fun _ => ⟨4096, false, false, 0#64⟩
    sigsuspendPrev := some (bit 10) }
  infos n := if n = 10 then [7] else []
  frames := []

end NixVm.Signal
