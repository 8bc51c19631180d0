/-
Computations that may panic: `none` is a panic, and `Returns x Q` says that `x` does not panic and
that its value meets `Q`. It is the total form of a postcondition, so it is proved along the binds
of a computation, one fact for each step.
-/
import Mathlib

namespace NixVm

/-- The computation returns, with a value that meets `Q`. -/
def Returns {α : Type} (x : Option α) (Q : α → Prop) : Prop := ∃ a, x = some a ∧ Q a

namespace Returns

variable {α β : Type} {x : Option α} {P Q : α → Prop}

lemma pure {a : α} (h : Q a) : Returns (some a) Q := ⟨a, rfl, h⟩

lemma mono (h : Returns x P) (hPQ : ∀ a, P a → Q a) : Returns x Q := by
  obtain ⟨a, hx, ha⟩ := h
  exact ⟨a, hx, hPQ a ha⟩

lemma bind {f : α → Option β} {R : β → Prop} (h : Returns x P)
    (hf : ∀ a, P a → Returns (f a) R) : Returns (x >>= f) R := by
  obtain ⟨a, hx, ha⟩ := h
  rw [hx]
  exact hf a ha

lemma map {f : α → β} {R : β → Prop} (h : Returns x P) (hf : ∀ a, P a → R (f a)) :
    Returns (x.map f) R := by
  obtain ⟨a, hx, ha⟩ := h
  exact ⟨f a, by rw [hx]; rfl, hf a ha⟩

lemma ite {c : Prop} [Decidable c] {y : Option α} (ht : c → Returns x Q)
    (he : ¬c → Returns y Q) : Returns (if c then x else y) Q := by
  split
  · exact ht ‹_›
  · exact he ‹_›

lemma getElem {l : List α} {i : Nat} (h : i < l.length) : Returns l[i]? fun a => l[i]? = some a :=
  ⟨l.get ⟨i, h⟩, by simp, by simp⟩

lemma mapM {f : α → Option β} {R : β → Prop} {l : List α}
    (h : ∀ a ∈ l, Returns (f a) R) : Returns (l.mapM f) fun bs => ∀ b ∈ bs, R b := by
  induction l with
  | nil => exact pure nofun
  | cons a l ih =>
    rw [List.mapM_cons]
    refine (h a (.head _)).bind fun b hb => ?_
    refine (ih fun c hc => h c (.tail _ hc)).bind fun bs hbs => pure ?_
    intro c hc
    cases hc with
    | head => exact hb
    | tail _ hc => exact hbs c hc

lemma foldlM {f : β → α → Option β} {I : β → Prop} {l : List α} {b : β} (hb : I b)
    (h : ∀ c, I c → ∀ a ∈ l, Returns (f c a) I) : Returns (l.foldlM f b) I := by
  induction l generalizing b with
  | nil => exact pure hb
  | cons a l ih =>
    rw [List.foldlM_cons]
    refine (h b hb a (.head _)).bind fun c hc => ?_
    exact ih hc fun d hd e he => h d hd e (.tail _ he)

end Returns

end NixVm
