/-
Runs of a system given by a partial step function.

`Next step can` is one step whose operation meets the condition `can`. A property of the state
holds throughout a run when it holds at the start and steps keep it; a list of operations that goes
through is a run.
-/
import Mathlib

namespace NixVm.Run

open Option

variable {σ ι : Type*} (step : σ → ι → Option σ)

/-- A step by an operation that meets the condition. -/
def Next (can : σ → ι → Prop) (s s' : σ) : Prop := ∃ op, can s op ∧ step s op = some s'

/-- The states reached from `s` by steps that meet the condition. -/
abbrev Reach (can : σ → ι → Prop) : σ → σ → Prop := Relation.ReflTransGen (Next step can)

/-- Perform a list of operations. -/
def exec : List ι → σ → Option σ
  | [], s => some s
  | op :: ops, s => (step s op).bind (exec ops)

variable {step}

/-- An invariant: true at the start, and kept by every step. -/
lemma Reach.invariant {can : σ → ι → Prop} {P : σ → Prop} {s s' : σ}
    (h : Reach step can s s') (hinit : P s)
    (hstep : ∀ s op s', P s → can s op → step s op = some s' → P s') : P s' := by
  induction h with
  | refl => exact hinit
  | tail _ hlast ih =>
    obtain ⟨op, hop, hs⟩ := hlast
    exact hstep _ op _ ih hop hs

/-- Operations that go through, each meeting the condition where it is performed. -/
def Allowed (step : σ → ι → Option σ) (can : σ → ι → Prop) : List ι → σ → Prop
  | [], _ => True
  | op :: ops, s => can s op ∧ ∀ s', step s op = some s' → Allowed step can ops s'

lemma Reach.of_exec {can : σ → ι → Prop} (ops : List ι) :
    ∀ {s s' : σ}, exec step ops s = some s' → Allowed step can ops s → Reach step can s s' := by
  induction ops with
  | nil =>
    intro s s' h _
    cases h
    exact .refl
  | cons op ops ih =>
    intro s s' h hcan
    have ⟨t, ht, h⟩ := bind_eq_some_iff.mp h
    exact .head ⟨op, hcan.1, ht⟩ (ih h (hcan.2 t ht))

lemma Allowed.of_forall {can : σ → ι → Prop} (h : ∀ s op, can s op) (ops : List ι) :
    ∀ s, Allowed step can ops s := by
  induction ops with
  | nil => exact fun _ => trivial
  | cons op ops ih => exact fun s => ⟨h s op, fun s' _ => ih s'⟩

lemma Reach.of_exec_free {s s' : σ} (ops : List ι) (h : exec step ops s = some s') :
    Reach step (fun _ _ => True) s s' :=
  .of_exec ops h (.of_forall (fun _ _ => trivial) ops s)

lemma Reach.of_exec_guarded {can : σ → ι → Prop} {ok : σ → ι → Bool}
    (hok : ∀ s op, ok s op = true → can s op) (ops : List ι) :
    ∀ {s s' : σ}, exec (fun s op => if ok s op then step s op else none) ops s = some s' →
      Reach step can s s' := by
  induction ops with
  | nil =>
    intro s s' h
    cases h
    exact .refl
  | cons op ops ih =>
    intro s s' h
    have ⟨t, ht, h⟩ := bind_eq_some_iff.mp h
    have ⟨hop, ht⟩ := ite_none_right_eq_some.mp ht
    exact .head ⟨op, hok s op hop, ht⟩ (ih h)

lemma exists_of_mem_mapM {α β : Type*} {f : α → Option β} :
    ∀ {l : List α} {l' : List β}, l.mapM f = some l' → ∀ b ∈ l', ∃ a, f a = some b := by
  intro l
  induction l with
  | nil =>
    intro l' h b hb
    cases h
    cases hb
  | cons a l ih =>
    intro l' h b hb
    rw [List.mapM_cons] at h
    have ⟨x, hx, h⟩ := bind_eq_some_iff.mp h
    have ⟨xs, hxs, h⟩ := bind_eq_some_iff.mp h
    cases h
    rcases List.mem_cons.mp hb with rfl | hb
    · exact ⟨a, hx⟩
    · exact ih hxs b hb

end NixVm.Run
