/-
Cutting text into pieces, and reading numbers.

A text is a list of characters. `split` is Rust's `str::split` with a `char`: two separators next
to each other have an empty piece between them.
-/
import Mathlib

namespace Text

/-- A text. -/
abbrev Str := List Char

/-- The pieces of `s` between the characters that satisfy `p`. -/
def splitBy (p : Char → Bool) : Str → List Str
  | [] => [[]]
  | c :: cs =>
    if p c then [] :: splitBy p cs
    else
      match splitBy p cs with
      | [] => [[c]]
      | w :: ws => (c :: w) :: ws

/-- The pieces of `s` between the separators. -/
def split (sep : Char) (s : Str) : List Str := splitBy (· = sep) s

lemma splitBy_ne_nil (p : Char → Bool) (s : Str) : splitBy p s ≠ [] := by
  cases s with
  | nil => simp [splitBy]
  | cons c cs =>
    unfold splitBy
    split
    · simp
    · split <;> simp

lemma not_of_mem_splitBy {p : Char → Bool} {s w : Str} (h : w ∈ splitBy p s) :
    ∀ c ∈ w, p c = false := by
  induction s generalizing w with
  | nil =>
    have hw : w = [] := by simpa [splitBy] using h
    simp [hw]
  | cons c cs ih =>
    unfold splitBy at h
    split at h
    · rcases List.mem_cons.mp h with rfl | h
      · simp
      · exact ih h
    rename_i hc
    split at h
    next hnil => exact absurd hnil (splitBy_ne_nil p cs)
    rename_i v vs hv
    rcases List.mem_cons.mp h with rfl | h
    · intro x hx
      rcases List.mem_cons.mp hx with rfl | hx
      · simpa using hc
      · exact ih (w := v) (by rw [hv]; simp) x hx
    · exact ih (by rw [hv]; simp [h])

lemma not_mem_of_mem_split {sep : Char} {s w : Str} (h : w ∈ split sep s) : sep ∉ w := by
  intro hsep
  have := not_of_mem_splitBy h sep hsep
  simp at this

/-- The characters Unicode calls white space. -/
def isSpace (c : Char) : Bool :=
  (9 ≤ c.toNat && c.toNat ≤ 13) || c.toNat = 0x20 || c.toNat = 0x85 || c.toNat = 0xA0 ||
  c.toNat = 0x1680 || (0x2000 ≤ c.toNat && c.toNat ≤ 0x200A) || c.toNat = 0x2028 ||
  c.toNat = 0x2029 || c.toNat = 0x202F || c.toNat = 0x205F || c.toNat = 0x3000

def trim (s : Str) : Str := ((s.dropWhile isSpace).reverse.dropWhile isSpace).reverse

def words (s : Str) : List Str := (splitBy isSpace s).filter fun w => !w.isEmpty

/-- The lines of a text that are not blank. -/
def inkedLines (s : Str) : List Str := (split '\n' s).filter fun l => !l.all isSpace

/-- A decimal number, most significant digit first. -/
def digits? : Str → Option Nat
  | [] => none
  | cs =>
    if cs.all Char.isDigit then some (cs.foldl (fun n c => 10 * n + (c.toNat - 48)) 0)
    else none

/-- `str::parse::<u32>`: a plus sign may come first. -/
def u32? (s : Str) : Option Nat :=
  let body := match s with
    | '+' :: rest => rest
    | _ => s
  (digits? body).filter fun n => n < 4294967296

end Text
