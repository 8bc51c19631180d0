/-
A byte-addressed memory and the little-endian words in it.

A memory is a function from addresses to bytes. Words are eight bytes, lowest first, and the only
two facts a client needs about them are that a word reads back as it was written, and that a write
is invisible to every word it does not overlap.
-/
import Mathlib

namespace Bytes

/-- A memory: one byte at every address. -/
abbrev Mem := Nat → BitVec 8

/-- The little-endian word at `a`. -/
def readWord (m : Mem) (a : Nat) : BitVec 64 :=
  m (a + 7) ++ m (a + 6) ++ m (a + 5) ++ m (a + 4) ++ m (a + 3) ++ m (a + 2) ++ m (a + 1) ++ m a

/-- `m` with the word `v` stored at `a`, lowest byte first. -/
def writeWord (m : Mem) (a : Nat) (v : BitVec 64) : Mem :=
  fun x => if a ≤ x ∧ x < a + 8 then v.extractLsb' (8 * (x - a)) 8 else m x

def store (m : Mem) (a n : Nat) (g : Nat → BitVec 8) : Mem :=
  fun x => if a ≤ x ∧ x < a + n then g (x - a) else m x

def write (m : Mem) (a : Nat) (bs : List (BitVec 8)) : Mem :=
  store m a bs.length fun i => bs.getD i 0

def read (m : Mem) (a n : Nat) : List (BitVec 8) :=
  (List.range n).map fun i => m (a + i)

def fill (m : Mem) (a n : Nat) (b : BitVec 8) : Mem := store m a n fun _ => b

@[simp] lemma length_read (m : Mem) (a n : Nat) : (read m a n).length = n := by
  simp [read]

lemma readWord_congr {m m' : Mem} {a : Nat} (h : ∀ k, k < 8 → m' (a + k) = m (a + k)) :
    readWord m' a = readWord m a := by
  have h0 := h 0 (by omega)
  simp only [Nat.add_zero] at h0
  simp only [readWord, h0, h 1 (by omega), h 2 (by omega), h 3 (by omega), h 4 (by omega),
    h 5 (by omega), h 6 (by omega), h 7 (by omega)]

lemma append_extract (v : BitVec 64) :
    (v.extractLsb' 56 8 ++ v.extractLsb' 48 8 ++ v.extractLsb' 40 8 ++ v.extractLsb' 32 8
      ++ v.extractLsb' 24 8 ++ v.extractLsb' 16 8 ++ v.extractLsb' 8 8 ++ v.extractLsb' 0 8
        : BitVec 64) = v := by
  ext i hi
  simp
  grind

lemma writeWord_byte (m : Mem) (a k : Nat) (v : BitVec 64) (hk : k < 8) :
    writeWord m a v (a + k) = v.extractLsb' (8 * k) 8 := by
  have hin : a ≤ a + k ∧ a + k < a + 8 := by omega
  rw [writeWord, if_pos hin, Nat.add_sub_cancel_left]

lemma readWord_writeWord (m : Mem) (a : Nat) (v : BitVec 64) :
    readWord (writeWord m a v) a = v := by
  have h0 := writeWord_byte m a 0 v (by omega)
  simp only [Nat.add_zero, Nat.mul_zero] at h0
  rw [readWord, h0, writeWord_byte m a 1 v (by omega), writeWord_byte m a 2 v (by omega),
    writeWord_byte m a 3 v (by omega), writeWord_byte m a 4 v (by omega),
    writeWord_byte m a 5 v (by omega), writeWord_byte m a 6 v (by omega),
    writeWord_byte m a 7 v (by omega)]
  exact append_extract v

lemma writeWord_of_disjoint (m : Mem) (v : BitVec 64) {a x : Nat} (h : x < a ∨ a + 8 ≤ x) :
    writeWord m a v x = m x := by
  have hout : ¬ (a ≤ x ∧ x < a + 8) := by omega
  rw [writeWord, if_neg hout]

lemma readWord_writeWord_of_disjoint (m : Mem) (v : BitVec 64) {a b : Nat}
    (h : b + 8 ≤ a ∨ a + 8 ≤ b) : readWord (writeWord m a v) b = readWord m b :=
  readWord_congr fun k hk => writeWord_of_disjoint m v (by omega)

lemma readWord_eq_zero {m : Mem} {a : Nat} (h : ∀ k, k < 8 → m (a + k) = 0) : readWord m a = 0 := by
  have hz : readWord m a = readWord (fun _ => 0) a := readWord_congr (by simpa using h)
  rw [hz, readWord]
  decide

lemma store_of_mem (m : Mem) (g : Nat → BitVec 8) {a n x : Nat} (h : a ≤ x ∧ x < a + n) :
    store m a n g x = g (x - a) := by
  rw [store, if_pos h]

lemma store_of_disjoint (m : Mem) (g : Nat → BitVec 8) {a n x : Nat}
    (h : x < a ∨ a + n ≤ x) : store m a n g x = m x := by
  have hout : ¬ (a ≤ x ∧ x < a + n) := by omega
  rw [store, if_neg hout]

end Bytes
