/-
Decrypting with the AES instructions undoes encrypting with them.

Both column mixes are circulant, with entries that act linearly on a byte. So one undoes the other
as soon as it does for a column with a single bit, and a key can be taken through a mix.
-/
import NixVm.Vcpu.Crypto

namespace NixVm.Crypto

lemma gfMulLoop_xor (n : Nat) : ∀ a b c p q : Byte,
    gfMulLoop n a (b ^^^ c) (p ^^^ q) = gfMulLoop n a b p ^^^ gfMulLoop n a c q := by
  induction n with
  | zero => exact fun _ _ _ _ _ => rfl
  | succ n ih =>
    intro a b c p q
    have hbit : ∀ b : Byte, b &&& 1#8 = 0#8 ∨ b &&& 1#8 = 1#8 := by decide
    have hxor : (b ^^^ c) &&& 1#8 = (b &&& 1#8) ^^^ (c &&& 1#8) := by
      ext i
      simp [Bool.and_xor_distrib_right]
    simp only [gfMulLoop, BitVec.ofNat_eq_ofNat, BitVec.ushiftRight_xor_distrib, ← ih, hxor]
    congr 1
    rcases hbit b with hb | hb
    · rcases hbit c with hc | hc
      · simp [hb, hc]
      · simp [hb, hc, BitVec.xor_assoc]
    rcases hbit c with hc | hc
    · simp only [hb, hc]
      exact (by ac_rfl : p ^^^ q ^^^ a = p ^^^ a ^^^ q)
    · have hcancel : p ^^^ a ^^^ (q ^^^ a) = p ^^^ q ^^^ (a ^^^ a) := by ac_rfl
      simp [hb, hc, hcancel]

lemma gfMul_xor (a b c : Byte) : gfMul a (b ^^^ c) = gfMul a b ^^^ gfMul a c :=
  gfMulLoop_xor 8 a b c 0 0

lemma gfMul_one : ∀ b : Byte, gfMul 1#8 b = b := by decide +kernel

lemma lookup_inv : ∀ b : Byte, lookup aesInvSbox (lookup aesSbox b) = b := by decide +kernel

def bit (i : Fin 8) : Byte := 1 <<< i.val

lemma eq_of_bits {f g : Byte → Byte} (hf : ∀ a b, f (a ^^^ b) = f a ^^^ f b)
    (hg : ∀ a b, g (a ^^^ b) = g a ^^^ g b) (h : ∀ i : Fin 8, f (bit i) = g (bit i))
    (b : Byte) : f b = g b := by
  have hzero : ∀ {f : Byte → Byte}, (∀ a b, f (a ^^^ b) = f a ^^^ f b) → f 0 = 0 := by
    intro f hf
    simpa using hf 0 0
  have hcases : ∀ (b : Byte) (i : Fin 8), b &&& bit i = 0 ∨ b &&& bit i = bit i := by
    decide +kernel
  have hbit : ∀ i : Fin 8, f (b &&& bit i) = g (b &&& bit i) := by
    intro i
    rcases hcases b i with hb | hb
    · rw [hb, hzero hf, hzero hg]
    · rw [hb, h]
  have hsum : ∀ b : Byte, b = (List.finRange 8).foldr (fun i s => b &&& bit i ^^^ s) 0 := by
    decide +kernel
  rw [hsum b]
  induction List.finRange 8 with
  | nil => rw [List.foldr_nil, hzero hf, hzero hg]
  | cons i is ih => rw [List.foldr_cons, hf, hg, hbit, ih]

def sum4 (f : Fin 4 → Byte) : Byte := (List.finRange 4).foldr (fun j s => f j ^^^ s) 0

lemma sum4_eq (f : Fin 4 → Byte) : sum4 f = f 0 ^^^ f 1 ^^^ f 2 ^^^ f 3 := by
  show f 0 ^^^ (f 1 ^^^ (f 2 ^^^ (f 3 ^^^ 0))) = _
  simp [BitVec.xor_assoc]

/-- Multiply a column by the circulant matrix with the first row `m`. -/
def circulant (m a : Fin 4 → Byte) (r : Fin 4) : Byte := sum4 fun j => gfMul (m (j - r)) (a j)

def mixRow : Fin 4 → Byte := ![2, 3, 1, 1]

def invMixRow : Fin 4 → Byte := ![14, 11, 13, 9]

lemma aesMixColumn_eq (a : Fin 4 → Byte) : aesMixColumn a = circulant mixRow a := by
  funext r
  fin_cases r <;> simp [aesMixColumn, circulant, sum4_eq, mixRow, gfMul_one]

lemma aesInvMixColumn_eq (a : Fin 4 → Byte) : aesInvMixColumn a = circulant invMixRow a := by
  funext r
  rw [circulant, sum4_eq]
  fin_cases r <;> rfl

lemma sum4_xor (f g : Fin 4 → Byte) : sum4 (fun j => f j ^^^ g j) = sum4 f ^^^ sum4 g := by
  simp only [sum4_eq]
  ac_rfl

lemma sum4_comm (f : Fin 4 → Fin 4 → Byte) :
    sum4 (fun j => sum4 fun k => f j k) = sum4 fun k => sum4 fun j => f j k := by
  simp only [sum4_eq]
  ac_rfl

lemma circulant_xor (m a b : Fin 4 → Byte) (r : Fin 4) :
    circulant m (fun j => a j ^^^ b j) r = circulant m a r ^^^ circulant m b r := by
  simp only [circulant, gfMul_xor, sum4_xor]

lemma circulant_entry (r k : Fin 4) (b : Byte) :
    sum4 (fun j => gfMul (invMixRow (j - r)) (gfMul (mixRow (k - j)) b)) =
      if k = r then b else 0 := by
  have hbits : ∀ (r k : Fin 4) (i : Fin 8),
      sum4 (fun j => gfMul (invMixRow (j - r)) (gfMul (mixRow (k - j)) (bit i))) =
        if k = r then bit i else 0 := by decide +kernel
  refine eq_of_bits (f := fun b => sum4 fun j => gfMul (invMixRow (j - r)) (gfMul (mixRow (k - j)) b))
    (g := fun b => if k = r then b else 0) (fun a b => ?_) (fun a b => ?_) (hbits r k) b
  · simp only [gfMul_xor, sum4_xor]
  · split <;> simp

lemma circulant_circulant (a : Fin 4 → Byte) : circulant invMixRow (circulant mixRow a) = a := by
  funext r
  have hdistrib : ∀ m (f : Fin 4 → Byte), gfMul m (sum4 f) = sum4 fun k => gfMul m (f k) := by
    intro m f
    simp only [sum4_eq, gfMul_xor]
  simp only [circulant, hdistrib]
  rw [sum4_comm]
  simp only [circulant_entry]
  fin_cases r <;> simp [sum4_eq]

lemma xor_xor_cancel (s k : Block) : xor (xor s k) k = s := by
  funext c r
  simp [xor]

lemma aesMixColumns_inv (s : Block) : aesMixColumns (aesMixColumns s true) false = s := by
  funext c
  simp [aesMixColumns, aesMixColumn_eq, aesInvMixColumn_eq, circulant_circulant]

lemma aesMixColumns_xor (s k : Block) :
    aesMixColumns (xor s k) false = xor (aesMixColumns s false) (aesMixColumns k false) := by
  funext c r
  simp only [aesMixColumns, xor, Bool.false_eq_true, if_false, aesInvMixColumn_eq]
  exact circulant_xor ..

lemma aesRound_inv (s k l : Block) : aesRound (xor (aesRound s k true) l) l false = xor s k := by
  unfold aesRound
  rw [xor_xor_cancel]
  funext c r
  simp [aesShiftRows, aesInvShiftRows, lookup_inv]

/-- Rounds with the keys `first` and `inner`, with mixes between them, and the key `last` added. -/
def cipher (encrypt : Bool) (s first : Block) (inner : List Block) (last : Block) : Block :=
  xor (inner.foldl (fun s k => aesRound (aesMixColumns s encrypt) k encrypt)
    (aesRound s first encrypt)) last

/-- **Decryption undoes encryption**, with the keys in reverse, the inner ones through a mix. -/
theorem decrypt_encrypt (s first : Block) (inner : List Block) (last : Block) :
    cipher false (cipher true s first inner last) last
      (inner.map fun k => aesMixColumns k false).reverse first = s := by
  suffices h : (inner.map fun k => aesMixColumns k false).reverse.foldl
      (fun s k => aesRound (aesMixColumns s false) k false)
      (aesRound (cipher true s first inner last) last false) = xor s first by
    rw [cipher, h, xor_xor_cancel]
  -- the last inner key is the first that decryption undoes
  induction inner using List.reverseRecOn generalizing last with
  | nil => exact aesRound_inv ..
  | append_singleton ks k ih =>
    rw [List.map_append, List.reverse_append, List.map_singleton, List.reverse_singleton,
      List.singleton_append, List.foldl_cons, cipher, List.foldl_append]
    rw [List.foldl_cons, List.foldl_nil, aesRound_inv, aesMixColumns_xor, aesMixColumns_inv]
    exact ih (aesMixColumns k false)

end NixVm.Crypto
