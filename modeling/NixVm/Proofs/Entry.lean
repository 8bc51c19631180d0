/-
The bits of a page-table entry.

An entry is an address in bits 12 to 51 and a handful of flags outside them, so the two never
disturb one another.
-/
import NixVm.Vcpu.PageTable

namespace NixVm.Pte

open BitVec

/-! ### Flags and address -/

lemma and_bit_ne_zero (e : BitVec 64) {k : Nat} (hk : k < 64) :
    (e &&& twoPow 64 k != 0) = e.getLsbD k := by
  rw [and_twoPow]
  cases e.getLsbD k with
  | false => simp
  | true =>
    simp only [if_true, bne_iff_ne]
    intro h
    have hbit := congrArg (fun b => b.getLsbD k) h
    simp [hk] at hbit

/-- Each flag is one bit. -/
lemma present_eq (e : BitVec 64) : present e = e.getLsbD 0 :=
  and_bit_ne_zero e (k := 0) (by omega)

lemma writable_eq (e : BitVec 64) : writable e = e.getLsbD 1 :=
  and_bit_ne_zero e (k := 1) (by omega)

lemma user_eq (e : BitVec 64) : user e = e.getLsbD 2 :=
  and_bit_ne_zero e (k := 2) (by omega)

/-- The mask selects the bits 12 to 51. -/
lemma addrMask_bit (i : Nat) : addrMask.getLsbD i = decide (12 ≤ i ∧ i < 52) := by
  by_cases hi : i < 64
  · revert i; decide
  rw [getLsbD_of_ge _ _ (by omega)]
  simp; omega

/-- An address read from an entry is that of a page. -/
lemma addr_mod (e : BitVec 64) : addr e % 4096 = 0 := by
  refine Nat.eq_of_testBit_eq fun i => ?_
  rw [show (4096 : Nat) = 2 ^ 12 from rfl, Nat.testBit_mod_two_pow]
  by_cases hi : i < 12
  · have hb : (addr e).testBit i = (e &&& addrMask).getLsbD i := rfl
    rw [hb, getLsbD_and, addrMask_bit]
    simp; omega
  · simp [hi]

lemma addr_div_mul (e : BitVec 64) : addr e / 4096 * 4096 = addr e := by
  have := addr_mod e
  omega

/-- A frame number below `2 ^ 32` reaches up to bit 43. -/
lemma frame_bit {f : Nat} (hf : f < 2 ^ 32) (i : Nat) :
    (BitVec.ofNat 64 (f * 4096)).getLsbD i = (decide (12 ≤ i ∧ i < 44) && f.testBit (i - 12)) := by
  rw [BitVec.getLsbD_ofNat, show (4096 : Nat) = 2 ^ 12 from rfl, Nat.testBit_mul_two_pow]
  by_cases hi : i < 44
  · have h64 : i < 64 := by omega
    simp [hi, h64]
  have hz : f.testBit (i - 12) = false := by
    refine Nat.testBit_lt_two_pow (Nat.lt_of_lt_of_le hf ?_)
    exact Nat.pow_le_pow_right (by omega) (by omega)
  simp [hz]

/-- Flags that leave the address alone. -/
def Clear (flags : BitVec 64) : Prop := flags &&& addrMask = 0

instance (flags : BitVec 64) : Decidable (Clear flags) :=
  inferInstanceAs (Decidable (flags &&& addrMask = 0))

lemma Clear.bit {flags : BitVec 64} (h : Clear flags) {i : Nat} (hi : 12 ≤ i ∧ i < 52) :
    flags.getLsbD i = false := by
  have hb := congrArg (fun b => b.getLsbD i) h
  simpa [addrMask_bit, hi.1, hi.2] using hb

/-- The address put into an entry is read back from it. -/
lemma addr_make {f : Nat} (hf : f < 2 ^ 32) {flags : BitVec 64} (h : Clear flags) :
    addr (make (f * 4096) flags) = f * 4096 := by
  have hand : make (f * 4096) flags &&& addrMask = BitVec.ofNat 64 (f * 4096) := by
    refine BitVec.eq_of_getLsbD_eq fun i _ => ?_
    rw [make, BitVec.getLsbD_and, BitVec.getLsbD_or, frame_bit hf, addrMask_bit]
    by_cases hi : 12 ≤ i ∧ i < 52
    · rw [h.bit hi]
      simp [hi.1, hi.2]
    · have h44 : ¬ (12 ≤ i ∧ i < 44) := by omega
      simp [hi, h44]
  rw [addr, hand, BitVec.toNat_ofNat, Nat.mod_eq_of_lt (by omega)]

/-- Outside the address an entry has the bits of its flags. -/
lemma make_bit {f : Nat} (hf : f < 2 ^ 32) (flags : BitVec 64) {i : Nat}
    (hi : ¬ (12 ≤ i ∧ i < 44)) : (make (f * 4096) flags).getLsbD i = flags.getLsbD i := by
  rw [make, getLsbD_or, frame_bit hf]
  simp [hi]

@[simp] lemma present_make {f : Nat} (hf : f < 2 ^ 32) (flags : BitVec 64) :
    present (make (f * 4096) flags) = present flags := by
  rw [present_eq, present_eq, make_bit hf flags (by omega)]

@[simp] lemma user_make {f : Nat} (hf : f < 2 ^ 32) (flags : BitVec 64) :
    user (make (f * 4096) flags) = user flags := by
  rw [user_eq, user_eq, make_bit hf flags (by omega)]

/-- The entry a fork leaves on either side. -/
def readOnly (e : BitVec 64) : BitVec 64 := e &&& ~~~RW

/-- Only the bit `RW` is cleared. -/
lemma readOnly_bit (e : BitVec 64) {i : Nat} (hi : i < 64) :
    (readOnly e).getLsbD i = (e.getLsbD i && decide (i ≠ 1)) := by
  have hrw : RW.getLsbD i = decide (i = 1) := by
    revert i; decide
  rw [readOnly, getLsbD_and, getLsbD_not, hrw]
  simp [hi]

lemma readOnly_of_not_writable {e : BitVec 64} (h : writable e = false) : readOnly e = e := by
  refine eq_of_getLsbD_eq fun i hi => ?_
  rw [readOnly_bit e hi]
  by_cases h1 : i = 1
  · subst h1
    rw [writable_eq] at h
    rw [h, Bool.false_and]
  · simp [h1]

@[simp] lemma addr_readOnly (e : BitVec 64) : addr (readOnly e) = addr e := by
  have hand : readOnly e &&& addrMask = e &&& addrMask := by
    refine eq_of_getLsbD_eq fun i hi => ?_
    rw [getLsbD_and, getLsbD_and, readOnly_bit e hi, addrMask_bit]
    by_cases h1 : i = 1 <;> simp [h1]
  rw [addr, addr, hand]

@[simp] lemma present_readOnly (e : BitVec 64) : present (readOnly e) = present e := by
  rw [present_eq, present_eq, readOnly_bit e (by omega)]; simp

@[simp] lemma writable_readOnly (e : BitVec 64) : writable (readOnly e) = false := by
  rw [writable_eq, readOnly_bit e (by omega)]; simp

@[simp] lemma readOnly_readOnly (e : BitVec 64) : readOnly (readOnly e) = readOnly e :=
  readOnly_of_not_writable (writable_readOnly e)

/-! ### The flags in use -/

lemma clear_interior : Clear interior := by decide

lemma clear_leafFlags (prot : Prot) (supervisor : Bool) : Clear (leafFlags prot supervisor) := by
  unfold leafFlags
  cases supervisor <;> cases prot.contains .write <;> cases prot.contains .exec <;> decide

@[simp] lemma present_leafFlags (prot : Prot) (supervisor : Bool) :
    present (leafFlags prot supervisor) = true := by
  unfold leafFlags
  cases supervisor <;> cases prot.contains .write <;> cases prot.contains .exec <;> decide

@[simp] lemma user_leafFlags (prot : Prot) (supervisor : Bool) :
    user (leafFlags prot supervisor) = !supervisor := by
  unfold leafFlags
  cases supervisor <;> cases prot.contains .write <;> cases prot.contains .exec <;> decide

@[simp] lemma present_zero : present 0#64 = false := by decide

@[simp] lemma present_interior : present interior = true := by decide

end NixVm.Pte
