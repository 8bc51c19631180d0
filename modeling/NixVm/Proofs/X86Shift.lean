/-
Shifts and rotates of the x86 interpreter repeat the shift by one place.

Both sides are compared bit by bit, the carry flag counted as the bit above the operand.
-/
import NixVm.Vcpu.X86Alu

namespace NixVm.X86

open BitVec

/-- An operand and the carry flag, shifted by one place. -/
def Shift.once {w : Nat} (op : Shift) (s : BitVec w × Bool) : BitVec w × Bool :=
  let up (low : Bool) := ((s.1.concat low).setWidth w, s.1.msb)
  let down (high : Bool) := ((cons high s.1 >>> 1).setWidth w, s.1.getLsbD 0)
  match op with
  | .rol => up s.1.msb
  | .ror => down (s.1.getLsbD 0)
  | .rcl => up s.2
  | .rcr => down s.2
  | .shl => up false
  | .shr => down false
  | .sar => down s.1.msb

/-- The operand with the carry flag above it. -/
def bits {w : Nat} (s : BitVec w × Bool) (i : Nat) : Bool := if i = w then s.2 else s.1.getLsbD i

/-- Where bit `i` comes from after `c` steps. -/
def Shift.source (op : Shift) (w c i : Nat) : Option Nat :=
  match op with
  | .rol => some ((i + (w - c % w)) % w)
  | .ror => some (if i = w then (c - 1) % w else (i + c) % w)
  | .rcl => some ((i + (w + 1 - c % (w + 1))) % (w + 1))
  | .rcr => some ((i + c) % (w + 1))
  | .shl => if c ≤ i then some (i - c) else none
  | .shr =>
    let j := if i = w then c - 1 else i + c
    if j < w then some j else none
  | .sar => some (min (if i = w then c - 1 else i + c) (w - 1))

variable {w i : Nat}

section

variable (hw : w = 8 ∨ w = 16 ∨ w = 32 ∨ w = 64)
include hw

lemma bits_once (op : Shift) (s : BitVec w × Bool) (hi : i ≤ w) :
    bits (op.once s) i = (op.source w 1 i).elim false (bits s) := by
  rcases hw with rfl | rfl | rfl | rfl <;> cases op
  all_goals
    simp only [Shift.once, Shift.source, msb_eq_getLsbD_last]
    grind [bits]

lemma source_add (op : Shift) (c : Nat) (hi : i ≤ w) :
    (op.source w 1 i).bind (op.source w (c + 1)) = op.source w (c + 1 + 1) i := by
  rcases hw with rfl | rfl | rfl | rfl <;> cases op
  all_goals
    simp only [Shift.source, Option.bind_some]
    grind [Shift.source]

lemma bits_iterate (op : Shift) (s : BitVec w × Bool) (c : Nat) : ∀ i ≤ w,
    bits (op.once^[c + 1] s) i = (op.source w (c + 1) i).elim false (bits s) := by
  induction c with
  | zero => exact fun i hi => bits_once hw op s hi
  | succ c ih =>
    intro i hi
    rw [Function.iterate_succ_apply', bits_once hw op _ hi, ← source_add hw op c hi]
    cases hsrc : op.source w 1 i with
    | none => rfl
    | some j =>
      have hj : j ≤ w := by cases op <;> grind [Shift.source]
      exact ih j hj

end

lemma getLsbD_maskW (v : BitVec 64) (hw : w ≤ 64) (i : Nat) :
    (maskW v w).getLsbD i = (decide (i < w) && v.getLsbD i) := by
  simp only [maskW, getLsbD_setWidth]
  by_cases hi : i < w
  · rw [decide_eq_true (show i < 64 by omega), Bool.true_and]
  · simp [hi]

lemma maskW_maskW (v : BitVec 64) (hw : w ≤ 64) : maskW (maskW v w) w = maskW v w := by
  rw [maskW, maskW, setWidth_setWidth_of_le _ hw, setWidth_eq]

lemma getLsbD_turn {N n k : Nat} (v : BitVec N) (hv : ∀ j, n ≤ j → v.getLsbD j = false)
    (hn : n ≤ N) (hk : k < n) (hi : i < n) :
    (v <<< k ||| v >>> (n - k)).getLsbD i = v.getLsbD ((i + (n - k)) % n) := by
  rw [getLsbD_or, getLsbD_shiftLeft, getLsbD_ushiftRight, decide_eq_true (show i < N by omega),
    Bool.true_and]
  by_cases hik : i < k
  · rw [decide_eq_true hik, Nat.mod_eq_of_lt (by omega), add_comm]
    rfl
  rw [decide_eq_false hik, hv (n - k + i) (by omega), Bool.or_false,
    Nat.mod_eq_sub_mod (by omega), Nat.mod_eq_of_lt (by omega)]
  show v.getLsbD (i - k) = _
  congr 1
  omega

lemma bits_of_lt (a : BitVec 64) (cf : Bool) (hw : w ≤ 64) (hi : i < w) :
    bits (a.setWidth w, cf) i = (maskW a w).getLsbD i := by
  rw [bits, if_neg (by omega), getLsbD_maskW a hw, getLsbD_setWidth]

lemma getLsbD_signExtendW (v : BitVec 64) (hw : w ≤ 64) (hpos : 0 < w) (hi : i < 64) :
    (signExtendW v w).getLsbD i = v.getLsbD (min i (w - 1)) := by
  rw [signExtendW, getLsbD_sshiftRight, msb_eq_getLsbD_last]
  simp only [getLsbD_shiftLeft]
  grind

/-- The bits that `RCL` and `RCR` turn. -/
def carryRing (w : Nat) (a : BitVec 64) (cf : Bool) : BitVec 128 :=
  (BitVec.ofBool cf).setWidth 128 <<< w ||| (maskW a w).setWidth 128

lemma getLsbD_carryRing (hw : w ≤ 64) (a : BitVec 64) (cf : Bool) (i : Nat) :
    (carryRing w a cf).getLsbD i = bits (a.setWidth w, cf) i := by
  rw [carryRing, getLsbD_or, getLsbD_shiftLeft, getLsbD_setWidth, getLsbD_setWidth,
    getLsbD_maskW a hw, bits, getLsbD_setWidth]
  grind

section

variable (hw : w = 8 ∨ w = 16 ∨ w = 32 ∨ w = 64)
include hw

lemma getLsbD_turnLeft (a : BitVec 64) (cf : Bool) {k : Nat} (hk : k < w + 1) (hi : i ≤ w) :
    (turnLeft (carryRing w a cf) (w + 1) k).getLsbD i =
      bits (a.setWidth w, cf) ((i + (w + 1 - k)) % (w + 1)) := by
  have hbits := getLsbD_carryRing (show w ≤ 64 by omega) a cf
  have hmask : (1#128 <<< (w + 1) - 1#128).getLsbD i = true := by
    have : 1#128 <<< (w + 1) - 1#128 = BitVec.ofNat 128 (2 ^ (w + 1) - 1) := by
      rcases hw with rfl | rfl | rfl | rfl <;> rfl
    rw [this, getLsbD_ofNat, Nat.testBit_two_pow_sub_one, decide_eq_true (by omega),
      decide_eq_true (by omega)]
    rfl
  rw [turnLeft, getLsbD_and, hmask, Bool.and_true,
    getLsbD_turn _ (fun j hj => ?_) (by omega) hk (by omega), hbits]
  rw [hbits, bits, if_neg (by omega), getLsbD_of_ge _ _ (by omega)]

lemma getLsbD_turnRight (a : BitVec 64) (cf : Bool) {k : Nat} (h0 : k ≠ 0) (hk : k < w + 1)
    (hi : i ≤ w) : (turnRight (carryRing w a cf) (w + 1) k).getLsbD i =
      bits (a.setWidth w, cf) ((i + k) % (w + 1)) := by
  have := getLsbD_turnLeft hw a cf (show w + 1 - k < w + 1 by omega) hi
  rw [turnLeft, Nat.sub_sub_self hk.le, BitVec.or_comm] at this
  exact this

lemma bits_shiftRotate (op : Shift) (a : BitVec 64) (f : Flags) {c : Nat} (hc : 0 < c)
    (hmax : c < if w = 64 then 64 else 32) (hi : i ≤ w) :
    (if i = w then (shiftRotate op a c w f).2.cf else (shiftRotate op a c w f).1.getLsbD i) =
      (op.source w c i).elim false (bits (a.setWidth w, f.cf)) := by
  have hle : w ≤ 64 := by omega
  have hpos : 0 < w := by omega
  have hb {j : Nat} (hj : j < w) := bits_of_lt a f.cf hle hj
  have hlow {j : Nat} (v : BitVec 64) (hj : j < w) : (maskW v w).getLsbD j = v.getLsbD j := by
    rw [getLsbD_maskW v hle, decide_eq_true hj, Bool.true_and]
  have hhigh : ∀ j, w ≤ j → (maskW a w).getLsbD j = false := fun j hj => by
    rw [getLsbD_maskW a hle, decide_eq_false (by omega), Bool.false_and]
  cases op
  case shl =>
    simp only [shiftRotate, Flags.szp, Shift.source, getLsbD_maskW _ hle, getLsbD_setWidth,
      getLsbD_shiftLeft]
    by_cases hci : c ≤ i
    · rw [if_pos hci, Option.elim_some, hb (by omega), getLsbD_maskW a hle]
      grind
    · grind
  case shr =>
    simp only [shiftRotate, Flags.szp, Shift.source]
    grind
  case rol =>
    have hr : ∀ j < w, (shiftRotate .rol a c w f).1.getLsbD j =
        (maskW a w).getLsbD ((j + (w - c % w)) % w) := by
      intro j hj
      simp only [shiftRotate]
      split
      next hk => rw [hk, Nat.sub_zero, Nat.add_mod_right, Nat.mod_eq_of_lt hj]
      rw [hlow _ hj, getLsbD_turn _ hhigh hle (Nat.mod_lt _ hpos) hj]
    rw [Shift.source, Option.elim_some, hb (Nat.mod_lt _ hpos)]
    split
    next h => exact (hr 0 hpos).trans (by rw [h, Nat.add_mod_left, Nat.zero_add])
    exact hr i (by omega)
  case ror =>
    have hr : ∀ j < w, (shiftRotate .ror a c w f).1.getLsbD j =
        (maskW a w).getLsbD ((j + c) % w) := by
      intro j hj
      simp only [shiftRotate]
      split
      next hk => rw [← Nat.add_mod_mod, hk, Nat.add_zero, Nat.mod_eq_of_lt hj]
      have hlt := Nat.mod_lt c hpos
      have := getLsbD_turn (maskW a w) hhigh hle (show w - c % w < w by omega) hj
      rw [Nat.sub_sub_self hlt.le, Nat.add_mod_mod] at this
      rw [hlow _ hj, BitVec.or_comm, this]
    rw [Shift.source, Option.elim_some, hb (by split <;> exact Nat.mod_lt _ hpos)]
    split
    · refine (hr (w - 1) (by omega)).trans ?_
      rw [show w - 1 + c = w + (c - 1) by omega, Nat.add_mod_left]
    · exact hr i (by omega)
  case sar =>
    have hs {j : Nat} (m : Nat) (hm : m < 64) (hj : j < w) :
        ((signExtendW (maskW a w) w).sshiftRight m).getLsbD j =
          (maskW a w).getLsbD (min (j + m) (w - 1)) := by
      have hsign {i : Nat} (hi : i < 64) := getLsbD_signExtendW (maskW a w) hle hpos hi
      rw [getLsbD_sshiftRight, decide_eq_false (show ¬ 64 ≤ j by omega)]
      split
      next h => rw [hsign h, Nat.add_comm]; rfl
      rw [msb_eq_getLsbD_last, hsign (by omega),
        show min (64 - 1) (w - 1) = min (j + m) (w - 1) by omega]
      rfl
    have hmin : min c 63 = c ∧ min (c - 1) 63 = c - 1 := by grind
    rw [Shift.source, Option.elim_some, hb (by omega)]
    simp only [shiftRotate, Flags.szp, hmin]
    split
    · rw [hs _ (by omega) hpos, Nat.zero_add]
    · rw [hlow _ (by omega), hs _ (by omega) (by omega)]
  all_goals
    have hk : (if w = 8 then c % 9 else if w = 16 then c % 17 else c) = c % (w + 1) := by
      rcases hw with rfl | rfl | rfl | rfl <;> grind
    have hlt := Nat.mod_lt c (Nat.succ_pos w)
    have hwhole : (if i = w then f.cf else (maskW a w).getLsbD i) =
        bits (a.setWidth w, f.cf) i := by
      unfold bits
      rw [getLsbD_maskW a hle, getLsbD_setWidth]
    have hring (v : BitVec 128) : (if i = w then v.getLsbD w else
        (maskW (v.setWidth 64) w).getLsbD i) = v.getLsbD i := by
      split
      next h => rw [h]
      rw [hlow _ (by omega), getLsbD_setWidth, decide_eq_true (by omega), Bool.true_and]
    rw [Shift.source, Option.elim_some]
    simp only [shiftRotate, hk]
  case rcl =>
    by_cases h0 : c % (w + 1) = 0
    · rw [if_pos h0, h0, Nat.sub_zero, Nat.add_mod_right, Nat.mod_eq_of_lt (by omega), ← hwhole]
    rw [if_neg h0, ← getLsbD_turnLeft hw a f.cf hlt hi]
    exact hring _
  case rcr =>
    rw [← Nat.add_mod_mod]
    by_cases h0 : c % (w + 1) = 0
    · rw [if_pos h0, h0, Nat.add_zero, Nat.mod_eq_of_lt (by omega), ← hwhole]
    rw [if_neg h0, ← getLsbD_turnRight hw a f.cf h0 hlt hi]
    exact hring _

end

lemma maskW_shiftRotate (hw : w ≤ 64) (op : Shift) (a : BitVec 64) (c : Nat) (f : Flags) :
    maskW (shiftRotate op a c w f).1 w = (shiftRotate op a c w f).1 := by
  cases op with
  | rol | ror =>
    simp only [shiftRotate]
    split <;> exact maskW_maskW _ hw
  | rcl | rcr =>
    simp only [shiftRotate]
    generalize (if w = 8 then c % 9 else if w = 16 then c % 17 else c) = k
    split <;> exact maskW_maskW _ hw
  | shl | sar => exact maskW_maskW _ hw
  | shr =>
    simp only [shiftRotate]
    refine eq_of_getLsbD_eq fun i _ => ?_
    rw [getLsbD_maskW _ hw]
    split
    · simp
    rw [getLsbD_ushiftRight, getLsbD_maskW a hw]
    by_cases hi : i < w
    · simp [hi]
    · simp [hi, show ¬ c + i < w by omega]

/-- **A shift by any count is the one-bit shift done as often as the masked count says.** -/
theorem shift_repeats (hw : w = 8 ∨ w = 16 ∨ w = 32 ∨ w = 64) (op : Shift) (a : BitVec 64)
    (cnt : BitVec 8) (f : Flags) :
    let c := (cnt &&& if w = 64 then 63#8 else 31#8).toNat
    let r := group2 op (maskW a w) cnt w f
    let s := op.once^[c] (a.setWidth w, f.cf)
    r.1 = s.1.setWidth 64 ∧ r.2.cf = s.2 ∧ (c = 0 → r.2 = f) := by
  have hle : w ≤ 64 := by omega
  intro c r s
  have hmax : c < if w = 64 then 64 else 32 := by
    simp only [c, toNat_and]
    split <;> exact Nat.and_le_right.trans_lt (by decide)
  have hr : r = if c = 0 then (maskW a w, f) else shiftRotate op (maskW a w) c w f := rfl
  by_cases hc : c = 0
  · have hs : s = (a.setWidth w, f.cf) := by simp only [s, hc, Function.iterate_zero, id]
    rw [hr, if_pos hc, hs]
    exact ⟨rfl, rfl, fun _ => rfl⟩
  rw [hr, if_neg hc]
  have hbits (i : Nat) (hi : i ≤ w) : (if i = w then (shiftRotate op (maskW a w) c w f).2.cf else
      (shiftRotate op (maskW a w) c w f).1.getLsbD i) = bits s i := by
    have hread : (maskW a w).setWidth w = a.setWidth w := by
      rw [maskW, setWidth_setWidth_of_le _ hle, setWidth_eq]
    have hiter := bits_iterate hw op (a.setWidth w, f.cf) (c - 1) i hi
    rw [Nat.sub_add_cancel (by omega)] at hiter
    rw [bits_shiftRotate hw op _ f (by omega) hmax hi, hread, ← hiter]
  refine ⟨?_, ?_, fun h => absurd h hc⟩
  · rw [← maskW_shiftRotate hle, maskW]
    congr 1
    refine eq_of_getLsbD_eq fun i hi => ?_
    have := hbits i hi.le
    rw [if_neg hi.ne, bits, if_neg hi.ne] at this
    rw [getLsbD_setWidth, decide_eq_true hi, Bool.true_and, this]
  · simpa only [bits, if_true] using hbits w le_rfl

theorem shift_repeats_rcl :
    (group2 .rcl (maskW 0x80#64 8) 2#8 8 ⟨true, false, false, false, false, false⟩).1 =
      ((Shift.rcl.once^[2] (BitVec.setWidth 8 0x80#64, true)).1).setWidth 64 :=
  (shift_repeats (.inl rfl) .rcl 0x80#64 2#8 ⟨true, false, false, false, false, false⟩).1

end NixVm.X86
