/-
Control messages: what `parse_scm_rights` returns is what the well-formed messages carry.

`walk` is the sequence of messages, in exact numbers. Where it ends the loop may go on, when the
length it finds there wraps around: `Idle` follows it from there, in exact numbers again, and says
that it comes to an end and finds nothing. That is when the answer is right.
-/
import NixVm.Kernel.Wire

namespace NixVm.Wire

open List

/-- The length field of a message. -/
def lenAt (buf : List Byte) (o : Nat) : Nat := ofLe (buf.extract o (o + 8))

/-- The descriptors a message carries. -/
def rightsAt (buf : List Byte) (o : Nat) : List (BitVec 32) :=
  if ofLe (buf.extract (o + 8) (o + 12)) = 1 ∧ ofLe (buf.extract (o + 12) (o + 16)) = 1 then
    fdsIn (buf.extract (o + 16) (o + lenAt buf o))
  else []

/-- What the well-formed messages from `o` on carry, and where they end. -/
def walk (buf : List Byte) (o : Nat) : List (BitVec 32) × Nat :=
  if 16 ≤ lenAt buf o ∧ o + lenAt buf o ≤ buf.length then
    let rest := walk buf (o + (lenAt buf o + 7) / 8 * 8)
    (rightsAt buf o ++ rest.1, rest.2)
  else ([], o)
termination_by buf.length - o

variable {buf : List Byte} {o : Nat}

lemma turn_eq (hlen : buf.length < 2 ^ 63) (ho : o ≤ buf.length + 7)
    (hwrap : o + 16 ≤ buf.length → o + lenAt buf o < 2 ^ 64) (fds : List (BitVec 32)) :
    turn buf o fds = some (if 16 ≤ lenAt buf o ∧ o + lenAt buf o ≤ buf.length then
      .inr (o + (lenAt buf o + 7) / 8 * 8, fds ++ rightsAt buf o) else .inl fds) := by
  have hu (k : Nat) (hk : k ≤ 16) : u64 (o + k) = o + k := Nat.mod_eq_of_lt (by omega)
  unfold turn
  rw [hu 8 (by omega), hu 12 (by omega), hu 16 (by omega)]
  by_cases hhdr : buf.length < o + 16
  · rw [if_pos hhdr, if_neg (by omega)]
  have hsum : u64 (o + lenAt buf o) = o + lenAt buf o := Nat.mod_eq_of_lt (hwrap (by omega))
  have hslice (a b : Nat) (h : a ≤ b ∧ b ≤ o + 16) : slice buf a b = some (buf.extract a b) :=
    if_pos ⟨h.1, by omega⟩
  rw [if_neg hhdr, hslice _ _ (by omega), hslice _ _ (by omega), hslice _ _ (by omega)]
  simp only [bind, Option.bind_some, ← lenAt.eq_1 buf o, hsum]
  by_cases hwf : 16 ≤ lenAt buf o ∧ o + lenAt buf o ≤ buf.length
  · have hstep : u64 (o + max (cmsgAlign (lenAt buf o)) 16) = o + (lenAt buf o + 7) / 8 * 8 := by
      unfold cmsgAlign u64
      omega
    rw [if_neg (by omega), if_pos hwf, hstep, rightsAt]
    split
    · rw [slice, if_pos (by omega)]
      rfl
    · rfl
  · rw [if_neg hwf, if_pos (by omega)]

/-- Every message takes a turn and sixteen bytes, so as many turns as bytes are enough. -/
lemma scan_eq (hlen : buf.length < 2 ^ 63) (fuel : Nat) : ∀ {o fds}, o ≤ buf.length + 7 →
    buf.length ≤ fuel + o → ((walk buf o).2 + 16 ≤ buf.length →
      (walk buf o).2 + lenAt buf (walk buf o).2 < 2 ^ 64) →
    scan buf (fuel + 1) o fds = .returns (some (fds ++ (walk buf o).1)) := by
  induction fuel with
  | zero =>
    intro o fds ho hf hw
    rw [walk, if_neg (by omega)] at hw ⊢
    rw [scan, turn_eq hlen ho hw, if_neg (by omega), append_nil]
  | succ fuel ih =>
    intro o fds ho hf hw
    by_cases hwf : 16 ≤ lenAt buf o ∧ o + lenAt buf o ≤ buf.length
    · rw [walk, if_pos hwf] at hw ⊢
      rw [scan, turn_eq hlen ho (fun _ => by omega), if_pos hwf]
      dsimp only at hw ⊢
      rw [ih (by omega) (by omega) hw, append_assoc]
    · rw [walk, if_neg hwf] at hw ⊢
      rw [scan, turn_eq hlen ho hw, if_neg hwf, append_nil]

section Wrapped

/-- A message of the kind that carries descriptors. -/
def isRights (buf : List Byte) (o : Nat) : Prop :=
  ofLe (buf.extract (o + 8) (o + 12)) = 1 ∧ ofLe (buf.extract (o + 12) (o + 16)) = 1

instance (buf : List Byte) (o : Nat) : Decidable (isRights buf o) :=
  inferInstanceAs (Decidable (_ ∧ _))

/-- Where a length that wraps leads: sixteen bytes on when rounding it up wraps as well, and else
back. -/
def wrapped (o n : Nat) : Nat := if n + 7 < 2 ^ 64 then o + (n + 7) / 8 * 8 - 2 ^ 64 else o + 16

/-- From `o` on the loop comes to an end and finds no descriptor. -/
inductive Idle (buf : List Byte) : Nat → Prop
  | short {o : Nat} (h : buf.length < o + 16) : Idle buf o
  | bad {o : Nat} (h : lenAt buf o < 16 ∨ buf.length < o + lenAt buf o) (hw : o + lenAt buf o < 2 ^ 64) :
      Idle buf o
  | empty {o : Nat} (h : 16 ≤ lenAt buf o ∧ o + lenAt buf o ≤ buf.length) (hr : rightsAt buf o = [])
      (hnext : Idle buf (o + (lenAt buf o + 7) / 8 * 8)) : Idle buf o
  | wraps {o : Nat} (h : o + 16 ≤ buf.length) (hw : 2 ^ 64 ≤ o + lenAt buf o) (hr : ¬ isRights buf o)
      (hnext : Idle buf (wrapped o (lenAt buf o))) : Idle buf o

lemma ofLe_lt (l : List Byte) : ofLe l < 256 ^ l.length := by
  induction l with
  | nil => exact Nat.one_pos
  | cons b l ih =>
    have hb := b.isLt
    have hcons : ofLe (b :: l) = b.toNat + 256 * ofLe l := by simp [ofLe]
    rw [hcons, length_cons, pow_succ']
    omega

lemma lenAt_lt (buf : List Byte) (o : Nat) : lenAt buf o < 2 ^ 64 := by
  have hle : (buf.extract o (o + 8)).length ≤ 8 := by simp
  exact (ofLe_lt _).trans_le (Nat.pow_le_pow_right (by decide : 0 < 256) hle)

/-- A turn on a length that wraps: a message with descriptors is cut at a place before its start,
which panics. -/
lemma turn_wraps (hlen : buf.length < 2 ^ 63) (ho : o + 16 ≤ buf.length)
    (hw : 2 ^ 64 ≤ o + lenAt buf o) (fds : List (BitVec 32)) : turn buf o fds =
      if isRights buf o then none else some (.inr (wrapped o (lenAt buf o), fds)) := by
  have hlt := lenAt_lt buf o
  have hu (k : Nat) (hk : k ≤ 16) : u64 (o + k) = o + k := Nat.mod_eq_of_lt (by omega)
  have hslice (a b : Nat) (h : a ≤ b ∧ b ≤ o + 16) : slice buf a b = some (buf.extract a b) :=
    if_pos ⟨h.1, by omega⟩
  have hsum : u64 (o + lenAt buf o) = o + lenAt buf o - 2 ^ 64 := by
    unfold u64
    omega
  have hnext : u64 (o + max (cmsgAlign (lenAt buf o)) 16) = wrapped o (lenAt buf o) := by
    unfold cmsgAlign u64 wrapped
    split <;> omega
  unfold turn
  rw [hu 8 (by omega), hu 12 (by omega), hu 16 (by omega), if_neg (by omega),
    hslice _ _ (by omega), hslice _ _ (by omega), hslice _ _ (by omega)]
  simp only [bind, Option.bind_some, ← lenAt.eq_1 buf o, hsum, hnext]
  rw [if_neg (by omega)]
  by_cases hr : isRights buf o
  · rw [if_pos hr, if_pos (show _ ∧ _ from hr), slice, if_neg (by omega)]
    rfl
  · rw [if_neg hr, if_neg (show ¬ (_ ∧ _) from hr), show fdsIn [] = [] from rfl, append_nil]

lemma turn_spec {fds : List (BitVec 32)} {r : List (BitVec 32) ⊕ Nat × List (BitVec 32)}
    (h : turn buf o fds = some r) : r = .inl fds ∨ ∃ o' l, r = .inr (o', fds ++ l) := by
  unfold turn at h
  split at h
  · cases h
    exact .inl rfl
  simp only [Option.bind_eq_bind, Option.bind_eq_some_iff] at h
  obtain ⟨n, -, level, -, ctype, -, h⟩ := h
  split at h
  · cases h
    exact .inl rfl
  split at h
  all_goals
    obtain ⟨data, -, h⟩ := Option.bind_eq_some_iff.mp h
    cases h
    exact .inr ⟨_, _, rfl⟩

/-- What was found stays found. -/
lemma scan_extends (fuel : Nat) : ∀ {o : Nat} {fds r : List (BitVec 32)},
    scan buf fuel o fds = .returns (some r) → fds <+: r := by
  induction fuel with
  | zero => nofun
  | succ fuel ih =>
    intro o fds r h
    unfold scan at h
    split at h
    · cases h
    next l ht =>
      cases h
      obtain heq | ⟨_, _, heq⟩ := turn_spec ht
      · cases heq
        exact prefix_rfl
      · cases heq
    next o' l ht =>
      obtain heq | ⟨_, _, heq⟩ := turn_spec ht
      · cases heq
      · cases heq
        exact (prefix_append ..).trans (ih h)

lemma wrapped_le (ho : o + 16 ≤ buf.length) : wrapped o (lenAt buf o) ≤ buf.length + 7 := by
  have hlt := lenAt_lt buf o
  unfold wrapped
  split <;> omega

/-- The loop returns with what it has exactly when nothing follows. -/
lemma scan_iff_idle (hlen : buf.length < 2 ^ 63) (fds : List (BitVec 32))
    (ho : o ≤ buf.length + 7) :
    (∃ fuel, scan buf fuel o fds = .returns (some fds)) ↔ Idle buf o := by
  constructor
  · rintro ⟨fuel, h⟩
    induction fuel generalizing o with
    | zero => cases h
    | succ fuel ih =>
      by_cases hh : o + 16 ≤ buf.length
      swap
      · exact .short (by omega)
      by_cases hw : 2 ^ 64 ≤ o + lenAt buf o
      · rw [scan, turn_wraps hlen hh hw] at h
        by_cases hr : isRights buf o
        · rw [if_pos hr] at h
          cases h
        · rw [if_neg hr] at h
          exact .wraps hh hw hr (ih (wrapped_le hh) h)
      rw [scan, turn_eq hlen ho (fun _ => by omega)] at h
      by_cases hwf : 16 ≤ lenAt buf o ∧ o + lenAt buf o ≤ buf.length
      · rw [if_pos hwf] at h
        have hr : rightsAt buf o = [] := by
          have := (scan_extends fuel h).length_le
          rw [length_append] at this
          exact length_eq_zero_iff.mp (by omega)
        rw [hr, append_nil] at h
        exact .empty hwf hr (ih (by omega) h)
      · exact .bad (by omega) (by omega)
  · intro h
    induction h with
    | short h => exact ⟨1, by rw [scan, turn_eq hlen ho (fun _ => by omega), if_neg (by omega)]⟩
    | bad h hw => exact ⟨1, by rw [scan, turn_eq hlen ho (fun _ => hw), if_neg (by omega)]⟩
    | empty h hr _ ih =>
      obtain ⟨fuel, hf⟩ := ih (by omega)
      refine ⟨fuel + 1, ?_⟩
      rw [scan, turn_eq hlen ho (fun _ => by omega), if_pos h, hr, append_nil]
      exact hf
    | wraps h hw hr _ ih =>
      obtain ⟨fuel, hf⟩ := ih (wrapped_le h)
      refine ⟨fuel + 1, ?_⟩
      rw [scan, turn_wraps hlen h hw, if_neg hr]
      exact hf

/-- The loop goes over the well-formed messages and is where they end, with what they carry. -/
lemma scan_walk (hlen : buf.length < 2 ^ 63) (fds : List (BitVec 32)) (ho : o ≤ buf.length + 7) :
    (walk buf o).2 ≤ buf.length + 7 ∧ ∃ k, ∀ fuel,
      scan buf (fuel + k) o fds = scan buf fuel (walk buf o).2 (fds ++ (walk buf o).1) := by
  induction o using walk.induct buf generalizing fds with
  | case1 o hwf ih =>
    obtain ⟨hend, k, hk⟩ := ih (fds ++ rightsAt buf o) (by omega)
    rw [walk, if_pos hwf]
    refine ⟨hend, k + 1, fun fuel => ?_⟩
    rw [← Nat.add_assoc, scan, turn_eq hlen ho (fun _ => by omega), if_pos hwf]
    dsimp only
    rw [hk, append_assoc]
  | case2 o hwf =>
    rw [walk, if_neg hwf]
    exact ⟨ho, 0, fun fuel => by rw [append_nil]; rfl⟩

end Wrapped

/-- A result does not depend on the number of turns once there are enough. -/
lemma scan_add (k : Nat) : ∀ {fuel o : Nat} {fds r : List (BitVec 32)},
    scan buf fuel o fds = .returns (some r) → scan buf (fuel + k) o fds = .returns (some r) := by
  intro fuel
  induction fuel with
  | zero => nofun
  | succ fuel ih =>
    intro o fds r h
    rw [Nat.add_right_comm]
    unfold scan at h ⊢
    split at h
    · cases h
    next l ht => exact h
    next o' l ht => exact ih h

/-- **Descriptors are parsed exactly**: the descriptors of the well-formed messages are returned if
and only if the loop, where these end, finds nothing more and comes to an end. -/
theorem scm_rights_exact (control : Nat) (hlen : buf.length < 2 ^ 63) :
    (∃ fuel, parseScmRights fuel control buf.length (some buf) =
      .returns (some (if control = 0 then [] else (walk buf 0).1))) ↔
      control = 0 ∨ Idle buf (walk buf 0).2 := by
  unfold parseScmRights
  by_cases hc : control = 0
  · simp only [hc, true_or, if_true, exists_const]
  simp only [hc, false_or, if_false]
  by_cases hshort : buf.length < 16
  · have hnil : walk buf 0 = ([], 0) := by rw [walk, if_neg (by omega)]
    simp only [hshort, if_true, hnil, exists_const]
    exact iff_of_true trivial (.short (by omega))
  simp only [hshort, if_false]
  obtain ⟨hend, k, hk⟩ := scan_walk (o := 0) hlen [] (by omega)
  rw [← scan_iff_idle hlen (walk buf 0).1 hend]
  simp only [nil_append] at hk
  constructor
  · rintro ⟨fuel, h⟩
    exact ⟨fuel, by rw [← hk]; exact scan_add k h⟩
  · rintro ⟨fuel, h⟩
    exact ⟨fuel + k, by rw [hk]; exact h⟩

def oneRight : List Byte := toLe 8 20 ++ toLe 4 1 ++ toLe 4 1 ++ toLe 4 7

theorem scm_rights_exact_one :
    ∃ fuel, parseScmRights fuel 4096 20 (some oneRight) = .returns (some [7#32]) := by
  have hwalk : walk oneRight 0 = ([7#32], 24) := by
    rw [walk, if_pos (by decide), walk, if_neg (by decide)]
    decide
  have h := (@scm_rights_exact oneRight 4096 (by decide)).mpr
    (.inr (by rw [hwalk]; exact .short (by decide)))
  rwa [hwalk] at h

def endless : List Byte := toLe 8 16 ++ toLe 8 0 ++ toLe 8 (2 ^ 64 - 16) ++ toLe 8 0

theorem scm_rights_endless : (walk endless 0).1 = [] ∧
    ∀ fuel, parseScmRights fuel 4096 32 (some endless) = .runsOn := by
  have hback : turn endless 0 [] = some (.inr (16, [])) ∧
      turn endless 16 [] = some (.inr (0, [])) := by decide
  have hrun (fuel : Nat) : scan endless fuel 0 [] = .runsOn ∧ scan endless fuel 16 [] = .runsOn := by
    induction fuel with
    | zero => exact ⟨rfl, rfl⟩
    | succ fuel ih =>
      rw [scan, scan, hback.1, hback.2]
      exact ⟨ih.2, ih.1⟩
  refine ⟨?_, fun fuel => (hrun fuel).1⟩
  rw [walk, if_pos (by decide), walk, if_neg (by decide)]
  decide

@[simp] lemma length_toLe (n x : Nat) : (toLe n x).length = n := by
  induction n generalizing x with
  | zero => rfl
  | succ n ih => simp [toLe, ih]

lemma ofLe_toLe (n x : Nat) : ofLe (toLe n x) = x % 256 ^ n := by
  induction n generalizing x with
  | zero => simp [toLe, ofLe, Nat.mod_one]
  | succ n ih =>
    have hcons : ofLe (toLe (n + 1) x) = x % 256 + 256 * ofLe (toLe n (x / 256)) := by
      simp [toLe, ofLe]
    rw [hcons, ih, pow_succ', Nat.mod_mul]

lemma fdsIn_flatMap (fds : List (BitVec 32)) :
    fdsIn (fds.flatMap fun g => toLe 4 g.toNat) = fds := by
  induction fds with
  | nil => rfl
  | cons g fds ih =>
    have hone : BitVec.ofNat 32 (ofLe (toLe 4 g.toNat)) = g := by
      rw [ofLe_toLe, Nat.mod_eq_of_lt (b := 256 ^ 4) g.isLt, BitVec.ofNat_toNat, BitVec.setWidth_eq]
    have hcons : fdsIn ((g :: fds).flatMap fun g => toLe 4 g.toNat) =
        .ofNat 32 (ofLe (toLe 4 g.toNat)) :: fdsIn (fds.flatMap fun g => toLe 4 g.toNat) := rfl
    rw [hcons, hone, ih]

lemma length_rights (fds : List (BitVec 32)) : (rights fds).length = 16 + 4 * fds.length := by
  simp [rights]
  omega

lemma walk_rights (fds : List (BitVec 32)) (hlen : 16 + 4 * fds.length < 2 ^ 64) :
    (walk (rights fds) 0).1 = fds ∧ (rights fds).length ≤ (walk (rights fds) 0).2 := by
  have hfirst : lenAt (rights fds) 0 = 16 + 4 * fds.length := by
    have : (rights fds).extract 0 (0 + 8) = toLe 8 (16 + 4 * fds.length) := by
      simp [rights]
    rw [lenAt, this, ofLe_toLe]
    exact Nat.mod_eq_of_lt hlen
  have hrights : rightsAt (rights fds) 0 = fds := by
    have h1 : (rights fds).extract (0 + 8) (0 + 12) = toLe 4 1 := by
      simp [rights]
    have h2 : (rights fds).extract (0 + 12) (0 + 16) = toLe 4 1 := by
      simp [rights, drop_append, drop_eq_nil_of_le]
    have h3 : (rights fds).extract (0 + 16) (0 + (16 + 4 * fds.length)) =
        fds.flatMap fun g => toLe 4 g.toNat := by
      simp [rights, drop_append, drop_eq_nil_of_le, mul_comm]
    rw [rightsAt, h1, h2, hfirst, h3, if_pos (by decide), fdsIn_flatMap]
  have hlast : ∀ o, (rights fds).length ≤ o → walk (rights fds) o = ([], o) := by
    intro o ho
    have hnil : lenAt (rights fds) o = 0 := by
      rw [lenAt, extract_eq_take_drop, drop_eq_nil_of_le ho, take_nil]
      rfl
    rw [walk, if_neg (by omega)]
  have hl := length_rights fds
  rw [walk, if_pos (by omega), hlast _ (by omega)]
  dsimp only
  rw [hrights, append_nil]
  exact ⟨rfl, by omega⟩

/-- **A receiver that sends on what it was sent sends the same descriptors**: as many as fit. -/
theorem rights_round_trip (control controllen : Nat) (fds : List (BitVec 32)) (hc : control ≠ 0)
    (hlen : controllen < 2 ^ 63) :
    let m := emitScmRights control controllen fds
    parseScmRights (m.1.length + 1) control m.1.length (some m.1) =
      .returns (some (fds.take ((controllen - 16) / 4))) ∧
      (m.2 = true ↔ fds.take ((controllen - 16) / 4) ≠ fds) := by
  have hcap : (if control ≠ 0 ∧ 16 ≤ controllen then (controllen - 16) / 4 else 0) =
      (controllen - 16) / 4 := by
    split <;> omega
  simp only [emitScmRights, hcap]
  generalize hk : (controllen - 16) / 4 = k
  have htake : fds.take (min k fds.length) = fds.take k := by
    rw [← take_take, take_length]
  refine ⟨?_, by simp [take_eq_self_iff]⟩
  rw [htake]
  split
  next h0 =>
    rw [← htake, h0]
    exact if_pos (.inr (by decide))
  next h0 =>
    have hl := length_rights (fds.take k)
    have hmin : (fds.take k).length = min k fds.length := length_take
    obtain ⟨hwalk, hend⟩ := walk_rights (fds.take k) (by omega)
    rw [parseScmRights, if_neg (by omega)]
    rw [scan_eq (by omega) _ (Nat.zero_le _) le_rfl (fun h => by omega), hwalk, nil_append]

theorem rights_round_trip_two : parseScmRights 25 4096 24
    (some (emitScmRights 4096 24 [3#32, 4#32, 5#32]).1) = .returns (some [3#32, 4#32]) :=
  (rights_round_trip 4096 24 [3#32, 4#32, 5#32] (by decide) (by decide)).1

end NixVm.Wire
