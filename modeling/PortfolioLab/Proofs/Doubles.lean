import PortfolioLab.Binary64.Shortest
import Mathlib.Algebra.Order.Field.Power
import Mathlib.Tactic.GCongr
import Mathlib.Tactic.Linarith
import Mathlib.Tactic.NormNum
import Mathlib.Tactic.Positivity
import Mathlib.Tactic.Ring

/-!
# The words of doubles

A double is a word of sixty-four bits: a sign, an exponent and a mantissa without its leading bit. The
library reads the word by divisions, the model of a double unpacks it bit by bit; the two readings
agree, and a double packs back to the word it was read from. So a finite double is its sign, mantissa
and exponent: these say when it is below another, and a double made from them has them.
-/

namespace PortfolioLab.Binary64

open Float.Model Float.Model.UnpackedFloat

variable {x y : Float} {d : Dyadic} {w : Nat}

/-! ## Words -/

/-- The sign and magnitude that a word stands for, `none` for infinities and not-a-number. -/
def decodeWord (w : Nat) : Option Dyadic :=
  if w / 2 ^ 52 % 2 ^ 11 = 2047 then none
  else if w / 2 ^ 52 % 2 ^ 11 = 0 then some ⟨w / 2 ^ 63 == 1, w % 2 ^ 52, -1074⟩
  else some ⟨w / 2 ^ 63 == 1, w % 2 ^ 52 + 2 ^ 52, (w / 2 ^ 52 % 2 ^ 11 : Nat) - 1075⟩

theorem decode?_eq (x : Float) : decode? x = decodeWord x.toBits.toNat := rfl

/-- The sign and magnitude of a finite double: the mantissa has all its bits but at the least
exponent. -/
structure Dyadic.Regular (d : Dyadic) : Prop where
  mantissa_lt : d.mantissa < 2 ^ 53
  least_le : -1074 ≤ d.exponent
  le_greatest : d.exponent ≤ 971
  full : 2 ^ 52 ≤ d.mantissa ∨ d.exponent = -1074

/-- The word of a sign and magnitude. The leading bit of a full mantissa carries into the exponent. -/
def Dyadic.word (d : Dyadic) : Nat :=
  (if d.negative then 2 ^ 63 else 0) + (d.mantissa + (d.exponent + 1074).toNat * 2 ^ 52)

theorem Dyadic.Regular.word_lt (h : d.Regular) : d.word < 2 ^ 64 := by
  obtain ⟨hm, hleast, hgreatest, _⟩ := h
  unfold word
  split <;> omega

/-- What a word can stand for: its exponent is not the largest, and the least one has no leading bit. -/
theorem decodeWord_eq_some_iff : decodeWord w = some d ↔
    w / 2 ^ 52 % 2 ^ 11 ≠ 2047 ∧ d.negative = (w / 2 ^ 63 == 1) ∧
      (w / 2 ^ 52 % 2 ^ 11 = 0 ∧ d.mantissa = w % 2 ^ 52 ∧ d.exponent = -1074 ∨
        w / 2 ^ 52 % 2 ^ 11 ≠ 0 ∧ d.mantissa = w % 2 ^ 52 + 2 ^ 52 ∧
          d.exponent = (w / 2 ^ 52 % 2 ^ 11 : Nat) - 1075) := by
  obtain ⟨negative, mantissa, exponent⟩ := d
  unfold decodeWord
  generalize w / 2 ^ 52 % 2 ^ 11 = biased
  generalize w % 2 ^ 52 = fraction
  by_cases hfull : biased = 2047
  · simp [hfull]
  · by_cases hzero : biased = 0
    · simp [hzero, eq_comm]
    · simp [hfull, hzero, eq_comm]

theorem regular_of_decodeWord (h : decodeWord w = some d) : d.Regular := by
  obtain ⟨hfull, _, hcases⟩ := decodeWord_eq_some_iff.mp h
  constructor <;> omega

theorem word_of_decodeWord (hlt : w < 2 ^ 64) (h : decodeWord w = some d) : d.word = w := by
  obtain ⟨hfull, hsign, hcases⟩ := decodeWord_eq_some_iff.mp h
  have hbit : (if d.negative then 2 ^ 63 else 0) = w / 2 ^ 63 * 2 ^ 63 := by
    rw [hsign]
    simp only [beq_iff_eq]
    split <;> omega
  rw [Dyadic.word, hbit]
  omega

theorem decodeWord_word (h : d.Regular) : decodeWord d.word = some d := by
  obtain ⟨hm, hleast, hgreatest, hfull⟩ := h
  have hword : d.word / 2 ^ 63 = (if d.negative then 1 else 0) ∧
      d.word % 2 ^ 63 = d.mantissa + (d.exponent + 1074).toNat * 2 ^ 52 := by
    unfold Dyadic.word
    split <;> omega
  obtain ⟨hbit, hrest⟩ := hword
  refine decodeWord_eq_some_iff.mpr ⟨by omega, ?_, by omega⟩
  rw [hbit]
  cases d.negative <;> rfl

/-- A double is its sign and magnitude. -/
theorem eq_of_decode? (hx : decode? x = some d) (hy : decode? y = some d) : x = y := by
  have hbits : x.toBits = y.toBits := by
    refine UInt64.toNat_inj.mp ?_
    rw [← word_of_decodeWord x.toBits.toNat_lt hx, ← word_of_decodeWord y.toBits.toNat_lt hy]
  obtain ⟨⟨wordX, _⟩⟩ := x
  obtain ⟨⟨wordY, _⟩⟩ := y
  change wordX = wordY at hbits
  subst hbits
  rfl

/-! ## Unpacking and packing -/

def Dyadic.sign (d : Dyadic) : Sign := if d.negative then .negative else .positive

def Dyadic.unpacked (d : Dyadic) : UnpackedFloat :=
  if h : 0 < d.mantissa then .finite d.sign d.mantissa d.exponent h else .zero d.sign

private theorem toNat_unpackMantissa (b : BitVec Format.binary64.numBits) :
    (unpackMantissa b).toNat = b.toNat % 2 ^ 52 := by
  simp [unpackMantissa, BitVec.extractLsb_toNat]

private theorem toNat_unpackExponent (b : BitVec Format.binary64.numBits) :
    (unpackExponent b).toNat = b.toNat / 2 ^ 52 % 2 ^ 11 := by
  simp [unpackExponent, BitVec.extractLsb_toNat, Nat.shiftRight_eq_div_pow]

private theorem toNat_unpackSign (b : BitVec Format.binary64.numBits) :
    (unpackSign b).toNat = b.toNat / 2 ^ 63 % 2 := by
  change (b.extractLsb 63 63).toNat = _
  simp [BitVec.extractLsb_toNat, Nat.shiftRight_eq_div_pow]

private theorem toNat_withImplicit (m : BitVec Format.binary64.mantissaBitsWithoutImplicit) :
    (1#1 ++ m).toNat = m.toNat + 2 ^ 52 := by
  have hlt : m.toNat < 2 ^ 52 := m.isLt
  rw [BitVec.toNat_append, ← Nat.shiftLeft_add_eq_or_of_lt hlt, Nat.shiftLeft_eq]
  simp
  omega

private theorem ofBitVec_unpackSign {b : BitVec Format.binary64.numBits}
    (h : d.negative = (b.toNat / 2 ^ 63 == 1)) : Sign.ofBitVec (unpackSign b) = d.sign := by
  have hlt : b.toNat < 2 ^ 64 := b.isLt
  have hbit := toNat_unpackSign b
  rw [Dyadic.sign, h]
  rcases (by omega : b.toNat / 2 ^ 63 = 0 ∨ b.toNat / 2 ^ 63 = 1) with hzero | hone
  · have hsign : unpackSign b = 0#1 := BitVec.eq_of_toNat_eq (by rw [hbit, hzero]; rfl)
    rw [hsign, hzero]
    rfl
  · have hsign : unpackSign b = 1#1 := BitVec.eq_of_toNat_eq (by rw [hbit, hone]; rfl)
    rw [hsign, hone]
    rfl

/-- A word that stands for a sign and magnitude is unpacked to these. -/
theorem unpack_of_decodeWord {b : BitVec Format.binary64.numBits} (h : decodeWord b.toNat = some d) :
    UnpackedFloat.unpack Format.binary64 b = d.unpacked := by
  obtain ⟨hfull, hsign, hcases⟩ := decodeWord_eq_some_iff.mp h
  rw [← toNat_unpackMantissa, ← toNat_unpackExponent] at hcases
  rw [← toNat_unpackExponent] at hfull
  have hfull' : unpackExponent b ≠ -1#11 := fun hc => hfull (by rw [hc]; rfl)
  delta UnpackedFloat.unpack
  dsimp only
  rw [if_neg hfull', ofBitVec_unpackSign hsign, Dyadic.unpacked]
  rcases hcases with ⟨hzero, hm, he⟩ | ⟨hzero, hm, he⟩
  · have hzero' : unpackExponent b = 0#11 := BitVec.eq_of_toNat_eq (by rw [hzero]; rfl)
    rw [if_pos hzero']
    by_cases hmant : unpackMantissa b = 0#52
    · rw [dif_pos hmant, dif_neg (by rw [hm, hmant]; decide)]
    · have hpos : 0 < d.mantissa := by
        rw [hm]
        exact Nat.pos_of_ne_zero fun hc => hmant (BitVec.eq_of_toNat_eq hc)
      rw [dif_neg hmant, dif_pos hpos, UnpackedFloat.finite.injEq, hzero, he]
      exact ⟨rfl, hm.symm, rfl⟩
  · have hzero' : unpackExponent b ≠ 0#11 := fun hc => hzero (by rw [hc]; rfl)
    rw [if_neg hzero', dif_pos (by omega), UnpackedFloat.finite.injEq, toNat_withImplicit, he]
    exact ⟨rfl, hm.symm, rfl⟩

theorem unpack_of_decode? (h : decode? x = some d) : x.toModel.unpack = d.unpacked :=
  unpack_of_decodeWord (b := x.toModel.toBits.toBitVec) h

private theorem toNat_packComponents (s : Sign) (e : BitVec 11) (m : BitVec 52) :
    (packComponents Format.binary64 s e m).toNat =
      s.toBitVec.toNat * 2 ^ 63 + (e.toNat * 2 ^ 52 + m.toNat) := by
  have he : e.toNat < 2 ^ 11 := e.isLt
  have hm : m.toNat < 2 ^ 52 := m.isLt
  rw [packComponents, BitVec.toNat_append, ← Nat.shiftLeft_add_eq_or_of_lt hm, BitVec.toNat_append,
    ← Nat.shiftLeft_add_eq_or_of_lt he, Nat.shiftLeft_eq, Nat.shiftLeft_eq]
  ring

private theorem toNat_sign (d : Dyadic) :
    d.sign.toBitVec.toNat * 2 ^ 63 = if d.negative then 2 ^ 63 else 0 := by
  unfold Dyadic.sign
  split <;> rfl

/-- A sign and magnitude is packed to its word. -/
theorem toNat_pack (h : d.Regular) : (UnpackedFloat.pack Format.binary64 d.unpacked).toNat = d.word := by
  obtain ⟨hm, hleast, hgreatest, hfull⟩ := h
  unfold Dyadic.unpacked
  by_cases hpos : 0 < d.mantissa
  · rw [dif_pos hpos]
    delta UnpackedFloat.pack
    change (if 2 ^ 11 ≤ (d.exponent + 1023 + 52).toNat + 1 then packedInfinity Format.binary64 d.sign
      else if d.mantissa.log2 + 1 = 53 then
        packComponents Format.binary64 d.sign (BitVec.ofNat 11 (d.exponent + 1023 + 52).toNat)
          (BitVec.ofNat 52 d.mantissa)
      else packComponents Format.binary64 d.sign 0#11 (BitVec.ofNat 52 d.mantissa)).toNat = d.word
    rw [if_neg (by omega)]
    by_cases hlow : d.mantissa < 2 ^ 52
    · have hlog : d.mantissa.log2 < 52 := (Nat.log2_lt hpos.ne').mpr hlow
      rw [if_neg (by omega), toNat_packComponents, toNat_sign, BitVec.toNat_ofNat, BitVec.toNat_ofNat,
        Dyadic.word]
      omega
    · have hlog : d.mantissa.log2 = 52 := (Nat.log2_eq_iff hpos.ne').mpr ⟨not_lt.mp hlow, hm⟩
      rw [if_pos (by omega), toNat_packComponents, toNat_sign, BitVec.toNat_ofNat, BitVec.toNat_ofNat,
        Dyadic.word]
      omega
  · rw [dif_neg hpos]
    change (packComponents Format.binary64 d.sign 0#11 0#52).toNat = d.word
    rw [toNat_packComponents, toNat_sign, BitVec.toNat_ofNat, BitVec.toNat_ofNat, Dyadic.word]
    omega

/-- A double that was packed from a sign and magnitude has them. -/
theorem decode?_of_toModel (h : d.Regular) (hx : x.toModel = Float.Model.pack d.unpacked) :
    decode? x = some d := by
  have hbits : x.toBits = (Float.Model.pack d.unpacked).toBits := congrArg Float.Model.toBits hx
  have hword : (Float.Model.pack d.unpacked).toBits.toNat = d.word := toNat_pack h
  rw [decode?_eq, hbits, hword, decodeWord_word h]

theorem decode?_ofBits {bits : UInt64} (h : decodeWord bits.toNat = some d) :
    decode? (Float.ofBits bits) = some d := by
  have hunpack : UnpackedFloat.unpack Format.binary64 bits.toBitVec = d.unpacked :=
    unpack_of_decodeWord (b := bits.toBitVec) h
  refine decode?_of_toModel (regular_of_decodeWord h) ?_
  change Float.Model.pack (UnpackedFloat.unpack Format.binary64 bits.toBitVec) = _
  rw [hunpack]

def Dyadic.neg (d : Dyadic) : Dyadic := { d with negative := !d.negative }

private theorem unpacked_neg (d : Dyadic) : d.neg.unpacked = d.unpacked.neg := by
  have hsign : d.neg.sign = -d.sign := by
    unfold Dyadic.sign Dyadic.neg
    cases d.negative <;> rfl
  by_cases hpos : 0 < d.mantissa
  · have hpos' : 0 < d.neg.mantissa := hpos
    rw [Dyadic.unpacked, dif_pos hpos', Dyadic.unpacked, dif_pos hpos, hsign]
    rfl
  · have hpos' : ¬ 0 < d.neg.mantissa := hpos
    rw [Dyadic.unpacked, dif_neg hpos', Dyadic.unpacked, dif_neg hpos, hsign]
    rfl

theorem decode?_neg (h : decode? x = some d) : decode? (-x) = some d.neg := by
  obtain ⟨hm, hleast, hgreatest, hfull⟩ := regular_of_decodeWord h
  refine decode?_of_toModel ⟨hm, hleast, hgreatest, hfull⟩ ?_
  rw [unpacked_neg, ← unpack_of_decode? h]
  rfl

private theorem unpack_packedInfinity (s : Sign) :
    UnpackedFloat.unpack Format.binary64 (packedInfinity Format.binary64 s) = .infinity s := by
  cases s <;> rfl

theorem isInf_neg (h : x.isInf) : (-x).isInf := by
  change x.toModel.unpack.isInf = true at h
  change (Float.Model.pack x.toModel.unpack.neg).unpack.isInf = true
  cases hu : x.toModel.unpack with
  | infinity s => exact congrArg UnpackedFloat.isInf (unpack_packedInfinity (-s))
  | notANumber => rw [hu] at h; cases h
  | zero s => rw [hu] at h; cases h
  | finite s m e hm => rw [hu] at h; cases h

/-! ## Finite doubles -/

private theorem unpack_of_full {b : BitVec Format.binary64.numBits} (h : unpackExponent b = -1#11) :
    UnpackedFloat.unpack Format.binary64 b = .infinity (Sign.ofBitVec (unpackSign b)) ∨
      UnpackedFloat.unpack Format.binary64 b = .notANumber := by
  delta UnpackedFloat.unpack
  dsimp only
  rw [if_pos h]
  by_cases hm : unpackMantissa b = 0#52
  · exact .inl (if_pos hm)
  · exact .inr (if_neg hm)

theorem isFinite_of_decode? (h : decode? x = some d) : x.isFinite := by
  change x.toModel.unpack.isFinite = true
  rw [unpack_of_decode? h, Dyadic.unpacked]
  by_cases hpos : 0 < d.mantissa
  · rw [dif_pos hpos]
    rfl
  · rw [dif_neg hpos]
    rfl

private theorem full_of_decodeWord {w : Nat} (h : decodeWord w = none) : w / 2 ^ 52 % 2 ^ 11 = 2047 := by
  by_contra hfull
  unfold decodeWord at h
  rw [if_neg hfull] at h
  by_cases hzero : w / 2 ^ 52 % 2 ^ 11 = 0
  · rw [if_pos hzero] at h
    cases h
  · rw [if_neg hzero] at h
    cases h

/-- A double that has no sign and magnitude is infinite or not a number. -/
theorem isInf_or_isNaN_of_decode? (h : decode? x = none) : x.isInf ∨ x.isNaN := by
  let b : BitVec Format.binary64.numBits := x.toModel.toBits.toBitVec
  have hfull : unpackExponent b = -1#11 := by
    refine BitVec.eq_of_toNat_eq ?_
    rw [toNat_unpackExponent]
    exact full_of_decodeWord h
  rcases unpack_of_full hfull with hu | hu
  · left
    change (UnpackedFloat.unpack Format.binary64 b).isInf = true
    rw [hu]
    rfl
  · right
    change (UnpackedFloat.unpack Format.binary64 b).isNaN = true
    rw [hu]
    rfl

theorem isNaN_of_isFinite (h : x.isFinite) : x.isNaN = false := by
  change x.toModel.unpack.isFinite = true at h
  change x.toModel.unpack.isNaN = false
  cases hu : x.toModel.unpack <;> rw [hu] at h <;> first | rfl | cases h

theorem isInf_of_isFinite (h : x.isFinite) : x.isInf = false := by
  change x.toModel.unpack.isFinite = true at h
  change x.toModel.unpack.isInf = false
  cases hu : x.toModel.unpack <;> rw [hu] at h <;> first | rfl | cases h

theorem isNaN_of_decode? (h : decode? x = some d) : x.isNaN = false :=
  isNaN_of_isFinite (isFinite_of_decode? h)

theorem exists_decode?_of_bounded (hinf : x.isInf = false) (hnan : x.isNaN = false) :
    ∃ d, decode? x = some d := by
  cases hd : decode? x with
  | some d => exact ⟨d, rfl⟩
  | none =>
    rcases isInf_or_isNaN_of_decode? hd with h | h
    · exact absurd h (ne_true_of_eq_false hinf)
    · exact absurd h (ne_true_of_eq_false hnan)

theorem exists_decode?_of_isFinite (h : x.isFinite) : ∃ d, decode? x = some d :=
  exists_decode?_of_bounded (isInf_of_isFinite h) (isNaN_of_isFinite h)

theorem regular_of_decode? (h : decode? x = some d) : d.Regular := regular_of_decodeWord h

/-! ## The order -/

def Dyadic.magnitude (d : Dyadic) : ℚ := d.mantissa * 2 ^ d.exponent

def Dyadic.value (d : Dyadic) : ℚ := if d.negative then -d.magnitude else d.magnitude

variable {a b : Dyadic}

theorem Dyadic.Regular.magnitude_lt (ha : a.Regular) (hb : b.Regular)
    (h : a.exponent < b.exponent ∨ a.exponent = b.exponent ∧ a.mantissa < b.mantissa) :
    a.magnitude < b.magnitude := by
  unfold Dyadic.magnitude
  rcases h with hlt | ⟨heq, hlt⟩
  · -- a full mantissa is worth more than any mantissa at a lower exponent
    have hfull : 2 ^ 52 ≤ b.mantissa := hb.full.resolve_right fun h => by
      have hleast := ha.least_le
      omega
    have hm : (a.mantissa : ℚ) < 2 ^ 53 := by exact_mod_cast ha.mantissa_lt
    have hm' : (2 : ℚ) ^ 52 ≤ b.mantissa := by exact_mod_cast hfull
    have hpow : (2 : ℚ) ^ (a.exponent + 1) ≤ 2 ^ b.exponent :=
      zpow_le_zpow_right₀ (by norm_num) (by omega)
    calc (a.mantissa : ℚ) * 2 ^ a.exponent < 2 ^ 53 * 2 ^ a.exponent := by gcongr
      _ = 2 ^ 52 * 2 ^ (a.exponent + 1) := by
        rw [zpow_add₀ (by norm_num)]
        ring
      _ ≤ b.mantissa * 2 ^ b.exponent := by gcongr
  · rw [heq]
    gcongr

/-- Magnitudes compare by exponent and then by mantissa. -/
theorem Dyadic.Regular.magnitude_lt_iff (ha : a.Regular) (hb : b.Regular) :
    a.magnitude < b.magnitude ↔
      a.exponent < b.exponent ∨ a.exponent = b.exponent ∧ a.mantissa < b.mantissa := by
  refine ⟨fun h => ?_, ha.magnitude_lt hb⟩
  by_contra hnot
  rcases lt_trichotomy a.exponent b.exponent with hlt | heq | hgt
  · exact hnot (.inl hlt)
  · rcases lt_trichotomy a.mantissa b.mantissa with hlt | hm | hgt
    · exact hnot (.inr ⟨heq, hlt⟩)
    · exact absurd h (by rw [magnitude, magnitude, heq, hm]; exact lt_irrefl _)
    · exact h.asymm (hb.magnitude_lt ha (.inr ⟨heq.symm, hgt⟩))
  · exact h.asymm (hb.magnitude_lt ha (.inl hgt))

theorem Dyadic.magnitude_nonneg (d : Dyadic) : 0 ≤ d.magnitude := by
  unfold magnitude
  positivity

theorem Dyadic.magnitude_pos (h : 0 < d.mantissa) : 0 < d.magnitude := by
  unfold magnitude
  positivity

theorem Dyadic.magnitude_eq_zero (h : ¬ 0 < d.mantissa) : d.magnitude = 0 := by
  have hzero : d.mantissa = 0 := by omega
  rw [magnitude, hzero, Nat.cast_zero, zero_mul]

private theorem compare_eq_lt_iff (ha : a.Regular) (hb : b.Regular) :
    (compare a.exponent b.exponent).then (compare a.mantissa b.mantissa) = .lt ↔
      a.magnitude < b.magnitude := by
  rw [Ordering.then_eq_lt, Int.compare_eq_lt, Int.compare_eq_eq, Nat.compare_eq_lt,
    ha.magnitude_lt_iff hb]

private theorem compare_eq_gt_iff (ha : a.Regular) (hb : b.Regular) :
    (compare a.exponent b.exponent).then (compare a.mantissa b.mantissa) = .gt ↔
      b.magnitude < a.magnitude := by
  rw [Ordering.then_eq_gt, Int.compare_eq_gt, Int.compare_eq_eq, Nat.compare_eq_gt,
    hb.magnitude_lt_iff ha, eq_comm (a := a.exponent)]

private theorem sign_cases (d : Dyadic) :
    d.sign = .positive ∧ d.value = d.magnitude ∨ d.sign = .negative ∧ d.value = -d.magnitude := by
  unfold Dyadic.sign Dyadic.value
  cases d.negative
  · exact .inl ⟨rfl, rfl⟩
  · exact .inr ⟨rfl, rfl⟩

/-- The model compares signs first, then exponents and mantissas. -/
private theorem finite_lt_finite_iff (ha : a.Regular) (hb : b.Regular) (hapos : 0 < a.mantissa)
    (hbpos : 0 < b.mantissa) :
    (UnpackedFloat.finite a.sign a.mantissa a.exponent hapos).lt
      (.finite b.sign b.mantissa b.exponent hbpos) = true ↔ a.value < b.value := by
  have ha' := Dyadic.magnitude_pos hapos
  have hb' := Dyadic.magnitude_pos hbpos
  rcases sign_cases a with ⟨hsa, hva⟩ | ⟨hsa, hva⟩ <;>
    rcases sign_cases b with ⟨hsb, hvb⟩ | ⟨hsb, hvb⟩ <;> rw [hsa, hsb, hva, hvb]
  · rw [← compare_eq_lt_iff ha hb]
    exact beq_iff_eq.trans (Option.some.injEq _ _).to_iff
  · exact iff_of_false Bool.false_ne_true (by linarith)
  · exact iff_of_true rfl (by linarith)
  · rw [neg_lt_neg_iff, ← compare_eq_gt_iff ha hb, ← Ordering.swap_eq_lt]
    exact beq_iff_eq.trans (Option.some.injEq _ _).to_iff

private theorem finite_lt_zero_iff (hpos : 0 < a.mantissa) (s : Sign) :
    (UnpackedFloat.finite a.sign a.mantissa a.exponent hpos).lt (.zero s) = true ↔ a.value < 0 := by
  have ha := Dyadic.magnitude_pos hpos
  rcases sign_cases a with ⟨hs, hv⟩ | ⟨hs, hv⟩ <;> rw [hs, hv]
  · exact iff_of_false Bool.false_ne_true ha.not_gt
  · exact iff_of_true rfl (neg_lt_zero.mpr ha)

private theorem zero_lt_finite_iff (hpos : 0 < b.mantissa) (s : Sign) :
    (UnpackedFloat.zero s).lt (.finite b.sign b.mantissa b.exponent hpos) = true ↔ 0 < b.value := by
  have hb := Dyadic.magnitude_pos hpos
  rcases sign_cases b with ⟨hs, hv⟩ | ⟨hs, hv⟩ <;> rw [hs, hv]
  · exact iff_of_true rfl hb
  · exact iff_of_false Bool.false_ne_true (neg_lt_zero.mpr hb).not_gt

theorem Dyadic.value_eq_zero (h : ¬ 0 < d.mantissa) : d.value = 0 := by
  rw [value, magnitude_eq_zero h, neg_zero, ite_self]

private theorem unpacked_lt_iff (ha : a.Regular) (hb : b.Regular) :
    a.unpacked.lt b.unpacked = true ↔ a.value < b.value := by
  by_cases hapos : 0 < a.mantissa
  · rw [Dyadic.unpacked, dif_pos hapos]
    by_cases hbpos : 0 < b.mantissa
    · rw [Dyadic.unpacked, dif_pos hbpos]
      exact finite_lt_finite_iff ha hb hapos hbpos
    · rw [Dyadic.unpacked, dif_neg hbpos, Dyadic.value_eq_zero hbpos]
      exact finite_lt_zero_iff hapos _
  · rw [Dyadic.unpacked, dif_neg hapos, Dyadic.value_eq_zero hapos]
    by_cases hbpos : 0 < b.mantissa
    · rw [Dyadic.unpacked, dif_pos hbpos]
      exact zero_lt_finite_iff hbpos _
    · rw [Dyadic.unpacked, dif_neg hbpos, Dyadic.value_eq_zero hbpos]
      exact iff_of_false Bool.false_ne_true (lt_irrefl 0)

/-- Finite doubles compare as the numbers that they are. -/
theorem lt_iff_value_lt (hx : decode? x = some a) (hy : decode? y = some b) :
    x < y ↔ a.value < b.value := by
  rw [← unpacked_lt_iff (regular_of_decode? hx) (regular_of_decode? hy), ← unpack_of_decode? hx,
    ← unpack_of_decode? hy]
  exact ⟨of_decide_eq_true (p := x.toModel < y.toModel), decide_eq_true (p := x.toModel < y.toModel)⟩

/-- Sign and magnitude are unique, but for the sign of zero. -/
theorem Dyadic.Regular.eq_of_value_eq (ha : a.Regular) (hb : b.Regular) (h : a.value = b.value)
    (hne : a.value ≠ 0) : a = b := by
  have hmagnitude : a.negative = b.negative ∧ a.magnitude = b.magnitude := by
    have ha' := a.magnitude_nonneg
    have hb' := b.magnitude_nonneg
    unfold Dyadic.value at h hne
    cases hna : a.negative <;> cases hnb : b.negative <;>
      simp only [hna, hnb, if_true, if_false, Bool.false_eq_true] at h hne ⊢
    · exact ⟨trivial, h⟩
    · exact absurd (by linarith) hne
    · exact absurd (by linarith) hne
    · exact ⟨trivial, by linarith⟩
  have hlow := mt (ha.magnitude_lt_iff hb).mpr hmagnitude.2.not_lt
  have hhigh := mt (hb.magnitude_lt_iff ha).mpr hmagnitude.2.not_gt
  obtain ⟨hnegative, _⟩ := hmagnitude
  cases a
  cases b
  simp only [Dyadic.mk.injEq] at hnegative hlow hhigh ⊢
  exact ⟨hnegative, by omega, by omega⟩

/-! ## Doubles around zero and one -/

theorem decode?_zero : decode? 0 = some ⟨false, 0, -1074⟩ := by decide +kernel

theorem decode?_one : decode? 1 = some ⟨false, 2 ^ 52, -52⟩ := by decide +kernel

/-- A finite double that is not below zero has no sign, unless it is a zero. -/
theorem decode?_of_not_lt_zero (hf : x.isFinite) (hx : ¬ x < 0) :
    ∃ d, decode? x = some d ∧ (d.negative = true → d.mantissa = 0) := by
  obtain ⟨d, hd⟩ := exists_decode?_of_isFinite hf
  refine ⟨d, hd, fun hneg => ?_⟩
  rw [lt_iff_value_lt hd decode?_zero, Dyadic.value, if_pos hneg] at hx
  by_contra hm
  have hpos := Dyadic.magnitude_pos (Nat.pos_of_ne_zero hm)
  exact hx (by simpa [Dyadic.value, Dyadic.magnitude] using hpos)

theorem not_lt_zero_of_not_le_zero (h : ¬ x ≤ 0) : ¬ x < 0 := by
  intro hlt
  have hlt' : x.toModel.unpack.lt (0 : Float).toModel.unpack = true :=
    of_decide_eq_true (p := x.toModel < (0 : Float).toModel) hlt
  have hcompare : x.toModel.unpack.compare (0 : Float).toModel.unpack = some .lt := eq_of_beq hlt'
  have hle : x.toModel.unpack.le (0 : Float).toModel.unpack = true := by
    rw [UnpackedFloat.le, hcompare]
    rfl
  exact h (decide_eq_true (p := x.toModel ≤ (0 : Float).toModel) hle)

theorem not_lt_zero_of_pos (h : 0 < x) : ¬ x < 0 := by
  intro hlt
  have hlow : (UnpackedFloat.zero .positive).lt x.toModel.unpack = true :=
    of_decide_eq_true (p := (0 : Float).toModel < x.toModel) h
  have hhigh : x.toModel.unpack.lt (UnpackedFloat.zero .positive) = true :=
    of_decide_eq_true (p := x.toModel < (0 : Float).toModel) hlt
  -- a value above zero is positive, and one below zero is negative
  generalize x.toModel.unpack = u at hlow hhigh
  cases u with
  | infinity s =>
    cases s with
    | positive => exact Bool.false_ne_true hhigh
    | negative => exact Bool.false_ne_true hlow
  | notANumber => exact Bool.false_ne_true hlow
  | zero s => exact Bool.false_ne_true hlow
  | finite s m e hm =>
    cases s with
    | positive => exact Bool.false_ne_true hhigh
    | negative => exact Bool.false_ne_true hlow

theorem isFinite_of_between (hpos : 0 < x) (hone : x < 1) : x.isFinite := by
  have hlow : (UnpackedFloat.zero .positive).lt x.toModel.unpack = true :=
    of_decide_eq_true (p := (0 : Float).toModel < x.toModel) hpos
  have hhigh : x.toModel.unpack.lt (1 : Float).toModel.unpack = true :=
    of_decide_eq_true (p := x.toModel < (1 : Float).toModel) hone
  rw [unpack_of_decode? decode?_one] at hhigh
  change x.toModel.unpack.isFinite = true
  generalize x.toModel.unpack = u at hlow hhigh
  cases u with
  | infinity s =>
    cases s with
    | negative => cases hlow
    | positive => cases hhigh
  | notANumber => cases hlow
  | zero s => rfl
  | finite s m e hm => rfl

theorem magnitude_lt_one (h : decode? x = some d) (hpos : 0 < x) (hone : x < 1) : d.magnitude < 1 := by
  have hzero : (⟨false, 0, -1074⟩ : Dyadic).value = 0 := by simp [Dyadic.value, Dyadic.magnitude]
  have hunit : (⟨false, 2 ^ 52, -52⟩ : Dyadic).value = 1 := by norm_num [Dyadic.value, Dyadic.magnitude]
  rw [lt_iff_value_lt decode?_zero h, hzero] at hpos
  rw [lt_iff_value_lt h decode?_one, hunit] at hone
  have hnonneg := d.magnitude_nonneg
  unfold Dyadic.value at hpos hone
  split at hone
  · next hneg =>
    rw [if_pos hneg] at hpos
    linarith
  · exact hone

theorem shortest?_of_not_lt_zero (hf : x.isFinite) (hx : ¬ x < 0) :
    ∃ d, shortest? x = some d ∧ (d.negative = true → d.coefficient = 0) := by
  obtain ⟨d, hd, hneg⟩ := decode?_of_not_lt_zero hf hx
  refine ⟨d.shortest, by rw [shortest?, hd, Option.map_some], ?_⟩
  unfold Dyadic.shortest
  split
  · exact fun _ => rfl
  · next hm => exact fun hn => absurd (hneg hn) hm

end PortfolioLab.Binary64
