import Mathlib
import RigWarden.Number.Binary64

-- The lemmas about packed floats are those of Batteries, which only the whole of Mathlib imports.

/-!
# Numbers without a sign

Reading decimal digits, multiplying by a factor and dividing by a power of ten never give a number
with a minus sign, and none of them gives NaN. Such a number is zero or above zero.
-/

namespace RigWarden.Number

open Float.Model
open UnpackedFloat hiding pack unpack ofScientific ofNat ofInt isFinite

/-- A number that is not below zero, and not the zero with a minus sign. -/
inductive Unsigned : UnpackedFloat → Prop where
  | infinity : Unsigned (.infinity .positive)
  | zero : Unsigned (.zero .positive)
  | finite (mantissa : Nat) (exponent : Int) (h : 0 < mantissa) :
    Unsigned (.finite .positive mantissa exponent h)

def isAmount : UnpackedFloat → Bool
  | .finite .positive _ _ _ => true
  | _ => false

theorem exists_of_isAmount {f : UnpackedFloat} (h : isAmount f = true) :
    ∃ m e hm, f = .finite .positive m e hm := by
  cases f with
  | finite s m e hm =>
    cases s with
    | positive => exact ⟨m, e, hm, rfl⟩
    | negative => cases h
  | _ => cases h

section UnpackedFloat

variable {spec : Format}

theorem unsigned_round (mantissa : Nat) (exponent : Int) (accuracy : Accuracy) :
    Unsigned (roundWithAccuracy spec .positive mantissa exponent accuracy) := by
  simp only [roundWithAccuracy]
  split
  · exact .zero
  · exact .finite _ _ _

theorem Unsigned.mul {f g : UnpackedFloat} (hf : Unsigned f) (hg : isAmount g = true) :
    Unsigned (UnpackedFloat.mul spec f g) := by
  obtain ⟨m, e, hm, rfl⟩ := exists_of_isAmount hg
  cases hf with
  | infinity => exact .infinity
  | zero => exact .zero
  | finite => exact unsigned_round _ _ _

theorem Unsigned.div {f g : UnpackedFloat} (hf : Unsigned f) (hg : isAmount g = true) :
    Unsigned (UnpackedFloat.div spec f g) := by
  obtain ⟨m, e, hm, rfl⟩ := exists_of_isAmount hg
  cases hf with
  | infinity => exact .infinity
  | zero => exact .zero
  | finite => exact unsigned_round _ _ _

theorem unsigned_ofNat (n : Nat) : Unsigned (UnpackedFloat.ofNat spec n) := by
  simp only [UnpackedFloat.ofNat, UnpackedFloat.ofInt, UnpackedFloat.normalize]
  split
  · next hlt => exact absurd (Int.compare_eq_lt.1 hlt) (Int.not_lt.2 (Int.natCast_nonneg n))
  · exact .zero
  · exact unsigned_round _ _ _

theorem unsigned_ofScientific (m : Nat) (e : Int) :
    Unsigned (UnpackedFloat.ofScientific spec m e) := by
  unfold UnpackedFloat.ofScientific
  split_ifs
  · exact .zero
  · exact .infinity
  · exact .zero
  · exact unsigned_round _ _ _
  · exact unsigned_round _ _ _

theorem unsigned_unpack_components {exponent : BitVec spec.exponentBits}
    {mantissa : BitVec spec.mantissaBitsWithoutImplicit} (h : exponent = -1#_ → mantissa = 0#_) :
    Unsigned (UnpackedFloat.unpack spec (packComponents spec .positive exponent mantissa)) := by
  simp only [UnpackedFloat.unpack, unpackSign_packComponents, Sign.ofBitVec_toBitVec,
    unpackExponent_packComponents, unpackMantissa_packComponents]
  split_ifs with he hm hzero hm
  · exact .infinity
  · exact absurd (h he) hm
  · exact .zero
  · exact .finite _ _ _
  · exact .finite _ _ _

end UnpackedFloat

/-- To be written in 64 bits does not give a number a sign. -/
theorem Unsigned.pack {f : UnpackedFloat} (h : Unsigned f) : Unsigned (pack f).unpack := by
  change Unsigned (UnpackedFloat.unpack .binary64 (UnpackedFloat.pack .binary64 f))
  cases h with
  | infinity => exact unsigned_unpack_components fun _ => rfl
  | zero => exact unsigned_unpack_components fun _ => rfl
  | finite m e hm =>
    simp only [UnpackedFloat.pack]
    generalize (e + _ + _ : Int).toNat = biased
    split_ifs with hbig
    · exact unsigned_unpack_components fun _ => rfl
    · -- The exponent with all bits set is kept for infinities and NaN.
      refine unsigned_unpack_components fun he => absurd (congrArg BitVec.toNat he) ?_
      change ¬ 2 ^ 11 ≤ biased + 1 at hbig
      change ¬ biased % 2 ^ 11 = 2 ^ 11 - 1
      omega
    · exact unsigned_unpack_components fun he => absurd (congrArg BitVec.toNat he) (by decide)

theorem isAmount_powersOfTen : ∀ i : Fin 23,
    isAmount Float.exactlyRepresentablePowersOfTen[i].toModel.unpack = true := by
  decide

/-- Decimal digits denote no number below zero. -/
theorem unsigned_ofDecimal (digits places : Nat) :
    Unsigned (ofDecimal digits places).toModel.unpack := by
  unfold ofDecimal Float.ofScientific
  split
  · next h =>
    exact ((unsigned_ofNat _).pack.div (isAmount_powersOfTen ⟨places, by omega⟩)).pack
  · exact (unsigned_ofScientific _ _).pack

theorem unpack_zero : (0 : Float).toModel.unpack = .zero .positive := rfl

theorem Unsigned.zero_le {x : Float} (h : Unsigned x.toModel.unpack) : 0 ≤ x := by
  have hle : UnpackedFloat.le (0 : Float).toModel.unpack x.toModel.unpack = true := by
    rw [unpack_zero]
    generalize x.toModel.unpack = f at h
    cases h <;> rfl
  exact decide_eq_true hle

theorem Unsigned.not_lt_zero {x : Float} (h : Unsigned x.toModel.unpack) : ¬ x < 0 := by
  intro hlt
  have hmodel : UnpackedFloat.lt x.toModel.unpack (0 : Float).toModel.unpack = true :=
    of_decide_eq_true hlt
  rw [unpack_zero] at hmodel
  generalize x.toModel.unpack = f at h hmodel
  cases h <;> cases hmodel

theorem Unsigned.eq_zero {x : Float} (h : Unsigned x.toModel.unpack) (hn : ¬ 0 < x) : x = 0 := by
  have hlt : ¬ UnpackedFloat.lt (.zero .positive) x.toModel.unpack = true :=
    fun hlt => hn (decide_eq_true hlt)
  have hx : x.toModel.unpack = (0 : Float).toModel.unpack := by
    rw [unpack_zero]
    generalize x.toModel.unpack = f at h hlt
    cases h with
    | zero => rfl
    | infinity => exact absurd rfl hlt
    | finite => exact absurd rfl hlt
  have hbits := (unpack_inj_of_valid x.toModel.valid (0 : Float).toModel.valid (by decide)).1 hx
  exact Float.toBits_inj.1 (UInt64.toBitVec_inj.1 hbits)

end RigWarden.Number
