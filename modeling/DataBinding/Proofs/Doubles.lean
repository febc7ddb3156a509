import DataBinding.Proofs.Equality
import Mathlib.Algebra.Group.Nat.Defs

/-!
# What a double is made of

A double has a sign, an exponent and a fraction, and nothing else: numbers that are taken apart
alike are the same. The exponent tells how the fraction is to be read. Where it is not the least
one, the mantissa has one more digit in front.
-/

namespace DataBinding

namespace Decimal

open Float.Model UnpackedFloat

/-! ## The fields -/

/-- The fraction of a double. -/
def fractionField (x : Float) : BitVec 52 :=
  @unpackMantissa Format.binary64 x.toModel.toBits.toBitVec

/-- The exponent, above the least one that there is. -/
def exponentField (x : Float) : BitVec 11 :=
  @unpackExponent Format.binary64 x.toModel.toBits.toBitVec

/-- The sign. -/
def signField (x : Float) : BitVec 1 :=
  @unpackSign Format.binary64 x.toModel.toBits.toBitVec

/-- The bits of a double, as one number. -/
def bitsOf (x : Float) : Nat := x.toModel.toBits.toBitVec.toNat

theorem toNat_fractionField (x : Float) : (fractionField x).toNat = bitsOf x % 2 ^ 52 := by
  show (BitVec.extractLsb 51 0 x.toModel.toBits.toBitVec).toNat = _
  rw [BitVec.extractLsb_toNat, Nat.shiftRight_zero]
  rfl

theorem toNat_exponentField (x : Float) :
    (exponentField x).toNat = bitsOf x / 2 ^ 52 % 2 ^ 11 := by
  show (BitVec.extractLsb 62 52 x.toModel.toBits.toBitVec).toNat = _
  rw [BitVec.extractLsb_toNat, Nat.shiftRight_eq_div_pow]
  rfl

theorem toNat_signField (x : Float) : (signField x).toNat = bitsOf x / 2 ^ 63 % 2 := by
  show (BitVec.extractLsb 63 63 x.toModel.toBits.toBitVec).toNat = _
  rw [BitVec.extractLsb_toNat, Nat.shiftRight_eq_div_pow]
  rfl

/-- A double has nothing but its fields. -/
theorem eq_of_fields {x y : Float} (hfraction : fractionField x = fractionField y)
    (hexponent : exponentField x = exponentField y) (hsign : signField x = signField y) :
    x = y := by
  have hm := congrArg BitVec.toNat hfraction
  have he := congrArg BitVec.toNat hexponent
  have hs := congrArg BitVec.toNat hsign
  rw [toNat_fractionField, toNat_fractionField] at hm
  rw [toNat_exponentField, toNat_exponentField] at he
  rw [toNat_signField, toNat_signField] at hs
  have hlt : bitsOf x < 2 ^ 64 := x.toModel.toBits.toBitVec.isLt
  have hlt' : bitsOf y < 2 ^ 64 := y.toModel.toBits.toBitVec.isLt
  have hbits : bitsOf x = bitsOf y := by omega
  obtain ⟨⟨bits, _⟩⟩ := x
  obtain ⟨⟨bits', _⟩⟩ := y
  obtain rfl : bits = bits' := UInt64.eq_of_toBitVec_eq (BitVec.eq_of_toNat_eq hbits)
  rfl

theorem eq_of_ofBitVec_eq {b b' : BitVec 1} (h : Sign.ofBitVec b = Sign.ofBitVec b') : b = b' := by
  have hback : ∀ b : BitVec 1, (Sign.ofBitVec b).toBitVec = b := by decide
  rw [← hback b, h, hback]

/-- The sign that is put into a double is taken out of it again. -/
theorem ofBitVec_unpackSign (s : Sign) (e : BitVec 11) (m : BitVec 52) :
    Sign.ofBitVec (unpackSign (packComponents Format.binary64 s e m)) = s := by
  have hsign : unpackSign (packComponents Format.binary64 s e m) = s.toBitVec := by
    ext i hi
    obtain rfl : i = 0 := by omega
    show (BitVec.extractLsb 63 63 ((s.toBitVec ++ e) ++ m))[0] = _
    rw [BitVec.extractLsb, BitVec.getElem_extractLsb']
    show ((s.toBitVec ++ e) ++ m).getLsbD 63 = _
    rw [BitVec.getLsbD_append, if_neg (by decide), BitVec.getLsbD_append, if_neg (by decide)]
    rfl
  rw [hsign]
  cases s <;> rfl

/-! ## Taking a double apart -/

/-- Finite numbers are the same if sign, mantissa and exponent are. -/
theorem finite_congr {s : Sign} {m m' : Nat} {e e' : Int} {hm : 0 < m} {hm' : 0 < m'} (h : m = m')
    (he : e = e') : finite s m e hm = finite s m' e' hm' := by
  subst h he
  rfl

/-- The digit in front of a fraction. -/
theorem toNat_one_append (m : BitVec 52) : (1#1 ++ m).toNat = 2 ^ 52 + m.toNat := by
  have hor := Nat.two_pow_add_eq_or_of_lt m.isLt 1
  rw [Nat.mul_one] at hor
  rw [hor, BitVec.toNat_append]
  rfl

theorem toNat_pos_of_ne {width : Nat} {b : BitVec width} (h : b ≠ 0) : 0 < b.toNat := by
  rw [BitVec.toNat_pos, BitVec.pos_iff_ne_zero]
  exact h

theorem toNat_one_append_pos (m : BitVec 52) : 0 < (1#1 ++ m).toNat := by
  rw [toNat_one_append]
  exact Nat.add_pos_left (Nat.two_pow_pos 52) _

/-- How a double is taken apart, by its fields. -/
inductive Parts (x : Float) : UnpackedFloat → Prop where
  | notANumber (hexponent : exponentField x = -1#11) (hfraction : fractionField x ≠ 0#52) :
    Parts x .notANumber
  | infinity (s : Sign) (hsign : .ofBitVec (signField x) = s) (hexponent : exponentField x = -1#11)
    (hfraction : fractionField x = 0#52) : Parts x (.infinity s)
  | zero (s : Sign) (hsign : .ofBitVec (signField x) = s) (hexponent : exponentField x = 0#11)
    (hfraction : fractionField x = 0#52) : Parts x (.zero s)
  | least (s : Sign) (m : Nat) (hm : 0 < m) (hsign : .ofBitVec (signField x) = s)
    (hexponent : exponentField x = 0#11) (hfraction : (fractionField x).toNat = m) :
    Parts x (.finite s m (-1074) hm)
  | normal (s : Sign) (m : Nat) (e : Int) (hm : 0 < m) (hsign : .ofBitVec (signField x) = s)
    (hexponent : ((exponentField x).toNat : Int) = e + 1075) (hleast : -1075 < e)
    (hfraction : 2 ^ 52 + (fractionField x).toNat = m) : Parts x (.finite s m e hm)

/-- What the fields decide. -/
theorem unpack_eq (x : Float) :
    x.toModel.unpack =
      if exponentField x = -1#11 then
        if fractionField x = 0#52 then .infinity (.ofBitVec (signField x)) else .notANumber
      else if exponentField x = 0#11 then
        if h : fractionField x = 0#52 then .zero (.ofBitVec (signField x))
        else .finite (.ofBitVec (signField x)) (fractionField x).toNat
          ((exponentField x).toNat - 1075 + 1) (toNat_pos_of_ne h)
      else .finite (.ofBitVec (signField x)) (1#1 ++ fractionField x).toNat
        ((exponentField x).toNat - 1075) (toNat_one_append_pos _) := rfl

theorem parts_unpack (x : Float) : Parts x x.toModel.unpack := by
  rw [unpack_eq]
  by_cases hall : exponentField x = -1#11
  · rw [if_pos hall]
    by_cases hfraction : fractionField x = 0#52
    · rw [if_pos hfraction]
      exact .infinity _ rfl hall hfraction
    · rw [if_neg hfraction]
      exact .notANumber hall hfraction
  rw [if_neg hall]
  by_cases hnone : exponentField x = 0#11
  · rw [if_pos hnone]
    by_cases hfraction : fractionField x = 0#52
    · rw [dif_pos hfraction]
      exact .zero _ rfl hnone hfraction
    · rw [dif_neg hfraction]
      have hleast : ((exponentField x).toNat : Int) - 1075 + 1 = -1074 := by
        rw [hnone]
        rfl
      rw [finite_congr rfl hleast]
      exact .least _ _ (toNat_pos_of_ne hfraction) rfl hnone rfl
  · rw [if_neg hnone]
    have hpos := toNat_pos_of_ne hnone
    exact .normal _ _ _ _ rfl (by omega) (by omega) (toNat_one_append _).symm

/-- There is one double only that is no number. -/
theorem bits_of_notANumber {x : Float} (hexponent : exponentField x = -1#11)
    (hfraction : fractionField x ≠ 0#52) :
    x.toModel.toBits.toBitVec = packedNaN Format.binary64 :=
  x.toModel.valid.eq_packedNaN hexponent hfraction

/-- Doubles that are taken apart alike are the same. -/
theorem eq_of_unpack_eq {x y : Float} (h : x.toModel.unpack = y.toModel.unpack) : x = y := by
  have hx := parts_unpack x
  have hy := parts_unpack y
  rw [← h] at hy
  have hlt : (fractionField x).toNat < 2 ^ 52 := (fractionField x).isLt
  have hlt' : (fractionField y).toNat < 2 ^ 52 := (fractionField y).isLt
  generalize x.toModel.unpack = parts at hx hy
  cases hx with
  | notANumber hexponent hfraction =>
    cases hy with
    | notANumber hexponent' hfraction' =>
      have hbits := (bits_of_notANumber hexponent hfraction).trans
        (bits_of_notANumber hexponent' hfraction').symm
      refine eq_of_fields ?_ ?_ ?_ <;> simp only [fractionField, exponentField, signField, hbits]
  | infinity s hsign hexponent hfraction =>
    cases hy with
    | infinity _ hsign' hexponent' hfraction' =>
      exact eq_of_fields (hfraction.trans hfraction'.symm) (hexponent.trans hexponent'.symm)
        (eq_of_ofBitVec_eq (hsign.trans hsign'.symm))
  | zero s hsign hexponent hfraction =>
    cases hy with
    | zero _ hsign' hexponent' hfraction' =>
      exact eq_of_fields (hfraction.trans hfraction'.symm) (hexponent.trans hexponent'.symm)
        (eq_of_ofBitVec_eq (hsign.trans hsign'.symm))
  | least s m hm hsign hexponent hfraction =>
    cases hy with
    | least _ _ _ hsign' hexponent' hfraction' =>
      exact eq_of_fields (BitVec.eq_of_toNat_eq (hfraction.trans hfraction'.symm))
        (hexponent.trans hexponent'.symm) (eq_of_ofBitVec_eq (hsign.trans hsign'.symm))
    | normal _ _ _ _ _ _ _ hfraction' => omega
  | normal s m e hm hsign hexponent hleast hfraction =>
    cases hy with
    | least _ _ _ _ _ hfraction' => omega
    | normal _ _ _ _ hsign' hexponent' _ hfraction' =>
      exact eq_of_fields (BitVec.eq_of_toNat_eq (by omega)) (BitVec.eq_of_toNat_eq (by omega))
        (eq_of_ofBitVec_eq (hsign.trans hsign'.symm))

/-- The mantissa of a double has at most 53 digits, and all of them unless the exponent is the
least. -/
theorem bounds_of_unpack {x : Float} {s : Sign} {m : Nat} {e : Int} {hm : 0 < m}
    (h : x.toModel.unpack = .finite s m e hm) :
    m < 2 ^ 53 ∧ -1074 ≤ e ∧ (2 ^ 52 ≤ m ∨ e = -1074) := by
  have hx := parts_unpack x
  rw [h] at hx
  have hlt : (fractionField x).toNat < 2 ^ 52 := (fractionField x).isLt
  cases hx with
  | least _ _ _ _ _ hfraction => exact ⟨by omega, by omega, .inr rfl⟩
  | normal _ _ _ _ _ _ hleast hfraction => exact ⟨by omega, by omega, .inl (by omega)⟩

/-- Finite numbers equal themselves. -/
theorem beq_self_of_isFinite {x : Float} (hx : x.isFinite = true) : (x == x) = true := by
  rw [beq_iff_compare]
  have hfinite : x.toModel.unpack.isFinite = true := hx
  generalize x.toModel.unpack = parts at hfinite
  cases parts with
  | notANumber => cases hfinite
  | infinity s => cases hfinite
  | zero s => rfl
  | finite s m e hm =>
    have hself : (compare e e).then (compare m m) = .eq := by
      rw [Int.compare_eq_eq.mpr rfl, Nat.compare_eq_eq.mpr rfl]
      rfl
    cases s with
    | positive => exact congrArg some hself
    | negative => exact congrArg (fun order : Ordering => some order.swap) hself

end Decimal

end DataBinding
