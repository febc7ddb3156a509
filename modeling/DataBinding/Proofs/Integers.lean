import DataBinding.Proofs.Resemblance

/-!
# Integers among the doubles

JSON tells integers and doubles apart, and writes a double that is a safe integer as that integer.
Reading it back gives the same double, but for the sign of zero: below `2 ^ 53` an integer has room
in the mantissa, so neither making a double of it nor multiplying that by one rounds anything.
-/

namespace DataBinding

namespace Decimal

open Float.Model UnpackedFloat

/-- Mantissa and exponent of a double with all its binary digits. -/
structure IsNormal (m : Nat) (e : Int) : Prop where
  lower : 2 ^ 52 ≤ m
  upper : m < 2 ^ 53
  least : -1074 ≤ e
  greatest : e ≤ 971

theorem IsNormal.pos {m : Nat} {e : Int} (h : IsNormal m e) : 0 < m :=
  Nat.lt_of_lt_of_le (by decide) h.lower

theorem IsNormal.log2 {m : Nat} {e : Int} (h : IsNormal m e) : m.log2 = 52 :=
  (Nat.log2_eq_iff (Nat.pos_iff_ne_zero.mp h.pos)).mpr ⟨h.lower, h.upper⟩

/-- The first digit is left out, and the exponent is moved up. -/
theorem pack_of_isNormal {m : Nat} {e : Int} (h : IsNormal m e) (s : Sign) :
    UnpackedFloat.pack Format.binary64 (.finite s m e h.pos) =
      packComponents Format.binary64 s (BitVec.ofNat 11 (e + 1075).toNat) (BitVec.ofNat 52 m) := by
  have hlog := h.log2
  obtain ⟨-, -, hleast, hgreatest⟩ := h
  have hbiased : (e + (Format.binary64.exponentBias : Int) + ((52 : Nat) : Int)).toNat =
      (e + 1075).toNat := by
    show (e + 1023 + 52).toNat = _
    omega
  unfold UnpackedFloat.pack
  simp only [hbiased]
  rw [if_neg (show ¬ 2048 ≤ (e + 1075).toNat + 1 by omega), if_pos (by rw [hlog]; rfl)]

/-- A double with all its digits is packed without a loss. -/
theorem unpack_pack_of_isNormal {m : Nat} {e : Int} (h : IsNormal m e) (s : Sign) :
    (Float.Model.pack (.finite s m e h.pos)).unpack = .finite s m e h.pos := by
  have hbits : (Float.ofModel (Float.Model.pack (.finite s m e h.pos))).toModel.toBits.toBitVec =
      packComponents Format.binary64 s (BitVec.ofNat 11 (e + 1075).toNat) (BitVec.ofNat 52 m) :=
    pack_of_isNormal h s
  show (Float.ofModel (Float.Model.pack (.finite s m e h.pos))).toModel.unpack = _
  generalize Float.ofModel (Float.Model.pack (.finite s m e h.pos)) = x at hbits ⊢
  obtain ⟨hlower, hupper, hleast, hgreatest⟩ := h
  have hsign : Sign.ofBitVec (signField x) = s := by
    rw [signField, hbits, ofBitVec_unpackSign]
  have hexponent : (exponentField x).toNat = (e + 1075).toNat := by
    rw [exponentField, hbits, unpackExponent_packComponents, BitVec.toNat_ofNat]
    omega
  have hfraction : (fractionField x).toNat = m - 2 ^ 52 := by
    rw [fractionField, hbits, unpackMantissa_packComponents, BitVec.toNat_ofNat]
    omega
  -- neither of the exponents that stand for something else
  have hall : exponentField x ≠ -1#11 := by
    intro heq
    rw [heq] at hexponent
    have hvalue : (-1#11 : BitVec 11).toNat = 2047 := by decide
    omega
  have hnone : exponentField x ≠ 0#11 := by
    intro heq
    rw [heq] at hexponent
    have hvalue : (0#11 : BitVec 11).toNat = 0 := by decide
    omega
  have hx := parts_unpack x
  generalize x.toModel.unpack = parts at hx ⊢
  cases hx with
  | notANumber hexponent' => exact absurd hexponent' hall
  | infinity _ _ hexponent' => exact absurd hexponent' hall
  | zero _ _ hexponent' => exact absurd hexponent' hnone
  | least _ _ _ _ hexponent' => exact absurd hexponent' hnone
  | normal _ _ _ _ hsign' hexponent' _ hfraction' =>
    obtain rfl := hsign'.symm.trans hsign
    exact finite_congr (by omega) (by omega)

theorem shiftRight_mul_two_pow (m k : Nat) :
    (⟨m * 2 ^ k, false, false⟩ : ExtendedMantissa) >>> k = ⟨m, false, false⟩ := by
  induction k generalizing m with
  | zero => rw [Nat.pow_zero, Nat.mul_one]; rfl
  | succ k ih =>
    have hdouble : m * 2 ^ (k + 1) = m * 2 * 2 ^ k := by
      rw [Nat.pow_succ, Nat.mul_comm (2 ^ k), Nat.mul_assoc]
    rw [hdouble]
    show ((⟨m * 2 * 2 ^ k, false, false⟩ : ExtendedMantissa) >>> k).shiftRightOne = _
    rw [ih]
    simp [ExtendedMantissa.shiftRightOne]

theorem shiftToTargetExponent_of_isNormal {m : Nat} {e : Int} (h : IsNormal m e) (k : Nat) :
    shiftToTargetExponent Format.binary64 (m * 2 ^ k) (e - k) .exact =
      (⟨m, false, false⟩, e) := by
  have hlog : (m * 2 ^ k).log2 = 52 + k := by
    have hpos : m * 2 ^ k ≠ 0 := Nat.pos_iff_ne_zero.mp (Nat.mul_pos h.pos (Nat.two_pow_pos k))
    rw [Nat.log2_eq_iff hpos, Nat.pow_add, Nat.add_right_comm, Nat.pow_add]
    exact ⟨Nat.mul_le_mul_right _ h.lower,
      Nat.mul_lt_mul_of_pos_right h.upper (Nat.two_pow_pos k)⟩
  have htarget : Format.binary64.targetExponent (totalExponent (m * 2 ^ k) (e - k)) = e := by
    have hleast := h.least
    unfold Format.targetExponent totalExponent
    rw [hlog]
    show max (((52 + k : Nat) : Int) + 1 + (e - k) - 53) (-1074) = e
    omega
  have hamount : (e - (e - (k : Int))).toNat = k := by omega
  rw [shiftToTargetExponent, htarget, shiftToExponent, hamount]
  show ((⟨m * 2 ^ k, false, false⟩ : ExtendedMantissa) >>> k, e - (k : Int) + k) = _
  rw [shiftRight_mul_two_pow, Int.sub_add_cancel]

/-- Zeros behind all its digits are cut off, and nothing is rounded. -/
theorem roundWithAccuracy_of_isNormal {m : Nat} {e : Int} (h : IsNormal m e) (s : Sign) (k : Nat) :
    roundWithAccuracy Format.binary64 s (m * 2 ^ k) (e - k) .exact = .finite s m e h.pos := by
  have hagain := shiftToTargetExponent_of_isNormal h 0
  rw [Nat.pow_zero, Nat.mul_one, Int.natCast_zero, Int.sub_zero] at hagain
  rw [roundWithAccuracy, shiftToTargetExponent_of_isNormal h k]
  show (let (em, e) := shiftToTargetExponent Format.binary64 m e .exact
    if h : em.mantissa = 0 then UnpackedFloat.zero s
    else .finite s em.mantissa e (Nat.pos_of_ne_zero h)) = _
  rw [hagain]
  exact dif_neg (Nat.pos_iff_ne_zero.mp h.pos)

/-- How far an integer is shifted to fill the mantissa. -/
def mantissaShift (n : Nat) : Nat := 52 - n.log2

theorem log2_le {n : Nat} (hpos : 0 < n) (hn : n < 2 ^ 53) : n.log2 ≤ 52 :=
  Nat.le_of_lt_succ ((Nat.log2_lt (Nat.pos_iff_ne_zero.mp hpos)).mpr hn)

theorem isNormal_mantissaShift {n : Nat} (hpos : 0 < n) (hn : n < 2 ^ 53) :
    IsNormal (n * 2 ^ mantissaShift n) (-mantissaShift n) := by
  have hlog := log2_le hpos hn
  have hbounds := (Nat.log2_eq_iff (Nat.pos_iff_ne_zero.mp hpos)).mp rfl
  have hsplit : (2 : Nat) ^ n.log2 * 2 ^ mantissaShift n = 2 ^ 52 := by
    rw [← Nat.pow_add, mantissaShift]
    congr 1
    omega
  refine ⟨?_, ?_, ?_, ?_⟩
  · rw [← hsplit]
    exact Nat.mul_le_mul_right _ hbounds.1
  · have hlt := Nat.mul_lt_mul_of_pos_right hbounds.2 (Nat.two_pow_pos (mantissaShift n))
    rw [Nat.pow_succ, Nat.mul_right_comm, hsplit] at hlt
    exact hlt
  · unfold mantissaShift
    omega
  · unfold mantissaShift
    omega

/-- An integer with a sign, in the form of a double. -/
def unpackedInteger (s : Sign) {n : Nat} (hpos : 0 < n) (hn : n < 2 ^ 53) : UnpackedFloat :=
  .finite s (n * 2 ^ mantissaShift n) (-mantissaShift n) (isNormal_mantissaShift hpos hn).pos

theorem unpack_pack_unpackedInteger (s : Sign) {n : Nat} (hpos : 0 < n) (hn : n < 2 ^ 53) :
    (Float.Model.pack (unpackedInteger s hpos hn)).unpack = unpackedInteger s hpos hn :=
  unpack_pack_of_isNormal (isNormal_mantissaShift hpos hn) s

/-- Converting an integer rounds nothing. -/
theorem unpackedOfNat_eq {n : Nat} (hpos : 0 < n) (hn : n < 2 ^ 53) :
    UnpackedFloat.ofNat Format.binary64 n = unpackedInteger .positive hpos hn := by
  have hlog := log2_le hpos hn
  have hcompare : compare (n : Int) 0 = .gt := by
    rw [Int.compare_eq_gt]
    omega
  have htarget : Format.binary64.targetExponent (totalExponent n 0) = -mantissaShift n := by
    unfold Format.targetExponent totalExponent mantissaShift
    show max ((n.log2 : Int) + 1 + 0 - 53) (-1074) = _
    omega
  have hamount : ((0 : Int) - -(mantissaShift n : Int)).toNat = mantissaShift n := by omega
  rw [UnpackedFloat.ofNat, UnpackedFloat.ofInt, UnpackedFloat.normalize, hcompare]
  show UnpackedFloat.round Format.binary64 .positive n 0 = _
  unfold UnpackedFloat.round
  rw [htarget]
  simp only [decreaseExponent, hamount, Nat.shiftLeft_eq]
  have hround := roundWithAccuracy_of_isNormal (isNormal_mantissaShift hpos hn) .positive 0
  rw [Nat.pow_zero, Nat.mul_one, Int.natCast_zero, Int.sub_zero] at hround
  rw [Int.zero_sub]
  exact hround

/-- A positive integer below `2 ^ 53` is a double as it stands. -/
theorem unpack_ofNat {n : Nat} (hpos : 0 < n) (hn : n < 2 ^ 53) :
    (Float.ofNat n).toModel.unpack = unpackedInteger .positive hpos hn := by
  -- the conversion multiplies by the zeroth power of ten
  have hofNat : Float.ofNat n = n.toUInt64.toFloat * Float.ofBits 0x3FF0000000000000 := by
    show Float.ofScientific n false 0 = _
    unfold Float.ofScientific
    rw [dif_pos ⟨hn, by decide⟩]
    rfl
  have hword : n.toUInt64.toNat = n := Nat.mod_eq_of_lt (Nat.lt_trans hn (by decide))
  have hfloat : n.toUInt64.toFloat.toModel.unpack = unpackedInteger .positive hpos hn := by
    show (Float.Model.pack (UnpackedFloat.ofNat Format.binary64 n.toUInt64.toNat)).unpack = _
    rw [hword, unpackedOfNat_eq hpos hn, unpack_pack_unpackedInteger]
  have hone : (Float.ofBits 0x3FF0000000000000).toModel.unpack =
      .finite .positive (2 ^ 52) (-52) (by decide) := rfl
  have hproduct : UnpackedFloat.mul Format.binary64 (unpackedInteger .positive hpos hn)
      (.finite .positive (2 ^ 52) (-52) (by decide)) = unpackedInteger .positive hpos hn :=
    roundWithAccuracy_of_isNormal (isNormal_mantissaShift hpos hn) .positive 52
  rw [hofNat]
  show (Float.Model.pack (UnpackedFloat.mul Format.binary64 _ _)).unpack = _
  rw [hfloat, hone, hproduct, unpack_pack_unpackedInteger]

theorem unpack_neg_ofNat {n : Nat} (hpos : 0 < n) (hn : n < 2 ^ 53) :
    (Float.neg (Float.ofNat n)).toModel.unpack = unpackedInteger .negative hpos hn := by
  show (Float.Model.pack (Float.ofNat n).toModel.unpack.neg).unpack = _
  rw [unpack_ofNat hpos hn]
  exact unpack_pack_unpackedInteger .negative hpos hn

/-- The magnitude of a double that is an integer. -/
theorem magnitude_of_integer? {x : Float} {s : Sign} {m : Nat} {e : Int} {hm : 0 < m}
    (hx : x.toModel.unpack = .finite s m e hm) {n : Int} (h : integer? x = some n) :
    ∃ k : Nat, n = (match s with | .positive => (k : Int) | .negative => -(k : Int)) ∧
      (0 ≤ e ∧ k = m * 2 ^ e.toNat ∨ e < 0 ∧ m = k * 2 ^ (-e).toNat) := by
  unfold integer? at h
  rw [hx] at h
  dsimp only at h
  by_cases he : 0 ≤ e
  · refine ⟨m * 2 ^ e.toNat, ?_, .inl ⟨he, rfl⟩⟩
    rw [if_pos he] at h
    cases s <;> exact (Option.some.inj h).symm
  · rw [if_neg he] at h
    by_cases hdvd : m % Nat.pow 2 (-e).toNat = 0
    · rw [if_pos hdvd] at h
      refine ⟨m / 2 ^ (-e).toNat, ?_, .inr ⟨by omega, ?_⟩⟩
      · cases s <;> exact (Option.some.inj h).symm
      · exact (Nat.div_mul_cancel (Nat.dvd_of_mod_eq_zero hdvd)).symm
    · rw [if_neg hdvd] at h
      cases s <;> cases h

/-- A double is determined by the safe integer that it is. -/
theorem eq_mantissaShift_of_magnitude {m k : Nat} {e : Int} (hm : 0 < m) (hupper : m < 2 ^ 53)
    (hnormal : 2 ^ 52 ≤ m ∨ e = -1074)
    (hk : 0 ≤ e ∧ k = m * 2 ^ e.toNat ∨ e < 0 ∧ m = k * 2 ^ (-e).toNat) (hsafe : k < 2 ^ 53) :
    0 < k ∧ m = k * 2 ^ mantissaShift k ∧ e = -mantissaShift k := by
  rcases hk with ⟨he, rfl⟩ | ⟨he, rfl⟩
  · -- an integral exponent other than zero makes the number too large
    have hlower : 2 ^ 52 ≤ m := by omega
    have hzero : e.toNat = 0 := by
      refine Nat.eq_zero_of_not_pos fun hpos => ?_
      have htwo : 2 ^ 1 ≤ 2 ^ e.toNat := Nat.pow_le_pow_right (by decide) hpos
      have hbig := Nat.mul_le_mul hlower htwo
      omega
    have hlog : m.log2 = 52 := (Nat.log2_eq_iff (by omega)).mpr ⟨hlower, hupper⟩
    rw [hzero, Nat.pow_zero, Nat.mul_one, mantissaShift, hlog]
    exact ⟨hm, (Nat.mul_one m).symm, by omega⟩
  · obtain ⟨j, hj⟩ : ∃ j : Nat, e = -(j : Int) := ⟨(-e).toNat, by omega⟩
    have hjnat : (-e).toNat = j := by omega
    rw [hjnat] at hm hupper hnormal ⊢
    have hpos : 0 < k := Nat.pos_of_mul_pos_right hm
    have hjle : j ≤ 52 := by
      refine Nat.le_of_not_lt fun hlt => ?_
      have hpow : 2 ^ 53 ≤ 2 ^ j := Nat.pow_le_pow_right (by decide) hlt
      have hbig := Nat.mul_le_mul (Nat.succ_le_of_lt hpos) hpow
      omega
    have hlower : 2 ^ 52 ≤ k * 2 ^ j := by omega
    -- the mantissa is shifted to 53 bits, so the shift is what is missing from `k`
    have hlog : k.log2 = 52 - j := by
      rw [Nat.log2_eq_iff (Nat.pos_iff_ne_zero.mp hpos)]
      have hsplit : (2 : Nat) ^ (52 - j) * 2 ^ j = 2 ^ 52 := by
        rw [← Nat.pow_add]
        congr 1
        omega
      refine ⟨?_, ?_⟩
      · refine Nat.le_of_mul_le_mul_right ?_ (Nat.two_pow_pos j)
        rw [hsplit]
        exact hlower
      · refine Nat.lt_of_mul_lt_mul_right (a := 2 ^ j) ?_
        rw [Nat.pow_succ, Nat.mul_right_comm, hsplit]
        exact hupper
    have hshift : mantissaShift k = j := by
      unfold mantissaShift
      omega
    rw [hshift]
    exact ⟨hpos, rfl, hj⟩

theorem isFinite_of_integer? {x : Float} {n : Int} (h : integer? x = some n) :
    x.isFinite = true := by
  show x.toModel.unpack.isFinite = true
  unfold integer? at h
  cases hx : x.toModel.unpack with
  | zero s => rfl
  | finite s m e hm => rfl
  | notANumber =>
    rw [hx] at h
    cases h
  | infinity s =>
    rw [hx] at h
    cases h

/-- A double that is a safe integer is the double of that integer, but for the sign of zero. -/
theorem beq_ofInt_of_integer? {x : Float} {n : Int} (h : integer? x = some n)
    (hsafe : n.natAbs ≤ maxSafeInteger) : (x == Float.ofInt n) = true := by
  cases hx : x.toModel.unpack with
  | notANumber =>
    rw [integer?, hx] at h
    cases h
  | infinity s =>
    rw [integer?, hx] at h
    cases h
  | zero s =>
    rw [integer?, hx] at h
    obtain rfl := Option.some.inj h
    have hzero : (Float.ofInt 0).toModel.unpack = .zero .positive := rfl
    rw [beq_iff_compare, hx, hzero]
    rfl
  | finite s m e hm =>
    obtain ⟨k, hn, hk⟩ := magnitude_of_integer? hx h
    obtain ⟨hupper, -, hnormal⟩ := bounds_of_unpack hx
    have hlt : k < 2 ^ 53 := by
      have habs : n.natAbs = k := by
        rw [hn]
        cases s <;> simp
      rw [habs] at hsafe
      exact Nat.lt_of_le_of_lt hsafe (by decide)
    obtain ⟨hpos, rfl, rfl⟩ := eq_mantissaShift_of_magnitude hm hupper hnormal hk hlt
    have hsame : x = Float.ofInt n := by
      refine eq_of_unpack_eq (hx.trans ?_)
      cases s with
      | positive =>
        rw [hn]
        exact (unpack_ofNat hpos hlt).symm
      | negative =>
        obtain ⟨j, rfl⟩ : ∃ j, k = j + 1 := ⟨k - 1, by omega⟩
        rw [hn]
        exact (unpack_neg_ofNat hpos hlt).symm
    rw [← hsame]
    exact beq_self_of_isFinite (isFinite_of_integer? h)

end Decimal

/-- What a double is in JSON. -/
theorem jsonOfFloat_cases (x : Float) :
    (∃ n, Decimal.integer? x = some n ∧ n.natAbs ≤ maxSafeInteger ∧
      jsonOfFloat x = .number (.integer n)) ∨
    (x.isFinite = true ∧ jsonOfFloat x = .number (.double x)) ∨
    (x.isFinite = false ∧ jsonOfFloat x = .null) := by
  cases hint : Decimal.integer? x with
  | some n =>
    by_cases hsafe : n.natAbs ≤ maxSafeInteger
    · exact .inl ⟨n, rfl, hsafe, by simp [jsonOfFloat, hint, hsafe, Json.ofInt]⟩
    · exact .inr (.inl ⟨Decimal.isFinite_of_integer? hint, by simp [jsonOfFloat, hint, hsafe]⟩)
  | none =>
    cases hx : x.isFinite with
    | true => exact .inr (.inl ⟨rfl, by simp [jsonOfFloat, hint, hx]⟩)
    | false => exact .inr (.inr ⟨rfl, by simp [jsonOfFloat, hint, hx]⟩)

/-- The number in the JSON of a double is that double, but for the sign of zero. -/
theorem beq_toFloat_of_jsonOfFloat {x : Float} {n : Json.Number} (h : jsonOfFloat x = .number n) :
    (x == n.toFloat) = true := by
  rcases jsonOfFloat_cases x with ⟨i, hi, hsafe, hx⟩ | ⟨hfinite, hx⟩ | ⟨-, hx⟩
  · obtain rfl := Json.number.inj (hx.symm.trans h)
    exact Decimal.beq_ofInt_of_integer? hi hsafe
  · obtain rfl := Json.number.inj (hx.symm.trans h)
    exact Decimal.beq_self_of_isFinite hfinite
  · cases hx.symm.trans h

/-- A finite double has a number in JSON. -/
theorem jsonOfFloat_of_isFinite {x : Float} (hx : x.isFinite = true) :
    ∃ n : Json.Number, jsonOfFloat x = .number n ∧ (x == n.toFloat) = true := by
  rcases jsonOfFloat_cases x with ⟨n, -, -, hn⟩ | ⟨-, hn⟩ | ⟨hinfinite, -⟩
  · exact ⟨_, hn, beq_toFloat_of_jsonOfFloat hn⟩
  · exact ⟨_, hn, beq_toFloat_of_jsonOfFloat hn⟩
  · rw [hx] at hinfinite
    cases hinfinite

/-- The JSON of a double, read back as a double, gives the same JSON. -/
theorem jsonOfFloat_toFloat {x : Float} {n : Json.Number} (h : jsonOfFloat x = .number n) :
    jsonOfFloat n.toFloat = .number n :=
  (jsonOfFloat_of_beq (beq_toFloat_of_jsonOfFloat h)).symm.trans h

end DataBinding
