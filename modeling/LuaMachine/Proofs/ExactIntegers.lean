import LuaMachine.Proofs.RawKeys

/-!
Integers as numbers. An integer up to `2 ^ 53` is a number of its own, so as a key it is that
position; the next integer is not a number.
-/

namespace LuaMachine

namespace Number

open Float.Model Float.Model.UnpackedFloat

/-! ### Integers in the format of floats -/

/-- Shifting out zeros loses nothing. -/
theorem shiftRight_exact (m k : Nat) :
    (⟨m * 2 ^ k, false, false⟩ : ExtendedMantissa) >>> k = ⟨m, false, false⟩ := by
  change k.repeat ExtendedMantissa.shiftRightOne ⟨m * 2 ^ k, false, false⟩ = _
  induction k generalizing m with
  | zero => simp [Nat.repeat]
  | succ k ih =>
    rw [Nat.repeat, Nat.pow_succ', ← Nat.mul_assoc, ih]
    simp [ExtendedMantissa.shiftRightOne]

/-- The position of the leading bit of a mantissa of 53 bits. -/
theorem log2_eq {m : Nat} (low : 2 ^ 52 ≤ m) (high : m < 2 ^ 53) : m.log2 = 52 := by
  have hne : m ≠ 0 := by omega
  have h1 : 52 ≤ m.log2 := (Nat.le_log2 hne).2 low
  have h2 : m.log2 < 53 := (Nat.log2_lt hne).2 high
  omega

/-- A number with `k` bits too many is rounded to an exponent greater by `k`. -/
theorem targetExponent_eq {m : Nat} {e : Int} {k : Nat} (low : 2 ^ (52 + k) ≤ m)
    (high : m < 2 ^ (53 + k)) (he : -1074 ≤ e + k) :
    Format.binary64.targetExponent (totalExponent m e) = e + k := by
  have hne : m ≠ 0 := (Nat.lt_of_lt_of_le (Nat.two_pow_pos _) low).ne'
  have h1 : 52 + k ≤ m.log2 := (Nat.le_log2 hne).2 low
  have h2 : m.log2 < 53 + k := (Nat.log2_lt hne).2 high
  have hmin : Format.binary64.minExponent = -1074 := by decide
  have hbits : Format.binary64.mantissaBits = 53 := by decide
  rw [Format.targetExponent, totalExponent, hmin, hbits]
  omega

/-- Rounding drops zeros behind 53 bits and nothing else. -/
theorem roundWithAccuracy_exact {s : Sign} {m k : Nat} {e : Int} (low : 2 ^ 52 ≤ m) (high : m < 2 ^ 53)
    (he : -1074 ≤ e + k) :
    roundWithAccuracy .binary64 s (m * 2 ^ k) e .exact = .finite s m (e + k) (by omega) := by
  have hlow : 2 ^ (52 + k) ≤ m * 2 ^ k := by rw [Nat.pow_add]; exact Nat.mul_le_mul_right _ low
  have hhigh : m * 2 ^ k < 2 ^ (53 + k) := by
    rw [Nat.pow_add]; exact Nat.mul_lt_mul_of_pos_right high (Nat.two_pow_pos k)
  have hfirst : shiftToTargetExponent .binary64 (m * 2 ^ k) e .exact =
      (⟨m, false, false⟩, e + k) := by
    rw [shiftToTargetExponent, targetExponent_eq hlow hhigh he, shiftToExponent]
    have : (e + k - e).toNat = k := by omega
    simp only [this, ExtendedMantissa.ofMantissaAndAccuracy, shiftRight_exact]
  have hsecond : shiftToTargetExponent .binary64 m (e + k) .exact = (⟨m, false, false⟩, e + k) := by
    have := targetExponent_eq (m := m) (k := 0) low high (e := e + k) (by omega)
    rw [shiftToTargetExponent, this, shiftToExponent]
    have h0 := shiftRight_exact m 0
    rw [Nat.pow_zero, Nat.mul_one] at h0
    simp [ExtendedMantissa.ofMantissaAndAccuracy, h0]
  have hm : m ≠ 0 := by omega
  simp only [roundWithAccuracy, hfirst, ExtendedMantissa.roundedMantissa, ExtendedMantissa.accuracy,
    Accuracy.roundToNearestEven, hsecond, hm, dite_false]

theorem unpackSign_packComponents {spec : Float.Model.Format} {sign : Sign}
    {exponent : BitVec spec.exponentBits} {mantissa : BitVec spec.mantissaBitsWithoutImplicit} :
    unpackSign (packComponents spec sign exponent mantissa) = sign.toBitVec := by
  refine BitVec.eq_of_getLsbD_eq fun i hi => ?_
  obtain rfl : i = 0 := Nat.lt_one_iff.1 hi
  simp [unpackSign, packComponents, BitVec.getLsbD_append, BitVec.getElem_append]

/-- A number with a mantissa of 53 bits is packed without loss. -/
theorem unpack_pack {s : Sign} {m : Nat} {e : Int} (low : 2 ^ 52 ≤ m) (high : m < 2 ^ 53) (h : 0 < m)
    (elow : -1074 ≤ e) (ehigh : e < 971) :
    UnpackedFloat.unpack .binary64 (UnpackedFloat.pack .binary64 (.finite s m e h)) =
      .finite s m e h := by
  have hlog := log2_eq low high
  have hbits : Format.binary64.mantissaBits = 53 := by decide
  have hbias : Format.binary64.exponentBias = 1023 := by decide
  have hpack : UnpackedFloat.pack .binary64 (.finite s m e h) =
      packComponents .binary64 s (BitVec.ofNat _ (e + 1075).toNat) (BitVec.ofNat _ m) := by
    have hexponent : (e + (Format.binary64.exponentBias : Nat) +
        (Format.binary64.mantissaBitsWithoutImplicit : Nat)).toNat = (e + 1075).toNat := by
      rw [hbias]
      change (e + 1023 + 52).toNat = _
      omega
    simp only [UnpackedFloat.pack, hlog, hbits, hexponent]
    rw [if_neg (by omega), if_pos trivial]
  have hne : ¬ (BitVec.ofNat 11 (e + 1075).toNat = -1#11) := by
    rw [← BitVec.toNat_inj, BitVec.toNat_ofNat]
    simp
    omega
  have hne0 : ¬ (BitVec.ofNat 11 (e + 1075).toNat = 0#11) := by
    rw [← BitVec.toNat_inj, BitVec.toNat_ofNat]
    simp
    omega
  have hm : (1#1 ++ BitVec.ofNat 52 m).toNat = m := by
    rw [BitVec.toNat_append, ← Nat.shiftLeft_add_eq_or_of_lt (BitVec.isLt _),
      BitVec.toNat_ofNat, BitVec.toNat_ofNat, Nat.shiftLeft_eq]
    omega
  rw [hpack]
  simp only [UnpackedFloat.unpack, unpackMantissa_packComponents, unpackExponent_packComponents,
    unpackSign_packComponents, hne, hne0, if_false, hm]
  congr 1
  · exact Sign.ofBitVec_toBitVec s
  · rw [BitVec.toNat_ofNat, hbias]
    omega

/-- The position of the leading bit of an integer that fills 53 bits with `k` zeros behind it. -/
theorem log2_scaled {n k : Nat} (low : 2 ^ 52 ≤ n * 2 ^ k) (high : n * 2 ^ k < 2 ^ 53) (hk : k ≤ 52) (j : Nat) :
    (n * 2 ^ j).log2 = 52 - k + j := by
  have hlow : 2 ^ (52 - k) ≤ n := by
    refine Nat.le_of_mul_le_mul_right (c := 2 ^ k) ?_ (Nat.two_pow_pos k)
    rw [← Nat.pow_add, Nat.sub_add_cancel hk]
    exact low
  have hhigh : n < 2 ^ (52 - k + 1) := by
    refine Nat.lt_of_mul_lt_mul_right (a := 2 ^ k) ?_
    rw [← Nat.pow_add, show 52 - k + 1 + k = 53 by omega]
    exact high
  have hn : 0 < n := (Nat.two_pow_pos _).trans_le hlow
  refine (Nat.log2_eq_iff (Nat.mul_pos hn (Nat.two_pow_pos j)).ne').2 ⟨?_, ?_⟩
  · rw [Nat.pow_add]
    exact Nat.mul_le_mul_right _ hlow
  · rw [Nat.add_right_comm, Nat.pow_add]
    exact Nat.mul_lt_mul_of_pos_right hhigh (Nat.two_pow_pos j)

/-- An integer is rounded to its mantissa of 53 bits, whatever zeros it comes with. -/
theorem round_scaled {s : Sign} {n k j : Nat} (low : 2 ^ 52 ≤ n * 2 ^ k) (high : n * 2 ^ k < 2 ^ 53)
    (hk : k ≤ 52) (hn : 0 < n * 2 ^ k) :
    UnpackedFloat.round .binary64 s (n * 2 ^ j) (-j) = .finite s (n * 2 ^ k) (-k) hn := by
  have hmin : Format.binary64.minExponent = -1074 := by decide
  have hbits : Format.binary64.mantissaBits = 53 := by decide
  have htarget : Format.binary64.targetExponent (totalExponent (n * 2 ^ j) (-j)) = -k := by
    rw [Format.targetExponent, totalExponent, hmin, hbits, log2_scaled low high hk]
    omega
  simp only [UnpackedFloat.round, htarget, decreaseExponent, Nat.shiftLeft_eq]
  obtain hle | hlt := Nat.le_total j k
  · have hshift : (-(j : Int) - -k).toNat = k - j := by omega
    have hmantissa : n * 2 ^ j * 2 ^ (k - j) = n * 2 ^ k := by
      rw [Nat.mul_assoc, ← Nat.pow_add, Nat.add_sub_cancel' hle]
    have hexponent : -(j : Int) - (k - j : Nat) = -k := by omega
    have := roundWithAccuracy_exact (s := s) (m := n * 2 ^ k) (k := 0) (e := -k) low high (by omega)
    rw [hshift, hmantissa, hexponent]
    simpa using this
  · have hshift : (-(j : Int) - -k).toNat = 0 := by omega
    have hmantissa : n * 2 ^ j = n * 2 ^ k * 2 ^ (j - k) := by
      rw [Nat.mul_assoc, ← Nat.pow_add, Nat.add_sub_cancel' hlt]
    have := roundWithAccuracy_exact (s := s) (m := n * 2 ^ k) (k := j - k) (e := -j) low high (by omega)
    rw [hshift, Nat.pow_zero, Nat.mul_one, hmantissa, Int.natCast_zero, Int.sub_zero, this]
    congr 1
    omega

/-- The float nearest to an integer, as its mantissa of 53 bits and the exponent. -/
theorem ofNat_eq {n k : Nat} (low : 2 ^ 52 ≤ n * 2 ^ k) (high : n * 2 ^ k < 2 ^ 53) (hn : 0 < n)
    (hk : k ≤ 52) :
    UnpackedFloat.ofNat .binary64 n = .finite .positive (n * 2 ^ k) (-k) (by omega) := by
  have hcompare : compare (n : Int) 0 = .gt := by
    rw [compare_gt_iff_gt]
    omega
  have hround := round_scaled (s := .positive) (j := 0) low high hk (by omega)
  simp only [UnpackedFloat.ofNat, UnpackedFloat.ofInt, UnpackedFloat.normalize, hcompare, Int.toNat_natCast]
  simpa using hround

/-- A smaller integer is a mantissa of 53 bits with zeros at its end. -/
theorem exists_scaled {n : Nat} (hn : 0 < n) (hlt : n < 2 ^ 53) :
    ∃ k, k ≤ 52 ∧ 2 ^ 52 ≤ n * 2 ^ k ∧ n * 2 ^ k < 2 ^ 53 := by
  have hn0 : n ≠ 0 := hn.ne'
  have hlog : n.log2 < 53 := (Nat.log2_lt hn0).2 hlt
  refine ⟨52 - n.log2, Nat.sub_le .., ?_, ?_⟩
  · calc 2 ^ 52 = 2 ^ n.log2 * 2 ^ (52 - n.log2) := by rw [← Nat.pow_add]; congr 1; omega
      _ ≤ n * 2 ^ (52 - n.log2) := Nat.mul_le_mul_right _ (Nat.log2_self_le hn0)
  · calc n * 2 ^ (52 - n.log2) < 2 ^ (n.log2 + 1) * 2 ^ (52 - n.log2) :=
          Nat.mul_lt_mul_of_pos_right Nat.lt_log2_self (Nat.two_pow_pos _)
      _ = 2 ^ 53 := by rw [← Nat.pow_add]; congr 1; omega

theorem unpack_ofUInt64 {n k : Nat} (low : 2 ^ 52 ≤ n * 2 ^ k) (high : n * 2 ^ k < 2 ^ 53)
    (hn : 0 < n) (hk : k ≤ 52) {i : UInt64} (hi : i.toNat = n) :
    (Float.Model.ofUInt64 i).unpack = .finite .positive (n * 2 ^ k) (-k) (by omega) := by
  change UnpackedFloat.unpack .binary64 (UInt64.ofBitVec (UnpackedFloat.pack .binary64
    (UnpackedFloat.ofNat .binary64 i.toNat))).toBitVec = _
  rw [hi, ofNat_eq low high hn hk]
  exact unpack_pack low high _ (by omega) (by omega)

theorem toUInt64_toFloat {i : UInt64} (hi : 0 < i.toNat) (hlt : i.toNat < 2 ^ 53) :
    i.toFloat.toUInt64 = i := by
  obtain ⟨k, hk, low, high⟩ := exists_scaled hi hlt
  change UnpackedFloat.toUInt64 (Float.Model.ofUInt64 i).unpack = i
  rw [unpack_ofUInt64 low high hi hk rfl]
  have h1 : ((-(k : Int) - 0).toNat) = 0 := by omega
  have h2 : ((0 : Int) - (-(k : Int) - (0 : Nat))).toNat = k := by omega
  have : roundToInt .positive (i.toNat * 2 ^ k) (-k) = i.toNat := by
    simp only [roundToInt, decreaseExponent, h1, Nat.shiftLeft_zero, shiftToExponent, h2,
      ExtendedMantissa.ofMantissaAndAccuracy, shiftRight_exact, Sign.apply]
  simp only [UnpackedFloat.toUInt64, UnpackedFloat.toInt, this]
  simp

/-- A product with one is exact. -/
theorem toFloat_mul_one {i : UInt64} (hi : 0 < i.toNat) (hlt : i.toNat < 2 ^ 53) :
    i.toFloat * Float.ofBits 0x3FF0000000000000 = i.toFloat := by
  obtain ⟨k, hk, low, high⟩ := exists_scaled hi hlt
  have hone : (Float.ofBits 0x3FF0000000000000).toModel.unpack =
      .finite .positive (2 ^ 52) (-52) (by decide) := by rfl
  change Float.ofModel (Float.Model.pack (UnpackedFloat.mul .binary64
      (Float.Model.ofUInt64 i).unpack (Float.ofBits 0x3FF0000000000000).toModel.unpack)) =
    Float.ofModel (Float.Model.pack (UnpackedFloat.ofNat .binary64 i.toNat))
  rw [hone, unpack_ofUInt64 low high hi hk rfl, ofNat_eq low high hi hk, UnpackedFloat.mul]
  have := roundWithAccuracy_exact (s := .positive) (e := -k + -52) low high (k := 52) (by omega)
  rw [show Sign.positive * Sign.positive = .positive from rfl, this]
  congr 3
  omega

theorem ofNat_eq_toFloat {n : Nat} (hn : 0 < n) (hlt : n < 2 ^ 53) :
    Float.ofNat n = n.toUInt64.toFloat := by
  have hi : n.toUInt64.toNat = n := by
    rw [UInt64.toNat_ofNat']
    omega
  have : Float.ofNat n = n.toUInt64.toFloat * Float.ofBits 0x3FF0000000000000 := by
    change Float.ofScientific n false 0 = _
    rw [Float.ofScientific, dif_pos ⟨hlt, by decide⟩]
    rfl
  rw [this, toFloat_mul_one (by rwa [hi]) (by rwa [hi])]

/-! ### Positions -/

theorem position?_toFloat {i : UInt64} (hi : 0 < i.toNat) (hlt : i.toNat < 2 ^ 53) :
    position? i.toFloat = some i.toNat := by
  have hback := toUInt64_toFloat hi hlt
  have hproper : i.toFloat ≠ .nan := by
    intro h
    rw [h] at hback
    rw [← hback] at hi
    exact absurd hi (by decide)
  have hlow : (1 : UInt64) ≤ i := UInt64.le_iff_toNat_le.2 hi
  have hhigh : i < 9223372036854775808 := UInt64.lt_iff_toNat_lt.2 (hlt.trans (by decide))
  have hsame : (i.toFloat == i.toFloat) = true := Float.beq_self_iff.2 hproper
  simp only [position?, hback, hlow, hhigh, hsame, decide_true, Bool.and_true, if_true]

/-- An integer up to `2 ^ 53` is a position. -/
theorem position?_ofNat {n : Nat} (hn : 0 < n) (hle : n ≤ 2 ^ 53) :
    position? (.ofNat n) = some n := by
  obtain hlt | rfl := hle.lt_or_eq
  · have hi : n.toUInt64.toNat = n := by
      rw [UInt64.toNat_ofNat']
      omega
    rw [ofNat_eq_toFloat hn hlt, position?_toFloat (by rwa [hi]) (by rwa [hi]), hi]
  · decide

/-- The integer behind `2 ^ 53` is no number, and so no position. -/
theorem position?_ne {x : Float} : position? x ≠ some (2 ^ 53 + 1) := by
  intro h
  obtain ⟨-, -, hsame, heq⟩ := position?_eq_some h
  have hi : x.toUInt64 = 9007199254740993 := UInt64.toNat_inj.1 heq
  rw [hi] at hsame
  obtain ⟨-, -, heq | ⟨hzero, -⟩ | ⟨hzero, -⟩⟩ := Float.beq_iff_ne_nan_and_eq.1 hsame
  · rw [← heq] at hi
    exact absurd hi (by decide)
  · exact absurd hzero (by decide)
  · exact absurd hzero (by decide)

end Number

namespace Value

theorem key_of_position {x : Float} {i : Nat} (h : Number.position? x = some i) :
    (number x).key = .ok (.position i) := by
  have hproper : x ≠ .nan := by
    rintro rfl
    exact absurd h (by decide +revert)
  rw [key_number hproper, Key.ofNumber, h]

theorem key_ofNat {n : Nat} (hn : 0 < n) (hle : n ≤ 2 ^ 53) : (ofNat n).key = .ok (.position n) :=
  key_of_position (Number.position?_ofNat hn hle)

theorem key_ofInt {n : Nat} (hn : 0 < n) (hle : n ≤ 2 ^ 53) :
    (ofInt n).key = .ok (.position n) :=
  key_of_position (Number.position?_ofNat hn hle)

theorem key_ne {v : Value} : v.key ≠ .ok (.position (2 ^ 53 + 1)) := by
  intro h
  cases v with
  | number x =>
    obtain ⟨-, hx⟩ := key_of_number h
    obtain ⟨i, hi, heq⟩ | ⟨-, heq⟩ | ⟨-, heq⟩ := Key.ofNumber_cases x
    · rw [heq] at hx
      exact Number.position?_ne (Key.position.inj hx ▸ hi)
    all_goals
      rw [heq] at hx
      cases hx
  | _ => cases h

end Value

end LuaMachine
