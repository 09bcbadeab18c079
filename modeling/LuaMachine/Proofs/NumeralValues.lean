import LuaMachine.Proofs.IntegerArithmetic
import LuaMachine.Proofs.Numerals
import Mathlib.Data.Nat.Digits.Defs

/-!
Values of hexadecimal numerals. The digits are put together by products and sums that are exact below `2 ^ 53`, so
a numeral of thirteen digits at most denotes its integer.
-/

namespace LuaMachine.Number

open Float.Model Float.Model.UnpackedFloat

/-! ### Products and negations of integers -/

variable {u v : UnpackedFloat} {i j : Int}

theorem natAbs_apply (s : Sign) (n : Nat) : (s.apply (n : Int)).natAbs = n := by
  cases s <;> simp [Sign.apply]

theorem apply_mul_apply (s s' : Sign) (n n' : Nat) :
    s.apply (n : Int) * s'.apply (n' : Int) = (s * s').apply ((n * n' : Nat) : Int) := by
  cases s <;> cases s' <;> simp [Sign.apply]

/-- A product of integers other than zero is exact. -/
theorem IsInt.mul (hu : IsInt u i) (hv : IsInt v j) (hi : i ≠ 0) (hj : j ≠ 0) (hilt : i.natAbs < 2 ^ 53)
    (hjlt : j.natAbs < 2 ^ 53) (hprod : (i * j).natAbs < 2 ^ 53) :
    UnpackedFloat.mul .binary64 u v = unpacked (i * j) := by
  obtain ⟨s, n, k, hn, rfl, -, low, high, heq⟩ := exists_unpacked hi hilt
  obtain ⟨s', n', k', hn', rfl, -, low', high', heq'⟩ := exists_unpacked hj hjlt
  have hpos : 0 < n * n' := Nat.mul_pos (Nat.pos_of_mul_pos_right hn) (Nat.pos_of_mul_pos_right hn')
  rw [apply_mul_apply, natAbs_apply] at hprod
  obtain ⟨l, hl, hlow, hhigh⟩ := exists_scaled hpos hprod
  have hmantissa : n * 2 ^ k * (n' * 2 ^ k') = n * n' * 2 ^ (k + k') := by
    rw [Nat.pow_add]
    ring
  have hle : l ≤ k + k' := by
    by_contra hlt
    have hpow : 2 ^ (k + k') ≤ 2 ^ l := Nat.pow_le_pow_right (by decide) (by omega)
    have : 2 ^ 53 ≤ n * n' * 2 ^ l := by
      calc 2 ^ 53 ≤ 2 ^ 52 * 2 ^ 52 := by decide
        _ ≤ n * 2 ^ k * (n' * 2 ^ k') := Nat.mul_le_mul low low'
        _ = n * n' * 2 ^ (k + k') := hmantissa
        _ ≤ n * n' * 2 ^ l := Nat.mul_le_mul_left _ hpow
    omega
  have hround := roundWithAccuracy_exact (s := s * s') (k := k + k' - l) (e := -k + -k') hlow hhigh (by omega)
  have hscaled : n * n' * 2 ^ l * 2 ^ (k + k' - l) = n * 2 ^ k * (n' * 2 ^ k') := by
    rw [Nat.mul_assoc, ← Nat.pow_add, Nat.add_sub_cancel' hle, hmantissa]
  have hproduct := normalize_apply (s := s * s') hlow hhigh hl (Nat.mul_pos hpos (Nat.two_pow_pos l)) 0
  rw [hu.eq_unpacked hi, hv.eq_unpacked hj, heq, heq', UnpackedFloat.mul, ← hscaled, hround, apply_mul_apply]
  have hexponent : -(k : Int) + -k' + (k + k' - l : Nat) = -l := by omega
  simp only [hexponent]
  simpa [unpacked, UnpackedFloat.ofInt] using hproduct.symm

variable {x y : Float}

theorem mul_eq (hx : IsInt x.toModel.unpack i) (hy : IsInt y.toModel.unpack j) (hi : i ≠ 0) (hj : j ≠ 0)
    (hilt : i.natAbs < 2 ^ 53) (hjlt : j.natAbs < 2 ^ 53) (hprod : (i * j).natAbs < 2 ^ 53) :
    x * y = Float.ofInt (i * j) := by
  rw [ofInt_eq hprod, ← hx.mul hy hi hj hilt hjlt hprod]
  rfl

/-- The negation of an integer other than zero. -/
theorem neg_ofInt (hi : i ≠ 0) (hilt : i.natAbs < 2 ^ 53) : -Float.ofInt i = Float.ofInt (-i) := by
  rw [ofInt_eq hilt, ofInt_eq (by rwa [Int.natAbs_neg]), unpacked_neg hi hilt]
  change Float.ofModel (Float.Model.pack (Float.Model.pack (unpacked i)).unpack.neg) = _
  rw [unpack_pack_unpacked hilt]

theorem toNat_toUInt64 {n : Nat} (hlt : n < 2 ^ 53) : n.toUInt64.toNat = n := by
  rw [UInt64.toNat_ofNat']
  omega

theorem toFloat_toUInt64 {n : Nat} (hlt : n < 2 ^ 53) : n.toUInt64.toFloat = Float.ofNat n := by
  obtain rfl | hn := Nat.eq_zero_or_pos n
  · decide
  · exact (ofNat_eq_toFloat hn hlt).symm

theorem toUInt64_ofNat {n : Nat} (hlt : n < 2 ^ 53) : (Float.ofNat n).toUInt64 = n.toUInt64 := by
  obtain rfl | hn := Nat.eq_zero_or_pos n
  · decide
  · have hi := toNat_toUInt64 hlt
    rw [← toFloat_toUInt64 hlt, toUInt64_toFloat (by rwa [hi]) (by rwa [hi])]

/-- An integer that is a number is cut to itself. -/
theorem toInt64_ofInt (hilt : i.natAbs < 2 ^ 53) : toInt64 (Float.ofInt i) = i := by
  have hzero : IsInt (0 : Float).toModel.unpack 0 := isInt_ofInt (z := 0) (by decide)
  have hcut {n : Nat} (hlt : n < 2 ^ 53) : (Float.ofInt n).toUInt64.toNat = n := by
    change (Float.ofNat n).toUInt64.toNat = n
    rw [toUInt64_ofNat hlt, toNat_toUInt64 hlt]
  have hsign : Float.ofInt i < 0 ↔ i < 0 := lt_iff (isInt_ofInt hilt) hzero hilt (by decide)
  unfold toInt64
  by_cases hneg : i < 0
  · rw [if_pos (hsign.2 hneg), neg_ofInt hneg.ne hilt]
    obtain ⟨n, hn⟩ := Int.eq_ofNat_of_zero_le (Int.neg_nonneg.2 hneg.le)
    rw [hn, hcut (by omega)]
    omega
  · rw [if_neg fun h => hneg (hsign.1 h)]
    obtain ⟨n, rfl⟩ := Int.eq_ofNat_of_zero_le (Int.not_lt.1 hneg)
    rw [hcut (by omega)]
    omega

/-! ### Digits put together -/

theorem ofDigits_eq (base : Nat) (ds : List Nat) : ofDigits base ds = Nat.ofDigits base ds.reverse := by
  rw [ofDigits, List.foldl_eq_foldr_reverse, Nat.ofDigits_eq_foldr]
  congr
  funext d v
  rw [Nat.cast_id, Nat.mul_comm, Nat.add_comm]

theorem add_zero_ofNat {n : Nat} (h : n < 2 ^ 53) : Float.ofNat n + Float.ofNat 0 = Float.ofNat n := by
  obtain rfl | hn := Nat.eq_zero_or_pos n
  · decide
  · have hlt : (n : Int).natAbs < 2 ^ 53 := h
    obtain ⟨s, m, k, hm, -, -, -, -, heq⟩ := exists_unpacked (z := n) (by omega) hlt
    change Float.ofModel (Float.Model.pack (UnpackedFloat.add .binary64 (Float.ofInt n).toModel.unpack _)) =
      Float.ofInt n
    rw [unpack_ofInt hlt, ofInt_eq hlt, heq]
    rfl

/-- One more digit behind a number. -/
theorem ofNat_mul_add {n d : Nat} (h : n * 16 + d < 2 ^ 53) :
    Float.ofNat n * 16 + Float.ofNat d = Float.ofNat (n * 16 + d) := by
  have hshift : Float.ofNat n * 16 = Float.ofNat (n * 16) := by
    obtain rfl | hn := Nat.eq_zero_or_pos n
    · decide
    · have hint : IsInt (16 : Float).toModel.unpack 16 := isInt_ofInt (z := 16) (by decide)
      have hmul := mul_eq (isInt_ofInt (z := n) (by omega)) hint (by omega) (by decide) (by omega) (by decide) (by omega)
      exact_mod_cast hmul
  rw [hshift]
  obtain rfl | hd := Nat.eq_zero_or_pos d
  · exact add_zero_ofNat (by omega)
  · have hadd := add_eq (isInt_ofInt (z := (n * 16 : Nat)) (by omega)) (isInt_ofInt (z := d) (by omega)) (by omega)
      (by omega) (by omega) (by omega)
    exact_mod_cast hadd

/-- As many digits as fit into 53 bits are put together without rounding. -/
theorem foldl_hex {ds : List Nat} (hds : ∀ d ∈ ds, d < 16) {n : Nat} (h : (n + 1) * 16 ^ ds.length ≤ 2 ^ 53) :
    ds.foldl (fun v d => v * 16 + Float.ofNat d) (Float.ofNat n) =
      Float.ofNat (ds.foldl (fun v d => v * 16 + d) n) := by
  induction ds generalizing n with
  | nil => rfl
  | cons d ds ih =>
    obtain ⟨hd, hds⟩ := List.forall_mem_cons.1 hds
    rw [List.length_cons, Nat.pow_succ'] at h
    have hmore : (n * 16 + d + 1) * 16 ^ ds.length ≤ 2 ^ 53 := by
      calc (n * 16 + d + 1) * 16 ^ ds.length ≤ (n + 1) * 16 * 16 ^ ds.length :=
            Nat.mul_le_mul_right _ (by omega)
        _ = (n + 1) * (16 * 16 ^ ds.length) := Nat.mul_assoc ..
        _ ≤ 2 ^ 53 := h
    have hlt : n * 16 + d < 2 ^ 53 := by
      have := Nat.le_mul_of_pos_right (n * 16 + d + 1) (Nat.pow_pos (n := ds.length) (by decide : 0 < 16))
      omega
    rw [List.foldl_cons, List.foldl_cons, ofNat_mul_add hlt]
    exact ih hds hmore

/-- The value of a hexadecimal digit. -/
def hexDigit (c : Char) : Nat := hexDigits.idxOf c.toLower

/-- The natural number with the given hexadecimal digits, the last one the lowest. -/
def hexNatural (ds : List Char) : Nat := Nat.ofDigits 16 (ds.reverse.map hexDigit)

/-- The integer that a sign and hexadecimal digits write. -/
def hexInteger (sign ds : List Char) : Int := if sign = ['-'] then -(hexNatural ds : Int) else hexNatural ds

theorem digitIn?_hexDigit {c : Char} (h : c ∈ hexDigits) : digitIn? 16 c = some (hexDigit c) := by
  have hall : hexDigits.all (fun c => digitIn? 16 c == some (hexDigit c)) = true := by decide
  simpa using List.all_eq_true.1 hall c h

theorem hexDigit_lt {c : Char} (h : c ∈ hexDigits) : hexDigit c < 16 := by
  have hall : hexDigits.all (fun c => hexDigit c < 16) = true := by decide
  simpa using List.all_eq_true.1 hall c h

section Hex

variable {ds : List Char} (hds : ∀ c ∈ ds, c ∈ hexDigits)
include hds

theorem forall_hexDigit_lt : ∀ d ∈ ds.map hexDigit, d < 16 :=
  List.forall_mem_map.2 fun c hc => hexDigit_lt (hds c hc)

theorem hexNatural_lt : hexNatural ds < 16 ^ ds.length := by
  have hlt := Nat.ofDigits_lt_base_pow_length (b := 16) (l := (ds.map hexDigit).reverse) (by decide) fun d hd =>
    forall_hexDigit_lt hds d (List.mem_reverse.1 hd)
  rwa [List.length_reverse, List.length_map, ← List.map_reverse] at hlt

/-- A numeral of thirteen digits at most has the value of its digits. -/
theorem unsigned?_hexNatural {mark : Char} (hmark : mark = 'x' ∨ mark = 'X') (hne : ds ≠ [])
    (hlength : ds.length ≤ 13) : unsigned? ('0' :: mark :: ds) = some (Float.ofNat (hexNatural ds)) := by
  have hroom : (0 + 1) * 16 ^ (ds.map hexDigit).length ≤ 2 ^ 53 := by
    rw [List.length_map]
    calc (0 + 1) * 16 ^ ds.length ≤ (0 + 1) * 16 ^ 13 := Nat.mul_le_mul_left _ (Nat.pow_le_pow_right (by decide) hlength)
      _ ≤ 2 ^ 53 := by decide
  have hvalue : hexValue (ds.map hexDigit) = Float.ofNat (ofDigits 16 (ds.map hexDigit)) :=
    foldl_hex (forall_hexDigit_lt hds) hroom
  rw [unsigned?_hex hmark hne, digits?_eq fun c hc => digitIn?_hexDigit (hds c hc), Option.map_some, hvalue,
    ofDigits_eq, ← List.map_reverse]
  rfl

end Hex

theorem ofInt_ne_nan (hilt : i.natAbs < 2 ^ 53) : Float.ofInt i ≠ Float.nan := by
  intro h
  have hunpack := unpack_ofInt hilt
  rw [h] at hunpack
  by_cases hi : i = 0
  · rw [hi] at hunpack
    cases hunpack
  · obtain ⟨s, n, k, hn, -, -, -, -, heq⟩ := exists_unpacked hi hilt
    rw [heq] at hunpack
    cases hunpack

/-- A natural number behind a sign is equal to the integer with that sign, even where it is the negative zero. -/
theorem signed_ofNat {n : Nat} (hlt : n < 2 ^ 53) (negative : Prop) [Decidable negative] :
    ((if negative then -Float.ofNat n else Float.ofNat n) == Float.ofInt (if negative then -(n : Int) else n)) = true ∧
      toInt64 (if negative then -Float.ofNat n else Float.ofNat n) = if negative then -(n : Int) else n := by
  have hint {i : Int} (hilt : i.natAbs < 2 ^ 53) : (Float.ofInt i == Float.ofInt i) = true ∧ toInt64 (Float.ofInt i) = i :=
    ⟨Float.beq_self_iff.2 (ofInt_ne_nan hilt), toInt64_ofInt hilt⟩
  split
  · obtain rfl | hn := Nat.eq_zero_or_pos n
    · decide
    · have hneg : -Float.ofNat n = Float.ofInt (-n) := neg_ofInt (i := n) (by omega) (by omega)
      rw [hneg]
      exact hint (by omega)
  · exact hint (i := n) (by omega)

/-- A text is read as a number exactly if it is a numeral, blanks around it apart. A hexadecimal numeral of
thirteen digits at most denotes its integer exactly. -/
theorem numerals_recognized (s : String) :
    ((ofString? s).isSome ↔ ∃ body, Stripped s.toList body ∧ IsNumeral body) ∧
      ∀ sign mark ds, IsSign sign → mark = 'x' ∨ mark = 'X' → ds ≠ [] → (∀ c ∈ ds, c ∈ hexDigits) → ds.length ≤ 13 →
        Stripped s.toList (sign ++ '0' :: mark :: ds) →
        ∃ v, ofString? s = some v ∧ (v == Float.ofInt (hexInteger sign ds)) = true ∧
          toInt64 v = hexInteger sign ds := by
  refine ⟨ofString?_isSome_iff, fun sign mark ds hsign hmark hne hds hlength hstripped => ?_⟩
  have hlt : hexNatural ds < 2 ^ 53 := by
    calc hexNatural ds < 16 ^ ds.length := hexNatural_lt hds
      _ ≤ 16 ^ 13 := Nat.pow_le_pow_right (by decide) hlength
      _ ≤ 2 ^ 53 := by decide
  refine ⟨_, ?_, signed_ofNat hlt (sign = ['-'])⟩
  rw [ofString?_of_stripped hstripped hsign (.hexadecimal hmark hne hds), unsigned?_hexNatural hds hmark hne hlength]
  rfl

/-- A padded decimal numeral, a text with a separator between its digits, and the greatest numeral of thirteen
hexadecimal digits behind a sign. -/
theorem numerals_recognized_padded :
    (∃ body, Stripped "\t+.5e-3 \n".toList body ∧ IsNumeral body) ∧
      (¬ ∃ body, Stripped "1_000".toList body ∧ IsNumeral body) ∧
      ∃ v, ofString? " -0XfFfFfFfFfFfFf\r" = some v ∧ (v == Float.ofInt (-4503599627370495)) = true ∧
        toInt64 v = -4503599627370495 := by
  refine ⟨(numerals_recognized _).1.1 (by decide), fun h => absurd ((numerals_recognized _).1.2 h) (by decide), ?_⟩
  have hvalue : hexInteger ['-'] ['f', 'F', 'f', 'F', 'f', 'F', 'f', 'F', 'f', 'F', 'f', 'F', 'f'] = -4503599627370495 := by
    decide
  rw [← hvalue]
  refine (numerals_recognized _).2 ['-'] 'X' _ (.inr (.inr rfl)) (.inr rfl) (List.cons_ne_nil _ _) (by simp [hexDigits])
    (by decide) ⟨⟨[' '], ['\r'], rfl, by simp [blanks]⟩, ?_, ?_⟩
  · rintro c hc
    obtain rfl := Option.some.inj hc
    decide
  · rintro c hc
    obtain rfl := Option.some.inj hc
    decide

end LuaMachine.Number
