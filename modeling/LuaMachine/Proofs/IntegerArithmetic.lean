import LuaMachine.Proofs.ExactIntegers

/-!
Arithmetic of integers as numbers. Sums and differences of integers below `2 ^ 53` are exact, and
numbers are compared as the integers are.
-/

namespace LuaMachine

namespace Number

open Float.Model Float.Model.UnpackedFloat

/-! ### Integers in the format of floats -/

/-- The float of an integer, in its parts. -/
abbrev unpacked (z : Int) : UnpackedFloat := UnpackedFloat.ofInt .binary64 z

/-- A signed integer with zeros behind it is normalized to 53 bits. -/
theorem normalize_apply {s : Sign} {n k : Nat} (low : 2 ^ 52 ≤ n * 2 ^ k) (high : n * 2 ^ k < 2 ^ 53)
    (hk : k ≤ 52) (hn : 0 < n * 2 ^ k) (j : Nat) :
    UnpackedFloat.normalize .binary64 (s.apply n * 2 ^ j) (-j) .positive = .finite s (n * 2 ^ k) (-k) hn := by
  have hpos : (0 : Int) < n * 2 ^ j :=
    Int.mul_pos (Int.natCast_pos.2 (Nat.pos_of_mul_pos_right hn)) (Int.pow_pos (by decide))
  have hnat : ((n : Int) * 2 ^ j).toNat = n * 2 ^ j := by
    rw [← Int.toNat_natCast (n * 2 ^ j)]
    push_cast
    rfl
  cases s with
  | positive =>
    have hcompare : compare ((n : Int) * 2 ^ j) 0 = .gt := compare_gt_iff_gt.2 hpos
    simp only [UnpackedFloat.normalize, Sign.apply, hcompare, hnat]
    exact round_scaled low high hk hn
  | negative =>
    have hcompare : compare (-(n : Int) * 2 ^ j) 0 = .lt := by
      rw [compare_lt_iff_lt, Int.neg_mul]
      exact Int.neg_neg_of_pos hpos
    simp only [UnpackedFloat.normalize, Sign.apply, hcompare]
    rw [Int.neg_mul, Int.neg_neg, hnat]
    exact round_scaled low high hk hn

/-- The parts of an integer other than zero: its sign, and its magnitude with zeros up to 53 bits. -/
theorem exists_unpacked {z : Int} (hz : z ≠ 0) (hlt : z.natAbs < 2 ^ 53) :
    ∃ (s : Sign) (n k : Nat) (hn : 0 < n * 2 ^ k), z = s.apply n ∧ k ≤ 52 ∧ 2 ^ 52 ≤ n * 2 ^ k ∧
      n * 2 ^ k < 2 ^ 53 ∧ unpacked z = .finite s (n * 2 ^ k) (-k) hn := by
  obtain ⟨k, hk, low, high⟩ := exists_scaled (Int.natAbs_pos.2 hz) hlt
  obtain ⟨s, hs⟩ : ∃ s : Sign, z = s.apply z.natAbs := by
    obtain h | h := Int.natAbs_eq z
    · exact ⟨.positive, h⟩
    · exact ⟨.negative, h⟩
  have hn : 0 < z.natAbs * 2 ^ k := (Nat.two_pow_pos _).trans_le low
  refine ⟨s, z.natAbs, k, hn, hs, hk, low, high, ?_⟩
  have := normalize_apply (s := s) low high hk hn 0
  rw [← hs] at this
  simpa [unpacked, UnpackedFloat.ofInt] using this

theorem unpacked_zero : unpacked 0 = .zero .positive := rfl

theorem apply_neg (s : Sign) (n : Nat) : (-s).apply n = -s.apply (n : Int) := by
  cases s
  · exact (Int.neg_neg _).symm
  · rfl

/-- The negation of an integer other than zero has the other sign. -/
theorem unpacked_neg {z : Int} (hz : z ≠ 0) (hlt : z.natAbs < 2 ^ 53) : unpacked (-z) = (unpacked z).neg := by
  obtain ⟨s, n, k, hn, rfl, hk, low, high, heq⟩ := exists_unpacked hz hlt
  have hneg := normalize_apply (s := -s) low high hk hn 0
  rw [heq, UnpackedFloat.neg, ← apply_neg]
  simpa [unpacked, UnpackedFloat.ofInt] using hneg

/-- Zeros behind an integer are dropped. -/
theorem normalize_scaled {z : Int} (hz : z.natAbs < 2 ^ 53) (j : Nat) :
    UnpackedFloat.normalize .binary64 (z * 2 ^ j) (-j) .positive = unpacked z := by
  by_cases h : z = 0
  · subst h
    simp [UnpackedFloat.normalize, unpacked_zero]
  · obtain ⟨s, n, k, hn, hs, hk, low, high, heq⟩ := exists_unpacked h hz
    rw [heq, hs]
    exact normalize_apply low high hk hn j

/-- A mantissa at a smaller exponent. -/
theorem decreaseExponent_scaled {s : Sign} {n k j : Nat} (hle : k ≤ j) :
    ∃ m, decreaseExponent (n * 2 ^ k) (-k) (-j) = (m, -(j : Int)) ∧ s.apply m = s.apply n * 2 ^ j := by
  have hshift : (-(k : Int) - -j).toNat = j - k := by omega
  refine ⟨n * 2 ^ j, ?_, ?_⟩
  · rw [decreaseExponent, hshift, Nat.shiftLeft_eq, Nat.mul_assoc, ← Nat.pow_add, Nat.add_sub_cancel' hle]
    congr 1
    omega
  · cases s <;> simp [Sign.apply]

/-- The parts of a number that is an integer: zero may have a sign. -/
def IsInt (u : UnpackedFloat) (z : Int) : Prop := u = unpacked z ∨ u = .zero .negative ∧ z = 0

variable {u v : UnpackedFloat} {i j : Int}

theorem IsInt.eq_zero (h : IsInt u 0) : ∃ s, u = .zero s := by
  obtain rfl | ⟨rfl, -⟩ := h
  · exact ⟨.positive, rfl⟩
  · exact ⟨.negative, rfl⟩

theorem IsInt.eq_unpacked (h : IsInt u i) (hi : i ≠ 0) : u = unpacked i :=
  h.resolve_right fun h => hi h.2

/-- A sum with an integer other than zero is exact. -/
theorem IsInt.add (hu : IsInt u i) (hv : IsInt v j) (hj : j ≠ 0) (hi : i.natAbs < 2 ^ 53)
    (hjlt : j.natAbs < 2 ^ 53) (hsum : (i + j).natAbs < 2 ^ 53) :
    UnpackedFloat.add .binary64 u v = unpacked (i + j) := by
  rw [hv.eq_unpacked hj]
  obtain ⟨s, n, k, hn, hs, hk, low, high, heq⟩ := exists_unpacked hj hjlt
  by_cases hi0 : i = 0
  · subst hi0
    obtain ⟨t, rfl⟩ := hu.eq_zero
    rw [heq, Int.zero_add, heq]
    rfl
  · rw [hu.eq_unpacked hi0]
    obtain ⟨s', n', k', hn', hs', hk', low', high', heq'⟩ := exists_unpacked hi0 hi
    have hmin : min (-(k' : Int)) (-k) = -(max k' k : Nat) := by omega
    obtain ⟨m', hm', happly'⟩ := decreaseExponent_scaled (s := s') (n := n') (Nat.le_max_left k' k)
    obtain ⟨m, hm, happly⟩ := decreaseExponent_scaled (s := s) (n := n) (Nat.le_max_right k' k)
    rw [heq, heq']
    simp only [UnpackedFloat.add, hmin, hm, hm', happly, happly']
    rw [← Int.add_mul, ← hs, ← hs']
    exact normalize_scaled hsum _

/-- To subtract a number is to add its negation. -/
theorem sub_eq_add_neg (u v : UnpackedFloat) :
    UnpackedFloat.sub .binary64 u v = UnpackedFloat.add .binary64 u v.neg := by
  cases u with
  | finite s m e hm =>
    cases v with
    | finite s' m' e' hm' =>
      simp only [UnpackedFloat.sub, UnpackedFloat.add, UnpackedFloat.neg, apply_neg, Int.sub_eq_add_neg]
    | _ => rfl
  | _ => cases v <;> rfl

/-- A difference with an integer other than zero is exact. -/
theorem IsInt.sub (hu : IsInt u i) (hv : IsInt v j) (hj : j ≠ 0) (hi : i.natAbs < 2 ^ 53)
    (hjlt : j.natAbs < 2 ^ 53) (hdiff : (i - j).natAbs < 2 ^ 53) :
    UnpackedFloat.sub .binary64 u v = unpacked (i - j) := by
  have hneg : IsInt v.neg (-j) := .inl (by rw [hv.eq_unpacked hj, unpacked_neg hj hjlt])
  rw [sub_eq_add_neg, hu.add hneg (by omega) hi (by omega) (by omega), Int.sub_eq_add_neg]

/-- Numbers are compared in one order as in another where the one is less when the other is. -/
theorem compare_congr {α β : Type} [LinearOrder α] [LinearOrder β] {a b : α} {c d : β} (hlt : a < b ↔ c < d)
    (hgt : b < a ↔ d < c) : compare a b = compare c d := by
  obtain h | rfl | h := lt_trichotomy a b
  · rw [compare_lt_iff_lt.2 h, compare_lt_iff_lt.2 (hlt.1 h)]
  · have hcd : c = d := le_antisymm (not_lt.1 fun h => lt_irrefl a (hgt.2 h))
      (not_lt.1 fun h => lt_irrefl a (hlt.2 h))
    rw [compare_eq_iff_eq.2 rfl, compare_eq_iff_eq.2 hcd]
  · rw [compare_gt_iff_gt.2 h, compare_gt_iff_gt.2 (hgt.1 h)]

/-- Mantissas of 53 bits compare as the integers that they come from. -/
theorem compare_scaled {n k n' k' : Nat} (low : 2 ^ 52 ≤ n * 2 ^ k) (high : n * 2 ^ k < 2 ^ 53)
    (low' : 2 ^ 52 ≤ n' * 2 ^ k') (high' : n' * 2 ^ k' < 2 ^ 53) :
    (compare (-(k : Int)) (-k')).then (compare (n * 2 ^ k) (n' * 2 ^ k')) = compare (n : Int) n' := by
  have hlt {a b x y : Nat} (hab : a < b) (hlow : 2 ^ 52 ≤ x * 2 ^ a) (hhigh : y * 2 ^ b < 2 ^ 53) :
      (y : Int) < x := by
    refine Int.ofNat_lt.2 (Nat.lt_of_mul_lt_mul_right (a := 2 ^ b) ?_)
    calc y * 2 ^ b < 2 ^ 52 * 2 := hhigh
      _ ≤ x * 2 ^ a * 2 := Nat.mul_le_mul_right 2 hlow
      _ = x * 2 ^ (a + 1) := by rw [Nat.mul_assoc, ← Nat.pow_succ]
      _ ≤ x * 2 ^ b := Nat.mul_le_mul_left x (Nat.pow_le_pow_right (by decide) hab)
  obtain h | rfl | h := Nat.lt_trichotomy k k'
  · rw [compare_gt_iff_gt.2 (by omega : -(k : Int) > -k'), compare_gt_iff_gt.2 (hlt h low high')]
    rfl
  · have hpow : 0 < 2 ^ k := Nat.two_pow_pos k
    rw [compare_eq_iff_eq.2 rfl, Ordering.eq_then]
    exact compare_congr ((Nat.mul_lt_mul_right hpow).trans Int.ofNat_lt.symm)
      ((Nat.mul_lt_mul_right hpow).trans Int.ofNat_lt.symm)
  · rw [compare_lt_iff_lt.2 (by omega : -(k : Int) < -k'), compare_lt_iff_lt.2 (hlt h low' high)]
    rfl

/-- Numbers that are integers are compared as these are. -/
theorem IsInt.compare (hu : IsInt u i) (hv : IsInt v j) (hi : i.natAbs < 2 ^ 53) (hj : j.natAbs < 2 ^ 53) :
    UnpackedFloat.compare u v = some (compare i j) := by
  by_cases hi0 : i = 0 <;> by_cases hj0 : j = 0
  · subst hi0 hj0
    obtain ⟨t, rfl⟩ := hu.eq_zero
    obtain ⟨t', rfl⟩ := hv.eq_zero
    rfl
  · subst hi0
    obtain ⟨t, rfl⟩ := hu.eq_zero
    obtain ⟨s, n, k, hn, rfl, -, -, -, heq⟩ := exists_unpacked hj0 hj
    have hpos : 0 < n := Nat.pos_of_mul_pos_right hn
    rw [hv.eq_unpacked hj0, heq]
    cases s with
    | positive => exact congrArg some (compare_lt_iff_lt.2 (Int.natCast_pos.2 hpos)).symm
    | negative => exact congrArg some (compare_gt_iff_gt.2 (Int.neg_neg_of_pos (Int.natCast_pos.2 hpos))).symm
  · subst hj0
    obtain ⟨t, rfl⟩ := hv.eq_zero
    obtain ⟨s, n, k, hn, rfl, -, -, -, heq⟩ := exists_unpacked hi0 hi
    have hpos : 0 < n := Nat.pos_of_mul_pos_right hn
    rw [hu.eq_unpacked hi0, heq]
    cases s with
    | positive => exact congrArg some (compare_gt_iff_gt.2 (Int.natCast_pos.2 hpos)).symm
    | negative => exact congrArg some (compare_lt_iff_lt.2 (Int.neg_neg_of_pos (Int.natCast_pos.2 hpos))).symm
  · obtain ⟨s, n, k, hn, rfl, -, low, high, heq⟩ := exists_unpacked hi0 hi
    obtain ⟨s', n', k', hn', rfl, -, low', high', heq'⟩ := exists_unpacked hj0 hj
    have hpos : 0 < n := Nat.pos_of_mul_pos_right hn
    have hpos' : 0 < n' := Nat.pos_of_mul_pos_right hn'
    rw [hu.eq_unpacked hi0, hv.eq_unpacked hj0, heq, heq']
    cases s <;> cases s' <;> simp only [UnpackedFloat.compare, Sign.apply, Option.some.injEq]
    case positive.positive => exact compare_scaled low high low' high'
    case positive.negative => exact (compare_gt_iff_gt.2 (by omega)).symm
    case negative.positive => exact (compare_lt_iff_lt.2 (by omega)).symm
    case negative.negative =>
      rw [compare_scaled low high low' high', ← Std.OrientedOrd.eq_swap]
      exact compare_congr (by omega) (by omega)

/-! ### Numbers -/

/-- The parts of an integer are packed without loss. -/
theorem unpack_pack_unpacked {z : Int} (hz : z.natAbs < 2 ^ 53) :
    (Float.Model.pack (unpacked z)).unpack = unpacked z := by
  by_cases h : z = 0
  · subst h
    rfl
  · obtain ⟨s, n, k, hn, -, hk, low, high, heq⟩ := exists_unpacked h hz
    rw [heq]
    exact unpack_pack low high hn (by omega) (by omega)

/-- The number that an integer is, from its parts. -/
theorem ofInt_eq {z : Int} (hz : z.natAbs < 2 ^ 53) :
    Float.ofInt z = .ofModel (Float.Model.pack (unpacked z)) := by
  have hnat {n : Nat} (hn : 0 < n) (hlt : n < 2 ^ 53) :
      Float.ofNat n = .ofModel (Float.Model.pack (unpacked n)) := by
    have hi : n.toUInt64.toNat = n := by
      rw [UInt64.toNat_ofNat']
      omega
    rw [ofNat_eq_toFloat hn hlt]
    change Float.ofModel (Float.Model.pack (UnpackedFloat.ofNat .binary64 n.toUInt64.toNat)) = _
    rw [hi]
    rfl
  obtain n | n := z
  · cases n with
    | zero => rfl
    | succ n => exact hnat n.succ_pos hz
  · have hlt : ((n + 1 : Nat) : Int).natAbs < 2 ^ 53 := hz
    have hne : ((n + 1 : Nat) : Int) ≠ 0 := by omega
    change (Float.ofNat (n + 1)).neg = _
    rw [hnat n.succ_pos hlt, Int.negSucc_eq, ← Nat.cast_succ, unpacked_neg hne hlt]
    change Float.ofModel (Float.Model.pack (Float.Model.pack (unpacked (n + 1 : Nat))).unpack.neg) = _
    rw [unpack_pack_unpacked hlt]

theorem unpack_ofInt {z : Int} (hz : z.natAbs < 2 ^ 53) : (Float.ofInt z).toModel.unpack = unpacked z := by
  rw [ofInt_eq hz]
  exact unpack_pack_unpacked hz

theorem isInt_ofInt {z : Int} (hz : z.natAbs < 2 ^ 53) : IsInt (Float.ofInt z).toModel.unpack z :=
  .inl (unpack_ofInt hz)

/-- No other integer than zero is a zero, whatever its sign. -/
theorem eq_zero_of_ofInt {z : Int} (hz : z.natAbs < 2 ^ 53) {s : Sign}
    (h : (Float.ofInt z).toModel.unpack = .zero s) : z = 0 := by
  by_contra hne
  obtain ⟨s', n, k, hn, -, -, -, -, heq⟩ := exists_unpacked hne hz
  rw [unpack_ofInt hz, heq] at h
  cases h

/-- A number that is equal to an integer has the parts of that integer. -/
theorem isInt_of_beq {x : Float} {z : Int} (hz : z.natAbs < 2 ^ 53) (h : (x == Float.ofInt z) = true) :
    IsInt x.toModel.unpack z := by
  obtain ⟨-, -, rfl | ⟨rfl, hzero⟩ | ⟨rfl, hzero⟩⟩ := Float.beq_iff_ne_nan_and_eq.1 h
  · exact isInt_ofInt hz
  · exact .inl (eq_zero_of_ofInt hz (s := .negative) (by rw [hzero]; rfl) ▸ rfl)
  · exact .inr ⟨rfl, eq_zero_of_ofInt hz (s := .positive) (by rw [hzero]; rfl)⟩

variable {x y : Float}

/-- A sum with an integer other than zero is exact. -/
theorem add_eq (hx : IsInt x.toModel.unpack i) (hy : IsInt y.toModel.unpack j) (hj : j ≠ 0)
    (hi : i.natAbs < 2 ^ 53) (hjlt : j.natAbs < 2 ^ 53) (hsum : (i + j).natAbs < 2 ^ 53) :
    x + y = Float.ofInt (i + j) := by
  rw [ofInt_eq hsum, ← hx.add hy hj hi hjlt hsum]
  rfl

theorem sub_eq (hx : IsInt x.toModel.unpack i) (hy : IsInt y.toModel.unpack j) (hj : j ≠ 0)
    (hi : i.natAbs < 2 ^ 53) (hjlt : j.natAbs < 2 ^ 53) (hdiff : (i - j).natAbs < 2 ^ 53) :
    x - y = Float.ofInt (i - j) := by
  rw [ofInt_eq hdiff, ← hx.sub hy hj hi hjlt hdiff]
  rfl

theorem lt_iff (hx : IsInt x.toModel.unpack i) (hy : IsInt y.toModel.unpack j)
    (hi : i.natAbs < 2 ^ 53) (hj : j.natAbs < 2 ^ 53) : x < y ↔ i < j := by
  have hcompare := hx.compare hy hi hj
  change decide ((UnpackedFloat.lt x.toModel.unpack y.toModel.unpack) = true) = true ↔ _
  rw [decide_eq_true_iff, UnpackedFloat.lt, hcompare, ← compare_lt_iff_lt]
  cases compare i j <;> decide

theorem le_iff (hx : IsInt x.toModel.unpack i) (hy : IsInt y.toModel.unpack j)
    (hi : i.natAbs < 2 ^ 53) (hj : j.natAbs < 2 ^ 53) : x ≤ y ↔ i ≤ j := by
  have hcompare := hx.compare hy hi hj
  change decide ((UnpackedFloat.le x.toModel.unpack y.toModel.unpack) = true) = true ↔ _
  rw [decide_eq_true_iff, UnpackedFloat.le, hcompare, ← compare_le_iff_le]
  cases compare i j <;> decide

end Number

end LuaMachine
