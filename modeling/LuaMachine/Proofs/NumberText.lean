import LuaMachine.Number.Decimal
import LuaMachine.Proofs.NumeralValues

/-!
Texts of numbers as numerals. The text of a finite number, whichever of its shapes it has, is a numeral again, and
the text of an integer below `10 ^ 14` is the numeral of that very number.
-/

namespace LuaMachine.Number

open Float.Model Float.Model.UnpackedFloat

/-! ### The shapes of texts -/

theorem toList_toString (n : Nat) : (toString n).toList = Nat.toDigits 10 n := by
  rw [Nat.toString_eq_ofList_toDigits, String.toList_ofList]

theorem isDigits_toString (n : Nat) : IsDigits (toString n).toList := by
  intro c hc
  rw [toList_toString] at hc
  exact Nat.isDigit_of_mem_toDigits (by decide) (by decide) hc

theorem toString_ne_nil (n : Nat) : (toString n).toList ≠ [] := by
  rw [toList_toString]
  exact Nat.toDigits_ne_nil

theorem IsDigits.dropZeros {ds : List Char} (h : IsDigits ds) : IsDigits (dropZeros ds) := by
  have hfront := List.rdropWhile_prefix (· == '0') ds
  exact fun c hc => h c (hfront.subset hc)

theorem isMantissa_joinPoint {whole fraction : List Char} (hne : whole ≠ []) (hwhole : IsDigits whole)
    (hfraction : IsDigits fraction) : IsMantissa (joinPoint whole fraction).toList := by
  unfold joinPoint
  split
  · rw [String.toList_ofList]
    exact .whole hne hwhole
  · rw [String.toList_ofList]
    exact .pointed (List.append_ne_nil_of_left_ne_nil hne _) (List.forall_mem_append.2 ⟨hwhole, hfraction⟩)

theorem isDigits_zero : IsDigits ['0'] := List.forall_mem_singleton.2 rfl

theorem isDigits_pad2 (n : Nat) : IsDigits (pad2 n).toList := by
  unfold pad2
  split
  · rw [String.toList_append]
    exact List.forall_mem_append.2 ⟨isDigits_zero, isDigits_toString n⟩
  · exact isDigits_toString n

theorem pad2_ne_nil (n : Nat) : (pad2 n).toList ≠ [] := by
  unfold pad2
  split
  · rw [String.toList_append]
    exact List.append_ne_nil_of_right_ne_nil _ (toString_ne_nil n)
  · exact toString_ne_nil n

/-- Each of the three shapes is a numeral without a sign, whatever the digits and the exponent are. -/
theorem Rounded.isUnsigned_text (r : Rounded) : IsUnsigned r.text.toList := by
  have hds := isDigits_toString r.digits
  have hne := toString_ne_nil r.digits
  have htake (n : Nat) : IsDigits ((toString r.digits).toList.take n) := fun c hc => hds c (List.mem_of_mem_take hc)
  have hdrop (n : Nat) : IsDigits ((toString r.digits).toList.drop n) := fun c hc => hds c (List.mem_of_mem_drop hc)
  have hfront (n : Nat) : (toString r.digits).toList.take (n + 1) ≠ [] := by
    rw [ne_eq, List.take_eq_nil_iff, not_or]
    exact ⟨n.succ_ne_zero, hne⟩
  have hpositional {s : List Char} (h : IsMantissa s) : IsUnsigned s := by
    have hdecimal := IsUnsigned.decimal h .none
    rwa [List.append_nil] at hdecimal
  unfold Rounded.text
  dsimp only
  split
  · simp only [String.toList_append, List.append_assoc]
    have hsign : IsSign (if r.exponent < 0 then "-" else "+").toList := by
      split
      · exact .inr (.inr rfl)
      · exact .inr (.inl rfl)
    have hexponent := IsExponent.some (.inl rfl) hsign (pad2_ne_nil r.exponent.natAbs) (isDigits_pad2 r.exponent.natAbs)
    exact .decimal (isMantissa_joinPoint (hfront 0) (htake 1) (hdrop 1).dropZeros) hexponent
  split
  · refine hpositional (isMantissa_joinPoint (List.cons_ne_nil _ _) isDigits_zero ?_)
    refine List.forall_mem_append.2 ⟨fun c hc => ?_, hds.dropZeros⟩
    rw [List.eq_of_mem_replicate hc]
    decide
  · exact hpositional (isMantissa_joinPoint (hfront _) (htake _) (hdrop _).dropZeros)

/-- Decimal digits are a numeral. -/
theorem isUnsigned_toString (n : Nat) : IsUnsigned (toString n).toList := by
  have hdecimal := IsUnsigned.decimal (.whole (toString_ne_nil n) (isDigits_toString n)) .none
  rwa [List.append_nil] at hdecimal

theorem isFinite_eq (n : Float) : n.isFinite = (!n.isNaN && !n.isInf) := by
  change n.toModel.unpack.isFinite = (!n.toModel.unpack.isNaN && !n.toModel.unpack.isInf)
  cases n.toModel.unpack <;> rfl

/-- The text of a finite number behind its sign. -/
def magnitudeText (n : Float) : String :=
  if n.abs.toUInt64.toFloat == n.abs && n.abs.toUInt64 < 100000000000000 then toString n.abs.toUInt64.toNat
  else (round14 (magnitude n).fraction.1 (magnitude n).fraction.2).text

theorem format_eq {n : Float} (h : n.isFinite = true) :
    format n = (if n < 0 || isNegativeZero n then "-" else "") ++ magnitudeText n := by
  rw [isFinite_eq, Bool.and_eq_true, Bool.not_eq_true', Bool.not_eq_true'] at h
  simp only [format, h.1, h.2, Bool.false_eq_true, if_false, magnitudeText]
  split <;> rfl

/-- The text of a finite number is a sign or none and a numeral behind it. -/
theorem exists_format {n : Float} (h : n.isFinite = true) :
    ∃ sign body, (format n).toList = sign ++ body ∧ IsSign sign ∧ IsUnsigned body := by
  refine ⟨_, (magnitudeText n).toList, by rw [format_eq h, String.toList_append], ?_, ?_⟩
  · split
    · exact .inr (.inr rfl)
    · exact .inl rfl
  · unfold magnitudeText
    split
    · exact isUnsigned_toString _
    · exact Rounded.isUnsigned_text _

/-! ### Numerals without blanks -/

def Unbroken (s : List Char) : Prop := ∀ c ∈ s, c ∉ blanks

theorem unbroken_append {s t : List Char} : Unbroken (s ++ t) ↔ Unbroken s ∧ Unbroken t := List.forall_mem_append

theorem unbroken_cons {c : Char} {s : List Char} : Unbroken (c :: s) ↔ c ∉ blanks ∧ Unbroken s := List.forall_mem_cons

theorem IsDigits.unbroken {ds : List Char} (h : IsDigits ds) : Unbroken ds := by
  intro c hc hblank
  have hall : blanks.all (fun c => !c.isDigit) = true := by decide
  simpa [h c hc] using List.all_eq_true.1 hall c hblank

theorem IsSign.unbroken {s : List Char} (h : IsSign s) : Unbroken s := by
  obtain rfl | rfl | rfl := h
  · exact nofun
  · exact List.forall_mem_singleton.2 (by decide)
  · exact List.forall_mem_singleton.2 (by decide)

theorem IsUnsigned.unbroken {s : List Char} (h : IsUnsigned s) : Unbroken s := by
  obtain @⟨mark, ds, hmark, hne, hds⟩ | @⟨mantissa, exponent, hmantissa, hexponent⟩ := h
  · have hhex : Unbroken ds := by
      intro c hc hblank
      have hall : blanks.all (fun c => !hexDigits.contains c) = true := by decide
      simpa [hds c hc] using List.all_eq_true.1 hall c hblank
    have hmark' : mark ∉ blanks := by obtain rfl | rfl := hmark <;> decide
    exact unbroken_cons.2 ⟨by decide, unbroken_cons.2 ⟨hmark', hhex⟩⟩
  · refine unbroken_append.2 ⟨?_, ?_⟩
    · obtain ⟨hne, hds⟩ | @⟨whole, fraction, hne, hds⟩ := hmantissa
      · exact hds.unbroken
      · obtain ⟨hwhole, hfraction⟩ := unbroken_append.1 hds.unbroken
        exact unbroken_append.2 ⟨hwhole, unbroken_cons.2 ⟨by decide, hfraction⟩⟩
    · obtain _ | @⟨mark, sign, ds, hmark, hsign, hne, hds⟩ := hexponent
      · exact nofun
      · have hmark' : mark ∉ blanks := by obtain rfl | rfl := hmark <;> decide
        exact unbroken_cons.2 ⟨hmark', unbroken_append.2 ⟨hsign.unbroken, hds.unbroken⟩⟩

theorem Unbroken.stripped {s : List Char} (h : Unbroken s) : Stripped s s where
  around := ⟨[], [], (List.append_nil s).symm, nofun⟩
  first c hc := h c (List.mem_of_mem_head? hc)
  last c hc := h c (List.mem_of_mem_getLast? hc)

theorem ofString?_of_eq {s : String} {sign body : List Char} (h : s.toList = sign ++ body) (hsign : IsSign sign)
    (hbody : IsUnsigned body) : ofString? s = (unsigned? body).map fun v => if sign = ['-'] then -v else v := by
  refine ofString?_of_stripped ?_ hsign hbody
  rw [h]
  exact (unbroken_append.2 ⟨hsign.unbroken, hbody.unbroken⟩).stripped

theorem format_of_not_finite {n : Float} (h : ¬ n.isFinite = true) :
    format n = "nan" ∨ format n = "inf" ∨ format n = "-inf" := by
  unfold format
  split
  · exact .inl rfl
  · next hnan =>
    rw [isFinite_eq, Bool.eq_false_iff.2 hnan, Bool.not_false, Bool.true_and, Bool.not_eq_true, Bool.not_eq_false'] at h
    rw [if_pos h]
    split
    · exact .inr (.inl rfl)
    · exact .inr (.inr rfl)

/-- The text of a number is a numeral if the number is finite, and only then. -/
theorem ofString?_format_isSome_iff {n : Float} : (ofString? (format n)).isSome ↔ n.isFinite = true := by
  constructor
  · intro h
    by_contra hinfinite
    obtain heq | heq | heq := format_of_not_finite hinfinite
    all_goals
      rw [heq] at h
      exact absurd h (by decide)
  · intro h
    obtain ⟨sign, body, heq, hsign, hbody⟩ := exists_format h
    rw [ofString?_of_eq heq hsign hbody, Option.isSome_map]
    exact unsigned?_isSome_iff.2 hbody

/-! ### Integers -/

theorem assemble?_whole {ds : List Char} {vs : List Nat} (hne : ds ≠ []) (h : digits? 10 ds = some vs) :
    assemble? ds [] [] = some ⟨ofDigits 10 vs, 0⟩ := by
  have hempty : ¬ (ds.isEmpty && ([] : List Char).isEmpty) = true := by simpa using hne
  rw [assemble?, if_neg hempty, List.append_nil, h]
  rfl

/-- The digits of a number are read as that number. -/
theorem scientific?_toString (m : Nat) : scientific? (toString m).toList = some ⟨m, 0⟩ := by
  have hdigits : digits? 10 (toString m).toList = some ((toString m).toList.map fun c => c.toNat - '0'.toNat) :=
    digits?_eq fun c hc => digitIn?_ten_of_isDigit c (isDigits_toString m c hc)
  have hvalue : ofDigits 10 ((toString m).toList.map fun c => c.toNat - '0'.toNat) = m := by
    have hcore := Nat.ofDigitChars_ten_toDigits (n := m)
    rw [Nat.ofDigitChars_eq_foldl] at hcore
    simpa only [ofDigits, List.foldl_map, toList_toString, Nat.mul_comm] using hcore
  have hwhole := scientific?_whole (isDigits_toString m) (s := []) fun _ hc => absurd hc (Option.not_mem_none _)
  rw [List.append_nil, assemble?_whole (toString_ne_nil m) hdigits, hvalue] at hwhole
  exact hwhole

/-- A natural number of fourteen digits at most is far from the bounds beyond which digits do not matter. -/
theorem value_natural {m : Nat} (h : m < 10 ^ 14) : (⟨m, 0⟩ : Scientific).value = Float.ofNat m := by
  obtain rfl | hm := Nat.eq_zero_or_pos m
  · rfl
  · have hlength : (toString m).length ≤ 14 := by
      rw [← String.length_toList, toList_toString]
      exact (Nat.length_toDigits_le_iff (by decide) (by decide)).2 h
    have hhigh : ¬ (400 : Int) < 0 + (toString m).length := by omega
    have hlow : ¬ (0 : Int) + (toString m).length < -400 := by omega
    simp only [Scientific.value, if_neg hm.ne', if_neg hhigh, if_neg hlow]
    rfl

theorem unsigned?_toString {m : Nat} (h : m < 10 ^ 14) : unsigned? (toString m).toList = some (Float.ofNat m) := by
  have hscientific := scientific?_toString m
  rw [unsigned?_decimal (by rw [hscientific]; rfl), hscientific, Option.map_some, value_natural h]

variable {z : Int}

theorem abs_unpacked (hz : z.natAbs < 2 ^ 53) : (unpacked z).abs = unpacked z.natAbs := by
  by_cases h : z = 0
  · subst h
    rfl
  · obtain ⟨s, n, k, hn, rfl, hk, low, high, heq⟩ := exists_unpacked h hz
    have hpositive := normalize_apply (s := .positive) low high hk hn 0
    rw [heq, natAbs_apply, UnpackedFloat.abs]
    simpa [unpacked, UnpackedFloat.ofInt, Sign.apply] using hpositive.symm

theorem abs_ofInt (hz : z.natAbs < 2 ^ 53) : (Float.ofInt z).abs = Float.ofNat z.natAbs := by
  have hnat : Float.ofInt z.natAbs = .ofModel (Float.Model.pack (unpacked z.natAbs)) := ofInt_eq hz
  change Float.ofModel (Float.Model.pack (Float.ofInt z).toModel.unpack.abs) = Float.ofInt z.natAbs
  rw [unpack_ofInt hz, abs_unpacked hz, hnat]

theorem isNegativeZero_ofInt (hz : z.natAbs < 2 ^ 53) : isNegativeZero (Float.ofInt z) = false := by
  by_cases h : z = 0
  · subst h
    decide
  · have hne : (Float.ofInt z == 0) = false := by
      rw [Bool.eq_false_iff]
      intro heq
      obtain ⟨s, hs⟩ := (isInt_of_beq (z := 0) (by decide) heq).eq_zero
      exact h (eq_zero_of_ofInt hz hs)
    rw [isNegativeZero, hne, Bool.false_and]

theorem isFinite_ofInt (hz : z.natAbs < 2 ^ 53) : (Float.ofInt z).isFinite = true := by
  change (Float.ofInt z).toModel.unpack.isFinite = true
  rw [unpack_ofInt hz]
  by_cases h : z = 0
  · subst h
    rfl
  · obtain ⟨s, n, k, hn, -, -, -, -, heq⟩ := exists_unpacked h hz
    rw [heq]
    rfl

/-- Integers of fourteen digits at most are written out. -/
theorem format_ofInt (hz : z.natAbs < 10 ^ 14) :
    format (Float.ofInt z) = (if z < 0 then "-" else "") ++ toString z.natAbs := by
  have hlt : z.natAbs < 2 ^ 53 := hz.trans (by decide)
  have hsign : Float.ofInt z < 0 ↔ z < 0 := lt_iff (isInt_ofInt hlt) (isInt_ofInt (z := 0) (by decide)) hlt (by decide)
  have hself : (Float.ofNat z.natAbs == Float.ofNat z.natAbs) = true :=
    Float.beq_self_iff.2 (ofInt_ne_nan (i := z.natAbs) hlt)
  have hsmall : z.natAbs.toUInt64 < 100000000000000 := by
    rw [UInt64.lt_iff_toNat_lt, toNat_toUInt64 hlt]
    exact hz
  have htext : magnitudeText (Float.ofInt z) = toString z.natAbs := by
    rw [magnitudeText, abs_ofInt hlt, toUInt64_ofNat hlt, toFloat_toUInt64 hlt, toNat_toUInt64 hlt, hself,
      decide_eq_true hsmall]
    rfl
  rw [format_eq (isFinite_ofInt hlt), htext, isNegativeZero_ofInt hlt]
  simp only [hsign, Bool.or_false, decide_eq_true_eq]

theorem ofString?_format_ofInt (hz : z.natAbs < 10 ^ 14) : ofString? (format (Float.ofInt z)) = some (Float.ofInt z) := by
  have hlist : (format (Float.ofInt z)).toList = (if z < 0 then "-" else "").toList ++ (toString z.natAbs).toList := by
    rw [format_ofInt hz, String.toList_append]
  by_cases h : z < 0
  · have hminus : "-".toList = ['-'] := rfl
    rw [if_pos h, hminus] at hlist
    have hneg : -Float.ofNat z.natAbs = Float.ofInt (-(z.natAbs : Int)) :=
      neg_ofInt (i := z.natAbs) (by omega) (hz.trans (by decide))
    rw [ofString?_of_eq hlist (.inr (.inr rfl)) (isUnsigned_toString _), unsigned?_toString hz, Option.map_some,
      if_pos rfl, hneg, Int.ofNat_natAbs_of_nonpos h.le, Int.neg_neg]
  · rw [if_neg h] at hlist
    have hnat : Float.ofNat z.natAbs = Float.ofInt z := congrArg Float.ofInt (Int.natAbs_of_nonneg (Int.not_lt.1 h))
    rw [ofString?_of_eq hlist (.inl rfl) (isUnsigned_toString _), unsigned?_toString hz, Option.map_some,
      if_neg (by decide), hnat]

/-- The text of every finite number, and of no other, is a numeral, and the text of an integer of fourteen digits at
most denotes that very number, negative zero included. -/
theorem format_reads_back (n : Float) :
    ((ofString? (format n)).isSome ↔ n.isFinite = true) ∧
      ∀ z : Int, z.natAbs < 10 ^ 14 → (n == Float.ofInt z) = true → ofString? (format n) = some n := by
  refine ⟨ofString?_format_isSome_iff, fun z hz heq => ?_⟩
  obtain ⟨-, -, rfl | ⟨rfl, -⟩ | ⟨rfl, -⟩⟩ := Float.beq_iff_ne_nan_and_eq.1 heq
  · exact ofString?_format_ofInt hz
  · decide
  · decide

/-- A number with a fraction, and the integer of fourteen nines below zero. -/
theorem format_reads_back_nines :
    (ofString? (format 0.1)).isSome ∧
      ofString? (format (Float.ofInt (-99999999999999))) = some (Float.ofInt (-99999999999999)) :=
  ⟨(format_reads_back 0.1).1.2 (by decide), (format_reads_back _).2 (-99999999999999) (by decide) (by decide)⟩

end LuaMachine.Number
