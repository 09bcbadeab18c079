import LuaMachine.Number.Numeral
import Mathlib.Data.List.DropRight
import Mathlib.Tactic.IntervalCases

/-!
The grammar of numerals. A text is read as a number exactly if it is a numeral, blanks around it apart: a sign or
none, then hexadecimal digits behind their mark, or decimal digits with an optional point and exponent.
-/

namespace LuaMachine.Number

/-- The blanks that may stand around a numeral. -/
def blanks : List Char := [' ', '\t', '\n', '\r', '\x0b', '\x0c']

def hexDigits : List Char :=
  ['0', '1', '2', '3', '4', '5', '6', '7', '8', '9', 'a', 'b', 'c', 'd', 'e', 'f', 'A', 'B', 'C', 'D', 'E', 'F']

/-- What is left of a text without the blanks at its ends. -/
structure Stripped (s body : List Char) : Prop where
  around : ∃ before after, s = before ++ (body ++ after) ∧ ∀ c ∈ before ++ after, c ∈ blanks
  first : ∀ c ∈ body.head?, c ∉ blanks
  last : ∀ c ∈ body.getLast?, c ∉ blanks

def IsSign (s : List Char) : Prop := s = [] ∨ s = ['+'] ∨ s = ['-']

def IsDigits (s : List Char) : Prop := ∀ c ∈ s, c.isDigit

/-- Digits, at least one of them, and maybe a point before, between or behind them. -/
inductive IsMantissa : List Char → Prop
  | whole {ds : List Char} (hne : ds ≠ []) (hds : IsDigits ds) : IsMantissa ds
  | pointed {whole fraction : List Char} (hne : whole ++ fraction ≠ []) (hds : IsDigits (whole ++ fraction)) :
      IsMantissa (whole ++ '.' :: fraction)

/-- An exponent, or nothing. -/
inductive IsExponent : List Char → Prop
  | none : IsExponent []
  | some {mark : Char} {sign ds : List Char} (hmark : mark = 'e' ∨ mark = 'E') (hsign : IsSign sign)
      (hne : ds ≠ []) (hds : IsDigits ds) : IsExponent (mark :: (sign ++ ds))

inductive IsUnsigned : List Char → Prop
  | hexadecimal {mark : Char} {ds : List Char} (hmark : mark = 'x' ∨ mark = 'X') (hne : ds ≠ [])
      (hds : ∀ c ∈ ds, c ∈ hexDigits) : IsUnsigned ('0' :: mark :: ds)
  | decimal {mantissa exponent : List Char} (hmantissa : IsMantissa mantissa) (hexponent : IsExponent exponent) :
      IsUnsigned (mantissa ++ exponent)

inductive IsNumeral : List Char → Prop
  | signed {sign body : List Char} (hsign : IsSign sign) (hbody : IsUnsigned body) : IsNumeral (sign ++ body)

/-! ### Blanks -/

theorem isSpace_iff {c : Char} : Text.isSpace c = true ↔ c ∈ blanks := by
  constructor
  · intro h
    have hrange : c = ' ' ∨ 9 ≤ c.toNat ∧ c.toNat ≤ 13 := by
      simpa [Text.isSpace, Char.le_def, UInt32.le_iff_toNat_le] using h
    obtain rfl | ⟨hlow, hhigh⟩ := hrange
    · decide
    · rw [← Char.ofNat_toNat c]
      interval_cases c.toNat <;> decide
  · exact List.all_eq_true.1 (by decide : blanks.all Text.isSpace = true) c

theorem trim_eq (p : Char → Bool) (s : List Char) : Text.trim p s = (s.dropWhile p).rdropWhile p := rfl

theorem not_of_mem_head?_dropWhile {p : Char → Bool} {s : List Char} {c : Char} (h : c ∈ (s.dropWhile p).head?) :
    p c = false := by
  have hnot := s.head?_dropWhile_not p
  rw [Option.mem_def.1 h] at hnot
  exact hnot

theorem dropWhile_eq_self {p : Char → Bool} {s : List Char} (h : ∀ c ∈ s.head?, p c = false) :
    s.dropWhile p = s := by
  cases s with
  | nil => rfl
  | cons c s => exact List.dropWhile_cons_of_neg (by rw [h c rfl]; decide)

theorem stripped_trim (s : List Char) : Stripped s (Text.trim Text.isSpace s) where
  around := by
    refine ⟨s.takeWhile Text.isSpace, (s.dropWhile Text.isSpace).rtakeWhile Text.isSpace, ?_, fun c hc => ?_⟩
    · rw [trim_eq, List.rdropWhile_append_rtakeWhile, List.takeWhile_append_dropWhile]
    · obtain hc | hc := List.mem_append.1 hc
      · exact isSpace_iff.1 (List.mem_takeWhile_imp hc)
      · exact isSpace_iff.1 (List.mem_rtakeWhile_imp hc)
  first c hc hblank := by
    obtain ⟨after, hafter⟩ := List.rdropWhile_prefix Text.isSpace (s.dropWhile Text.isSpace)
    have hhead : c ∈ (s.dropWhile Text.isSpace).head? := by
      rw [← hafter, List.head?_append, ← trim_eq, Option.mem_def.1 hc]
      rfl
    exact absurd (not_of_mem_head?_dropWhile hhead) (by rw [isSpace_iff.2 hblank]; decide)
  last c hc hblank := by
    rw [Text.trim, List.getLast?_reverse] at hc
    exact absurd (not_of_mem_head?_dropWhile hc) (by rw [isSpace_iff.2 hblank]; decide)

/-- There is one way to strip a text. -/
theorem Stripped.eq_trim {s body : List Char} (h : Stripped s body) : body = Text.trim Text.isSpace s := by
  obtain ⟨before, after, rfl, haround⟩ := h.around
  have hbefore : ∀ c ∈ before, Text.isSpace c = true := fun c hc =>
    isSpace_iff.2 (haround c (List.mem_append_left after hc))
  have hafter : ∀ c ∈ after.reverse, Text.isSpace c = true := fun c hc =>
    isSpace_iff.2 (haround c (List.mem_append_right before (List.mem_reverse.1 hc)))
  have hfirst : ∀ c ∈ body.head?, Text.isSpace c = false := fun c hc =>
    Bool.eq_false_iff.2 fun hspace => h.first c hc (isSpace_iff.1 hspace)
  have hlast : ∀ c ∈ body.reverse.head?, Text.isSpace c = false := fun c hc =>
    Bool.eq_false_iff.2 fun hspace => h.last c (by rwa [List.head?_reverse] at hc) (isSpace_iff.1 hspace)
  have hfront : (before ++ (body ++ after)).dropWhile Text.isSpace = (body ++ after).dropWhile Text.isSpace :=
    List.dropWhile_append_of_pos hbefore
  rw [Text.trim, hfront]
  cases body with
  | nil =>
    have hnil : after.dropWhile Text.isSpace = [] :=
      List.dropWhile_eq_nil_iff.2 fun c hc => hafter c (List.mem_reverse.2 hc)
    rw [List.nil_append, hnil]
    rfl
  | cons c body =>
    rw [dropWhile_eq_self (s := c :: body ++ after) hfirst, List.reverse_append,
      List.dropWhile_append_of_pos hafter, dropWhile_eq_self hlast, List.reverse_reverse]

/-! ### Digits -/

/-- Characters are looked at one by one as far as the digits go, and all at once behind them. -/
theorem forall_char {P : Char → Prop} (hascii : ∀ n < 128, P (.ofNat n)) (hother : ∀ c : Char, 128 ≤ c.toNat → P c)
    (c : Char) : P c := by
  obtain hlt | hge := Nat.lt_or_ge c.toNat 128
  · rw [← Char.ofNat_toNat c]
    exact hascii _ hlt
  · exact hother c hge

theorem digit?_of_ge {c : Char} (h : 128 ≤ c.toNat) : digit? c = none := by
  have hnot {a b : Char} (hb : b.toNat < 128) : (decide (a ≤ c) && decide (c ≤ b)) = false := by
    have hlt : ¬ c ≤ b := by
      rw [Char.le_def, UInt32.le_iff_toNat_le]
      exact Nat.not_le.2 (hb.trans_le h)
    rw [decide_eq_false hlt, Bool.and_false]
  simp only [digit?, hnot (by decide : ('9' : Char).toNat < 128), hnot (by decide : ('z' : Char).toNat < 128),
    hnot (by decide : ('Z' : Char).toNat < 128), Bool.false_eq_true, if_false]

theorem digitIn?_ten (c : Char) : (digitIn? 10 c).isSome ↔ c.isDigit = true := by
  induction c using forall_char with
  | hascii n hn => revert n; decide
  | hother c hc =>
    have hnot : ¬ c.isDigit = true := fun h =>
      absurd ((Char.isDigit_iff_toNat.1 h).2.trans (by decide : '9'.toNat ≤ 57)) (by omega)
    simp [digitIn?, digit?_of_ge hc, hnot]

theorem digitIn?_sixteen (c : Char) : (digitIn? 16 c).isSome ↔ c ∈ hexDigits := by
  induction c using forall_char with
  | hascii n hn => revert n; decide
  | hother c hc =>
    have hascii : hexDigits.all (fun c => c.toNat < 128) = true := by decide
    have hnot : ¬ c ∈ hexDigits := fun h =>
      absurd (List.all_eq_true.1 hascii c h) (by simpa using hc)
    simp [digitIn?, digit?_of_ge hc, hnot]

theorem digitIn?_ten_of_isDigit (c : Char) (h : c.isDigit = true) : digitIn? 10 c = some (c.toNat - 48) := by
  induction c using forall_char with
  | hascii n hn => revert n; decide
  | hother c hc =>
    rw [← digitIn?_ten, digitIn?, digit?_of_ge hc] at h
    cases h

theorem digits?_eq {base : Nat} {value : Char → Nat} {s : List Char} (h : ∀ c ∈ s, digitIn? base c = some (value c)) :
    digits? base s = some (s.map value) := by
  induction s with
  | nil => rfl
  | cons c s ih =>
    obtain ⟨hc, hs⟩ := List.forall_mem_cons.1 h
    simp only [digits?, hc, ih hs, List.map_cons]

theorem digits?_isSome_iff {base : Nat} {s : List Char} :
    (digits? base s).isSome ↔ ∀ c ∈ s, (digitIn? base c).isSome := by
  induction s with
  | nil => simp [digits?]
  | cons c s ih =>
    rw [List.forall_mem_cons, ← ih, digits?]
    cases digitIn? base c <;> cases digits? base s <;> simp

theorem digits?_ten_isSome_iff {s : List Char} : (digits? 10 s).isSome ↔ IsDigits s := by
  simp only [digits?_isSome_iff, digitIn?_ten, IsDigits]

theorem digits?_sixteen_isSome_iff {s : List Char} : (digits? 16 s).isSome ↔ ∀ c ∈ s, c ∈ hexDigits := by
  simp only [digits?_isSome_iff, digitIn?_sixteen]

/-! ### Signs -/

theorem splitSign_append {sign s : List Char} (hsign : IsSign sign) (hs : ∀ c ∈ s.head?, c ≠ '+' ∧ c ≠ '-') :
    splitSign (sign ++ s) = (decide (sign = ['-']), s) := by
  obtain rfl | rfl | rfl := hsign
  · rw [List.nil_append, splitSign.eq_def]
    split
    · exact absurd rfl (hs '-' rfl).2
    · exact absurd rfl (hs '+' rfl).1
    · rfl
  · rfl
  · rfl

theorem exists_sign (s : List Char) : ∃ sign, IsSign sign ∧ s = sign ++ (splitSign s).2 := by
  rw [splitSign.eq_def]
  split
  · exact ⟨['-'], .inr (.inr rfl), rfl⟩
  · exact ⟨['+'], .inr (.inl rfl), rfl⟩
  · exact ⟨[], .inl rfl, rfl⟩

/-! ### Decimal numerals -/

/-- What is neither a digit nor the point ends a mantissa. -/
def EndsMantissa (s : List Char) : Prop := ∀ c ∈ s.head?, c.isDigit = false ∧ c ≠ '.'

theorem IsDigits.head {ds s : List Char} (hds : IsDigits ds) (hne : ds ≠ []) :
    ∀ c ∈ (ds ++ s).head?, c ≠ '+' ∧ c ≠ '-' := by
  obtain ⟨d, ds, rfl⟩ := List.exists_cons_of_ne_nil hne
  rintro c hc
  obtain rfl : d = c := Option.some.inj hc
  have hd : d.isDigit = true := hds d List.mem_cons_self
  constructor <;> rintro rfl <;> exact absurd hd (by decide)

theorem exponent?_isSome_iff {s : List Char} : (exponent? s).isSome ↔ IsExponent s := by
  constructor
  · intro h
    cases s with
    | nil => exact .none
    | cons mark s =>
      obtain ⟨sign, hsign, hs⟩ := exists_sign s
      simp only [exponent?] at h
      split at h
      · next hmark =>
        split at h
        · cases h
        · next hne =>
          rw [Option.isSome_map, digits?_ten_isSome_iff] at h
          rw [hs]
          exact .some (by simpa using hmark) hsign (by simpa using hne) h
      · cases h
  · rintro (_ | @⟨mark, sign, ds, hmark, hsign, hne, hds⟩)
    · rfl
    · have hsplit := splitSign_append hsign (by simpa using hds.head hne (s := []))
      have hmark' : (mark == 'e' || mark == 'E') = true := by simpa using hmark
      simp only [exponent?, hmark', if_true, hsplit, List.isEmpty_iff, if_neg hne, Option.isSome_map]
      exact digits?_ten_isSome_iff.2 hds

theorem IsExponent.endsMantissa {s : List Char} (h : IsExponent s) : EndsMantissa s := by
  obtain _ | ⟨rfl | rfl, -, -, -⟩ := h
  · exact nofun
  all_goals
    intro c hc
    obtain rfl := Option.some.inj hc
    decide

/-- The decimal numeral with these digits before and behind its point, and this exponent part. -/
def assemble? (whole fraction exponent : List Char) : Option Scientific :=
  if whole.isEmpty && fraction.isEmpty then none
  else
    match digits? 10 (whole ++ fraction), exponent? exponent with
    | some ds, some e => some ⟨ofDigits 10 ds, e - fraction.length⟩
    | _, _ => none

theorem assemble?_isSome_iff {whole fraction exponent : List Char} (hds : IsDigits (whole ++ fraction)) :
    (assemble? whole fraction exponent).isSome ↔ whole ++ fraction ≠ [] ∧ IsExponent exponent := by
  obtain ⟨ds, hsome⟩ := Option.isSome_iff_exists.1 (digits?_ten_isSome_iff.2 hds)
  rw [← exponent?_isSome_iff, assemble?, hsome]
  cases whole <;> cases fraction <;> cases exponent? exponent <;> simp

theorem span_digits {ds s : List Char} (hds : IsDigits ds) (hs : ∀ c ∈ s.head?, c.isDigit = false) :
    (ds ++ s).takeWhile Char.isDigit = ds ∧ (ds ++ s).dropWhile Char.isDigit = s := by
  rw [List.takeWhile_append_of_pos hds, List.dropWhile_append_of_pos hds, dropWhile_eq_self hs]
  cases s with
  | nil => exact ⟨List.append_nil ds, rfl⟩
  | cons c s => exact ⟨by rw [List.takeWhile_cons_of_neg (by rw [hs c rfl]; decide), List.append_nil], rfl⟩

theorem scientific?_whole {ds s : List Char} (hds : IsDigits ds) (hs : EndsMantissa s) :
    scientific? (ds ++ s) = assemble? ds [] s := by
  obtain ⟨htake, hdrop⟩ := span_digits hds fun c hc => (hs c hc).1
  simp only [scientific?, htake, hdrop]
  split
  · next r => exact absurd rfl (hs '.' rfl).2
  · rfl

theorem scientific?_pointed {whole fraction s : List Char} (hds : IsDigits (whole ++ fraction))
    (hs : ∀ c ∈ s.head?, c.isDigit = false) :
    scientific? (whole ++ '.' :: (fraction ++ s)) = assemble? whole fraction s := by
  obtain ⟨hwhole, hfraction⟩ := List.forall_mem_append.1 hds
  obtain ⟨htake, hdrop⟩ := span_digits (s := '.' :: (fraction ++ s)) hwhole fun c hc =>
    Option.some.inj hc ▸ (by decide : ('.' : Char).isDigit = false)
  obtain ⟨htake', hdrop'⟩ := span_digits hfraction hs
  simp only [scientific?, htake, hdrop, htake', hdrop']
  rfl

theorem isDigits_takeWhile (s : List Char) : IsDigits (s.takeWhile Char.isDigit) :=
  fun _ hc => List.mem_takeWhile_imp hc

/-- A text is taken apart at its first character that is no digit and, if that is the point, at the next one. -/
theorem exists_span (s : List Char) :
    (∃ ds tail, IsDigits ds ∧ EndsMantissa tail ∧ s = ds ++ tail) ∨
      ∃ whole fraction tail, IsDigits (whole ++ fraction) ∧ (∀ c ∈ tail.head?, c.isDigit = false) ∧
        s = whole ++ '.' :: (fraction ++ tail) := by
  have hwhole := isDigits_takeWhile s
  have hs : s.takeWhile Char.isDigit ++ s.dropWhile Char.isDigit = s := List.takeWhile_append_dropWhile
  have hhead {c : Char} (hc : c ∈ (s.dropWhile Char.isDigit).head?) := not_of_mem_head?_dropWhile hc
  by_cases hpoint : '.' ∈ (s.dropWhile Char.isDigit).head?
  · obtain ⟨r, hr⟩ := List.head?_eq_some_iff.1 hpoint
    refine .inr ⟨s.takeWhile Char.isDigit, r.takeWhile Char.isDigit, r.dropWhile Char.isDigit,
      List.forall_mem_append.2 ⟨hwhole, isDigits_takeWhile r⟩, fun c hc => not_of_mem_head?_dropWhile hc, ?_⟩
    rw [List.takeWhile_append_dropWhile, ← hr, hs]
  · exact .inl ⟨_, _, hwhole, fun c hc => ⟨hhead hc, fun heq => hpoint (heq ▸ hc)⟩, hs.symm⟩

theorem scientific?_isSome_iff {s : List Char} :
    (scientific? s).isSome ↔
      ∃ mantissa exponent, IsMantissa mantissa ∧ IsExponent exponent ∧ s = mantissa ++ exponent := by
  constructor
  · intro h
    obtain ⟨ds, tail, hds, htail, rfl⟩ | ⟨whole, fraction, tail, hds, htail, rfl⟩ := exists_span s
    · rw [scientific?_whole hds htail, assemble?_isSome_iff (by rwa [List.append_nil])] at h
      rw [List.append_nil] at h
      exact ⟨ds, tail, .whole h.1 hds, h.2, rfl⟩
    · rw [scientific?_pointed hds htail, assemble?_isSome_iff hds] at h
      exact ⟨whole ++ '.' :: fraction, tail, .pointed h.1 hds, h.2, by simp⟩
  · rintro ⟨mantissa, exponent, hmantissa, hexponent, rfl⟩
    have hends := hexponent.endsMantissa
    obtain ⟨hne, hds⟩ | @⟨whole, fraction, hne, hds⟩ := hmantissa
    · rw [scientific?_whole hds hends, assemble?_isSome_iff (by rwa [List.append_nil]), List.append_nil]
      exact ⟨hne, hexponent⟩
    · have hsplit : whole ++ '.' :: fraction ++ exponent = whole ++ '.' :: (fraction ++ exponent) := by simp
      rw [hsplit, scientific?_pointed hds fun c hc => (hends c hc).1, assemble?_isSome_iff hds]
      exact ⟨hne, hexponent⟩

/-! ### Numerals -/

theorem unsigned?_hex {mark : Char} (hmark : mark = 'x' ∨ mark = 'X') {ds : List Char} (hne : ds ≠ []) :
    unsigned? ('0' :: mark :: ds) = (digits? 16 ds).map hexValue := by
  obtain rfl | rfl := hmark <;> simp only [unsigned?, List.isEmpty_iff, if_neg hne]

/-- What has no mark for hexadecimal digits is read as a decimal numeral. -/
theorem unsigned?_decimal {s : List Char} (h : (scientific? s).isSome) :
    unsigned? s = (scientific? s).map Scientific.value := by
  have hnone (mark : Char) (r : List Char) (hmark : mark = 'x' ∨ mark = 'X') : scientific? ('0' :: mark :: r) = none := by
    obtain rfl | rfl := hmark <;> rfl
  rw [unsigned?.eq_def]
  split
  · next r => rw [hnone 'x' r (.inl rfl)] at h; cases h
  · next r => rw [hnone 'X' r (.inr rfl)] at h; cases h
  · rfl

theorem unsigned?_isSome_iff {s : List Char} : (unsigned? s).isSome ↔ IsUnsigned s := by
  have hhex {mark : Char} {r : List Char} (hmark : mark = 'x' ∨ mark = 'X')
      (h : (if r.isEmpty then none else (digits? 16 r).map hexValue).isSome) : IsUnsigned ('0' :: mark :: r) := by
    split at h
    · cases h
    · next hne =>
      rw [Option.isSome_map, digits?_sixteen_isSome_iff] at h
      exact .hexadecimal hmark (by simpa using hne) h
  constructor
  · intro h
    rw [unsigned?.eq_def] at h
    split at h
    · exact hhex (.inl rfl) h
    · exact hhex (.inr rfl) h
    · rw [Option.isSome_map, scientific?_isSome_iff] at h
      obtain ⟨mantissa, exponent, hmantissa, hexponent, rfl⟩ := h
      exact .decimal hmantissa hexponent
  · rintro (⟨hmark, hne, hds⟩ | ⟨hmantissa, hexponent⟩)
    · rw [unsigned?_hex hmark hne, Option.isSome_map]
      exact digits?_sixteen_isSome_iff.2 hds
    · have hsome := scientific?_isSome_iff.2 ⟨_, _, hmantissa, hexponent, rfl⟩
      rwa [unsigned?_decimal hsome, Option.isSome_map]

/-- A numeral without its sign starts with a digit or with the point. -/
theorem IsUnsigned.head {s : List Char} (h : IsUnsigned s) : ∀ c ∈ s.head?, c ≠ '+' ∧ c ≠ '-' := by
  obtain ⟨-, -, -⟩ | ⟨⟨hne, hds⟩ | @⟨whole, fraction, hne, hds⟩, hexponent⟩ := h
  · rintro c hc
    obtain rfl := Option.some.inj hc
    decide
  · exact hds.head hne
  · cases whole with
    | nil =>
      rintro c hc
      obtain rfl := Option.some.inj hc
      decide
    | cons d whole =>
      rw [List.append_assoc]
      exact IsDigits.head (List.forall_mem_append.1 hds).1 (List.cons_ne_nil d whole)

/-- A text is read as its numeral is, the sign put before the value. -/
theorem ofString?_of_stripped {s : String} {sign body : List Char} (h : Stripped s.toList (sign ++ body))
    (hsign : IsSign sign) (hbody : IsUnsigned body) :
    ofString? s = (unsigned? body).map fun v => if sign = ['-'] then -v else v := by
  simp only [ofString?, ← h.eq_trim, splitSign_append hsign hbody.head, decide_eq_true_eq]

theorem ofString?_isSome_iff {s : String} :
    (ofString? s).isSome ↔ ∃ body, Stripped s.toList body ∧ IsNumeral body := by
  constructor
  · intro h
    have hstripped := stripped_trim s.toList
    obtain ⟨sign, hsign, hbody⟩ := exists_sign (Text.trim Text.isSpace s.toList)
    simp only [ofString?, Option.isSome_map] at h
    refine ⟨_, hstripped, ?_⟩
    rw [hbody]
    exact .signed hsign (unsigned?_isSome_iff.1 h)
  · rintro ⟨body, hstripped, ⟨hsign, hbody⟩⟩
    rw [ofString?_of_stripped hstripped hsign hbody, Option.isSome_map]
    exact unsigned?_isSome_iff.2 hbody

end LuaMachine.Number
