import Mathlib
import LuaMachine.Table

/-!
Keys stand for values up to raw equality: two values that can be keys have the same key exactly when
they are raw equal. For numbers this rests on what IEEE equality identifies, which is the two zeros
and nothing else.
-/

namespace LuaMachine

namespace Number

theorem position?_eq_some {n : Float} {i : Nat} (h : position? n = some i) :
    1 ≤ i ∧ i < 2 ^ 63 ∧ n.toUInt64.toFloat == n ∧ n.toUInt64.toNat = i := by
  simp only [position?, Bool.and_eq_true, decide_eq_true_eq] at h
  split at h
  case isTrue bounds =>
    obtain ⟨⟨low, high⟩, same⟩ := bounds
    cases h
    exact ⟨UInt64.le_iff_toNat_le.mp low, UInt64.lt_iff_toNat_lt.mp high, same, rfl⟩
  case isFalse => cases h

/-- A position is that of one number only. -/
theorem beq_of_position? {n m : Float} {i : Nat} (hn : position? n = some i)
    (hm : position? m = some i) : n == m := by
  obtain ⟨-, -, sameN, eqN⟩ := position?_eq_some hn
  obtain ⟨-, -, sameM, eqM⟩ := position?_eq_some hm
  have same : n.toUInt64 = m.toUInt64 := UInt64.toNat_inj.mp (eqN.trans eqM.symm)
  rw [same] at sameN
  exact PartialEquivBEq.trans (PartialEquivBEq.symm sameN) sameM

theorem toBits_ne_zero {n : Float} (nonzero : ¬n == 0) : n.toBits ≠ 0 := by
  intro h
  apply nonzero
  rw [show n = 0 from Float.toBits_inj.mp h]
  decide

end Number

namespace Key

/-- The three forms of the key of a number. -/
theorem ofNumber_cases (n : Float) :
    (∃ i, Number.position? n = some i ∧ ofNumber n = .position i) ∨
      (n == 0 ∧ ofNumber n = .number 0) ∨ (¬n == 0 ∧ ofNumber n = .number n.toBits) := by
  unfold ofNumber
  cases Number.position? n with
  | some i => exact .inl ⟨i, rfl, rfl⟩
  | none =>
    by_cases zero : n == 0
    · exact .inr (.inl ⟨zero, if_pos zero⟩)
    · exact .inr (.inr ⟨zero, if_neg zero⟩)

theorem ofNumber_of_beq {n m : Float} (h : n == m) : ofNumber n = ofNumber m := by
  obtain ⟨-, -, rfl | ⟨rfl, rfl⟩ | ⟨rfl, rfl⟩⟩ := Float.beq_iff_ne_nan_and_eq.mp h
  · rfl
  · decide
  · decide

theorem beq_of_ofNumber {n m : Float} (proper : n ≠ .nan) (h : ofNumber n = ofNumber m) :
    n == m := by
  rcases ofNumber_cases n with ⟨i, atN, keyN⟩ | ⟨zeroN, keyN⟩ | ⟨nonzeroN, keyN⟩ <;>
    rcases ofNumber_cases m with ⟨j, atM, keyM⟩ | ⟨zeroM, keyM⟩ | ⟨nonzeroM, keyM⟩ <;>
    rw [keyN, keyM] at h
  case inl.inl =>
    cases h
    exact Number.beq_of_position? atN atM
  case inr.inl.inr.inl => exact PartialEquivBEq.trans zeroN (PartialEquivBEq.symm zeroM)
  case inr.inl.inr.inr => exact absurd (Key.number.inj h).symm (Number.toBits_ne_zero nonzeroM)
  case inr.inr.inr.inl => exact absurd (Key.number.inj h) (Number.toBits_ne_zero nonzeroN)
  case inr.inr.inr.inr =>
    rw [Float.toBits_inj.mp (Key.number.inj h)] at proper ⊢
    exact Float.beq_self_iff.mpr proper
  all_goals cases h

/-- A position is one a number can have. -/
def Valid : Key → Prop
  | position i => 1 ≤ i ∧ i < 2 ^ 63
  | _ => True

end Key

namespace Value

theorem key_number {n : Float} (proper : n ≠ .nan) : (number n).key = .ok (.ofNumber n) := by
  simp [key, proper]

theorem key_nan : (number .nan).key = .error .nanIndex := by
  simp [key]

theorem key_of_number {n : Float} {k : Key} (h : (number n).key = .ok k) :
    n ≠ .nan ∧ Key.ofNumber n = k := by
  have proper : n ≠ .nan := by
    rintro rfl
    rw [key_nan] at h
    cases h
  rw [key_number proper] at h
  exact ⟨proper, Except.ok.inj h⟩

theorem key_valid {v : Value} {k : Key} (h : v.key = .ok k) : k.Valid := by
  cases v with
  | nil => cases h
  | number n =>
    obtain ⟨-, rfl⟩ := key_of_number h
    rcases Key.ofNumber_cases n with ⟨i, place, eq⟩ | ⟨-, eq⟩ | ⟨-, eq⟩ <;> rw [eq]
    · obtain ⟨low, high, -⟩ := Number.position?_eq_some place
      exact ⟨low, high⟩
    · trivial
    · trivial
  | _ => cases h; trivial

/-- What is no key: `nil` and NaN. -/
theorem key_eq_error_iff {v : Value} :
    (∃ e, v.key = .error e) ↔ v.isNil ∨ v = number .nan := by
  cases v with
  | number n =>
    by_cases proper : n = .nan
    · simp [proper, key_nan]
    · simp [key_number proper, isNil, proper]
  | _ => simp [key, isNil]

/-- The key of a number is not that of another kind of value. -/
theorem key_number_ne {v : Value} {k : Key} (h : v.key = .ok k) (other : v.type ≠ .number)
    (n : Float) : (number n).key ≠ .ok k := by
  intro same
  obtain ⟨-, rfl⟩ := key_of_number same
  cases v with
  | number m => exact other rfl
  | _ =>
    rcases Key.ofNumber_cases n with ⟨_, _, eq⟩ | ⟨_, eq⟩ | ⟨_, eq⟩ <;> rw [eq] at h <;> cases h

theorem rawEquals_of_types {v w : Value} (h : v.type ≠ w.type) : v.rawEquals w = false := by
  cases v <;> cases w <;> first | rfl | exact absurd rfl h

/-- Equality of keys is raw equality. -/
theorem rawEquals_iff_key {v w : Value} {k : Key} (h : v.key = .ok k) :
    v.rawEquals w ↔ w.key = .ok k := by
  cases v with
  | nil => cases h
  | number n =>
    obtain ⟨proper, rfl⟩ := key_of_number h
    cases w with
    | number m =>
      constructor
      · intro same
        -- zeros of either sign are one key, and no NaN equals anything
        have properM : m ≠ .nan := (Float.beq_iff_ne_nan_and_eq.mp same).2.1
        rw [key_number properM, Key.ofNumber_of_beq same]
      · intro keyM
        exact Key.beq_of_ofNumber proper (key_of_number keyM).2.symm
    | _ =>
      rw [rawEquals_of_types (by simp [type])]
      apply iff_of_false Bool.false_ne_true
      intro keyW
      exact key_number_ne keyW (by simp [type]) n h
  | _ =>
    cases w with
    | number m =>
      rw [rawEquals_of_types (by simp [type])]
      exact iff_of_false Bool.false_ne_true (key_number_ne h (by simp [type]) m)
    | _ => cases h; constructor <;> simp +contextual [rawEquals, key]

/-- What is no key is raw equal to `nil` at most. -/
theorem isNil_of_rawEquals {v w : Value} {e : KeyError} (h : v.key = .error e)
    (same : v.rawEquals w) : w.isNil := by
  rcases key_eq_error_iff.mp ⟨e, h⟩ with isNil | rfl
  · cases v with
    | nil => cases w <;> first | rfl | cases same
    | _ => cases isNil
  · cases w with
    | number m => exact absurd same (by simp [rawEquals])
    | _ => cases same

end Value

end LuaMachine
