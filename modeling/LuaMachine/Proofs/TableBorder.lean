import LuaMachine.Proofs.ExactIntegers
import LuaMachine.Proofs.TableMap

/-!
The length of a table. It is found by halving when the array part ends in a hole, and otherwise by
counting on from the end of the array part; nothing lives right behind that end, so the count stops
where it starts. Either way the loops end at a border.
-/

namespace LuaMachine

namespace Table

variable {t : Table} {k : Key} {key v : Value} {front : Nat}

/-! ### The size of the array part -/

/-- The array part never grows behind the last integer that is a number of its own. -/
theorem migrate_size_le {fuel : Nat} (last : t.index[Key.position (2 ^ 53 + 1)]? = none)
    (le : t.array.size ≤ 2 ^ 53) : (t.migrate fuel).array.size ≤ 2 ^ 53 := by
  induction fuel generalizing t with
  | zero => exact le
  | succ fuel ih =>
    unfold migrate
    split
    case h_1 => exact le
    case h_2 slot lead =>
      dsimp only
      split
      case isTrue => exact le
      case isFalse =>
        have ne : t.array.size ≠ 2 ^ 53 := by
          intro eq
          rw [eq, last] at lead
          cases lead
        have room : (t.array.push (t.nodeValue slot)).size ≤ 2 ^ 53 := by
          rw [Array.size_push]
          omega
        refine ih ?_ room
        exact last

theorem Shaped.index_last (h : t.Shaped front) : t.index[Key.position (2 ^ 53 + 1)]? = none := by
  cases lead : t.index[Key.position (2 ^ 53 + 1)]? with
  | none => rfl
  | some slot =>
    obtain ⟨node, -, keyed⟩ := h.leads lead
    exact absurd keyed Value.key_ne

theorem setKey_size_le (h : t.WellFormed) (keyed : key.key = .ok k) (le : t.array.size ≤ 2 ^ 53) :
    (t.setKey k key v).array.size ≤ 2 ^ 53 := by
  have outside : (t.setInNodes k key v).array.size ≤ 2 ^ 53 := by
    rw [setInNodes_array]
    exact le
  cases k with
  | position i =>
    unfold setKey
    dsimp only
    split_ifs with inside next dead
    · change (t.array.setIfInBounds _ v).size ≤ 2 ^ 53
      rw [Array.size_setIfInBounds]
      exact le
    · rw [kill_array]
      exact le
    · have ne : t.array.size ≠ 2 ^ 53 := by
        intro eq
        rw [next, eq] at keyed
        exact Value.key_ne keyed
      apply migrate_size_le
      · exact (h.kill _).index_last
      · change ((t.kill _).array.push v).size ≤ 2 ^ 53
        rw [Array.size_push, kill_array]
        omega
    · exact outside
  | _ => exact outside

theorem size_built_le (as : List Assignment) : (built as).array.size ≤ 2 ^ 53 := by
  induction as using List.reverseRecOn with
  | nil => exact Nat.zero_le _
  | append_singleton as a ih =>
    rw [built_append, assign_eq]
    split
    case h_1 k keyed => exact setKey_size_le (wellFormed_built as) keyed ih
    case h_2 => exact ih

/-! ### Reading at an integer -/

theorem getInt_eq {n : Nat} (low : 0 < n) (le : n ≤ 2 ^ 53) : t.getInt n = t.getKey (.position n) := by
  unfold getInt
  split
  case isTrue inside =>
    rw [Int.toNat_natCast] at inside ⊢
    rw [getKey_of_lt low inside.2, Array.getElem?_eq_getElem (by omega), Option.getD_some]
  case isFalse => simp only [get, Value.key_ofInt low le]

/-- Nothing lives right behind the array part. -/
theorem WellFormed.getKey_behind (h : t.WellFormed) :
    t.getKey (.position (t.array.size + 1)) = .nil := by
  rw [getKey_of_beyond fun i same => Key.position.inj same ▸ Nat.lt_succ_self _]
  unfold getNode nodeValue
  cases lead : t.index[Key.position (t.array.size + 1)]? with
  | none => rfl
  | some slot =>
    obtain ⟨node, place, keyed⟩ := h.leads lead
    simp only [place]
    cases living : node.isDead with
    | true => exact Value.eq_nil living
    | false =>
      have mem : node ∈ t.nodes := Array.mem_iff_getElem?.mpr ⟨slot, place⟩
      exact absurd (h.ahead node mem living _ keyed) (Nat.lt_irrefl _)

/-! ### The loops -/

/-- The value at a position of the array part, `nil` outside. -/
def entry (array : Array Value) (i : Nat) : Value := (array[i - 1]?).getD .nil

/-- Halving the places from `i` to `j` ends at a place. -/
inductive Searches (array : Array Value) : Nat → Nat → Nat → Prop
  | done {i j : Nat} (close : j - i ≤ 1) : Searches array i j i
  | lower {i j k : Nat} (apart : 1 < j - i) (hole : (entry array ((i + j) / 2)).isNil)
    (rest : Searches array i ((i + j) / 2) k) : Searches array i j k
  | upper {i j k : Nat} (apart : 1 < j - i) (filled : ¬(entry array ((i + j) / 2)).isNil)
    (rest : Searches array ((i + j) / 2) j k) : Searches array i j k

/-- Counting on from an integer while the next one has a value ends at an integer. -/
inductive Counts (t : Table) : Nat → Nat → Prop
  | done {j : Nat} (free : (t.getInt (j + 1)).isNil) : Counts t j j
  | more {j k : Nat} (taken : ¬(t.getInt (j + 1)).isNil) (rest : Counts t (j + 1) k) : Counts t j k

/-- Measuring a table ends with a length. -/
inductive Measures (t : Table) : Nat → Prop
  | search {n : Nat} (hole : (t.array.back?.map Value.isNil).getD false)
    (search : Searches t.array 0 t.array.size n) : Measures t n
  | whole (full : ¬(t.array.back?.map Value.isNil).getD false) (dead : t.nodes.size = t.dead) :
    Measures t t.array.size
  | count {n : Nat} (full : ¬(t.array.back?.map Value.isNil).getD false)
    (living : t.nodes.size ≠ t.dead) (count : Counts t t.array.size n) : Measures t n

/-- An integer with a value, or zero, whose successor has none. -/
structure IsBorder (t : Table) (n : Nat) : Prop where
  filled : n = 0 ∨ ¬(t.getInt n).isNil
  free : (t.getInt (n + 1)).isNil

/-- Halving keeps a filled place below and a hole above, and ends with the two next to each other. -/
theorem searches_searchBorder {array : Array Value} {fuel i j : Nat} (apart : i < j)
    (enough : j - i ≤ fuel) (filled : i = 0 ∨ ¬(entry array i).isNil) (hole : (entry array j).isNil) :
    Searches array i j (searchBorder array fuel i j) ∧
      searchBorder array fuel i j < j ∧
      (searchBorder array fuel i j = 0 ∨ ¬(entry array (searchBorder array fuel i j)).isNil) ∧
      (entry array (searchBorder array fuel i j + 1)).isNil := by
  induction fuel generalizing i j with
  | zero => omega
  | succ fuel ih =>
    unfold searchBorder
    split
    case isTrue close =>
      obtain rfl : j = i + 1 := by omega
      exact ⟨.done close, apart, filled, hole⟩
    case isFalse wide =>
      dsimp only
      split
      case isTrue middle =>
        obtain ⟨search, below, rest⟩ := ih (by omega) (by omega) filled middle
        exact ⟨.lower (by omega) middle search, by omega, rest⟩
      case isFalse middle =>
        obtain ⟨search, below, rest⟩ := ih (by omega) (by omega) (.inr middle) hole
        exact ⟨.upper (by omega) middle search, below, rest⟩

theorem probe_of_free {fuel n : Nat} (free : (t.getInt (n + 1)).isNil) : t.probe fuel n = n := by
  cases fuel with
  | zero => rfl
  | succ fuel => exact if_pos free

/-! ### The border -/

theorem getInt_eq_entry {i : Nat} (low : 0 < i) (inside : i ≤ t.array.size) :
    t.getInt i = entry t.array i := by
  unfold getInt entry
  rw [Int.toNat_natCast, if_pos ⟨by omega, inside⟩]

/-- The length of a table is found, and it is a border. -/
theorem WellFormed.border (h : t.WellFormed) (lt : t.array.size < 2 ^ 53) :
    t.Measures t.border ∧ t.IsBorder t.border := by
  have free : (t.getInt (t.array.size + 1 : Nat)).isNil := by
    rw [getInt_eq (Nat.succ_pos _) lt, h.getKey_behind]
    rfl
  by_cases hole : (t.array.back?.map Value.isNil).getD false
  · have pos : 0 < t.array.size := by
      apply Nat.pos_of_ne_zero
      intro empty
      rw [Array.back?, Array.getElem?_eq_none (by omega)] at hole
      cases hole
    have last : (entry t.array t.array.size).isNil := by
      rw [Array.back?, Array.getElem?_eq_getElem (by omega)] at hole
      rw [entry, Array.getElem?_eq_getElem (by omega)]
      exact hole
    obtain ⟨search, below, filled, next⟩ := searches_searchBorder pos (Nat.le_refl _) (.inl rfl) last
    rw [show t.border = searchBorder t.array t.array.size 0 t.array.size from if_pos hole]
    refine ⟨.search hole search, ?_, ?_⟩
    · obtain zero | filled := filled
      · exact .inl zero
      · by_cases zero : searchBorder t.array t.array.size 0 t.array.size = 0
        · exact .inl zero
        · rw [getInt_eq_entry (Nat.pos_of_ne_zero zero) below.le]
          exact .inr filled
    · have inside := getInt_eq_entry (Nat.succ_pos _) below
      rw [← inside] at next
      exact next
  · have border : t.IsBorder t.array.size := by
      refine ⟨?_, free⟩
      by_cases empty : t.array.size = 0
      · exact .inl empty
      · rw [getInt_eq_entry (Nat.pos_of_ne_zero empty) le_rfl, entry,
          Array.getElem?_eq_getElem (by omega)]
        rw [Array.back?, Array.getElem?_eq_getElem (by omega)] at hole
        exact .inr hole
    unfold Table.border
    rw [if_neg hole]
    split
    case isTrue dead => exact ⟨.whole hole dead, border⟩
    case isFalse living =>
      rw [probe_of_free free]
      exact ⟨.count hole living (.done free), border⟩

/-- The length operator ends at a border, whatever a table was assigned. Left out is an array part
of `2 ^ 53` values: the integer behind it is no number, and reading there reads the last of them. -/
theorem border_is_border (as : List Assignment) :
    (built as).Measures (built as).border ∧ (built as).IsBorder (built as).border ∨
      (built as).array.size = 2 ^ 53 := by
  obtain lt | full := (size_built_le as).lt_or_eq
  · exact .inl ((wellFormed_built as).border lt)
  · exact .inr full

end Table

end LuaMachine
