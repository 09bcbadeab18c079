import LuaMachine.Proofs.TableNodes

/-!
A table is a finite map from keys to values. A key may live in the array part, in a living node or in
a dead one; growth of the array part moves runs of keys into it. Whatever the order of assignments,
the value at a key is the last one it was given.
-/

namespace LuaMachine

namespace Table

/-- A raw assignment, to a key or to an integer. -/
inductive Assignment
  | set (key v : Value)
  | setInt (i : Int) (v : Value)

namespace Assignment

def key : Assignment → Value
  | set key _ => key
  | setInt i _ => .ofInt i

def value : Assignment → Value
  | set _ v => v
  | setInt _ v => v

end Assignment

variable {t : Table} {k : Key} {key v : Value} {front slot : Nat}

theorem getKey_of_lt {i : Nat} (low : 1 ≤ i) (bound : i ≤ t.array.size) :
    t.getKey (.position i) = t.array[i - 1] := by
  simp only [getKey, Array.getElem?_eq_getElem (show i - 1 < t.array.size by omega)]

theorem getKey_of_beyond (beyond : ∀ i, k = .position i → t.array.size < i) :
    t.getKey k = t.getNode k := by
  cases k with
  | position i =>
    have : t.array.size ≤ i - 1 := Nat.le_sub_one_of_lt (beyond i rfl)
    simp only [getKey, Array.getElem?_eq_none this]
  | _ => rfl

/-- A key is inside of the array part or beyond it. -/
theorem inside_or_beyond (t : Table) (k : Key) : (∃ i, k = .position i ∧ i ≤ t.array.size) ∨
    ∀ i, k = .position i → t.array.size < i := by
  cases k with
  | position i =>
    rcases Nat.lt_or_ge t.array.size i with beyond | inside
    · exact .inr fun j same => Key.position.inj same ▸ beyond
    · exact .inl ⟨i, rfl, inside⟩
  | _ => exact .inr nofun

/-- A value pushed onto the array part is that of the position behind it. -/
theorem getKey_push (k : Key) (valid : k.Valid) :
    (t.modifyArray (·.push v)).getKey k =
      if k = .position (t.array.size + 1) then v else t.getKey k := by
  have size : (t.modifyArray (·.push v)).array.size = t.array.size + 1 := Array.size_push _
  rcases inside_or_beyond (t.modifyArray (·.push v)) k with ⟨i, rfl, inside⟩ | beyond
  · obtain ⟨low, -⟩ := valid
    rw [getKey_of_lt low inside]
    rw [size] at inside
    rcases Nat.lt_or_eq_of_le inside with inside | rfl
    · rw [if_neg (by simpa using inside.ne), getKey_of_lt low (Nat.le_of_lt_succ inside)]
      exact Array.getElem_push_lt _
    · rw [if_pos rfl]
      exact Array.getElem_push_eq
  · rw [size] at beyond
    rw [getKey_of_beyond (by rw [size]; exact beyond), getKey_of_beyond, if_neg]
    · rfl
    · rintro rfl
      exact absurd (beyond _ rfl) (Nat.lt_irrefl _)
    · intro i same
      exact Nat.lt_of_succ_lt (beyond i same)

/-- What changes the nodes only changes the values beyond the array part only. -/
theorem getKey_of_nodes {t' : Table} (array : t'.array = t.array)
    (beyond : ∀ i, k = .position i → t.array.size < i)
    (nodes : ∀ k', t'.getNode k' = if k' = k then v else t.getNode k') (k' : Key) :
    t'.getKey k' = if k' = k then v else t.getKey k' := by
  rcases inside_or_beyond t k' with ⟨i, rfl, inside⟩ | beyond'
  · have other : Key.position i ≠ k := by
      rintro rfl
      exact absurd inside (Nat.not_le_of_lt (beyond i rfl))
    simp only [getKey, array, nodes, if_neg other]
  · rw [getKey_of_beyond (by rw [array]; exact beyond'), getKey_of_beyond beyond', nodes]

/-- Moving the node behind the array part into it is no change of the contents. -/
theorem getKey_moved (h : t.Shaped front) {slot : Nat}
    (lead : t.index[Key.position (t.array.size + 1)]? = some slot) (d : Nat) (valid : k.Valid) :
    ((t.setNode slot .nil d).modifyArray (·.push (t.nodeValue slot))).getKey k = t.getKey k := by
  have beyond : ∀ i, Key.position (t.array.size + 1) = .position i → t.array.size < i :=
    fun i same => Key.position.inj same ▸ Nat.lt_succ_self _
  rw [getKey_push k valid, getKey_of_nodes (setNode_array d) beyond (getNode_setNode h lead d),
    setNode_array]
  split
  case isTrue same =>
    rw [same, getKey_of_beyond beyond]
    simp only [getNode, lead]
  case isFalse => rfl

theorem Shaped.wellFormed (h : t.Shaped t.array.size)
    (front : t.getNode (.position (t.array.size + 1)) = .nil) : t.WellFormed := by
  refine { h with ahead := ?_ }
  intro node mem living i keyed
  apply Nat.lt_of_le_of_ne (h.ahead node mem living i keyed)
  rintro rfl
  rw [h.getNode_of_mem mem keyed] at front
  rw [Node.isDead, front] at living
  cases living

/-- With fuel for every living node, what follows the array part is moved into it. -/
theorem Shaped.migrate {fuel : Nat} (h : t.Shaped t.array.size)
    (enough : t.nodes.size ≤ t.dead + fuel) :
    (t.migrate fuel).WellFormed ∧ ∀ k : Key, k.Valid → (t.migrate fuel).getKey k = t.getKey k := by
  -- every round kills one living node, so nodes that live are never more than the fuel left
  induction fuel generalizing t with
  | zero =>
    refine ⟨{ h with ahead := ?_ }, fun _ _ => rfl⟩
    have all : t.nodes.countP Node.isDead = t.nodes.size := by
      have : t.nodes.countP Node.isDead ≤ t.nodes.size := Array.countP_le_size
      rw [h.dead_eq] at enough
      omega
    intro node mem living
    rw [Array.countP_eq_size.mp all node mem] at living
    cases living
  | succ fuel ih =>
    unfold Table.migrate
    split
    case h_1 absent =>
      exact ⟨h.wellFormed (by simp only [getNode, absent]), fun _ _ => rfl⟩
    case h_2 slot lead =>
      dsimp only
      split
      case isTrue dead =>
        have front : t.getNode (.position (t.array.size + 1)) = .nil := by
          simp only [getNode, lead, Value.eq_nil dead]
        exact ⟨h.wellFormed front, fun _ _ => rfl⟩
      case isFalse living =>
        have killed : (t.setNode slot .nil (t.dead + 1)).WellFormed := by
          apply Shaped.wellFormed
          · apply h.setNode lead
            · rw [if_neg living]
              rfl
            · intro living
              cases living
          · rw [setNode_array, getNode_setNode h lead, if_pos rfl]
        have room : t.array.size + 1 < 2 ^ 63 := (h.key_valid lead).2
        have moved : ((t.setNode slot .nil (t.dead + 1)).modifyArray (·.push (t.nodeValue slot))).Shaped
            (t.array.push (t.nodeValue slot)).size := by
          rw [Array.size_push]
          apply Shaped.modifyArray killed
          rw [Array.size_push]
          exact room
        have size : (t.setNode slot .nil (t.dead + 1)).nodes.size = t.nodes.size := Array.size_modify
        obtain ⟨shaped, same⟩ := ih moved (by change (t.setNode slot .nil (t.dead + 1)).nodes.size ≤ t.dead + 1 + fuel; omega)
        exact ⟨shaped, fun k valid => (same k valid).trans (getKey_moved h lead _ valid)⟩

/-! ### Assignments -/

/-- What an assignment makes of a table. -/
def Assigns (t : Table) (k : Key) (v : Value) (t' : Table) : Prop :=
  t'.WellFormed ∧ ∀ k' : Key, k'.Valid → t'.getKey k' = if k' = k then v else t.getKey k'

theorem assigns_inside (h : t.WellFormed) {i : Nat} (low : 1 ≤ i) (inside : i ≤ t.array.size) :
    t.Assigns (.position i) v (t.modifyArray (·.setIfInBounds (i - 1) v)) := by
  have size : (t.modifyArray (·.setIfInBounds (i - 1) v)).array.size = t.array.size :=
    Array.size_setIfInBounds
  constructor
  · unfold WellFormed
    rw [size]
    apply h.modifyArray
    rw [Array.size_setIfInBounds]
    exact h.array_size
  · intro k' valid
    rcases inside_or_beyond t k' with ⟨j, rfl, inside'⟩ | beyond
    · obtain ⟨low', -⟩ := valid
      rw [getKey_of_lt low' (size ▸ inside'), getKey_of_lt low' inside']
      by_cases same : j = i
      · subst same
        rw [if_pos rfl]
        exact Array.getElem_setIfInBounds_self _
      · rw [if_neg (by simpa using same)]
        exact Array.getElem_setIfInBounds_ne _ (by omega)
    · rw [getKey_of_beyond (by rw [size]; exact beyond), getKey_of_beyond beyond, if_neg]
      · rfl
      · rintro rfl
        exact absurd inside (Nat.not_le_of_lt (beyond i rfl))

theorem assigns_push (h : t.WellFormed) (room : t.array.size + 1 < 2 ^ 63) :
    t.Assigns (.position (t.array.size + 1)) v
      ((t.modifyArray (·.push v)).migrate (t.modifyArray (·.push v)).nodes.size) := by
  have pushed : (t.modifyArray (·.push v)).Shaped (t.modifyArray (·.push v)).array.size := by
    have size : (t.modifyArray (·.push v)).array.size = t.array.size + 1 := Array.size_push _
    rw [size]
    apply h.modifyArray
    rw [Array.size_push]
    exact room
  obtain ⟨shaped, same⟩ := pushed.migrate (Nat.le_add_left _ _)
  exact ⟨shaped, fun k' valid => (same k' valid).trans (getKey_push k' valid)⟩

theorem assigns_front (h : t.WellFormed) (room : t.array.size + 1 < 2 ^ 63) :
    t.Assigns (.position (t.array.size + 1)) v (t.setKey (.position (t.array.size + 1)) key v) := by
  unfold setKey
  simp only [if_neg (Nat.not_succ_le_self _), if_true]
  have killed : (t.kill (.position (t.array.size + 1))).WellFormed := by
    unfold WellFormed
    rw [kill_array]
    exact h.kill _
  have contents := getKey_of_nodes kill_array
    (fun i same => Key.position.inj same ▸ Nat.lt_succ_self _)
    (getNode_kill h (.position (t.array.size + 1)))
  split
  case isTrue dead =>
    refine ⟨killed, fun k' _ => ?_⟩
    rw [Value.eq_nil dead]
    exact contents k'
  case isFalse =>
    have pushed := assigns_push (v := v) killed (by rw [kill_array]; exact room)
    rw [kill_array] at pushed
    refine ⟨pushed.1, fun k' valid => (pushed.2 k' valid).trans ?_⟩
    rw [contents]
    split <;> rfl

theorem assigns_setKey (h : t.WellFormed) (keyed : key.key = .ok k) :
    t.Assigns k v (t.setKey k key v) := by
  have valid := Value.key_valid keyed
  -- behind the gap after the array part, a position is a key like any other
  have outside (allowed : ∀ i, k = .position i → t.array.size + 1 < i) :
      t.Assigns k v (t.setInNodes k key v) := by
    constructor
    · unfold WellFormed
      rw [setInNodes_array]
      exact h.setInNodes keyed allowed
    · intro k' _
      exact getKey_of_nodes setInNodes_array (fun i same => Nat.lt_of_succ_lt (allowed i same))
        (getNode_setInNodes h) k'
  cases k with
  | position i =>
    rcases Nat.lt_trichotomy i (t.array.size + 1) with inside | rfl | beyond
    · have inside := Nat.le_of_lt_succ inside
      rw [show t.setKey (.position i) key v = _ from if_pos inside]
      exact assigns_inside h valid.1 inside
    · exact assigns_front h valid.2
    · unfold setKey
      dsimp only
      rw [if_neg (by omega), if_neg beyond.ne']
      exact outside fun j same => Key.position.inj same ▸ beyond
  | _ => exact outside nofun

/-! ### The map after any assignments -/

/-- The table after an assignment: the same one if the key is rejected. -/
def assign (t : Table) : Assignment → Table
  | .set key v =>
    match t.set key v with
    | .ok t' => t'
    | .error _ => t
  | .setInt i v => t.setInt i v

/-- The table some assignments make of the empty one. -/
def built (assignments : List Assignment) : Table := assignments.foldl assign empty

/-- The last value some assignments give to a key raw equal to this one. -/
def lastValue (assignments : List Assignment) (k : Value) : Value :=
  assignments.foldl (fun last a => if a.key.rawEquals k then a.value else last) .nil

/-- The parts of a table agree on a finite map. -/
structure FiniteMap (t : Table) : Prop where
  keyed : ∀ node ∈ t.nodes, ∃ k, node.key.key = .ok k
  distinct : t.nodes.toList.Pairwise fun a b => ¬a.key.rawEquals b.key
  indexed : ∀ (k : Key) (slot : Nat), t.index[k]? = some slot ↔
    ∃ node : Node, t.nodes[slot]? = some node ∧ node.key.key = .ok k
  dead_eq : t.dead = t.nodes.countP fun node => node.value.isNil
  ahead : ∀ node ∈ t.nodes, ¬node.value.isNil → ∀ n i, node.key = .number n →
    Number.position? n = some i → t.array.size + 1 < i

theorem WellFormed.finiteMap (h : t.WellFormed) : t.FiniteMap where
  keyed := by
    intro node mem
    obtain ⟨slot, place⟩ := Array.mem_iff_getElem?.mp mem
    obtain ⟨k, keyed, -⟩ := h.placed place
    exact ⟨k, keyed⟩
  distinct := by
    apply List.Pairwise.imp_of_mem _ (List.pairwise_map.mp h.nodup)
    intro a b memA _ different same
    obtain ⟨slot, place⟩ := Array.mem_iff_getElem?.mp (Array.mem_toList_iff.mp memA)
    obtain ⟨k, keyed, -⟩ := h.placed place
    exact different (keyed.trans ((Value.rawEquals_iff_key keyed).mp same).symm)
  indexed := fun _ _ => ⟨h.leads, fun ⟨_, place, keyed⟩ => h.index_of_mem place keyed⟩
  dead_eq := h.dead_eq
  ahead := by
    intro node mem living n i number place
    obtain ⟨slot, at_slot⟩ := Array.mem_iff_getElem?.mp mem
    obtain ⟨k, keyed, -⟩ := h.placed at_slot
    have position : k = .position i := by
      rw [number] at keyed
      exact (Value.key_of_number keyed).2.symm.trans (by simp only [Key.ofNumber, place])
    exact h.ahead node mem (Bool.not_eq_true _ ▸ living) i (position ▸ keyed)

theorem assign_eq (a : Assignment) : t.assign a =
    match a.key.key with
    | .ok k => t.setKey k a.key a.value
    | .error _ => t := by
  cases a with
  | set key v =>
    unfold assign set
    dsimp only [Assignment.key, Assignment.value]
    cases key.key <;> rfl
  | setInt i v => rfl

theorem WellFormed.assign (h : t.WellFormed) (a : Assignment) : (t.assign a).WellFormed := by
  rw [assign_eq]
  split
  case h_1 k keyed => exact (assigns_setKey h keyed).1
  case h_2 => exact h

theorem get_assign (h : t.WellFormed) (a : Assignment) (k : Value) :
    (t.assign a).get k = if a.key.rawEquals k ∧ ¬k.isNil then a.value else t.get k := by
  rw [assign_eq]
  split
  case h_1 ka keyed =>
    have same := Value.rawEquals_iff_key keyed (w := k)
    unfold get
    cases keyed' : k.key with
    | ok kb =>
      have proper : k.isNil = false := by
        cases k with
        | nil => cases keyed'
        | _ => rfl
      rw [keyed', Except.ok.injEq] at same
      simp only [(assigns_setKey h keyed).2 kb (Value.key_valid keyed'), same, proper,
        Bool.false_eq_true, not_false_eq_true, and_true]
    | error e =>
      rw [keyed'] at same
      simp only [same, reduceCtorEq, false_and, if_false]
  case h_2 e rejected =>
    rw [if_neg]
    intro ⟨same, proper⟩
    exact proper (Value.isNil_of_rawEquals rejected same)

theorem built_append (as : List Assignment) (a : Assignment) :
    built (as ++ [a]) = (built as).assign a := by
  simp only [built, List.foldl_append, List.foldl_cons, List.foldl_nil]

theorem lastValue_append (as : List Assignment) (a : Assignment) (k : Value) :
    lastValue (as ++ [a]) k = if a.key.rawEquals k then a.value else lastValue as k := by
  simp only [lastValue, List.foldl_append, List.foldl_cons, List.foldl_nil]

theorem wellFormed_built (as : List Assignment) : (built as).WellFormed := by
  induction as using List.reverseRecOn with
  | nil => exact empty_wellFormed
  | append_singleton as a ih =>
    rw [built_append]
    exact ih.assign a

theorem get_built (as : List Assignment) {k : Value} (proper : k.isNil = false) :
    (built as).get k = lastValue as k := by
  induction as using List.reverseRecOn with
  | nil =>
    unfold get
    cases keyed : k.key with
    | ok k' =>
      have valid := Value.key_valid keyed
      have beyond : ∀ i, k' = .position i → empty.array.size < i :=
        fun i same => (same ▸ valid : (Key.position i).Valid).1
      apply (getKey_of_beyond beyond).trans
      exact empty_wellFormed.getNode_of_forall_ne (by simp [empty])
    | error e => rfl
  | append_singleton as a ih =>
    rw [built_append, get_assign (wellFormed_built as), lastValue_append, ih]
    simp only [proper, Bool.false_eq_true, not_false_eq_true, and_true]

theorem set_error_iff (t : Table) (k v : Value) :
    (∃ e, t.set k v = .error e) ↔ k.isNil ∨ k = .number .nan := by
  rw [← Value.key_eq_error_iff]
  unfold set
  cases k.key <;> simp

theorem get_of_no_key (t : Table) {k : Value} (h : k.isNil ∨ k = .number .nan) : t.get k = .nil := by
  obtain ⟨e, rejected⟩ := Value.key_eq_error_iff.mpr h
  simp only [get, rejected]

theorem assign_of_no_key (t : Table) {k : Value} (h : k.isNil ∨ k = .number .nan) (v : Value) :
    t.assign (.set k v) = t := by
  obtain ⟨e, rejected⟩ := (set_error_iff t k v).mpr h
  simp only [assign, rejected]

/-- Raw equal keys are one key, and all of them are unknown or none is. -/
theorem get_congr (t : Table) {k k' : Value} (same : k.rawEquals k') : t.get k = t.get k' := by
  unfold get
  cases keyed : k.key with
  | ok key => rw [(Value.rawEquals_iff_key keyed).mp same]
  | error e => rw [Value.eq_nil (Value.isNil_of_rawEquals keyed same)]; rfl

/-- A table is a finite map, whatever it was assigned. -/
theorem built_is_finite_map (as : List Assignment) :
    (built as).FiniteMap ∧
      (∀ k, k.isNil = false → (built as).get k = lastValue as k) ∧
      (∀ k, k.isNil ∨ k = .number .nan → (built as).get k = .nil) ∧
      (∀ a k, (built (as ++ [a])).get k =
        if a.key.rawEquals k ∧ ¬k.isNil then a.value else (built as).get k) ∧
      (∀ k k', k.rawEquals k' → (built as).get k = (built as).get k') ∧
      (Value.number 0).rawEquals (.number (-0)) ∧
      (∀ k v, (∃ e, (built as).set k v = .error e) ↔ k.isNil ∨ k = .number .nan) ∧
      ∀ k v, k.isNil ∨ k = .number .nan → built (as ++ [.set k v]) = built as := by
  have shaped := wellFormed_built as
  refine ⟨shaped.finiteMap, fun _ => get_built as, fun _ => get_of_no_key _, ?_, ?_, ?_, ?_, ?_⟩
  · intro a k
    rw [built_append, get_assign shaped]
  · exact fun _ _ => get_congr _
  · decide
  · exact set_error_iff _
  · intro k v none
    rw [built_append, assign_of_no_key _ none]

end Table

end LuaMachine
