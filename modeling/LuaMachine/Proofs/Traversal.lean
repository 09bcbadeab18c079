import LuaMachine.Proofs.TableBorder

/-!
Traversal of a table by `next`, while values are assigned to the keys that have one. The entries of
both parts stand in one order, dead ones included, and a key leads to a cursor in it. Such an
assignment moves no cursor and revives no entry, so a traversal only goes forward and passes by no
key that keeps a value.
-/

namespace LuaMachine

namespace Table

variable {t t' t'' : Table} {k : Key} {key key' v : Value} {entry : Value × Value}
variable {start q : Nat}

/-! ### The order of the entries -/

def arrayPairs (t : Table) : List (Value × Value) :=
  t.array.toList.mapIdx fun i v => (.ofNat (i + 1), v)

def nodePairs (t : Table) : List (Value × Value) :=
  t.nodes.toList.map fun node => (node.key, node.value)

/-- The keys with their values in the order of a traversal, whether they have one or not. -/
def pairs (t : Table) : List (Value × Value) := t.arrayPairs ++ t.nodePairs

def isLive (entry : Value × Value) : Bool := !entry.2.isNil

/-- An entry with a value stands at this place. -/
def Lives (t : Table) (q : Nat) : Prop := ∃ entry, t.pairs[q]? = some entry ∧ isLive entry

/-- The place of a key in the order. -/
def place? (t : Table) (k : Key) : Option Nat :=
  match k with
  | .position i => if i ≤ t.array.size then some (i - 1) else t.index[k]?.map (t.array.size + ·)
  | k => t.index[k]?.map (t.array.size + ·)

/-- Where a traversal goes on that has come to a key. -/
def cursor? (t : Table) (key : Value) : Option Nat :=
  match key.key with
  | .ok k => (t.place? k).map (· + 1)
  | .error .nilIndex => some 0
  | .error .nanIndex => none

theorem cursor?_nil : t.cursor? .nil = some 0 := rfl

@[simp] theorem length_arrayPairs : t.arrayPairs.length = t.array.size := by
  simp [arrayPairs]

@[simp] theorem length_nodePairs : t.nodePairs.length = t.nodes.size := by
  simp [nodePairs]

@[simp] theorem length_pairs : t.pairs.length = t.array.size + t.nodes.size := by
  simp [pairs]

theorem pairs_of_lt (inside : q < t.array.size) :
    t.pairs[q]? = some (.ofNat (q + 1), t.array[q]) := by
  rw [pairs, List.getElem?_append_left (by simpa using inside)]
  simp [arrayPairs, inside]

theorem pairs_of_node (slot : Nat) :
    t.pairs[t.array.size + slot]? = t.nodes[slot]?.map fun node => (node.key, node.value) := by
  rw [pairs, List.getElem?_append_right (by simp)]
  simp [nodePairs]

theorem place?_of_beyond (beyond : ∀ i, k = .position i → t.array.size < i) :
    t.place? k = t.index[k]?.map (t.array.size + ·) := by
  cases k with
  | position i => exact if_neg (Nat.not_le_of_lt (beyond i rfl))
  | _ => rfl

/-! ### The next entry -/

theorem findInArray_eq {n i : Nat} (h : i + n = t.array.size) :
    findInArray t.array n i = (t.arrayPairs.drop i).find? isLive := by
  induction n generalizing i with
  | zero =>
    rw [List.drop_eq_nil_of_le (by simp; omega)]
    rfl
  | succ n ih =>
    have lt : i < t.array.size := by omega
    have head : t.arrayPairs.drop i =
        (.ofNat (i + 1), t.array[i]) :: t.arrayPairs.drop (i + 1) := by
      rw [List.drop_eq_getElem_cons (by simpa using lt)]
      simp [arrayPairs]
    rw [findInArray, Array.getElem?_eq_getElem lt, head, List.find?_cons, ih (by omega)]
    cases live : t.array[i].isNil <;> simp [isLive, live]

theorem findInNodes_eq {n i : Nat} (h : i + n = t.nodes.size) :
    findInNodes t.nodes n i = (t.nodePairs.drop i).find? isLive := by
  induction n generalizing i with
  | zero =>
    rw [List.drop_eq_nil_of_le (by simp; omega)]
    rfl
  | succ n ih =>
    have lt : i < t.nodes.size := by omega
    have head : t.nodePairs.drop i =
        (t.nodes[i].key, t.nodes[i].value) :: t.nodePairs.drop (i + 1) := by
      rw [List.drop_eq_getElem_cons (by simpa using lt)]
      simp [nodePairs]
    rw [findInNodes, Array.getElem?_eq_getElem lt, head, List.find?_cons, ih (by omega)]
    cases live : t.nodes[i].value.isNil <;> simp [isLive, live]

/-- From a place in the array part on, the nodes follow. -/
theorem find_fromArray (inside : start ≤ t.array.size) :
    (match t.nextInArray start with
      | some entry => some entry
      | none => t.nextInNodes 0) = (t.pairs.drop start).find? isLive := by
  have array : t.nextInArray start = (t.arrayPairs.drop start).find? isLive :=
    findInArray_eq (Nat.add_sub_cancel' inside)
  have nodes : t.nextInNodes 0 = t.nodePairs.find? isLive := findInNodes_eq (Nat.zero_add _)
  rw [pairs, List.drop_append_of_le_length (by simpa using inside), List.find?_append, array, nodes]
  cases (t.arrayPairs.drop start).find? isLive <;> rfl

theorem find_fromNodes {slot : Nat} (inside : slot ≤ t.nodes.size) :
    t.nextInNodes slot = (t.pairs.drop (t.array.size + slot)).find? isLive := by
  have nodes : t.nextInNodes slot = (t.nodePairs.drop slot).find? isLive :=
    findInNodes_eq (Nat.add_sub_cancel' inside)
  rw [nodes, pairs, ← length_arrayPairs, List.drop_length_add_append]

/-- The next entry is the first one that lives from the cursor on. Only unknown keys fail. -/
theorem WellFormed.next_eq (h : t.WellFormed) (key : Value) : t.next key =
    match t.cursor? key with
    | some start => .ok ((t.pairs.drop start).find? isLive)
    | none => .error () := by
  have fromNodes (k : Key) :
      (match t.index[k]? with
        | some slot => .ok (t.nextInNodes (slot + 1))
        | none => .error () : Except Unit (Option (Value × Value))) =
      match (t.index[k]?.map (t.array.size + ·)).map (· + 1) with
      | some start => .ok ((t.pairs.drop start).find? isLive)
      | none => .error () := by
    cases lead : t.index[k]? with
    | none => rfl
    | some slot =>
      obtain ⟨node, place, -⟩ := h.leads lead
      exact congrArg Except.ok (find_fromNodes (Array.getElem?_eq_some_iff.mp place).1)
  unfold next cursor?
  cases keyed : key.key with
  | error e =>
    cases e with
    | nilIndex => exact congrArg Except.ok (find_fromArray (Nat.zero_le _))
    | nanIndex => rfl
  | ok k =>
    cases k with
    | position i =>
      dsimp only [place?]
      by_cases inside : i ≤ t.array.size
      · rw [if_pos inside, if_pos inside]
        have low : 1 ≤ i := (Value.key_valid keyed).1
        change _ = Except.ok ((t.pairs.drop (i - 1 + 1)).find? isLive)
        rw [Nat.sub_add_cancel low]
        exact congrArg Except.ok (find_fromArray inside)
      · rw [if_neg inside, if_neg inside]
        exact fromNodes _
    | _ => exact fromNodes _

theorem not_lives_of_find (ended : (t.pairs.drop start).find? isLive = none) (behind : start ≤ q) :
    ¬t.Lives q := by
  rintro ⟨entry, place, live⟩
  obtain ⟨n, rfl⟩ := Nat.exists_eq_add_of_le behind
  rw [← List.getElem?_drop] at place
  exact List.find?_eq_none.mp ended entry (List.mem_of_getElem? place) live

/-! ### Keys and places -/

/-- The key of a living entry leads to its place, and to its value. -/
theorem WellFormed.of_lives (h : t.WellFormed) (small : t.array.size ≤ 2 ^ 53)
    (place : t.pairs[q]? = some entry) (live : isLive entry) :
    ∃ k, entry.1.key = .ok k ∧ t.place? k = some q ∧ t.getKey k = entry.2 := by
  obtain inside | outside := Nat.lt_or_ge q t.array.size
  · rw [pairs_of_lt inside] at place
    cases place
    refine ⟨.position (q + 1), Value.key_ofNat (Nat.succ_pos q) (by omega), ?_, ?_⟩
    · exact if_pos (Nat.succ_le_of_lt inside)
    · exact getKey_of_lt (Nat.succ_pos q) (Nat.succ_le_of_lt inside)
  · obtain ⟨slot, rfl⟩ := Nat.exists_eq_add_of_le outside
    rw [pairs_of_node] at place
    obtain ⟨node, found, rfl⟩ := Option.map_eq_some_iff.mp place
    obtain ⟨k, keyed, lead⟩ := h.placed found
    have mem : node ∈ t.nodes := Array.mem_iff_getElem?.mpr ⟨slot, found⟩
    have beyond : ∀ i, k = .position i → t.array.size < i := by
      rintro i rfl
      have living : node.isDead = false := by simpa [isLive, Node.isDead] using live
      exact Nat.lt_of_succ_lt (h.ahead node mem living i keyed)
    refine ⟨k, keyed, ?_, ?_⟩
    · rw [place?_of_beyond beyond, lead]
      rfl
    · rw [getKey_of_beyond beyond, h.getNode_of_mem mem keyed]

/-- A key with a value has a place, where that value stands. -/
theorem WellFormed.exists_place (h : t.WellFormed) (valid : k.Valid)
    (present : ¬(t.getKey k).isNil) :
    ∃ q entry, t.place? k = some q ∧ t.pairs[q]? = some entry ∧ entry.2 = t.getKey k := by
  obtain ⟨i, rfl, inside⟩ | beyond := inside_or_beyond t k
  · obtain ⟨low, -⟩ := valid
    refine ⟨i - 1, _, if_pos inside, pairs_of_lt (by omega), ?_⟩
    exact (getKey_of_lt low inside).symm
  · rw [getKey_of_beyond beyond] at present ⊢
    rw [place?_of_beyond beyond]
    cases lead : t.index[k]? with
    | none => simp [getNode, lead, Value.isNil] at present
    | some slot =>
      obtain ⟨node, place, -⟩ := h.leads lead
      refine ⟨t.array.size + slot, (node.key, node.value), rfl, ?_, ?_⟩
      · rw [pairs_of_node, place]
        rfl
      · simp only [getNode, lead, nodeValue, place]

/-- No two keys have one place. -/
theorem WellFormed.place?_inj {k' : Key} (h : t.WellFormed) (valid : k.Valid) (valid' : k'.Valid)
    (place : t.place? k = some q) (place' : t.place? k' = some q) : k = k' := by
  have cases' (k : Key) (valid : k.Valid) (place : t.place? k = some q) :
      (k = .position (q + 1) ∧ q < t.array.size) ∨
        ∃ slot, q = t.array.size + slot ∧ t.index[k]? = some slot := by
    obtain ⟨i, rfl, inside⟩ | beyond := inside_or_beyond t k
    · obtain ⟨low, -⟩ := valid
      obtain rfl : i - 1 = q := Option.some.inj ((if_pos inside).symm.trans place)
      rw [Nat.sub_add_cancel low]
      exact .inl ⟨rfl, by omega⟩
    · rw [place?_of_beyond beyond] at place
      obtain ⟨slot, lead, rfl⟩ := Option.map_eq_some_iff.mp place
      exact .inr ⟨slot, rfl, lead⟩
  obtain ⟨rfl, inside⟩ | ⟨slot, eq, lead⟩ := cases' k valid place <;>
    obtain ⟨rfl, inside'⟩ | ⟨slot', eq', lead'⟩ := cases' k' valid' place'
  · rfl
  · omega
  · omega
  · obtain rfl : slot = slot' := by omega
    obtain ⟨node, found, keyed⟩ := h.leads lead
    obtain ⟨node', found', keyed'⟩ := h.leads lead'
    rw [found] at found'
    cases found'
    exact Except.ok.inj (keyed.symm.trans keyed')

/-! ### Assignments to keys that are there -/

/-- A table has moved no entry of another one and revived none. -/
structure Keeps (t t' : Table) : Prop where
  size : t'.array.size = t.array.size
  nodes : t'.nodes.size = t.nodes.size
  index : t'.index = t.index
  dead : ∀ q, t'.Lives q → t.Lives q

theorem Keeps.refl (t : Table) : t.Keeps t where
  size := rfl
  nodes := rfl
  index := rfl
  dead := fun _ lives => lives

theorem Keeps.trans (first : t.Keeps t') (second : t'.Keeps t'') : t.Keeps t'' where
  size := second.size.trans first.size
  nodes := second.nodes.trans first.nodes
  index := second.index.trans first.index
  dead := fun q lives => first.dead q (second.dead q lives)

theorem Keeps.cursor?_eq (h : t.Keeps t') (key : Value) : t'.cursor? key = t.cursor? key := by
  have place (k : Key) : t'.place? k = t.place? k := by
    unfold place?
    rw [h.size, h.index]
  unfold cursor?
  simp only [place]

/-- What leaves the entries alone but for one that lives revives none. -/
theorem Keeps.of_pairs (size : t'.array.size = t.array.size) (nodes : t'.nodes.size = t.nodes.size)
    (index : t'.index = t.index) (lives : t.Lives start)
    (others : ∀ q, q ≠ start → t'.pairs[q]? = t.pairs[q]?) : t.Keeps t' where
  size := size
  nodes := nodes
  index := index
  dead := by
    rintro q ⟨entry, place, live⟩
    by_cases here : q = start
    · exact here ▸ lives
    · exact ⟨entry, (others q here).symm.trans place, live⟩

theorem keeps_setIfInBounds (lives : t.Lives q) :
    t.Keeps (t.modifyArray (·.setIfInBounds q v)) := by
  have size : (t.modifyArray (·.setIfInBounds q v)).array.size = t.array.size :=
    Array.size_setIfInBounds
  apply Keeps.of_pairs size rfl rfl lives
  intro p other
  obtain inside | outside := Nat.lt_or_ge p t.array.size
  · rw [pairs_of_lt inside, pairs_of_lt (size ▸ inside)]
    have bound : p < (t.array.setIfInBounds q v).size := size ▸ inside
    have same : (t.array.setIfInBounds q v)[p] = t.array[p] :=
      Array.getElem_setIfInBounds_ne _ other.symm
    exact congrArg (fun v => some (Value.ofNat (p + 1), v)) same
  · obtain ⟨slot, rfl⟩ := Nat.exists_eq_add_of_le outside
    rw [pairs_of_node]
    exact (size ▸ pairs_of_node slot :)

theorem keeps_setNode {slot : Nat} (lives : t.Lives (t.array.size + slot)) (d : Nat) :
    t.Keeps (t.setNode slot v d) := by
  have nodes : (t.setNode slot v d).nodes.size = t.nodes.size := Array.size_modify
  refine Keeps.of_pairs rfl nodes rfl lives ?_
  intro p other
  obtain inside | outside := Nat.lt_or_ge p t.array.size
  · rw [pairs_of_lt inside]
    exact pairs_of_lt (t := t.setNode slot v d) inside
  · obtain ⟨slot', rfl⟩ := Nat.exists_eq_add_of_le outside
    rw [pairs_of_node]
    refine (pairs_of_node slot').trans ?_
    change ((t.nodes.modify slot _)[slot']?).map _ = _
    rw [Array.getElem?_modify, if_neg (by omega)]

/-- Assigning to a key that has a value. -/
theorem WellFormed.keeps_setKey (h : t.WellFormed) (valid : k.Valid)
    (present : ¬(t.getKey k).isNil) : t.Keeps (t.setKey k key v) := by
  obtain ⟨q, entry, at_place, found, eq⟩ := h.exists_place valid present
  have lives : t.Lives q := ⟨entry, found, by simpa [isLive, eq] using present⟩
  have node (beyond : ∀ i, k = .position i → t.array.size < i) :
      t.Keeps (t.setInNodes k key v) := by
    rw [place?_of_beyond beyond] at at_place
    obtain ⟨slot, lead, rfl⟩ := Option.map_eq_some_iff.mp at_place
    unfold setInNodes
    simp only [lead]
    exact keeps_setNode lives _
  cases k with
  | position i =>
    unfold setKey
    dsimp only
    split_ifs with inside next dead
    · obtain rfl : i - 1 = q := Option.some.inj ((if_pos inside).symm.trans at_place)
      exact keeps_setIfInBounds lives
    -- right behind the array part nothing lives
    · rw [next, h.getKey_behind] at present
      exact absurd rfl present
    · rw [next, h.getKey_behind] at present
      exact absurd rfl present
    · exact node fun j same => Key.position.inj same ▸ Nat.lt_of_not_le inside
  | _ => exact node nofun

theorem WellFormed.keeps_assign (h : t.WellFormed) (a : Assignment)
    (present : ¬(t.get a.key).isNil) : t.Keeps (t.assign a) := by
  rw [assign_eq]
  cases keyed : a.key.key with
  | error e => exact Keeps.refl t
  | ok k =>
    simp only [get, keyed] at present
    exact h.keeps_setKey (Value.key_valid keyed) present

/-- The table after some assignments. -/
def updated (t : Table) (as : List Assignment) : Table := as.foldl assign t

/-- Each assignment is to a key that has a value at that moment. -/
def Permits (t : Table) : List Assignment → Prop
  | [] => True
  | a :: as => ¬(t.get a.key).isNil ∧ (t.assign a).Permits as

theorem WellFormed.updated (h : t.WellFormed) (as : List Assignment) :
    (t.updated as).WellFormed := by
  induction as generalizing t with
  | nil => exact h
  | cons a as ih => exact ih (h.assign a)

theorem WellFormed.keeps_updated {as : List Assignment} (h : t.WellFormed)
    (permitted : t.Permits as) : t.Keeps (t.updated as) := by
  induction as generalizing t with
  | nil => exact Keeps.refl t
  | cons a as ih =>
    obtain ⟨present, rest⟩ := permitted
    exact (h.keeps_assign a present).trans (ih (h.assign a) rest)

/-! ### Traversals -/

/-- One step of a traversal: what is returned, and the assignments made before the next one. -/
structure Visit where
  table : Table
  key : Value
  value : Value
  updates : List Assignment

/-- A traversal from a table and a key to a table and a key. -/
inductive Traversal : Table → Value → List Visit → Table → Value → Prop
  | stop {t : Table} {key : Value} : Traversal t key [] t key
  | step {t t' : Table} {key key' k v : Value} {us : List Assignment} {visits : List Visit}
    (found : t.next key = .ok (some (k, v))) (permitted : t.Permits us)
    (rest : Traversal (t.updated us) k visits t' key') :
    Traversal t key (⟨t, k, v, us⟩ :: visits) t' key'

/-- What a step finds: the first entry that lives from the cursor on. -/
theorem WellFormed.of_next {k v : Value} (h : t.WellFormed) (small : t.array.size ≤ 2 ^ 53)
    (origin : t.cursor? key = some start) (found : t.next key = .ok (some (k, v))) :
    ∃ q, start ≤ q ∧ t.cursor? k = some (q + 1) ∧ t.pairs[q]? = some (k, v) ∧ isLive (k, v) ∧
      t.get k = v ∧ ∀ p, start ≤ p → p < q → ¬t.Lives p := by
  rw [h.next_eq, origin] at found
  obtain ⟨live, i, lt, at_place, before⟩ := List.find?_eq_some_iff_getElem.mp (Except.ok.inj found)
  rw [List.getElem_drop] at at_place
  have place : t.pairs[start + i]? = some (k, v) := by
    rw [← at_place]
    exact List.getElem?_eq_getElem _
  obtain ⟨k', keyed, leads, value⟩ := h.of_lives small place live
  refine ⟨start + i, Nat.le_add_right _ _, ?_, place, live, ?_, ?_⟩
  · simp only [cursor?, keyed, leads, Option.map_some]
  · simp only [get, keyed, value]
  · rintro p low high ⟨entry, other, lives⟩
    obtain ⟨j, rfl⟩ := Nat.exists_eq_add_of_le low
    obtain ⟨_, rfl⟩ := List.getElem?_eq_some_iff.mp other
    have dead := before j (by omega)
    rw [List.getElem_drop, Bool.not_eq_true'] at dead
    rw [dead] at lives
    cases lives

/-- A traversal only goes forward, and whatever it has passed by is dead. -/
theorem Traversal.forward {visits : List Visit} (h : Traversal t key visits t' key')
    (shaped : t.WellFormed) (small : t.array.size ≤ 2 ^ 53) (origin : t.cursor? key = some start) :
    t.Keeps t' ∧ t'.WellFormed ∧ ∃ places : List Nat,
      visits.map (t.cursor? ·.key) = places.map some ∧ (start :: places).Pairwise (· < ·) ∧
      (∀ p ∈ places, p ≤ t.pairs.length) ∧ t.cursor? key' = some (places.getLastD start) ∧
      ∀ q, start ≤ q → q < places.getLastD start → q + 1 ∉ places → ¬t'.Lives q := by
  induction h generalizing start with
  | stop => exact ⟨.refl _, shaped, [], rfl, List.pairwise_singleton .., nofun, origin,
      by simp; omega⟩
  | step found permitted _ ih =>
    obtain ⟨q, low, ahead, place, -, -, between⟩ := shaped.of_next small origin found
    have keeps := shaped.keeps_updated permitted
    have small' := keeps.size.trans_le small
    obtain ⟨keeps', shaped', places, eq, rises, bound, last, passed⟩ :=
      ih (shaped.updated _) small' ((keeps.cursor?_eq _).trans ahead)
    refine ⟨keeps.trans keeps', shaped', (q + 1) :: places, ?_, ?_, ?_, ?_, ?_⟩
    · simp only [List.map_cons, ahead, ← eq, keeps.cursor?_eq]
    · refine List.pairwise_cons.mpr ⟨?_, rises⟩
      intro p mem
      obtain rfl | mem := List.mem_cons.mp mem
      · omega
      · exact Nat.lt_of_le_of_lt (by omega) (List.rel_of_pairwise_cons rises mem)
    · refine List.forall_mem_cons.mpr ⟨(List.getElem?_eq_some_iff.mp place).1, ?_⟩
      rw [length_pairs, keeps.size, keeps.nodes, ← length_pairs] at bound
      exact bound
    · rw [List.getLastD_cons, ← last, keeps.cursor?_eq]
    · intro p originstart to_last other
      rw [List.getLastD_cons] at to_last
      rw [List.mem_cons, not_or] at other
      obtain before | rfl | behind := Nat.lt_trichotomy p q
      · exact fun lives => between p originstart before (keeps.dead p (keeps'.dead p lives))
      · exact absurd rfl other.1
      · exact passed p behind to_last other.2

/-- Equal keys have one cursor, and no other key has it. -/
theorem WellFormed.cursor?_iff (h : t.WellFormed) {c : Value}
    (origin : t.cursor? c = some (q + 1)) : c.rawEquals key ↔ t.cursor? key = some (q + 1) := by
  cases keyed : c.key with
  | error e => cases e <;> simp [cursor?, keyed] at origin
  | ok k =>
    have place : t.place? k = some q := by
      simpa [cursor?, keyed] using origin
    rw [Value.rawEquals_iff_key keyed]
    constructor
    · intro keyed'
      simp only [cursor?, keyed', place, Option.map_some]
    · intro origin'
      cases keyed' : key.key with
      | error e => cases e <;> simp [cursor?, keyed'] at origin'
      | ok k' =>
        have place' : t.place? k' = some q := by
          simpa [cursor?, keyed'] using origin'
        rw [h.place?_inj (Value.key_valid keyed) (Value.key_valid keyed') place place']

theorem WellFormed.exists_cursor (h : t.WellFormed) {c : Value} (present : ¬(t.get c).isNil) :
    ∃ q, t.cursor? c = some (q + 1) ∧ t.Lives q := by
  cases keyed : c.key with
  | error e => simp [get, keyed, Value.isNil] at present
  | ok k =>
    simp only [get, keyed] at present
    obtain ⟨q, entry, place, found, eq⟩ := h.exists_place (Value.key_valid keyed) present
    refine ⟨q, ?_, entry, found, by simpa [isLive, eq] using present⟩
    simp only [cursor?, keyed, place, Option.map_some]

/-- Every step returns the value that stands at its key. -/
theorem Traversal.value_eq {visits : List Visit} (h : Traversal t key visits t' key')
    (shaped : t.WellFormed) (small : t.array.size ≤ 2 ^ 53) (origin : t.cursor? key = some start) :
    ∀ visit ∈ visits, ¬visit.value.isNil ∧ visit.table.get visit.key = visit.value := by
  induction h generalizing start with
  | stop => exact List.forall_mem_nil _
  | step found permitted _ ih =>
    obtain ⟨q, -, ahead, -, live, value, -⟩ := shaped.of_next small origin found
    have keeps := shaped.keeps_updated permitted
    refine List.forall_mem_cons.mpr ⟨⟨by simpa [isLive] using live, value⟩, ?_⟩
    exact ih (shaped.updated _) (keeps.size.trans_le small) ((keeps.cursor?_eq _).trans ahead)

/-- Without assignments the entries that are left are those from the last cursor on. -/
theorem Traversal.undisturbed {visits : List Visit} (h : Traversal t key visits t' key')
    (shaped : t.WellFormed) (small : t.array.size ≤ 2 ^ 53) (origin : t.cursor? key = some start)
    (calm : ∀ visit ∈ visits, visit.updates = []) :
    ∃ last, t'.cursor? key' = some last ∧
      visits.map (fun visit => (visit.key, visit.value)) ++ (t'.pairs.drop last).filter isLive =
        (t.pairs.drop start).filter isLive := by
  induction h generalizing start with
  | stop => exact ⟨start, origin, rfl⟩
  | @step t _ _ _ k v us _ found permitted _ ih =>
    obtain ⟨q, low, ahead, place, live, -, between⟩ := shaped.of_next small origin found
    obtain ⟨rfl, calm'⟩ := List.forall_mem_cons.mp calm
    obtain ⟨last, at_last, eq⟩ := ih shaped small ahead calm'
    refine ⟨last, at_last, ?_⟩
    obtain ⟨lt, at_q⟩ := List.getElem?_eq_some_iff.mp place
    obtain ⟨n, rfl⟩ := Nat.exists_eq_add_of_le low
    have passed : ((t.pairs.drop start).take n).filter isLive = [] := by
      rw [List.filter_eq_nil_iff]
      intro entry mem lives
      obtain ⟨i, lt', rfl⟩ := List.mem_iff_getElem.mp mem
      rw [List.length_take] at lt'
      rw [List.getElem_take, List.getElem_drop] at lives
      exact between (start + i) (by omega) (by omega) ⟨_, List.getElem?_eq_getElem _, lives⟩
    have split : (t.pairs.drop start).filter isLive =
        (k, v) :: (t.pairs.drop (start + n + 1)).filter isLive := by
      rw [← List.take_append_drop n (t.pairs.drop start), List.filter_append, passed,
        List.drop_drop, List.drop_eq_getElem_cons lt, at_q, List.filter_cons_of_pos live,
        List.nil_append]
    rw [split, List.map_cons, List.cons_append]
    exact congrArg ((k, v) :: ·) eq

theorem length_le_of_rises {places : List Nat} {n : Nat} (rises : (0 :: places).Pairwise (· < ·))
    (bound : ∀ p ∈ places, p ≤ n) : places.length ≤ n := by
  obtain ⟨pos, rises⟩ := List.pairwise_cons.mp rises
  have nodup : places.Nodup := rises.imp Nat.ne_of_lt
  have subset : places ⊆ List.range' 1 n := by
    intro p mem
    rw [List.mem_range'_1]
    have := pos p mem
    have := bound p mem
    omega
  simpa using (List.subperm_of_subset nodup subset).length_le

/-- A traversal in which values are only assigned to keys that have one never fails, ends, and
returns no key twice and each with its value. When it is over, each key that still has a value was
returned once. -/
theorem traversal_exact {as : List Assignment} {visits : List Visit}
    (h : Traversal (built as) .nil visits t key) :
    (∃ found, t.next key = .ok found) ∧
      visits.length ≤ (built as).array.size + (built as).nodes.size ∧
      visits.Pairwise (fun a b => ¬a.key.rawEquals b.key) ∧
      (∀ visit ∈ visits, ¬visit.value.isNil ∧ visit.table.get visit.key = visit.value) ∧
      (t.next key = .ok none →
        (∀ c : Value, ¬(t.get c).isNil → visits.countP (c.rawEquals ·.key) = 1) ∧
        ((∀ visit ∈ visits, visit.updates = []) →
          visits.map (fun visit => (visit.key, visit.value)) = (built as).entries)) := by
  have shaped := wellFormed_built as
  have small := size_built_le as
  obtain ⟨keeps, shaped', places, eq, rises, bound, last, passed⟩ :=
    h.forward shaped small cursor?_nil
  obtain ⟨positive, increasing⟩ := List.pairwise_cons.mp rises
  have next_eq : t.next key = .ok ((t.pairs.drop (places.getLastD 0)).find? isLive) := by
    rw [shaped'.next_eq, keeps.cursor?_eq, last]
  refine ⟨⟨_, next_eq⟩, ?_, ?_, h.value_eq shaped small cursor?_nil, fun ended => ⟨?_, ?_⟩⟩
  · have length := congrArg List.length eq
    rw [List.length_map, List.length_map] at length
    rw [length, ← length_pairs]
    exact length_le_of_rises rises bound
  · have different : (visits.map ((built as).cursor? ·.key)).Nodup := by
      rw [eq]
      exact List.Nodup.map (Option.some_injective _) (increasing.imp Nat.ne_of_lt)
    refine List.Pairwise.imp_of_mem ?_ (List.pairwise_map.mp different)
    intro a b mem _ apart same
    have at_a : (built as).cursor? a.key ∈ places.map some := eq ▸ List.mem_map_of_mem mem
    obtain ⟨p, mem_p, at_p⟩ := List.mem_map.mp at_a
    obtain ⟨q, rfl⟩ := Nat.exists_eq_add_of_lt (positive p mem_p)
    rw [Nat.zero_add] at at_p
    exact apart (at_p.symm.trans ((shaped.cursor?_iff at_p.symm).mp same).symm)
  · intro c present
    rw [next_eq, Except.ok.injEq] at ended
    obtain ⟨q, at_c, lives⟩ := shaped'.exists_cursor present
    rw [keeps.cursor?_eq] at at_c
    have mem : q + 1 ∈ places := by
      have before : q < places.getLastD 0 := by
        by_contra behind
        exact not_lives_of_find ended (Nat.le_of_not_lt behind) lives
      by_contra other
      exact passed q (Nat.zero_le q) before other lives
    calc visits.countP (c.rawEquals ·.key)
        = visits.countP (fun visit => (built as).cursor? visit.key == some (q + 1)) := by
          refine List.countP_congr fun visit _ => ?_
          rw [shaped.cursor?_iff at_c, beq_iff_eq]
      _ = (places.map some).count (some (q + 1)) := by
          rw [← eq, List.count, List.countP_map]
          rfl
      _ = 1 := by
          rw [List.count_map_of_injective _ _ (Option.some_injective _)]
          exact List.count_eq_one_of_mem (increasing.imp Nat.ne_of_lt) mem
  · intro calm
    obtain ⟨last', at_last, all⟩ := h.undisturbed shaped small cursor?_nil calm
    rw [shaped'.next_eq, at_last, Except.ok.injEq] at ended
    rw [List.filter_eq_nil_iff.mpr (List.find?_eq_none.mp ended), List.append_nil] at all
    exact all

/-- Two fields, the second of which is cleared while the traversal stands at the first. -/
def twoFields : List Assignment := [.setInt 1 (.bool true), .setInt 2 (.bool true)]

theorem built_twoFields : built twoFields = { array := #[.bool true, .bool true] } := by
  have key1 : (Value.ofInt 1).key = .ok (.position 1) := Value.key_ofInt (by decide) (by decide)
  have key2 : (Value.ofInt 2).key = .ok (.position 2) := Value.key_ofInt (by decide) (by decide)
  simp [twoFields, built, assign, setInt, key1, key2, setKey, empty, kill, modifyArray, migrate,
    Value.isNil]

/-- The cleared field is not visited, and the traversal is over. -/
theorem traversal_exact_cleared :
    let visit : Visit := ⟨built twoFields, .ofNat 1, .bool true, [.setInt 2 .nil]⟩
    let cleared := (built twoFields).updated visit.updates
    Traversal (built twoFields) .nil [visit] cleared (.ofNat 1) ∧
      cleared.next (.ofNat 1) = .ok none ∧
      ∀ c, ¬(cleared.get c).isNil → [visit].countP (c.rawEquals ·.key) = 1 := by
  intro visit cleared
  have key1 : (Value.ofNat 1).key = .ok (.position 1) := Value.key_ofNat (by decide) (by decide)
  have key2 : (Value.ofInt 2).key = .ok (.position 2) := Value.key_ofInt (by decide) (by decide)
  have shape : cleared = { array := #[.bool true, .nil] } := by
    simp [cleared, visit, built_twoFields, updated, assign, setInt, key2, setKey, modifyArray]
  have run : Traversal (built twoFields) .nil [visit] cleared (.ofNat 1) := by
    apply Traversal.step
    · rw [built_twoFields]
      rfl
    · refine ⟨?_, trivial⟩
      simp [built_twoFields, Assignment.key, get, key2, getKey, Value.isNil]
    · exact .stop
  have last : cleared.next (.ofNat 1) = .ok none := by
    simp [shape, next, key1, nextInArray, findInArray, nextInNodes, findInNodes, Value.isNil]
  exact ⟨run, last, ((traversal_exact run).2.2.2.2 last).1⟩

end Table

end LuaMachine
