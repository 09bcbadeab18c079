import LuaMachine.Proofs.RawKeys

/-!
The node part of a table: a hash index over nodes, some of which are dead. The invariants `Shaped`
tie the index, the nodes and the count of the dead ones together; each change of the node part keeps
them and changes the value of one key only.
-/

namespace LuaMachine

theorem Value.eq_nil {v : Value} (h : v.isNil) : v = .nil := by
  cases v with
  | nil => rfl
  | _ => cases h

def Node.isDead (node : Node) : Bool := node.value.isNil

namespace Table

variable {t : Table} {k : Key} {key v : Value} {front slot : Nat}

/-- The invariants of the node part and the size of the array part, while no living node has a
position up to `front` for its key. -/
structure Shaped (t : Table) (front : Nat) : Prop where
  leads : ∀ {k : Key} {slot : Nat}, t.index[k]? = some slot →
    ∃ node : Node, t.nodes[slot]? = some node ∧ node.key.key = .ok k
  placed : ∀ {slot : Nat} {node : Node}, t.nodes[slot]? = some node →
    ∃ k, node.key.key = .ok k ∧ t.index[k]? = some slot
  dead_eq : t.dead = t.nodes.countP Node.isDead
  ahead : ∀ node ∈ t.nodes, node.isDead = false →
    ∀ i, node.key.key = .ok (.position i) → front < i
  array_size : t.array.size < 2 ^ 63

/-- The array part is followed by no living node. -/
def WellFormed (t : Table) : Prop := t.Shaped (t.array.size + 1)

theorem empty_wellFormed : empty.WellFormed where
  leads := by simp [empty]
  placed := by simp [empty]
  dead_eq := by simp [empty]
  ahead := by simp [empty]
  array_size := by simp [empty]

namespace Shaped

theorem key_valid (h : t.Shaped front) (lead : t.index[k]? = some slot) : k.Valid := by
  obtain ⟨node, -, keyed⟩ := h.leads lead
  exact Value.key_valid keyed

theorem index_of_mem (h : t.Shaped front) {node : Node} (place : t.nodes[slot]? = some node)
    (keyed : node.key.key = .ok k) : t.index[k]? = some slot := by
  obtain ⟨k', keyed', lead⟩ := h.placed place
  rw [keyed] at keyed'
  cases keyed'
  exact lead

/-- The value at a key is the value of the node of that key. -/
theorem getNode_of_mem (h : t.Shaped front) {node : Node} (place : node ∈ t.nodes)
    (keyed : node.key.key = .ok k) : t.getNode k = node.value := by
  obtain ⟨slot, place⟩ := Array.mem_iff_getElem?.mp place
  simp only [getNode, h.index_of_mem place keyed, nodeValue, place]

theorem getNode_of_forall_ne (h : t.Shaped front)
    (absent : ∀ node ∈ t.nodes, node.key.key ≠ .ok k) : t.getNode k = .nil := by
  cases lead : t.index[k]? with
  | none => simp only [getNode, lead]
  | some slot =>
    obtain ⟨node, place, keyed⟩ := h.leads lead
    exact absurd keyed (absent node (Array.mem_iff_getElem?.mpr ⟨slot, place⟩))

theorem modifyArray (h : t.Shaped front) {f : Array Value → Array Value}
    (size : (f t.array).size < 2 ^ 63) : (t.modifyArray f).Shaped front where
  leads := h.leads
  placed := h.placed
  dead_eq := h.dead_eq
  ahead := h.ahead
  array_size := size

end Shaped

@[simp] theorem setNode_array (d : Nat) : (t.setNode slot v d).array = t.array := rfl

@[simp] theorem setNode_index (d : Nat) : (t.setNode slot v d).index = t.index := rfl

@[simp] theorem setNode_dead (d : Nat) : (t.setNode slot v d).dead = d := rfl

theorem getElem?_setNode (d s : Nat) : (t.setNode slot v d).nodes[s]? =
    if slot = s then t.nodes[s]?.map fun node => ⟨node.key, v⟩ else t.nodes[s]? :=
  Array.getElem?_modify

theorem countP_setNode {node : Node} (place : t.nodes[slot]? = some node) (d : Nat) :
    (t.setNode slot v d).nodes.countP Node.isDead + (if node.isDead then 1 else 0) =
      t.nodes.countP Node.isDead + if v.isNil then 1 else 0 := by
  obtain ⟨bound, eq⟩ := Array.getElem?_eq_some_iff.mp place
  have written : (t.setNode slot v d).nodes = t.nodes.set slot ⟨node.key, v⟩ bound := by
    apply Array.ext_getElem?
    intro s
    rw [getElem?_setNode, Array.getElem?_set]
    split
    case isTrue same => rw [← same, place]; rfl
    case isFalse => rfl
  have counted : (if node.isDead then 1 else 0) ≤ t.nodes.countP Node.isDead := by
    split
    case isTrue dead =>
      exact Array.one_le_countP_iff.mpr ⟨node, Array.mem_iff_getElem?.mpr ⟨slot, place⟩, dead⟩
    case isFalse => exact Nat.zero_le _
  rw [written, Array.countP_set bound, eq]
  have : Node.isDead ⟨node.key, v⟩ = v.isNil := rfl
  rw [this]
  omega

/-- Giving the node of a key another value. The new value may live only where the key allows. -/
theorem Shaped.setNode (h : t.Shaped front) (lead : t.index[k]? = some slot) {d : Nat}
    (tally : d + (if (t.nodeValue slot).isNil then 1 else 0) = t.dead + if v.isNil then 1 else 0)
    (allowed : v.isNil = false → ∀ i, k = .position i → front < i) :
    (t.setNode slot v d).Shaped front := by
  obtain ⟨node, place, keyed⟩ := h.leads lead
  constructor
  case leads =>
    intro k' s lead'
    obtain ⟨node', place', keyed'⟩ := h.leads lead'
    rw [getElem?_setNode, place']
    split
    · exact ⟨_, rfl, keyed'⟩
    · exact ⟨_, rfl, keyed'⟩
  case placed =>
    intro s node' place'
    rw [getElem?_setNode] at place'
    split at place'
    case isTrue same =>
      subst same
      rw [place] at place'
      cases place'
      exact ⟨k, keyed, lead⟩
    case isFalse => exact h.placed place'
  case dead_eq =>
    have counted := countP_setNode (v := v) place d
    have : (t.nodeValue slot).isNil = node.isDead := by simp only [nodeValue, place, Node.isDead]
    rw [this, h.dead_eq] at tally
    simp only [setNode_dead]
    omega
  case ahead =>
    intro node' mem living i keyed'
    obtain ⟨s, place'⟩ := Array.mem_iff_getElem?.mp mem
    rw [getElem?_setNode] at place'
    split at place'
    case isTrue same =>
      subst same
      rw [place] at place'
      cases place'
      exact allowed living i (Except.ok.inj (keyed.symm.trans keyed'))
    case isFalse => exact h.ahead node' (Array.mem_iff_getElem?.mpr ⟨s, place'⟩) living i keyed'
  case array_size => exact h.array_size

theorem getNode_setNode (h : t.Shaped front) (lead : t.index[k]? = some slot) (d : Nat) (k' : Key) :
    (t.setNode slot v d).getNode k' = if k' = k then v else t.getNode k' := by
  obtain ⟨node, place, keyed⟩ := h.leads lead
  split
  case isTrue same =>
    subst same
    simp only [getNode, setNode_index, lead, nodeValue, getElem?_setNode, place]
    simp
  case isFalse other =>
    cases lead' : t.index[k']? with
    | none => simp only [getNode, setNode_index, lead']
    | some s =>
      have : slot ≠ s := by
        rintro rfl
        obtain ⟨node', place', keyed'⟩ := h.leads lead'
        rw [place] at place'
        cases place'
        exact other (Except.ok.inj (keyed'.symm.trans keyed))
      simp only [getNode, setNode_index, lead', nodeValue, getElem?_setNode, if_neg this]

/-! ### Killing a node -/

theorem kill_cases (t : Table) (k : Key) : (t.kill k = t ∧ t.getNode k = .nil) ∨
    ∃ slot, t.index[k]? = some slot ∧ (t.nodeValue slot).isNil = false ∧
      t.kill k = t.setNode slot .nil (t.dead + 1) := by
  unfold kill getNode
  split
  case h_1 slot lead =>
    cases value : t.nodeValue slot with
    | nil => exact .inl ⟨rfl, rfl⟩
    | _ => exact .inr ⟨slot, lead, congrArg Value.isNil value, rfl⟩
  case h_2 => exact .inl ⟨rfl, rfl⟩

@[simp] theorem kill_array : (t.kill k).array = t.array := by
  rcases kill_cases t k with ⟨eq, -⟩ | ⟨slot, -, -, eq⟩ <;> rw [eq]
  rfl

theorem Shaped.kill (h : t.Shaped front) (k : Key) : (t.kill k).Shaped front := by
  rcases kill_cases t k with ⟨eq, -⟩ | ⟨slot, lead, living, eq⟩ <;> rw [eq]
  · exact h
  · apply h.setNode lead
    · rw [living]
      rfl
    · intro living
      cases living

theorem getNode_kill (h : t.Shaped front) (k k' : Key) :
    (t.kill k).getNode k' = if k' = k then .nil else t.getNode k' := by
  rcases kill_cases t k with ⟨eq, dead⟩ | ⟨slot, lead, -, eq⟩ <;> rw [eq]
  · split
    case isTrue same => rw [same, dead]
    case isFalse => rfl
  · exact getNode_setNode h lead _ k'

/-! ### Dropping the dead nodes and adding a node -/

/-- What a list of nodes adds to an index. -/
theorem getElem?_indexOf (nodes : List Node) (s : Nat) (index : Std.HashMap Key Nat) (k : Key) :
    ((indexOf nodes s index)[k]? = index[k]? ∧ ∀ node ∈ nodes, node.key.key ≠ .ok k) ∨
      ∃ j node, nodes[j]? = some node ∧ node.key.key = .ok k ∧
        (indexOf nodes s index)[k]? = some (s + j) := by
  induction nodes generalizing s index with
  | nil => exact .inl ⟨rfl, by simp⟩
  | cons node rest ih =>
    unfold indexOf
    split
    case h_1 k' keyed =>
      rcases ih (s + 1) (index.insert k' s) with ⟨eq, absent⟩ | ⟨j, node', place, keyed', eq⟩
      · by_cases same : k' = k
        · subst same
          refine .inr ⟨0, node, rfl, keyed, eq.trans ?_⟩
          rw [Std.HashMap.getElem?_insert_self]
          rfl
        · refine .inl ⟨eq.trans ?_, ?_⟩
          · rw [Std.HashMap.getElem?_insert]
            exact if_neg (by simpa using same)
          · rw [List.forall_mem_cons, keyed]
            exact ⟨fun eq => same (Except.ok.inj eq), absent⟩
      · exact .inr ⟨j + 1, node', place, keyed', eq.trans (congrArg some (by omega))⟩
    case h_2 e keyed =>
      rcases ih (s + 1) index with ⟨eq, absent⟩ | ⟨j, node', place, keyed', eq⟩
      · rw [List.forall_mem_cons, keyed]
        exact .inl ⟨eq, nofun, absent⟩
      · exact .inr ⟨j + 1, node', place, keyed', eq.trans (congrArg some (by omega))⟩

theorem Shaped.nodup (h : t.Shaped front) : (t.nodes.toList.map (·.key.key)).Nodup := by
  apply List.pairwise_iff_getElem.mpr
  intro i j hi hj lt same
  rw [List.length_map, Array.length_toList] at hi hj
  simp only [List.getElem_map, Array.getElem_toList] at same
  obtain ⟨k, keyed, lead⟩ := h.placed (Array.getElem?_eq_getElem hi)
  have lead' := h.index_of_mem (Array.getElem?_eq_getElem hj) (same ▸ keyed)
  rw [lead] at lead'
  exact lt.ne (Option.some.inj lead')

theorem mem_compact {node : Node} :
    node ∈ t.compact.nodes ↔ node ∈ t.nodes ∧ node.isDead = false := by
  unfold compact
  rw [Array.mem_filter, Bool.not_eq_true']
  rfl

theorem Shaped.compact (h : t.Shaped front) : t.compact.Shaped front where
  leads := by
    intro k slot lead
    rcases getElem?_indexOf t.compact.nodes.toList 0 ∅ k with ⟨eq, -⟩ | ⟨j, node, place, keyed, eq⟩
    · rw [show t.compact.index[k]? = _ from eq, Std.HashMap.getElem?_empty] at lead
      cases lead
    · rw [show t.compact.index[k]? = _ from eq, Nat.zero_add] at lead
      cases lead
      rw [Array.getElem?_toList] at place
      exact ⟨node, place, keyed⟩
  placed := by
    intro slot node place
    have mem := Array.mem_iff_getElem?.mpr ⟨slot, place⟩
    obtain ⟨slot', place'⟩ := Array.mem_iff_getElem?.mp (mem_compact.mp mem).1
    obtain ⟨k, keyed, -⟩ := h.placed place'
    refine ⟨k, keyed, ?_⟩
    rcases getElem?_indexOf t.compact.nodes.toList 0 ∅ k with ⟨-, absent⟩ | ⟨j, node', placed, keyed', eq⟩
    · exact absurd keyed (absent node (Array.mem_toList_iff.mpr mem))
    · refine Eq.trans eq (congrArg some ?_)
      -- keys of nodes are distinct, so the slot the new index has for this key is the node's own
      have kept : (t.compact.nodes.toList.map (·.key.key)).Sublist (t.nodes.toList.map (·.key.key)) := by
        apply List.Sublist.map
        unfold Table.compact
        rw [Array.toList_filter]
        exact List.filter_sublist
      have bound : j < (t.compact.nodes.toList.map (·.key.key)).length := by
        rw [List.length_map]
        exact (List.getElem?_eq_some_iff.mp placed).1
      rw [Nat.zero_add, ← List.getElem?_inj bound (h.nodup.sublist kept), List.getElem?_map,
        List.getElem?_map, placed, Array.getElem?_toList, place]
      simp [keyed, keyed']
  dead_eq := by
    symm
    apply Array.countP_eq_zero.mpr
    intro node mem
    rw [(mem_compact.mp mem).2]
    exact Bool.false_ne_true
  ahead := fun node mem => h.ahead node (mem_compact.mp mem).1
  array_size := h.array_size

theorem getNode_compact (h : t.Shaped front) (k : Key) : t.compact.getNode k = t.getNode k := by
  by_cases known : ∃ node ∈ t.nodes, node.key.key = .ok k
  case neg =>
    have absent : ∀ node ∈ t.nodes, node.key.key ≠ .ok k := by simpa using known
    rw [h.getNode_of_forall_ne absent]
    apply h.compact.getNode_of_forall_ne
    intro node mem
    exact absent node (mem_compact.mp mem).1
  case pos =>
    obtain ⟨node, mem, keyed⟩ := known
    rw [h.getNode_of_mem mem keyed]
    cases dead : node.isDead with
    | false => exact h.compact.getNode_of_mem (mem_compact.mpr ⟨mem, dead⟩) keyed
    | true =>
      have absent : ∀ node' ∈ t.compact.nodes, node'.key.key ≠ .ok k := by
        intro node' mem' keyed'
        obtain ⟨known, living⟩ := mem_compact.mp mem'
        have value := h.getNode_of_mem known keyed'
        rw [h.getNode_of_mem mem keyed] at value
        rw [Node.isDead, ← value] at living
        exact Bool.false_ne_true (living.symm.trans dead)
      rw [h.compact.getNode_of_forall_ne absent]
      exact (Value.eq_nil dead).symm

theorem pushNode_index (k' : Key) :
    (t.pushNode k key v).index[k']? = if k = k' then some t.nodes.size else t.index[k']? := by
  change (t.index.insert k t.nodes.size)[k']? = _
  rw [Std.HashMap.getElem?_insert]
  simp

theorem pushNode_nodes (slot : Nat) : (t.pushNode k key v).nodes[slot]? =
    if slot = t.nodes.size then some ⟨key, v⟩ else t.nodes[slot]? :=
  Array.getElem?_push

theorem Shaped.pushNode (h : t.Shaped front) (fresh : t.index[k]? = none) (keyed : key.key = .ok k)
    (living : v.isNil = false) (allowed : ∀ i, k = .position i → front < i) :
    (t.pushNode k key v).Shaped front where
  leads := by
    intro k' slot lead
    rw [pushNode_index] at lead
    rw [pushNode_nodes]
    split at lead
    case isTrue same =>
      cases lead
      rw [if_pos rfl]
      exact ⟨_, rfl, same ▸ keyed⟩
    case isFalse =>
      obtain ⟨node, place, keyed'⟩ := h.leads lead
      rw [if_neg (Array.getElem?_eq_some_iff.mp place).1.ne]
      exact ⟨node, place, keyed'⟩
  placed := by
    intro slot node place
    rw [pushNode_nodes] at place
    split at place
    case isTrue same =>
      cases place
      rw [same]
      exact ⟨k, keyed, (pushNode_index k).trans (if_pos rfl)⟩
    case isFalse =>
      obtain ⟨k', keyed', lead⟩ := h.placed place
      refine ⟨k', keyed', ?_⟩
      rw [pushNode_index, if_neg, lead]
      rintro rfl
      rw [fresh] at lead
      cases lead
  dead_eq := by
    change t.dead = (t.nodes.push ⟨key, v⟩).countP Node.isDead
    rw [Array.countP_push, h.dead_eq, Node.isDead, living]
    rfl
  ahead := by
    intro node mem living' i keyed'
    obtain mem | rfl := Array.mem_push.mp mem
    · exact h.ahead node mem living' i keyed'
    · exact allowed i (Except.ok.inj (keyed.symm.trans keyed'))
  array_size := h.array_size

theorem getNode_pushNode (h : t.Shaped front) (k' : Key) :
    (t.pushNode k key v).getNode k' = if k' = k then v else t.getNode k' := by
  unfold getNode
  rw [pushNode_index]
  by_cases same : k' = k
  · rw [if_pos same, if_pos same.symm]
    simp only [nodeValue, pushNode_nodes, if_pos]
  · rw [if_neg same, if_neg (Ne.symm same)]
    cases lead : t.index[k']? with
    | none => rfl
    | some slot =>
      obtain ⟨node, place, -⟩ := h.leads lead
      simp only [nodeValue, pushNode_nodes, if_neg (Array.getElem?_eq_some_iff.mp place).1.ne]

theorem Shaped.insertNode (h : t.Shaped front) (fresh : t.index[k]? = none)
    (keyed : key.key = .ok k) (living : v.isNil = false)
    (allowed : ∀ i, k = .position i → front < i) : (t.insertNode k key v).Shaped front := by
  unfold Table.insertNode
  split
  · apply h.compact.pushNode _ keyed living allowed
    cases lead : t.compact.index[k]? with
    | none => rfl
    | some slot =>
      obtain ⟨node, place, keyed'⟩ := h.compact.leads lead
      have mem := (mem_compact.mp (Array.mem_iff_getElem?.mpr ⟨slot, place⟩)).1
      obtain ⟨slot', place'⟩ := Array.mem_iff_getElem?.mp mem
      rw [h.index_of_mem place' keyed'] at fresh
      cases fresh
  · exact h.pushNode fresh keyed living allowed

theorem getNode_insertNode (h : t.Shaped front) (k' : Key) :
    (t.insertNode k key v).getNode k' = if k' = k then v else t.getNode k' := by
  unfold insertNode
  split
  · rw [getNode_pushNode h.compact, getNode_compact h]
  · exact getNode_pushNode h k'

@[simp] theorem setInNodes_array : (t.setInNodes k key v).array = t.array := by
  unfold setInNodes insertNode
  split <;> try split
  all_goals try split
  all_goals rfl

theorem Shaped.dead_pos (h : t.Shaped front) (lead : t.index[k]? = some slot)
    (dead : (t.nodeValue slot).isNil) : 0 < t.dead := by
  obtain ⟨node, place, -⟩ := h.leads lead
  simp only [nodeValue, place] at dead
  rw [h.dead_eq]
  exact Array.countP_pos_iff.mpr ⟨node, Array.mem_iff_getElem?.mpr ⟨slot, place⟩, dead⟩

theorem Shaped.setInNodes (h : t.Shaped front) (keyed : key.key = .ok k)
    (allowed : ∀ i, k = .position i → front < i) : (t.setInNodes k key v).Shaped front := by
  unfold Table.setInNodes
  split
  case h_1 slot lead =>
    apply h.setNode lead
    · cases dead : (t.nodeValue slot).isNil with
      | false => cases v.isNil <;> rfl
      | true =>
        cases v.isNil with
        | false => exact Nat.sub_add_cancel (h.dead_pos lead dead)
        | true => rfl
    · exact fun _ => allowed
  case h_2 fresh =>
    split
    case isTrue => exact h
    case isFalse living => exact h.insertNode fresh keyed (by simpa using living) allowed

theorem getNode_setInNodes (h : t.Shaped front) (k' : Key) :
    (t.setInNodes k key v).getNode k' = if k' = k then v else t.getNode k' := by
  unfold setInNodes
  split
  case h_1 slot lead => exact getNode_setNode h lead _ k'
  case h_2 fresh =>
    split
    case isTrue dead =>
      split
      case isTrue same =>
        rw [same, Value.eq_nil dead]
        simp only [getNode, fresh]
      case isFalse => rfl
    case isFalse => exact getNode_insertNode h k'

end Table

end LuaMachine
