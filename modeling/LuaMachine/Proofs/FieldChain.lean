import LuaMachine.Execution
import LuaMachine.Proofs.Arguments
import LuaMachine.Proofs.TableMap
import LuaMachine.Proofs.Transparency

/-!
Access to fields. What lacks a key refers to its handler for the event, and so on to the first value that has
the key or no handler, or whose handler is a function. Fields are read and assigned where that leads, if it
leads there within the steps that are made; what fails leaves all as it was.
-/

namespace LuaMachine

namespace Machine

/-- A table with a value at a key. -/
def Has (m : Machine) (v key : Value) : Prop := ∃ t, v = .table t ∧ ((m.heap.table t).get key).isNil = false

/-- The chain that access to a key of a value starts: the values that were passed by, the one where it ends,
and the function to be called there, if it ends with one. -/
inductive Refers (m : Machine) (e : Event) (key : Value) : Value → List Value → Value → Option Value → Prop
  | ends {v : Value} (h : m.Has v key ∨ m.handler? v e = none) : Refers m e key v [] v none
  | calls {v f : Value} (hlacks : ¬ m.Has v key) (hf : m.handler? v e = some f)
      (hfunction : f.isFunction = true) : Refers m e key v [] v (some f)
  | passes {v h w : Value} {vs : List Value} {o : Option Value} (hlacks : ¬ m.Has v key)
      (hh : m.handler? v e = some h) (hfunction : h.isFunction = false) (hrest : Refers m e key h vs w o) :
    Refers m e key v (v :: vs) w o

/-- A table gets a value at a key, and nothing else is changed. -/
structure Stores (m : Machine) (t : TableId) (key new : Value) (m' : Machine) : Prop where
  rest : m' = m.withHeap { m.heap with tables := m'.heap.tables }
  size : m'.heap.tables.size = m.heap.tables.size
  others : ∀ u ≠ t, m'.heap.table u = m.heap.table u
  metatable : (m'.heap.table t).metatable = (m.heap.table t).metatable
  content : ∀ k, (m'.heap.table t).get k = if key.rawEquals k then new else (m.heap.table t).get k
  wellFormed : (m'.heap.table t).WellFormed

/-- Reading a field follows the chain. -/
structure ReadsField (m : Machine) (run : Run) (v key : Value) : Prop where
  /-- Nothing is changed where no function is called; what is absent is `nil`. -/
  found : ∀ vs t, m.Refers .index key v vs (.table t) none → vs.length < 100 →
    index run v key m = .ok ((m.heap.table t).get key) m
  refused : ∀ vs w, m.Refers .index key v vs w none → (∀ t, w ≠ .table t) → vs.length < 100 →
    index run v key m =
      .error (.runtime (.str (m.position ++ ("attempt to index a " ++ w.type.name ++ " value"))) none) m
  called : ∀ vs w f, m.Refers .index key v vs w (some f) → vs.length < 100 →
    index run v key m = callHandlerHolding run [v, w, key] f [w, key] m
  tooLong : (∀ vs w o, m.Refers .index key v vs w o → 100 ≤ vs.length) →
    index run v key m = .error (.runtime (.str (m.position ++ "loop in gettable")) none) m

/-- Assigning to a field follows the chain. -/
structure AssignsField (m : Machine) (run : Run) (v key new : Value) : Prop where
  stored : ∀ vs t, m.Refers .newIndex key v vs (.table t) none → vs.length < 100 → key.isNil = false →
    key ≠ .number .nan → ∃ m', assign run v key new m = .ok () m' ∧ m.Stores t key new m'
  nil : ∀ vs t, m.Refers .newIndex key v vs (.table t) none → vs.length < 100 → key.isNil = true →
    assign run v key new m = .error (.runtime (.str (m.position ++ "table index is nil")) none) m
  nan : ∀ vs t, m.Refers .newIndex key v vs (.table t) none → vs.length < 100 → key = .number .nan →
    assign run v key new m = .error (.runtime (.str (m.position ++ "table index is NaN")) none) m
  refused : ∀ vs w, m.Refers .newIndex key v vs w none → (∀ t, w ≠ .table t) → vs.length < 100 →
    assign run v key new m =
      .error (.runtime (.str (m.position ++ ("attempt to index a " ++ w.type.name ++ " value"))) none) m
  called : ∀ vs w f, m.Refers .newIndex key v vs w (some f) → vs.length < 100 →
    assign run v key new m =
      (callHandlerHolding run [v, w, key, new] f [w, key, new] >>= fun _ => pure ()) m
  tooLong : (∀ vs w o, m.Refers .newIndex key v vs w o → 100 ≤ vs.length) →
    assign run v key new m = .error (.runtime (.str (m.position ++ "loop in settable")) none) m

/-- Tables are well formed, and handlers that are tables are there. -/
structure Furnished (m : Machine) : Prop where
  wellFormed : ∀ t ∈ m.heap.tables, t.WellFormed
  handlers : ∀ v e t, m.handler? v e = some (.table t) → t.index < m.heap.tables.size

end Machine

variable {m : Machine} {e : Event} {key v w h : Value} {vs : List Value} {o : Option Value} {γ : Type}

/-! Chains -/

namespace Machine

namespace Refers

/-- What was passed by lacks the key and has a handler that is no function. -/
theorem passed (h : m.Refers e key v vs w o) : ∀ u ∈ vs, ¬ m.Has u key ∧
    ∃ f, m.handler? u e = some f ∧ f.isFunction = false := by
  induction h with
  | ends _ | calls _ _ _ => simp
  | passes hlacks hh hfunction _ ih => exact List.forall_mem_cons.2 ⟨⟨hlacks, _, hh, hfunction⟩, ih⟩

/-- Where no function is to be called, the key is there or there is no handler. -/
theorem last (h : m.Refers e key v vs w none) : m.Has w key ∨ m.handler? w e = none := by
  generalize ho : none = o at h
  induction h with
  | ends h => exact h
  | calls _ _ _ => cases ho
  | passes _ _ _ _ ih => exact ih ho

/-- Access to a field goes one way only. -/
theorem unique {vs' : List Value} {w' : Value} {o' : Option Value} (h : m.Refers e key v vs w o)
    (h' : m.Refers e key v vs' w' o') : vs' = vs ∧ w' = w ∧ o' = o := by
  induction h generalizing vs' with
  | ends hstop =>
    cases h' with
    | ends _ => exact ⟨rfl, rfl, rfl⟩
    | calls hlacks hf _ | passes hlacks hf _ _ => exact absurd hstop (by simp [hlacks, hf])
  | calls hlacks hf hfunction =>
    cases h' with
    | ends hstop => exact absurd hstop (by simp [hlacks, hf])
    | calls _ hf' _ => exact ⟨rfl, rfl, hf'.symm.trans hf⟩
    | passes _ hh' hfunction' _ =>
      obtain rfl := Option.some.inj (hf.symm.trans hh')
      exact absurd hfunction (by simp [hfunction'])
  | passes hlacks hh hfunction _ ih =>
    cases h' with
    | ends hstop => exact absurd hstop (by simp [hlacks, hh])
    | calls _ hf' hfunction' =>
      obtain rfl := Option.some.inj (hh.symm.trans hf')
      exact absurd hfunction (by simp [hfunction'])
    | passes _ hh' _ hrest' =>
      obtain rfl := Option.some.inj (hh.symm.trans hh')
      exact (ih hrest').imp_left (congrArg _)

end Refers

/-- What follows chains step by step, up to a number of steps. -/
structure Follows (m : Machine) (e : Event) (key : Value) (resolve : Nat → Value → γ) (tooLong : γ)
    (ends : Value → Option Value → γ) : Prop where
  zero : ∀ v, resolve 0 v = tooLong
  stops : ∀ n v, m.Has v key ∨ m.handler? v e = none → resolve (n + 1) v = ends v none
  refers : ∀ n v f, ¬ m.Has v key → m.handler? v e = some f →
    resolve (n + 1) v = if f.isFunction then ends v (some f) else resolve n f

namespace Follows

variable {resolve : Nat → Value → γ} {tooLong : γ} {ends : Value → Option Value → γ}

/-- It gets to the end of a chain, or makes all its steps. -/
theorem resolve_eq (hfollows : m.Follows e key resolve tooLong ends) (h : m.Refers e key v vs w o) (n : Nat) :
    resolve n v = if vs.length < n then ends w o else tooLong := by
  induction h generalizing n with
  | @ends v hstop =>
    cases n with
    | zero => exact hfollows.zero v
    | succ n => exact hfollows.stops n v hstop
  | @calls v f hlacks hf hfunction =>
    cases n with
    | zero => exact hfollows.zero v
    | succ n => exact (hfollows.refers n v f hlacks hf).trans (if_pos hfunction)
  | @passes v h w vs o hlacks hh hfunction _ ih =>
    cases n with
    | zero => exact hfollows.zero v
    | succ n =>
      rw [hfollows.refers n v h hlacks hh, if_neg (by simp [hfunction]), ih]
      simp only [List.length_cons, Nat.add_lt_add_iff_right]

/-- A chain that does not end within the steps is too long. -/
theorem resolve_endless (hfollows : m.Follows e key resolve tooLong ends) (n : Nat)
    (h : ∀ vs w o, m.Refers e key v vs w o → n ≤ vs.length) : resolve n v = tooLong := by
  induction n generalizing v with
  | zero => exact hfollows.zero v
  | succ n ih =>
    have hlacks : ¬ m.Has v key := fun hhas => absurd (h _ _ _ (.ends (.inl hhas))) (Nat.not_succ_le_zero n)
    cases hh : m.handler? v e with
    | none => exact absurd (h _ _ _ (.ends (.inr hh))) (Nat.not_succ_le_zero n)
    | some f =>
      rw [hfollows.refers n v f hlacks hh]
      cases hfunction : f.isFunction with
      | true => exact absurd (h _ _ _ (.calls hlacks hh hfunction)) (Nat.not_succ_le_zero n)
      | false => exact ih fun vs w o hrest => Nat.le_of_succ_le_succ (h _ _ _ (.passes hlacks hh hfunction hrest))

end Follows

/-- How reading a field ends. -/
def indexEnd (m : Machine) (key : Value) : Value → Option Value → IndexEnd
  | w, some f => .handler f w
  | .table t, none => .value ((m.heap.table t).get key)
  | w, none => .notIndexable w

/-- How assigning to a field ends. -/
def assignEnd : Value → Option Value → AssignEnd
  | w, some f => .handler f w
  | .table t, none => .store t
  | w, none => .notIndexable w

theorem has_table_iff {t : TableId} :
    m.Has (.table t) key ↔ ((m.heap.table t).get key).isNil = false := by
  constructor
  · rintro ⟨t', heq, h⟩
    cases heq
    exact h
  · exact fun h => ⟨t, rfl, h⟩

theorem follows_resolveIndex (m : Machine) (key : Value) :
    m.Follows .index key (m.resolveIndex key) .tooLong (m.indexEnd key) where
  zero v := rfl
  stops n v h := by
    cases v with
    | table t =>
      rw [has_table_iff] at h
      cases hnil : ((m.heap.table t).get key).isNil with
      | false => simp [resolveIndex, hnil, indexEnd]
      | true =>
        have hnone := h.resolve_left (by simp [hnil])
        simp [resolveIndex, hnone, indexEnd, Value.eq_nil hnil, Value.isNil]
    | _ =>
      have hnone := h.resolve_left (by rintro ⟨t, ht, -⟩; cases ht)
      simp [resolveIndex, hnone, indexEnd]
  refers n v f hlacks hf := by
    cases v with
    | table t =>
      rw [has_table_iff, Bool.not_eq_false] at hlacks
      simp [resolveIndex, hlacks, hf, indexEnd]
    | _ => simp [resolveIndex, hf, indexEnd]

theorem follows_resolveAssign (m : Machine) (key : Value) :
    m.Follows .newIndex key (m.resolveAssign key) .tooLong assignEnd where
  zero v := rfl
  stops n v h := by
    cases v with
    | table t =>
      rw [has_table_iff] at h
      cases hmeta : (m.heap.table t).metatable with
      | none => simp [resolveAssign, hmeta, assignEnd]
      | some mt =>
        rcases h with hhas | hnone
        · simp [resolveAssign, hmeta, hhas, assignEnd]
        · simp [resolveAssign, hmeta, hnone, assignEnd]
    | _ =>
      have hnone := h.resolve_left (by rintro ⟨t, ht, -⟩; cases ht)
      simp [resolveAssign, hnone, assignEnd]
  refers n v f hlacks hf := by
    cases v with
    | table t =>
      rw [has_table_iff, Bool.not_eq_false] at hlacks
      have hmeta : (m.heap.table t).metatable.isNone = false := by
        cases hmeta : (m.heap.table t).metatable with
        | none => simp [handler?, metatable?, hmeta] at hf
        | some mt => rfl
      simp [resolveAssign, hmeta, hlacks, hf, assignEnd]
    | _ => simp [resolveAssign, hf, assignEnd]

end Machine

/-! Storing -/

namespace Table

variable (t : Table)

theorem metatable_migrate (fuel : Nat) : (t.migrate fuel).metatable = t.metatable := by
  induction fuel generalizing t with
  | zero => rfl
  | succ fuel ih =>
    unfold migrate
    split
    · rfl
    · dsimp only
      split
      · rfl
      · exact ih _

theorem metatable_setInNodes (k : Key) (key v : Value) : (t.setInNodes k key v).metatable = t.metatable := by
  unfold setInNodes
  split
  · rfl
  · split
    · rfl
    · unfold insertNode
      split <;> rfl

/-- Assignments do not change the metatable. -/
theorem metatable_setKey (k : Key) (key v : Value) : (t.setKey k key v).metatable = t.metatable := by
  have hkill (k : Key) : (t.kill k).metatable = t.metatable := by
    unfold kill
    split
    · split <;> rfl
    · rfl
  unfold setKey
  split
  · split_ifs
    · rfl
    · exact hkill _
    · exact (metatable_migrate _ _).trans (hkill _)
    · exact t.metatable_setInNodes _ key v
  · exact t.metatable_setInNodes _ key v

end Table

theorem Heap.table_modifyTable (h : Heap) (t u : TableId) (f : Table → Table) (ht : t.index < h.tables.size) :
    (h.modifyTable t f).table u = if u = t then f (h.table u) else h.table u := by
  have hut : u = t ↔ u.index = t.index := by cases u; cases t; simp
  simp only [modifyTable, modifyTables, table, Array.getElem?_modify, hut]
  by_cases hu : u.index = t.index
  · simp [hu, ht]
  · simp [hu, Ne.symm hu]

namespace Machine

theorem rawSet_stores (hm : m.Furnished) {t : TableId} (ht : t.index < m.heap.tables.size)
    (hnil : key.isNil = false) (hnan : key ≠ .number .nan) (new : Value) :
    ∃ m', rawSet t key new m = .ok () m' ∧ m.Stores t key new m' := by
  cases hkey : key.key with
  | error e => exact absurd (Value.key_eq_error_iff.1 ⟨e, hkey⟩) (by simp [hnil, hnan])
  | ok k =>
    have htable (u : TableId) := m.heap.table_modifyTable t u (·.setKey k key new) ht
    have hwell : (m.heap.table t).WellFormed := hm.wellFormed _ (by simp [Heap.table, ht])
    have hassign : (m.heap.table t).assign (.set key new) = (m.heap.table t).setKey k key new := by
      rw [Table.assign_eq]
      simp only [Table.Assignment.key, Table.Assignment.value, hkey]
    refine ⟨m.modifyHeap fun h => h.modifyTable t (·.setKey k key new), by simp only [rawSet, hkey]; rfl, rfl,
      Array.size_modify, fun u hu => (htable u).trans (if_neg hu), ?_, fun k' => ?_, ?_⟩
    all_goals rw [modifyHeap, htable, if_pos rfl]
    · exact Table.metatable_setKey ..
    · have hproper (h : key.rawEquals k') : ¬ k'.isNil := by
        intro hnil'
        rw [Value.rawEquals_iff_key hkey, Value.eq_nil hnil'] at h
        cases h
      rw [← hassign, Table.get_assign hwell]
      exact if_congr (and_iff_left_of_imp hproper) rfl rfl
    · exact hassign ▸ hwell.assign _

/-! Access -/

theorem reads_field (m : Machine) (run : Run) (v key : Value) : m.ReadsField run v key := by
  have hends {vs : List Value} {w : Value} {o : Option Value} (h : m.Refers .index key v vs w o)
      (hlt : vs.length < 100) : m.resolveIndex key Limit.metaSteps v = m.indexEnd key w o :=
    ((m.follows_resolveIndex key).resolve_eq h _).trans (if_pos hlt)
  refine ⟨fun vs t h hlt => ?_, fun vs w h hw hlt => ?_, fun vs w f h hlt => ?_, fun h => ?_⟩
  all_goals rw [index, Action.bind_ok (Action.view_apply _ _)]
  · rw [hends h hlt]
    rfl
  · rw [hends h hlt]
    cases w with
    | table t => exact absurd rfl (hw t)
    | _ => rfl
  · rw [hends h hlt]
    rfl
  · rw [(m.follows_resolveIndex key).resolve_endless Limit.metaSteps h]
    rfl

/-- Tables at which chains end are there. -/
theorem Refers.lt_of_table (hm : m.Furnished) {t : TableId} (h : m.Refers e key v vs w o)
    (hv : ∀ t, v = .table t → t.index < m.heap.tables.size) (hw : w = .table t) :
    t.index < m.heap.tables.size := by
  induction h with
  | ends _ | calls _ _ _ => exact hv t hw
  | passes _ hh _ _ ih => exact ih (fun t ht => hm.handlers _ _ t (ht ▸ hh)) hw

theorem assigns_field (hm : m.Furnished) (hv : ∀ t, v = .table t → t.index < m.heap.tables.size) (run : Run)
    (key new : Value) : m.AssignsField run v key new := by
  have hends {vs : List Value} {w : Value} {o : Option Value} (h : m.Refers .newIndex key v vs w o)
      (hlt : vs.length < 100) : m.resolveAssign key Limit.metaSteps v = assignEnd w o :=
    ((m.follows_resolveAssign key).resolve_eq h _).trans (if_pos hlt)
  have hstore {vs : List Value} {t : TableId} (h : m.Refers .newIndex key v vs (.table t) none)
      (hlt : vs.length < 100) : assign run v key new m = rawSet t key new m := by
    rw [assign, Action.bind_ok (Action.view_apply _ _), hends h hlt]
    rfl
  refine ⟨fun vs t h hlt hnil hnan => ?_, fun vs t h hlt hnil => ?_, fun vs t h hlt hnan => ?_,
    fun vs w h hw hlt => ?_, fun vs w f h hlt => ?_, fun h => ?_⟩
  · rw [hstore h hlt]
    exact rawSet_stores hm (h.lt_of_table hm hv rfl) hnil hnan new
  · rw [hstore h hlt, Value.eq_nil hnil]
    rfl
  · rw [hstore h hlt, hnan, rawSet, Value.key_nan]
    rfl
  all_goals rw [assign, Action.bind_ok (Action.view_apply _ _)]
  · rw [hends h hlt]
    cases w with
    | table t => exact absurd rfl (hw t)
    | _ => rfl
  · rw [hends h hlt]
    rfl
  · rw [(m.follows_resolveAssign key).resolve_endless Limit.metaSteps h]
    rfl

end Machine

/-- Where a field is found it need not be looked for. -/
theorem getField_eq_index (run : Run) (v key : Value) : getField run v key = index run v key := by
  cases v with
  | table t =>
    funext m
    rw [getField, Action.bind_ok (Action.view_apply _ _)]
    cases hnil : ((m.heap.table t).get key).isNil with
    | true => rw [if_pos rfl]
    | false =>
      rw [(m.reads_field run (.table t) key).found [] t (.ends (.inl (Machine.has_table_iff.2 hnil))) (by simp)]
      rfl
  | _ => rfl

/-- Fields are read and assigned where chains of handlers lead. There is at most one chain, of values that lack
the key and have handlers that are no functions; it ends at the first value that has the key, or no handler, or
whose handler is a function. Reading takes the value from there or calls the function, and assigning sets that
table at the key alone; what fails changes nothing. The detour that an operation saves where the field is there
makes no difference. -/
theorem fields_follow_chain (hm : m.Furnished) (hv : ∀ t, v = .table t → t.index < m.heap.tables.size)
    (run : Run) (key new : Value) :
    (∀ e vs w o, m.Refers e key v vs w o →
      (∀ u ∈ vs, ¬ m.Has u key ∧ ∃ h, m.handler? u e = some h ∧ h.isFunction = false) ∧
      (o = none → m.Has w key ∨ m.handler? w e = none) ∧
      ∀ vs' w' o', m.Refers e key v vs' w' o' → vs' = vs ∧ w' = w ∧ o' = o) ∧
    m.ReadsField run v key ∧ m.AssignsField run v key new ∧
    ∀ embedding (w : Window) a b c, perform embedding run w (.getTable a b c) = (do
      let v ← w.get b
      let key ← w.rk c
      w.set a (← index run v key)
      pure .next) := by
  refine ⟨fun e vs w o h => ⟨h.passed, ?_, fun _ _ _ => h.unique⟩, m.reads_field run v key,
    m.assigns_field hm hv run key new, fun embedding w a b c => ?_⟩
  · rintro rfl
    exact h.last
  · simp only [perform, getField_eq_index]

theorem Table.WellFormed.withMetatable {t : Table} (h : t.WellFormed) (mt : Option TableId) :
    Table.WellFormed { t with metatable := mt } :=
  ⟨h.leads, h.placed, h.dead_eq, h.ahead, h.array_size⟩

/-- A table to which assignments are passed on. -/
def Table.receiver : Table := Table.empty.setString "__newindex" (.table ⟨1⟩)

/-- A machine with a table that lacks all keys and passes assignments on to another one. -/
def Machine.deferring : Machine :=
  { Machine.bare with heap := { tables := #[{ Table.empty with metatable := some ⟨1⟩ }, .receiver] } }

theorem Table.receiver_assigns : Table.empty.Assigns (.str "__newindex") (.table ⟨1⟩) .receiver :=
  assigns_setKey empty_wellFormed rfl

theorem Table.getString_receiver (name : String) :
    Table.receiver.getString name = if name = "__newindex" then .table ⟨1⟩ else .nil := by
  rw [getString, receiver_assigns.2 (.str name) trivial]
  exact if_congr (by simp) rfl (by simp [empty, getKey, getNode])

namespace Machine

theorem deferring_metatable (u : TableId) :
    (deferring.heap.table u).metatable = if u = ⟨0⟩ then some ⟨1⟩ else none := by
  match u with
  | ⟨0⟩ => rfl
  | ⟨1⟩ => exact Table.empty.metatable_setKey (.str "__newindex") (.str "__newindex") (.table ⟨1⟩)
  | ⟨n + 2⟩ => rfl

theorem deferring_handler?_eq (e : Event) :
    deferring.heap.handler? ⟨1⟩ e = if e.name = "__newindex" then some (.table ⟨1⟩) else none := by
  have hreceiver : deferring.heap.table ⟨1⟩ = .receiver := rfl
  rw [Heap.handler?, hreceiver, Table.getString_receiver]
  split <;> rfl

theorem deferring_furnished : deferring.Furnished where
  wellFormed t ht := by
    have hcases : t = { Table.empty with metatable := some ⟨1⟩ } ∨ t = .receiver := by
      simpa [deferring] using ht
    rcases hcases with rfl | rfl
    · exact Table.empty_wellFormed.withMetatable _
    · exact Table.receiver_assigns.1
  handlers v e t h := by
    obtain ⟨mt, hmt, h⟩ := Option.bind_eq_some_iff.1 h
    cases v with
    | table u =>
      change (deferring.heap.table u).metatable = some mt at hmt
      rw [deferring_metatable] at hmt
      split at hmt
      · obtain rfl := Option.some.inj hmt
        rw [deferring_handler?_eq] at h
        split at h
        · obtain rfl := Value.table.inj (Option.some.inj h)
          decide
        · cases h
      · cases hmt
    | _ => cases hmt

/-- What the first table lacks is assigned to the second one. -/
theorem deferring_refers :
    deferring.Refers .newIndex (.str "x") (.table ⟨0⟩) [.table ⟨0⟩] (.table ⟨1⟩) none := by
  refine .passes ?_ (deferring_handler?_eq .newIndex) rfl (.ends (.inr ?_))
  · rw [has_table_iff, Bool.not_eq_false]
    simp [deferring, Heap.table, Table.get, Value.key, Table.getKey, Table.getNode, Table.empty, Value.isNil]
  · simp only [handler?, metatable?, deferring_metatable]
    rfl

end Machine

theorem fields_follow_chain_deferring :
    ∃ m', assign (fun _ => pure ()) (.table ⟨0⟩) (.str "x") (.bool true) Machine.deferring = .ok () m' ∧
      m'.heap.table ⟨0⟩ = Machine.deferring.heap.table ⟨0⟩ ∧
      (m'.heap.table ⟨1⟩).get (.str "x") = .bool true := by
  obtain ⟨-, -, hassigns, -⟩ := fields_follow_chain Machine.deferring_furnished (v := .table ⟨0⟩)
    (fun t ht => by cases ht; decide) (fun _ => pure ()) (.str "x") (.bool true)
  obtain ⟨m', hassign, hstores⟩ := hassigns.stored _ _ Machine.deferring_refers (by decide) rfl nofun
  refine ⟨m', hassign, hstores.others ⟨0⟩ nofun, ?_⟩
  exact (hstores.content _).trans (if_pos (by decide))

end LuaMachine
