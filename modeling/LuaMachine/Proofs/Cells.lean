import LuaMachine.Proofs.Confinement
import LuaMachine.Proofs.Nesting

/-!
Open upvalues under basic actions. Cells are opened and closed over the running stack only, and its strand
lists those that are open, at most one over each slot.
-/

namespace LuaMachine

/-- The cells a strand lists are open over its slots. -/
def Strand.Lists (h : Heap) (s : Strand) : Prop :=
  ∀ oc ∈ s.openCells, h.cell oc.cell = .opened s.owner oc.slot

/-- What basic actions carry over: the frames of the running strand, what waits, and the order among open
cells. -/
structure Machine.Carries (seat : Seat) (m m' : Machine) : Prop where
  owner : m'.running.owner = m.running.owner
  frames : m'.running.frames = m.running.frames
  size : m.running.stack.size ≤ m'.running.stack.size
  parked : Strand.AllRest m.heap m'.heap m.parked m'.parked
  /-- Coroutines keep their strands; nothing is open over that of a new one. -/
  stored : ∀ c s', (m'.heap.coroutine c).strand = some s' → s'.openCells = [] ∨
    ∃ s, (m.heap.coroutine c).strand = some s ∧ s.Rests m.heap m'.heap s'
  extend : m.heap.Extends m'.heap
  buries : m.heap.Buries m'.heap
  cells : ∀ id o i, m'.heap.cell id = .opened o i →
    m.heap.cell id = .opened o i ∨ o = m.running.owner
  listed : m.running.Lists m.heap → m'.running.Lists m'.heap
  distinct : (m.running.openCells.map (·.slot)).Nodup → (m'.running.openCells.map (·.slot)).Nodup
  elsewhere : m.running.Lists m.heap → ∀ id o i, o ≠ m.running.owner →
    m.heap.cell id = .opened o i → m'.heap.cell id = .opened o i
  opened : ∀ oc ∈ m'.running.openCells, oc ∈ m.running.openCells ∨ seat.Opens oc.slot
  top : ∀ k, m.Beyond k → (∀ i, seat.Frees i → k ≤ i) → k ≤ m'.running.top

variable {S : Regime} {R : Conduct} {ts : List CoroutineId} {m m' m'' : Machine} {seat : Seat}
  {α : Type}

namespace Heap

variable (h : Heap)

/-- Cells that are not closed stay as they are. -/
theorem cell_closeCells_of_ne (s : Strand) (level : Nat) {d : CellId}
    (hd : ∀ oc ∈ s.openCells, level ≤ oc.slot → oc.cell ≠ d) :
    (h.closeCells s level).1.cell d = h.cell d := by
  have hfold (cs : List OpenCell) (h : Heap) (hcs : ∀ oc ∈ cs, oc.cell ≠ d) :
      (cs.foldl (fun h c => h.setCell c.cell (.closed (s.peek c.slot))) h).cell d = h.cell d := by
    induction cs generalizing h with
    | nil => rfl
    | cons c cs ih =>
      obtain ⟨hc, hcs⟩ := List.forall_mem_cons.1 hcs
      rw [List.foldl_cons, ih _ hcs, cell_setCell, if_neg fun heq => hc heq.1]
  unfold closeCells
  split
  · rfl
  · refine hfold _ h fun oc hoc => ?_
    obtain ⟨hmem, hlevel⟩ : oc ∈ s.openCells ∧ level ≤ oc.slot := by
      simpa [List.partition_eq_filter_filter] using hoc
    exact hd oc hmem hlevel

/-- Cells that are there stay as they are when closed ones are added. -/
theorem cell_newCells_of_lt {d : CellId} (vs : List Value) (hd : d.index < h.cells.size) :
    (h.newCells vs).2.cell d = h.cell d := by
  rw [newCells_eq_addCells]
  generalize (#[] : Array CellId) = ids
  induction vs generalizing h ids with
  | nil => rfl
  | cons v vs ih =>
    have hlt : d.index < (h.newCell (.closed v)).2.cells.size :=
      hd.trans_le (by simp [newCell, modifyCells])
    refine (ih (h.newCell (.closed v)).2 hlt _).trans ?_
    rw [cell_newCell, if_neg hd.ne]

end Heap

namespace Machine.Carries

theorem refl (seat : Seat) (m : Machine) : m.Carries seat m where
  owner := rfl
  frames := rfl
  size := le_rfl
  parked := .refl _ _
  stored _ s hs := .inr ⟨s, hs, .refl _ _⟩
  extend := .refl _
  buries := .refl _
  cells _ _ _ := .inl
  listed := id
  distinct := id
  elsewhere _ _ _ _ _ := id
  opened _ := .inl
  top _ hk _ := hk.top

theorem trans (h : m.Carries seat m') (h' : m'.Carries seat m'') : m.Carries seat m'' where
  owner := h'.owner.trans h.owner
  frames := h'.frames.trans h.frames
  size := h.size.trans h'.size
  parked := h.parked.trans h'.parked
  stored c s'' hs'' := by
    rcases h'.stored c s'' hs'' with hnone | ⟨s', hs', hr'⟩
    · exact .inl hnone
    · rcases h.stored c s' hs' with hnone | ⟨s, hs, hr⟩
      · exact .inl (hr'.openCells.trans hnone)
      · exact .inr ⟨s, hs, hr.trans hr'⟩
  extend := h.extend.trans h'.extend
  buries := h.buries.trans h'.buries
  cells id o i hid := by
    rcases h'.cells id o i hid with hid | ho
    · exact h.cells id o i hid
    · exact .inr (ho.trans h.owner)
  listed := h'.listed ∘ h.listed
  distinct := h'.distinct ∘ h.distinct
  elsewhere hl id o i ho hid := h'.elsewhere (h.listed hl) id o i (h.owner ▸ ho)
    (h.elsewhere hl id o i ho hid)
  opened oc hoc := (h'.opened oc hoc).elim (h.opened oc) .inr
  top k hk hseat := h'.top k (hk.congr (h.top k hk hseat) h.frames) hseat

/-- What a basic action does to the machine, and what it does to the cells of the running strand. -/
theorem of_shift (hs : m.Shift S m') (hsize : m.running.stack.size ≤ m'.running.stack.size)
    (hlisted : m.running.Lists m.heap → m'.running.Lists m'.heap ∧
      ∀ id o i, o ≠ m.running.owner → m.heap.cell id = .opened o i → m'.heap.cell id = .opened o i)
    (hdistinct : (m.running.openCells.map (·.slot)).Nodup →
      (m'.running.openCells.map (·.slot)).Nodup)
    (hopened : ∀ oc ∈ m'.running.openCells, oc ∈ m.running.openCells ∨ seat.Opens oc.slot)
    (htop : ∀ k, m.Beyond k → (∀ i, seat.Frees i → k ≤ i) → k ≤ m'.running.top) :
    m.Carries seat m' where
  owner := hs.drift.owner
  frames := hs.frames
  size := hsize
  parked := hs.drift.parked
  stored c s' hs' := by
    have hlt : c.index < m'.heap.coroutines.size := by
      by_contra hlt
      rw [Heap.coroutine, Array.getElem?_eq_none (Nat.le_of_not_lt hlt)] at hs'
      cases hs'
    rcases Nat.lt_or_ge c.index m.heap.coroutines.size with hold | hnew
    · obtain ⟨-, hrel⟩ := hs.drift.coroutines c hold
      rw [hs'] at hrel
      cases hstrand : (m.heap.coroutine c).strand with
      | none => rw [hstrand] at hrel; cases hrel
      | some s =>
        rw [hstrand] at hrel
        cases hrel with
        | some hr => exact .inr ⟨s, rfl, hr⟩
    · obtain ⟨s, hc, -, hempty, -⟩ := hs.drift.fresh c hnew hlt
      rw [hc] at hs'
      exact .inl (Option.some.inj hs' ▸ hempty)
  extend := hs.drift.extend
  buries := (Spares.of_drift hs.drift).buries
  cells := hs.drift.cells
  listed h := (hlisted h).1
  distinct := hdistinct
  elsewhere h := (hlisted h).2
  opened := hopened
  top := htop

/-- No cell is opened or closed. -/
theorem of_cells (hs : m.Shift S m') (hsize : m.running.stack.size ≤ m'.running.stack.size)
    (hcells : m'.heap.cells = m.heap.cells) (hopen : m'.running.openCells = m.running.openCells)
    (htop : ∀ k, m.Beyond k → (∀ i, seat.Frees i → k ≤ i) → k ≤ m'.running.top) :
    m.Carries seat m' := by
  have hcell (id : CellId) : m'.heap.cell id = m.heap.cell id := by
    rw [Heap.cell, hcells, ← Heap.cell]
  refine of_shift hs hsize (fun h => ⟨fun oc hoc => ?_, fun id o i _ hid => by rwa [hcell]⟩)
    (fun h => by rwa [hopen]) (fun oc hoc => .inl (hopen ▸ hoc)) htop
  rw [hcell, hs.drift.owner]
  exact h oc (hopen ▸ hoc)

end Machine.Carries

theorem Machine.setCellValue_closed (m : Machine) {c : CellId} {v w : Value}
    (hc : m.heap.cell c = .closed w) :
    m.setCellValue c v = m.modifyHeap (·.setCell c (.closed v)) := by
  simp only [setCellValue, hc]

theorem Machine.setCellValue_opened (m : Machine) {c : CellId} {o : Owner} {i : Nat} {v : Value}
    (hc : m.heap.cell c = .opened o i) : m.setCellValue c v = m.setStrandSlot o i v := by
  simp only [setCellValue, hc]

/-- A stack does not shrink when slots are to be there. -/
theorem state_ensureStack (n : Nat) (m : Machine) :
    ∃ f : Array Value → Array Value, (∀ stack, stack.size ≤ (f stack).size) ∧
      Outcome.state (ensureStack n m) = m.modifyRunning (·.modifyStack f) := by
  unfold ensureStack
  split_ifs
  · exact ⟨id, fun _ => le_rfl, rfl⟩
  · exact ⟨id, fun _ => le_rfl, rfl⟩
  · exact ⟨_, fun stack => by rw [Array.size_append]; exact Nat.le_add_right .., rfl⟩

namespace Machine.Steady

variable (hm : m.Steady S ts)

include hm

theorem carries_stack {f : Array Value → Array Value}
    (hf : ∀ stack, stack.size ≤ (f stack).size) :
    m.Carries seat (m.modifyRunning (·.modifyStack f)) :=
  .of_cells (hm.shift_stack f) (hf _) rfl rfl fun _ hk _ => hk.top

theorem carries_pushValue (v : Value) : m.Carries seat (Outcome.state (pushValue v m)) := by
  have hpush {f : Array Value → Array Value} (hf : ∀ stack, stack.size ≤ (f stack).size) :
      m.Carries seat (m.modifyRunning fun s => { s.modifyStack f with top := m.running.top + 1 }) := by
    have hshift : m.Shift S
        (m.modifyRunning fun s => { s.modifyStack f with top := m.running.top + 1 }) :=
      ⟨.of_running S m rfl rfl, rfl,
        hm.tidy_running.changed _ (hm.tidy_running.floor_top.mono (Nat.le_succ _))⟩
    exact .of_cells hshift (hf _) rfl rfl fun k hk _ => hk.top.trans (Nat.le_succ _)
  obtain ⟨f, hf, hstate⟩ := state_ensureStack (m.running.top + 1 + Limit.minStack) m
  unfold LuaMachine.pushValue
  simp only [Action.bind_apply, Action.view_apply]
  cases hx : ensureStack (m.running.top + 1 + Limit.minStack) m with
  | ok u m₁ =>
    obtain rfl : m₁ = m.modifyRunning (·.modifyStack f) := by rw [hx] at hstate; exact hstate
    rcases writeSlot_cases m.running.top v (m.modifyRunning (·.modifyStack f)) with hw | hw
    · simp only [hw]
      exact hpush fun stack => (hf stack).trans Array.size_setIfInBounds.ge
    · simp only [hw]
      exact hm.carries_stack hf
  | error e m₁ =>
    obtain rfl : m₁ = m.modifyRunning (·.modifyStack f) := by rw [hx] at hstate; exact hstate
    exact hm.carries_stack hf

theorem carries_closeUpvalues (level : Nat) :
    m.Carries seat (m.modifyBoth fun h s => h.closeCells s level) := by
  have hshift := hm.shift_closeUpvalues level
  have hrunning : (m.modifyBoth fun h s => h.closeCells s level).running =
      { m.running with
        openCells := m.running.openCells.filter fun c => !decide (level ≤ c.slot) } :=
    m.heap.openCells_closeCells m.running level
  have hopen := congrArg Strand.openCells hrunning
  have hsize := congrArg (·.stack.size) hrunning
  have htop := congrArg Strand.top hrunning
  refine .of_shift hshift hsize.ge ?_ (fun h => ?_) (fun oc hoc => .inl ?_)
    fun k hk _ => htop.ge.trans' hk.top
  · -- a cell that is listed is open over one slot only
    intro hlist
    have hkeep {id : CellId} {o : Owner} {i : Nat} (hid : m.heap.cell id = .opened o i)
        (hlow : o = m.running.owner → i < level) :
        (m.modifyBoth fun h s => h.closeCells s level).heap.cell id = .opened o i := by
      refine (m.heap.cell_closeCells_of_ne m.running level fun oc hoc hlevel heq => ?_).trans hid
      have hcell := hlist oc hoc
      rw [heq, hid] at hcell
      obtain ⟨ho, hi⟩ := Cell.opened.inj hcell
      exact absurd (hlow ho) (by omega)
    refine ⟨fun oc hoc => ?_, fun id o i ho hid => hkeep hid fun h => absurd h ho⟩
    rw [hopen, List.mem_filter] at hoc
    rw [hshift.drift.owner]
    exact hkeep (hlist oc hoc.1) fun _ => by simpa using hoc.2
  · rw [hopen]
    exact h.sublist (List.filter_sublist.map _)
  · exact List.mem_of_mem_filter (hopen ▸ hoc)

theorem carries_openCell {slot : Nat} (hframes : ts ≠ [] → 0 < m.depth)
    (hslot : m.running.Floor slot) (hopens : seat.Opens slot)
    (hfree : m.running.openCells.find? (·.slot = slot) = none) :
    m.Carries seat
      { m with
        heap := (m.heap.newCell (.opened m.running.owner slot)).2
        running := { m.running with
          openCells := ⟨slot, ⟨m.heap.cells.size⟩⟩ :: m.running.openCells } } := by
  have hold {id : CellId} {o : Owner} {i : Nat} (hid : m.heap.cell id = .opened o i) :
      (m.heap.newCell (.opened m.running.owner slot)).2.cell id = .opened o i := by
    rw [Heap.cell_newCell, if_neg (m.heap.lt_of_cell hid).ne, hid]
  refine .of_shift (hm.shift_openCell slot hframes hslot) le_rfl
    (fun hlist => ⟨List.forall_mem_cons.2 ⟨?_, fun oc hoc => hold (hlist oc hoc)⟩,
      fun id o i _ => hold⟩) (fun h => List.nodup_cons.2 ⟨?_, h⟩) (fun oc hoc => ?_)
    fun k hk _ => hk.top
  · change (m.heap.newCell (.opened m.running.owner slot)).2.cell ⟨m.heap.cells.size⟩ = _
    rw [Heap.cell_newCell, if_pos rfl]
  · intro hmem
    obtain ⟨oc, hoc, hslot⟩ := List.mem_map.1 hmem
    exact absurd (decide_eq_true hslot) (by simpa using List.find?_eq_none.1 hfree oc hoc)
  · exact (List.mem_cons.1 hoc).elim (fun heq => .inr (heq ▸ hopens)) .inl

theorem carries_setStrandSlot {o : Owner} {i : Nat} (hname : m.heap.Names o i) (v : Value) :
    m.Carries seat (m.setStrandSlot o i v) := by
  have hshift := hm.shift_setStrandSlot hname v
  unfold setStrandSlot at hshift ⊢
  split_ifs at hshift ⊢
  · exact .of_cells hshift Array.size_setIfInBounds.ge rfl rfl fun k hk _ => hk.top
  · exact .of_cells hshift le_rfl rfl rfl fun k hk _ => hk.top
  · cases o with
    | main n => exact .refl seat m
    | coroutine c => exact .of_cells hshift le_rfl rfl rfl fun k hk _ => hk.top

theorem carries_setCellValue (c : CellId) (v : Value) : m.Carries seat (m.setCellValue c v) := by
  cases hc : m.heap.cell c with
  | closed w =>
    have hshift := hm.shift_setCellValue c v
    rw [m.setCellValue_closed hc] at hshift ⊢
    have hold {id : CellId} {o : Owner} {i : Nat} (hid : m.heap.cell id = .opened o i) :
        (m.heap.setCell c (.closed v)).cell id = .opened o i := by
      rw [Heap.cell_setCell, if_neg, hid]
      rintro ⟨rfl, -⟩
      rw [hc] at hid
      cases hid
    exact .of_shift hshift le_rfl (fun hlist => ⟨fun oc hoc => hold (hlist oc hoc),
      fun id o i _ => hold⟩) id (fun _ => .inl) fun k hk _ => hk.top
  | opened o i =>
    rw [m.setCellValue_opened hc]
    exact hm.carries_setStrandSlot ⟨c, hc⟩ v

theorem carries_newCells (vs : List Value) :
    m.Carries seat { m with heap := (m.heap.newCells vs).2 } := by
  have hold {id : CellId} {o : Owner} {i : Nat} (hid : m.heap.cell id = .opened o i) :
      (m.heap.newCells vs).2.cell id = .opened o i := by
    rw [Heap.cell_newCells_of_lt _ vs (m.heap.lt_of_cell hid), hid]
  exact .of_shift (hm.shift_newCells vs) le_rfl (fun hlist => ⟨fun oc hoc => hold (hlist oc hoc),
    fun id o i _ => hold⟩) id (fun _ => .inl) fun k hk _ => hk.top

end Machine.Steady

/-- Basic actions of scripts. -/
theorem Elementary.carries (hS : IsCatalog S.program) (hR : ∀ p, R.program p → S.program p)
    {x : Action α} (h : Elementary R x) (hm : m.Steady S ts) (hseat : R.Seated ts m) :
    (Outcome.state (x m)).Steady S ts ∧ m.Carries R.seat (Outcome.state (x m)) := by
  have hshift := h.shifts hS hR hm hseat
  have hshifted : m.Shift S (Outcome.state (x m)) := by
    cases hx : x m with
    | ok a m' => rw [hx] at hshift; exact hshift
    | error e m' => rw [hx] at hshift; exact hshift.1
  refine ⟨hm.drift hshifted.drift hshifted.tidy, ?_⟩
  have htop (k : Nat) (hk : m.Beyond k) (_ : ∀ i, R.seat.Frees i → k ≤ i) := hk.top
  cases h with
  | view f _ | throw e _ => exact .refl _ m
  | readSlot i =>
    unfold LuaMachine.readSlot
    split <;> exact .refl _ m
  | writeSlot i v =>
    rcases writeSlot_cases i v m with hx | hx
    · rw [hx]
      exact hm.carries_stack fun _ => Array.size_setIfInBounds.ge
    · rw [hx]
      exact .refl _ m
  | setTop top hfree => exact .of_cells hshifted le_rfl rfl rfl fun k _ hk => hk top hfree
  | resetTop =>
    unfold LuaMachine.resetTop at hshifted ⊢
    rw [Action.bind_apply, Action.view_apply] at hshifted ⊢
    cases hf : m.topFrame? with
    | none => exact .refl _ m
    | some f =>
      simp only [hf] at hshifted
      exact .of_cells hshifted le_rfl rfl rfl fun k hk _ => hk.frame f hf
  | pushValue v => exact hm.carries_pushValue v
  | ensureStack n =>
    obtain ⟨f, hf, hx⟩ := state_ensureStack n m
    rw [hx]
    exact hm.carries_stack hf
  | closeUpvalues level => exact hm.carries_closeUpvalues level
  | findUpvalue slot hslot =>
    unfold LuaMachine.findUpvalue
    simp only [Action.bind_apply, Action.view_apply]
    cases hfree : m.running.openCells.find? (·.slot = slot) with
    | some c => exact .refl _ m
    | none =>
      unfold Conduct.Seated at hseat
      generalize R.seat = seat at hseat hslot
      cases seat with
      | code base => exact hm.carries_openCell hseat.2 (hseat.1.mono hslot) hslot hfree
      | host | between floor => exact hslot.elim
  | assignUpvalue c v =>
    rcases assignUpvalue_cases c v m with hx | hx <;> rw [hx]
    · exact hm.carries_setCellValue c v
    · exact .refl _ m
  | newCells vs => exact hm.carries_newCells vs
  | createCoroutine body =>
    cases body with
    | function f =>
      cases f with
      | lua c => exact .of_cells hshifted le_rfl rfl rfl htop
      | _ => exact .refl _ m
    | _ => exact .refl _ m
  | modifyTable _ _ | setStringMetatable _ | newTable _ | newHostClosure _ | newClosure _ _ _ _ _
  | print _ | takeOutput _ | setMode _ _ | compile _ _ _ =>
    exact .of_cells hshifted le_rfl rfl rfl htop

/-- Sequences of basic actions, wherever they end. -/
theorem Sequence.carries (hS : IsCatalog S.program) (hR : ∀ p, R.program p → S.program p)
    {x : Action α} (h : Sequence R x) (hm : m.Steady S ts) (hseat : R.Seated ts m) :
    (Outcome.state (x m)).Steady S ts ∧ m.Carries R.seat (Outcome.state (x m)) := by
  induction h generalizing m with
  | elementary h => exact h.carries hS hR hm hseat
  | pure a => exact ⟨hm, .refl _ m⟩
  | bind _ _ ihx ihf =>
    obtain ⟨hm', hc⟩ := ihx hm hseat
    rw [Action.bind_apply]
    split
    · next a m' heq =>
      rw [heq] at hm' hc
      obtain ⟨hm'', hc'⟩ := ihf a ⟨_, m', heq⟩ hm' (hseat.congr hc.frames hc.owner)
      exact ⟨hm'', hc.trans hc'⟩
    · next e m' heq =>
      rw [heq] at hm' hc
      exact ⟨hm', hc⟩

end LuaMachine
