import LuaMachine.Proofs.Chain
import LuaMachine.Proofs.Script
import LuaMachine.Proofs.StackTop

/-!
The basic actions of scripts leave chains of resumptions as they are: upvalues apart they change
nothing outside the running strand, and not its frames.
-/

namespace LuaMachine

/-! Cells -/

namespace Heap

variable (h : Heap)

theorem cell_setCell (c d : CellId) (x : Cell) :
    (h.setCell c x).cell d = if c = d ∧ c.index < h.cells.size then x else h.cell d := by
  have hcd : c = d ↔ c.index = d.index := by cases c; cases d; simp
  simp only [setCell, modifyCells, cell, Array.getElem?_setIfInBounds, hcd]
  by_cases hc : c.index = d.index
  · by_cases hlt : c.index < h.cells.size
    · simp [hc, hc ▸ hlt]
    · simp [hc, hc ▸ hlt]
  · simp [hc]

theorem lt_of_cell {d : CellId} {o : Owner} {i : Nat} (hd : h.cell d = .opened o i) :
    d.index < h.cells.size := by
  by_contra hlt
  rw [cell, Array.getElem?_eq_none (Nat.le_of_not_lt hlt)] at hd
  cases hd

/-- A cell that is open after another one was closed was open before. -/
theorem cell_close {c d : CellId} {v : Value} {o : Owner} {i : Nat}
    (hd : (h.setCell c (.closed v)).cell d = .opened o i) : h.cell d = .opened o i ∧ c ≠ d := by
  rw [cell_setCell] at hd
  split at hd
  · cases hd
  · next hc => exact ⟨hd, fun heq => hc ⟨heq, heq ▸ h.lt_of_cell hd⟩⟩

theorem cell_newCell (d : CellId) (x : Cell) : (h.newCell x).2.cell d =
    if d.index = h.cells.size then x else h.cell d := by
  simp only [newCell, modifyCells, cell, Array.getElem?_push]
  split <;> rfl

/-- A cell that is open after closed ones were added was open before. -/
theorem cell_newCells {d : CellId} (vs : List Value) {o : Owner} {i : Nat}
    (hd : (h.newCells vs).2.cell d = .opened o i) : h.cell d = .opened o i := by
  rw [newCells_eq_addCells] at hd
  generalize (#[] : Array CellId) = ids at hd
  induction vs generalizing h ids with
  | nil => exact hd
  | cons v vs ih =>
    have h' := ih (h.newCell (.closed v)).2 _ hd
    rw [cell_newCell] at h'
    split at h'
    · cases h'
    · exact h'

/-- Closing the cells of a strand from a slot on leaves those below it. -/
theorem openCells_closeCells (s : Strand) (level : Nat) :
    (h.closeCells s level).2 =
      { s with openCells := s.openCells.filter fun c => !decide (level ≤ c.slot) } := by
  unfold closeCells
  split
  · next he => rw [List.isEmpty_iff.1 he, List.filter_nil, ← List.isEmpty_iff.1 he]
  · simp only [List.partition_eq_filter_filter]
    rfl

theorem cell_closeCells (s : Strand) (level : Nat) {d : CellId} {o : Owner} {i : Nat}
    (hd : (h.closeCells s level).1.cell d = .opened o i) :
    h.cell d = .opened o i ∧ ∀ oc ∈ s.openCells, level ≤ oc.slot → oc.cell ≠ d := by
  have hfold (cs : List OpenCell) (h : Heap)
      (hd : (cs.foldl (fun h c => h.setCell c.cell (.closed (s.peek c.slot))) h).cell d =
        .opened o i) : h.cell d = .opened o i ∧ ∀ oc ∈ cs, oc.cell ≠ d := by
    induction cs generalizing h with
    | nil => exact ⟨hd, by simp⟩
    | cons c cs ih =>
      obtain ⟨hopen, hne⟩ := ih _ hd
      obtain ⟨hopen, hc⟩ := h.cell_close hopen
      exact ⟨hopen, List.forall_mem_cons.2 ⟨hc, hne⟩⟩
  unfold closeCells at hd
  split at hd
  · next he => exact ⟨hd, by simp [List.isEmpty_iff.1 he]⟩
  · obtain ⟨hopen, hne⟩ := hfold _ h hd
    refine ⟨hopen, fun oc hoc hlevel => hne oc ?_⟩
    simpa [List.partition_eq_filter_filter] using ⟨hoc, hlevel⟩

end Heap

variable {S : Regime} {R : Conduct} {ts : List CoroutineId} {m m' : Machine} {α : Type}

theorem Heap.coroutine_modifyCoroutine (h : Heap) (c d : CoroutineId) (f : Coroutine → Coroutine) :
    (h.modifyCoroutine c f).coroutine d =
      if c = d ∧ d.index < h.coroutines.size then f (h.coroutine d) else h.coroutine d := by
  have hcd : c = d ↔ c.index = d.index := by cases c; cases d; simp
  simp only [modifyCoroutine, modifyCoroutines, coroutine, Array.getElem?_modify, hcd]
  by_cases hc : c.index = d.index
  · by_cases hlt : d.index < h.coroutines.size
    · simp [hc, hlt]
    · simp [hc, hlt]
  · simp [hc]

/-! Running strands -/

namespace Strand.Tidy

variable {h : Heap} {s : Strand}

/-- Registers and the free slot of a strand may change above the floor. -/
theorem changed (hs : s.Tidy h) (stack : Array Value) {top : Nat} (htop : s.Floor top) :
    Strand.Tidy h { s with stack := stack, top := top } where
  cells := hs.cells
  frames := hs.frames
  grounded howner := by
    obtain ⟨hbare, hrooted⟩ := hs.grounded howner
    exact ⟨hbare, fun b fs hf => { hrooted b fs hf with top := htop howner b fs hf }⟩

theorem floor_top (hs : s.Tidy h) : s.Floor s.top :=
  fun howner b fs hf => ((hs.grounded howner).rooted b fs hf).top

theorem withStack (hs : s.Tidy h) (f : Array Value → Array Value) : (s.modifyStack f).Tidy h :=
  hs.changed _ hs.floor_top

end Strand.Tidy

theorem Strand.Floor.mono {s : Strand} {k k' : Nat} (hs : s.Floor k) (hk : k ≤ k') : s.Floor k' :=
  fun howner b fs hf => (hs howner b fs hf).trans hk

/-! What basic actions change -/

theorem Machine.Drift.refl (S : Regime) (m : Machine) : m.Drift S m where
  owner := rfl
  boundaries := rfl
  current := rfl
  nativeCalls := rfl
  parked := .refl _ _
  cells _ _ _ := .inl
  size := le_rfl
  coroutines _ _ := .refl _ _
  fresh _ hge hlt := absurd hlt (Nat.not_lt.2 hge)
  extend := .refl _
  closures := id
  caches := id

/-- A change of the running strand only. -/
theorem Machine.Drift.of_running (S : Regime) (m : Machine) {f : Strand → Strand}
    (howner : (f m.running).owner = m.running.owner)
    (hboundaries : (f m.running).boundaries = m.running.boundaries) :
    m.Drift S (m.modifyRunning f) :=
  { Drift.refl S m with owner := howner, boundaries := hboundaries }

namespace Machine.Steady

variable (hm : m.Steady S ts)

include hm

theorem ne_owner_stored {c : CoroutineId} {s : Strand} (hs : (m.heap.coroutine c).strand = some s) :
    s.owner ≠ m.running.owner := by
  have hc : c ∉ ts := by
    intro hc
    rw [hm.strand_of_mem hc] at hs
    cases hs
  exact fun heq => hc (hm.owner_mem List.mem_cons_self (heq ▸ hm.owner_stored hc hs))

/-- A change of the heap and the running strand in which no upvalue is opened over another one. -/
theorem drift_of_cells (howner : m'.running.owner = m.running.owner)
    (hboundaries : m'.running.boundaries = m.running.boundaries) (hcurrent : m'.current = m.current)
    (hcalls : m'.nativeCalls = m.nativeCalls) (hparked : m'.parked = m.parked)
    (hcoroutines : m'.heap.coroutines = m.heap.coroutines)
    (hcells : ∀ id o i, m'.heap.cell id = .opened o i →
      m.heap.cell id = .opened o i ∨ o = m.running.owner)
    (hclosures : m'.heap.closures = m.heap.closures) (hcaches : m'.heap.caches = m.heap.caches) :
    m.Drift S m' where
  owner := howner
  boundaries := hboundaries
  current := hcurrent
  nativeCalls := hcalls
  parked := by
    rw [hparked]
    refine .of_names fun s hs i ⟨id, hid⟩ => ⟨id, (hcells id _ i hid).resolve_right ?_⟩
    exact hm.owner_parked hs
  cells := hcells
  size := by rw [hcoroutines]
  coroutines c _ := by
    have hc : m'.heap.coroutine c = m.heap.coroutine c := by
      rw [Heap.coroutine, hcoroutines, ← Heap.coroutine]
    rw [hc]
    refine .of_names fun s hs i ⟨id, hid⟩ => ⟨id, (hcells id _ i hid).resolve_right ?_⟩
    exact hm.ne_owner_stored hs
  fresh _ hge hlt := absurd (hcoroutines ▸ hlt) (Nat.not_lt.2 hge)
  extend := .of_eq hclosures
  closures h := hclosures ▸ h
  caches h := hcaches ▸ h

end Machine.Steady

/-- A basic action changes the running strand apart from its frames. -/
structure Machine.Shift (S : Regime) (m m' : Machine) : Prop where
  drift : m.Drift S m'
  frames : m'.running.frames = m.running.frames
  tidy : m'.running.Tidy m'.heap

namespace Machine.Steady

variable (hm : m.Steady S ts)

include hm

theorem tidy_running : m.running.Tidy m.heap := hm.tidy _ List.mem_cons_self

theorem shift_refl : m.Shift S m := ⟨.refl S m, rfl, hm.tidy_running⟩

/-- Values on the running stack. -/
theorem shift_stack (f : Array Value → Array Value) :
    m.Shift S (m.modifyRunning fun s => s.modifyStack f) :=
  ⟨.of_running S m rfl rfl, rfl, hm.tidy_running.withStack f⟩

theorem shift_setTop {top : Nat} (htop : m.running.Floor top) :
    m.Shift S (m.modifyRunning fun s => { s with top := top }) :=
  ⟨.of_running S m rfl rfl, rfl, hm.tidy_running.changed m.running.stack htop⟩

/-- Tables, host closures and what is outside heap and strands. -/
theorem shift_of_eq (hrunning : m'.running = m.running) (hcurrent : m'.current = m.current)
    (hcalls : m'.nativeCalls = m.nativeCalls) (hparked : m'.parked = m.parked)
    (hcoroutines : m'.heap.coroutines = m.heap.coroutines) (hcells : m'.heap.cells = m.heap.cells)
    (hclosures : m'.heap.closures = m.heap.closures) (hcaches : m'.heap.caches = m.heap.caches) :
    m.Shift S m' := by
  have hcell (id : CellId) : m'.heap.cell id = m.heap.cell id := by
    rw [Heap.cell, hcells, ← Heap.cell]
  refine ⟨hm.drift_of_cells (by rw [hrunning]) (by rw [hrunning]) hcurrent hcalls hparked hcoroutines
    (fun id o i hid => .inl (hcell id ▸ hid)) hclosures hcaches, by rw [hrunning], ?_⟩
  obtain ⟨hcells, hframes, hgrounded⟩ := hm.tidy_running
  rw [hrunning]
  refine ⟨fun id i hid => hcells id i (hcell id ▸ hid), fun f hf => ?_, hgrounded⟩
  exact (hframes f hf).mono (.of_eq hclosures)

/-- Fewer cells are open, and the running strand knows those that are. -/
theorem shift_closeUpvalues (level : Nat) :
    m.Shift S (m.modifyBoth fun h s => h.closeCells s level) := by
  obtain ⟨cells, openCells, heq⟩ := m.heap.closeCells_eq m.running level
  have hm' : (m.modifyBoth fun h s => h.closeCells s level) =
      { m with
        heap := { m.heap with cells := cells }
        running := { m.running with openCells := openCells } } := by
    simp only [modifyBoth, heq]
  have hopen : openCells = m.running.openCells.filter fun c => !decide (level ≤ c.slot) := by
    have h := m.heap.openCells_closeCells m.running level
    rw [heq] at h
    exact congrArg Strand.openCells h
  have hcell {id : CellId} {o : Owner} {i : Nat}
      (hid : ({ m.heap with cells := cells } : Heap).cell id = .opened o i) :
      m.heap.cell id = .opened o i ∧ ∀ oc ∈ m.running.openCells, level ≤ oc.slot → oc.cell ≠ id := by
    refine m.heap.cell_closeCells m.running level ?_
    rw [heq]
    exact hid
  rw [hm']
  refine ⟨hm.drift_of_cells rfl rfl rfl rfl rfl rfl (fun id o i hid => .inl (hcell hid).1) rfl rfl,
    rfl, fun id i hid => ?_, hm.tidy_running.frames, fun howner => ?_⟩
  · obtain ⟨hold, hkept⟩ := hcell hid
    have hmem := hm.tidy_running.cells id i hold
    have hlt : ¬ level ≤ i := fun hle => hkept _ hmem hle rfl
    simp [hopen, hmem, hlt]
  · obtain ⟨hbare, hrooted⟩ := hm.tidy_running.grounded howner
    refine ⟨fun hf => ?_, fun b fs hf => ?_⟩
    · simp [hopen, hbare hf]
    · have hroot := hrooted b fs hf
      refine { hroot with cells := fun oc hoc => hroot.cells oc ?_ }
      exact List.mem_of_mem_filter (hopen ▸ hoc)

/-- One more cell is open, over the running strand. -/
theorem shift_openCell (slot : Nat) (hframes : ts ≠ [] → 0 < m.depth)
    (hslot : m.running.Floor slot) :
    m.Shift S
      { m with
        heap := (m.heap.newCell (.opened m.running.owner slot)).2
        running := { m.running with
          openCells := ⟨slot, ⟨m.heap.cells.size⟩⟩ :: m.running.openCells } } := by
  have hcell {id : CellId} {o : Owner} {i : Nat}
      (hid : (m.heap.newCell (.opened m.running.owner slot)).2.cell id = .opened o i) :
      id = ⟨m.heap.cells.size⟩ ∧ o = m.running.owner ∧ i = slot ∨
        m.heap.cell id = .opened o i := by
    rw [Heap.cell_newCell] at hid
    split at hid
    · next heq =>
      obtain ⟨rfl, rfl⟩ := Cell.opened.inj hid
      exact .inl ⟨CellId.mk.injEq .. ▸ heq, rfl, rfl⟩
    · exact .inr hid
  refine ⟨hm.drift_of_cells rfl rfl rfl rfl rfl rfl (fun id o i hid => ?_) rfl rfl, rfl,
    fun id i hid => ?_, hm.tidy_running.frames, fun howner => ?_⟩
  · exact (hcell hid).symm.imp_right fun ⟨_, h, _⟩ => h
  · rcases hcell hid with ⟨rfl, -, rfl⟩ | hold
    · exact List.mem_cons_self
    · exact List.mem_cons_of_mem _ (hm.tidy_running.cells id i hold)
  · obtain ⟨-, hrooted⟩ := hm.tidy_running.grounded howner
    refine ⟨fun hf => ?_, fun b fs hf => ?_⟩
    · have hpos := hframes (hm.owner_running.1 howner)
      rw [depth, ← Array.length_toList, show m.running.frames.toList = [] from hf] at hpos
      simp at hpos
    · refine { hrooted b fs hf with cells := List.forall_mem_cons.2 ⟨?_, (hrooted b fs hf).cells⟩ }
      exact hslot howner b fs hf

/-- A slot with an open upvalue gets another value. -/
theorem shift_setStrandSlot {o : Owner} {i : Nat} (hname : m.heap.Names o i) (v : Value) :
    m.Shift S (m.setStrandSlot o i v) := by
  have hput (h' : Heap) (hn : ∀ o i, h'.Names o i → m.heap.Names o i) (s : Strand)
      (hs : s.owner = o) : s.Rests m.heap h' (s.modifyStack (·.setIfInBounds i v)) := by
    refine ⟨rfl, rfl, rfl, rfl, rfl, Array.size_setIfInBounds, fun j hj => ?_, hn _⟩
    have hne : i ≠ j := fun heq => hj (heq ▸ hs.symm ▸ hname)
    exact Array.getElem?_setIfInBounds_ne hne
  unfold setStrandSlot
  split_ifs with hrun hpark
  · exact hm.shift_stack _
  · refine ⟨{ Drift.refl S m with parked := ?_ }, rfl, hm.tidy_running⟩
    refine List.forall₂_map_right_iff.2 (List.forall₂_same.2 fun s _ => ?_)
    split
    · next hs => exact hput _ (fun _ _ => id) s hs
    · exact .refl _ s
  · cases o with
    | main n => exact hm.shift_refl
    | coroutine c =>
      let put (co : Coroutine) : Coroutine :=
        ⟨co.status, co.strand.map (·.modifyStack (·.setIfInBounds i v))⟩
      change m.Shift S (m.modifyHeap fun h => h.modifyCoroutine c put)
      have hsize : (m.heap.modifyCoroutine c put).coroutines.size = m.heap.coroutines.size :=
        Array.size_modify
      have hrest (d : CoroutineId) (hd : d.index < m.heap.coroutines.size) :
          (m.heap.coroutine d).Rests m.heap (m.heap.modifyCoroutine c put)
            ((m.heap.modifyCoroutine c put).coroutine d) := by
        rw [Heap.coroutine_modifyCoroutine]
        split
        · next hcd =>
          refine ⟨rfl, ?_⟩
          simp only [put]
          cases hs : (m.heap.coroutine d).strand with
          | none => exact .none
          | some s =>
            have howner : s.owner = .coroutine c :=
              hcd.1 ▸ hm.owner_stored (fun hmem => by simp [hm.strand_of_mem hmem] at hs) hs
            exact .some (hput (m.heap.modifyCoroutine c put) (fun _ _ h => h) s howner)
        · exact .of_names fun _ _ _ h => h
      exact ⟨{ Drift.refl S m with
        parked := .of_names fun _ _ _ h => h
        size := hsize.ge
        coroutines := hrest
        fresh := fun d hge hlt => absurd (hsize ▸ hlt) (Nat.not_lt.2 hge) }, rfl,
        hm.tidy_running.rests (.of_names fun _ h => h) (.of_eq rfl) fun _ _ h => h⟩

/-- Cells of which no further one is open. -/
theorem shift_cells {cells : Array Cell}
    (hcells : ∀ id o i, ({ m.heap with cells := cells } : Heap).cell id = .opened o i →
      m.heap.cell id = .opened o i) :
    m.Shift S { m with heap := { m.heap with cells := cells } } :=
  ⟨hm.drift_of_cells rfl rfl rfl rfl rfl rfl (fun id o i hid => .inl (hcells id o i hid)) rfl rfl,
    rfl, fun id i hid => hm.tidy_running.cells id i (hcells id _ i hid), hm.tidy_running.frames,
    hm.tidy_running.grounded⟩

theorem shift_setCellValue (c : CellId) (v : Value) : m.Shift S (m.setCellValue c v) := by
  unfold setCellValue
  split
  · exact hm.shift_cells fun _ _ _ hid => (m.heap.cell_close hid).1
  · next o i hc => exact hm.shift_setStrandSlot ⟨c, hc⟩ v

theorem shift_newCells (vs : List Value) :
    m.Shift S { m with heap := (m.heap.newCells vs).2 } := by
  obtain ⟨cells, heq⟩ := m.heap.newCells_eq vs
  rw [heq]
  exact hm.shift_cells fun id o i hid => m.heap.cell_newCells vs (heq ▸ hid)

end Machine.Steady

/-! Closures, code and coroutines -/

/-- A heap with the same cells and coroutines. -/
theorem Machine.Steady.shift_heap (hm : m.Steady S ts) {h : Heap} (hcells : h.cells = m.heap.cells)
    (hcoroutines : h.coroutines = m.heap.coroutines) (hx : m.heap.Extends h)
    (hclosures : ∀ c ∈ h.closures, c.Tidy S.program) (hcaches : ∀ c ∈ h.caches, c.Tidy S.program) :
    m.Shift S { m with heap := h } := by
  have hnames (o : Owner) (i : Nat) (hn : h.Names o i) : m.heap.Names o i := by
    obtain ⟨id, hid⟩ := hn
    exact ⟨id, by rwa [Heap.cell, hcells, ← Heap.cell] at hid⟩
  have hcell (id : CellId) (o : Owner) (i : Nat) (hid : h.cell id = .opened o i) :
      m.heap.cell id = .opened o i := by
    rwa [Heap.cell, hcells, ← Heap.cell] at hid
  have hcoroutine (c : CoroutineId) : h.coroutine c = m.heap.coroutine c := by
    rw [Heap.coroutine, hcoroutines, ← Heap.coroutine]
  refine ⟨{ Drift.refl S m with
    parked := .of_names fun s _ => hnames s.owner
    cells := fun id o i hid => .inl (hcell id o i hid)
    size := by rw [hcoroutines]
    coroutines := fun c _ => hcoroutine c ▸ .of_names fun s _ => hnames s.owner
    fresh := fun _ hge hlt => absurd (hcoroutines ▸ hlt) (Nat.not_lt.2 hge)
    extend := hx
    closures := fun _ => hclosures
    caches := fun _ => hcaches }, rfl, ?_⟩
  exact hm.tidy_running.rests (.of_names (hnames _)) hx fun id => hcell id _

theorem Machine.Steady.shift_newClosure (hm : m.Steady S ts) {c : Closure}
    (hc : c.Tidy S.program) : m.Shift S { m with heap := (m.heap.newClosure c).2 } := by
  refine hm.shift_heap rfl rfl (m.heap.extends_newClosure c) (fun d hd => ?_) hm.caches
  rcases Array.mem_push.1 hd with hd | rfl
  · exact hm.closures d hd
  · exact hc

/-- A new coroutine has not started. -/
theorem Machine.Steady.shift_newCoroutine (hm : m.Steady S ts) (c : ClosureId) :
    m.Shift S { m with heap := (m.heap.newCoroutine (.function (.lua c))).2 } := by
  obtain ⟨s, hs⟩ : ∃ s : Strand, s =
      { Strand.create (.coroutine ⟨m.heap.coroutines.size⟩) with
        stack := (Strand.create (.coroutine ⟨m.heap.coroutines.size⟩)).stack.setIfInBounds 0
          (.function (.lua c))
        top := 1 } := ⟨_, rfl⟩
  have hheap : (m.heap.newCoroutine (.function (.lua c))).2 =
      m.heap.modifyCoroutines (·.push ⟨.suspended, some s⟩) := by rw [hs]; rfl
  have hsize : (m.heap.modifyCoroutines (·.push ⟨.suspended, some s⟩)).coroutines.size =
      m.heap.coroutines.size + 1 := Array.size_push _
  have hget (d : CoroutineId) : (m.heap.modifyCoroutines (·.push ⟨.suspended, some s⟩)).coroutine d =
      if d.index = m.heap.coroutines.size then ⟨.suspended, some s⟩ else m.heap.coroutine d := by
    simp only [Heap.modifyCoroutines, Heap.coroutine, Array.getElem?_push]
    split <;> rfl
  have hunstarted : s.Unstarted := by
    subst hs
    refine ⟨rfl, rfl, rfl, c, ?_⟩
    have hpos : 0 < Limit.basicStack := by decide
    simp [Strand.create, hpos]
  rw [hheap]
  refine ⟨{ Drift.refl S m with
    parked := .of_names fun _ _ _ h => h
    size := hsize.ge.trans' (Nat.le_succ _)
    coroutines := fun d hd => ?_
    fresh := fun d hge hlt => ?_ }, rfl,
    hm.tidy_running.rests (.of_names fun _ h => h) (.of_eq rfl) fun _ _ h => h⟩
  · rw [hget, if_neg hd.ne]
    exact .of_names fun _ _ _ h => h
  · have hd : d.index = m.heap.coroutines.size := by
      have h : d.index < m.heap.coroutines.size + 1 := hsize ▸ hlt
      omega
    have howner : d = ⟨m.heap.coroutines.size⟩ := by
      cases d
      exact congrArg CoroutineId.mk hd
    exact ⟨s, by rw [hget, if_pos hd], by rw [hs, howner]; rfl, by rw [hs]; rfl, hunstarted⟩

namespace CodeCache

variable {U : Prototype → Prop} {c : CodeCache} {p : Prototype} {r : Except CompileError CompiledUnit}

theorem Tidy.record (hU : IsCatalog U) (hc : c.Tidy U) (hp : U p) (hr : ∀ u, r = .ok u → p.IsUnit u) :
    (c.record p.id r).Tidy U := by
  have hunits (q : Prototype) (hq : U q) (u : CompiledUnit)
      (h : (c.units.insert p.id r)[q.id]? = some (.ok u)) : q.IsUnit u := by
    rw [Std.HashMap.getElem?_insert] at h
    split at h
    · next heq =>
      obtain rfl := hU.id_inj hp hq (by simpa using heq)
      exact hr u (Option.some.inj h)
    · exact hc.units q hq u h
  cases r <;> exact ⟨hc.backend, hunits⟩

mutual

/-- What compiling gives for a prototype is its unit, where it succeeds. -/
theorem Tidy.getOrCompile (hU : IsCatalog U) {c : CodeCache} (hc : c.Tidy U) :
    ∀ {p : Prototype}, U p →
      (∀ u, (c.getOrCompile p).1 = .ok u → p.IsUnit u) ∧ (c.getOrCompile p).2.Tidy U
  | ⟨id, source, line, last, nup, npar, va, max, code, ks, children, lines, locals, names⟩, hp => by
    rw [CodeCache.getOrCompile]
    cases hfound : c.units[id]? with
    | some r => exact ⟨fun u hu => hc.units _ hp u (hfound.trans (congrArg some hu)), hc.backend,
        hc.units⟩
    | none =>
      dsimp only
      split
      · next e _ =>
        exact ⟨by simp, hc.record hU hp (r := .error e) (by simp)⟩
      · next l hl =>
        have hchildren (q : Prototype) (hq : q ∈ children) : U q := hU.child hp hq
        have hall := Tidy.compileAll hU hc hchildren
        rcases hr : c.compileAll children with ⟨e, c'⟩
        rw [hr] at hall
        cases e with
        | some e => exact ⟨by simp, hall.record hU hp (r := .error e) (by simp)⟩
        | none =>
          have hassemble : c'.assemble id l = (.ok ⟨id, l, none⟩, c') := by
            rw [assemble, hall.backend]
          simp only [hassemble]
          have hunit (u : CompiledUnit) (hu : (.ok ⟨id, l, none⟩ : Except CompileError _) = .ok u) :
              Prototype.IsUnit ⟨id, source, line, last, nup, npar, va, max, code, ks, children, lines,
                locals, names⟩ u := by
            obtain rfl := Except.ok.inj hu
            exact ⟨rfl, hl, rfl⟩
          exact ⟨hunit, hall.record hU hp hunit⟩

theorem Tidy.compileAll (hU : IsCatalog U) {c : CodeCache} (hc : c.Tidy U) :
    ∀ {ps : List Prototype}, (∀ p ∈ ps, U p) → (c.compileAll ps).2.Tidy U
  | [], _ => by
    rw [CodeCache.compileAll]
    exact hc
  | p :: ps, hps => by
    have hc' := (Tidy.getOrCompile hU hc (hps p List.mem_cons_self)).2
    rw [CodeCache.compileAll]
    rcases hr : c.getOrCompile p with ⟨r, c'⟩
    rw [hr] at hc'
    cases r with
    | error e => exact hc'
    | ok u => exact Tidy.compileAll hU hc' fun q hq => hps q (List.mem_cons_of_mem _ hq)

end

end CodeCache

theorem Machine.Steady.tidy_cache (hm : m.Steady S ts) (i : Nat) :
    (m.heap.cache i).Tidy S.program := by
  unfold Heap.cache
  cases hget : m.heap.caches[i]? with
  | none => exact ⟨rfl, fun p _ u hu => by
      change (∅ : Std.HashMap Nat (Except CompileError CompiledUnit))[p.id]? = some (.ok u) at hu
      simp at hu⟩
  | some c => exact hm.caches c (Array.mem_of_getElem? hget)

theorem ensureStack_cases (n : Nat) (m : Machine) :
    (∃ f, ensureStack n m = .ok () (m.modifyRunning (·.modifyStack f))) ∨
      ∃ e, e ≠ .yield ∧ ensureStack n m = .error e m := by
  unfold ensureStack
  split
  · exact .inl ⟨id, rfl⟩
  · split
    · exact .inr ⟨_, by simp, rfl⟩
    · exact .inl ⟨_, rfl⟩

theorem writeSlot_cases (i : Nat) (v : Value) (m : Machine) :
    writeSlot i v m = .ok () (m.modifyRunning (·.modifyStack (·.setIfInBounds i v))) ∨
      writeSlot i v m = .error .crash m := by
  unfold writeSlot
  split
  · exact .inl rfl
  · exact .inr rfl

/-- What a basic action does, ending as it may. -/
def Shifts (S : Regime) (R : Conduct) (m : Machine) : Outcome α → Prop
  | .ok _ m' => m.Shift S m'
  | .error e m' => m.Shift S m' ∧ (e = .yield → R.seat = .host ∧ R.honest = false)

/-- A script may be run where it belongs. -/
def Conduct.Seated (R : Conduct) (ts : List CoroutineId) (m : Machine) : Prop :=
  match R.seat with
  | .host => ts ≠ [] → 2 ≤ m.depth
  | .code base => m.running.Floor base ∧ (ts ≠ [] → 0 < m.depth)
  | .between floor => m.running.Floor floor

theorem Conduct.Seated.floor {slot : Nat} (h : R.Seated ts m) (hslot : R.seat.Frees slot) :
    m.running.Floor slot := by
  unfold Seated at h
  generalize R.seat = seat at h hslot
  cases seat with
  | host => exact hslot.elim
  | code base => exact h.1.mono hslot
  | between floor => exact h.mono hslot

/-- The end of the registers of the frame on top is above the lowest frame. -/
theorem Machine.Steady.floor_topFrame (hm : m.Steady S ts) {f : Frame} (hf : m.topFrame? = some f) :
    m.running.Floor f.top := by
  intro howner b fs hfs
  have hroot := (hm.tidy_running.grounded howner).rooted b fs hfs
  obtain ⟨init, hinit⟩ := topFrame?_eq_some.1 hf
  rw [hfs] at hinit
  cases init with
  | nil =>
    obtain ⟨rfl, -⟩ : b = f ∧ fs = [] := by simpa using hinit
    exact hroot.window
  | cons g init =>
    obtain ⟨-, rfl⟩ := List.cons.inj hinit
    exact (hroot.frames f (by simp)).top

/-- Basic actions of scripts. -/
theorem Elementary.shifts (hS : IsCatalog S.program) (hR : ∀ p, R.program p → S.program p)
    {x : Action α} (h : Elementary R x) (hm : m.Steady S ts) (hseat : R.Seated ts m) :
    Shifts S R m (x m) := by
  have hself := hm.shift_refl
  have hsame {β : Type} {e : Fault} {m' : Machine} (hm' : m.Shift S m') (he : e ≠ .yield) :
      Shifts S R m (.error e m' : Outcome β) := ⟨hm', fun h => absurd h he⟩
  cases h with
  | view f _ => exact hself
  | throw e he => exact ⟨hself, he⟩
  | readSlot i =>
    unfold LuaMachine.readSlot
    split
    · exact hself
    · exact hsame hself (by simp)
  | writeSlot i v =>
    unfold LuaMachine.writeSlot
    split
    · exact hm.shift_stack _
    · exact hsame hself (by simp)
  | setTop top htop => exact hm.shift_setTop (hseat.floor htop)
  | resetTop =>
    unfold LuaMachine.resetTop
    rw [Action.bind_apply, Action.view_apply]
    cases hf : m.topFrame? with
    | none => exact hself
    | some f => exact hm.shift_setTop (hm.floor_topFrame hf)
  | pushValue v =>
    have hpush (f : Array Value → Array Value) : m.Shift S (m.modifyRunning fun s =>
        { s.modifyStack f with top := m.running.top + 1 }) :=
      ⟨.of_running S m rfl rfl, rfl,
        hm.tidy_running.changed _ (hm.tidy_running.floor_top.mono (Nat.le_succ _))⟩
    unfold LuaMachine.pushValue
    simp only [Action.bind_apply, Action.view_apply]
    rcases ensureStack_cases (m.running.top + 1 + Limit.minStack) m with ⟨f, hf⟩ | ⟨e, he, hf⟩
    · rw [hf]
      rcases writeSlot_cases m.running.top v (m.modifyRunning (·.modifyStack f)) with hg | hg
      · simp only [hg]
        exact hpush fun stack => (f stack).setIfInBounds m.running.top v
      · simp only [hg]
        exact hsame (hm.shift_stack f) (by simp)
    · rw [hf]
      exact hsame hself he
  | ensureStack n =>
    unfold LuaMachine.ensureStack
    split
    · exact hself
    · split
      · exact hsame hself (by simp)
      · exact hm.shift_stack _
  | closeUpvalues level => exact hm.shift_closeUpvalues level
  | findUpvalue slot hslot =>
    unfold LuaMachine.findUpvalue
    simp only [Action.bind_apply, Action.view_apply]
    cases m.running.openCells.find? (·.slot = slot) with
    | some c => exact hself
    | none =>
      unfold Conduct.Seated at hseat
      generalize R.seat = seat at hseat hslot
      cases seat with
      | code base => exact hm.shift_openCell slot hseat.2 (hseat.1.mono hslot)
      | host | between floor => exact hslot.elim
  | assignUpvalue c v =>
    rcases assignUpvalue_cases c v m with hx | hx <;> rw [hx]
    · exact hm.shift_setCellValue c v
    · exact hsame hself (by simp)
  | modifyTable t f => exact hm.shift_of_eq rfl rfl rfl rfl rfl rfl rfl rfl
  | setStringMetatable metatable => exact hm.shift_of_eq rfl rfl rfl rfl rfl rfl rfl rfl
  | newTable t => exact hm.shift_of_eq rfl rfl rfl rfl rfl rfl rfl rfl
  | newHostClosure c => exact hm.shift_of_eq rfl rfl rfl rfl rfl rfl rfl rfl
  | createCoroutine body =>
    cases body with
    | function f =>
      cases f with
      | lua c => exact hm.shift_newCoroutine c
      | _ => exact hsame hself (by simp)
    | _ => exact hsame hself (by simp)
  | newCells vs => exact hm.shift_newCells vs
  | newClosure p cells env hp _ => exact hm.shift_newClosure ⟨hR p hp, nofun⟩
  | print text => exact hm.shift_of_eq rfl rfl rfl rfl rfl rfl rfl rfl
  | takeOutput _ => exact hm.shift_of_eq rfl rfl rfl rfl rfl rfl rfl rfl
  | setMode mode _ => exact hm.shift_of_eq rfl rfl rfl rfl rfl rfl rfl rfl
  | compile p hp _ =>
    have hcache := (hm.tidy_cache m.cache).getOrCompile hS (hR p hp)
    refine hm.shift_heap rfl rfl (.of_eq rfl) hm.closures fun c hc => ?_
    rcases Array.mem_or_eq_of_mem_setIfInBounds hc with hc | rfl
    · exact hm.caches c hc
    · exact hcache.2

end LuaMachine
