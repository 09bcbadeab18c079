import LuaMachine.Proofs.Sealing
import LuaMachine.Proofs.Upvalues

/-!
Closing upvalues. The cells over the running strand from a slot on come off the stack with the values they
have, and nobody can tell by reading. From then on they are variables of their own: whatever is run, no slot
and no other cell stands for them, and a register that is captured again gets another cell.
-/

namespace LuaMachine

/-- What closing the upvalues over the running strand from a slot on leads to. -/
structure Machine.Closes (level : Nat) (m m' : Machine) : Prop where
  /-- The strand lists just the cells that are open over it, before and after. -/
  indexes : m.running.Indexes m.heap ∧ m'.running.Indexes m'.heap
  closed : ∀ c i, m.heap.cell c = .opened m.running.owner i → level ≤ i →
    m'.heap.cell c = .closed (m.cellValue c)
  others : ∀ c, (∀ i, level ≤ i → m.heap.cell c ≠ .opened m.running.owner i) →
    m'.heap.cell c = m.heap.cell c
  listed : m'.running.openCells = m.running.openCells.filter (·.slot < level)
  /-- Nothing but cells and the list of open ones is changed. -/
  rest : m' = { m with
    heap := { m.heap with cells := m'.heap.cells }
    running := { m.running with openCells := m'.running.openCells } }
  slots : ∀ o i, m'.slot? o i = m.slot? o i
  values : ∀ c, m'.cellValue c = m.cellValue c
  /-- There is nothing left to close. -/
  again : ∀ level', level ≤ level' → closeUpvalues level' m' = .ok () m'
  /-- A register that is captured next gets a cell that is added to the heap. -/
  fresh : ∀ i, level ≤ i → ∃ m'', findUpvalue i m' = .ok ⟨m.heap.cells.size⟩ m'' ∧
    m''.heap.cell ⟨m.heap.cells.size⟩ = .opened m.running.owner i

/-- States that come later: something was run, with host functions that are scripts, to its end or until an
alarm stopped it. -/
inductive Machine.Later : Machine → Machine → Prop
  | refl (m : Machine) : Later m m
  | run {m m' : Machine} (h : Later m m') {R : Conduct} (hhost : R.seat = .host) (hhonest : R.honest = false)
      {embedding : Embedding} (hosts : ∀ name, Script R (embedding name)) (alarm : Moment → Option Fault)
      (fuel : Nat) (job : Job) : Later m (Outcome.state (watched embedding alarm fuel job m'))
  | script {m m' : Machine} (h : Later m m') {R : Conduct} (hhost : R.seat = .host)
      (hhonest : R.honest = false) {embedding : Embedding} (hosts : ∀ name, Script R (embedding name))
      (alarm : Moment → Option Fault) (fuel : Nat) {R' : Conduct} (hhonest' : R'.honest = false) {α : Type}
      {x : Run → Action α} (hx : Script R' x) :
    Later m (Outcome.state (x (watched embedding alarm fuel) m'))

/-- A cell stands for no slot: neither slots nor other cells have anything to do with it. -/
structure Machine.SetsApart (m : Machine) (c : CellId) : Prop where
  closed : (m.heap.cell c).isOpen = false
  registers : ∀ i v m', writeSlot i v m = .ok () m' → m'.cellValue c = m.cellValue c
  slots : ∀ o i v, (m.setStrandSlot o i v).cellValue c = m.cellValue c
  itself : ∀ v, (m.setCellValue c v).cellValue c = v ∧ ∀ o i, (m.setCellValue c v).slot? o i = m.slot? o i
  others : ∀ d ≠ c, ∀ v, (m.setCellValue d v).cellValue c = m.cellValue c ∧
    (m.setCellValue c v).cellValue d = m.cellValue d

/-- What closures that are made capture from registers are other cells. -/
def Machine.CapturesBeside (m : Machine) (c : CellId) : Prop :=
  ∀ (w : Window) child (cs : List Capture) f m', makeClosure w child cs m = .ok f m' → ∃ id, f = .function (.lua id) ∧
    ∀ k r : Nat, cs[k]? = some (.register r) → ∃ d, (m'.heap.closure id).upvalues[k]? = some d ∧ d ≠ c ∧
      m'.heap.cell d = .opened m.running.owner (w.base + r)

variable {m m' : Machine} {c : CellId} {level : Nat} {h : Heap} {s : Strand} {U : Prototype → Prop}
  {honest strict : Bool}

/-! Closing -/

/-- A listed cell is closed with the value of its slot. -/
theorem Heap.cell_closeCells_of_mem (hs : s.Indexes h) {i : Nat} (hc : ⟨i, c⟩ ∈ s.openCells)
    (hi : level ≤ i) : (h.closeCells s level).1.cell c = .closed (s.peek i) := by
  -- whether the cell is still to come or was closed, nothing listed under another slot is in the way
  have hfold (cs : List OpenCell) (h : Heap) (hlt : c.index < h.cells.size)
      (hcs : ∀ oc ∈ cs, oc.cell = c → oc.slot = i)
      (hor : ⟨i, c⟩ ∈ cs ∨ h.cell c = .closed (s.peek i)) :
      (cs.foldl (fun h oc => h.setCell oc.cell (.closed (s.peek oc.slot))) h).cell c =
        .closed (s.peek i) := by
    induction cs generalizing h with
    | nil => exact hor.resolve_left (List.not_mem_nil)
    | cons oc cs ih =>
      obtain ⟨hoc, hcs⟩ := List.forall_mem_cons.1 hcs
      have hcell := h.cell_setCell oc.cell c (.closed (s.peek oc.slot))
      refine ih _ (by simpa [Heap.setCell, modifyCells] using hlt) hcs ?_
      by_cases heq : oc.cell = c
      · rw [if_pos ⟨heq, heq ▸ hlt⟩] at hcell
        exact .inr (hoc heq ▸ hcell)
      · rw [if_neg fun h => heq h.1] at hcell
        refine hor.imp (fun hmem => ?_) hcell.trans
        exact (List.mem_cons.1 hmem).resolve_left fun h => heq (h ▸ rfl)
  have hopen := (hs.mem_iff c i).1 hc
  unfold closeCells
  rw [if_neg (by simpa using List.ne_nil_of_mem hc)]
  refine hfold _ h (h.lt_of_cell hopen) (fun oc hoc heq => ?_) (.inl ?_)
  · have hmem : oc ∈ s.openCells := by
      simp only [List.partition_eq_filter_filter] at hoc
      exact List.mem_of_mem_filter hoc
    exact (Cell.opened.inj (((hs.mem_iff oc.cell oc.slot).1 hmem).symm.trans (heq ▸ hopen))).2
  · simpa [List.partition_eq_filter_filter] using ⟨hc, hi⟩

/-- Slots do not depend on cells. -/
theorem Machine.slot?_withCells (m : Machine) (cells : Array Cell) (openCells : List OpenCell) (o : Owner)
    (i : Nat) : Machine.slot? { m with
      heap := { m.heap with cells := cells }
      running := { m.running with openCells := openCells } } o i = m.slot? o i := by
  unfold slot? strand?
  by_cases ho : m.running.owner = o
  · simp [ho]
  · simp only [ho, if_false]
    rfl

/-- Nothing is over a slot: a cell for it is added. -/
theorem findUpvalue_fresh {i : Nat} (h : ∀ oc ∈ m.running.openCells, oc.slot ≠ i) :
    ∃ m', findUpvalue i m = .ok ⟨m.heap.cells.size⟩ m' ∧
      m'.heap.cell ⟨m.heap.cells.size⟩ = .opened m.running.owner i := by
  have hfind : m.running.openCells.find? (·.slot = i) = none := by
    rw [List.find?_eq_none]
    exact fun oc hoc heq => h oc hoc (of_decide_eq_true heq)
  rw [findUpvalue, Action.bind_ok (Action.view_apply _ _)]
  simp only [hfind]
  exact ⟨_, rfl, (m.heap.cell_newCell _ _).trans (if_pos rfl)⟩

/-- Where nothing is listed from a slot on, there is nothing to close. -/
theorem Heap.closeCells_of_lt (h : Heap) {s : Strand} (hs : ∀ oc ∈ s.openCells, oc.slot < level) :
    h.closeCells s level = (h, s) := by
  have hnone : s.openCells.filter (fun oc => decide (level ≤ oc.slot)) = [] := by
    simpa [List.filter_eq_nil_iff] using hs
  have hall : s.openCells.filter (fun oc => !decide (level ≤ oc.slot)) = s.openCells := by
    simpa [List.filter_eq_self] using hs
  unfold closeCells
  split
  · rfl
  · simp only [List.partition_eq_filter_filter, hnone, Function.comp_def, hall, List.foldl_nil]

theorem Heap.size_closeCells (h : Heap) (s : Strand) (level : Nat) :
    (h.closeCells s level).1.cells.size = h.cells.size := by
  have hfold (cs : List OpenCell) (h : Heap) :
      (cs.foldl (fun h c => h.setCell c.cell (.closed (s.peek c.slot))) h).cells.size = h.cells.size := by
    induction cs generalizing h with
    | nil => rfl
    | cons c cs ih => rw [List.foldl_cons, ih, setCell, modifyCells, Array.size_setIfInBounds]
  unfold closeCells
  split
  · rfl
  · exact hfold _ h

/-- Below the slot the strand goes on listing what is open. -/
theorem Strand.Indexes.closed (hs : s.Indexes h) (level : Nat) :
    (h.closeCells s level).2.Indexes (h.closeCells s level).1 := by
  rw [h.openCells_closeCells]
  refine ⟨fun c i => ?_, (List.Sublist.map _ List.filter_sublist).nodup hs.distinct⟩
  rw [List.mem_filter, hs.mem_iff]
  constructor
  · rintro ⟨hc, hi⟩
    refine (h.cell_closeCells_of_ne s level fun oc hoc hle heq => ?_).trans hc
    have hslot := (Cell.opened.inj (((hs.mem_iff oc.cell oc.slot).1 hoc).symm.trans (heq ▸ hc))).2
    exact absurd hi (by simpa using hslot ▸ hle)
  · intro hc
    obtain ⟨hopen, hne⟩ := h.cell_closeCells s level hc
    have hi : ¬ level ≤ i := fun hle => hne _ ((hs.mem_iff c i).2 hopen) hle rfl
    exact ⟨hopen, by simpa using hi⟩

theorem closeUpvalues_closes (hm : m.running.Indexes m.heap) (level : Nat) :
    ∃ m', closeUpvalues level m = .ok () m' ∧ m.Closes level m' := by
  obtain ⟨cells, openCells, heq⟩ := m.heap.closeCells_eq m.running level
  have hheap : (m.heap.closeCells m.running level).1 = { m.heap with cells := cells } :=
    congrArg Prod.fst heq
  have hlisted : openCells = m.running.openCells.filter (·.slot < level) := by
    have h := m.heap.openCells_closeCells m.running level
    rw [heq] at h
    exact (congrArg Strand.openCells h).trans (List.filter_congr fun oc _ => Bool.eq_iff_iff.2 (by simp))
  have hbelow : ∀ oc ∈ openCells, oc.slot < level := fun oc hoc => by
    rw [hlisted, List.mem_filter] at hoc
    exact of_decide_eq_true hoc.2
  have hclosed (c : CellId) (i : Nat) (hc : m.heap.cell c = .opened m.running.owner i) (hi : level ≤ i) :
      Heap.cell { m.heap with cells := cells } c = .closed (m.cellValue c) := by
    rw [← hheap, Heap.cell_closeCells_of_mem hm ((hm.mem_iff c i).2 hc) hi, Machine.cellValue_of_opened hc,
      Machine.slot?_running]
    rfl
  have hothers (c : CellId) (hc : ∀ i, level ≤ i → m.heap.cell c ≠ .opened m.running.owner i) :
      Heap.cell { m.heap with cells := cells } c = m.heap.cell c := by
    rw [← hheap]
    refine m.heap.cell_closeCells_of_ne m.running level fun oc hoc hle heq => hc oc.slot hle ?_
    exact heq ▸ (hm.mem_iff oc.cell oc.slot).1 hoc
  refine ⟨{ m with
      heap := { m.heap with cells := cells }
      running := { m.running with openCells := openCells } }, ?_, ?_⟩
  · simp only [closeUpvalues, Action.modify_apply, Machine.modifyBoth, heq]
  have hslots := m.slot?_withCells cells openCells
  refine ⟨⟨hm, ?_⟩, hclosed, hothers, hlisted, rfl, hslots, fun c => ?_, fun level' hle => ?_, fun i hi => ?_⟩
  · simpa only [heq] using hm.closed level
  · by_cases hc : ∃ i, level ≤ i ∧ m.heap.cell c = .opened m.running.owner i
    · obtain ⟨i, hi, hc⟩ := hc
      simp only [Machine.cellValue, hclosed c i hc hi]
    · have hcell := hothers c fun i hi h => hc ⟨i, hi, h⟩
      cases hopen : m.heap.cell c with
      | closed v => simp only [Machine.cellValue, hcell, hopen]
      | opened o i =>
        rw [Machine.cellValue_of_opened (hcell.trans hopen), Machine.cellValue_of_opened hopen, hslots]
  · have hnothing := Heap.closeCells_of_lt (s := { m.running with openCells := openCells })
      { m.heap with cells := cells } fun oc hoc => (hbelow oc hoc).trans_le hle
    simp only [closeUpvalues, Action.modify_apply, Machine.modifyBoth, hnothing]
  · have hsize := m.heap.size_closeCells m.running level
    rw [hheap] at hsize
    obtain ⟨m'', hfind, hcell⟩ := findUpvalue_fresh (i := i) (m := { m with
      heap := { m.heap with cells := cells }
      running := { m.running with openCells := openCells } })
      fun oc hoc heq => absurd (hbelow oc hoc) (by omega)
    exact ⟨m'', hsize ▸ hfind, hsize ▸ hcell⟩

/-! Later -/

theorem Machine.Later.seals (h : m.Later m') : m.heap.Seals m'.heap := by
  induction h with
  | refl => exact .refl _
  | run _ hhost hhonest hosts alarm fuel job ih =>
    exact ih.trans (sealing_watched hosts hhost hhonest alarm fuel job _)
  | script _ hhost hhonest hosts alarm fuel hhonest' hx ih =>
    exact ih.trans (hx.sealing (sealing_watched hosts hhost hhonest alarm fuel) hhonest' _)

theorem Machine.setsApart_of_closed (hlt : c.index < m.heap.cells.size)
    (hc : (m.heap.cell c).isOpen = false) : m.SetsApart c := by
  obtain ⟨v, hv⟩ : ∃ v, m.heap.cell c = .closed v := by
    cases hcell : m.heap.cell c with
    | closed v => exact ⟨v, rfl⟩
    | opened o i => simp [hcell, Cell.isOpen] at hc
  have hne (o : Owner) (i : Nat) : m.heap.cell c ≠ .opened o i := by simp [hv]
  refine ⟨hc, fun i w m' hw => ?_, fun o i w => ?_, fun w => ⟨?_, fun o i => ?_⟩, fun d hd w => ⟨?_, ?_⟩⟩
  · unfold writeSlot at hw
    split at hw
    · obtain ⟨-, rfl⟩ := EStateM.Result.ok.inj hw
      simp only [cellValue, modifyRunning, hv]
    · cases hw
  · simp only [cellValue, cell_setStrandSlot, hv]
  · exact cellValue_setCellValue hlt (fun o i h => absurd h (hne o i)) w
  · exact slot?_setCellValue (hne o i) w
  · exact cellValue_setCellValue_of_ne hd (fun o i _ => hne o i) w
  · exact cellValue_setCellValue_of_ne (Ne.symm hd) (fun o i h => absurd h (hne o i)) w

/-- What is captured is open, and what was closed is not. -/
theorem Machine.capturesBeside_of_indexes (hm : m.running.Indexes m.heap) (hlt : c.index < m.heap.cells.size)
    (hc : (m.heap.cell c).isOpen = false) : m.CapturesBeside c := by
  intro w child cs f m' hmake
  cases hp : w.closure.proto.children[child]? with
  | none =>
    simp only [makeClosure, hp] at hmake
    cases hmake
  | some p =>
    simp only [makeClosure, hp] at hmake
    obtain ⟨cells, m₁, hcapture, hmake⟩ := Action.bind_eq_ok.1 hmake
    obtain ⟨-, -, -, ids, hids, hcaptures⟩ := capture_eq_ok w hm hcapture
    have hseals : m.heap.Seals m₁.heap := by
      have h := (Sequence.capture (R := ⟨fun _ => True, .code w.base, false, false⟩) rfl cs #[]).sealing m
      rwa [hcapture] at h
    obtain ⟨id, m₂, hnew, hmake⟩ := Action.bind_eq_ok.1 hmake
    obtain ⟨rfl, rfl⟩ := EStateM.Result.ok.inj hnew
    obtain ⟨rfl, rfl⟩ := EStateM.Result.ok.inj hmake
    refine ⟨_, rfl, fun k r hk => ?_⟩
    obtain ⟨hlength, hall⟩ := List.forall₂_iff_get.1 hcaptures
    obtain ⟨hlt', hget⟩ := List.getElem?_eq_some_iff.1 hk
    have hd := hall k hlt' (hlength ▸ hlt')
    simp only [List.get_eq_getElem, hget] at hd
    refine ⟨ids[k], ?_, fun heq => ?_, hd.1⟩
    · have hcells : cells[k]? = some ids[k] := by
        rw [← Array.getElem?_toList, hids]
        exact List.getElem?_eq_getElem _
      simpa [Heap.closure, Heap.modifyClosures] using hcells
    · have hsealed := hseals.cell c hlt hc
      rw [← heq, hd.1] at hsealed
      cases hsealed

/-- Closing the upvalues of the running strand from a slot on closes just the cells that are open over it from
there on, and takes just these from its list; no slot is changed and every cell keeps its value. From then on
the cells that are closed are variables of their own. In every later state writes to slots leave them alone,
as do assignments to other cells; what is assigned to them changes nothing else; and closures that are made
over the registers capture other cells. -/
theorem closeUpvalues_sets_apart (hU : IsCatalog U) (hm : m.Occurs ⟨U, .host, honest, strict⟩)
    (level : Nat) :
    ∃ m', closeUpvalues level m = .ok () m' ∧ m.Closes level m' ∧
      ∀ c, c.index < m'.heap.cells.size → (m'.heap.cell c).isOpen = false → ∀ m'', m'.Later m'' →
        m''.SetsApart c ∧ (m''.Occurs ⟨U, .host, honest, strict⟩ → m''.CapturesBeside c) := by
  have hindexes {m : Machine} (hm : m.Occurs ⟨U, .host, honest, strict⟩) : m.running.Indexes m.heap := by
    obtain ⟨ts, hsteady⟩ := hm.reachable.steady hU
    exact hsteady.indexes (hm.kempt hU) (.inl List.mem_cons_self)
  obtain ⟨m', hclose, hcloses⟩ := closeUpvalues_closes (hindexes hm) level
  refine ⟨m', hclose, hcloses, fun c hlt hc m'' hlater => ?_⟩
  have hlt'' := hlt.trans_le hlater.seals.size
  have hc'' := hlater.seals.cell c hlt hc
  exact ⟨Machine.setsApart_of_closed hlt'' hc'', fun hm'' =>
    Machine.capturesBeside_of_indexes (hindexes hm'') hlt'' hc''⟩

/-- The variable over which a function has made a closure is closed. -/
theorem closeUpvalues_sets_apart_lending :
    ∃ m', closeUpvalues 1 Machine.lending = .ok () m' ∧
      m'.heap.cell ⟨0⟩ = .closed (Machine.lending.cellValue ⟨0⟩) ∧ m'.SetsApart ⟨0⟩ := by
  obtain ⟨m', hclose, hcloses, hapart⟩ := closeUpvalues_sets_apart Prototype.lender_isProgram.isCatalog
    Machine.lending_occurs 1
  have howner : Machine.lending.running.owner = .main 0 := by decide +kernel
  have hclosed := hcloses.closed ⟨0⟩ 1 (howner ▸ Machine.cell_lending) le_rfl
  have hsize := (Sealing.closeUpvalues 1 Machine.lending).size
  rw [hclose] at hsize
  refine ⟨m', hclose, hclosed, (hapart ⟨0⟩ ?_ (by rw [hclosed]; rfl) m' (.refl m')).1⟩
  exact (Machine.lending.heap.lt_of_cell Machine.cell_lending).trans_le hsize

end LuaMachine
