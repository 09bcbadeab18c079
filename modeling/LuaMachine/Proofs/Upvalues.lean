import LuaMachine.Proofs.History

/-!
Open upvalues are in order in every state that can occur: at most one cell is open over a slot, it is listed
by the strand to which the slot belongs, wherever that is, and the slot is a register of a function that has
not ended. An assignment fails just where it takes from a coroutine what keeps it.
-/

namespace LuaMachine

/-- The strands of a machine: the one that runs, those that wait for it, and those that coroutines keep. -/
def Machine.Holds (m : Machine) (s : Strand) : Prop :=
  s ∈ m.running :: m.parked ∨ ∃ c, (m.heap.coroutine c).strand = some s

/-- A strand lists just the cells that are open over it, one for each slot. -/
structure Strand.Indexes (h : Heap) (s : Strand) : Prop where
  mem_iff : ∀ id i, ⟨i, id⟩ ∈ s.openCells ↔ h.cell id = .opened s.owner i
  distinct : (s.openCells.map (·.slot)).Nodup

/-- What is captured: the one cell that is open over a register, or an upvalue of the function itself. -/
def Window.Captures (w : Window) (m m' : Machine) : Capture → CellId → Prop
  | .register r, id => m'.heap.cell id = .opened m.running.owner (w.base + r) ∧
      ∀ id', m.heap.cell id' = .opened m.running.owner (w.base + r) → id' = id
  | .upvalue i, id => w.closure.upvalues[i]? = some id

variable {S : Regime} {ts : List CoroutineId} {m m' : Machine} {s s' : Strand} {c d : CellId}
  {o : Owner} {i : Nat} {v : Value} {honest bounded : Bool}

/-- Two cells over one slot are one. -/
theorem Strand.Indexes.eq_of_cell {h : Heap} (hs : s.Indexes h) (hc : h.cell c = .opened s.owner i)
    (hd : h.cell d = .opened s.owner i) : c = d := by
  have heq := List.inj_on_of_nodup_map hs.distinct ((hs.mem_iff c i).2 hc) ((hs.mem_iff d i).2 hd) rfl
  exact congrArg OpenCell.cell heq

namespace Machine

theorem Kempt.of_holds (hk : m.Kempt honest bounded) (hs : m.Holds s) : s.Kempt honest bounded m.heap := by
  rcases hs with hs | ⟨u, hs⟩
  · rcases List.mem_cons.1 hs with rfl | hs
    · exact hk.running
    · exact hk.parked s hs
  · exact hk.stored u s hs

namespace Steady

theorem tidy_of_holds (hm : m.Steady S ts) (hs : m.Holds s) : s.Tidy m.heap := by
  rcases hs with hs | ⟨u, hs⟩
  · exact hm.tidy s hs
  · have hu : u ∉ ts := fun hu => by simp [hm.strand_of_mem hu] at hs
    exact (hm.stored u s hu hs).1

theorem indexes (hm : m.Steady S ts) (hk : m.Kempt honest bounded) (hs : m.Holds s) : s.Indexes m.heap where
  mem_iff c i := ⟨(hk.of_holds hs).listed ⟨i, c⟩, (hm.tidy_of_holds hs).cells c i⟩
  distinct := (hk.of_holds hs).distinct

/-- A strand is found where it is, as no other one has its owner. -/
theorem strand?_of_holds (hm : m.Steady S ts) (hs : m.Holds s) : m.strand? s.owner = some s := by
  rw [strand?_eq_or]
  rcases hs with hs | ⟨u, hs⟩
  · have hfound : ((m.running :: m.parked).find? (·.owner = s.owner)).isSome := by
      rw [List.find?_isSome]
      exact ⟨s, hs, decide_eq_true rfl⟩
    obtain ⟨s', hs'⟩ := Option.isSome_iff_exists.1 hfound
    have howner : s'.owner = s.owner := by simpa using List.find?_some hs'
    rw [hs', Option.some_or,
      List.inj_on_of_nodup_map hm.owners_nodup (List.mem_of_find?_eq_some hs') hs howner]
  · have hu : u ∉ ts := fun hu => by simp [hm.strand_of_mem hu] at hs
    have howner := hm.owner_stored hu hs
    have hnone : (m.running :: m.parked).find? (·.owner = s.owner) = none := by
      rw [List.find?_eq_none]
      exact fun s' hs' heq => hu (hm.owner_mem hs' ((of_decide_eq_true heq).trans howner))
    rw [hnone, Option.none_or, howner]
    exact hs

/-- A slot over which a cell is open belongs to one of the strands. -/
theorem exists_holds (hm : m.Steady S ts) (hk : m.Kempt honest bounded)
    (hc : m.heap.cell c = .opened o i) : ∃ s, m.Holds s ∧ s.owner = o := by
  have hwaits (ho : o ∈ (m.running :: m.parked).map (·.owner)) : ∃ s, m.Holds s ∧ s.owner = o := by
    obtain ⟨s, hs, howner⟩ := List.mem_map.1 ho
    exact ⟨s, .inl hs, howner⟩
  cases o with
  | main n => exact hwaits (hk.main c n i hc)
  | coroutine u =>
    by_cases hu : u ∈ ts
    · obtain ⟨n, hn⟩ := hm.strands
      refine hwaits ?_
      rw [hn]
      exact List.mem_append_left _ (List.mem_map_of_mem hu)
    · obtain ⟨s, hs, howner, -⟩ := hm.others u (hm.owned c u i hc) hu
      exact ⟨s, .inr ⟨u, hs⟩, howner⟩

theorem eq_of_cell (hm : m.Steady S ts) (hk : m.Kempt honest bounded)
    (hc : m.heap.cell c = .opened o i) (hd : m.heap.cell d = .opened o i) : c = d := by
  obtain ⟨s, hs, rfl⟩ := hm.exists_holds hk hc
  exact (hm.indexes hk hs).eq_of_cell hc hd

end Steady

end Machine

/-! Capturing -/

/-- The cell over a slot is found, or made if there is none. -/
theorem findUpvalue_eq_ok {slot : Nat} (hm : m.running.Indexes m.heap)
    (h : findUpvalue slot m = .ok c m') :
    m'.running.Indexes m'.heap ∧ m'.running.owner = m.running.owner ∧
      m'.heap.cell c = .opened m.running.owner slot ∧
      ∀ d o i, m.heap.cell d = .opened o i → m'.heap.cell d = .opened o i := by
  rw [findUpvalue, Action.bind_ok (Action.view_apply _ _)] at h
  cases hfind : m.running.openCells.find? (·.slot = slot) with
  | some oc =>
    simp only [hfind] at h
    obtain ⟨rfl, rfl⟩ := EStateM.Result.ok.inj h
    have hslot : oc.slot = slot := by simpa using List.find?_some hfind
    exact ⟨hm, rfl, hslot ▸ (hm.mem_iff oc.cell oc.slot).1 (List.mem_of_find?_eq_some hfind),
      fun _ _ _ => id⟩
  | none =>
    simp only [hfind, Action.bind_ok (Action.view_apply _ _), Action.bind_ok (Action.onHeap_apply _ _),
      Action.bind_ok (Action.modify_apply _ _)] at h
    obtain ⟨rfl, rfl⟩ := EStateM.Result.ok.inj h
    have hcell (d : CellId) := m.heap.cell_newCell d (.opened m.running.owner slot)
    have hkeeps (d : CellId) (o : Owner) (i : Nat) (hd : m.heap.cell d = .opened o i) :
        (m.heap.newCell (.opened m.running.owner slot)).2.cell d = .opened o i := by
      rw [hcell, if_neg (m.heap.lt_of_cell hd).ne, hd]
    refine ⟨⟨fun d i => ?_, ?_⟩, rfl, (hcell _).trans (if_pos rfl), hkeeps⟩
    · change ⟨i, d⟩ ∈ ⟨slot, ⟨m.heap.cells.size⟩⟩ :: m.running.openCells ↔
        (m.heap.newCell (.opened m.running.owner slot)).2.cell d = .opened m.running.owner i
      rw [List.mem_cons, hm.mem_iff, OpenCell.mk.injEq]
      constructor
      · rintro (⟨rfl, rfl⟩ | hd)
        · exact (hcell _).trans (if_pos rfl)
        · exact hkeeps d _ i hd
      · intro hd
        rw [hcell] at hd
        split at hd
        · next hnew => exact .inl ⟨(Cell.opened.inj hd).2.symm, congrArg CellId.mk hnew⟩
        · exact .inr hd
    · refine List.nodup_cons.2 ⟨fun hslot => ?_, hm.distinct⟩
      obtain ⟨oc, hoc, heq⟩ := List.mem_map.1 hslot
      exact List.find?_eq_none.1 hfind oc hoc (decide_eq_true heq)

/-- What a closure captures, one cell for each capture. -/
theorem capture_eq_ok (w : Window) {cs : List Capture} {cells cells' : Array CellId}
    (hm : m.running.Indexes m.heap) (h : w.capture cs cells m = .ok cells' m') :
    m'.running.Indexes m'.heap ∧ m'.running.owner = m.running.owner ∧
      (∀ d o i, m.heap.cell d = .opened o i → m'.heap.cell d = .opened o i) ∧
      ∃ ids, cells'.toList = cells.toList ++ ids ∧ List.Forall₂ (w.Captures m m') cs ids := by
  induction cs generalizing m cells with
  | nil =>
    obtain ⟨rfl, rfl⟩ := EStateM.Result.ok.inj h
    exact ⟨hm, rfl, fun _ _ _ => id, [], (List.append_nil _).symm, .nil⟩
  | cons k cs ih =>
    cases k with
    | register r =>
      obtain ⟨c, m₁, hfind, h⟩ := Action.bind_eq_ok.1 h
      obtain ⟨hm₁, howner₁, hc, hkeeps₁⟩ := findUpvalue_eq_ok hm hfind
      obtain ⟨hm', howner', hkeeps, ids, hids, hcaptures⟩ := ih hm₁ h
      refine ⟨hm', howner'.trans howner₁, fun d o i hd => hkeeps d o i (hkeeps₁ d o i hd), c :: ids,
        by rw [hids]; simp, .cons ⟨hkeeps c _ _ hc, fun d hd => ?_⟩ ?_⟩
      · exact hm₁.eq_of_cell (howner₁ ▸ hkeeps₁ d _ _ hd) (howner₁ ▸ hc)
      · refine hcaptures.imp fun k d hk => ?_
        cases k with
        | register r => exact ⟨howner₁ ▸ hk.1, fun d' hd' => hk.2 d' (howner₁ ▸ hkeeps₁ d' _ _ hd')⟩
        | upvalue j => exact hk
    | upvalue j =>
      obtain ⟨c, m₁, hupvalue, hrest⟩ := Action.bind_eq_ok.1 h
      unfold Window.upvalue at hupvalue
      cases hc : w.closure.upvalues[j]? with
      | none =>
        simp only [hc] at hupvalue
        cases hupvalue
      | some c' =>
        simp only [hc] at hupvalue
        obtain ⟨rfl, rfl⟩ := EStateM.Result.ok.inj hupvalue
        obtain ⟨hm', howner', hkeeps, ids, hids, hcaptures⟩ := ih hm hrest
        exact ⟨hm', howner', hkeeps, c' :: ids, by rw [hids]; simp, .cons hc hcaptures⟩

/-- Returns its upvalue. -/
def Prototype.reader : Prototype :=
  { Prototype.empty "=reader" with
    id := 1
    upvalueCount := 1
    code := #[(Instruction.abc .getUpval 0 0 0).word, (Instruction.abc .ret 0 2 0).word] }

/-- Returns a function that reads the first register. -/
def Prototype.lender : Prototype :=
  { Prototype.empty "=lender" with
    children := [.reader]
    code := #[(Instruction.abc .loadBool 0 1 0).word, (Instruction.abx .closure 1 0).word,
      (Instruction.abc .move 0 0 0).word, (Instruction.abc .ret 1 2 0).word] }

namespace Prototype

theorem contains_of_child {p q r : Prototype} (hp : p.children = [q]) (hq : q.children = [])
    (h : p.Contains r) : r = p ∨ r = q := by
  obtain ⟨path, hpath⟩ := h
  cases path with
  | nil =>
    rw [descend?] at hpath
    exact .inl (Option.some.inj hpath).symm
  | cons i path =>
    rw [descend?, hp] at hpath
    obtain ⟨c, hc, hrest⟩ := Option.bind_eq_some_iff.1 hpath
    obtain rfl := List.mem_singleton.1 (List.mem_of_getElem? hc)
    exact .inr (eq_of_contains hq ⟨path, hrest⟩)

theorem coherent_of_child {p q : Prototype} (hp : p.children = [q]) (hq : q.children = [])
    (hid : p.id ≠ q.id) : p.Coherent := by
  intro r s hr hs heq
  rcases contains_of_child hp hq hr with rfl | rfl <;> rcases contains_of_child hp hq hs with rfl | rfl
  · rfl
  · exact absurd heq hid
  · exact absurd heq.symm hid
  · rfl

theorem lender_verified : lender.Verified := rfl

theorem lender_isProgram : IsProgram lender.Contains :=
  lender_verified.isProgram (coherent_of_child rfl rfl (by decide))

end Prototype

theorem Script.loadAndCall {R : Conduct} {p : Prototype} (hp : R.program p) (hhost : R.seat = .host)
    (args : List Value) : Script R (loadAndCall p args) :=
  .bind (.sequence (.loadPrototype hp)) fun f _ => .call f args hhost

/-- Whether a cell is open over a slot. -/
def Cell.isOver (o : Owner) (i : Nat) : Cell → Bool
  | opened o' i' => decide (o' = o ∧ i' = i)
  | closed _ => false

theorem Cell.eq_of_isOver {o : Owner} {i : Nat} {c : Cell} (h : c.isOver o i = true) :
    c = .opened o i := by
  cases c with
  | opened o' i' =>
    obtain ⟨rfl, rfl⟩ := of_decide_eq_true h
    rfl
  | closed v => cases h

/-- The function is stopped once it has made the closure. -/
def Errand.lend : Errand ⟨Prototype.lender.Contains, .host, true, true⟩ where
  script := loadAndCall .lender []
  isScript := .loadAndCall Prototype.lender.contains_self rfl []
  embedding := fun _ _ => pure 0
  hosts := fun _ => .pure 0
  fuel := 4

namespace Machine

theorem Blank.withMode {m : Machine} (h : m.Blank) (mode : CompileMode) : (m.withMode mode).Blank :=
  ⟨h.toFresh.withMode mode, h.current, h.owner, h.cells⟩

/-- A machine on which an upvalue is open over the first register of the running function. -/
def lending : Machine := (Errand.lend.outcome (bare.withMode .off)).state

theorem lending_occurs : lending.Occurs ⟨Prototype.lender.Contains, .host, true, true⟩ :=
  ⟨_, .lend, fun _ => False, .blank (bare_blank.withMode .off) rfl, by rw [Errand.upTo_never, lending]⟩

theorem cell_lending : lending.heap.cell ⟨0⟩ = .opened (.main 0) 1 :=
  Cell.eq_of_isOver (by decide +kernel)

end Machine

/-! A coroutine that is kept by one of its own registers -/

/-- Assigns to its upvalue. -/
def Prototype.setter : Prototype :=
  { Prototype.empty "=setter" with
    id := 1
    paramCount := 1
    upvalueCount := 1
    code := #[(Instruction.abc .setUpval 0 0 0).word, (Instruction.abc .ret 0 1 0).word] }

/-- Makes a function that assigns to its first argument, and calls the second one. -/
def Prototype.tether : Prototype :=
  { Prototype.empty "=tether" with
    paramCount := 2
    maxStack := 3
    children := [.setter]
    code := #[(Instruction.abx .closure 2 0).word, (Instruction.abc .move 0 0 0).word,
      (Instruction.abc .call 1 1 1).word, (Instruction.abc .ret 0 1 0).word] }

/-- The function gets its own coroutine and a host function that yields. -/
def tetherApart (run : Run) : Action (Bool × List Value) := do
  let c ← spawn .tether
  resume run c [.thread c, .function (.host (.embedded "pause"))]

def Errand.tether : Errand ⟨Prototype.tether.Contains, .host, true, true⟩ where
  script := tetherApart
  isScript := .bind (.sequence (.spawn Prototype.tether.contains_self fun _ => rfl)) fun c _ => .resume c _
  embedding := pauseHost
  hosts := fun _ => .yieldValues _ rfl
  fuel := 9

namespace Machine

end Machine

end LuaMachine
