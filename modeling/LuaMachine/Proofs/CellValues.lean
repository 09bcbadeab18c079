import LuaMachine.Proofs.Confinement

/-!
Where upvalues are read and written. An open one stands for a slot of the stack of its owner, wherever
that stack is, and for nothing else.
-/

namespace LuaMachine

variable {m : Machine} {o o' : Owner} {i i' : Nat} {v : Value} {c d : CellId} {s : Strand}

/-- A strand with another value in a slot. -/
def Strand.withSlot (s : Strand) (i : Nat) (v : Value) : Strand :=
  s.modifyStack (·.setIfInBounds i v)

/-- A coroutine that has no strand has none after a change of its strand. -/
theorem Heap.strand_modifyCoroutine (h : Heap) (c d : CoroutineId) (f : Strand → Strand) :
    ((h.modifyCoroutine c fun ⟨status, strand⟩ => ⟨status, strand.map f⟩).coroutine d).strand =
      (h.coroutine d).strand.map fun s => if d = c then f s else s := by
  rw [coroutine_modifyCoroutine]
  by_cases hcd : c = d
  · subst hcd
    by_cases hlt : c.index < h.coroutines.size
    · simp [hlt]
    · have hnone : (h.coroutine c).strand = none := by
        rw [Heap.coroutine, Array.getElem?_eq_none (Nat.le_of_not_lt hlt)]
        rfl
      simp [hlt, hnone]
  · simp [hcd, Ne.symm hcd]

namespace Machine

/-- The strand of an owner is the one that runs or waits, or else the one its coroutine keeps. -/
theorem strand?_eq_or (m : Machine) (o : Owner) :
    m.strand? o = ((m.running :: m.parked).find? (·.owner = o)).or
      (match o with
      | .coroutine c => (m.heap.coroutine c).strand
      | .main _ => none) := by
  unfold strand?
  by_cases ho : m.running.owner = o
  · simp [ho]
  · cases hfind : m.parked.find? (·.owner = o) <;> cases o <;> simp [ho, hfind]

/-- A slot of a strand that waits is written where that strand is. -/
theorem find?_withSlot (strands : List Strand) (o o' : Owner) (i : Nat) (v : Value) :
    (strands.map fun s => if s.owner = o then s.withSlot i v else s).find? (·.owner = o') =
      (strands.find? (·.owner = o')).map fun s => if o' = o then s.withSlot i v else s := by
  have howner (s : Strand) : (if s.owner = o then s.withSlot i v else s).owner = s.owner := by
    split <;> rfl
  simp only [List.find?_map, Function.comp_def, howner]
  cases hs : strands.find? (·.owner = o') with
  | none => rfl
  | some s =>
    obtain rfl : s.owner = o' := by simpa using List.find?_some hs
    rfl

/-- Writing a slot of the strand of an owner leaves all other strands alone. -/
theorem strand?_setStrandSlot (m : Machine) (o o' : Owner) (i : Nat) (v : Value) :
    (m.setStrandSlot o i v).strand? o' =
      (m.strand? o').map fun s => if o' = o then s.withSlot i v else s := by
  have hid (ho : o' ≠ o) : (fun s : Strand => if o' = o then s.withSlot i v else s) = id :=
    funext fun s => if_neg ho
  unfold setStrandSlot strand?
  by_cases hrunning : m.running.owner = o
  · rw [if_pos hrunning]
    by_cases ho : o' = o
    · subst ho
      simp [modifyRunning, Strand.modifyStack, hrunning, Strand.withSlot]
    · have hne : ¬ m.running.owner = o' := fun h => ho (h.symm.trans hrunning)
      simp only [modifyRunning, Strand.modifyStack, hne, if_false, hid ho, Option.map_id_fun, id]
  · rw [if_neg hrunning]
    by_cases hparked : m.parked.any (·.owner = o) = true
    · rw [if_pos hparked]
      have hfind := find?_withSlot m.parked o o' i v
      simp only [Strand.withSlot] at hfind
      by_cases ho' : m.running.owner = o'
      · have ho : o' ≠ o := fun h => hrunning (ho'.trans h)
        simp [ho', ho]
      · simp only [ho', if_false, hfind]
        cases hs : m.parked.find? (·.owner = o') with
        | some s => simp [Strand.withSlot]
        | none =>
          have ho : o' ≠ o := by
            rintro rfl
            obtain ⟨s, hmem, hso⟩ := List.any_eq_true.1 hparked
            exact absurd hso (List.find?_eq_none.1 hs s hmem)
          cases o' <;> simp [hid ho]
    · rw [if_neg hparked]
      have hnone : m.parked.find? (·.owner = o) = none := by
        rw [List.find?_eq_none]
        exact fun s hs hso => hparked (List.any_eq_true.2 ⟨s, hs, hso⟩)
      by_cases ho : o' = o
      · subst ho
        cases o' with
        | main n => simp [hrunning, hnone]
        | coroutine u => simp [modifyHeap, hrunning, hnone, Heap.strand_modifyCoroutine, Strand.withSlot]
      · cases o with
        | main n => simp [hid ho]
        | coroutine u =>
          cases o' with
          | main n =>
            simp only [modifyHeap, ho, if_false, Option.map_id_fun', id]
            rfl
          | coroutine u' =>
            have hne : u' ≠ u := fun h => ho (h ▸ rfl)
            simp [modifyHeap, ho, hne, Heap.strand_modifyCoroutine]

/-- A slot that is written has the value, if it is there, and all other slots are as they were. -/
theorem slot?_setStrandSlot (m : Machine) (o o' : Owner) (i i' : Nat) (v : Value) :
    (m.setStrandSlot o i v).slot? o' i' =
      if o' = o ∧ i' = i then (m.slot? o' i').map fun _ => v else m.slot? o' i' := by
  unfold slot?
  rw [strand?_setStrandSlot]
  cases m.strand? o' with
  | none => simp
  | some s =>
    by_cases ho : o' = o
    · simp only [ho, Option.map_some, Option.bind_some, if_true, true_and, Strand.withSlot,
        Strand.modifyStack, Array.getElem?_setIfInBounds]
      by_cases hi : i' = i
      · subst hi
        by_cases hlt : i' < s.stack.size <;> simp [hlt]
      · simp [hi, Ne.symm hi]
    · simp [ho]

theorem openCells_setCellValue (m : Machine) (c : CellId) (v : Value) :
    (m.setCellValue c v).running.openCells = m.running.openCells := by
  unfold setCellValue setStrandSlot
  split
  · rfl
  · split_ifs
    · rfl
    · rfl
    · split <;> rfl

/-- An open upvalue has the value of the slot it stands for. -/
theorem cellValue_of_opened (hc : m.heap.cell c = .opened o i) :
    m.cellValue c = (m.slot? o i).getD .nil := by
  simp only [cellValue, hc, slot?]
  cases m.strand? o with
  | none => rfl
  | some s => rfl

theorem cell_setStrandSlot (m : Machine) (o : Owner) (i : Nat) (v : Value) (d : CellId) :
    (m.setStrandSlot o i v).heap.cell d = m.heap.cell d := by
  unfold setStrandSlot
  split_ifs
  · rfl
  · rfl
  · split <;> rfl

/-- Giving a value to an upvalue changes no slot but the one it stands for. -/
theorem slot?_setCellValue (hc : m.heap.cell c ≠ .opened o i) (v : Value) :
    (m.setCellValue c v).slot? o i = m.slot? o i := by
  unfold setCellValue
  cases hcell : m.heap.cell c with
  | closed w => rfl
  | opened o' i' =>
    dsimp only
    rw [slot?_setStrandSlot, if_neg]
    rintro ⟨rfl, rfl⟩
    exact hc hcell

/-- An upvalue has the value that was given to it, if there is such an upvalue, and the slot for which
it stands, if it is open. -/
theorem cellValue_setCellValue (hlt : c.index < m.heap.cells.size)
    (hopen : ∀ o i, m.heap.cell c = .opened o i → (m.slot? o i).isSome) (v : Value) :
    (m.setCellValue c v).cellValue c = v := by
  cases hc : m.heap.cell c with
  | closed w =>
    have hcell : (m.setCellValue c v).heap.cell c = .closed v := by
      simp only [setCellValue, hc]
      change (m.heap.setCell c (.closed v)).cell c = _
      rw [Heap.cell_setCell, if_pos ⟨rfl, hlt⟩]
    simp only [cellValue, hcell]
  | opened o i =>
    have hset : m.setCellValue c v = m.setStrandSlot o i v := by simp only [setCellValue, hc]
    obtain ⟨w, hw⟩ := Option.isSome_iff_exists.1 (hopen o i hc)
    rw [hset, cellValue_of_opened ((m.cell_setStrandSlot o i v c).trans hc), slot?_setStrandSlot,
      if_pos ⟨rfl, rfl⟩, hw]
    rfl

/-- An upvalue that stands for another slot keeps its value. -/
theorem cellValue_setCellValue_of_ne (hcd : c ≠ d)
    (hopen : ∀ o i, m.heap.cell c = .opened o i → m.heap.cell d ≠ .opened o i) (v : Value) :
    (m.setCellValue c v).cellValue d = m.cellValue d := by
  have hcell : (m.setCellValue c v).heap.cell d = m.heap.cell d := by
    unfold setCellValue
    split
    · change (m.heap.setCell c (.closed v)).cell d = _
      rw [Heap.cell_setCell, if_neg fun h => hcd h.1]
    · exact m.cell_setStrandSlot _ _ v d
  cases hd : m.heap.cell d with
  | closed w => simp only [cellValue, hcell, hd]
  | opened o i =>
    rw [cellValue_of_opened (hcell.trans hd), cellValue_of_opened hd,
      slot?_setCellValue fun hc => hopen o i hc hd]

end Machine

end LuaMachine
