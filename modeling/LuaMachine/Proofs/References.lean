import LuaMachine.Proofs.Erasure
import LuaMachine.Upvalue

/-!
What is kept on a heap: all that is held from outside, rings, and what these refer to. Compiling makes no
difference to that, nor to assignments to upvalues, which can fail where something is no longer kept.
-/

namespace LuaMachine

variable {h : Heap} {held items : List Item} {i j : Item}

namespace Heap

theorem keepFrom_of_lt (hlt : (h.keepReferred held items).length < items.length) :
    h.keepFrom held items = h.keepFrom held (h.keepReferred held items) := by
  rw [keepFrom]
  exact if_pos hlt

theorem keepFrom_of_not_lt (hle : ¬ (h.keepReferred held items).length < items.length) :
    h.keepFrom held items = items := by
  rw [keepFrom]
  exact if_neg hle

end Heap

/-! Erasing -/

@[simp]
theorem Strand.erase_references (s : Strand) : s.erase.references = s.references := by
  simp [references, List.flatMap_map]

namespace Heap

variable (h)

@[simp]
theorem erase_items : h.erase.items = h.items := by
  simp [items, erase]

theorem erase_references (i : Item) : h.erase.references i = h.references i := by
  cases i with
  | table t => rfl
  | closure c => simp [references, Closure.references, Closure.erase]
  | hostClosure c => rfl
  | cell c =>
    simp only [references, erase_cell]
    cases h.cell c with
    | closed v => rfl
    | opened o slot =>
      cases o with
      | main n => rfl
      | coroutine u =>
        simp only [cellReferences, erase_coroutine, Coroutine.erase]
        cases (h.coroutine u).strand <;> rfl
  | coroutine c =>
    simp only [references, erase_coroutine, Coroutine.erase]
    cases (h.coroutine c).strand <;> simp

theorem erase_kept (held : List Item) : h.erase.kept held = h.kept held := by
  have hround (items : List Item) : h.erase.keepReferred held items = h.keepReferred held items := by
    simp only [keepReferred, funext h.erase_references]
  rw [kept, kept, erase_items]
  generalize h.items = items
  induction items using keepFrom.induct h held with
  | case1 items kept hlt ih =>
    rw [keepFrom_of_lt hlt, keepFrom_of_lt (hround items ▸ hlt), hround]
    exact ih
  | case2 items kept hle => rw [keepFrom_of_not_lt hle, keepFrom_of_not_lt (hround items ▸ hle)]

end Heap

namespace Machine

variable (m : Machine) (c : CellId) (v : Value)

@[simp] theorem erase_held : m.erase.held = m.held := rfl

@[simp]
theorem erase_references : m.erase.references = m.references := by
  simp [references, List.flatMap_map]

@[simp]
theorem erase_isKept (i : Item) : m.erase.isKept i = m.isKept i := by
  simp only [isKept, erase_heap, erase_references, Heap.erase_kept]

theorem erase_abandons : m.erase.abandons c v = m.abandons c v := by
  have hany (o : Owner) : (m.erase.running :: m.erase.parked).any (·.owner = o) =
      (m.running :: m.parked).any (·.owner = o) := by
    rw [erase_running, erase_parked, ← List.map_cons, List.any_map]
    rfl
  simp only [abandons, erase_heap, Heap.erase_cell, erase_setCellValue, erase_isKept, hany]

end Machine

/-! Assigning -/

theorem assignUpvalue_cases (c : CellId) (v : Value) (m : Machine) :
    assignUpvalue c v m = .ok () (m.setCellValue c v) ∨ assignUpvalue c v m = .error .crash m := by
  unfold assignUpvalue
  split
  · exact .inr rfl
  · exact .inl rfl

theorem erase_assignUpvalue (c : CellId) (v : Value) (m : Machine) :
    assignUpvalue c v m.erase = Outcome.map id Machine.erase (assignUpvalue c v m) := by
  unfold assignUpvalue
  rw [m.erase_abandons, m.erase_setCellValue]
  split <;> rfl

end LuaMachine
