import LuaMachine.Proofs.LoweredCode

/-!
Which code can be lowered, and what lowering says of it. Code is well formed when the partition
into instructions and operand words goes through: each instruction is one, has its operand words
and names a function that exists, and no jump or skip leaves the code or leads to an operand word.
-/

namespace LuaMachine

/-- Where an instruction at `pc` may go other than to the next one. -/
def Instruction.branch? (i : Instruction) (op : Opcode) (pc : Nat) : Option Int :=
  match op with
  | .jmp | .forLoop | .forPrep => some (pc + 1 + i.sbx)
  | .loadBool => if i.c = 0 then none else some (pc + 2)
  | op => if op.isTest then some (pc + 2) else none

/-- The word at `pc` is an instruction with this opcode. -/
structure Prototype.HasOpcode (p : Prototype) (pc : Nat) (w : UInt32) (op : Opcode) : Prop where
  isInstruction : p.IsInstruction pc
  word : p.code[pc]? = some w
  opcode : (⟨w⟩ : Instruction).opcode? = some op

structure Prototype.WellFormed (p : Prototype) : Prop where
  code : 0 < p.code.size
  opcode {pc : Nat} {w : UInt32} (hi : p.IsInstruction pc) (hw : p.code[pc]? = some w) :
    ∃ op, p.HasOpcode pc w op
  operands {pc : Nat} {w : UInt32} {op : Opcode} (h : p.HasOpcode pc w op) :
    pc + 1 + p.operandCount w ≤ p.code.size
  child {pc : Nat} {w : UInt32} (h : p.HasOpcode pc w .closure) :
    (⟨w⟩ : Instruction).bx < p.children.length
  branch {pc : Nat} {w : UInt32} {op : Opcode} (h : p.HasOpcode pc w op) {t : Int}
    (ht : (⟨w⟩ : Instruction).branch? op pc = some t) :
    (0 ≤ t ∧ t < p.code.size) ∧ ¬ p.IsOperand t.toNat

/-- What the lowered form of a prototype says, word for word. -/
structure Lowered.Faithful (l : Lowered) (p : Prototype) : Prop where
  size : l.operations.size = p.code.size
  data (pc : Nat) : l.operations[pc]? = some .data ↔ p.IsOperand pc
  operation {pc : Nat} {w : UInt32} {op : Opcode} (h : p.HasOpcode pc w op) :
    l.operations[pc]? = some (p.operationAt pc w op)
  target {pc t : Nat} {op : Operation} (h : l.operations[pc]? = some op) (ht : t ∈ op.targets pc) :
    t < p.code.size ∧ l.operations[t]? ≠ some .data
  increasing : l.entries.Pairwise (· < ·)
  mem_entries (e : Nat) : e ∈ l.entries ↔
    e = 0 ∨ e < p.code.size ∧ ∃ pc w, e = pc + 1 ∧ p.HasOpcode pc w .call
  entry {e : Nat} (h : e ∈ l.entries) : e < p.code.size ∧ l.operations[e]? ≠ some .data
  labels_size : l.labels.size = p.code.size
  label (pc : Nat) : l.labels[pc]? = some true ↔
    pc ∈ l.entries ∨ ∃ (i : Nat) (op : Operation), l.operations[i]? = some op ∧ pc ∈ op.targets i
  isEntry (pc : Nat) : l.isEntry pc ↔ pc ∈ l.entries

namespace Lowering

open Prototype Verifier

variable {p : Prototype} {pc n : Nat} {w : UInt32} {op : Opcode} {ws : List UInt32} {s : Scan}

theorem edges_eq (p : Prototype) (pc : Nat) (i : Instruction) (op : Opcode) :
    edges p pc i op =
      match i.branch? op pc with
      | none => pure []
      | some t => edge p pc t := by
  cases op with
  | loadBool => by_cases hc : i.c = 0 <;> simp [edges, Instruction.branch?, hc]
  | _ => rfl

theorem exists_edges_iff {i : Instruction} : (∃ es, edges p pc i op = .ok es) ↔
    ∀ t, i.branch? op pc = some t → 0 ≤ t ∧ t < p.code.size := by
  rw [edges_eq]
  cases i.branch? op pc with
  | none => simp
  | some t => simp [edge_eq_ok]

/-- An instruction has its operand words when there are enough of them and the function that it
names exists. -/
theorem exists_operandWords_iff (hop : (⟨w⟩ : Instruction).opcode? = some op) :
    (∃ words, operandWords p pc ⟨w⟩ op ws = .ok words) ↔
      p.operandCount w ≤ ws.length ∧ (op = .closure → (⟨w⟩ : Instruction).bx < p.children.length) := by
  constructor
  · rintro ⟨words, h⟩
    exact (operandWords_eq_ok hop h).2
  · rintro ⟨hle, hchild⟩
    cases op with
    | setList =>
      simp only [operandWords]
      split_ifs with hc
      · cases ws with
        | nil => simp [operandCount, hop, hc] at hle
        | cons v ws => exact ⟨_, rfl⟩
      · exact ⟨_, rfl⟩
    | closure =>
      have hget := List.getElem?_eq_getElem (hchild rfl)
      simp only [operandCount, hop, hget, Option.map_some, Option.getD_some] at hle
      simp only [operandWords, hget, if_pos hle]
      exact ⟨_, rfl⟩
    | _ => exact ⟨[], rfl⟩

/-- Words can be scanned when each instruction among them can. -/
theorem exists_scan_of_instructions
    (h : ∀ i w, (p.markOperands n ws)[i]? = some false → ws[i]? = some w →
      ∃ op, (⟨w⟩ : Instruction).opcode? = some op ∧ (∃ es, edges p (pc + i) ⟨w⟩ op = .ok es) ∧
        ∃ words, operandWords p (pc + i) ⟨w⟩ op (ws.drop (i + 1)) = .ok words) :
    ∃ s, scan p pc n ws = .ok s := by
  induction ws generalizing pc n with
  | nil => exact ⟨{}, rfl⟩
  | cons w ws ih =>
    cases n with
    | succ n =>
      obtain ⟨s, hs⟩ : ∃ s, scan p (pc + 1) n ws = .ok s := ih fun i v hi hv => by
        rw [Nat.add_assoc, Nat.add_comm 1 i]
        exact h (i + 1) v hi hv
      exact ⟨_, bind_eq_ok.2 ⟨s, hs, rfl⟩⟩
    | zero =>
      obtain ⟨op, hop, ⟨es, hes⟩, words, hwords⟩ := h 0 w rfl rfl
      obtain ⟨rfl, hle, -⟩ := operandWords_eq_ok hop hwords
      obtain ⟨s, hs⟩ : ∃ s, scan p (pc + 1) (p.operandCount w) ws = .ok s := ih fun i v hi hv => by
        rw [Nat.add_assoc, Nat.add_comm 1 i]
        exact h (i + 1) v hi hv
      rw [← List.length_take_of_le hle] at hs
      simp only [scan, hop]
      exact ⟨_, bind_eq_ok.2 ⟨es, hes, bind_eq_ok.2 ⟨_, hwords, bind_eq_ok.2 ⟨s, hs, rfl⟩⟩⟩⟩

/-- The edges of a scan are those of its instructions. -/
theorem mem_edges_of_scan (h : scan p pc n ws = .ok s) {e : Edge} (he : e ∈ s.edges) :
    ∃ i w op es, (p.markOperands n ws)[i]? = some false ∧ ws[i]? = some w ∧
      (⟨w⟩ : Instruction).opcode? = some op ∧ edges p (pc + i) ⟨w⟩ op = .ok es ∧ e ∈ es := by
  induction ws generalizing pc n s with
  | nil =>
    obtain rfl : ({} : Scan) = s := by simpa [scan] using h
    cases he
  | cons w ws ih =>
    cases n with
    | succ n =>
      obtain ⟨s', hs, rfl⟩ := scan_cons_pending h
      obtain ⟨i, v, op, es, hi, hv, hop, hes, hmem⟩ := ih hs he
      rw [Nat.add_assoc, Nat.add_comm 1 i] at hes
      exact ⟨i + 1, v, op, es, hi, hv, hop, hes, hmem⟩
    | zero =>
      obtain ⟨s', op, es, a⟩ := scan_cons_instruction h
      rw [a.eq, List.mem_append] at he
      obtain he | he := he
      · exact ⟨0, w, op, es, rfl, rfl, a.opcode, a.edges, he⟩
      · obtain ⟨i, v, op, es, hi, hv, hop, hes, hmem⟩ := ih a.rest he
        rw [Nat.add_assoc, Nat.add_comm 1 i] at hes
        exact ⟨i + 1, v, op, es, hi, hv, hop, hes, hmem⟩

/-- Labels put at some places. -/
theorem getElem?_labels (places : List Nat) (labels : Array Bool) (i : Nat) :
    (places.foldl (fun ls pc => ls.setIfInBounds pc true) labels)[i]? = some true ↔
      labels[i]? = some true ∨ i ∈ places ∧ i < labels.size := by
  induction places generalizing labels with
  | nil => simp
  | cons pc places ih =>
    rw [List.foldl_cons, ih, Array.size_setIfInBounds, Array.getElem?_setIfInBounds, List.mem_cons]
    grind

theorem size_labels (places : List Nat) (labels : Array Bool) :
    (places.foldl (fun ls pc => ls.setIfInBounds pc true) labels).size = labels.size := by
  induction places generalizing labels with
  | nil => rfl
  | cons pc places ih => rw [List.foldl_cons, ih, Array.size_setIfInBounds]

end Lowering

namespace Prototype

open Lowering Verifier Operation

variable {p : Prototype} {l : Lowered} {pc : Nat} {w : UInt32} {op : Opcode}

/-- Code is lowered when its words can be scanned and no edge leads to an operand word. -/
theorem lower_eq_ok : p.lower = .ok l ↔ 0 < p.code.size ∧ ∃ s, Lowering.scan p 0 0 p.code.toList = .ok s ∧
    (∀ e ∈ s.edges, s.operations[e.target]? ≠ some .data) ∧
    l = {
      operations := s.operations.toArray
      labels := (s.edges.map (·.target) ++ 0 :: s.entries).foldl
        (fun ls pc => ls.setIfInBounds pc true) (Array.replicate p.code.size false)
      entries := 0 :: s.entries } := by
  have hcheck (e : Edge) (ops : List Operation) :
      (if ops.toArray[e.target]? = some .data then
        (throw (.malformed e.source (.operandTarget e.target)) : Except CompileError Unit)
      else pure ()) = .ok () ↔ ops[e.target]? ≠ some .data := by
    rw [List.getElem?_toArray]
    split
    · next h => exact iff_of_false throw_ne_ok (not_not_intro h)
    · next h => exact iff_of_true rfl h
  rw [lower]
  split
  next hempty =>
    rw [Array.isEmpty_iff_size_eq_zero] at hempty
    simp only [check_eq_ok, throw_ne_ok, false_and, hempty, Nat.lt_irrefl]
  next hempty =>
    rw [Array.isEmpty_iff_size_eq_zero] at hempty
    have hcode : 0 < p.code.size := Nat.pos_of_ne_zero hempty
    rw [bind_eq_ok]
    simp only [hcode, true_and, check_eq_ok, forM_eq_ok, hcheck, pure_eq_ok]
    exact exists_congr fun s => and_congr_right fun _ => and_congr_right fun _ => eq_comm

/-- An instruction of scanned code has edges and operand words, and stands among the operations. -/
theorem HasOpcode.scanned {s : Lowering.Scan} (h : p.HasOpcode pc w op)
    (hs : Lowering.scan p 0 0 p.code.toList = .ok s) :
    ∃ es, edges p pc ⟨w⟩ op = .ok es ∧ es ⊆ s.edges ∧
      s.operations[pc]? = some (p.operationAt pc w op) := by
  have hw : p.code.toList[pc]? = some w := (Array.getElem?_toList ..).trans h.word
  obtain ⟨op', es, hop, hes, hsub, -, -, hoper⟩ := operation_of_scan hs h.isInstruction hw
  obtain rfl : op = op' := Option.some.inj (h.opcode.symm.trans hop)
  rw [Nat.zero_add] at hes hoper
  exact ⟨es, hes, hsub, hoper⟩

theorem LowersTo.hasOpcode (h : p.LowersTo l) (hi : p.IsInstruction pc) (hw : p.code[pc]? = some w) :
    ∃ op, p.HasOpcode pc w op :=
  (h.instruction hi hw).imp fun _ hop => ⟨hi, hw, hop.1⟩

/-- What lowering establishes of an instruction. -/
theorem LowersTo.lowered (h : p.LowersTo l) (hat : p.HasOpcode pc w op) :
    pc + 1 + p.operandCount w ≤ p.code.size ∧
      (op = .closure → (⟨w⟩ : Instruction).bx < p.children.length) ∧
      l.operations[pc]? = some (p.operationAt pc w op) ∧
      ∀ t ∈ (p.operationAt pc w op).targets pc, p.IsInstruction t := by
  obtain ⟨op', hop, hrest⟩ := h.instruction hat.isInstruction hat.word
  obtain rfl : op = op' := Option.some.inj (hat.opcode.symm.trans hop)
  exact hrest

theorem LowersTo.data_iff (h : p.LowersTo l) (pc : Nat) :
    l.operations[pc]? = some .data ↔ p.IsOperand pc := by
  refine ⟨fun hdata => ?_, h.data⟩
  have hlt : pc < p.code.size := h.size ▸ (Array.getElem?_eq_some_iff.1 hdata).1
  refine (isInstruction_or_isOperand hlt).resolve_left fun hi => ?_
  obtain ⟨w, hw⟩ := hi.exists_word
  obtain ⟨op, hat⟩ := h.hasOpcode hi hw
  have hoper := (h.lowered hat).2.2.1
  rw [hdata] at hoper
  exact ofInstruction_ne_data _ _ _ _ _ (Option.some.inj hoper).symm

theorem LowersTo.not_data (h : p.LowersTo l) (hi : p.IsInstruction pc) :
    pc < p.code.size ∧ l.operations[pc]? ≠ some .data :=
  ⟨hi.lt, fun hdata => hi.not_isOperand ((h.data_iff pc).1 hdata)⟩

/-- An operation that jumps or skips belongs to an instruction. -/
theorem LowersTo.exists_opcode (h : p.LowersTo l) {oper : Operation} {t : Nat}
    (hoper : l.operations[pc]? = some oper) (ht : t ∈ oper.targets pc) :
    ∃ w op, p.HasOpcode pc w op ∧ oper = p.operationAt pc w op := by
  have hlt : pc < p.code.size := h.size ▸ (Array.getElem?_eq_some_iff.1 hoper).1
  obtain hi | ho := isInstruction_or_isOperand hlt
  · obtain ⟨w, hw⟩ := hi.exists_word
    obtain ⟨op, hat⟩ := h.hasOpcode hi hw
    exact ⟨w, op, hat, Option.some.inj (hoper.symm.trans (h.lowered hat).2.2.1)⟩
  · obtain rfl := Option.some.inj (hoper.symm.trans (h.data ho))
    simp [targets, isTest] at ht

/-- The edges of the scan lead where the operations may jump or skip to. -/
theorem LowersTo.mem_targets (h : p.LowersTo l) {s : Lowering.Scan}
    (hs : Lowering.scan p 0 0 p.code.toList = .ok s) (t : Nat) : t ∈ s.edges.map (·.target) ↔
      ∃ (i : Nat) (op : Operation), l.operations[i]? = some op ∧ t ∈ op.targets i := by
  constructor
  · intro ht
    obtain ⟨e, he, rfl⟩ := List.mem_map.1 ht
    obtain ⟨i, w, op, es, hi, hw, hop, hes, he⟩ := mem_edges_of_scan hs he
    have hat : p.HasOpcode i w op := ⟨hi, (Array.getElem?_toList ..).symm.trans hw, hop⟩
    rw [Nat.zero_add] at hes
    refine ⟨i, _, (h.lowered hat).2.2.1, ?_⟩
    rw [operationAt, ← (targets_of_edges hes _ _).1]
    exact List.mem_map_of_mem he
  · rintro ⟨i, oper, hoper, ht⟩
    obtain ⟨w, op, hat, rfl⟩ := h.exists_opcode hoper ht
    obtain ⟨es, hes, hsub, -⟩ := hat.scanned hs
    rw [operationAt, ← (targets_of_edges hes _ _).1] at ht
    exact List.map_subset _ hsub ht

theorem LowersTo.mem_entries (h : p.LowersTo l) (e : Nat) : e ∈ l.entries ↔
    e = 0 ∨ e < p.code.size ∧ ∃ pc w, e = pc + 1 ∧ p.HasOpcode pc w .call := by
  rw [← Lowered.isEntry_iff_mem h.increasing, h.isEntry]
  constructor
  · rintro ⟨hlt, rfl | ⟨pc, w, op, rfl, hi, hw, hop, rfl⟩⟩
    · exact .inl rfl
    · exact .inr ⟨hlt, pc, w, rfl, hi, hw, hop⟩
  · rintro (rfl | ⟨hlt, pc, w, rfl, hat⟩)
    · exact ⟨h.code, .inl rfl⟩
    · exact ⟨hlt, .inr ⟨pc, w, .call, rfl, hat.isInstruction, hat.word, hat.opcode, rfl⟩⟩

theorem LowersTo.isInstruction_entry (h : p.LowersTo l) {e : Nat} (he : e ∈ l.entries) :
    p.IsInstruction e := by
  obtain rfl | ⟨hlt, pc, w, rfl, hat⟩ := (h.mem_entries e).1 he
  · exact isInstruction_zero h.code
  · have hcount : p.operandCount w = 0 := by simp [operandCount, hat.opcode]
    have hnext := hat.isInstruction.next hat.word
    rw [hcount] at hnext
    exact hnext hlt

/-- Lowering fails on code that is not well formed. -/
theorem wellFormed_of_lower (h : p.lower = .ok l) : p.WellFormed := by
  have hl := lowersTo_of_lower h
  obtain ⟨hcode, s, hs, hedges, -⟩ := lower_eq_ok.1 h
  refine ⟨hcode, fun hi hw => hl.hasOpcode hi hw, fun hat => (hl.lowered hat).1,
    fun hat => (hl.lowered hat).2.1 rfl, fun hat t ht => ?_⟩
  obtain ⟨es, hes, hsub, -⟩ := hat.scanned hs
  have hrange := exists_edges_iff.1 ⟨es, hes⟩ t ht
  rw [edges_eq, ht, show edge p _ t = .ok es ↔ _ from edge_eq_ok] at hes
  obtain ⟨-, rfl⟩ := hes
  exact ⟨hrange, fun ho => hedges _ (hsub (List.mem_singleton_self _)) (data_of_scan hs ho)⟩

/-- Lowering succeeds on well-formed code. -/
theorem WellFormed.exists_lower (h : p.WellFormed) : ∃ l, p.lower = .ok l := by
  obtain ⟨s, hs⟩ : ∃ s, Lowering.scan p 0 0 p.code.toList = .ok s := by
    refine exists_scan_of_instructions fun i w hi hw => ?_
    obtain ⟨op, hat⟩ := h.opcode hi ((Array.getElem?_toList ..).symm.trans hw)
    have hle := h.operands hat
    refine ⟨op, hat.opcode, exists_edges_iff.2 fun t ht => ?_, (exists_operandWords_iff hat.opcode).2
      ⟨?_, ?_⟩⟩
    · rw [Nat.zero_add] at ht
      exact (h.branch hat ht).1
    · rw [List.length_drop, Array.length_toList]
      omega
    · rintro rfl
      exact h.child hat
  refine ⟨_, lower_eq_ok.2 ⟨h.code, s, hs, fun e he hdata => ?_, rfl⟩⟩
  obtain ⟨i, w, op, es, hi, hw, hop, hes, he⟩ := mem_edges_of_scan hs he
  have hat : p.HasOpcode i w op := ⟨hi, (Array.getElem?_toList ..).symm.trans hw, hop⟩
  rw [edges_eq, Nat.zero_add] at hes
  cases ht : (⟨w⟩ : Instruction).branch? op i with
  | none =>
    rw [ht, show (pure [] : Except CompileError (List Edge)) = .ok es ↔ _ from pure_eq_ok] at hes
    subst hes
    cases he
  | some t =>
    rw [ht, show edge p i t = .ok es ↔ _ from edge_eq_ok] at hes
    obtain ⟨hrange, rfl⟩ := hes
    obtain rfl := List.mem_singleton.1 he
    -- the target is no operand word, so an instruction stands there
    have htarget : p.IsInstruction t.toNat :=
      (isInstruction_or_isOperand (by omega)).resolve_right (h.branch hat ht).2
    obtain ⟨v, hv⟩ := htarget.exists_word
    obtain ⟨op', hat'⟩ := h.opcode htarget hv
    obtain ⟨-, -, -, hoper⟩ := hat'.scanned hs
    rw [hoper] at hdata
    exact ofInstruction_ne_data _ _ _ _ _ (Option.some.inj hdata)

theorem faithful_of_lower (h : p.lower = .ok l) : l.Faithful p := by
  have hl := lowersTo_of_lower h
  obtain ⟨hcode, s, hs, -, heq⟩ := lower_eq_ok.1 h
  refine {
    size := hl.size
    data := hl.data_iff
    operation := fun hat => (hl.lowered hat).2.2.1
    target := fun {pc t oper} hoper ht => ?_
    increasing := hl.increasing
    mem_entries := hl.mem_entries
    entry := fun he => hl.not_data (hl.isInstruction_entry he)
    labels_size := ?_
    label := fun pc => ?_
    isEntry := Lowered.isEntry_iff_mem hl.increasing }
  · obtain ⟨w, op, hat, rfl⟩ := hl.exists_opcode hoper ht
    exact hl.not_data ((hl.lowered hat).2.2.2 t ht)
  · rw [heq, size_labels, Array.size_replicate]
  · have hlt : pc ∈ s.edges.map (·.target) ++ 0 :: s.entries → pc < p.code.size := by
      intro hpc
      obtain hpc | hpc := List.mem_append.1 hpc
      · obtain ⟨i, oper, hoper, hpc⟩ := (hl.mem_targets hs pc).1 hpc
        obtain ⟨w, op, hat, rfl⟩ := hl.exists_opcode hoper hpc
        exact ((hl.lowered hat).2.2.2 pc hpc).lt
      · exact (hl.isInstruction_entry (show pc ∈ l.entries by rwa [heq])).lt
    have hnone : (Array.replicate p.code.size false)[pc]? ≠ some true := by
      rw [Array.getElem?_replicate]
      split_ifs <;> simp
    have hentries : pc ∈ l.entries ↔ pc ∈ 0 :: s.entries := by rw [heq]
    rw [← hl.mem_targets hs, hentries, show l.labels = _ from congrArg Lowered.labels heq, getElem?_labels,
      Array.size_replicate, or_iff_right hnone, and_iff_left_of_imp hlt, List.mem_append, or_comm]

/-- Lowering accepts the well-formed code and no other, and says word for word what is in it. -/
theorem lower_exact (p : Prototype) :
    match p.lower with
    | .ok l => p.WellFormed ∧ l.Faithful p
    | .error _ => ¬ p.WellFormed := by
  cases h : p.lower with
  | ok l => exact ⟨wellFormed_of_lower h, faithful_of_lower h⟩
  | error e =>
    intro hwell
    obtain ⟨l, hl⟩ := hwell.exists_lower
    rw [h] at hl
    cases hl

end Prototype

end LuaMachine
