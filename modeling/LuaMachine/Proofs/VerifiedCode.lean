import LuaMachine.Proofs.OperandWords

/-!
What checking a prototype says about the operations of its code. The registers, constants, upvalues
and nested prototypes an operation names by fixed operands are listed; in checked code all of them
exist, and jumps and skips lead to instructions.
-/

namespace LuaMachine

namespace Operation

/-- The constant an RK operand names. -/
def rkConstants (x : Nat) : List Nat :=
  if Instruction.isConstant x then [Instruction.constantIndex x] else []

/-- The register an RK operand names. -/
def rkRegisters (x : Nat) : List Nat := if Instruction.isConstant x then [] else [x]

/-- The registers that an operation reads or writes and names by fixed operands. That does not include A
of `close`, a level with which slots are compared, nor A of `ret` where B is 0 or 1: the results are then
those up to the free slot, which may be none, or there is none. -/
def registers : Operation → List Nat
  | move a b | unm a b | not a b | len a b | testSet a b _ => [a, b]
  | loadK a _ | loadBool a _ _ | getUpval a _ | getGlobal a _ | setGlobal a _ | setUpval a _
  | newTable a _ _ | test a _ => [a]
  | loadNil a b => List.range' a (b + 1 - a)
  | getTable a b c => a :: b :: rkRegisters c
  | setTable a b c | arith _ a b c => a :: (rkRegisters b ++ rkRegisters c)
  | self a b c => a :: (a + 1) :: b :: rkRegisters c
  | concat a b c => a :: List.range' b (c + 1 - b)
  | eq _ b c | lt _ b c | le _ b c => rkRegisters b ++ rkRegisters c
  | call a b c => a :: (List.range' a b ++ List.range' a (c - 1))
  | tailCall a b => a :: List.range' a b
  | ret a b => List.range' a (b - 1)
  | forLoop a _ | forPrep a _ => List.range' a 4
  | tForLoop a c => List.range' a (3 + c)
  | setList a b _ => a :: (if 0 < b then List.range' a (b + 1) else [])
  | closure a _ cs => a :: cs.filterMap fun
    | .register r => some r
    | .upvalue _ => none
  | vararg a b => a :: List.range' a (b - 1)
  | jmp _ | close _ | data => []

/-- The slots, counted like registers, to which an iterator is copied when it is called. -/
def scratch : Operation → List Nat
  | tForLoop a _ => List.range' (a + 3) 3
  | _ => []

/-- The constants an operation names. -/
def constants : Operation → List Nat
  | loadK _ k | getGlobal _ k | setGlobal _ k => [k]
  | getTable _ _ c | self _ _ c => rkConstants c
  | setTable _ b c | arith _ _ b c | eq _ b c | lt _ b c | le _ b c =>
    rkConstants b ++ rkConstants c
  | _ => []

/-- The upvalues of the running function an operation names. -/
def upvalues : Operation → List Nat
  | getUpval _ i | setUpval _ i => [i]
  | closure _ _ cs => cs.filterMap fun
    | .register _ => none
    | .upvalue i => some i
  | _ => []

/-- The nested prototypes an operation names. -/
def children : Operation → List Nat
  | closure _ i _ => [i]
  | _ => []

/-- Whether an operation enters or leaves functions. -/
def isControl : Operation → Bool
  | call .. | tailCall .. | ret .. => true
  | _ => false

/-- Where an operation at `pc` may go by a jump or a skip. -/
def targets (pc : Nat) : Operation → List Nat
  | jmp t | forLoop _ t | forPrep _ t => [t]
  | loadBool _ _ true => [pc + 2]
  | op => if op.isTest then [pc + 2] else []

/-- What an operation names by fixed operands exists in a prototype. -/
structure Fits (p : Prototype) (op : Operation) : Prop where
  registers : ∀ r ∈ op.registers, r < p.maxStack.toNat
  scratch : ∀ r ∈ op.scratch, r < p.maxStack.toNat + 6
  constants : ∀ k ∈ op.constants, k < p.constants.size
  upvalues : ∀ i ∈ op.upvalues, i < p.upvalueCount.toNat
  children : ∀ i ∈ op.children, i < p.children.length

theorem jumpTarget_eq {pc : Nat} {offset : Int} (h : 0 ≤ (pc : Int) + 1 + offset) :
    jumpTarget pc offset = ((pc : Int) + 1 + offset).toNat := by
  unfold jumpTarget
  cases hc : (pc : Int) + 1 + offset with
  | ofNat t => rfl
  | negSucc n => omega

theorem ofInstruction_ne_data (i : Instruction) (op : Opcode) (pc batch : Nat)
    (captures : List Capture) : ofInstruction i op pc batch captures ≠ data := by
  cases op <;> simp [ofInstruction]

end Operation

namespace Verifier

variable {p : Prototype}

theorem bind_eq_ok {ε α β : Type} {x : Except ε α} {f : α → Except ε β} {b : β} :
    (x >>= f) = .ok b ↔ ∃ a, x = .ok a ∧ f a = .ok b := by
  cases x <;> simp [bind, Except.bind]

@[simp]
theorem pure_eq_ok {ε α : Type} {a b : α} : (pure a : Except ε α) = .ok b ↔ a = b := by
  simp [pure, Except.pure]

@[simp]
theorem rk_eq_ok {x : Nat} : rk p x = .ok () ↔
    (∀ k ∈ Operation.rkConstants x, k < p.constants.size) ∧
      ∀ r ∈ Operation.rkRegisters x, r < p.maxStack.toNat := by
  unfold rk Operation.rkConstants Operation.rkRegisters
  split <;> simp [constant, register]

theorem forM_eq_ok {ε α : Type} {f : α → Except ε Unit} {xs : List α} :
    xs.forM f = .ok () ↔ ∀ x ∈ xs, f x = .ok () := by
  rw [List.forM_eq_forM]
  induction xs with
  | nil => simp
  | cons x xs ih =>
    rw [List.forM_cons, bind_eq_ok, List.forall_mem_cons, ih]
    exact ⟨fun ⟨_, hx, hs⟩ => ⟨hx, hs⟩, fun ⟨hx, hs⟩ => ⟨_, hx, hs⟩⟩

theorem check_eq_ok {ε α : Type} {x : Except ε Unit} {f : Unit → Except ε α} {b : α} :
    (x >>= f) = .ok b ↔ x = .ok () ∧ f () = .ok b := by
  rw [bind_eq_ok]
  exact ⟨fun ⟨_, hx, hf⟩ => ⟨hx, hf⟩, fun ⟨hx, hf⟩ => ⟨_, hx, hf⟩⟩

/-- A capture word that was checked names a register or an upvalue that exists. -/
theorem capture_eq_ok {w : UInt32} (h : capture p w = .ok ()) :
    (∀ r, Capture.ofWord w = .register r → r < p.maxStack.toNat) ∧
      ∀ i, Capture.ofWord w = .upvalue i → i < p.upvalueCount.toNat := by
  unfold capture at h
  unfold Capture.ofWord
  dsimp only at h ⊢
  split at h
  · next hop => simpa [hop, register] using h
  · next hop => simpa [hop, upvalue] using h
  · simp [throw, throwThe, MonadExceptOf.throw] at h

theorem capture_ret {w : UInt32} (hop : (⟨w⟩ : Instruction).opcode? = some .ret) :
    capture p w ≠ .ok () := by
  simp [capture, hop, throw, throwThe, MonadExceptOf.throw]

theorem throw_ne_ok {ε α : Type} {e : ε} {b : α} : (throw e : Except ε α) ≠ .ok b := by
  simp [throw, throwThe, MonadExceptOf.throw]

theorem target_bind_eq_ok {t : Int} {α : Type} {f : Nat → Except Complaint α} {b : α} :
    (target p t >>= f) = .ok b ↔ (0 ≤ t ∧ t < p.code.size) ∧ f t.toNat = .ok b := by
  simp [bind_eq_ok, and_assoc]

section

variable {pc : Nat} {w : UInt32} {rest : List UInt32} {foot : Footprint} {op : Opcode}

/-- A `CLOSURE` that was checked names a child, and a capture for each of its upvalues follows. -/
theorem child_of_instruction (hop : (⟨w⟩ : Instruction).opcode? = some .closure)
    (h : instruction p pc ⟨w⟩ rest = .ok foot) :
    (⟨w⟩ : Instruction).a < p.maxStack.toNat ∧ ∃ child, p.children[(⟨w⟩ : Instruction).bx]? = some child ∧
      foot.operands = child.upvalueCount.toNat ∧ child.upvalueCount.toNat ≤ rest.length ∧
      ∀ v ∈ rest.take foot.operands, capture p v = .ok () := by
  simp only [instruction, hop, check_eq_ok, register, require_eq_ok, decide_eq_true_eq] at h
  obtain ⟨ha, h⟩ := h
  cases hchild : p.children[(⟨w⟩ : Instruction).bx]? with
  | none => simp [hchild, throw_ne_ok] at h
  | some child =>
    simp only [hchild, check_eq_ok, require_eq_ok, decide_eq_true_eq, forM_eq_ok, pure_eq_ok] at h
    obtain ⟨hle, hcaptures, rfl⟩ := h
    exact ⟨ha, child, rfl, rfl, hle, hcaptures⟩

theorem operands_of_instruction (hop : (⟨w⟩ : Instruction).opcode? = some op)
    (h : instruction p pc ⟨w⟩ rest = .ok foot) :
    foot.operands = p.operandCount w ∧ foot.operands ≤ rest.length := by
  cases op with
  | setList =>
    have hcount : p.operandCount w = if (⟨w⟩ : Instruction).c = 0 then 1 else 0 := by
      simp [Prototype.operandCount, hop]
    simp only [instruction, hop, check_eq_ok, registers] at h
    grind [check_eq_ok, pure_eq_ok, throw_ne_ok]
  | closure =>
    obtain ⟨-, child, hchild, hcount, hle, -⟩ := child_of_instruction hop h
    rw [hcount]
    exact ⟨by simp [Prototype.operandCount, hop, hchild], hle⟩
  | _ =>
    have hcount : p.operandCount w = 0 := by simp [Prototype.operandCount, hop]
    simp only [instruction, hop, check_eq_ok, target_bind_eq_ok] at h
    grind [check_eq_ok, target_bind_eq_ok, pure_eq_ok]

open Operation in
theorem targets_of_instruction (hop : (⟨w⟩ : Instruction).opcode? = some op)
    (h : instruction p pc ⟨w⟩ rest = .ok foot) (batch : Nat) (captures : List Capture) :
    foot.targets = (ofInstruction ⟨w⟩ op pc batch captures).targets pc ∧
      ∀ t ∈ foot.targets, t < p.code.size := by
  cases op with
  | jmp | forLoop | forPrep =>
    simp only [instruction, hop, check_eq_ok, target_bind_eq_ok, pure_eq_ok] at h
    simp only [ofInstruction, targets]
    grind [jumpTarget_eq]
  | setList | closure =>
    simp only [instruction, hop, check_eq_ok] at h
    simp only [ofInstruction, targets, isTest]
    grind [check_eq_ok, pure_eq_ok, throw_ne_ok]
  | loadBool =>
    simp only [instruction, hop, check_eq_ok] at h
    by_cases hc : (⟨w⟩ : Instruction).c = 0
    · have hskip : ((⟨w⟩ : Instruction).c != 0) = false := by simp [hc]
      simp only [ofInstruction, hskip, targets, isTest]
      grind [pure_eq_ok]
    · have hskip : ((⟨w⟩ : Instruction).c != 0) = true := by simp [hc]
      simp only [ofInstruction, hskip, targets]
      grind [target_bind_eq_ok, pure_eq_ok]
  | _ =>
    simp only [instruction, hop, check_eq_ok, target_bind_eq_ok, pure_eq_ok] at h
    simp only [ofInstruction, targets, isTest]
    grind [check_eq_ok, pure_eq_ok]

open Operation in
/-- What an instruction that was checked names exists. -/
theorem fits_of_instruction (hop : (⟨w⟩ : Instruction).opcode? = some op)
    (h : instruction p pc ⟨w⟩ rest = .ok foot) (batch : Nat) :
    (ofInstruction ⟨w⟩ op pc batch ((rest.take foot.operands).map Capture.ofWord)).Fits p := by
  cases op with
  | closure =>
    obtain ⟨ha, child, hchild, -, -, hcaptures⟩ := child_of_instruction hop h
    have hlt := (List.getElem?_eq_some_iff.1 hchild).1
    constructor <;>
      simp only [ofInstruction, Operation.registers, scratch, Operation.constants, upvalues,
        children, List.mem_cons, List.mem_filterMap, List.mem_map]
    · rintro r (rfl | ⟨_, ⟨v, hv, rfl⟩, hr⟩)
      · exact ha
      · refine (capture_eq_ok (hcaptures v hv)).1 r ?_
        cases hw : Capture.ofWord v <;> simp_all
    · simp
    · simp
    · rintro i ⟨_, ⟨v, hv, rfl⟩, hi⟩
      refine (capture_eq_ok (hcaptures v hv)).2 i ?_
      cases hw : Capture.ofWord v <;> simp_all
    · simpa using hlt
  | setList =>
    simp only [instruction, hop, check_eq_ok, register, registers, require_eq_ok,
      decide_eq_true_eq] at h
    constructor <;>
      simp only [ofInstruction, Operation.registers, scratch, Operation.constants, upvalues,
        children]
    · grind [check_eq_ok, require_eq_ok]
    all_goals simp
  | _ =>
    simp only [instruction, hop, check_eq_ok, target_bind_eq_ok, register, registers, constant,
      upvalue, require_eq_ok, decide_eq_true_eq, rk_eq_ok] at h
    constructor <;>
      simp only [ofInstruction, Operation.registers, scratch, Operation.constants, upvalues,
        children] <;>
      grind [check_eq_ok, require_eq_ok]

end

/-! The scan goes through all instructions of the code -/

theorem scan_cons_pending {pc n : Nat} {w : UInt32} {ws : List UInt32} {s : Scan}
    (h : scan p pc (n + 1) (w :: ws) = .ok s) :
    ∃ s', scan p (pc + 1) n ws = .ok s' ∧ s = ⟨s'.targets, true :: s'.operands⟩ := by
  simp only [scan, bind_eq_ok, pure_eq_ok] at h
  obtain ⟨s', hs, rfl⟩ := h
  exact ⟨s', hs, rfl⟩

theorem scan_cons_instruction {pc : Nat} {w : UInt32} {ws : List UInt32} {s : Scan}
    (h : scan p pc 0 (w :: ws) = .ok s) :
    ∃ foot s', instruction p pc ⟨w⟩ ws = .ok foot ∧ scan p (pc + 1) foot.operands ws = .ok s' ∧
      s = ⟨foot.targets ++ s'.targets, false :: s'.operands⟩ := by
  simp only [scan, bind_eq_ok, pure_eq_ok] at h
  obtain ⟨foot, hfoot, s', hs, rfl⟩ := h
  refine ⟨foot, s', ?_, hs, rfl⟩
  cases hi : instruction p pc ⟨w⟩ ws with
  | ok foot' => simpa [hi, Defect.at] using hfoot
  | error e => simp [hi, Defect.at] at hfoot

theorem exists_opcode_of_instruction {pc : Nat} {i : Instruction} {rest : List UInt32}
    {foot : Footprint} (h : instruction p pc i rest = .ok foot) : ∃ op, i.opcode? = some op := by
  cases hop : i.opcode? with
  | some op => exact ⟨op, rfl⟩
  | none => simp [instruction, hop, throw_ne_ok] at h

theorem operands_of_scan {pc n : Nat} {ws : List UInt32} {s : Scan}
    (h : scan p pc n ws = .ok s) : s.operands = p.markOperands n ws := by
  induction ws generalizing pc n s with
  | nil =>
    obtain rfl : (⟨[], []⟩ : Scan) = s := by simpa [scan] using h
    rfl
  | cons w ws ih =>
    cases n with
    | succ n =>
      obtain ⟨s', hs, rfl⟩ := scan_cons_pending h
      simp [Prototype.markOperands, ih hs]
    | zero =>
      obtain ⟨foot, s', hfoot, hs, rfl⟩ := scan_cons_instruction h
      obtain ⟨op, hop⟩ := exists_opcode_of_instruction hfoot
      simp [Prototype.markOperands, ih hs, (operands_of_instruction hop hfoot).1]

/-- Every instruction has been checked, and its targets are among those of the scan. -/
theorem instruction_of_scan {pc n : Nat} {ws : List UInt32} {s : Scan}
    (h : scan p pc n ws = .ok s) {i : Nat} {w : UInt32}
    (hi : (p.markOperands n ws)[i]? = some false) (hw : ws[i]? = some w) :
    ∃ foot, instruction p (pc + i) ⟨w⟩ (ws.drop (i + 1)) = .ok foot ∧
      ∀ t ∈ foot.targets, t ∈ s.targets := by
  induction ws generalizing pc n s i with
  | nil => simp at hw
  | cons v ws ih =>
    cases n with
    | succ n =>
      obtain ⟨s', hs, rfl⟩ := scan_cons_pending h
      cases i with
      | zero => simp [Prototype.markOperands] at hi
      | succ i =>
        obtain ⟨foot, hfoot, ht⟩ := ih hs hi hw
        refine ⟨foot, ?_, ht⟩
        rwa [Nat.add_right_comm, Nat.add_assoc] at hfoot
    | zero =>
      obtain ⟨foot, s', hfoot, hs, rfl⟩ := scan_cons_instruction h
      cases i with
      | zero =>
        obtain rfl : v = w := by simpa using hw
        exact ⟨foot, hfoot, fun t ht => List.mem_append_left _ ht⟩
      | succ i =>
        obtain ⟨op, hop⟩ := exists_opcode_of_instruction hfoot
        have hi' : (p.markOperands foot.operands ws)[i]? = some false := by
          rw [(operands_of_instruction hop hfoot).1]
          exact hi
        obtain ⟨foot', hfoot', ht⟩ := ih hs hi' hw
        refine ⟨foot', ?_, fun t h => List.mem_append_right _ (ht t h)⟩
        rwa [Nat.add_right_comm, Nat.add_assoc] at hfoot'

end Verifier

namespace Prototype

open Verifier

/-- What checking a prototype without its children establishes. -/
structure Checked (p : Prototype) : Prop where
  code : 0 < p.code.size
  params : p.paramCount.toNat + (if p.needsArg then 1 else 0) ≤ p.maxStack.toNat
  ret : ((p.instruction? (p.code.size - 1)).bind Instruction.opcode?) = some .ret
  instruction {pc : Nat} {w : UInt32} (hi : p.IsInstruction pc) (hw : p.code[pc]? = some w) :
    ∃ foot, Verifier.instruction p pc ⟨w⟩ (p.code.toList.drop (pc + 1)) = .ok foot ∧
      ∀ t ∈ foot.targets, ¬ p.IsOperand t

/-- Every prototype of the tree passes the check. -/
def Verified (p : Prototype) : Prop := verify p = .ok ()

variable {p : Prototype}

theorem at_eq_ok {pc : Nat} {α : Type} {x : Except Verifier.Complaint α} {a : α} :
    Defect.at p pc x = .ok a ↔ x = .ok a := by
  cases x <;> simp [Defect.at]

theorem checked_of_function (h : function p = .ok ()) : p.Checked := by
  rw [function, check_eq_ok, bind_eq_ok] at h
  obtain ⟨hshape, s, hs, htargets⟩ := h
  simp only [shape, check_eq_ok, at_eq_ok, require_eq_ok, decide_eq_true_eq] at hshape
  obtain ⟨⟨hcode, -, hparams⟩, hret⟩ := hshape
  refine ⟨Nat.pos_of_ne_zero hcode, hparams, hret, fun {pc w} hi hw => ?_⟩
  obtain ⟨foot, hfoot, hmem⟩ := instruction_of_scan hs hi (w := w) (by simpa using hw)
  rw [Nat.zero_add] at hfoot
  refine ⟨foot, hfoot, fun t ht hop => ?_⟩
  have ht := forM_eq_ok.1 htargets t (hmem t ht)
  rw [at_eq_ok, require_eq_ok, operands_of_scan hs] at ht
  rw [IsOperand] at hop
  simp [hop] at ht

theorem verifyAll_eq_ok {ps : List Prototype} :
    verifyAll ps = .ok () ↔ ∀ q ∈ ps, q.Verified := by
  induction ps with
  | nil => simp [verifyAll]
  | cons q ps ih =>
    rw [verifyAll, bind_eq_ok, List.forall_mem_cons, ih]
    exact ⟨fun ⟨_, hq, hs⟩ => ⟨hq, hs⟩, fun ⟨hq, hs⟩ => ⟨_, hq, hs⟩⟩

theorem verified_iff : p.Verified ↔ function p = .ok () ∧ ∀ q ∈ p.children, q.Verified := by
  rw [← verifyAll_eq_ok]
  cases p
  rw [Verified, verify, bind_eq_ok]
  exact ⟨fun ⟨_, hp, hs⟩ => ⟨hp, hs⟩, fun ⟨hp, hs⟩ => ⟨_, hp, hs⟩⟩

theorem Verified.checked (h : p.Verified) : p.Checked := checked_of_function (verified_iff.1 h).1

theorem Verified.child (h : p.Verified) {q : Prototype} (hq : q ∈ p.children) : q.Verified :=
  (verified_iff.1 h).2 q hq

/-- The operands that a checked instruction takes are there. -/
theorem Checked.operandCount_le (h : p.Checked) {pc : Nat} {w : UInt32} (hi : p.IsInstruction pc)
    (hw : p.code[pc]? = some w) : pc + 1 + p.operandCount w ≤ p.code.size := by
  obtain ⟨foot, hfoot, -⟩ := h.instruction hi hw
  obtain ⟨op, hop⟩ := exists_opcode_of_instruction hfoot
  obtain ⟨heq, hle⟩ := operands_of_instruction hop hfoot
  have hlt := hi.lt
  rw [heq, List.length_drop, Array.length_toList] at hle
  omega

/-- Only a `RETURN` or an operand word ends checked code. -/
theorem Checked.lt_of_opcode (h : p.Checked) {pc : Nat} {w : UInt32} {op : Opcode}
    (hw : p.code[pc]? = some w) (hop : (⟨w⟩ : Instruction).opcode? = some op) (hne : op ≠ .ret) :
    pc + 1 < p.code.size := by
  have hlt := (Array.getElem?_eq_some_iff.1 hw).1
  by_contra hge
  obtain rfl : pc = p.code.size - 1 := by omega
  have hret := h.ret
  simp only [instruction?, hw, Option.map_some, Option.bind_some, hop, Option.some.injEq] at hret
  exact hne hret

/-- The last word of the code is the batch word of a `SETLIST`. -/
def EndsInBatch (p : Prototype) : Prop :=
  ∃ pc w, p.IsInstruction pc ∧ p.code[pc]? = some w ∧ pc + 2 = p.code.size ∧
    (⟨w⟩ : Instruction).opcode? = some .setList ∧ (⟨w⟩ : Instruction).c = 0

/-- Nothing follows a `RETURN`, or a `SETLIST` with a batch word, but no other instruction of checked
code. -/
theorem Checked.batch_of_last (h : p.Checked) {pc : Nat} {w : UInt32} {op : Opcode}
    (hi : p.IsInstruction pc) (hw : p.code[pc]? = some w)
    (hop : (⟨w⟩ : Instruction).opcode? = some op) (hne : op ≠ .ret)
    (heq : pc + 1 + p.operandCount w = p.code.size) :
    op = .setList ∧ (⟨w⟩ : Instruction).c = 0 ∧ pc + 2 = p.code.size := by
  have hlt := h.lt_of_opcode hw hop hne
  cases op with
  | setList =>
    have hcount : p.operandCount w = if (⟨w⟩ : Instruction).c = 0 then 1 else 0 := by
      simp [operandCount, hop]
    split_ifs at hcount with hc
    · exact ⟨rfl, hc, by omega⟩
    · omega
  | closure =>
    -- the last word would be a capture, but it is a `RETURN`
    obtain ⟨foot, hfoot, -⟩ := h.instruction hi hw
    have hcount := (operands_of_instruction hop hfoot).1
    have hlast : p.code.size - 1 < p.code.size := by omega
    have hmem : p.code[p.code.size - 1] ∈ (p.code.toList.drop (pc + 1)).take foot.operands := by
      refine List.mem_take_iff_getElem.2 ⟨p.code.size - 1 - (pc + 1), ?_, ?_⟩
      · rw [List.length_drop, Array.length_toList, hcount]
        omega
      · simp only [List.getElem_drop, Array.getElem_toList]
        congr 1
        omega
    obtain ⟨-, _, -, -, -, hcaptures⟩ := child_of_instruction hop hfoot
    refine (capture_ret ?_ (hcaptures _ hmem)).elim
    have hret := h.ret
    simpa [instruction?, hlast] using hret
  | _ =>
    have hcount : p.operandCount w = 0 := by simp [operandCount, hop]
    omega

/-- Something follows an instruction of checked code, a `RETURN` apart. -/
theorem Checked.next_lt (h : p.Checked) (hbatch : ¬ p.EndsInBatch) {pc : Nat} {w : UInt32}
    {op : Opcode} (hi : p.IsInstruction pc) (hw : p.code[pc]? = some w)
    (hop : (⟨w⟩ : Instruction).opcode? = some op) (hne : op ≠ .ret) :
    pc + 1 + p.operandCount w < p.code.size := by
  refine (h.operandCount_le hi hw).lt_of_ne fun heq => hbatch ?_
  obtain ⟨rfl, hc, hlast⟩ := h.batch_of_last hi hw hop hne heq
  exact ⟨pc, w, hi, hw, hlast, hop, hc⟩

end Prototype

end LuaMachine
