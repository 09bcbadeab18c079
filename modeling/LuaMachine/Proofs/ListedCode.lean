import LuaMachine.Listing
import LuaMachine.Proofs.FrameRun
import LuaMachine.Proofs.WellFormedCode

/-!
The words that a listing shows as operand words. They are the operand words that checking and lowering a
prototype mark, and those that the interpreter steps over.
-/

namespace LuaMachine

theorem Prototype.IsOperand.lt {p : Prototype} {pc : Nat} (h : p.IsOperand pc) : pc < p.code.size := by
  simpa using (List.getElem?_eq_some_iff.1 h).1

namespace Listing

variable {p : Prototype} {pc n i : Nat} {w : UInt32} {ws : List UInt32} {indent name : String}

/-- A line of code, from the text of its word. -/
def codeLine (p : Prototype) (pc : Nat) (text : String) : String :=
  " ".intercalate [padLeft 4 (toString (pc + 1)), sourceLine p pc, text]

/-- The text of an operand word. -/
def dataRow (w : UInt32) : String := row "(data)" [toString w.toNat]

/-- The word at `pc` is listed as an operand word. The code stands below the heading and an empty line. -/
def ShowsData (indent name : String) (p : Prototype) (pc : Nat) : Prop :=
  ∃ w, p.code[pc]? = some w ∧
    (lines indent name p)[3 + pc]? = some (indent ++ codeLine p pc (dataRow w))

theorem codeLine_inj {s t : String} : codeLine p pc s = codeLine p pc t ↔ s = t := by
  simp only [codeLine, String.intercalate_cons_cons, String.intercalate_singleton, String.append_right_inj]

/-! A row starts with its mnemonic -/

theorem exists_row (mnemonic : String) (operands : List String) :
    ∃ t, row mnemonic operands = mnemonic ++ t :=
  ⟨_, String.intercalate_cons_append⟩

theorem exists_instruction (p : Prototype) (pc : Nat) (i : Instruction) (op : Opcode) :
    ∃ t, instruction p pc i op = op.name ++ t := by
  have hrow := exists_row op.name
  have hplain (s : String) : ∃ t, plainRow i op ++ s = op.name ++ t := by
    obtain ⟨t, ht⟩ := hrow _
    exact ⟨t ++ s, by rw [plainRow, ht, String.append_assoc]⟩
  unfold instruction
  split <;> first | exact hrow _ | simpa only [String.append_assoc] using hplain _

theorem name_append_ne_dataRow (op : Opcode) (t : String) : op.name ++ t ≠ dataRow w := by
  obtain ⟨t', ht⟩ := exists_row "(data)" [toString w.toNat]
  rw [dataRow, ht]
  intro h
  have hhead := congrArg (·.toList.head?) h
  cases op <;> simp [Opcode.name] at hhead

theorem invalidRow_ne_dataRow (operands : List String) : row "(invalid)" operands ≠ dataRow w := by
  obtain ⟨t, ht⟩ := exists_row "(invalid)" operands
  obtain ⟨t', ht'⟩ := exists_row "(data)" [toString w.toNat]
  rw [dataRow, ht, ht']
  intro h
  have hsecond := congrArg (·.toList[1]?) h
  simp at hsecond

/-! The words of the code -/

theorem word_instruction_ne (p : Prototype) (pc : Nat) (w : UInt32) : (word p pc 0 w).1 ≠ dataRow w := by
  cases hop : (⟨w⟩ : Instruction).opcode? with
  | none =>
    simp only [word, hop]
    exact invalidRow_ne_dataRow _
  | some op =>
    obtain ⟨t, ht⟩ := exists_instruction p pc ⟨w⟩ op
    simp only [word, hop, ht]
    exact name_append_ne_dataRow op t

/-- The countdown of a listing starts with the operand words that an instruction takes. -/
theorem word_instruction_snd (p : Prototype) (pc : Nat) (w : UInt32) :
    (word p pc 0 w).2 = p.operandCount w := by
  cases hop : (⟨w⟩ : Instruction).opcode? with
  | none => simp only [word, Prototype.operandCount, hop]
  | some op =>
    simp only [word, Prototype.operandCount, hop]
    cases op <;> rfl

/-- The line of a word is that of an operand word if the word is marked as one. -/
theorem getElem?_code (hw : ws[i]? = some w) :
    (code p pc n ws)[i]? = some (codeLine p (pc + i) (dataRow w)) ↔ (p.markOperands n ws)[i]? = some true := by
  induction ws generalizing pc n i with
  | nil => cases hw
  | cons v ws ih =>
    cases i with
    | zero =>
      obtain rfl := Option.some.inj hw
      rw [code, List.getElem?_cons_zero, Nat.add_zero, Option.some_inj]
      cases n with
      | zero =>
        have hmark : (p.markOperands 0 (v :: ws))[0]? ≠ some true := by simp [Prototype.markOperands]
        exact iff_of_false (fun h => word_instruction_ne p pc v (codeLine_inj.1 h)) hmark
      | succ n => exact iff_of_true rfl rfl
    | succ i =>
      rw [code, List.getElem?_cons_succ, Nat.add_comm i 1, ← Nat.add_assoc, ih hw, Nat.add_comm 1 i]
      cases n with
      | zero => rw [word_instruction_snd]; rfl
      | succ n => rfl

theorem length_code (p : Prototype) (pc n : Nat) (ws : List UInt32) : (code p pc n ws).length = ws.length := by
  induction ws generalizing pc n with
  | nil => rfl
  | cons w ws ih => exact congrArg (· + 1) (ih _ _)

/-- The lines of the code in the listing of a prototype. -/
theorem getElem?_lines (h : pc < p.code.size) :
    (lines indent name p)[3 + pc]? = (code p 0 0 p.code.toList)[pc]?.map (indent ++ ·) := by
  obtain ⟨rest, hrest⟩ : ∃ rest, lines indent name p =
      (indented indent (heading p name) ++ [""]) ++ (indented indent (code p 0 0 p.code.toList) ++ rest) := by
    cases p
    simp only [lines, body, List.append_assoc]
    exact ⟨_, rfl⟩
  have hheading : (indented indent (heading p name) ++ [""]).length = 3 := rfl
  have hlength : pc < (indented indent (code p 0 0 p.code.toList)).length := by
    rwa [indented, List.length_map, length_code, Array.length_toList]
  rw [hrest, List.getElem?_append_right (by omega), hheading, Nat.add_sub_cancel_left,
    List.getElem?_append_left hlength, indented, List.getElem?_map]

/-- A listing shows exactly the operand words as such. -/
theorem showsData_iff (indent name : String) (p : Prototype) (pc : Nat) :
    ShowsData indent name p pc ↔ p.IsOperand pc := by
  have hline {w : UInt32} (hw : p.code[pc]? = some w) :
      (lines indent name p)[3 + pc]? = some (indent ++ codeLine p pc (dataRow w)) ↔ p.IsOperand pc := by
    have hcode : (code p 0 0 p.code.toList)[pc]? = some (codeLine p (0 + pc) (dataRow w)) ↔ p.IsOperand pc :=
      getElem?_code ((Array.getElem?_toList ..).trans hw)
    rw [Nat.zero_add] at hcode
    rw [getElem?_lines (Array.getElem?_eq_some_iff.1 hw).1, ← hcode, Option.map_eq_some_iff]
    simp only [String.append_right_inj, exists_eq_right]
  constructor
  · rintro ⟨w, hw, h⟩
    exact (hline hw).1 h
  · intro h
    have hw := Array.getElem?_eq_getElem h.lt
    exact ⟨_, hw, (hline hw).2 h⟩

/-- From one place to another over words that are listed as operand words, and over no other ones. -/
structure StepsOver (indent name : String) (p : Prototype) (pc after : Nat) : Prop where
  lt : pc < after
  le : after ≤ p.code.size
  data (i : Nat) (hi : pc < i) (hlt : i < after) : ShowsData indent name p i
  behind : ¬ ShowsData indent name p after

end Listing

namespace Prototype

open Listing

variable {p : Prototype} {l : Lowered} {pc : Nat} {w : UInt32} {op : Opcode}

/-! The interpreter on its way through the code -/

/-- The places to which the interpreter comes as long as no instruction jumps. -/
inductive Walked (p : Prototype) : Nat → Prop
  | start : p.Walked 0
  | next {pc : Nat} {w : UInt32} {f : Fetched} (h : p.Walked pc) (hw : p.code[pc]? = some w)
      (hf : p.decode pc w = .ok f) : p.Walked f.after

theorem LowersTo.decode_of_isInstruction (h : p.LowersTo l) (hi : p.IsInstruction pc)
    (hw : p.code[pc]? = some w) : ∃ f, p.decode pc w = .ok f ∧ f.after = pc + 1 + p.operandCount w := by
  obtain ⟨op, hat⟩ := h.hasOpcode hi hw
  exact ⟨_, h.decode_eq hi hw hat.opcode, rfl⟩

/-- No place on the way is an operand word. -/
theorem LowersTo.isInstruction_of_walked (h : p.LowersTo l) (hwalked : p.Walked pc) :
    pc = p.code.size ∨ p.IsInstruction pc := by
  induction hwalked with
  | start => exact .inr (isInstruction_zero h.code)
  | @next pc w f _ hw hf ih =>
    have hlt := (Array.getElem?_eq_some_iff.1 hw).1
    have hi : p.IsInstruction pc := ih.resolve_left hlt.ne
    obtain ⟨f', hf', hafter⟩ := h.decode_of_isInstruction hi hw
    obtain rfl : f' = f := Except.ok.inj (hf'.symm.trans hf)
    rw [hafter]
    exact (h.operandCount_le hi hw).eq_or_lt.imp_right (hi.next hw)

/-- Every word of the code is an instruction on the way or an operand word of one. -/
theorem LowersTo.exists_walked (h : p.LowersTo l) {n : Nat} (hn : n < p.code.size) :
    ∃ pc w, p.Walked pc ∧ p.IsInstruction pc ∧ p.code[pc]? = some w ∧
      pc ≤ n ∧ n < pc + 1 + p.operandCount w := by
  induction n with
  | zero =>
    have hi := isInstruction_zero h.code
    obtain ⟨w, hw⟩ := hi.exists_word
    exact ⟨0, w, .start, hi, hw, le_rfl, by omega⟩
  | succ n ih =>
    obtain ⟨pc, w, hwalked, hi, hw, hle, hlt⟩ := ih (by omega)
    by_cases hafter : n + 1 < pc + 1 + p.operandCount w
    · exact ⟨pc, w, hwalked, hi, hw, by omega, hafter⟩
    · obtain ⟨f, hf, heq⟩ := h.decode_of_isInstruction hi hw
      obtain hn' : n + 1 = pc + 1 + p.operandCount w := by omega
      have hnext := hi.next hw (hn' ▸ hn)
      obtain ⟨v, hv⟩ := hnext.exists_word
      exact ⟨_, v, heq ▸ hwalked.next hw hf, hnext, hv, hn'.ge, by omega⟩

/-- The way leads over all instructions to the end of the code. -/
theorem LowersTo.walked_iff (h : p.LowersTo l) (pc : Nat) :
    p.Walked pc ↔ pc = p.code.size ∨ pc < p.code.size ∧ ¬ p.IsOperand pc := by
  constructor
  · exact fun hwalked => (h.isInstruction_of_walked hwalked).imp_right fun hi => ⟨hi.lt, hi.not_isOperand⟩
  · rintro (rfl | ⟨hlt, hoperand⟩)
    · have hcode := h.code
      obtain ⟨pc, w, hwalked, hi, hw, -, hlt⟩ := h.exists_walked (n := p.code.size - 1) (by omega)
      obtain ⟨f, hf, hafter⟩ := h.decode_of_isInstruction hi hw
      have hle := h.operandCount_le hi hw
      obtain hend : f.after = p.code.size := by omega
      exact hend ▸ hwalked.next hw hf
    · obtain ⟨i, w, hwalked, hi, hw, hle, hcount⟩ := h.exists_walked hlt
      obtain rfl | hlt' := hle.eq_or_lt
      · exact hwalked
      · -- a word behind an instruction and before the next one is an operand word
        obtain ⟨j, rfl⟩ := Nat.exists_eq_add_of_lt hlt'
        rw [Nat.add_right_comm] at hoperand hlt hcount
        exact (hoperand (hi.isOperand hw (by omega) hlt)).elim

theorem LowersTo.stepsOver (h : p.LowersTo l) (hi : p.IsInstruction pc) (hw : p.code[pc]? = some w)
    (indent name : String) : StepsOver indent name p pc (pc + 1 + p.operandCount w) := by
  refine ⟨by omega, h.operandCount_le hi hw, fun i hlt hafter => ?_, ?_⟩
  · obtain ⟨j, rfl⟩ := Nat.exists_eq_add_of_lt hlt
    have hle := h.operandCount_le hi hw
    rw [showsData_iff, Nat.add_right_comm]
    exact hi.isOperand hw (by omega) (by omega)
  · rw [showsData_iff]
    exact fun hoperand => (hi.next hw hoperand.lt).not_isOperand hoperand

/-- Behind a `SETLIST` or a `CLOSURE` the interpreter goes on after its operand words. -/
theorem LowersTo.interpretStep_eq (h : p.LowersTo l) (hat : p.HasOpcode pc w op)
    (hop : op = .setList ∨ op = .closure) {embedding : Embedding} {run : Run} {window : Window}
    (hp : window.closure.proto = p) {m m' : Machine} {next : Option Nat}
    (hstep : interpretStep embedding run window pc m = .ok next m') :
    next = some (pc + 1 + p.operandCount w) := by
  subst hp
  have hdecode := h.decode_eq hat.isInstruction hat.word hat.opcode
  rw [Activation.interpretStep_of_fetch hat.word hdecode, Action.bind_ok (savePc_apply _ _),
    Action.bind_apply] at hstep
  split at hstep
  next flow m₁ hperform =>
    have hwithin := perform_within embedding run window _ pc _ _ _ hperform
    have hnext : flow = .next := by
      obtain rfl | rfl := hop <;> cases flow <;>
        simp [Flow.Within, operationAt, Operation.ofInstruction, Operation.targets, Operation.isTest,
          Operation.isControl] at hwithin ⊢
    subst hnext
    cases hstep
    rfl
  next => cases hstep

/-- All that go through the code of a prototype agree on its operand words. What a listing shows as such is
what a check has marked if it accepts the prototype, and what lowering marks. The interpreter comes to all
other words and to none of these: behind an instruction it goes on after the operand words, and after a
`SETLIST` or a `CLOSURE` it goes nowhere else. -/
theorem operand_words_agree (p : Prototype) (indent name : String) :
    (p.Verified → ∃ s, Verifier.scan p 0 0 p.code.toList = .ok s ∧ (∃ l, p.lower = .ok l) ∧
      ∀ pc : Nat, ShowsData indent name p pc ↔ s.operands[pc]? = some true) ∧
    ∀ l, p.lower = .ok l →
      (∀ pc : Nat, ShowsData indent name p pc ↔ l.operations[pc]? = some .data) ∧
      (∀ pc, p.Walked pc ↔ pc = p.code.size ∨ pc < p.code.size ∧ ¬ ShowsData indent name p pc) ∧
      ∀ (pc : Nat) w, p.code[pc]? = some w → ¬ ShowsData indent name p pc →
        (∃ f, p.decode pc w = .ok f ∧ StepsOver indent name p pc f.after) ∧
        ∀ op, (⟨w⟩ : Instruction).opcode? = some op → op = .setList ∨ op = .closure →
          ∀ embedding run (window : Window) m next m', window.closure.proto = p →
            interpretStep embedding run window pc m = .ok next m' →
              ∃ after, next = some after ∧ StepsOver indent name p pc after := by
  refine ⟨fun hverified => ?_, fun l hl => ?_⟩
  · obtain ⟨s, hs, -⟩ := Verifier.bind_eq_ok.1 (Verifier.check_eq_ok.1 (verified_iff.1 hverified).1).2
    refine ⟨s, hs, hverified.exists_lower, fun pc => ?_⟩
    rw [showsData_iff, Verifier.operands_of_scan hs, IsOperand]
  · have h := lowersTo_of_lower hl
    refine ⟨fun pc => ?_, fun pc => ?_, fun pc w hw hshows => ?_⟩
    · rw [showsData_iff, h.data_iff]
    · rw [showsData_iff, h.walked_iff]
    · have hi : p.IsInstruction pc := by
        rw [showsData_iff] at hshows
        exact (isInstruction_or_isOperand (Array.getElem?_eq_some_iff.1 hw).1).resolve_right hshows
      have hover := h.stepsOver hi hw indent name
      obtain ⟨f, hf, hafter⟩ := h.decode_of_isInstruction hi hw
      exact ⟨⟨f, hf, hafter ▸ hover⟩, fun op hop hkind _ _ window _ next _ hp hstep =>
        ⟨_, h.interpretStep_eq ⟨hi, hw, hop⟩ hkind hp hstep, hover⟩⟩

/-- Stores a value in a table by a batch word, and makes a closure with a capture. -/
def parcel : Prototype :=
  { Prototype.empty "=parcel" with
    code := #[(Instruction.abc .newTable 0 0 0).word, (Instruction.abc .loadNil 1 1 0).word,
      (Instruction.abc .setList 0 1 0).word, 1, (Instruction.abx .closure 1 0).word,
      (Instruction.abc .move 0 0 0).word, (Instruction.abc .ret 0 1 0).word]
    children := [{ Prototype.empty "=parcel" with
      upvalueCount := 1, code := #[(Instruction.abc .ret 0 1 0).word] }] }

/-- The batch word and the capture are listed as operand words, and the interpreter comes to what stands
behind each of them. -/
theorem operand_words_agree_parcel :
    parcel.Verified ∧ ShowsData "" "main" parcel 3 ∧ ShowsData "" "main" parcel 5 ∧
      parcel.Walked 4 ∧ parcel.Walked 6 := by
  have hverified : parcel.Verified := rfl
  obtain ⟨hmarked, hlowered⟩ := operand_words_agree parcel "" "main"
  obtain ⟨s, hs, ⟨l, hl⟩, hshows⟩ := hmarked hverified
  obtain ⟨-, hwalked, -⟩ := hlowered l hl
  rw [Verifier.operands_of_scan hs] at hshows
  exact ⟨hverified, (hshows 3).2 rfl, (hshows 5).2 rfl,
    (hwalked 4).2 (.inr ⟨by decide, fun h => absurd ((hshows 4).1 h) (by decide)⟩),
    (hwalked 6).2 (.inr ⟨by decide, fun h => absurd ((hshows 6).1 h) (by decide)⟩)⟩

end Prototype

end LuaMachine
