import LuaMachine.Engine
import LuaMachine.Proofs.VerifiedCode

/-!
What lowered code says about the code it was made from: at each instruction the operation that
decoding gives, at each operand word none, and as entries the start and the words after calls.
Checked code can be lowered.
-/

namespace LuaMachine

/-! Finding an entry -/

/-- A binary search among increasing places finds the one looked for if it stands between the
bounds. -/
theorem binSearchAux_isSome {places : Array Nat} (hplaces : places.toList.Pairwise (· < ·)) (k : Nat)
    (lo : Fin (places.size + 1)) (hi : Fin places.size) (h : lo.1 ≤ hi.1) :
    Array.binSearchAux (· < ·) Option.isSome places k lo hi h = true ↔
      ∃ i, lo.1 ≤ i ∧ i ≤ hi.1 ∧ places[i]? = some k := by
  have hlt {i j x y : Nat} (hx : places[i]? = some x) (hy : places[j]? = some y) (hxy : x < y) :
      i < j := by
    obtain ⟨hi, rfl⟩ := Array.getElem?_eq_some_iff.1 hx
    obtain ⟨hj, rfl⟩ := Array.getElem?_eq_some_iff.1 hy
    obtain hij | rfl | hij := Nat.lt_trichotomy i j
    · exact hij
    · exact absurd hxy (Nat.lt_irrefl _)
    · exact absurd (List.pairwise_iff_getElem.1 hplaces j i hj hi hij) (Nat.lt_asymm hxy)
  fun_induction Array.binSearchAux (fun x y : Nat => decide (x < y)) Option.isSome places k lo hi h with
  | case1 lo hi h m a hak _ _ ih =>
    have ham : places[m]? = some a := Array.getElem?_eq_getElem _
    refine ih.trans <| exists_congr fun i => and_congr_left fun hi => ⟨fun hle => by dsimp only at hle; omega, fun _ => ?_⟩
    exact hlt ham hi.2 (of_decide_eq_true hak)
  | case2 lo hi h m a hak hle =>
    have ham : places[m]? = some a := Array.getElem?_eq_getElem _
    refine iff_of_false Bool.false_ne_true fun ⟨i, _, hhi, hk⟩ => ?_
    have := hlt ham hk (of_decide_eq_true hak)
    omega
  | case3 lo hi h m a _ hka hle =>
    have ham : places[m]? = some a := Array.getElem?_eq_getElem _
    refine iff_of_false Bool.false_ne_true fun ⟨i, hlo, _, hk⟩ => ?_
    have := hlt hk ham (of_decide_eq_true hka)
    omega
  | case4 lo hi h m a _ hka hle _ ih =>
    have ham : places[m]? = some a := Array.getElem?_eq_getElem _
    refine ih.trans <| exists_congr fun i => and_congr_right fun _ => and_congr_left fun hk => ?_
    have := hlt hk ham (of_decide_eq_true hka)
    dsimp only
    omega
  | case5 lo hi h m a hak hka =>
    have ham : places[m]? = some a := Array.getElem?_eq_getElem _
    rw [decide_eq_true_eq] at hak hka
    obtain rfl : a = k := by omega
    exact iff_of_true rfl ⟨m, by omega, by omega, ham⟩

theorem binSearchContains_iff {places : Array Nat} (hplaces : places.toList.Pairwise (· < ·)) (k : Nat) :
    places.binSearchContains k (· < ·) = true ↔ k ∈ places := by
  rw [Array.mem_iff_getElem?, Array.binSearchContains]
  split
  · next hpos =>
    simp only [Nat.zero_le, dite_true]
    rw [binSearchAux_isSome hplaces]
    refine exists_congr fun i => ⟨fun h => h.2.2, fun h => ⟨Nat.zero_le i, ?_, h⟩⟩
    have := (Array.getElem?_eq_some_iff.1 h).1
    dsimp only
    split <;> omega
  · next hpos =>
    refine iff_of_false Bool.false_ne_true fun ⟨i, h⟩ => ?_
    have := (Array.getElem?_eq_some_iff.1 h).1
    omega

theorem Lowered.isEntry_iff_mem {l : Lowered} (h : l.entries.Pairwise (· < ·)) (pc : Nat) :
    l.isEntry pc = true ↔ pc ∈ l.entries := by
  rw [isEntry, binSearchContains_iff h, List.mem_toArray]

/-! The scan -/

namespace Lowering

open Verifier Prototype Operation

variable {p : Prototype}

theorem edge_eq_ok {pc : Nat} {t : Int} {es : List Edge} :
    edge p pc t = .ok es ↔ (0 ≤ t ∧ t < p.code.size) ∧ es = [⟨pc, t.toNat⟩] := by
  unfold edge
  split
  · next h => simp [h, pure, Except.pure, eq_comm]
  · next h => simp [h, throw_ne_ok]

theorem toNat_skip (pc : Nat) : ((pc : Int) + 2).toNat = pc + 2 := by omega

/-- The edges of an instruction lead to the targets of its operation. -/
theorem targets_of_edges {pc : Nat} {i : Instruction} {op : Opcode} {es : List Edge}
    (h : edges p pc i op = .ok es) (batch : Nat) (captures : List Capture) :
    es.map (·.target) = (ofInstruction i op pc batch captures).targets pc ∧
      ∀ e ∈ es, e.target < p.code.size := by
  cases op with
  | jmp | forLoop | forPrep =>
    simp only [edges, edge_eq_ok] at h
    obtain ⟨⟨h0, hlt⟩, rfl⟩ := h
    simp only [List.map_cons, List.map_nil, List.mem_singleton, forall_eq, ofInstruction, targets,
      jumpTarget_eq h0, true_and]
    omega
  | loadBool =>
    simp only [edges] at h
    by_cases hc : i.c = 0
    · rw [if_pos hc, pure_eq_ok] at h
      have hskip : (i.c != 0) = false := by simp [hc]
      simp [← h, ofInstruction, hskip, targets, isTest]
    · rw [if_neg hc, edge_eq_ok] at h
      obtain ⟨⟨-, hlt⟩, rfl⟩ := h
      have hskip : (i.c != 0) = true := by simp [hc]
      simp only [List.map_cons, List.map_nil, List.mem_singleton, forall_eq, ofInstruction, hskip,
        targets, toNat_skip, true_and]
      omega
  | eq | lt | le | test | testSet | tForLoop =>
    simp only [edges, Opcode.isTest, if_true, edge_eq_ok] at h
    obtain ⟨⟨-, hlt⟩, rfl⟩ := h
    simp only [List.map_cons, List.map_nil, List.mem_singleton, forall_eq, ofInstruction, targets,
      Operation.isTest, if_true, toNat_skip, true_and]
    omega
  | _ =>
    simp only [edges, Opcode.isTest, Bool.false_eq_true, if_false, pure_eq_ok] at h
    simp [← h, ofInstruction, targets, Operation.isTest]

theorem operandWords_eq_ok {pc : Nat} {w : UInt32} {op : Opcode} {ws words : List UInt32}
    (hop : (⟨w⟩ : Instruction).opcode? = some op)
    (h : operandWords p pc ⟨w⟩ op ws = .ok words) :
    words = ws.take (p.operandCount w) ∧ p.operandCount w ≤ ws.length ∧
      (op = .closure → (⟨w⟩ : Instruction).bx < p.children.length) := by
  cases op with
  | setList =>
    have hcount : p.operandCount w = if (⟨w⟩ : Instruction).c = 0 then 1 else 0 := by
      simp [operandCount, hop]
    simp only [operandWords] at h
    split_ifs at h with hc
    · cases ws with
      | nil => simp [throw_ne_ok] at h
      | cons v ws => simp_all
    · simp_all
  | closure =>
    simp only [operandWords] at h
    cases hchild : p.children[(⟨w⟩ : Instruction).bx]? with
    | none => simp [hchild, throw_ne_ok] at h
    | some child =>
      have hcount : p.operandCount w = child.upvalueCount.toNat := by
        simp [operandCount, hop, hchild]
      simp only [hchild] at h
      split_ifs at h with hle
      · rw [pure_eq_ok] at h
        rw [hcount]
        exact ⟨h.symm, hle, fun _ => (List.getElem?_eq_some_iff.1 hchild).1⟩
  | _ =>
    have hcount : p.operandCount w = 0 := by simp [operandCount, hop]
    simp_all [operandWords]

theorem scan_cons_pending {pc n : Nat} {w : UInt32} {ws : List UInt32} {s : Scan}
    (h : scan p pc (n + 1) (w :: ws) = .ok s) :
    ∃ s', scan p (pc + 1) n ws = .ok s' ∧ s = { s' with operations := .data :: s'.operations } := by
  simp only [scan, bind_eq_ok, pure_eq_ok] at h
  obtain ⟨s', hs, rfl⟩ := h
  exact ⟨s', hs, rfl⟩

/-- How the scan goes on from an instruction. -/
structure Added (p : Prototype) (pc : Nat) (w : UInt32) (ws : List UInt32) (s s' : Scan)
    (op : Opcode) (es : List Edge) : Prop where
  opcode : (⟨w⟩ : Instruction).opcode? = some op
  edges : Lowering.edges p pc ⟨w⟩ op = .ok es
  enough : p.operandCount w ≤ ws.length
  child : op = .closure → (⟨w⟩ : Instruction).bx < p.children.length
  rest : scan p (pc + 1) (p.operandCount w) ws = .ok s'
  eq : s = {
    operations := .ofInstruction ⟨w⟩ op pc ((ws.take (p.operandCount w)).headD 0).toNat
      ((ws.take (p.operandCount w)).map Capture.ofWord) :: s'.operations
    edges := es ++ s'.edges
    entries := reentry p pc op ++ s'.entries }

theorem scan_cons_instruction {pc : Nat} {w : UInt32} {ws : List UInt32} {s : Scan}
    (h : scan p pc 0 (w :: ws) = .ok s) : ∃ s' op es, Added p pc w ws s s' op es := by
  cases hop : (⟨w⟩ : Instruction).opcode? with
  | none => simp [scan, hop, throw_ne_ok] at h
  | some op =>
    simp only [scan, hop, bind_eq_ok, pure_eq_ok] at h
    obtain ⟨es, hes, words, hwords, s', hs, rfl⟩ := h
    obtain ⟨rfl, hle, hchild⟩ := operandWords_eq_ok hop hwords
    rw [List.length_take_of_le hle] at hs
    exact ⟨s', op, es, hop, hes, hle, hchild, hs, rfl⟩

theorem length_operations_of_scan {pc n : Nat} {ws : List UInt32} {s : Scan}
    (h : scan p pc n ws = .ok s) : s.operations.length = ws.length := by
  induction ws generalizing pc n s with
  | nil =>
    obtain rfl : ({} : Scan) = s := by simpa [scan] using h
    rfl
  | cons w ws ih =>
    cases n with
    | succ n =>
      obtain ⟨s', hs, rfl⟩ := scan_cons_pending h
      simp [ih hs]
    | zero =>
      obtain ⟨s', op, es, a⟩ := scan_cons_instruction h
      simp [a.eq, ih a.rest]

/-- An operand word has no operation. -/
theorem data_of_scan {pc n : Nat} {ws : List UInt32} {s : Scan} (h : scan p pc n ws = .ok s)
    {i : Nat} (hi : (p.markOperands n ws)[i]? = some true) : s.operations[i]? = some .data := by
  induction ws generalizing pc n s i with
  | nil => simp [markOperands] at hi
  | cons w ws ih =>
    cases n with
    | succ n =>
      obtain ⟨s', hs, rfl⟩ := scan_cons_pending h
      cases i with
      | zero => rfl
      | succ i => exact ih hs hi
    | zero =>
      obtain ⟨s', op, es, a⟩ := scan_cons_instruction h
      rw [a.eq]
      cases i with
      | zero => simp [markOperands] at hi
      | succ i => exact ih a.rest hi

/-- At an instruction stands the operation it decodes to, and its edges are among those of the
scan. -/
theorem operation_of_scan {pc n : Nat} {ws : List UInt32} {s : Scan} (h : scan p pc n ws = .ok s)
    {i : Nat} {w : UInt32} (hi : (p.markOperands n ws)[i]? = some false) (hw : ws[i]? = some w) :
    ∃ op es, (⟨w⟩ : Instruction).opcode? = some op ∧ edges p (pc + i) ⟨w⟩ op = .ok es ∧
      es ⊆ s.edges ∧ p.operandCount w ≤ (ws.drop (i + 1)).length ∧
      (op = .closure → (⟨w⟩ : Instruction).bx < p.children.length) ∧
      s.operations[i]? = some (.ofInstruction ⟨w⟩ op (pc + i)
        (((ws.drop (i + 1)).take (p.operandCount w)).headD 0).toNat
        (((ws.drop (i + 1)).take (p.operandCount w)).map Capture.ofWord)) := by
  induction ws generalizing pc n s i with
  | nil => simp at hw
  | cons v ws ih =>
    cases n with
    | succ n =>
      obtain ⟨s', hs, rfl⟩ := scan_cons_pending h
      cases i with
      | zero => simp [markOperands] at hi
      | succ i =>
        have hih := ih hs hi hw
        rwa [Nat.add_right_comm, Nat.add_assoc] at hih
    | zero =>
      obtain ⟨s', op, es, a⟩ := scan_cons_instruction h
      rw [a.eq]
      cases i with
      | zero =>
        obtain rfl : v = w := by simpa using hw
        exact ⟨op, es, a.opcode, a.edges, List.subset_append_left _ _, a.enough,
          a.child, rfl⟩
      | succ i =>
        have hih := ih a.rest hi hw
        rw [Nat.add_right_comm, Nat.add_assoc] at hih
        obtain ⟨op, es, hop, hes, hsub, hrest⟩ := hih
        exact ⟨op, es, hop, hes, fun e he => List.mem_append_right _ (hsub he), hrest⟩

/-- The scan finds the entries in order, each behind the place where it starts. -/
theorem increasing_of_scan (h : scan p pc n ws = .ok s) : (pc :: s.entries).Pairwise (· < ·) := by
  induction ws generalizing pc n s with
  | nil =>
    obtain rfl : ({} : Scan) = s := by simpa [scan] using h
    exact List.pairwise_singleton ..
  | cons w ws ih =>
    have hstart {es : List Nat} (hes : ((pc + 1) :: es).Pairwise (· < ·)) :
        (pc :: es).Pairwise (· < ·) ∧ (pc :: (pc + 1) :: es).Pairwise (· < ·) := by
      obtain ⟨hlow, hrest⟩ := List.pairwise_cons.1 hes
      have hall (e : Nat) (he : e ∈ es) : pc < e := (Nat.lt_succ_self pc).trans (hlow e he)
      refine ⟨List.pairwise_cons.2 ⟨hall, hrest⟩, List.pairwise_cons.2 ⟨fun e he => ?_, hes⟩⟩
      obtain rfl | he := List.mem_cons.1 he
      · exact Nat.lt_succ_self pc
      · exact hall e he
    cases n with
    | succ n =>
      obtain ⟨s', hs, rfl⟩ := scan_cons_pending h
      exact (hstart (ih hs)).1
    | zero =>
      obtain ⟨s', op, es, a⟩ := scan_cons_instruction h
      rw [a.eq, reentry]
      split_ifs
      · exact (hstart (ih a.rest)).2
      · exact (hstart (ih a.rest)).1

/-- The entries of the scan are the words after calls. -/
theorem mem_entries_of_scan {pc n : Nat} {ws : List UInt32} {s : Scan} (h : scan p pc n ws = .ok s)
    (e : Nat) : e ∈ s.entries ↔ ∃ i w, e = pc + i + 1 ∧ e < p.code.size ∧
      (p.markOperands n ws)[i]? = some false ∧ ws[i]? = some w ∧
      (⟨w⟩ : Instruction).opcode? = some .call := by
  induction ws generalizing pc n s with
  | nil =>
    obtain rfl : ({} : Scan) = s := by simpa [scan] using h
    simp
  | cons w ws ih =>
    cases n with
    | succ n =>
      obtain ⟨s', hs, rfl⟩ := scan_cons_pending h
      rw [show e ∈ s'.entries ↔ _ from ih hs]
      constructor
      · rintro ⟨i, v, rfl, hlt, hi, hv, hop⟩
        exact ⟨i + 1, v, by omega, hlt, hi, hv, hop⟩
      · rintro ⟨i, v, rfl, hlt, hi, hv, hop⟩
        cases i with
        | zero => simp [markOperands] at hi
        | succ i => exact ⟨i, v, by omega, hlt, hi, hv, hop⟩
    | zero =>
      obtain ⟨s', op, es, a⟩ := scan_cons_instruction h
      rw [a.eq, List.mem_append, ih a.rest, reentry]
      constructor
      · rintro (he | ⟨i, v, rfl, hlt, hi, hv, hop⟩)
        · split_ifs at he with hcall
          · obtain rfl : e = pc + 1 := by simpa using he
            exact ⟨0, w, rfl, hcall.2, rfl, rfl, hcall.1 ▸ a.opcode⟩
          · simp at he
        · exact ⟨i + 1, v, by omega, hlt, hi, hv, hop⟩
      · rintro ⟨i, v, rfl, hlt, hi, hv, hop⟩
        cases i with
        | zero =>
          obtain rfl : w = v := by simpa using hv
          obtain rfl : op = .call := by simpa [a.opcode] using hop
          left
          rw [if_pos ⟨rfl, by omega⟩]
          simp
        | succ i => exact .inr ⟨i, v, by omega, hlt, hi, hv, hop⟩

end Lowering

/-! Lowered prototypes -/

namespace Prototype

open Lowering Verifier Operation

variable {p : Prototype} {l : Lowered}

/-- A word after which a frame goes on: the first one, or one after an instruction of the given
kind. -/
def IsReentry (p : Prototype) (kind : Opcode → Prop) (pc : Nat) : Prop :=
  pc < p.code.size ∧ (pc = 0 ∨ ∃ i w op, pc = i + 1 ∧ p.IsInstruction i ∧ p.code[i]? = some w ∧
    (⟨w⟩ : Instruction).opcode? = some op ∧ kind op)

/-- The operation of the instruction `w` at `pc`, with its operand words. -/
def operationAt (p : Prototype) (pc : Nat) (w : UInt32) (op : Opcode) : Operation :=
  let words := (p.code.toList.drop (pc + 1)).take (p.operandCount w)
  .ofInstruction ⟨w⟩ op pc (words.headD 0).toNat (words.map Capture.ofWord)

section

variable {pc : Nat} {w : UInt32} {op : Opcode}

theorem operationAt_eq_call {a b c : Nat} (h : p.operationAt pc w op = .call a b c) :
    op = .call := by
  cases op <;> simp [operationAt, ofInstruction] at h
  rfl

theorem operationAt_eq_tailCall {a b : Nat} (h : p.operationAt pc w op = .tailCall a b) :
    op = .tailCall := by
  cases op <;> simp [operationAt, ofInstruction] at h
  rfl

/-- A new closure captures as many upvalues as its prototype has. -/
theorem length_captures (hop : (⟨w⟩ : Instruction).opcode? = some op)
    (hle : pc + 1 + p.operandCount w ≤ p.code.size) {a i : Nat} {cs : List Capture}
    (h : p.operationAt pc w op = .closure a i cs) {q : Prototype} (hq : p.children[i]? = some q) :
    cs.length = q.upvalueCount.toNat := by
  cases op with
  | closure =>
    simp only [operationAt, ofInstruction, Operation.closure.injEq] at h
    obtain ⟨-, rfl, rfl⟩ := h
    have hcount : p.operandCount w = q.upvalueCount.toNat := by simp [operandCount, hop, hq]
    rw [List.length_map, List.length_take, List.length_drop, Array.length_toList, ← hcount]
    omega
  | _ => simp [operationAt, ofInstruction] at h

end

/-- What an instruction of checked code names exists. -/
theorem Checked.fits (h : p.Checked) {pc : Nat} {w : UInt32} {op : Opcode}
    (hi : p.IsInstruction pc) (hw : p.code[pc]? = some w)
    (hop : (⟨w⟩ : Instruction).opcode? = some op) : (p.operationAt pc w op).Fits p := by
  obtain ⟨foot, hfoot, -⟩ := h.instruction hi hw
  have hfits := fits_of_instruction hop hfoot
    (((p.code.toList.drop (pc + 1)).take (p.operandCount w)).headD 0).toNat
  rwa [(operands_of_instruction hop hfoot).1] at hfits

/-- What lowering a prototype establishes. -/
structure LowersTo (p : Prototype) (l : Lowered) : Prop where
  code : 0 < p.code.size
  size : l.operations.size = p.code.size
  data {pc : Nat} (h : p.IsOperand pc) : l.operations[pc]? = some .data
  instruction {pc : Nat} {w : UInt32} (hi : p.IsInstruction pc) (hw : p.code[pc]? = some w) :
    ∃ op, (⟨w⟩ : Instruction).opcode? = some op ∧ pc + 1 + p.operandCount w ≤ p.code.size ∧
      (op = .closure → (⟨w⟩ : Instruction).bx < p.children.length) ∧
      l.operations[pc]? = some (p.operationAt pc w op) ∧
      ∀ t ∈ (p.operationAt pc w op).targets pc, p.IsInstruction t
  increasing : l.entries.Pairwise (· < ·)
  isEntry (pc : Nat) : l.isEntry pc ↔ p.IsReentry (· = .call) pc

theorem lowersTo_of_lower (h : p.lower = .ok l) : p.LowersTo l := by
  rw [lower] at h
  split at h
  · simp [bind_eq_ok, throw_ne_ok] at h
  next hempty =>
  rw [bind_eq_ok] at h
  obtain ⟨s, hs, h⟩ := h
  rw [check_eq_ok, forM_eq_ok] at h
  obtain ⟨hedges, h⟩ := h
  obtain rfl := pure_eq_ok.1 h
  have hcode : 0 < p.code.size := Nat.pos_of_ne_zero fun h0 => hempty (by simp [Array.isEmpty, h0])
  have hdata {pc : Nat} (h : p.IsOperand pc) : s.operations[pc]? = some .data := data_of_scan hs h
  have hincreasing := increasing_of_scan hs
  refine ⟨hcode, ?_, fun h => ?_, fun {pc w} hi hw => ?_, hincreasing, fun pc => ?_⟩
  · simpa using length_operations_of_scan hs
  · simpa using hdata h
  · obtain ⟨op, es, hop, hes, hsub, hle, hchild, hoper⟩ :=
      operation_of_scan hs hi (by simpa using hw)
    rw [Nat.zero_add] at hes hoper
    rw [List.length_drop, Array.length_toList] at hle
    have hlt := hi.lt
    refine ⟨op, hop, by omega, hchild, by rw [List.getElem?_toArray]; exact hoper, fun t ht => ?_⟩
    obtain ⟨heq, hrange⟩ := targets_of_edges hes
      (((p.code.toList.drop (pc + 1)).take (p.operandCount w)).headD 0).toNat
      (((p.code.toList.drop (pc + 1)).take (p.operandCount w)).map Capture.ofWord)
    rw [operationAt, ← heq, List.mem_map] at ht
    obtain ⟨e, he, rfl⟩ := ht
    -- an operand word would have made the check of the edges fail
    refine (isInstruction_or_isOperand (hrange e he)).resolve_right fun hop => ?_
    have hcheck := hedges e (hsub he)
    rw [List.getElem?_toArray, if_pos (hdata hop)] at hcheck
    exact throw_ne_ok hcheck
  · rw [Lowered.isEntry_iff_mem hincreasing, List.mem_cons, mem_entries_of_scan hs]
    constructor
    · rintro (rfl | ⟨i, w, rfl, hlt, hi, hw, hop⟩)
      · exact ⟨hcode, .inl rfl⟩
      · rw [Nat.zero_add] at hlt ⊢
        exact ⟨hlt, .inr ⟨i, w, .call, rfl, hi, by simpa using hw, hop, rfl⟩⟩
    · rintro ⟨hlt, rfl | ⟨i, w, op, rfl, hi, hw, hop, rfl⟩⟩
      · exact .inl rfl
      · exact .inr ⟨i, w, by omega, hlt, hi, by simpa using hw, hop⟩

namespace LowersTo

theorem getElem?_eq_none (h : p.LowersTo l) {pc : Nat} (hpc : p.code.size ≤ pc) :
    l.operations[pc]? = none :=
  Array.getElem?_eq_none (h.size ▸ hpc)

/-- Skipping operand words stops at the instruction behind them. -/
theorem skipData_eq (h : p.LowersTo l) {n pc : Nat} (hi : p.IsInstruction pc) (hn : 0 < n) :
    Lowered.skipData l.operations n pc = some pc := by
  obtain ⟨w, hw⟩ := hi.exists_word
  obtain ⟨op, -, -, -, hoper, -⟩ := h.instruction hi hw
  obtain ⟨m, rfl⟩ := Nat.exists_eq_add_of_lt hn
  have hne : p.operationAt pc w op ≠ .data := ofInstruction_ne_data _ _ _ _ _
  rw [Nat.zero_add, Lowered.skipData, hoper]
  split
  · next heq => exact absurd (Option.some.inj heq) hne
  · rfl

theorem skipData_data (h : p.LowersTo l) {n pc : Nat} (ho : p.IsOperand pc) :
    Lowered.skipData l.operations (n + 1) pc = Lowered.skipData l.operations n (pc + 1) := by
  rw [Lowered.skipData, h.data ho]

end LowersTo

/-- The interpreter decodes an instruction to the operation that stands in lowered code. -/
theorem LowersTo.decode_eq (h : p.LowersTo l) {pc : Nat} {w : UInt32} {op : Opcode}
    (hi : p.IsInstruction pc) (hw : p.code[pc]? = some w)
    (hop : (⟨w⟩ : Instruction).opcode? = some op) :
    p.decode pc w = .ok ⟨p.operationAt pc w op, pc + 1 + p.operandCount w⟩ := by
  obtain ⟨op', hop', hle, hbx, -⟩ := h.instruction hi hw
  obtain rfl : op = op' := Option.some.inj (hop.symm.trans hop')
  have hlt := hi.lt
  cases op with
  | setList =>
    have hcount : p.operandCount w = if (⟨w⟩ : Instruction).c = 0 then 1 else 0 := by
      simp [operandCount, hop]
    simp only [decode, hop, operationAt, ofInstruction, hcount]
    split_ifs with hc
    · rw [hcount, if_pos hc] at hle
      simp [List.head?_take, List.head?_drop, List.headD_eq_head?_getD]
    · rfl
  | closure =>
    simp only [decode, hop]
    obtain ⟨child, hchild⟩ : ∃ child, p.children[(⟨w⟩ : Instruction).bx]? = some child :=
      ⟨_, List.getElem?_eq_getElem (hbx rfl)⟩
    have hcount : p.operandCount w = child.upvalueCount.toNat := by
      simp [operandCount, hop, hchild]
    rw [hchild]
    dsimp only
    rw [if_neg (by omega)]
    simp [operationAt, ofInstruction, hcount, Array.toList_extract, List.extract_eq_take_drop]
  | _ =>
    have hcount : p.operandCount w = 0 := by simp [operandCount, hop]
    simp [decode, hop, operationAt, ofInstruction, hcount]

namespace LowersTo

variable {pc : Nat} {w : UInt32} {op : Opcode}

theorem operation_eq (h : p.LowersTo l) (hi : p.IsInstruction pc) (hw : p.code[pc]? = some w)
    (hop : (⟨w⟩ : Instruction).opcode? = some op) :
    l.operations[pc]? = some (p.operationAt pc w op) := by
  obtain ⟨op', hop', -, -, hoper, -⟩ := h.instruction hi hw
  obtain rfl : op = op' := Option.some.inj (hop.symm.trans hop')
  exact hoper

theorem isInstruction_target (h : p.LowersTo l) (hi : p.IsInstruction pc)
    (hw : p.code[pc]? = some w) (hop : (⟨w⟩ : Instruction).opcode? = some op) {t : Nat}
    (ht : t ∈ (p.operationAt pc w op).targets pc) : p.IsInstruction t := by
  obtain ⟨op', hop', -, -, -, htargets⟩ := h.instruction hi hw
  obtain rfl : op = op' := Option.some.inj (hop.symm.trans hop')
  exact htargets t ht

theorem operandCount_le (h : p.LowersTo l) (hi : p.IsInstruction pc) (hw : p.code[pc]? = some w) :
    pc + 1 + p.operandCount w ≤ p.code.size := by
  obtain ⟨_, -, hle, -⟩ := h.instruction hi hw
  exact hle

/-- Lowered code goes on behind the operand words of an instruction. -/
theorem after_eq (h : p.LowersTo l) (hi : p.IsInstruction pc) (hw : p.code[pc]? = some w)
    (hop : (⟨w⟩ : Instruction).opcode? = some op) (hlt : pc + 1 + p.operandCount w < p.code.size) :
    l.after pc (p.operationAt pc w op) = pc + 1 + p.operandCount w := by
  have hnext := hi.next hw hlt
  cases op with
  | setList =>
    have hcount : p.operandCount w = if (⟨w⟩ : Instruction).c = 0 then 1 else 0 := by
      simp [operandCount, hop]
    simp only [operationAt, ofInstruction, Lowered.after, Lowered.fallthrough, h.size]
    split_ifs at hcount with hc
    · rw [hcount] at hnext hlt ⊢
      obtain ⟨n, hn⟩ : ∃ n, p.code.size - (pc + 1) = n + 1 + 1 :=
        ⟨p.code.size - (pc + 3), by omega⟩
      have ho := hi.isOperand hw (i := 0) (by omega) (by omega)
      rw [hn, h.skipData_data ho, h.skipData_eq hnext (by omega)]
      rfl
    · rw [hcount] at hnext hlt ⊢
      rw [h.skipData_eq hnext (by omega)]
      rfl
  | closure =>
    have hle := h.operandCount_le hi hw
    simp only [operationAt, ofInstruction, Lowered.after, List.length_map, List.length_take,
      List.length_drop, Array.length_toList]
    omega
  | _ =>
    have hcount : p.operandCount w = 0 := by simp [operandCount, hop]
    simp [operationAt, ofInstruction, Lowered.after, hcount]

/-- Where nothing follows the batch word of a `SETLIST`, lowered code goes on with that word. -/
theorem after_of_batch (h : p.LowersTo l) (hi : p.IsInstruction pc) (hw : p.code[pc]? = some w)
    (hop : (⟨w⟩ : Instruction).opcode? = some .setList) (hc : (⟨w⟩ : Instruction).c = 0)
    (hlast : pc + 2 = p.code.size) : l.after pc (p.operationAt pc w .setList) = pc + 1 := by
  have hcount : p.operandCount w = 1 := by simp [operandCount, hop, hc]
  have ho := hi.isOperand hw (i := 0) (by omega) (by omega)
  simp only [operationAt, ofInstruction, Lowered.after, Lowered.fallthrough, h.size]
  rw [show p.code.size - (pc + 1) = 0 + 1 by omega, h.skipData_data ho]
  rfl

/-- Where nothing follows an instruction, lowered code holds no operation to go on with. -/
theorem after_of_last (h : p.LowersTo l) (hi : p.IsInstruction pc) (hw : p.code[pc]? = some w)
    (hop : (⟨w⟩ : Instruction).opcode? = some op) (hlt : p.code.size = pc + 1 + p.operandCount w) :
    l.operations[l.after pc (p.operationAt pc w op)]? = none ∨
      l.operations[l.after pc (p.operationAt pc w op)]? = some .data := by
  cases op with
  | setList =>
    have hcount : p.operandCount w = if (⟨w⟩ : Instruction).c = 0 then 1 else 0 := by
      simp [operandCount, hop]
    split_ifs at hcount with hc
    · right
      rw [h.after_of_batch hi hw hop hc (by omega)]
      exact h.data (hi.isOperand hw (i := 0) (by omega) (by omega))
    · left
      simp only [operationAt, ofInstruction, Lowered.after, Lowered.fallthrough, h.size]
      rw [show p.code.size - (pc + 1) = 0 by omega]
      exact h.getElem?_eq_none (by simp [Lowered.skipData]; omega)
  | closure =>
    left
    apply h.getElem?_eq_none
    simp only [operationAt, ofInstruction, Lowered.after, List.length_map, List.length_take,
      List.length_drop, Array.length_toList]
    omega
  | _ =>
    left
    have hcount : p.operandCount w = 0 := by simp [operandCount, hop]
    apply h.getElem?_eq_none
    simp [operationAt, ofInstruction, Lowered.after]
    omega

end LowersTo

/-! Checked code can be lowered -/

section

variable {pc : Nat} {w : UInt32} {rest : List UInt32} {foot : Footprint} {op : Opcode}

/-- A checked instruction has edges. -/
theorem exists_edges (hop : (⟨w⟩ : Instruction).opcode? = some op)
    (h : Verifier.instruction p pc ⟨w⟩ rest = .ok foot) : ∃ es, edges p pc ⟨w⟩ op = .ok es := by
  cases op with
  | jmp | forLoop | forPrep =>
    simp only [instruction, hop, check_eq_ok, target_bind_eq_ok] at h
    exact ⟨_, edge_eq_ok.2 ⟨by simp [h], rfl⟩⟩
  | loadBool =>
    simp only [instruction, hop, check_eq_ok] at h
    obtain ⟨-, h⟩ := h
    simp only [edges]
    split_ifs at h ⊢ with hc
    · exact ⟨_, rfl⟩
    · rw [target_bind_eq_ok] at h
      exact ⟨_, edge_eq_ok.2 ⟨h.1, rfl⟩⟩
  | eq | lt | le | test | testSet | tForLoop =>
    simp only [instruction, hop, check_eq_ok, target_bind_eq_ok] at h
    exact ⟨_, edge_eq_ok.2 ⟨by simp [h], rfl⟩⟩
  | _ => exact ⟨[], rfl⟩

/-- A checked instruction has its operand words. -/
theorem exists_operandWords (hop : (⟨w⟩ : Instruction).opcode? = some op)
    (h : Verifier.instruction p pc ⟨w⟩ rest = .ok foot) :
    ∃ words, operandWords p pc ⟨w⟩ op rest = .ok words := by
  have hlen := (operands_of_instruction hop h).2
  have hcount := (operands_of_instruction hop h).1
  cases op with
  | setList =>
    simp only [operandWords]
    split_ifs with hc
    · cases rest with
      | nil => simp_all [operandCount]
      | cons v rest => exact ⟨_, rfl⟩
    · exact ⟨_, rfl⟩
  | closure =>
    obtain ⟨-, child, hchild, -, hle, -⟩ := child_of_instruction hop h
    simp only [operandWords, hchild, if_pos hle]
    exact ⟨_, rfl⟩
  | _ => exact ⟨[], rfl⟩

end

/-- Where the verifier's scan succeeds, so does that of lowering, with edges to the same targets. -/
theorem exists_scan {pc n : Nat} {ws : List UInt32} {sv : Verifier.Scan}
    (h : Verifier.scan p pc n ws = .ok sv) :
    ∃ s, Lowering.scan p pc n ws = .ok s ∧ s.edges.map (·.target) = sv.targets ∧
      ∀ e ∈ s.edges, e.target < p.code.size := by
  induction ws generalizing pc n sv with
  | nil =>
    obtain rfl : (⟨[], []⟩ : Verifier.Scan) = sv := by simpa [Verifier.scan] using h
    exact ⟨{}, rfl, rfl, by simp⟩
  | cons w ws ih =>
    cases n with
    | succ n =>
      obtain ⟨sv', hsv, rfl⟩ := Verifier.scan_cons_pending h
      obtain ⟨s, hs, ht⟩ := ih hsv
      refine ⟨{ s with operations := .data :: s.operations }, ?_, ht⟩
      rw [Lowering.scan, hs]
      rfl
    | zero =>
      obtain ⟨foot, sv', hfoot, hsv, rfl⟩ := Verifier.scan_cons_instruction h
      obtain ⟨op, hop⟩ := exists_opcode_of_instruction hfoot
      obtain ⟨es, hes⟩ := exists_edges hop hfoot
      obtain ⟨words, hwords⟩ := exists_operandWords hop hfoot
      obtain ⟨rfl, hle, -⟩ := operandWords_eq_ok hop hwords
      rw [(operands_of_instruction hop hfoot).1] at hsv
      obtain ⟨s, hs, ht, hrange⟩ := ih hsv
      obtain ⟨heq, hes'⟩ := targets_of_edges hes 0 []
      refine ⟨{
        operations := .ofInstruction ⟨w⟩ op pc ((ws.take (p.operandCount w)).headD 0).toNat
          ((ws.take (p.operandCount w)).map Capture.ofWord) :: s.operations
        edges := es ++ s.edges
        entries := reentry p pc op ++ s.entries }, ?_, ?_, ?_⟩
      · simp only [Lowering.scan, hop, hes, hwords]
        show Except.bind (Lowering.scan p (pc + 1) (List.take _ ws).length ws) _ = _
        rw [List.length_take_of_le hle, hs]
        rfl
      · rw [List.map_append, ht, heq, (targets_of_instruction hop hfoot 0 []).1]
      · intro e he
        exact (List.mem_append.1 he).elim (hes' e) (hrange e)

/-- Checked code can be lowered. -/
theorem Verified.exists_lower (h : p.Verified) : ∃ l, p.lower = .ok l := by
  have hfun := (verified_iff.1 h).1
  rw [function, check_eq_ok, bind_eq_ok] at hfun
  obtain ⟨-, sv, hsv, htargets⟩ := hfun
  obtain ⟨s, hs, ht, hrange⟩ := exists_scan hsv
  have hcode : ¬ p.code.isEmpty = true := by
    have hpos := h.checked.code
    rw [Array.isEmpty_iff_size_eq_zero]
    omega
  have hedges : (s.edges.forM fun e =>
      if s.operations.toArray[e.target]? = some .data then
        (throw (.malformed e.source (.operandTarget e.target)) : Except CompileError Unit)
      else pure ()) = .ok () := by
    rw [forM_eq_ok]
    intro e he
    have hmem : e.target ∈ sv.targets := ht ▸ List.mem_map_of_mem he
    have hcheck := forM_eq_ok.1 htargets _ hmem
    rw [at_eq_ok, require_eq_ok, operands_of_scan hsv, decide_eq_true_eq] at hcheck
    have hi := (isInstruction_or_isOperand (hrange e he)).resolve_right hcheck
    obtain ⟨w, hw⟩ := hi.exists_word
    obtain ⟨op, -, -, -, -, -, -, hoper⟩ := operation_of_scan hs hi (w := w) (by simpa using hw)
    rw [List.getElem?_toArray, hoper, if_neg]
    · rfl
    · simp [ofInstruction_ne_data]
  rw [lower]
  simp only [hcode, Bool.false_eq_true, if_false, hs]
  exact ⟨_, bind_eq_ok.2 ⟨_, rfl, check_eq_ok.2 ⟨hedges, rfl⟩⟩⟩

end Prototype

end LuaMachine
