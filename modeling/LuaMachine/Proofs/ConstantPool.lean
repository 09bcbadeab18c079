import Mathlib.Data.List.Basic
import Mathlib.Tactic
import LuaMachine.Assembler

/-!
The constant pool of an assembler. It only grows and holds every constant once, so the place of a constant
never changes. The index that is handed out for a constant is its place; an RK operand has eight bits for it,
and names the constant only if its place is below 256.
-/

namespace LuaMachine

namespace Instruction

/-- An operand for a constant still is one in the nine bits of `B` or `C`. -/
theorem isConstant_ofConstant (i : Nat) : isConstant (ofConstant i % 512) = true := by
  by_cases h : i / 256 % 2 = 1
  · simp only [ofConstant, isConstant, constantBit, h, beq_self_eq_true, if_true, beq_iff_eq]
    omega
  · simp only [ofConstant, isConstant, constantBit, beq_iff_eq, h, if_false]
    omega

/-- Eight bits of the index are left there. -/
theorem constantIndex_ofConstant (i : Nat) : constantIndex (ofConstant i % 512) = i % 256 := by
  rw [constantIndex, if_pos (isConstant_ofConstant i)]
  by_cases h : i / 256 % 2 = 1
  · simp only [ofConstant, isConstant, constantBit, h, beq_self_eq_true, if_true]
    omega
  · simp only [ofConstant, isConstant, constantBit, beq_iff_eq, h, if_false]
    omega

end Instruction

/-- An RK operand names a constant of a prototype. -/
structure Prototype.Names (p : Prototype) (x : Nat) (k : Constant) : Prop where
  isConstant : Instruction.isConstant x = true
  constant : p.constants[Instruction.constantIndex x]? = some k

namespace Assembler

/-- What an assembler can be asked for. -/
inductive Request
  | params (n : UInt8)
  | vararg (flags : UInt8)
  | maxStack (n : UInt8)
  | upvalues (n : UInt8)
  | extent (defined last : UInt32)
  | atLine (n : UInt32)
  | localVariable (name : String) (startPc endPc : UInt32)
  | constant (k : Constant)
  | rk (k : Constant)
  | child (p : Prototype)
  | pc
  | emit (i : Instruction)
  | jump
  | patch (place target : Nat)

/-- Does what it is asked for, and gives the number that it returns, if it returns one. -/
def Request.perform : Request → Assembler → Option Nat × Assembler
  | params n, s => (none, s.params n)
  | vararg flags, s => (none, s.vararg flags)
  | maxStack n, s => (none, s.maxStack n)
  | upvalues n, s => (none, s.upvalues n)
  | extent defined last, s => (none, s.extent defined last)
  | atLine n, s => (none, s.atLine n)
  | localVariable name startPc endPc, s => (none, s.localVariable name startPc endPc)
  | constant k, s => (s.constant k).map some id
  | rk k, s => (s.rk k).map some id
  | child p, s => (s.child p).map some id
  | pc, s => (some s.pc, s)
  | emit i, s => (s.emit i).map some id
  | jump, s => s.jump.map some id
  | patch place target, s => (none, s.patch place target)

/-- Requests one after the other: what each of them returned, and the assembler in the end. -/
def assemble : List Request → Assembler → List (Option Nat) × Assembler
  | [], s => ([], s)
  | r :: rs, s =>
    let (answer, s) := r.perform s
    let (answers, s) := assemble rs s
    (answer :: answers, s)

/-- The constant that a request is for. -/
def Request.constant? : Request → Option Constant
  | constant k | rk k => some k
  | _ => none

/-- What a request for a constant at a place of the pool returns. -/
def Request.answerAt (i : Nat) : Request → Nat
  | rk _ => Instruction.ofConstant (index i)
  | _ => index i

def pool (s : Assembler) : List Constant := s.proto.constants.toList

/-- Where a constant of the pool stands in it. -/
def place (s : Assembler) (k : Constant) : Nat := s.pool.idxOf k

/-- A pool to which a constant is added if it is new. -/
def pooled (ks : List Constant) (k : Constant) : List Constant := if k ∈ ks then ks else ks ++ [k]

variable {s s' : Assembler} {ks : List Constant} {k : Constant} {r : Request} {rs : List Request} {n : Nat}

theorem mem_pooled (ks : List Constant) (k : Constant) : k ∈ pooled ks k := by
  unfold pooled
  split
  · assumption
  · simp

theorem prefix_pooled (ks : List Constant) (k : Constant) : ks <+: pooled ks k := by
  unfold pooled
  split
  · exact List.prefix_rfl
  · exact List.prefix_append ks [k]

theorem nodup_pooled (h : ks.Nodup) (k : Constant) : (pooled ks k).Nodup := by
  unfold pooled
  split
  · exact h
  · next hnew => exact List.nodup_append'.2 ⟨h, List.nodup_singleton k, by simpa using hnew⟩

/-- A constant keeps its place while the pool grows. -/
theorem place_of_grown (h : s.pool <+: s'.pool) (hk : k ∈ s.pool) : s'.place k = s.place k := by
  obtain ⟨new, hnew⟩ := h
  rw [place, ← hnew, List.idxOf_append_of_mem hk, ← place]

/-- It stands at this place only, as there are no duplicates. -/
theorem getElem?_constants_iff (h : s.pool.Nodup) (hk : k ∈ s.pool) (i : Nat) :
    s.proto.constants[i]? = some k ↔ i = s.place k := by
  rw [← Array.getElem?_toList, ← pool, place]
  constructor
  · intro hget
    obtain ⟨hlt, rfl⟩ := List.getElem?_eq_some_iff.1 hget
    exact (h.idxOf_getElem i hlt).symm
  · rintro rfl
    exact List.getElem?_idxOf hk

/-! One request -/

theorem constant_eq (s : Assembler) (k : Constant) :
    (s.constant k).2.pool = pooled s.pool k ∧ (s.constant k).1 = index ((pooled s.pool k).idxOf k) := by
  have hfind : s.proto.constants.findIdx? (· == k) = s.pool.idxOf? k :=
    List.findIdx?_toArray (· == k) s.pool
  unfold constant
  rw [hfind]
  cases h : s.pool.idxOf? k with
  | some i =>
    have hi : s.pool.idxOf k = i := by rw [List.idxOf_eq_getD_idxOf?, h, Option.getD_some]
    have hk : k ∈ s.pool := List.isSome_idxOf?.1 (by rw [h]; rfl)
    rw [pooled, if_pos hk, hi]
    exact ⟨rfl, rfl⟩
  | none =>
    have hk : k ∉ s.pool := List.idxOf?_eq_none_iff.1 h
    rw [pooled, if_neg hk, List.idxOf_append_of_notMem hk, List.idxOf_cons_self]
    exact ⟨Array.toList_push, rfl⟩

theorem index_constant (s : Assembler) (k : Constant) : (s.constant k).1 = index ((s.constant k).2.place k) := by
  rw [place, (s.constant_eq k).1, (s.constant_eq k).2]

theorem pool_patch (s : Assembler) (place target : Nat) : (s.patch place target).pool = s.pool := by
  unfold patch
  split
  · rfl
  · split <;> rfl

/-- A request adds the constant that it is for to the pool. -/
theorem pool_perform (r : Request) (s : Assembler) :
    (r.perform s).2.pool = r.constant?.elim s.pool (pooled s.pool) := by
  cases r with
  | constant k | rk k => exact (s.constant_eq k).1
  | patch place target => exact s.pool_patch place target
  | _ => rfl

/-- It returns what belongs to the place of the constant. -/
theorem answer_perform (hk : r.constant? = some k) (s : Assembler) :
    (r.perform s).1 = some (r.answerAt ((r.perform s).2.place k)) := by
  cases r with
  | constant k' =>
    obtain rfl := Option.some.inj hk
    exact congrArg some (s.index_constant k')
  | rk k' =>
    obtain rfl := Option.some.inj hk
    exact congrArg (some <| Instruction.ofConstant ·) (s.index_constant k')
  | _ => cases hk

theorem mem_pool_perform (hk : r.constant? = some k) (s : Assembler) : k ∈ (r.perform s).2.pool := by
  rw [pool_perform, hk]
  exact mem_pooled s.pool k

theorem pool_grows (r : Request) (s : Assembler) : s.pool <+: (r.perform s).2.pool := by
  rw [pool_perform]
  cases r.constant? with
  | none => exact List.prefix_rfl
  | some k => exact prefix_pooled s.pool k

theorem nodup_perform (h : s.pool.Nodup) (r : Request) : (r.perform s).2.pool.Nodup := by
  rw [pool_perform]
  cases r.constant? with
  | none => exact h
  | some k => exact nodup_pooled h k

/-! All requests -/

theorem pool_grows_to (rs : List Request) (s : Assembler) : s.pool <+: (assemble rs s).2.pool := by
  induction rs generalizing s with
  | nil => exact List.prefix_rfl
  | cons r rs ih => exact (pool_grows r s).trans (ih _)

theorem nodup_assemble (h : s.pool.Nodup) (rs : List Request) : (assemble rs s).2.pool.Nodup := by
  induction rs generalizing s with
  | nil => exact h
  | cons r rs ih => exact ih (nodup_perform h r)

/-- What was returned for a constant belongs to its place in the pool of the end. -/
theorem answer_assemble (hr : rs[n]? = some r) (hk : r.constant? = some k) (s : Assembler) :
    k ∈ (assemble rs s).2.pool ∧
      (assemble rs s).1[n]? = some (some (r.answerAt ((assemble rs s).2.place k))) := by
  induction rs generalizing n s with
  | nil => cases hr
  | cons r' rs ih =>
    cases n with
    | zero =>
      obtain rfl := Option.some.inj hr
      have hgrown := pool_grows_to rs (r'.perform s).2
      have hmem := mem_pool_perform hk s
      refine ⟨hgrown.subset hmem, congrArg some ((answer_perform hk s).trans ?_)⟩
      rw [← place_of_grown hgrown hmem]
      rfl
    | succ n => exact ih hr _

/-! The prototype in the end -/

/-- An assembler that has not been asked for anything. -/
def start (main : Bool) (source : String) : Assembler := if main then mainChunk source else function source

theorem pool_start (main : Bool) (source : String) : (start main source).pool = [] := by
  cases main <;> rfl

theorem index_mod (i : Nat) : index i % 256 = i % 256 := Nat.mod_mod_of_dvd i (by decide)

theorem index_eq_iff (i : Nat) : index i = i ↔ i < 2 ^ 32 := Nat.mod_eq_iff_lt (by decide)

theorem constantIndex_operand (s : Assembler) (k : Constant) :
    Instruction.constantIndex (Instruction.ofConstant (index (s.place k)) % 512) = s.place k % 256 := by
  rw [Instruction.constantIndex_ofConstant, index_mod]

/-- An operand that went through a field names the constant at a place if eight bits are enough for the
place. -/
theorem names_iff (h : s.pool.Nodup) (hk : k ∈ s.pool) :
    s.proto.Names (Instruction.ofConstant (index (s.place k)) % 512) k ↔ s.place k < 256 := by
  have hindex := s.constantIndex_operand k
  rw [← Nat.mod_eq_iff_lt (by decide), ← getElem?_constants_iff h hk, ← hindex]
  exact ⟨fun h => h.constant, fun h => ⟨Instruction.isConstant_ofConstant _, h⟩⟩

/-- Whatever an assembler was asked for, the pool in the end holds every constant once, and all that was
returned for a constant goes by its place there. An index is that place while it fits a word. An RK operand
in a field of an instruction names the constant at the last eight bits of the place, so it names the one that
was asked for exactly if this is among the first 256. -/
theorem operands_name_constants (main : Bool) (source : String) (rs : List Request) :
    let run := assemble rs (start main source)
    let s := run.2
    s.proto.constants.toList.Nodup ∧
      (∀ (n : Nat) k, rs[n]? = some (Request.constant k) →
        s.proto.constants[s.place k]? = some k ∧ run.1[n]? = some (some (index (s.place k))) ∧
          (s.proto.constants[index (s.place k)]? = some k ↔ s.place k < 2 ^ 32)) ∧
      ∀ (n : Nat) k, rs[n]? = some (Request.rk k) →
        s.proto.constants[s.place k]? = some k ∧ ∃ x, run.1[n]? = some (some x) ∧
          x = Instruction.ofConstant (index (s.place k)) ∧ ∀ op a b c,
            (Instruction.constantIndex (Instruction.abc op a x c).b = s.place k % 256 ∧
              (s.proto.Names (Instruction.abc op a x c).b k ↔ s.place k < 256)) ∧
            (Instruction.constantIndex (Instruction.abc op a b x).c = s.place k % 256 ∧
              (s.proto.Names (Instruction.abc op a b x).c k ↔ s.place k < 256)) := by
  intro run s
  have hnodup : s.pool.Nodup := nodup_assemble (by rw [pool_start]; exact .nil) rs
  refine ⟨hnodup, fun n k hr => ?_, fun n k hr => ?_⟩
  · obtain ⟨hk, hn⟩ := answer_assemble hr rfl (start main source)
    have hplace := getElem?_constants_iff hnodup hk
    exact ⟨(hplace _).2 rfl, hn, (hplace _).trans (index_eq_iff _)⟩
  · obtain ⟨hk, hn⟩ := answer_assemble hr rfl (start main source)
    refine ⟨(getElem?_constants_iff hnodup hk _).2 rfl, _, hn, rfl, fun op a b c => ?_⟩
    rw [Instruction.b_abc, Instruction.c_abc]
    have hindex := s.constantIndex_operand k
    have hnames := names_iff hnodup hk
    exact ⟨⟨hindex, hnames⟩, hindex, hnames⟩

/-- Constants that are new go to the end of the pool. -/
theorem pool_assemble_new (h : (s.pool ++ ks).Nodup) (hrs : rs.map Request.constant? = ks.map some) :
    (assemble rs s).2.pool = s.pool ++ ks := by
  induction rs generalizing s ks with
  | nil =>
    obtain rfl := List.map_eq_nil_iff.1 hrs.symm
    exact (List.append_nil _).symm
  | cons r rs ih =>
    cases ks with
    | nil => cases hrs
    | cons k ks =>
      obtain ⟨hk, hrs⟩ := List.cons.inj hrs
      have hnew : k ∉ s.pool := fun hmem => List.disjoint_of_nodup_append h hmem List.mem_cons_self
      have hpool : (r.perform s).2.pool = s.pool ++ [k] := by
        rw [pool_perform, hk, Option.elim_some, pooled, if_neg hnew]
      have hsplit : s.pool ++ k :: ks = (r.perform s).2.pool ++ ks := by
        rw [hpool, List.append_assoc, List.singleton_append]
      rw [hsplit]
      exact ih (hsplit ▸ h) hrs

/-- As many numerals as an RK operand can tell apart. -/
def numerals : List Constant := (List.range 256).map fun i => .numeral i.toUInt64

/-- Asks for operands for them, and for one more. -/
def crowd : List Request := numerals.map .rk ++ [.rk (.str "late")]

theorem getElem?_crowd : crowd[256]? = some (.rk (.str "late")) := by
  have hlength : (numerals.map Request.rk).length = 256 := by simp [numerals]
  rw [crowd, List.getElem?_append_right hlength.le, hlength]
  rfl

theorem place_late : (assemble crowd (start true "=crowd")).2.place (.str "late") = 256 := by
  have hlate : Constant.str "late" ∉ numerals := by simp [numerals]
  have hnodup : (numerals ++ [Constant.str "late"]).Nodup := by
    refine List.nodup_append'.2 ⟨List.nodup_range.map_on fun i hi j hj h => ?_, List.nodup_singleton _, by simpa⟩
    have hij := congrArg UInt64.toNat (Constant.numeral.inj h)
    rw [List.mem_range] at hi hj
    rw [UInt64.toNat_ofNat', UInt64.toNat_ofNat'] at hij
    omega
  have hcrowd : crowd.map Request.constant? = (numerals ++ [Constant.str "late"]).map some := by
    simp [crowd, Request.constant?]
  have hpool := pool_assemble_new (s := start true "=crowd") (by rwa [pool_start]) hcrowd
  rw [place, hpool, pool_start, List.nil_append, List.idxOf_append_of_notMem hlate, List.idxOf_cons_self]
  simp [numerals]

/-- The operand for the last constant names the first one. -/
theorem operands_name_constants_crowd :
    crowd[256]? = some (.rk (.str "late")) ∧
      ∃ run, assemble crowd (start true "=crowd") = run ∧ run.2.proto.constants[256]? = some (.str "late") ∧
        ∃ x, run.1[256]? = some (some x) ∧ Instruction.constantIndex (Instruction.abc .self 0 0 x).c = 0 ∧
          ¬ run.2.proto.Names (Instruction.abc .self 0 0 x).c (.str "late") := by
  obtain ⟨-, -, hnames⟩ := operands_name_constants true "=crowd" crowd
  obtain ⟨hconstant, x, hx, -, hfield⟩ := hnames 256 _ getElem?_crowd
  obtain ⟨-, hindex, hiff⟩ := hfield .self 0 0 0
  rw [place_late] at hconstant hindex hiff
  -- what the requests are does not matter from here on, and computing them takes long
  generalize assemble crowd (start true "=crowd") = run at hconstant hx hindex hiff ⊢
  exact ⟨getElem?_crowd, run, rfl, hconstant, x, hx, hindex, fun h => absurd (hiff.1 h) (by decide)⟩

end Assembler

end LuaMachine
