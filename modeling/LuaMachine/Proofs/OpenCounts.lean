import LuaMachine.Proofs.Transparency

/-!
Open counts. An operation that takes all values up to the top finds the top above its first register,
unless too few values were left open before it. Checked code may do that.
-/

namespace LuaMachine

namespace Prototype

variable {p : Prototype} {pc after taken r : Nat}

/-- At `pc` is an operation that takes all values above a register. -/
def TakesAbove (p : Prototype) (pc taken : Nat) : Prop :=
  ∃ op after, p.Decodes pc op after ∧ op.takes = some taken

/-- Values are only left open above the register from which they are taken. -/
def Balanced (p : Prototype) : Prop :=
  ∀ {pc taken r}, p.TakesAbove pc taken → p.OpenAt r pc → taken < r

theorem OpenAt.exists_opens (h : p.OpenAt r pc) :
    ∃ pc op after, p.Decodes pc op after ∧ op.opens = some r := by
  induction h with
  | opened h hop _ => exact ⟨_, _, _, h, hop⟩
  | kept _ _ _ _ _ ih => exact ih

end Prototype

/-- An operation that takes all values up to the top finds it above its first register. -/
def Moment.CountsHold : Moment → Prop
  | takeUp _ => True
  | step a m _ => ∀ f ∈ a.fetch?, ∀ taken ∈ f.operation.takes,
      a.window.base + taken + 1 ≤ m.running.top

/-- Then the count of the values is their number. -/
theorem Moment.CountsHold.openCount {a : Activation} {m : Machine} {r : Outcome (Option Activation)}
    (h : (step a m r).CountsHold) {f : Fetched} (hf : a.fetch? = some f) {taken : Nat}
    (htaken : f.operation.takes = some taken) :
    ∃ n, a.window.openCount taken m = .ok n m ∧ a.window.base + taken + 1 + n = m.running.top := by
  have hle := h f hf taken htaken
  refine ⟨m.running.top - (a.window.base + taken + 1), ?_, Nat.add_sub_cancel' hle⟩
  simp only [Window.openCount, Action.bind_apply, Action.view_apply, if_neg (Nat.not_lt.2 hle),
    Nat.sub_sub]
  rfl

/-- An operation of the program takes all values up to the top, which were left open from a register
that is not above the one from which they are taken, and there are too few of them. -/
def Moment.FallsShort (U : Prototype → Prop) : Moment → Prop
  | takeUp _ => False
  | step a m _ => U a.window.closure.proto ∧ ∃ taken r,
      a.window.closure.proto.TakesAbove a.pc taken ∧ a.window.closure.proto.OpenAt r a.pc ∧
        a.window.base + r ≤ m.running.top ∧ m.running.top ≤ a.window.base + taken

instance : DecidablePred Moment.CountsHold := fun t =>
  match t with
  | .takeUp _ => .isTrue trivial
  | .step a m _ => inferInstanceAs (Decidable (∀ f ∈ a.fetch?, ∀ taken ∈ f.operation.takes,
      a.window.base + taken + 1 ≤ m.running.top))

open Setting

variable {S : Setting} {m : Machine} {depth : Nat} {a : Activation} {below : List Frame} {f : Frame}
  {c : ClosureId}

theorem Setting.AtWork.counts (hS : S.Valid) (hm : S.Sound m) (h : S.AtWork depth a m below f c)
    (r : Outcome (Option Activation)) :
    (Moment.step a m r).CountsHold ∨ (Moment.step a m r).FallsShort S.program := by
  rcases h.place with hi | ⟨-, hnone⟩
  swap
  · left
    intro fetched hfetch
    simp [hnone] at hfetch
  have hproto := h.proto_eq
  have hpoised := (h.poised.resolve_right fun hoff => hoff.not_isInstruction (hproto ▸ hi)).2
  obtain ⟨word, op, after, hw, hop, hfetch, -⟩ := h.fetches hS hm rfl hi
  have hfits := (hS.program.verified (h.program hm)).checked.fits hi hw hop
  have hmem : f ∈ m.running.frames := Array.mem_of_back? (topFrame?_of_append h.frames)
  obtain ⟨-, hframe, -⟩ := hm.running f hmem c h.closure
  by_cases hcounts : (Moment.step a m r).CountsHold
  · exact .inl hcounts
  simp only [Moment.CountsHold, not_forall, Nat.not_le] at hcounts
  obtain ⟨fetched, hfetched, taken, htaken, hlt⟩ := hcounts
  obtain rfl := Option.some.inj (hfetch.symm.trans hfetched)
  have hregister := Operation.lt_maxStack_of_takes hfits htaken
  have htop := hframe.top
  have hbase := h.base
  -- the registers end above the one taken from, so only a top that was left open can be too far down
  rcases hpoised with hend | ⟨r', hopen, hr⟩
  · omega
  · right
    rw [Moment.FallsShort, hproto, hbase]
    refine ⟨h.program hm, taken, r', ⟨_, _, ⟨hi, word, op, hw, hop, rfl, rfl⟩, htaken⟩, hopen, hr, ?_⟩
    omega

variable {U : Prototype → Prop} {embedding : Embedding} {α : Type} {k : Bool}

/-- Whatever is run from a fresh machine over verified prototypes, all values up to the top are taken
only where the top is above the first register, until values that were left open fall short; in
balanced programs they never do. -/
theorem verified_counts (hU : IsProgram U) (hembedding : ∀ name, Routine U true (embedding name))
    (hm : m.Fresh) {drive : Run → Action α} (hdrive : Routine U k drive) (fuel : Nat) :
    Always embedding (fun t => t.CountsHold ∨ t.FallsShort U) fuel drive m ∧
      ((∀ p, U p → p.Balanced) → Always embedding Moment.CountsHold fuel drive m) := by
  have hseen : Always embedding (fun t => t.CountsHold ∨ t.FallsShort U) fuel drive m := by
    refine always_of_seen hU hembedding hdrive (hm.sound U true) (.inl rfl)
      fun S hS hprogram _ t ht => ?_
    cases t with
    | takeUp m => exact .inl trivial
    | step a m r =>
      obtain ⟨hm, ⟨depth, below, f, c, h⟩, -⟩ := ht
      exact hprogram ▸ h.counts hS hm r
  refine ⟨hseen, fun hbalanced => hseen.imp fun t ht => ht.resolve_right fun hshort => ?_⟩
  cases t with
  | takeUp m => exact hshort
  | step a m r =>
    obtain ⟨hp, taken, r, htakes, hopen, hle, hge⟩ := hshort
    have hlt := hbalanced _ hp htakes hopen
    omega

/-! Code that gathers its arguments in a table, and code that leaves them below the table -/

def Prototype.gather : Prototype :=
  { Prototype.empty "=gather" with
    varargFlags := 2
    code := #[(Instruction.abc .newTable 0 0 0).word, (Instruction.abc .vararg 1 0 0).word,
      (Instruction.abc .setList 0 0 1).word, (Instruction.abc .ret 0 2 0).word] }

def Prototype.stray : Prototype :=
  { Prototype.empty "=stray" with
    varargFlags := 2
    code := #[(Instruction.abc .newTable 1 0 0).word, (Instruction.abc .vararg 0 0 0).word,
      (Instruction.abc .setList 1 0 1).word, (Instruction.abc .ret 0 1 0).word] }

namespace Prototype

theorem gather_verified : gather.Verified := rfl

theorem gather_operations {pc after : Nat} {op : Operation} (h : gather.Decodes pc op after) :
    op ∈ ([.newTable 0 0 0, .vararg 1 0, .setList 0 0 1, .ret 0 2] : List Operation) := by
  obtain ⟨-, w, opcode, hw, hopcode, rfl, -⟩ := h
  have hlt : pc < 4 := (Array.getElem?_eq_some_iff.1 hw).1
  interval_cases pc
  all_goals
    obtain rfl := Option.some.inj hw
    obtain rfl := Option.some.inj hopcode
    decide

theorem gather_balanced : gather.Balanced := by
  rintro pc taken r ⟨op, after, h, htakes⟩ hopen
  obtain ⟨pc', op', after', h', hopens⟩ := hopen.exists_opens
  have htaken : taken = 0 := by
    have hop := gather_operations h
    simp only [List.mem_cons, List.not_mem_nil, or_false] at hop
    rcases hop with rfl | rfl | rfl | rfl <;> cases htakes
    rfl
  have hr : r = 1 := by
    have hop := gather_operations h'
    simp only [List.mem_cons, List.not_mem_nil, or_false] at hop
    rcases hop with rfl | rfl | rfl | rfl <;> cases hopens
    rfl
  omega

end Prototype

theorem verified_counts_gather :
    Always (fun _ _ => pure 0) Moment.CountsHold 9 (loadAndCall .gather [.nil]) Machine.bare := by
  refine (verified_counts (Prototype.gather_verified.isProgram (Prototype.coherent_of_children rfl))
    (fun _ => .pure 0) Machine.bare_fresh
    (.loadAndCall (k := false) Prototype.gather.contains_self [.nil]) 9).2 fun p hp => ?_
  rw [Prototype.eq_of_contains rfl hp]
  exact Prototype.gather_balanced

/-- An outcome of a machine that cannot go on because of an operand. -/
def Outcome.isCrash {α : Type} : Outcome α → Bool
  | .error .crash _ => true
  | _ => false

theorem counts_do_not_hold :
    Prototype.stray.Verified ∧
      ¬ Always (fun _ _ => pure 0) Moment.CountsHold 9 (loadAndCall .stray []) Machine.bare := by
  refine ⟨rfl, fun h => ?_⟩
  have hsame := h (fun t => if t.CountsHold then none else some .outOfFuel) fun t ht => if_pos ht
  have hcrash := congrArg Outcome.isCrash hsame
  revert hcrash
  decide +kernel

end LuaMachine
