import LuaMachine.Proofs.Upvalues

/-!
No upvalue is left open over the registers of a function that has ended, whether it returned, gave way to
another one, failed, or its coroutine died.
-/

namespace LuaMachine

/-- Nothing is open over the running strand from a slot on. -/
def Machine.ClosedFrom (m : Machine) (slot : Nat) : Prop := ∀ oc ∈ m.running.openCells, oc.slot < slot

/-- An action that opens no upvalue over the running strand. -/
def OpensNone {α : Type} (x : Action α) : Prop :=
  ∀ m, (Outcome.state (x m)).running.openCells ⊆ m.running.openCells

variable {m m' : Machine} {slot : Nat} {α β : Type}

namespace OpensNone

theorem bind {x : Action α} {f : α → Action β} (hx : OpensNone x) (hf : ∀ a, OpensNone (f a)) :
    OpensNone (x >>= f) := by
  intro m
  have hm := hx m
  rw [Action.bind_apply]
  cases hr : x m with
  | ok a m' =>
    rw [hr] at hm
    exact fun _ hoc => hm (hf a m' hoc)
  | error e m' =>
    rw [hr] at hm
    exact hm

theorem of_confined {x : Action α} (h : Confined (.between 0) (fun _ => False) x) : OpensNone x :=
  fun m _ hoc => ((h m 0 nofun fun _ _ => Nat.zero_le _).opened _ hoc).resolve_right id

protected theorem pushFrame (f : Frame) : OpensNone (pushFrame f) := fun _ _ => id

protected theorem leaveFrame (first n : Nat) : OpensNone (leaveFrame first n) := by
  intro m
  rw [leaveFrame_apply]
  cases m.topFrame? with
  | none => exact fun _ => id
  | some f =>
    have hmove : OpensNone (moveResults first n f) := .of_confined (.moveResults (Nat.zero_le _) fun _ => Nat.zero_le _)
    have hsettle : OpensNone (settleTop n f) := fun m => by
      obtain ⟨top, htop, -⟩ := settleTop_apply n f m
      rw [htop]
      exact fun _ => id
    rw [leaveFrom_some]
    exact hmove.bind (fun _ => hsettle) m.popped

protected theorem enterLua (c : ClosureId) (unit : Option CompiledUnit) (slot argCount : Nat)
    (wanted : Option Nat) (tail : Bool) : OpensNone (enterLua c unit slot argCount wanted tail) := by
  have hlay : Orderly ⟨fun _ => True, .between 0, true, true⟩ (layOutFrame c slot argCount) :=
    .layOutFrame c (Nat.zero_le _) argCount
  rw [enterLua_eq]
  exact (of_confined hlay.confined).bind fun _ => .pushFrame _

end OpensNone

namespace Machine.ClosedFrom

theorem of_subset (h : m.ClosedFrom slot) (hsub : m'.running.openCells ⊆ m.running.openCells) :
    m'.ClosedFrom slot :=
  fun oc hoc => h oc (hsub hoc)

theorem closed (m : Machine) (slot : Nat) :
    (m.modifyBoth fun h s => h.closeCells s slot).ClosedFrom slot := fun _ => slot_lt_of_closed

end Machine.ClosedFrom

/-- A function that returns leaves nothing open over its registers. -/
theorem closedFrom_ret (embedding : Embedding) (run : Run) (w : Window) (x y : Nat) (m : Machine) :
    (Outcome.state (perform embedding run w (.ret x y) m)).ClosedFrom w.base := by
  have hleave (n : Nat) : OpensNone (leaveFrame (w.base + x) n >>= fun _ => pure Flow.leave) :=
    (OpensNone.leaveFrame _ _).bind fun _ _ _ => id
  rw [perform_ret]
  exact (Machine.ClosedFrom.closed m w.base).of_subset (hleave _ _)

/-- Nor does one that gives way to another. -/
theorem closedFrom_replaceFrame {f : Frame} (hf : m.topFrame? = some f) (c : ClosureId)
    (unit : Option CompiledUnit) (slot argCount : Nat) :
    (Outcome.state (replaceFrame c unit slot argCount m)).ClosedFrom f.base := by
  obtain ⟨fs, hfs⟩ := topFrame?_eq_some.1 hf
  have hmove : OpensNone (moveCall slot argCount f) :=
    .of_confined (.moveCall (Nat.zero_le _) (Nat.zero_le _) argCount)
  rw [replaceFrame_of_append hfs]
  have hclosed : (m.vacated f.base).ClosedFrom f.base := Machine.ClosedFrom.closed m f.base
  exact hclosed.of_subset (hmove.bind (fun _ => .enterLua c unit f.slot argCount f.wanted true) _)

/-- Once the frames of a failed call are dropped nothing is open above where it began. -/
theorem closedFrom_unwound (m : Machine) (depth boundary : Nat) :
    (m.unwound depth boundary).ClosedFrom boundary :=
  Machine.ClosedFrom.closed m boundary

section

variable {U : Prototype → Prop} {honest strict : Bool} {embedding : Embedding} {ts : List CoroutineId}

/-- The frames of a call that failed lie above where it was placed. -/
theorem le_base_of_failed (hU : IsCatalog U)
    (hosts : ∀ name, Script ⟨U, .host, honest, strict⟩ (embedding name))
    (hm : m.Steady ⟨U, honest, fun _ => False⟩ ts) (hk : m.Kempt honest false)
    (hd : ts ≠ [] → 0 < m.depth) {fuel : Nat} {f : Value} {args : List Value} {e : Fault}
    (h : callValue (run embedding fuel) f args m = .error e m') (he : e.isFatal = false) :
    ∀ g ∈ m'.running.frames.toList.drop m.depth, m.callBase ≤ g.base := by
  let C : Custody := ⟨⟨U, honest, fun _ => False⟩, fun _ _ => False, false⟩
  have hminds : C.Minds (run embedding fuel) :=
    Custody.minds_run (C := C) hU (fun ⟨_, _, h⟩ => h) (fun _ => id) rfl hosts fuel
  have hcall : C.Tends m.nested m (callValue (run embedding fuel) f args m) :=
    callValue_tends hU hminds (fun _ _ => id) hm hd hk m.leased_nested le_rfl le_rfl f args []
  rw [h] at hcall
  have hleased : m'.Leased honest false m.nested := hcall.leased fun e' m'' heq => by
    rw [← (EStateM.Result.error.inj heq).1, he]
  exact fun g hg => (hleased.frames g hg).base

end

/-- In every state that verified code can reach, what is open over a strand, wherever that is, is a register of
one of its frames. When a frame ends nothing is left open over its registers: when it returns or gives way
to another one, when the frames of a failed call are dropped, which all lie above where the call began, and
when a coroutine dies. -/
theorem open_over_registers {U : Prototype → Prop} (hU : IsProgram U)
    (hm : m.Occurs ⟨U, .host, true, true⟩) {embedding : Embedding}
    (hosts : ∀ name, Script ⟨U, .host, true, true⟩ (embedding name)) (fuel : Nat) :
    (∀ s, m.Holds s → s.Indexes m.heap ∧
      ∀ oc ∈ s.openCells, ∃ f ∈ s.frames.toList, f.Covers true m.heap oc.slot) ∧
    (∀ w x y, (Outcome.state
      (perform embedding (run embedding fuel) w (.ret x y) m)).ClosedFrom w.base) ∧
    (∀ f c unit slot n, m.topFrame? = some f →
      (Outcome.state (replaceFrame c unit slot n m)).ClosedFrom f.base) ∧
    ((m.current.isSome → 0 < m.depth) → ∀ f args e m',
      callValue (run embedding fuel) f args m = .error e m' → e.isFatal = false →
        (∀ g ∈ m'.running.frames.toList.drop m.depth, m.callBase ≤ g.base) ∧
        (Outcome.state (call (run embedding fuel) f args m)).ClosedFrom m.callBase ∧
        (Outcome.state (protectedCall (run embedding fuel) f args m)).ClosedFrom m.callBase) ∧
    ∀ c, m.heap.IsDead c → ∃ s, (m.heap.coroutine c).strand = some s ∧ s.frames = #[] ∧
      s.openCells = [] ∧ ∀ slot, ¬ m.heap.Names (.coroutine c) slot := by
  obtain ⟨ts, hsteady⟩ := hm.reachable.steady hU.isCatalog
  have hkempt := hm.kempt_verified hU
  refine ⟨fun s hs => ⟨hsteady.indexes hkempt hs, (hkempt.of_holds hs).covered rfl⟩,
    fun w x y => closedFrom_ret _ _ w x y m, fun f c unit slot n hf => closedFrom_replaceFrame hf c unit slot n,
    fun hdepth f args e m' h he => ?_, fun c hc => ?_⟩
  · have hd (hts : ts ≠ []) : 0 < m.depth := by
      refine hdepth ?_
      rw [hsteady.current, List.isSome_head?]
      exact hts
    refine ⟨le_base_of_failed hU.isCatalog hosts hsteady (hm.kempt hU.isCatalog) hd h he, ?_, ?_⟩
    · rw [call_apply, h]
      simp only [he]
      exact closedFrom_unwound m' m.depth m.callBase
    · rw [protectedCall_apply, h]
      simp only [he]
      exact closedFrom_unwound m' m.depth m.callBase
  · obtain ⟨hlt, hdead⟩ := hc
    have hnot : c ∉ ts := fun hmem => by
      rcases hsteady.status_of_mem hmem with hst | hst <;> rw [hst] at hdead <;> cases hdead
    obtain ⟨s, hs, -, hsus | ⟨-, hframes, hopen, hnames⟩⟩ := hsteady.others c hlt hnot
    · simp [hdead] at hsus
    · exact ⟨s, hs, hframes, hopen, hnames⟩

/-- Whether an action has failed in a way that a protected call catches. -/
def Outcome.failed {α : Type} : Outcome α → Bool
  | .ok _ _ => false
  | .error e _ => !e.isFatal

theorem open_over_registers_lending :
    (∃ f ∈ Machine.lending.running.frames.toList, f.Covers true Machine.lending.heap 1) ∧
      (Outcome.state (call (run (fun _ _ => pure 0) 9) .nil [] Machine.lending)).ClosedFrom
        Machine.lending.callBase := by
  obtain ⟨hover, -, -, hfailed, -⟩ := open_over_registers Prototype.lender_isProgram
    Machine.lending_occurs Errand.lend.hosts 9
  constructor
  · obtain ⟨hindexes, hover⟩ := hover _ (.inl List.mem_cons_self)
    refine hover ⟨1, ⟨0⟩⟩ ((hindexes.mem_iff ⟨0⟩ 1).2 ?_)
    rw [Machine.cell_lending, show Machine.lending.running.owner = .main 0 by decide +kernel]
  · have hfails : Outcome.failed (callValue (run (fun _ _ => pure 0) 9) .nil [] Machine.lending) := by
      decide +kernel
    cases h : callValue (run (fun _ _ => pure 0) 9) .nil [] Machine.lending with
    | ok vs m' => simp [h, Outcome.failed] at hfails
    | error e m' =>
      have he : e.isFatal = false := by simpa [h, Outcome.failed] using hfails
      exact (hfailed (fun hcurrent => absurd hcurrent (by decide +kernel)) .nil [] e m' h he).2.1

end LuaMachine
