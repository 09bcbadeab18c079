import LuaMachine.Library.Basic
import LuaMachine.Proofs.Balance

/-!
Operations that an embedding program has done from outside of all calls. What they run is dropped by nobody if
it fails: they leave behind the frames in which it failed, with what is open over them and the slots they use,
and nothing else. A call that recovers from failures leaves nothing.
-/

namespace LuaMachine

/-- What an embedding program can have done that may call a function. -/
inductive HostOperation : Type → Type
  | callValue (f : Value) (args : List Value) : HostOperation (List Value)
  | callHandler (f : Value) (args : List Value) : HostOperation Value
  | index (v key : Value) : HostOperation Value
  | assign (v key new : Value) : HostOperation Unit
  | arith (op : ArithOp) (l r : Value) : HostOperation Value
  | equals (l r : Value) : HostOperation Bool
  | lessThan (l r : Value) : HostOperation Bool
  | lessEqual (l r : Value) : HostOperation Bool
  | length (v : Value) : HostOperation Value
  | toStringValue (v : Value) : HostOperation Value

namespace HostOperation

variable {α : Type}

def perform (run : Run) : {α : Type} → HostOperation α → Action α
  | _, callValue f args => LuaMachine.callValue run f args
  | _, callHandler f args => LuaMachine.callHandler run f args
  | _, index v key => LuaMachine.index run v key
  | _, assign v key new => LuaMachine.assign run v key new
  | _, arith op l r => LuaMachine.arith run op l r
  | _, equals l r => LuaMachine.equals run l r
  | _, lessThan l r => LuaMachine.lessThan run l r
  | _, lessEqual l r => LuaMachine.lessEqual run l r
  | _, length v => LuaMachine.length v
  | _, toStringValue v => LuaMachine.toStringValue run v

/-- What an operation calls in a state, if anything, and the arguments. -/
def call? : HostOperation α → Machine → Option (Value × List Value)
  | callValue f args, _ | callHandler f args, _ => some (f, args)
  | index v key, m =>
    match m.resolveIndex key Limit.metaSteps v with
    | .handler f receiver => some (f, [receiver, key])
    | _ => none
  | assign v key new, m =>
    match m.resolveAssign key Limit.metaSteps v with
    | .handler f receiver => some (f, [receiver, key, new])
    | _ => none
  | arith op l r, m =>
    if l.toNumber?.isSome ∧ r.toNumber?.isSome then none
    else (m.binaryHandler? l r (.ofArith op)).map (·, [l, r])
  | equals l r, m =>
    match l, r with
    | .table x, .table y => if x = y then none else (m.binaryHandler? l r .eq).map (·, [l, r])
    | _, _ => none
  | lessThan l r, m =>
    match l, r with
    | .number _, .number _ | .str _, .str _ => none
    | l, r => if l.type ≠ r.type then none else (m.binaryHandler? l r .lt).map (·, [l, r])
  | lessEqual l r, m =>
    match l, r with
    | .number _, .number _ | .str _, .str _ => none
    | l, r =>
      if l.type ≠ r.type then none
      else ((m.binaryHandler? l r .le).map (·, [l, r])).or ((m.binaryHandler? r l .lt).map (·, [r, l]))
  | length _, _ => none
  | toStringValue v, m =>
    let handler := ((m.metatable? v).map fun mt => (m.heap.table mt).getString "__tostring").getD .nil
    if handler.isNil then none else some (handler, [v])

variable {m : Machine} {x : HostOperation α}

/-- An operation that calls something does so in the end. -/
theorem perform_of_call {f : Value} {args : List Value} (h : x.call? m = some (f, args)) :
    (∃ (held : List Value) (g : Value → α), ∀ run,
      x.perform run m = (g <$> callHandlerHolding run held f args) m) ∨
      ∃ (held : List Value) (g : List Value → α), ∀ run,
        x.perform run m = (g <$> callValueHolding run held f args) m := by
  cases x with
  | callValue f' args' =>
    obtain ⟨rfl, rfl⟩ := Prod.mk.inj (Option.some.inj h)
    exact .inr ⟨[], id, fun run => by rw [id_map]; rfl⟩
  | callHandler f' args' =>
    obtain ⟨rfl, rfl⟩ := Prod.mk.inj (Option.some.inj h)
    exact .inl ⟨_, id, fun run => by rw [id_map]; rfl⟩
  | index v key =>
    simp only [call?] at h
    split at h
    · next f' receiver hend =>
      obtain ⟨rfl, rfl⟩ := Prod.mk.inj (Option.some.inj h)
      refine .inl ⟨[v, receiver, key], id, fun run => ?_⟩
      simp only [perform, LuaMachine.index, Action.bind_apply, Action.view_apply, hend, id_map]
    · cases h
  | assign v key new =>
    simp only [call?] at h
    split at h
    · next f' receiver hend =>
      obtain ⟨rfl, rfl⟩ := Prod.mk.inj (Option.some.inj h)
      refine .inl ⟨[v, receiver, key, new], fun _ => (), fun run => ?_⟩
      simp only [perform, LuaMachine.assign, Action.bind_apply, Action.view_apply, hend, map_eq_pure_bind]
    · cases h
  | arith op l r =>
    simp only [call?] at h
    split at h
    · cases h
    · next hnumbers =>
      obtain ⟨f', hf', h⟩ := Option.map_eq_some_iff.1 h
      obtain ⟨rfl, rfl⟩ := Prod.mk.inj h
      refine .inl ⟨[l, r], id, fun run => ?_⟩
      simp only [perform, LuaMachine.arith]
      cases hl : l.toNumber? <;> cases hr : r.toNumber? <;>
        first
        | simp [hl, hr] at hnumbers; done
        | simp only [Action.bind_apply, Action.view_apply, hf', id_map]
  | equals l r =>
    simp only [call?] at h
    split at h
    · next y z =>
      split at h
      · cases h
      · next hne =>
        obtain ⟨f', hf', h⟩ := Option.map_eq_some_iff.1 h
        obtain ⟨rfl, rfl⟩ := Prod.mk.inj h
        refine .inl ⟨[.table y, .table z], Value.isTruthy, fun run => ?_⟩
        simp only [perform, LuaMachine.equals, if_neg hne, Action.bind_apply, Action.view_apply, hf',
          callPredicate, map_eq_pure_bind]
    · cases h
  | lessThan l r =>
    simp only [call?] at h
    split at h
    · cases h
    · cases h
    · next hnumbers hstrings =>
      split at h
      · cases h
      · next htype =>
        obtain ⟨f', hf', h⟩ := Option.map_eq_some_iff.1 h
        obtain ⟨rfl, rfl⟩ := Prod.mk.inj h
        refine .inl ⟨[l, r], Value.isTruthy, fun run => ?_⟩
        simp only [perform, LuaMachine.lessThan, if_neg htype, Action.bind_apply, Action.view_apply, hf',
          callPredicate, map_eq_pure_bind]
  | lessEqual l r =>
    simp only [call?] at h
    split at h
    · cases h
    · cases h
    · next hnumbers hstrings =>
      split at h
      · cases h
      · next htype =>
        cases hle : m.binaryHandler? l r .le with
        | some f' =>
          rw [hle, Option.map_some, Option.some_or] at h
          obtain ⟨rfl, rfl⟩ := Prod.mk.inj (Option.some.inj h)
          refine .inl ⟨[l, r], Value.isTruthy, fun run => ?_⟩
          simp only [perform, LuaMachine.lessEqual, if_neg htype, Action.bind_apply, Action.view_apply, hle,
            callPredicate, map_eq_pure_bind]
        | none =>
          rw [hle, Option.map_none, Option.none_or] at h
          obtain ⟨f', hf', h⟩ := Option.map_eq_some_iff.1 h
          obtain ⟨rfl, rfl⟩ := Prod.mk.inj h
          refine .inl ⟨[r, l], fun v => !v.isTruthy, fun run => ?_⟩
          simp only [perform, LuaMachine.lessEqual, if_neg htype, Action.bind_apply, Action.view_apply, hle, hf',
            callPredicate, map_eq_pure_bind, bind_assoc, pure_bind]
  | length v => cases h
  | toStringValue v =>
    simp only [call?] at h
    split at h
    · cases h
    · next hnil =>
      obtain ⟨rfl, rfl⟩ := Prod.mk.inj (Option.some.inj h)
      refine .inr ⟨[v], (·.headD .nil), fun run => ?_⟩
      simp only [perform, LuaMachine.toStringValue, Action.bind_apply, Action.view_apply, if_neg hnil,
        map_eq_pure_bind]

/-- One that calls nothing is done at once, and changes a table at most. -/
theorem perform_of_no_call (h : x.call? m = none) (run : Run) :
    Outcome.state (x.perform run m) = m ∨
      ∃ t f, Outcome.state (x.perform run m) = m.modifyHeap (·.modifyTable t f) := by
  cases x with
  | callValue f args => cases h
  | callHandler f args => cases h
  | index v key =>
    simp only [call?] at h
    simp only [perform, LuaMachine.index, Action.bind_apply, Action.view_apply]
    cases hend : m.resolveIndex key Limit.metaSteps v with
    | handler f receiver => simp [hend] at h
    | _ => exact .inl rfl
  | assign v key new =>
    simp only [call?] at h
    simp only [perform, LuaMachine.assign, Action.bind_apply, Action.view_apply]
    cases hend : m.resolveAssign key Limit.metaSteps v with
    | handler f receiver => simp [hend] at h
    | store t =>
      simp only [rawSet]
      cases key.key with
      | ok k => exact .inr ⟨_, _, rfl⟩
      | error e => exact .inl rfl
    | _ => exact .inl rfl
  | arith op l r =>
    left
    simp only [call?] at h
    simp only [perform, LuaMachine.arith]
    cases hl : l.toNumber? <;> cases hr : r.toNumber? <;>
      simp only [hl, hr, Option.isSome_none, Option.isSome_some, Bool.false_eq_true, and_false, false_and,
        if_false, Option.map_eq_none_iff] at h <;>
      simp only [Action.bind_apply, Action.view_apply, h] <;>
      rfl
  | equals l r =>
    left
    simp only [call?] at h
    simp only [perform, LuaMachine.equals]
    split
    · next y z =>
      dsimp only at h
      by_cases hyz : y = z
      · rw [if_pos hyz]
        rfl
      · rw [if_neg hyz, Option.map_eq_none_iff] at h
        simp only [if_neg hyz, Action.bind_apply, Action.view_apply, h]
        rfl
    · rfl
  | lessThan l r =>
    left
    simp only [call?] at h
    simp only [perform, LuaMachine.lessThan]
    split
    · rfl
    · rfl
    · next hnumbers hstrings =>
      split at h
      · next y z => exact absurd rfl (hnumbers y z rfl)
      · next y z => exact absurd rfl (hstrings y z rfl)
      · split
        · rfl
        · next htype =>
          rw [if_neg htype, Option.map_eq_none_iff] at h
          simp only [Action.bind_apply, Action.view_apply, h]
          rfl
  | lessEqual l r =>
    left
    simp only [call?] at h
    simp only [perform, LuaMachine.lessEqual]
    split
    · rfl
    · rfl
    · next hnumbers hstrings =>
      split at h
      · next y z => exact absurd rfl (hnumbers y z rfl)
      · next y z => exact absurd rfl (hstrings y z rfl)
      · split
        · rfl
        · next htype =>
          rw [if_neg htype, Option.or_eq_none_iff, Option.map_eq_none_iff, Option.map_eq_none_iff] at h
          simp only [Action.bind_apply, Action.view_apply, h.1, h.2]
          rfl
  | length v => cases v <;> exact .inl rfl
  | toStringValue v =>
    left
    simp only [call?] at h
    split at h
    · next hnil => simp only [perform, LuaMachine.toStringValue, Action.bind_apply, Action.view_apply, if_pos hnil]; rfl
    · cases h

end HostOperation

/-- What a failed call leaves behind above the slots that were in use: frames, and upvalues open over them. The
machine is back where it was once they are dropped. -/
structure Machine.LeftBehind (m m' : Machine) : Prop where
  frames : ∀ f ∈ m'.running.frames.toList, f.Above m.running.top
  cells : ∀ oc ∈ m'.running.openCells, ∃ f ∈ m'.running.frames.toList, f.Covers false m'.heap oc.slot
  dropped : m.Balanced (m'.unwound 0 m.running.top)

variable {m m' : Machine} {ts : List CoroutineId} {α : Type}

theorem Machine.Balanced.refl (m : Machine) : m.Balanced m where
  owner := rfl
  frames := rfl
  top := rfl
  boundaries := rfl
  nativeCalls := rfl
  current := rfl
  parked := .refl _ _
  openCells := List.Subset.refl _
  cells _ _ := id

theorem Machine.Balanced.modifyTable (m : Machine) (t : TableId) (f : Table → Table) :
    m.Balanced (m.modifyHeap (·.modifyTable t f)) where
  owner := rfl
  frames := rfl
  top := rfl
  boundaries := rfl
  nativeCalls := rfl
  current := rfl
  parked := .of_names fun _ _ _ => id
  openCells := List.Subset.refl _
  cells _ _ := id

/-- A call that is made where nothing runs has failed. -/
theorem Machine.Recovers.leftBehind {C : Custody} (hC : C.honest = true ∧ C.bounded = false) {e : Fault}
    (he : e.isFatal = false) (hr : m.Recovers (.error e m' : Outcome α))
    (htends : C.Tends m.nested m (.error e m' : Outcome α)) (hbare : m.running.frames = #[]) :
    m.LeftBehind m' := by
  have hdepth : m.depth = 0 := by rw [Machine.depth, hbare]; rfl
  have hbase : m.callBase = m.running.top :=
    Machine.callBase_eq_top fun f hf => by simp [Machine.topFrame?, hbare] at hf
  have hdropped := Or.resolve_left hr (by simp [he])
  rw [hdepth, hbase] at hdropped
  have hkempt : m'.Kempt true false := by
    have hkempt := htends.kempt
    rwa [hC.1, hC.2] at hkempt
  have hleased := htends.leased fun e' m'' h => by
    obtain ⟨rfl, -⟩ := EStateM.Result.error.inj h
    exact he
  refine ⟨fun f hf => ?_, hkempt.running.covered rfl, hdropped⟩
  have habove := hleased.frames f
  rw [Machine.nested, hdepth, hbase, List.drop_zero] at habove
  exact habove hf

section

variable {U : Prototype → Prop} (hU : IsCatalog U) {strict : Bool} {embedding : Embedding}
  (hosts : ∀ name, Script ⟨U, .host, true, strict⟩ (embedding name))

include hU hosts

/-- Operations that an embedding program has done from outside of all calls. One that succeeds leaves the machine
as it was, and so does one that fails by itself. What has failed in a call leaves frames behind, with what is open
over them, and has moved the free slot: this is as it was once the frames are dropped. -/
theorem host_operations (hm : m.Occurs ⟨U, .host, true, strict⟩) (hbare : m.running.frames = #[])
    (hmain : m.current = none) (fuel : Nat) (x : HostOperation α) :
    match x.perform (run embedding fuel) m with
    | .ok _ m' => m.Balanced m'
    | .error e m' => e.isFatal = true ∨ (x.call? m = none ∧ m.Balanced m') ∨
        ((x.call? m).isSome ∧ m.LeftBehind m') := by
  obtain ⟨ts, hsteady⟩ := hm.reachable.steady hU
  have hkempt := hm.kempt hU
  have hts : ts = [] := by
    rw [← List.head?_eq_none_iff, ← hsteady.current]
    exact hmain
  have hd (h : ts ≠ []) : 0 < m.depth := absurd hts h
  have hhost (f : Frame) (hf : m.topFrame? = some f) : f.isLua = false := by
    simp [Machine.topFrame?, hbare] at hf
  let C : Custody := ⟨⟨U, true, fun _ => False⟩, fun _ _ => False, false⟩
  have hminds : C.Minds (run embedding fuel) :=
    Custody.minds_run (C := C) hU (fun h => h.elim fun _ h => h.elim fun _ => id) (fun _ => id) rfl hosts fuel
  have hawake : C.toRegime.Awake ts := fun _ _ => id
  -- what a call gives is handed on
  have hcall {β : Type} {r : Outcome β} (g : β → α) (y : Action β) (hr : y m = r) (hrecovers : m.Recovers r)
      (htends : C.Tends m.nested m r) : match (g <$> y) m with
      | .ok _ m' => m.Balanced m'
      | .error e m' => e.isFatal = true ∨ m.LeftBehind m' := by
    rw [map_eq_pure_bind, Action.bind_apply, hr]
    cases r with
    | ok b m' => exact hrecovers
    | error e m' =>
      cases he : e.isFatal with
      | true => exact .inl he
      | false => exact .inr (hrecovers.leftBehind ⟨rfl, rfl⟩ he htends hbare)
  cases hx : x.call? m with
  | none =>
    have hstate : m.Balanced (Outcome.state (x.perform (run embedding fuel) m)) := by
      rcases x.perform_of_no_call hx (run embedding fuel) with h | ⟨t, f, h⟩
      · rw [h]
        exact .refl m
      · rw [h]
        exact .modifyTable m t f
    cases hr : x.perform (run embedding fuel) m with
    | ok a m' =>
      rw [hr] at hstate
      exact hstate
    | error e m' =>
      rw [hr] at hstate
      exact .inr (.inl ⟨rfl, hstate⟩)
  | some c =>
    obtain ⟨f, args⟩ := c
    have hends : match x.perform (run embedding fuel) m with
        | .ok _ m' => m.Balanced m'
        | .error e m' => e.isFatal = true ∨ m.LeftBehind m' := by
      rcases x.perform_of_call hx with ⟨held, g, hg⟩ | ⟨held, g, hg⟩
      · rw [hg]
        exact hcall g _ rfl (callHandler_recovers hU hosts hsteady hkempt hd hhost fuel held f args)
          (callHandler_tends hU hminds hawake hsteady hd hkempt m.leased_nested le_rfl le_rfl f args held)
      · rw [hg]
        exact hcall g _ rfl (callValue_recovers hU hosts hsteady hkempt hd hhost fuel held f args)
          (callValue_tends hU hminds hawake hsteady hd hkempt m.leased_nested le_rfl le_rfl f args held)
    cases hr : x.perform (run embedding fuel) m with
    | ok a m' =>
      rw [hr] at hends
      exact hends
    | error e m' =>
      rw [hr] at hends
      exact hends.imp_right fun h => .inr ⟨rfl, h⟩

end

/-- Negates what is no number. -/
def Prototype.blunder : Prototype :=
  { Prototype.empty "=blunder" with
    code := #[(Instruction.abc .unm 0 0 0).word, (Instruction.abc .ret 0 1 0).word] }

theorem Prototype.blunder_coherent : blunder.Coherent := coherent_of_children rfl

/-- The function is made, but not called. -/
def Errand.load : Errand ⟨Prototype.blunder.Contains, .host, true, true⟩ where
  script := fun _ => loadPrototype .blunder
  isScript := .sequence (.loadPrototype Prototype.blunder.contains_self)
  embedding := fun _ _ => pure 0
  hosts := fun _ => .pure 0
  fuel := 0

/-- A machine with a function that fails when it is called. -/
def Machine.loaded : Machine := (Errand.load.outcome .bare).state

theorem Machine.loaded_occurs : loaded.Occurs ⟨Prototype.blunder.Contains, .host, true, true⟩ :=
  ⟨_, .load, fun _ => False, .blank bare_blank rfl, by rw [Errand.upTo_never, loaded]⟩

/-- A handler that fails leaves its frame behind, though its code is verified. -/
theorem host_operations_loaded :
    let x : HostOperation Value := .callHandler (.function (.lua ⟨0⟩)) []
    Prototype.blunder.Verified ∧ ∃ e m',
      x.perform (run (fun _ _ => pure 0) 9) Machine.loaded = .error e m' ∧ m'.depth = 1 ∧
        Machine.loaded.LeftBehind m' := by
  intro x
  refine ⟨rfl, ?_⟩
  have hends := host_operations Prototype.blunder_coherent.isCatalog (fun _ => .pure 0) Machine.loaded_occurs
    (by decide +kernel) (by decide +kernel) 9 x
  have hfails : (match x.perform (run (fun _ _ => pure 0) 9) Machine.loaded with
    | .ok _ _ => false
    | .error e m' => !e.isFatal && m'.depth == 1) = true := by decide +kernel
  cases hr : x.perform (run (fun _ _ => pure 0) 9) Machine.loaded with
  | ok v m' => simp [hr] at hfails
  | error e m' =>
    rw [hr] at hends hfails
    simp only [Bool.and_eq_true, Bool.not_eq_true', beq_iff_eq] at hfails
    obtain ⟨he, hdepth⟩ := hfails
    refine ⟨e, m', rfl, hdepth, ?_⟩
    rcases hends with hfatal | ⟨hnone, -⟩ | ⟨-, h⟩
    · simp [he] at hfatal
    · cases hnone
    · exact h

end LuaMachine
