import LuaMachine.Proofs.Custody
import LuaMachine.Proofs.ScriptRun

/-!
Calls from native code keep to leases, given that the engine they have code run by does. A call that
failed has its upvalues closed and its frames dropped, and what is left is as it was before the call.
-/

namespace LuaMachine

/-- A lease leaves enough to what is to be run. -/
def Lease.Suits (L : Lease) (m : Machine) : Job → Prop
  | .call slot _ _ => L.depth ≤ m.depth ∧ L.floor ≤ slot
  | .execute d | .proceed d _ => L.depth ≤ d

/-- An engine keeps to any lease. -/
structure Custody.Minds (C : Custody) (run : Run) : Prop where
  engines : C.toRegime.Engines run run
  tends : ∀ {job ts m L}, m.Steady C.toRegime ts → C.toRegime.Ready ts m job →
    m.Kempt C.honest C.bounded → m.Leased C.honest C.bounded L → L.Suits m job →
      C.Tends L m (run job m)

variable {C : Custody} {R : Conduct} {ts : List CoroutineId} {m m' : Machine} {L : Lease}
  {held : List Value}
  {honest bounded : Bool} {slot : Nat} {α β : Type}

/-- The lease of a call that is placed above all that is in use. -/
def Machine.nested (m : Machine) : Lease := ⟨m.depth, m.callBase, m.running.openCells⟩

theorem Machine.Leased.le_callBase (hL : m.Leased honest bounded L) (hd : L.depth < m.depth) :
    L.floor ≤ m.callBase :=
  (hL.top hd).trans m.top_le_callBase

theorem Machine.leased_nested (m : Machine) : m.Leased honest bounded m.nested := .fresh m le_rfl rfl

/-- A change that leaves frames, upvalues and the free slot of the running strand as they are. -/
theorem Machine.Leased.congr (hL : m.Leased honest bounded L) (hheap : m'.heap = m.heap)
    (hframes : m'.running.frames = m.running.frames) (htop : m'.running.top = m.running.top)
    (hopen : m'.running.openCells = m.running.openCells) : m'.Leased honest bounded L where
  frames := by
    rw [hframes]
    exact hL.frames
  top hd := by
    rw [htop]
    exact hL.top (by rwa [depth, hframes] at hd)
  covered := by
    rw [hopen, hframes, hheap]
    exact hL.covered

theorem Custody.Leaves.congr {m₁ m₁' : Machine} {k : Nat} (h : C.Leaves k m m')
    (hheap : m₁.heap = m.heap) (hparked : m₁.parked = m.parked)
    (howner : m₁.running.owner = m.running.owner) (hstack : m₁.running.stack = m.running.stack)
    (hheap' : m₁'.heap = m'.heap) (hparked' : m₁'.parked = m'.parked)
    (howner' : m₁'.running.owner = m'.running.owner)
    (hstack' : m₁'.running.stack = m'.running.stack) : C.Leaves k m₁ m₁' := by
  have hslot := Machine.slot?_congr hheap hparked howner hstack
  have hslot' := Machine.slot?_congr hheap' hparked' howner' hstack'
  constructor
  · rw [hheap, hheap']
    exact h.buries
  · rw [hheap, hheap']
    exact h.awake
  · intro o i v
    rw [hslot, hslot', List.map_cons, howner, hparked]
    exact h.waiting o i v
  · intro u i v
    rw [hslot, hslot', hheap, hheap']
    exact h.asleep u i v

theorem Machine.Kempt.entered (hk : m.Kempt honest bounded) : (m.entered held).Kempt honest bounded :=
  hk.of_running rfl rfl rfl
    ⟨hk.running.listed, hk.running.distinct, hk.running.within, hk.running.covered⟩

theorem Machine.Kempt.exited (hk : m.Kempt honest bounded) : (m.exited held).Kempt honest bounded :=
  hk.of_running rfl rfl rfl
    ⟨hk.running.listed, hk.running.distinct, hk.running.within, hk.running.covered⟩

section

variable (hS : IsCatalog C.program)

include hS

/-! Basic actions between frames -/

/-- Slots below the floor of the lease are left alone. -/
theorem Sequence.tends_between {floor : Nat} {x : Action α}
    (h : Sequence (C.toRegime.between floor) x) (hx : Confined (.between L.floor) (fun _ => False) x)
    (hle : L.floor ≤ floor) (hm : m.Steady C.toRegime ts) (hfloor : m.running.Floor floor)
    (hk : m.Kempt C.honest C.bounded) (hL : m.Leased C.honest C.bounded L) : C.Tends L m (x m) := by
  have hc := hx m L.floor nofun fun _ => id
  exact h.tends hS (fun _ => id) hm hfloor hk hL (fun _ hi => hle.trans hi)
    (fun oc hoc => (hc.opened oc hoc).imp_right False.elim) (.of_retains fun _ => hc.retains)

theorem Orderly.tends_between {floor : Nat} {x : Action α} (h : Orderly (C.toRegime.between floor) x)
    (hle : L.floor ≤ floor) (hm : m.Steady C.toRegime ts) (hfloor : m.running.Floor floor)
    (hk : m.Kempt C.honest C.bounded) (hL : m.Leased C.honest C.bounded L) : C.Tends L m (x m) :=
  h.sequence.tends_confined hS (fun _ => id) (.inl h.confined) hm hfloor hk hL
    (fun _ hi => hle.trans hi) nofun nofun

end

/-! Failed calls -/

/-- With the frames of a failed call its upvalues are gone; all others are there as before. -/
theorem Custody.Tends.unwound {e : Fault} {r : Outcome β} (hm : m.Steady C.toRegime ts)
    (hk : m.Kempt C.honest C.bounded) (hL : m.Leased C.honest C.bounded L)
    (hd : ts ≠ [] → 0 < m.depth) (hm' : m'.Steady C.toRegime ts)
    (hkeeps : m.Keeps C.toRegime m.depth m') (he : e.isFatal = false)
    (h : C.Tends L m (.error e m' : Outcome α)) (hnested : C.Tends m.nested m (.error e m' : Outcome α))
    (hr : r.state = m'.unwound m.depth m.callBase) : C.Tends L m r := by
  obtain ⟨hsteady, hkept, hframes⟩ := hm'.unwound hkeeps ⟨le_rfl, hd⟩ hm.floor_callBase
  have hleased (L : Lease) (h : C.Tends L m (.error e m' : Outcome α)) :
      m'.Leased C.honest C.bounded L :=
    h.leased fun e' m'' heq => by
      obtain ⟨rfl, -⟩ := EStateM.Result.error.inj heq
      exact he
  have hshift := hm'.shift_closeUpvalues m.callBase
  have hclosed := hm'.drift hshift.drift hshift.tidy
  have hcarries : m'.Carries .host (m'.modifyBoth fun h s => h.closeCells s m.callBase) :=
    hm'.carries_closeUpvalues m.callBase
  have hconfined : Confined (.between L.floor) (fun _ => False) (closeUpvalues m.callBase) :=
    .closeUpvalues _
  have hretains := (hconfined m' L.floor (fun h => by cases h) fun _ => id).retains
  have hopen : (m'.unwound m.depth m.callBase).running.openCells =
      m'.running.openCells.filter fun c => !decide (m.callBase ≤ c.slot) :=
    congrArg Strand.openCells (m'.heap.openCells_closeCells m'.running m.callBase)
  have hkempt : (m'.modifyBoth fun h s => h.closeCells s m.callBase).Kempt C.honest C.bounded :=
    h.kempt.carried (L := L) hm' hcarries fun oc hoc =>
      (hcarries.opened oc hoc).imp_right fun h => False.elim h
  -- what the call opened lies where its frames were
  have hold (hh : C.honest = true) : ∀ oc ∈ (m'.unwound m.depth m.callBase).running.openCells,
      oc ∈ m.running.openCells := by
    intro oc hoc
    rw [hopen, List.mem_filter] at hoc
    have hlow : oc.slot < m.callBase := by simpa using hoc.2
    refine ((hleased _ hnested).covered hh oc hoc.1).resolve_right ?_
    rintro ⟨f, hf, hcovers⟩
    exact absurd (((hleased _ hnested).frames f hf).base.trans hcovers.base) (Nat.not_le.2 hlow)
  refine ⟨?_, ?_, fun _ => ?_⟩
  · rw [hr]
    refine hkempt.of_running rfl rfl rfl
      ⟨hkempt.running.listed, hkempt.running.distinct, hkempt.running.within, fun hh oc hoc => ?_⟩
    obtain ⟨f, hf, hcovers⟩ := hk.running.covered hh oc (hold hh oc hoc)
    exact ⟨f, hframes ▸ hf, hcovers.mono hkept.extend⟩
  · rw [hr]
    refine h.leaves.trans hm hm' hkeeps.toSpares hkeeps.owner (.of_respects hm' hsteady
      (Machine.Spares.of_drift hshift.drift).buries fun o i v _ hi hv => ?_)
    have hsame : (m'.unwound m.depth m.callBase).slot? o i =
        (m'.modifyBoth fun h s => h.closeCells s m.callBase).slot? o i := by
      apply Machine.slot?_congr <;> rfl
    rw [hsame]
    exact hretains o i v hi hv
  · rw [hr]
    refine ⟨hframes ▸ hL.frames, fun hlt => ?_, fun hh oc hoc => ?_⟩
    · rw [Machine.depth, hframes] at hlt
      exact hL.le_callBase hlt
    · rw [hframes]
      refine (hL.covered hh oc (hold hh oc hoc)).imp_right fun hcovered => ?_
      obtain ⟨f, hf, hcovers⟩ := hcovered
      exact ⟨f, hf, hcovers.mono hkept.extend⟩

section

variable (hS : IsCatalog C.program) {run : Run} (hrun : C.Minds run) (hawake : C.toRegime.Awake ts)

include hrun hawake

theorem callAt_tends (hm : m.Steady C.toRegime ts) (hd : ts ≠ [] → 0 < m.depth)
    (hk : m.Kempt C.honest C.bounded) (hL : m.Leased C.honest C.bounded L) (hdepth : L.depth ≤ m.depth)
    (hslot : m.running.Floor slot) (hle : L.floor ≤ slot) (argCount : Nat) (wanted : Option Nat)
    (held : List Value) :
    C.Tends L m (callAt run slot argCount wanted held m) := by
  rw [callAt_apply]
  split
  · exact .stay hk hL rfl
  · have hready : C.toRegime.Ready ts (m.entered held) (.call slot argCount wanted) :=
      ⟨hslot, .inl ⟨hawake, hd, fun _ => Nat.succ_pos _⟩⟩
    have hjob : C.Tends L (m.entered held) (run (.call slot argCount wanted) (m.entered held)) :=
      hrun.tends hm.entered hready hk.entered (hL.congr rfl rfl rfl rfl) ⟨hdepth, hle⟩
    cases hr : run (.call slot argCount wanted) (m.entered held) with
    | ok u m' =>
      rw [hr] at hjob
      exact ⟨hjob.kempt.exited, hjob.leaves.congr rfl rfl rfl rfl rfl rfl rfl rfl, fun _ =>
        hjob.leased_ok.congr rfl rfl rfl rfl⟩
    | error e m' =>
      rw [hr] at hjob
      cases he : e.isFatal with
      | true =>
        simp only [he, if_true]
        exact ⟨hjob.kempt, hjob.leaves.congr rfl rfl rfl rfl rfl rfl rfl rfl, hjob.leased⟩
      | false =>
        simp only [he]
        refine ⟨hjob.kempt.exited, hjob.leaves.congr rfl rfl rfl rfl rfl rfl rfl rfl, fun _ => ?_⟩
        refine (hjob.leased fun e' m'' heq => ?_).congr rfl rfl rfl rfl
        rw [← (EStateM.Result.error.inj heq).1, he]

include hS

/-- A call that is placed above all that is in use, and whose results are then collected. -/
theorem placedCall_tends (hm : m.Steady C.toRegime ts) (hd : ts ≠ [] → 0 < m.depth)
    (hk : m.Kempt C.honest C.bounded) (hL : m.Leased C.honest C.bounded L) (hdepth : L.depth ≤ m.depth)
    (hle : L.floor ≤ m.callBase) (f : Value) (args : List Value) (wanted : Option Nat)
    (held : List Value) {collect : Nat → Action α}
    (hcollect : ∀ slot, Orderly (C.toRegime.between slot) (collect slot)) :
    C.Tends L m ((do
      let slot ← placeCall f args
      callAt run slot args.length wanted held
      collect slot) m) := by
  have hplace : C.Tends L m (placeCall f args m) := by
    rw [placeCall_apply]
    have hput : Orderly (C.toRegime.between m.callBase) (putCall m.callBase f args) :=
      .putCall le_rfl f args
    exact (hput.andThen fun _ => .pure m.callBase).tends_between hS hle hm hm.floor_callBase hk hL
  have hstands : m.Stands ts m.depth := ⟨le_rfl, hd⟩
  refine hplace.bind hm (placeCall_ends hS hm m.depth f args)
    fun slot m₁ _ hm₁ hk₁ ⟨hslot, hfs₁⟩ hkempt₁ hL₁ => ?_
  have hd₁ := hk₁.stands hstands
  have hdepth₁ : m₁.depth = m.depth := congrArg Array.size hfs₁
  have hfloor₁ := hk₁.floor hm₁ hstands hm.floor_callBase
  rw [← hslot] at hfloor₁ hle
  have hcall : C.Tends L m₁ (callAt run slot args.length wanted held m₁) :=
    callAt_tends hrun hawake hm₁ hd₁.all.pos hkempt₁ hL₁ (hdepth₁ ▸ hdepth) hfloor₁ hle _ _ _
  refine hcall.bind hm₁ (callAt_paired hrun.engines hawake hm₁ hd₁ hfloor₁ _ _ _).right
    fun _ m₂ _ hm₂ hk₂ _ hkempt₂ hL₂ => ?_
  exact (hcollect slot).tends_between hS hle hm₂ (hk₂.floor hm₂ hd₁ hfloor₁) hkempt₂ hL₂

theorem callValue_tends (hm : m.Steady C.toRegime ts) (hd : ts ≠ [] → 0 < m.depth)
    (hk : m.Kempt C.honest C.bounded) (hL : m.Leased C.honest C.bounded L) (hdepth : L.depth ≤ m.depth)
    (hle : L.floor ≤ m.callBase) (f : Value) (args held : List Value) :
    C.Tends L m (callValueHolding run held f args m) :=
  placedCall_tends hS hrun hawake hm hd hk hL hdepth hle f args none held fun slot =>
    have hfrees : (Seat.between slot).Frees slot := le_refl slot
    .andThen (.view _ fun _ => rfl) fun _ => .andThen (.takeSlots hfrees _) fun vs =>
      .andThen (.setTop hfrees) fun _ => .pure vs

theorem callHandler_tends (hm : m.Steady C.toRegime ts) (hd : ts ≠ [] → 0 < m.depth)
    (hk : m.Kempt C.honest C.bounded) (hL : m.Leased C.honest C.bounded L) (hdepth : L.depth ≤ m.depth)
    (hle : L.floor ≤ m.callBase) (f : Value) (args held : List Value) :
    C.Tends L m (callHandlerHolding run held f args m) :=
  placedCall_tends hS hrun hawake hm hd hk hL hdepth hle f args (some 1) held fun slot =>
    have hfrees : (Seat.between slot).Frees slot := le_refl slot
    .andThen (.takeSlot hfrees) fun v => .andThen (.setTop hfrees) fun _ => .pure v

/-- A call after which the frames of a failure are dropped. -/
theorem recovered_tends (hm : m.Steady C.toRegime ts) (hd : ts ≠ [] → 0 < m.depth)
    (hk : m.Kempt C.honest C.bounded) (hL : m.Leased C.honest C.bounded L) (hdepth : L.depth ≤ m.depth)
    (hle : L.floor ≤ m.callBase) (f : Value) (args : List Value) {r : Outcome α}
    (hok : ∀ vs m', callValue run f args m = .ok vs m' → ∃ a, r = .ok a m')
    (hfatal : ∀ e m', callValue run f args m = .error e m' → e.isFatal = true → r = .error e m')
    (hfail : ∀ e m', callValue run f args m = .error e m' → e.isFatal = false →
      r.state = m'.unwound m.depth m.callBase) : C.Tends L m r := by
  have hends : C.toRegime.Ends ts m.depth m (fun _ => C.toRegime.Returns m) (C.toRegime.Leaks ts)
      (callValue run f args m) :=
    (callValue_paired hS hrun.engines hawake hm ⟨le_rfl, hd⟩ f args []).right
  have hcall : C.Tends L m (callValue run f args m) :=
    callValue_tends hS hrun hawake hm hd hk hL hdepth hle f args []
  have hnested : C.Tends m.nested m (callValue run f args m) :=
    callValue_tends hS hrun hawake hm hd hk m.leased_nested le_rfl le_rfl f args []
  cases hr : callValue run f args m with
  | ok vs m' =>
    obtain ⟨a, rfl⟩ := hok vs m' hr
    rw [hr] at hcall
    exact ⟨hcall.kempt, hcall.leaves, fun _ => hcall.leased_ok⟩
  | error e m' =>
    rw [hr] at hends hcall hnested
    cases he : e.isFatal with
    | true =>
      rw [hfatal e m' hr he]
      exact ⟨hcall.kempt, hcall.leaves, fun h => absurd (h e m' rfl) (by simp [he])⟩
    | false =>
      obtain ⟨hm', hk', -⟩ := hends.2.resolve_left fun h => by simp [he] at h
      exact .unwound hm hk hL hd hm' hk' he hcall hnested (hfail e m' hr he)

theorem call_tends (hm : m.Steady C.toRegime ts) (hd : ts ≠ [] → 0 < m.depth)
    (hk : m.Kempt C.honest C.bounded) (hL : m.Leased C.honest C.bounded L) (hdepth : L.depth ≤ m.depth)
    (hle : L.floor ≤ m.callBase) (f : Value) (args : List Value) :
    C.Tends L m (call run f args m) := by
  refine recovered_tends hS hrun hawake hm hd hk hL hdepth hle f args (fun vs m' h => ?_)
    (fun e m' h he => ?_) fun e m' h he => ?_
  · exact ⟨vs, by rw [call_apply, h]⟩
  · simp only [call_apply, h, he, if_true]
  · simp only [call_apply, h, he]
    rfl

theorem protectedCall_tends (hm : m.Steady C.toRegime ts) (hd : ts ≠ [] → 0 < m.depth)
    (hk : m.Kempt C.honest C.bounded) (hL : m.Leased C.honest C.bounded L) (hdepth : L.depth ≤ m.depth)
    (hle : L.floor ≤ m.callBase) (f : Value) (args : List Value) :
    C.Tends L m (protectedCall run f args m) := by
  refine recovered_tends hS hrun hawake hm hd hk hL hdepth hle f args (fun vs m' h => ?_)
    (fun e m' h he => ?_) fun e m' h he => ?_
  · exact ⟨(true, vs), by rw [protectedCall_apply, h]⟩
  · simp only [protectedCall_apply, h, he, if_true]
  · simp only [protectedCall_apply, h, he]
    rfl

end

end LuaMachine
