import LuaMachine.Proofs.ClosedRegisters
import LuaMachine.Proofs.Lasting

/-!
Calls are balanced. Whatever a call runs, and whether it fails or not, the machine has the same frames, the same
free slot and the same counters afterwards, and what was opened meanwhile is closed.
-/

namespace LuaMachine

/-- A machine that is back where it was. No further upvalue is open over the running strand, and strands that
wait are as they were, but for slots with open upvalues. -/
structure Machine.Balanced (m m' : Machine) : Prop where
  owner : m'.running.owner = m.running.owner
  frames : m'.running.frames = m.running.frames
  top : m'.running.top = m.running.top
  boundaries : m'.running.boundaries = m.running.boundaries
  nativeCalls : m'.nativeCalls = m.nativeCalls
  current : m'.current = m.current
  parked : Strand.AllRest m.heap m'.heap m.parked m'.parked
  openCells : m'.running.openCells ⊆ m.running.openCells
  cells : ∀ c i, m'.heap.cell c = .opened m.running.owner i → m.heap.cell c = .opened m.running.owner i

/-- Everything is as it was, or is so once the frames of a failure are dropped. -/
def Machine.Recovers {α : Type} (m : Machine) : Outcome α → Prop
  | .ok _ m' => m.Balanced m'
  | .error e m' => e.isFatal = true ∨ m.Balanced (m'.unwound m.depth m.callBase)

variable {m m' : Machine} {ts : List CoroutineId} {f : Value} {args : List Value}

/-- Above a host function calls are placed on the free slots. -/
theorem Machine.callBase_eq_top (hhost : ∀ f, m.topFrame? = some f → f.isLua = false) :
    m.callBase = m.running.top := by
  unfold callBase
  cases hf : m.topFrame? with
  | none => rfl
  | some f => simp [hhost f hf]

/-- What a call gives is taken from where it was placed. -/
theorem top_of_placedCall {α : Type} {run : Run} {wanted : Option Nat} {held : List Value}
    {collect : Nat → Action α}
    (htop : ∀ slot, Action.Leaves (fun m => m.running.top = slot) (collect slot)) {a : α}
    (h : (do
      let slot ← placeCall f args
      callAt run slot args.length wanted held
      collect slot) m = .ok a m') : m'.running.top = m.callBase := by
  obtain ⟨slot, m₁, hplace, h⟩ := Action.bind_eq_ok.1 h
  obtain rfl : slot = m.callBase := by
    rw [placeCall_apply] at hplace
    obtain ⟨-, m₂, -, hpure⟩ := Action.bind_eq_ok.1 hplace
    exact (EStateM.Result.ok.inj hpure).1.symm
  obtain ⟨-, m₂, -, h⟩ := Action.bind_eq_ok.1 h
  exact htop m.callBase m₂ a m' h

theorem top_of_callValue {run : Run} {held vs : List Value}
    (h : callValueHolding run held f args m = .ok vs m') : m'.running.top = m.callBase :=
  top_of_placedCall (fun slot m vs m' h => by
    obtain ⟨top, m₁, -, h⟩ := Action.bind_eq_ok.1 h
    obtain ⟨vs', m₂, -, h⟩ := Action.bind_eq_ok.1 h
    exact Action.leaves_setTop_pure slot vs' m₂ vs m' h) h

theorem top_of_callHandler {run : Run} {held : List Value} {v : Value}
    (h : callHandlerHolding run held f args m = .ok v m') :
    m'.running.top = m.callBase :=
  top_of_placedCall (fun slot m v m' h => by
    obtain ⟨v', m₁, -, h⟩ := Action.bind_eq_ok.1 h
    exact Action.leaves_setTop_pure slot v' m₁ v m' h) h

/-- With the frames that were there nothing is open that was not. -/
theorem Machine.Steady.balanced {S : Regime} {d : Nat} (hm : m.Steady S ts) (hk : m.Kempt true false)
    (hm' : m'.Steady S ts) (hkeeps : m.Keeps S d m') (hframes : m'.running.frames = m.running.frames)
    (htop : m'.running.top = m.running.top) (hk' : m'.Kempt true false)
    (hL' : m'.Leased true false m.nested) : m.Balanced m' := by
  have hopen : m'.running.openCells ⊆ m.running.openCells := fun oc hoc => by
    refine (hL'.covered rfl oc hoc).resolve_right ?_
    rintro ⟨f, hf, -⟩
    rw [hframes, nested, List.drop_eq_nil_of_le (by rw [Array.length_toList]; rfl)] at hf
    cases hf
  refine ⟨hkeeps.owner, hframes, htop, hkeeps.boundaries, hkeeps.nativeCalls,
    hm'.current.trans hm.current.symm, hkeeps.parked, hopen, fun c i hc => ?_⟩
  rw [← hkeeps.owner] at hc
  have hmem := ((hm'.indexes hk' (.inl List.mem_cons_self)).mem_iff c i).2 hc
  exact ((hm.indexes hk (.inl List.mem_cons_self)).mem_iff c i).1 (hopen hmem)

section

variable {U : Prototype → Prop} (hU : IsCatalog U) {strict : Bool} {embedding : Embedding}
  (hosts : ∀ name, Script ⟨U, .host, true, strict⟩ (embedding name))
  (hm : m.Steady ⟨U, true, fun _ => False⟩ ts) (hk : m.Kempt true false) (hd : ts ≠ [] → 0 < m.depth)
  (hhost : ∀ f, m.topFrame? = some f → f.isLua = false)

include hm hk hd hhost

/-- What is run on the free slots. -/
theorem recovers_of_nested {α : Type} {r : Outcome α}
    (hends : Regime.Ends ⟨U, true, fun _ => False⟩ ts m.depth m
      (fun _ => Regime.Returns ⟨U, true, fun _ => False⟩ m) (Regime.Leaks ⟨U, true, fun _ => False⟩ ts) r)
    (htends : Custody.Tends ⟨⟨U, true, fun _ => False⟩, fun _ _ => False, false⟩ m.nested m r)
    (htop : ∀ a m', r = .ok a m' → m'.running.top = m.callBase) : m.Recovers r := by
  have hbase := Machine.callBase_eq_top hhost
  have hstands : m.Stands ts m.depth := ⟨le_rfl, hd⟩
  rcases hends.recover hm hstands with ⟨a, m', rfl, hm', hkeeps, hreturns⟩ | ⟨e, m', rfl, he, -⟩ |
    ⟨e, m', rfl, he, -, -, hm', hkeeps, hframes⟩
  · exact hm.balanced hk hm' hkeeps (hreturns.frames rfl) ((htop a m' rfl).trans hbase) htends.kempt
      htends.leased_ok
  · exact .inl he
  · have hfailed := hends.2.resolve_left (by simp [he])
    have hunwound : Custody.Tends _ m.nested m (.ok () (m'.unwound m.depth m.callBase) : Outcome Unit) :=
      htends.unwound hm hk m.leased_nested hd hfailed.1 hfailed.2.1 he htends rfl
    exact .inr (hm.balanced hk hm' hkeeps hframes hbase hunwound.kempt hunwound.leased_ok)

include hU hosts

theorem callValue_recovers (fuel : Nat) (held : List Value) (f : Value) (args : List Value) :
    m.Recovers (callValueHolding (run embedding fuel) held f args m) := by
  let C : Custody := ⟨⟨U, true, fun _ => False⟩, fun _ _ => False, false⟩
  have hminds : C.Minds (run embedding fuel) :=
    Custody.minds_run (C := C) hU (fun ⟨_, _, h⟩ => h) (fun _ => id) rfl hosts fuel
  have hawake : C.toRegime.Awake ts := fun _ _ => id
  exact recovers_of_nested hm hk hd hhost
    (callValue_paired hU hminds.engines hawake hm ⟨le_rfl, hd⟩ f args held).left
    (callValue_tends hU hminds hawake hm hd hk m.leased_nested le_rfl le_rfl f args held) fun _ _ =>
      top_of_callValue

theorem callHandler_recovers (fuel : Nat) (held : List Value) (f : Value) (args : List Value) :
    m.Recovers (callHandlerHolding (run embedding fuel) held f args m) := by
  let C : Custody := ⟨⟨U, true, fun _ => False⟩, fun _ _ => False, false⟩
  have hminds : C.Minds (run embedding fuel) :=
    Custody.minds_run (C := C) hU (fun ⟨_, _, h⟩ => h) (fun _ => id) rfl hosts fuel
  have hawake : C.toRegime.Awake ts := fun _ _ => id
  exact recovers_of_nested hm hk hd hhost
    (callHandler_paired hU hminds.engines hawake hm ⟨le_rfl, hd⟩ f args held).left
    (callHandler_tends hU hminds hawake hm hd hk m.leased_nested le_rfl le_rfl f args held) fun _ _ =>
      top_of_callHandler

end

/-- Whether a call from native code succeeds or fails, wherever it was made and whatever it ran, the machine
is back where it was, with nothing open that was opened meanwhile, nor, after a failure, anything from the
free slot on. Below the free slot values last until they are assigned to through upvalues. -/
theorem calls_balanced {U : Prototype → Prop} (hU : IsCatalog U) {strict : Bool}
    (hm : m.Occurs ⟨U, .host, true, strict⟩) (hhost : (m.topFrame? = none ∧ m.current = none) ∨
      ∃ f, m.topFrame? = some f ∧ f.isLua = false)
    {embedding : Embedding} (hosts : ∀ name, Tame ⟨U, .host, true, strict⟩ True (embedding name))
    (fuel : Nat) (f : Value) (args : List Value) :
    (match call (run embedding fuel) f args m with
      | .ok _ m' => m.Balanced m'
      | .error e m' => e.isFatal = true ∨ m.Balanced m' ∧ m'.ClosedFrom m.running.top) ∧
    (match protectedCall (run embedding fuel) f args m with
      | .ok (ok, _) m' => m.Balanced m' ∧ (ok = false → m'.ClosedFrom m.running.top)
      | .error e _ => e.isFatal = true) ∧
    ∀ i < m.running.top, ∀ v, m.slot? m.running.owner i = some v →
      (Always embedding (fun t => ¬ t.Assigns m.running.owner i) fuel (fun run => call run f args) m →
        (Outcome.state (call (run embedding fuel) f args m)).slot? m.running.owner i = some v) ∧
      (Always embedding (fun t => ¬ t.Assigns m.running.owner i) fuel
          (fun run => protectedCall run f args) m →
        (Outcome.state (protectedCall (run embedding fuel) f args m)).slot? m.running.owner i = some v) := by
  obtain ⟨ts, hsteady⟩ := hm.reachable.steady hU
  have hkempt := hm.kempt hU
  have hd (hts : ts ≠ []) : 0 < m.depth := by
    rcases hhost with ⟨-, hcurrent⟩ | ⟨f, hf, -⟩
    · rw [hsteady.current, List.head?_eq_none_iff] at hcurrent
      exact absurd hcurrent hts
    · exact Array.size_pos_of_mem (Array.mem_of_back? hf)
  have hnone (g : Frame) (hg : m.topFrame? = some g) : g.isLua = false := by
    rcases hhost with ⟨hbare, -⟩ | ⟨f, hf, hlua⟩
    · rw [hbare] at hg
      cases hg
    · rwa [← Option.some.inj (hf.symm.trans hg)]
  have hbase := Machine.callBase_eq_top hnone
  have hbalanced : m.Recovers (callValue (run embedding fuel) f args m) :=
    callValue_recovers hU (fun name => (hosts name).script) hsteady hkempt hd hnone fuel [] f args
  refine ⟨?_, ?_, fun i hi v hv => ⟨fun halways => ?_, fun halways => ?_⟩⟩
  · rw [call_apply]
    cases heq : callValue (run embedding fuel) f args m with
    | ok vs m' =>
      rw [heq] at hbalanced
      exact hbalanced
    | error e m' =>
      rw [heq] at hbalanced
      cases he : e.isFatal with
      | true => simp [he]
      | false =>
        simp only [he]
        exact .inr ⟨Or.resolve_left hbalanced (by simp [he]), hbase ▸ closedFrom_unwound m' m.depth m.callBase⟩
  · rw [protectedCall_apply]
    cases heq : callValue (run embedding fuel) f args m with
    | ok vs m' =>
      rw [heq] at hbalanced
      exact ⟨hbalanced, nofun⟩
    | error e m' =>
      rw [heq] at hbalanced
      cases he : e.isFatal with
      | true => simp [he]
      | false =>
        simp only [he]
        exact ⟨Or.resolve_left hbalanced (by simp [he]),
          fun _ => hbase ▸ closedFrom_unwound m' m.depth m.callBase⟩
  · have hlasts : Lasts embedding fuel (fun _ => False) m.running.owner i (fun run => call run f args) m :=
      lasts_of_tends hU hosts (L := m.nested) (hi.trans_eq hbase.symm) fun _ _ hminds =>
        call_tends hU hminds (fun _ _ => id) hsteady hd hkempt m.leased_nested le_rfl le_rfl f args
    exact hlasts.of_always halways hv
  · have hlasts : Lasts embedding fuel (fun _ => False) m.running.owner i
        (fun run => protectedCall run f args) m :=
      lasts_of_tends hU hosts (L := m.nested) (hi.trans_eq hbase.symm) fun _ _ hminds =>
        protectedCall_tends hU hminds (fun _ _ => id) hsteady hd hkempt m.leased_nested le_rfl le_rfl f args
    exact hlasts.of_always halways hv

/-- A host function is stopped that was called with an argument. -/
def Errand.stall : Errand ⟨Prototype.leap.Contains, .host, true, true⟩ where
  script := fun run => call run (.function (.host (.embedded "stall"))) [.bool true]
  isScript := .call _ _ rfl
  embedding := fun _ _ => throw .crash
  hosts := fun _ => .throw (by simp)
  fuel := 2

/-- A machine that runs a host function. -/
def Machine.stalled : Machine := (Errand.stall.outcome .bare).state

theorem Machine.stalled_occurs : stalled.Occurs ⟨Prototype.leap.Contains, .host, true, true⟩ :=
  ⟨_, .stall, fun _ => False, .blank bare_blank rfl, by rw [Errand.upTo_never, stalled]⟩

theorem calls_balanced_stalled :
    let answer : Value := .function (.host (.embedded "answer"))
    0 < Machine.stalled.running.top ∧
      (∃ vs m', call (run (fun _ _ => pure 0) 9) answer [] Machine.stalled = .ok vs m' ∧
        Machine.stalled.Balanced m') ∧
      ∃ vs m', protectedCall (run (fun _ _ => pure 0) 9) .nil [] Machine.stalled = .ok (false, vs) m' ∧
        Machine.stalled.Balanced m' ∧ m'.ClosedFrom Machine.stalled.running.top := by
  intro answer
  have hhost : ∃ f, Machine.stalled.topFrame? = some f ∧ f.isLua = false := by
    have htop : (Machine.stalled.topFrame?.map Frame.isLua) = some false := by decide +kernel
    exact Option.map_eq_some_iff.1 htop
  have hosts (name : String) :
      Tame ⟨Prototype.leap.Contains, .host, true, true⟩ True ((fun _ _ => pure 0 : Embedding) name) := .pure 0
  have hbalanced := calls_balanced Prototype.leap_coherent.isCatalog Machine.stalled_occurs (.inr hhost) hosts 9
  refine ⟨by decide +kernel, ?_, ?_⟩
  · have hended : (match call (run (fun _ _ => pure 0) 9) answer [] Machine.stalled with
      | .ok _ _ => true
      | .error _ _ => false) = true := by decide +kernel
    obtain ⟨hcall, -⟩ := hbalanced answer []
    cases h : call (run (fun _ _ => pure 0) 9) answer [] Machine.stalled with
    | ok vs m' =>
      rw [h] at hcall
      exact ⟨vs, m', rfl, hcall⟩
    | error e m' => simp [h] at hended
  · have hended : (match protectedCall (run (fun _ _ => pure 0) 9) .nil [] Machine.stalled with
      | .ok (ok, _) _ => !ok
      | .error _ _ => false) = true := by decide +kernel
    obtain ⟨-, hcall, -⟩ := hbalanced .nil []
    cases h : protectedCall (run (fun _ _ => pure 0) 9) .nil [] Machine.stalled with
    | ok r m' =>
      obtain ⟨ok, vs⟩ := r
      rw [h] at hcall hended
      obtain rfl : ok = false := by simpa using hended
      exact ⟨vs, m', rfl, hcall.1, hcall.2 rfl⟩
    | error e m' => simp [h] at hended

end LuaMachine
