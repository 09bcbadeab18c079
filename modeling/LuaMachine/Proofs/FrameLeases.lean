import LuaMachine.Proofs.Calling
import LuaMachine.Proofs.Leases

/-!
Frames come and go within leases. A frame that is entered lies above the floor of the lease, and what is
open over the registers of a frame that goes is closed.
-/

namespace LuaMachine

variable {C : Custody} {ts : List CoroutineId} {m m' : Machine} {L : Lease} {f : Frame}
  {fs : List Frame} {slot : Nat} {honest bounded : Bool} {α : Type}

namespace Custody.Tends

theorem closeUpvalues (hm : m.Steady C.toRegime ts) (hk : m.Kempt C.honest C.bounded)
    (hL : m.Leased C.honest C.bounded L) (level : Nat) :
    C.Tends L m (LuaMachine.closeUpvalues level m) := by
  have hshift := hm.shift_closeUpvalues level
  have hcarries : m.Carries .host (m.modifyBoth fun h s => h.closeCells s level) :=
    hm.carries_closeUpvalues level
  have hopen (oc : OpenCell)
      (hoc : oc ∈ (m.modifyBoth fun h s => h.closeCells s level).running.openCells) :
      oc ∈ m.running.openCells ∨ m.MayOpen C.honest C.bounded L oc.slot :=
    .inl ((hcarries.opened oc hoc).resolve_right id)
  have hconfined : Confined (.between L.floor) (fun _ => False) (LuaMachine.closeUpvalues level) :=
    .closeUpvalues level
  exact ⟨hk.carried hm hcarries hopen, .of_respects hm (hm.drift hshift.drift hshift.tidy)
    hcarries.buries (.of_retains fun _ => (hconfined m L.floor nofun fun _ => id).retains),
    fun _ => hL.carried hcarries nofun hopen⟩

end Custody.Tends

/-- What is still open once upvalues were closed from a slot on lies below it. -/
theorem Machine.slot_lt_of_closed {level : Nat} {oc : OpenCell}
    (hoc : oc ∈ (m.modifyBoth fun h s => h.closeCells s level).running.openCells) : oc.slot < level := by
  have heq := congrArg Strand.openCells (m.heap.openCells_closeCells m.running level)
  change oc ∈ (m.heap.closeCells m.running level).2.openCells at hoc
  rw [heq, List.mem_filter] at hoc
  simpa using hoc.2

/-- A frame is entered. -/
theorem Machine.Kempt.pushed (hk : m.Kempt honest bounded) (f : Frame) :
    (m.pushed f).Kempt honest bounded := by
  refine hk.of_running rfl rfl rfl
    ⟨hk.running.listed, hk.running.distinct, hk.running.within, fun hh oc hoc => ?_⟩
  obtain ⟨g, hg, hcovers⟩ := hk.running.covered hh oc hoc
  refine ⟨g, ?_, hcovers⟩
  rw [m.frames_pushed]
  exact List.mem_append_left _ hg

/-- A frame that is entered has to lie above the floor of the lease. -/
theorem Machine.Leased.pushed (hL : m.Leased honest bounded L) (hdepth : L.depth ≤ m.depth)
    (hf : f.Above L.floor) (htop : L.floor ≤ m.running.top) :
    (m.pushed f).Leased honest bounded L := by
  have hdrop : (m.pushed f).running.frames.toList.drop L.depth =
      m.running.frames.toList.drop L.depth ++ [f] := by
    rw [m.frames_pushed, List.drop_append_of_le_length (by rwa [Array.length_toList])]
  refine ⟨fun g hg => ?_, fun _ => htop, fun hh oc hoc => ?_⟩
  · rw [hdrop] at hg
    rcases List.mem_append.1 hg with hg | hg
    · exact hL.frames g hg
    · exact List.mem_singleton.1 hg ▸ hf
  · refine (hL.covered hh oc hoc).imp_right fun ⟨g, hg, hcovers⟩ => ⟨g, ?_, hcovers⟩
    rw [hdrop]
    exact List.mem_append_left _ hg

/-- Nothing is open over the registers of a frame, if its function has any. -/
def Machine.Unnamed (honest : Bool) (f : Frame) (m : Machine) : Prop :=
  honest = true → f.isLua = true → ∀ oc ∈ m.running.openCells, oc.slot < f.base

theorem Machine.Unnamed.ne {g : Frame} {h : Heap} (hopen : m.Unnamed honest f) (hh : honest = true)
    {oc : OpenCell} (hoc : oc ∈ m.running.openCells) (hcovers : g.Covers bounded h oc.slot) :
    g ≠ f := by
  rintro rfl
  obtain ⟨hbase, c, hc, -⟩ := hcovers
  exact absurd (hopen hh (Frame.isLua_of_closure? hc) oc hoc) (Nat.not_lt.2 hbase)

theorem Machine.Kempt.popped (hk : m.Kempt honest bounded) (hfs : m.running.frames.toList = fs ++ [f])
    (hopen : m.Unnamed honest f) : m.popped.Kempt honest bounded := by
  refine hk.of_running rfl rfl rfl
    ⟨hk.running.listed, hk.running.distinct, hk.running.within, fun hh oc hoc => ?_⟩
  obtain ⟨g, hg, hcovers⟩ := hk.running.covered hh oc hoc
  refine ⟨g, ?_, hcovers⟩
  rw [hfs] at hg
  rw [m.frames_popped, hfs, List.dropLast_concat]
  exact (List.mem_append.1 hg).resolve_right fun hg =>
    hopen.ne hh hoc hcovers (List.mem_singleton.1 hg)

theorem Machine.Leased.popped (hL : m.Leased honest bounded L)
    (hfs : m.running.frames.toList = fs ++ [f]) (hopen : m.Unnamed honest f) :
    m.popped.Leased honest bounded L := by
  have hframes : m.popped.running.frames.toList = fs := by
    rw [m.frames_popped, hfs, List.dropLast_concat]
  have hdrop : m.running.frames.toList.drop L.depth =
      fs.drop L.depth ++ [f].drop (L.depth - fs.length) := by rw [hfs, List.drop_append]
  refine ⟨fun g hg => hL.frames g ?_, fun hd => hL.top ?_, fun hh oc hoc => ?_⟩
  · rw [hframes] at hg
    rw [hdrop]
    exact List.mem_append_left _ hg
  · rw [Machine.depth, ← Array.length_toList, hframes] at hd
    rw [Machine.depth, ← Array.length_toList, hfs, List.length_append]
    exact hd.trans (Nat.lt_succ_self _)
  · refine (hL.covered hh oc hoc).imp_right fun hcovered => ?_
    obtain ⟨g, hg, hcovers⟩ := hcovered
    refine ⟨g, ?_, hcovers⟩
    rw [hframes]
    rw [hdrop] at hg
    exact (List.mem_append.1 hg).resolve_right fun hg =>
      hopen.ne hh hoc hcovers (List.mem_singleton.1 (List.mem_of_mem_drop hg))

section

variable (hS : IsCatalog C.program)

include hS

/-! Leaving a frame -/

omit hS in
/-- Results are moved between slots that the lease leaves free. -/
theorem Confined.moveResults {floor first n : Nat} (hslot : floor ≤ f.slot)
    (hfirst : 0 < n → floor ≤ first) :
    Confined (.between floor) (fun _ => False) (moveResults first n f) := by
  have hfrees : (Seat.between floor).Frees f.slot := hslot
  have hmove : Confined (.between floor) (fun _ => False)
      (moveSlots f.slot first (min (f.wanted.getD n) n)) := by
    cases n with
    | zero =>
      rw [Nat.min_zero]
      exact .pure ()
    | succ n => exact Confined.slotwise.moveSlots hfrees (hfirst n.succ_pos) _
  exact .andThen (.ensureStack _) fun _ => .andThen hmove fun _ =>
    Confined.slotwise.clearSlots (hfrees.mono (Nat.le_add_right ..)) _

omit hS in
theorem Confined.moveCall {floor slot : Nat} (hslot : floor ≤ slot) (hf : floor ≤ f.slot) (argCount : Nat) :
    Confined (.between floor) (fun _ => False) (moveCall slot argCount f) := by
  have hfrees : (Seat.between floor).Frees f.slot := hf
  exact .andThen (Confined.slotwise.moveSlots hfrees hslot _) fun _ => .setTop (hfrees.mono (by omega))

theorem leaveFrom_tends (hm : m.Steady C.toRegime ts) (hk : m.Kempt C.honest C.bounded)
    (hL : m.Leased C.honest C.bounded L) (hslot : m.running.Floor f.slot) (hle : L.floor ≤ f.slot)
    {first n : Nat} (hfirst : 0 < n → L.floor ≤ first) :
    C.Tends L m (leaveFrom first n (some f) m) := by
  have hseq : Sequence (C.toRegime.between f.slot) (moveResults first n f) := .moveResults first n f
  rw [leaveFrom_some]
  refine (hseq.tends_between hS (.moveResults hle hfirst) hle hm hslot hk hL).bind hm
    (hseq.ends_between hS 0 hm hslot rfl) fun _ m' _ hm' hkeeps hfs hk' hL' => ?_
  obtain ⟨top, htop, hplace⟩ := settleTop_apply n f m'
  rw [htop]
  refine .setTop hm' hk' hL' ?_ fun hd => ?_
  · rcases hplace with hle | ⟨caller, hcaller, rfl⟩
    · exact (hkeeps.floor_of_frames hfs hslot).mono hle
    · exact hm'.floor_topFrame hcaller
  · rcases hplace with hle' | ⟨caller, hcaller, rfl⟩
    · exact hle.trans hle'
    · exact (hL'.frames caller (Machine.Leased.mem_drop_of_topFrame hcaller hd)).top

theorem leaveFrame_tends (hm : m.Steady C.toRegime ts) (hk : m.Kempt C.honest C.bounded)
    (hL : m.Leased C.honest C.bounded L) (hfs : m.running.frames.toList = fs ++ [f])
    (hlast : ts ≠ [] → fs = [] → m.running.openCells = []) (hdepth : L.depth ≤ fs.length)
    (hopen : m.Unnamed C.honest f)
    {first n : Nat} (hfirst : 0 < n → L.floor ≤ first) : C.Tends L m (leaveFrame first n m) := by
  have hm' := hm.popped hfs hlast
  have hpopped : m.popped.running.frames.toList = fs := by
    rw [m.frames_popped, hfs, List.dropLast_concat]
  have hslot : m.popped.running.Floor f.slot := fun howner b fs' hf =>
    (hm.floor_of_mem hfs howner b fs' (hpopped ▸ hf)).slot
  have hmem : f ∈ m.running.frames.toList.drop L.depth := by
    rw [hfs, List.drop_append_of_le_length hdepth]
    exact List.mem_append_right _ List.mem_cons_self
  rw [leaveFrame_apply, topFrame?_of_append hfs]
  exact .after hm hm' (Machine.keeps_popped C.toRegime hfs (Nat.zero_le _)).toSpares rfl
    (.of_running hm hm' rfl rfl rfl rfl) (leaveFrom_tends hS hm' (hk.popped hfs hopen)
      (hL.popped hfs hopen) hslot (hL.frames f hmem).slot hfirst)

/-! Entering a function -/

theorem enterLua_tends (hm : m.Steady C.toRegime ts) (hk : m.Kempt C.honest C.bounded)
    (hL : m.Leased C.honest C.bounded L) (hdepth : L.depth ≤ m.depth) (hslot : m.running.Floor slot)
    (hle : L.floor ≤ slot) {c : ClosureId} (hc : c.index < m.heap.closures.size)
    {unit : Option CompiledUnit} (hunit : ∀ u, unit = some u → (m.heap.closure c).proto.IsUnit u)
    (argCount : Nat) {wanted : Option Nat}
    (hroot : ts ≠ [] → m.running.frames.toList = [] → slot = 0 ∧ wanted = none) (tail : Bool) :
    C.Tends L m (enterLua c unit slot argCount wanted tail m) := by
  have hends := enterLua_ends hS hm hslot hc hunit argCount hroot tail 0
  have hlay : Orderly (C.toRegime.between slot) (layOutFrame c slot argCount) :=
    .layOutFrame c le_rfl argCount
  rw [enterLua_eq, Action.bind_apply] at hends
  rw [enterLua_eq]
  refine (hlay.tends_between hS hle hm hslot hk hL).bind hm
    (layOutFrame_ends hS hm hslot c argCount 0) fun ⟨p, base, top⟩ m₁ heq hm₁ _ h hk₁ hL₁ => ?_
  obtain ⟨hfs₁, hbase, htop, hend⟩ := h
  rw [heq] at hends
  have hbase : L.floor ≤ base := hle.trans (Nat.le_of_lt hbase)
  have hdepth₁ : m₁.depth = m.depth := congrArg Array.size hfs₁
  exact ⟨hk₁.pushed _, .of_running hm₁ hends.1 rfl rfl rfl rfl, fun _ => hL₁.pushed (hdepth₁ ▸ hdepth)
    ⟨hle, hbase, hbase.trans htop⟩ (hend ▸ hbase.trans htop)⟩

/-- The frame on top gives way to another one. -/
theorem replaceFrame_tends (hm : m.Steady C.toRegime ts) (hk : m.Kempt C.honest C.bounded)
    (hL : m.Leased C.honest C.bounded L) (hfs : m.running.frames.toList = fs ++ [f])
    (hdepth : L.depth ≤ fs.length) {c : ClosureId} (hc : c.index < m.heap.closures.size)
    {unit : Option CompiledUnit} (hunit : ∀ u, unit = some u → (m.heap.closure c).proto.IsUnit u)
    {slot : Nat} (hle : L.floor ≤ slot) (argCount : Nat) :
    C.Tends L m (replaceFrame c unit slot argCount m) := by
  obtain ⟨hm₁, hk₁, hfs₁, hslot₁, hroot⟩ := hm.vacated hfs (Nat.zero_le _)
  have hclose := Custody.Tends.closeUpvalues hm hk hL f.base
  have hshift := hm.shift_closeUpvalues f.base
  have hfsc : (m.modifyBoth fun h s => h.closeCells s f.base).running.frames.toList = fs ++ [f] := by
    rw [hshift.frames, hfs]
  have hopen : (m.modifyBoth fun h s => h.closeCells s f.base).Unnamed C.honest f :=
    fun _ _ _ => Machine.slot_lt_of_closed
  have hkempt₁ : (m.vacated f.base).Kempt C.honest C.bounded := hclose.kempt.popped hfsc hopen
  have hL₁ : (m.vacated f.base).Leased C.honest C.bounded L := hclose.leased_ok.popped hfsc hopen
  have hleaves : C.Leaves L.floor m (m.vacated f.base) :=
    hclose.leaves.congr rfl rfl rfl rfl rfl rfl rfl rfl
  have hseq : Sequence (C.toRegime.between f.slot) (moveCall slot argCount f) := .moveCall slot argCount f
  have hmem : f ∈ m.running.frames.toList.drop L.depth := by
    rw [hfs, List.drop_append_of_le_length hdepth]
    exact List.mem_append_right _ List.mem_cons_self
  have hfloor : L.floor ≤ f.slot := (hL.frames f hmem).slot
  have hconfined := Confined.moveCall hle hfloor argCount
  rw [replaceFrame_of_append hfs]
  refine .after hm hm₁ hk₁.toSpares hk₁.owner hleaves ?_
  refine (hseq.tends_between hS hconfined hfloor hm₁ hslot₁ hkempt₁ hL₁).bind hm₁
    (hseq.ends_between hS 0 hm₁ hslot₁ rfl) fun _ m₂ _ hm₂ hk₂ hfs₂ hkempt₂ hL₂ => ?_
  have hx := hk₁.extend.trans hk₂.extend
  refine enterLua_tends hS hm₂ hkempt₂ hL₂ ?_ (hk₂.floor_of_frames hfs₂ hslot₁) hfloor (hx c hc).1 ?_
    argCount (fun hts hnil => hroot hts ?_) true
  · rwa [Machine.depth, ← Array.length_toList, hfs₂, hfs₁]
  · rwa [hx.proto hc]
  · rwa [hfs₂, hfs₁] at hnil

/-! Resolving the called value -/

theorem unitFor_tends (hm : m.Steady C.toRegime ts) (hk : m.Kempt C.honest C.bounded)
    (hL : m.Leased C.honest C.bounded L) {c : ClosureId} (hc : c.index < m.heap.closures.size) :
    C.Tends L m (unitFor c m) := by
  rw [unitFor_eq]
  split
  · exact .stay hk hL rfl
  · refine Custody.Tends.bind hm (compileClosure_ends hS hm hc 0) ?_ fun r m' _ hm' _ _ hk' hL' => ?_
    · obtain ⟨r, h, happly, hshift, hcells, hcoroutines, -⟩ := compileClosure_shift hS hm hc
      have hcarries : m.Carries .host { m with heap := h } :=
        .of_cells hshift le_rfl hcells rfl fun _ hbeyond _ => hbeyond.top
      rw [happly]
      refine ⟨hk.carried (L := L) hm hcarries fun oc hoc => .inl hoc, .of_respects hm
        (hm.drift hshift.drift hshift.tidy) hcarries.buries (.of_retains fun _ =>
        .of_eq rfl rfl fun u s hs => ?_), fun _ => hL.carried hcarries (fun _ h => by cases h) fun oc hoc => .inl hoc⟩
      change (h.coroutine u).strand = some s
      rwa [Heap.coroutine, hcoroutines, ← Heap.coroutine]
    · cases r with
      | ok u => exact .stay hk' hL' rfl
      | error e =>
        dsimp only [CompileMode.choose]
        split <;> exact .stay hk' hL' rfl

theorem resolveCall_tends (hm : m.Steady C.toRegime ts) (hk : m.Kempt C.honest C.bounded)
    (hL : m.Leased C.honest C.bounded L) (hslot : m.running.Floor slot) (hle : L.floor ≤ slot)
    (steps argCount : Nat) : C.Tends L m (resolveCall slot steps argCount m) := by
  induction steps generalizing m argCount with
  | zero => exact .stay hk hL rfl
  | succ steps ih =>
    have hresolving := resolving slot steps argCount m
    generalize resolveCall slot (steps + 1) argCount m = r at hresolving ⊢
    cases hresolving with
    | missing | host _ _ | fails _ _ => exact .stay hk hL rfl
    | lua _ hc =>
      exact (unitFor_tends hS hm hk hL hc).bind hm (unitFor_ends hS hm hc 0)
        fun _ _ _ _ _ _ hk₁ hL₁ => .stay hk₁ hL₁ rfl
    | @handler v h _ _ _ =>
      have hseq : Orderly (C.toRegime.between slot) (placeHandler slot argCount h) :=
        .placeHandler (show (Seat.between slot).Frees slot from le_rfl) argCount h
      exact (hseq.tends_between hS hle hm hslot hk hL).bind hm
        (hseq.sequence.ends_between hS 0 hm hslot rfl) fun _ m' _ hm' hk' hfs hkempt' hL' =>
          ih hm' hkempt' hL' (hk'.floor_of_frames hfs hslot) (argCount + 1)

end

end LuaMachine
