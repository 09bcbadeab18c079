import LuaMachine.Proofs.Cells
import LuaMachine.Proofs.Switching

/-!
Custody of slots and cells. `Kempt` says of a machine that each strand lists the cells that are open over
it, and that they belong to its frames. A lease is what a call may use of the running strand; whatever is run
keeps to its lease and leaves all other slots alone, but for those assigned to through upvalues.
-/

namespace LuaMachine

/-- What is looked after while a machine runs. -/
structure Custody extends Regime where
  /-- Places on stacks to which nothing is assigned through upvalues. -/
  place : Owner → Nat → Prop
  /-- Whether closures capture only registers that their function has. -/
  bounded : Bool

/-- A slot is a register of the frame of a Lua function. -/
structure Frame.Covers (bounded : Bool) (h : Heap) (f : Frame) (slot : Nat) : Prop where
  base : f.base ≤ slot
  closure : ∃ c, f.closure? = some c ∧ c.index < h.closures.size ∧
    (bounded = true → slot < f.base + (h.closure c).proto.maxStack.toNat)

/-- A strand knows which cells are open over it, at most one over each slot; where host functions keep
to the rules, these are registers of its frames. -/
structure Strand.Kempt (honest bounded : Bool) (h : Heap) (s : Strand) : Prop where
  listed : s.Lists h
  distinct : (s.openCells.map (·.slot)).Nodup
  within : bounded = true → ∀ oc ∈ s.openCells, oc.slot < s.stack.size
  covered : honest = true → ∀ oc ∈ s.openCells, ∃ f ∈ s.frames.toList, f.Covers bounded h oc.slot

structure Machine.Kempt (honest bounded : Bool) (m : Machine) : Prop where
  running : m.running.Kempt honest bounded m.heap
  parked : ∀ s ∈ m.parked, s.Kempt honest bounded m.heap
  stored : ∀ c s, (m.heap.coroutine c).strand = some s → s.Kempt honest bounded m.heap
  /-- What is open over a main stack is open over that of this machine. -/
  main : ∀ id n i, m.heap.cell id = .opened (.main n) i →
    .main n ∈ (m.running :: m.parked).map (·.owner)

/-- What a call may use: frames from a depth on, slots from a floor on, and the cells that were open
before. -/
structure Lease where
  depth : Nat
  floor : Nat
  cells : List OpenCell

/-- The frames above the depth of a lease keep to it; other cells than those of the lease are open over
their registers. -/
structure Machine.Leased (honest bounded : Bool) (L : Lease) (m : Machine) : Prop where
  frames : ∀ f ∈ m.running.frames.toList.drop L.depth, f.Above L.floor
  top : L.depth < m.depth → L.floor ≤ m.running.top
  covered : honest = true → ∀ oc ∈ m.running.openCells, oc ∈ L.cells ∨
    ∃ f ∈ m.running.frames.toList.drop L.depth, f.Covers bounded m.heap oc.slot

/-- A cell may be opened over a slot. -/
structure Machine.MayOpen (honest bounded : Bool) (L : Lease) (m : Machine) (slot : Nat) : Prop where
  within : bounded = true → slot < m.running.stack.size
  covered : honest = true →
    ∃ f ∈ m.running.frames.toList.drop L.depth, f.Covers bounded m.heap slot

/-- Slots below one of the running stack keep their values, and so do all of the stacks that wait for it
and of coroutines that sleep. -/
structure Custody.Leaves (C : Custody) (k : Nat) (m m' : Machine) : Prop where
  buries : m.heap.Buries m'.heap
  /-- What is being resumed is not suspended meanwhile. -/
  awake : ∀ t, (m.heap.coroutine t).status = .running ∨ (m.heap.coroutine t).status = .normal →
    (m'.heap.coroutine t).status ≠ .suspended
  waiting : ∀ o i v, C.place o i → o ∈ (m.running :: m.parked).map (·.owner) →
    (o = m.running.owner → i < k) → m.slot? o i = some v → m'.slot? o i = some v
  asleep : ∀ u i v, C.place (.coroutine u) i → C.quiet u →
    (m.heap.coroutine u).status = .suspended → (m'.heap.coroutine u).status = .suspended →
      m.slot? (.coroutine u) i = some v → m'.slot? (.coroutine u) i = some v

/-- Places keep their values, but for those of the running stack from a slot on. -/
def Custody.Respects (C : Custody) (k : Nat) (m m' : Machine) : Prop :=
  ∀ o i v, C.place o i → (o = m.running.owner → i < k) → m.slot? o i = some v →
    m'.slot? o i = some v

/-- There are places to look after. -/
def Custody.Strict (C : Custody) : Prop := ∃ o i, C.place o i

/-- How something that is run under a lease ends. What no protected call may see need not keep to the
lease, as nothing goes on from there. -/
structure Custody.Tends (C : Custody) (L : Lease) (m : Machine) {α : Type} (r : Outcome α) : Prop where
  kempt : r.state.Kempt C.honest C.bounded
  leaves : C.Leaves L.floor m r.state
  leased : (∀ e m', r = .error e m' → e.isFatal = false) → r.state.Leased C.honest C.bounded L

variable {C : Custody} {R : Conduct} {ts : List CoroutineId} {m m' m'' : Machine} {L : Lease}
  {honest bounded : Bool} {h h' : Heap} {s s' : Strand} {seat : Seat} {k d slot : Nat} {α β : Type}

/-! Strands -/

theorem Frame.Covers.mono {f : Frame} (hf : f.Covers bounded h slot) (hx : h.Extends h') :
    f.Covers bounded h' slot := by
  obtain ⟨hbase, c, hc, hlt, hwindow⟩ := hf
  refine ⟨hbase, c, hc, (hx c hlt).1, ?_⟩
  rwa [hx.proto hlt]

theorem Strand.Kempt.of_nil (hs : s.openCells = []) : s.Kempt honest bounded h := by
  constructor <;> simp [Strand.Lists, hs]

theorem Strand.Kempt.rests (hs : s.Kempt honest bounded h) (hr : s.Rests h h' s')
    (hx : h.Extends h')
    (hcells : ∀ id i, h.cell id = .opened s.owner i → h'.cell id = .opened s.owner i) :
    s'.Kempt honest bounded h' where
  listed oc hoc := by
    rw [hr.owner]
    exact hcells _ _ (hs.listed oc (hr.openCells ▸ hoc))
  distinct := hr.openCells ▸ hs.distinct
  within hb oc hoc := hr.size ▸ hs.within hb oc (hr.openCells ▸ hoc)
  covered hh oc hoc := by
    obtain ⟨f, hf, hcovers⟩ := hs.covered hh oc (hr.openCells ▸ hoc)
    exact ⟨f, hr.frames ▸ hf, hcovers.mono hx⟩

theorem Strand.Kempt.matches (hs : s.Kempt honest bounded h) (hx : h.Matches h') :
    s.Kempt honest bounded h' :=
  hs.rests (.of_names fun i => (hx.names s.owner i).1) hx.extend fun id _ hid => hx.cell id ▸ hid

namespace Machine.Kempt

/-- Basic actions keep strands in order, if they open cells only where they may. -/
theorem carried (hm : m.Steady C.toRegime ts) (hk : m.Kempt honest bounded)
    (hc : m.Carries seat m')
    (hopen : ∀ oc ∈ m'.running.openCells, oc ∈ m.running.openCells ∨
      m.MayOpen honest bounded L oc.slot) : m'.Kempt honest bounded where
  running := by
    refine ⟨hc.listed hk.running.listed, hc.distinct hk.running.distinct, fun hb oc hoc => ?_,
      fun hh oc hoc => ?_⟩
    · refine lt_of_lt_of_le ?_ hc.size
      exact (hopen oc hoc).elim (hk.running.within hb oc) fun h => h.within hb
    · obtain ⟨f, hf, hcovers⟩ : ∃ f ∈ m.running.frames.toList, f.Covers bounded m.heap oc.slot := by
        rcases hopen oc hoc with hold | hnew
        · exact hk.running.covered hh oc hold
        · obtain ⟨f, hf, hcovers⟩ := hnew.covered hh
          exact ⟨f, List.mem_of_mem_drop hf, hcovers⟩
      exact ⟨f, hc.frames ▸ hf, hcovers.mono hc.extend⟩
  parked s' hs' := by
    obtain ⟨s, hs, hr⟩ := hc.parked.exists_of_mem hs'
    exact (hk.parked s hs).rests hr hc.extend fun id i hid =>
      hc.elsewhere hk.running.listed id _ i (hm.owner_parked hs) hid
  stored c s' hs' := by
    rcases hc.stored c s' hs' with hnil | ⟨s, hs, hr⟩
    · exact .of_nil hnil
    · exact (hk.stored c s hs).rests hr hc.extend fun id i hid =>
        hc.elsewhere hk.running.listed id _ i (hm.ne_owner_stored hs) hid
  main id n i hid := by
    have howners : (m'.running :: m'.parked).map (·.owner) =
        (m.running :: m.parked).map (·.owner) := by
      rw [List.map_cons, List.map_cons, hc.owner, hc.parked.map_owner]
    rw [howners]
    rcases hc.cells id _ i hid with hold | howner
    · exact hk.main id n i hold
    · exact List.mem_cons.2 (.inl howner)

/-- A change of the running strand only. -/
theorem of_running (hk : m.Kempt honest bounded) (hheap : m'.heap = m.heap)
    (hparked : m'.parked = m.parked) (howner : m'.running.owner = m.running.owner)
    (hrunning : m'.running.Kempt honest bounded m.heap) : m'.Kempt honest bounded where
  running := hheap ▸ hrunning
  parked := by
    rw [hparked, hheap]
    exact hk.parked
  stored := by
    rw [hheap]
    exact hk.stored
  main := by
    rw [hheap, List.map_cons, howner, hparked]
    exact hk.main

end Machine.Kempt

/-! Leases -/

/-- The lease that leaves all to whoever has it. -/
def Lease.all : Lease := ⟨0, 0, []⟩

namespace Machine.Leased

theorem all (hk : m.Kempt honest bounded) : m.Leased honest bounded .all :=
  ⟨fun _ _ => ⟨Nat.zero_le _, Nat.zero_le _, Nat.zero_le _⟩, fun _ => Nat.zero_le _, fun hh oc hoc =>
    .inr (hk.running.covered hh oc hoc)⟩

/-- A call may have what lies above all that is there. -/
theorem fresh (m : Machine) (hd : m.depth ≤ L.depth) (hcells : L.cells = m.running.openCells) :
    m.Leased honest bounded L := by
  have hnil : m.running.frames.toList.drop L.depth = [] :=
    List.drop_eq_nil_of_le (by rwa [Array.length_toList])
  refine ⟨fun f hf => ?_, fun hlt => absurd hlt (Nat.not_lt.2 hd), fun _ oc hoc => .inl (hcells ▸ hoc)⟩
  rw [hnil] at hf
  cases hf

theorem mem_drop_of_topFrame {f : Frame} (hf : m.topFrame? = some f) (hd : d < m.depth) :
    f ∈ m.running.frames.toList.drop d := by
  obtain ⟨init, hinit⟩ := topFrame?_eq_some.1 hf
  rw [depth, ← Array.length_toList, hinit, List.length_append, List.length_singleton] at hd
  rw [hinit, List.drop_append_of_le_length (Nat.le_of_lt_succ hd)]
  simp

theorem beyond (hL : m.Leased honest bounded L) (hd : L.depth < m.depth) : m.Beyond L.floor :=
  ⟨hL.top hd, fun f hf => (hL.frames f (mem_drop_of_topFrame hf hd)).top⟩

theorem carried (hL : m.Leased honest bounded L) (hc : m.Carries seat m')
    (hfloor : ∀ i, seat.Frees i → L.floor ≤ i)
    (hopen : ∀ oc ∈ m'.running.openCells, oc ∈ m.running.openCells ∨
      m.MayOpen honest bounded L oc.slot) : m'.Leased honest bounded L where
  frames := by
    rw [hc.frames]
    exact hL.frames
  top hd := by
    have hd : L.depth < m.depth := by rwa [depth, hc.frames] at hd
    exact hc.top _ (hL.beyond hd) hfloor
  covered hh oc hoc := by
    rw [hc.frames]
    have hold : oc ∈ L.cells ∨ ∃ f ∈ m.running.frames.toList.drop L.depth,
        f.Covers bounded m.heap oc.slot := by
      rcases hopen oc hoc with hold | hnew
      · exact hL.covered hh oc hold
      · exact .inr (hnew.covered hh)
    rcases hold with hold | ⟨f, hf, hcovers⟩
    · exact .inl hold
    · exact .inr ⟨f, hf, hcovers.mono hc.extend⟩

end Machine.Leased

/-! Slots -/

theorem Machine.slot?_congr (hheap : m'.heap = m.heap) (hparked : m'.parked = m.parked)
    (howner : m'.running.owner = m.running.owner) (hstack : m'.running.stack = m.running.stack)
    (o : Owner) (i : Nat) : m'.slot? o i = m.slot? o i := by
  unfold slot? strand?
  rw [howner, hparked, hheap]
  by_cases ho : m.running.owner = o
  · simp [ho, hstack]
  · simp [ho]

/-- What is running or waiting for another coroutine is being resumed. -/
theorem Machine.Chained.mem_of_status {t : CoroutineId} (hm : m.Chained ts)
    (ht : (m.heap.coroutine t).status = .running ∨ (m.heap.coroutine t).status = .normal) :
    t ∈ ts := by
  by_contra hnot
  have hlt : t.index < m.heap.coroutines.size :=
    Heap.coroutine_lt (by rcases ht with ht | ht <;> simp [ht])
  obtain ⟨s, -, -, hst⟩ := hm.others t hlt hnot
  rcases hst with hst | ⟨hst, -⟩ <;> simp [hst] at ht

/-- The same coroutines are being resumed before and after. -/
theorem Machine.Chained.awake (hm : m.Chained ts) (hm' : m'.Chained ts) (t : CoroutineId)
    (ht : (m.heap.coroutine t).status = .running ∨ (m.heap.coroutine t).status = .normal) :
    (m'.heap.coroutine t).status ≠ .suspended := by
  rcases hm'.status_of_mem (hm.mem_of_status ht) with h | h <;> simp [h]

namespace Custody.Leaves

theorem refl (m : Machine) (k : Nat) : C.Leaves k m m where
  buries := .refl _
  awake t ht hsus := by simp [hsus] at ht
  waiting _ _ _ _ _ _ := id
  asleep _ _ _ _ _ _ _ := id

/-- A change in which no slot is written that is to keep its value. -/
theorem of_respects (hm : m.Steady C.toRegime ts) (hm' : m'.Steady C.toRegime ts)
    (hbury : m.heap.Buries m'.heap) (hslots : C.Respects k m m') : C.Leaves k m m' where
  buries := hbury
  awake := hm.awake hm'.toChained
  waiting o i v hp _ := hslots o i v hp
  asleep _ i v hp _ hu _ := hslots _ i v hp fun howner =>
    absurd (hm.owner_mem List.mem_cons_self howner.symm) (hm.not_mem_of_status hu)

theorem trans (hm : m.Steady C.toRegime ts) (hm' : m'.Steady C.toRegime ts)
    (hs : m.Spares C.toRegime m') (howner : m'.running.owner = m.running.owner)
    (hl : C.Leaves k m m') (hl' : C.Leaves k m' m'') : C.Leaves k m m'' where
  buries := hl.buries.trans hl'.buries
  awake t ht := by
    refine hl'.awake t ?_
    rcases hm'.status_of_mem (hm.mem_of_status ht) with h | h <;> simp [h]
  waiting o i v hp ho hi hv := by
    refine hl'.waiting o i v hp ?_ (fun h => hi (h.trans howner)) (hl.waiting o i v hp ho hi hv)
    rwa [List.map_cons, howner, hs.parked.map_owner, ← List.map_cons]
  asleep u i v hp hq hu hu' hv := by
    have hmid : (m'.heap.coroutine u).status = .suspended := by
      rcases hs.quiet u hq hu with hr | hdead
      · exact hr.status.trans hu
      · have hstatus := (hl'.buries u hdead).2
        rw [hu'] at hstatus
        cases hstatus
    exact hl'.asleep u i v hp hq hmid hu' (hl.asleep u i v hp hq hu hmid hv)

end Custody.Leaves

/-! How things end -/

namespace Custody.Tends

variable {r : Outcome α}

theorem stay (hk : m.Kempt C.honest C.bounded) (hL : m.Leased C.honest C.bounded L) (hr : r.state = m) :
    C.Tends L m r :=
  ⟨hr ▸ hk, hr ▸ .refl _ L.floor, fun _ => hr ▸ hL⟩

/-- What comes later counts from before. -/
theorem after (hm : m.Steady C.toRegime ts) (hm' : m'.Steady C.toRegime ts)
    (hs : m.Spares C.toRegime m') (howner : m'.running.owner = m.running.owner)
    (hl : C.Leaves L.floor m m') (hr : C.Tends L m' r) : C.Tends L m r :=
  ⟨hr.kempt, hl.trans hm hm' hs howner hr.leaves, hr.leased⟩

theorem leased_ok {a : α} (hr : C.Tends L m (.ok a m')) : m'.Leased C.honest C.bounded L :=
  hr.leased fun _ _ h => by cases h

theorem bind {good : α → Machine → Prop} {failing : Fault → Machine → Prop} {x : Action α}
    {f : α → Action β} (hm : m.Steady C.toRegime ts)
    (hends : C.toRegime.Ends ts d m good failing (x m)) (hx : C.Tends L m (x m))
    (hf : ∀ a m', x m = .ok a m' → m'.Steady C.toRegime ts → m.Keeps C.toRegime d m' → good a m' →
      m'.Kempt C.honest C.bounded → m'.Leased C.honest C.bounded L → C.Tends L m' (f a m')) :
    C.Tends L m ((x >>= f) m) := by
  rw [Action.bind_apply]
  cases hr : x m with
  | ok a m' =>
    rw [hr] at hends hx
    obtain ⟨hm', hk, hgood⟩ := hends
    exact .after hm hm' hk.toSpares hk.owner hx.leaves
      (hf a m' hr hm' hk hgood hx.kempt hx.leased_ok)
  | error e m' =>
    rw [hr] at hx
    exact ⟨hx.kempt, hx.leaves, fun hfatal => hx.leased fun e' m'' heq => by
      obtain ⟨rfl, rfl⟩ := EStateM.Result.error.inj heq
      exact hfatal _ _ rfl⟩

end Custody.Tends

/-! Basic actions -/

theorem Custody.Respects.of_retains (h : C.Strict → m.Retains k m') : C.Respects k m m' :=
  fun o i v hp => h ⟨o, i, hp⟩ o i v

section

variable (hS : IsCatalog C.program)

include hS

/-- A sequence keeps to a lease that has all its seat may free, if it opens cells only where it may. -/
theorem Sequence.tends (hR : ∀ p, R.program p → C.program p) {x : Action α} (h : Sequence R x)
    (hm : m.Steady C.toRegime ts) (hseat : R.Seated ts m) (hk : m.Kempt C.honest C.bounded)
    (hL : m.Leased C.honest C.bounded L) (hfloor : ∀ i, R.seat.Frees i → L.floor ≤ i)
    (hopen : ∀ oc ∈ (Outcome.state (x m)).running.openCells, oc ∈ m.running.openCells ∨
      m.MayOpen C.honest C.bounded L oc.slot)
    (hslots : C.Respects L.floor m (Outcome.state (x m))) : C.Tends L m (x m) := by
  obtain ⟨hm', hc⟩ := h.carries hS hR hm hseat
  exact ⟨hk.carried hm hc hopen, .of_respects hm hm' hc.buries hslots,
    fun _ => hL.carried hc hfloor hopen⟩

/-- What is confined to its seat writes no slot that is to keep its value. -/
theorem Sequence.tends_confined (hR : ∀ p, R.program p → C.program p) {opens : Nat → Prop}
    {x : Action α} (h : Sequence R x)
    (hx : Confined R.seat opens x ∨ ¬ C.Strict ∧ R.seat = .host) (hm : m.Steady C.toRegime ts)
    (hseat : R.Seated ts m) (hk : m.Kempt C.honest C.bounded) (hL : m.Leased C.honest C.bounded L)
    (hfloor : ∀ i, R.seat.Frees i → L.floor ≤ i) (hhost : R.seat = .host → m.Beyond L.floor)
    (hopens : ∀ slot, opens slot → m.MayOpen C.honest C.bounded L slot) : C.Tends L m (x m) := by
  rcases hx with hx | ⟨hfree, hseathost⟩
  · have hc := hx m L.floor hhost hfloor
    exact h.tends hS hR hm hseat hk hL hfloor (fun oc hoc => (hc.opened oc hoc).imp_right (hopens _))
      (.of_retains fun _ => hc.retains)
  · refine h.tends hS hR hm hseat hk hL hfloor (fun oc hoc => .inl ?_)
      (.of_retains fun hstrict => absurd hstrict hfree)
    refine ((h.carries hS hR hm hseat).2.opened oc hoc).resolve_right fun hopens => ?_
    rw [hseathost] at hopens
    exact hopens

end

/-! The running strand -/

/-- A change of the running strand in which its stack stays as it is. -/
theorem Custody.Leaves.of_running (hm : m.Steady C.toRegime ts) (hm' : m'.Steady C.toRegime ts)
    (hheap : m'.heap = m.heap) (hparked : m'.parked = m.parked)
    (howner : m'.running.owner = m.running.owner) (hstack : m'.running.stack = m.running.stack) :
    C.Leaves k m m' := by
  refine .of_respects hm hm' ?_ fun o i v _ _ => ?_
  · rw [hheap]
    exact .refl _
  · rw [Machine.slot?_congr hheap hparked howner hstack]
    exact id

/-- The free slot may be any that the frames of the lease leave free. -/
theorem Custody.Tends.setTop (hm : m.Steady C.toRegime ts) (hk : m.Kempt C.honest C.bounded)
    (hL : m.Leased C.honest C.bounded L) {top : Nat} (hfloor : m.running.Floor top)
    (htop : L.depth < m.depth → L.floor ≤ top) : C.Tends L m (LuaMachine.setTop top m) := by
  have hshift := hm.shift_setTop hfloor
  have hm' := hm.drift hshift.drift hshift.tidy
  exact ⟨hk.of_running rfl rfl rfl ⟨hk.running.listed, hk.running.distinct, hk.running.within,
    hk.running.covered⟩, .of_running hm hm' rfl rfl rfl rfl, fun _ => ⟨hL.frames, htop, hL.covered⟩⟩

end LuaMachine
