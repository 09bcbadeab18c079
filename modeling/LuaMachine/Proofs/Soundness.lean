import LuaMachine.Proofs.OpenOperands
import LuaMachine.Proofs.Routine

/-!
Sound machines: what holds of the closures, frames, coroutines and code caches of a machine that
runs verified code, and how basic actions preserve it.
-/

namespace LuaMachine

/-- Verified prototypes, with those nested in them, that are told apart by their identities. -/
structure IsProgram (U : Prototype → Prop) : Prop where
  verified : ∀ {p}, U p → p.Verified
  child : ∀ {p q}, U p → q ∈ p.children → U q
  id_inj : ∀ {p q}, U p → U q → p.id = q.id → p = q

namespace Prototype

/-- The prototype itself, or one nested in it. -/
def Contains (p q : Prototype) : Prop := ∃ path, p.descend? path = some q

/-- Prototypes of the tree that have one identity are one. -/
def Coherent (p : Prototype) : Prop := ∀ q r, p.Contains q → p.Contains r → q.id = r.id → q = r

theorem contains_self (p : Prototype) : p.Contains p := ⟨[], by rw [descend?]⟩

theorem Contains.child {p q r : Prototype} (h : p.Contains q) (hr : r ∈ q.children) :
    p.Contains r := by
  obtain ⟨i, hi⟩ := List.mem_iff_getElem?.1 hr
  obtain ⟨path, hpath⟩ := h
  refine ⟨path ++ [i], ?_⟩
  induction path generalizing p with
  | nil =>
    rw [descend?] at hpath
    obtain rfl := Option.some.inj hpath
    simp [descend?, hi]
  | cons j path ih =>
    rw [descend?] at hpath
    obtain ⟨c, hc, hpath⟩ := Option.bind_eq_some_iff.1 hpath
    simp [descend?, hc, ih hpath]

/-- A function without nested ones is all there is in its tree. -/
theorem eq_of_contains {p q : Prototype} (hp : p.children = []) (h : p.Contains q) : q = p := by
  obtain ⟨path, hpath⟩ := h
  cases path with
  | nil =>
    rw [descend?] at hpath
    exact (Option.some.inj hpath).symm
  | cons i path => simp [descend?, hp] at hpath

theorem coherent_of_children {p : Prototype} (hp : p.children = []) : p.Coherent :=
  fun _ _ hq hr _ => (eq_of_contains hp hq).trans (eq_of_contains hp hr).symm

theorem Verified.contains {p q : Prototype} (h : p.Verified) (hq : p.Contains q) : q.Verified := by
  obtain ⟨path, hpath⟩ := hq
  induction path generalizing p with
  | nil =>
    rw [descend?] at hpath
    exact Option.some.inj hpath ▸ h
  | cons i path ih =>
    rw [descend?] at hpath
    obtain ⟨c, hc, hpath⟩ := Option.bind_eq_some_iff.1 hpath
    exact ih (h.child (List.mem_of_getElem? hc)) hpath

/-- The prototypes of a verified tree are a program. -/
theorem Verified.isProgram {p : Prototype} (h : p.Verified) (hids : p.Coherent) :
    IsProgram p.Contains where
  verified := h.contains
  child := Contains.child
  id_inj := hids _ _

end Prototype

/-- The threaded unit of a prototype. -/
structure Prototype.IsUnit (p : Prototype) (u : CompiledUnit) : Prop where
  protoId : u.protoId = p.id
  lower : p.lower = .ok u.lowered
  native : u.native = none

/-- The outcome of compiling is the unit of the prototype. -/
def Prototype.IsCompiled (p : Prototype) (r : Except CompileError CompiledUnit) : Prop :=
  ∃ u, r = .ok u ∧ p.IsUnit u

structure Closure.Sound (U : Prototype → Prop) (c : Closure) : Prop where
  program : U c.proto
  upvalues : c.upvalues.size = c.proto.upvalueCount.toNat
  unit : ∀ r, c.unit = some r → c.proto.IsCompiled r

structure CodeCache.Sound (U : Prototype → Prop) (c : CodeCache) : Prop where
  backend : c.backend = .threaded
  units : ∀ p, U p → ∀ r, c.lookup p.id = some r → p.IsCompiled r

/-- The registers of a frame of a Lua function, and some slots above them, are within the stack. -/
structure Frame.Fits (f : Frame) (p : Prototype) (slots : Nat) : Prop where
  slot : f.slot < f.base
  top : f.base + p.maxStack.toNat ≤ f.top
  window : f.base + p.maxStack.toNat + 6 ≤ slots

def Frame.Sound (h : Heap) (slots : Nat) (f : Frame) : Prop :=
  ∀ c, f.closure? = some c → c.index < h.closures.size ∧ f.Fits (h.closure c).proto slots ∧
    ∀ u, f.unit = some u → (h.closure c).proto.IsUnit u

def Strand.Sound (h : Heap) (s : Strand) : Prop := ∀ f ∈ s.frames, f.Sound h s.stack.size

/-- The instructions after which a waiting frame goes on. A tail call is one of them where a host
function called by it may yield. -/
def Opcode.Calls (tails : Bool) (op : Opcode) : Prop := op = .call ∨ tails = true ∧ op = .tailCall

/-- A frame that waits for a call to come back, or has not started. -/
def Frame.Waits (tails : Bool) (h : Heap) (f : Frame) : Prop :=
  ∃ c, f.closure? = some c ∧ c.index < h.closures.size ∧
    (h.closure c).proto.IsReentry (Opcode.Calls tails) f.pc

/-- A frame that waits for the results of a call: they go to a slot, and so many of them are
wanted. -/
def Frame.Awaits (h : Heap) (f : Frame) (slot : Nat) (wanted : Option Nat) : Prop :=
  ∃ c pc op r, f.closure? = some c ∧ c.index < h.closures.size ∧
    (h.closure c).proto.Decodes pc op f.pc ∧ op.awaits = some (r, wanted) ∧ slot = f.base + r

/-- Each frame waits for the one above it. -/
def Frame.Linked (h : Heap) (fs : List Frame) : Prop :=
  fs.IsChain fun f g => f.Awaits h g.slot g.wanted

/-- Some frames that wait, each for the one above it, and a frame on top. -/
def Frame.Suspended (tails : Bool) (h : Heap) (fs : List Frame) : Prop :=
  ∃ waiting host, fs = waiting ++ [host] ∧ (∀ f ∈ waiting, f.Waits tails h) ∧ Frame.Linked h fs

/-- A strand that may be run from where it stopped: it has not started, or a host function on top
yielded. -/
structure Strand.Resumable (tails : Bool) (h : Heap) (s : Strand) : Prop where
  boundaries : s.boundaries = 0
  frames : s.frames = #[] ∨ Frame.Suspended tails h s.frames.toList

structure Coroutine.Sound (tails : Bool) (h : Heap) (co : Coroutine) : Prop where
  strand : ∀ s, co.strand = some s → s.Sound h
  suspended : co.status = .suspended → ∃ s, co.strand = some s ∧ s.Resumable tails h

/-- A coroutine whose strand has no frames. -/
def Coroutine.Fresh (co : Coroutine) : Prop :=
  ∃ s, co.strand = some s ∧ s.frames = #[] ∧ s.boundaries = 0

structure Machine.Sound (U : Prototype → Prop) (tails : Bool) (m : Machine) : Prop where
  closures : ∀ c ∈ m.heap.closures, c.Sound U
  caches : ∀ c ∈ m.heap.caches, c.Sound U
  coroutines : ∀ co ∈ m.heap.coroutines, co.Sound tails m.heap
  running : m.running.Sound m.heap
  parked : ∀ s ∈ m.parked, s.Sound m.heap

/-- A machine on which nothing has run: it has neither closures nor coroutines nor frames, and its
code caches are as they were made. -/
structure Machine.Fresh (m : Machine) : Prop where
  closures : m.heap.closures = #[]
  coroutines : m.heap.coroutines = #[]
  caches : ∀ c ∈ m.heap.caches, c = { backend := .threaded }
  frames : m.running.frames = #[]
  parked : m.parked = []

theorem Machine.Fresh.sound {m : Machine} (h : m.Fresh) (U : Prototype → Prop) (tails : Bool) :
    m.Sound U tails where
  closures := by simp [h.closures]
  caches c hc := by
    obtain rfl := h.caches c hc
    refine ⟨rfl, fun p _ r hr => ?_⟩
    simp [CodeCache.lookup] at hr
  coroutines := by simp [h.coroutines]
  running f hf := by simp [h.frames] at hf
  parked := by simp [h.parked]

/-! What calls leave as it is -/

/-- The closures of a heap are there in another one; only their units may differ. -/
def Heap.Extends (h h' : Heap) : Prop :=
  ∀ c : ClosureId, c.index < h.closures.size →
    c.index < h'.closures.size ∧ (h'.closure c).erase = (h.closure c).erase

/-- The same frames over a stack that did not shrink. -/
structure Strand.Still (s s' : Strand) : Prop where
  frames : s'.frames = s.frames
  boundaries : s'.boundaries = s.boundaries
  stack : s.stack.size ≤ s'.stack.size

structure Coroutine.Still (co co' : Coroutine) : Prop where
  status : co'.status = co.status
  strand : Option.Rel Strand.Still co.strand co'.strand

/-- Strands that each are still. -/
abbrev Strand.AllStill : List Strand → List Strand → Prop := List.Forall₂ Strand.Still

structure Machine.Kept (m m' : Machine) : Prop where
  closures : m.heap.Extends m'.heap
  boundaries : m'.running.boundaries = m.running.boundaries
  stack : m.running.stack.size ≤ m'.running.stack.size
  parked : Strand.AllStill m.parked m'.parked

/-- A sound machine with the same frames. -/
structure Machine.Calm (U : Prototype → Prop) (tails : Bool) (m m' : Machine) : Prop where
  sound : m'.Sound U tails
  kept : m.Kept m'
  frames : m'.running.frames = m.running.frames

variable {U : Prototype → Prop} {tails : Bool}

namespace Heap.Extends

variable {h h' h'' : Heap}

theorem refl (h : Heap) : h.Extends h := fun _ hc => ⟨hc, rfl⟩

theorem trans (hx : h.Extends h') (hx' : h'.Extends h'') : h.Extends h'' := by
  intro c hc
  obtain ⟨hc', he⟩ := hx c hc
  obtain ⟨hc'', he'⟩ := hx' c hc'
  exact ⟨hc'', he'.trans he⟩

theorem of_eq (h₁ : h'.closures = h.closures) : h.Extends h' := by
  intro c hc
  rw [Heap.closure, Heap.closure, h₁]
  exact ⟨hc, rfl⟩

theorem proto (hx : h.Extends h') {c : ClosureId} (hc : c.index < h.closures.size) :
    (h'.closure c).proto = (h.closure c).proto := by
  change (h'.closure c).erase.proto = (h.closure c).erase.proto
  rw [(hx c hc).2]

end Heap.Extends

theorem Heap.closure_eq {h : Heap} {c : ClosureId} (hc : c.index < h.closures.size) :
    h.closure c = h.closures[c.index] := by
  simp [Heap.closure, hc]

theorem Heap.extends_newClosure (h : Heap) (c : Closure) : h.Extends (h.newClosure c).2 := by
  intro d hd
  have hd' : d.index < (h.closures.push c).size := by
    rw [Array.size_push]
    omega
  refine ⟨hd', ?_⟩
  simp only [newClosure, modifyClosures, closure, Array.getElem?_eq_getElem hd,
    Array.getElem?_eq_getElem hd', Array.getElem_push_lt hd]

namespace Strand.Still

variable {s s' s'' : Strand}

theorem refl (s : Strand) : s.Still s := ⟨rfl, rfl, le_rfl⟩

theorem trans (h : s.Still s') (h' : s'.Still s'') : s.Still s'' :=
  ⟨h'.frames.trans h.frames, h'.boundaries.trans h.boundaries, h.stack.trans h'.stack⟩

end Strand.Still

theorem Coroutine.Still.refl (co : Coroutine) : co.Still co :=
  ⟨rfl, by cases co.strand with
    | none => exact .none
    | some s => exact .some (.refl s)⟩

namespace Strand.AllStill

variable {ss ss' ss'' : List Strand}

theorem refl (ss : List Strand) : AllStill ss ss := List.forall₂_same.2 fun s _ => .refl s

theorem trans (h : AllStill ss ss') (h' : AllStill ss' ss'') : AllStill ss ss'' := by
  induction h generalizing ss'' with
  | nil => exact h'
  | cons hs _ ih =>
    cases h' with
    | cons hs' h' => exact .cons (hs.trans hs') (ih h')

theorem exists_of_mem (h : AllStill ss ss') {s' : Strand} (hs' : s' ∈ ss') :
    ∃ s ∈ ss, s.Still s' := by
  induction h with
  | nil => simp at hs'
  | cons hs _ ih =>
    rcases List.mem_cons.1 hs' with rfl | hs'
    · exact ⟨_, List.mem_cons_self, hs⟩
    · obtain ⟨s, hmem, hstill⟩ := ih hs'
      exact ⟨s, List.mem_cons_of_mem _ hmem, hstill⟩

end Strand.AllStill

namespace Machine.Kept

variable {m m' m'' : Machine}

theorem refl (m : Machine) : m.Kept m := ⟨.refl _, rfl, le_rfl, Strand.AllStill.refl _⟩

theorem trans (h : m.Kept m') (h' : m'.Kept m'') : m.Kept m'' where
  closures := h.closures.trans h'.closures
  boundaries := h'.boundaries.trans h.boundaries
  stack := h.stack.trans h'.stack
  parked := h.parked.trans h'.parked

end Machine.Kept

/-! Soundness in a heap with more closures -/

section

variable {h h' : Heap} (hx : h.Extends h')

include hx

theorem Frame.Sound.mono {f : Frame} {n n' : Nat} (hf : f.Sound h n) (hn : n ≤ n') :
    f.Sound h' n' := by
  intro c hc
  obtain ⟨hlt, hfits, hunit⟩ := hf c hc
  rw [hx.proto hlt]
  exact ⟨(hx c hlt).1, ⟨hfits.slot, hfits.top, hfits.window.trans hn⟩, hunit⟩

theorem Frame.Waits.mono {f : Frame} (hf : f.Waits tails h) : f.Waits tails h' := by
  obtain ⟨c, hc, hlt, hpc⟩ := hf
  exact ⟨c, hc, (hx c hlt).1, (hx.proto hlt).symm ▸ hpc⟩

theorem Frame.Awaits.mono {f : Frame} {slot : Nat} {wanted : Option Nat}
    (hf : f.Awaits h slot wanted) : f.Awaits h' slot wanted := by
  obtain ⟨c, pc, op, r, hc, hlt, hop, hr⟩ := hf
  exact ⟨c, pc, op, r, hc, (hx c hlt).1, (hx.proto hlt).symm ▸ hop, hr⟩

theorem Frame.Linked.mono {fs : List Frame} (hfs : Frame.Linked h fs) : Frame.Linked h' fs :=
  hfs.imp fun _ _ => Frame.Awaits.mono hx

theorem Frame.Suspended.mono {fs : List Frame} (hfs : Frame.Suspended tails h fs) :
    Frame.Suspended tails h' fs := by
  obtain ⟨waiting, host, heq, hw, hl⟩ := hfs
  exact ⟨waiting, host, heq, fun f hf => (hw f hf).mono hx, hl.mono hx⟩

theorem Strand.Sound.mono {s s' : Strand} (hs : s.Sound h) (hstill : s.Still s') :
    s'.Sound h' := by
  intro f hf
  rw [hstill.frames] at hf
  exact (hs f hf).mono hx hstill.stack

theorem Strand.Resumable.mono {s s' : Strand} (hs : s.Resumable tails h) (hstill : s.Still s') :
    s'.Resumable tails h' := by
  refine ⟨hstill.boundaries.trans hs.boundaries, ?_⟩
  rw [hstill.frames]
  exact hs.frames.imp_right (·.mono hx)

theorem Coroutine.Sound.mono {co co' : Coroutine} (hco : co.Sound tails h)
    (hstill : co.Still co') : co'.Sound tails h' := by
  obtain ⟨hstatus, hstrand⟩ := hstill
  constructor
  · intro s' hs'
    rw [hs'] at hstrand
    cases hs : co.strand with
    | none => rw [hs] at hstrand; cases hstrand
    | some s =>
      rw [hs] at hstrand
      cases hstrand with
      | some hst => exact (hco.strand s hs).mono hx hst
  · intro hsus
    obtain ⟨s, hs, hres⟩ := hco.suspended (hstatus ▸ hsus)
    rw [hs] at hstrand
    cases hs' : co'.strand with
    | none => rw [hs'] at hstrand; cases hstrand
    | some s' =>
      rw [hs'] at hstrand
      cases hstrand with
      | some hst => exact ⟨s', rfl, hres.mono hx hst⟩

end

namespace Frame.Linked

variable {h : Heap} {fs : List Frame} {f g : Frame}

theorem awaits (hl : Linked h (fs ++ [f] ++ [g])) : f.Awaits h g.slot g.wanted := by
  rw [Linked, List.append_assoc, List.singleton_append, List.isChain_append_cons_cons] at hl
  exact hl.2.1

theorem push (hl : Linked h (fs ++ [f])) (ha : f.Awaits h g.slot g.wanted) :
    Linked h (fs ++ [f] ++ [g]) := by
  rw [Linked, List.append_assoc, List.singleton_append, List.isChain_append_cons_cons]
  exact ⟨hl, ha, .singleton g⟩

/-- The frame on top may be another one for the same call. -/
theorem replace (hl : Linked h (fs ++ [f])) (hslot : g.slot = f.slot)
    (hwanted : g.wanted = f.wanted) : Linked h (fs ++ [g]) := by
  rw [Linked, List.isChain_append] at hl ⊢
  refine ⟨hl.1, .singleton g, fun e he g' hg' => ?_⟩
  obtain rfl : g = g' := Option.some.inj hg'
  rw [hslot, hwanted]
  exact hl.2.2 e he f rfl

end Frame.Linked

namespace Machine

variable {m m' m'' : Machine}

theorem Calm.refl (hm : m.Sound U tails) : m.Calm U tails m := ⟨hm, .refl m, rfl⟩

theorem Calm.trans (h : m.Calm U tails m') (h' : m'.Calm U tails m'') : m.Calm U tails m'' :=
  ⟨h'.sound, h.kept.trans h'.kept, h'.frames.trans h.frames⟩

/-- Changes that leave frames and caches alone, and add only sound closures and new coroutines. -/
theorem Sound.calm (hm : m.Sound U tails) (hx : m.heap.Extends m'.heap)
    (hclosures : ∀ c ∈ m'.heap.closures, c ∈ m.heap.closures ∨ c.Sound U)
    (hcaches : m'.heap.caches = m.heap.caches)
    (hcoroutines : ∀ co' ∈ m'.heap.coroutines,
      (∃ co ∈ m.heap.coroutines, co.Still co') ∨ co'.Fresh)
    (hrunning : m.running.Still m'.running)
    (hparked : Strand.AllStill m.parked m'.parked) : m.Calm U tails m' where
  frames := hrunning.frames
  kept := ⟨hx, hrunning.boundaries, hrunning.stack, hparked⟩
  sound := {
    closures := fun c hc => (hclosures c hc).elim (hm.closures c) id
    caches := hcaches ▸ hm.caches
    coroutines := fun co' hco' => by
      rcases hcoroutines co' hco' with ⟨co, hco, hstill⟩ | ⟨s, hs, hframes, hb⟩
      · exact (hm.coroutines co hco).mono hx hstill
      · refine ⟨fun s' hs' f hf => ?_, fun _ => ⟨s, hs, hb, .inl hframes⟩⟩
        obtain rfl : s = s' := Option.some.inj (hs.symm.trans hs')
        simp [hframes] at hf
    running := hm.running.mono hx hrunning
    parked := fun s' hs' => by
      obtain ⟨s, hs, hstill⟩ := hparked.exists_of_mem hs'
      exact (hm.parked s hs).mono hx hstill }

/-- Changes of values only. -/
theorem Sound.calm_of_eq (hm : m.Sound U tails) (hclosures : m'.heap.closures = m.heap.closures)
    (hcaches : m'.heap.caches = m.heap.caches)
    (hcoroutines : m'.heap.coroutines = m.heap.coroutines)
    (hrunning : m.running.Still m'.running) (hparked : m'.parked = m.parked) :
    m.Calm U tails m' :=
  hm.calm (.of_eq hclosures) (fun _ hc => .inl (hclosures ▸ hc)) hcaches
    (fun co hco => .inl ⟨co, hcoroutines ▸ hco, .refl co⟩) hrunning (hparked ▸ .refl _)

end Machine

/-! Basic actions -/

theorem Heap.closeCells_eq (h : Heap) (s : Strand) (level : Nat) : ∃ cells openCells,
    h.closeCells s level = ({ h with cells := cells }, { s with openCells := openCells }) := by
  have hfold (cs : List OpenCell) (h : Heap) : ∃ cells,
      cs.foldl (fun h c => h.setCell c.cell (.closed (s.peek c.slot))) h =
        { h with cells := cells } := by
    induction cs generalizing h with
    | nil => exact ⟨h.cells, rfl⟩
    | cons c cs ih =>
      obtain ⟨cells, hc⟩ := ih (h.setCell c.cell (.closed (s.peek c.slot)))
      exact ⟨cells, hc⟩
  unfold closeCells
  split
  · exact ⟨h.cells, s.openCells, rfl⟩
  · obtain ⟨cells, hc⟩ := hfold (s.openCells.partition fun c => level ≤ c.slot).1 h
    exact ⟨cells, _, Prod.ext hc rfl⟩

theorem Heap.newCells_eq (h : Heap) (vs : List Value) : ∃ cells,
    (h.newCells vs).2 = { h with cells := cells } := by
  rw [newCells_eq_addCells]
  generalize (#[] : Array CellId) = ids
  induction vs generalizing ids h with
  | nil => exact ⟨h.cells, rfl⟩
  | cons v vs ih => exact ih (h.newCell (.closed v)).2 _

theorem Heap.mem_modifyCoroutine {h : Heap} {c : CoroutineId} {f : Coroutine → Coroutine}
    {co : Coroutine} (hco : co ∈ (h.modifyCoroutine c f).coroutines) :
    co ∈ h.coroutines ∨ h.coroutine c ∈ h.coroutines ∧ co = f (h.coroutine c) := by
  obtain ⟨i, hi, rfl⟩ := Array.mem_iff_getElem.1 hco
  have hi' : i < h.coroutines.size := by
    simpa only [modifyCoroutine, modifyCoroutines, Array.size_modify] using hi
  simp only [modifyCoroutine, modifyCoroutines, Array.getElem_modify]
  split
  · next hc =>
    have hget : h.coroutine c = h.coroutines[i] := by simp [coroutine, hc, hi']
    exact .inr ⟨hget ▸ Array.getElem_mem hi', hget ▸ rfl⟩
  · exact .inl (Array.getElem_mem hi')

theorem Strand.still_modifyStack (s : Strand) {f : Array Value → Array Value}
    (hf : s.stack.size ≤ (f s.stack).size) : s.Still (s.modifyStack f) :=
  ⟨rfl, rfl, hf⟩

theorem Strand.still_grow (s : Strand) (needed limit : Nat) : s.Still (s.grow needed limit) :=
  s.still_modifyStack (by simp)

theorem Strand.still_setSlot (s : Strand) (i : Nat) (v : Value) :
    s.Still (s.modifyStack (·.setIfInBounds i v)) :=
  s.still_modifyStack (by simp)

namespace Machine.Sound

variable {m : Machine}

theorem calm_setStrandSlot (hm : m.Sound U tails) (owner : Owner) (slot : Nat) (v : Value) :
    m.Calm U tails (m.setStrandSlot owner slot v) := by
  unfold setStrandSlot
  split_ifs
  · exact hm.calm_of_eq rfl rfl rfl (m.running.still_setSlot slot v) rfl
  · refine hm.calm (.refl _) (fun _ => .inl) rfl (fun co hco => .inl ⟨co, hco, .refl co⟩)
      (.refl _) (List.forall₂_map_right_iff.2 (List.forall₂_same.2 fun s _ => ?_))
    split
    · exact s.still_setSlot slot v
    · exact .refl s
  · cases owner with
    | main n => exact hm.calm_of_eq rfl rfl rfl (.refl _) rfl
    | coroutine c =>
      refine hm.calm (.of_eq rfl) (fun _ => .inl) rfl (fun co' hco' => .inl ?_) (.refl _) (.refl _)
      rcases Heap.mem_modifyCoroutine hco' with hmem | ⟨hmem, rfl⟩
      · exact ⟨co', hmem, .refl co'⟩
      · refine ⟨_, hmem, rfl, ?_⟩
        cases hs : (m.heap.coroutine c).strand with
        | none => simpa only [hs] using .none
        | some s => simpa only [hs] using .some (s.still_setSlot slot v)

theorem calm_setCellValue (hm : m.Sound U tails) (c : CellId) (v : Value) :
    m.Calm U tails (m.setCellValue c v) := by
  unfold setCellValue
  split
  · exact hm.calm_of_eq rfl rfl rfl (.refl _) rfl
  · exact hm.calm_setStrandSlot _ _ v

theorem calm_closeUpvalues (hm : m.Sound U tails) (level : Nat) :
    m.Calm U tails (m.modifyBoth fun h s => h.closeCells s level) := by
  obtain ⟨cells, openCells, heq⟩ := m.heap.closeCells_eq m.running level
  have hm' : (m.modifyBoth fun h s => h.closeCells s level) =
      { m with
        heap := { m.heap with cells := cells }
        running := { m.running with openCells := openCells } } := by
    simp only [modifyBoth, heq]
  rw [hm']
  exact hm.calm_of_eq rfl rfl rfl ⟨rfl, rfl, le_rfl⟩ rfl

theorem calm_newClosure (hm : m.Sound U tails) {c : Closure} (hc : c.Sound U) :
    m.Calm U tails { m with heap := (m.heap.newClosure c).2 } := by
  refine hm.calm (m.heap.extends_newClosure c) (fun d hd => ?_) rfl
    (fun co hco => .inl ⟨co, hco, .refl co⟩) (.refl _) (.refl _)
  rcases Array.mem_push.1 hd with hd | rfl
  · exact .inl hd
  · exact .inr hc

theorem calm_newCoroutine (hm : m.Sound U tails) (body : Value) :
    m.Calm U tails { m with heap := (m.heap.newCoroutine body).2 } := by
  refine hm.calm (.of_eq rfl) (fun _ => .inl) rfl (fun co hco => ?_) (.refl _) (.refl _)
  rcases Array.mem_push.1 hco with hco | rfl
  · exact .inl ⟨co, hco, .refl co⟩
  · exact .inr ⟨_, rfl, rfl, rfl⟩

end Machine.Sound

namespace Primitive

variable {α : Type} {x : Action α}

/-- Basic actions do not depend on what compiling left in the machine. -/
theorem erase (h : Primitive U x) (m : Machine) :
    x m.erase = Outcome.map id Machine.erase (x m) := by
  cases h with
  | view f hf => exact congrArg (EStateM.Result.ok · m.erase) (hf m)
  | throw e he => rfl
  | readSlot i =>
    by_cases hi : i < m.running.stack.size <;>
      simp only [LuaMachine.readSlot, Machine.erase_running, Strand.erase_stack, hi, ↓reduceDIte] <;>
      rfl
  | writeSlot i v =>
    by_cases hi : i < m.running.stack.size <;>
      simp only [LuaMachine.writeSlot, Machine.erase_running, Strand.erase_stack, hi, ↓reduceIte] <;>
      rfl
  | setTop top => rfl
  | ensureStack n =>
    simp only [LuaMachine.ensureStack, Machine.erase_running, Strand.erase_stack, Machine.erase_maxStack,
      Machine.erase_position]
    split_ifs <;> rfl
  | closeUpvalues level =>
    refine congrArg (EStateM.Result.ok ()) ?_
    simp only [Machine.modifyBoth, Machine.erase, Heap.erase_closeCells]
  | findUpvalue slot =>
    simp only [LuaMachine.findUpvalue, Action.bind_apply, Action.view_apply]
    cases hc : m.running.openCells.find? (·.slot = slot) <;> simp [hc] <;> rfl
  | assignUpvalue c v => exact erase_assignUpvalue c v m
  | modifyTable t f => rfl
  | setStringMetatable metatable => rfl
  | newTable t => rfl
  | newHostClosure c => rfl
  | newCoroutine body =>
    simp only [Action.onHeap_apply, Machine.erase_heap, Heap.erase_newCoroutine]
    rfl
  | newCells vs =>
    simp only [Action.onHeap_apply, Machine.erase_heap, Heap.erase_newCells]
    rfl
  | newClosure p cells env hU hcells =>
    have heq := m.heap.erase_newClosure { proto := p, upvalues := cells, env := env }
    simp only [Closure.erase] at heq
    simp only [Action.onHeap_apply, Machine.erase_heap, heq]
    rfl
  | print text => rfl

/-- Basic actions keep a sound machine sound and its frames as they are; when they fail nothing has
changed. -/
theorem calm (h : Primitive U x) {m : Machine} (hm : m.Sound U tails) :
    match x m with
    | .ok _ m' => m.Calm U tails m'
    | .error e m' => m' = m ∧ e ≠ .yield := by
  have hself : m.Calm U tails m := hm.calm_of_eq rfl rfl rfl ⟨rfl, rfl, le_rfl⟩ rfl
  cases h with
  | view f hf => exact hself
  | throw e he => exact ⟨rfl, he⟩
  | readSlot i =>
    by_cases hi : i < m.running.stack.size <;> simp only [LuaMachine.readSlot, hi, ↓reduceDIte]
    · exact hself
    · simp
  | writeSlot i v =>
    by_cases hi : i < m.running.stack.size <;> simp only [LuaMachine.writeSlot, hi, ↓reduceIte]
    · exact hm.calm_of_eq rfl rfl rfl (m.running.still_setSlot i v) rfl
    · simp
  | setTop top => exact hm.calm_of_eq rfl rfl rfl ⟨rfl, rfl, le_rfl⟩ rfl
  | ensureStack n =>
    by_cases hfits : n ≤ m.running.stack.size <;>
      simp only [LuaMachine.ensureStack, hfits, ↓reduceIte]
    · exact hself
    · by_cases hover : m.options.maxStack < n <;> simp only [hover, ↓reduceIte]
      · simp
      · exact hm.calm_of_eq rfl rfl rfl (m.running.still_grow n m.options.maxStack) rfl
  | closeUpvalues level => exact hm.calm_closeUpvalues level
  | findUpvalue slot =>
    simp only [LuaMachine.findUpvalue, Action.bind_apply, Action.view_apply]
    cases m.running.openCells.find? (·.slot = slot) with
    | some c => exact hself
    | none => exact hm.calm_of_eq rfl rfl rfl ⟨rfl, rfl, le_rfl⟩ rfl
  | assignUpvalue c v =>
    rcases assignUpvalue_cases c v m with hx | hx <;> rw [hx]
    · exact hm.calm_setCellValue c v
    · exact ⟨rfl, nofun⟩
  | modifyTable t f => exact hm.calm_of_eq rfl rfl rfl ⟨rfl, rfl, le_rfl⟩ rfl
  | setStringMetatable metatable => exact hm.calm_of_eq rfl rfl rfl ⟨rfl, rfl, le_rfl⟩ rfl
  | newTable t => exact hm.calm_of_eq rfl rfl rfl ⟨rfl, rfl, le_rfl⟩ rfl
  | newHostClosure c => exact hm.calm_of_eq rfl rfl rfl ⟨rfl, rfl, le_rfl⟩ rfl
  | newCoroutine body => exact hm.calm_newCoroutine body
  | newCells vs =>
    obtain ⟨cells, hc⟩ := m.heap.newCells_eq vs
    simp only [Action.onHeap_apply, hc]
    exact hm.calm_of_eq rfl rfl rfl ⟨rfl, rfl, le_rfl⟩ rfl
  | newClosure p cells env hU hcells =>
    exact hm.calm_newClosure ⟨hU, hcells, by simp⟩
  | print text => exact hm.calm_of_eq rfl rfl rfl ⟨rfl, rfl, le_rfl⟩ rfl

end Primitive

end LuaMachine
