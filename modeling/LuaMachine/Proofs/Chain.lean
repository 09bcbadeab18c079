import LuaMachine.Proofs.Soundness

/-!
Chains of resumptions. The coroutines that are being resumed wait for one another, and the innermost
runs; all others keep their strands. `Chained` says so of a machine; `Steady` adds what has to hold
besides so that running anything preserves it, and `Drift` is what a basic action may change.
-/

namespace LuaMachine

/-- An upvalue is open over a slot of a strand. -/
def Heap.Names (h : Heap) (owner : Owner) (slot : Nat) : Prop := ∃ c, h.cell c = .opened owner slot

/-- The coroutines `ts` are being resumed, the innermost first, and no other ones. -/
structure Machine.Chained (m : Machine) (ts : List CoroutineId) : Prop where
  nodup : ts.Nodup
  current : m.current = ts.head?
  /-- The strand of the innermost runs; those of the others and the main one are parked. -/
  strands : ∃ n, (m.running :: m.parked).map (·.owner) = ts.map .coroutine ++ [.main n]
  running : ∀ t, ts.head? = some t → m.heap.coroutine t = ⟨.running, none⟩
  normal : ∀ t ∈ ts.tail, m.heap.coroutine t = ⟨.normal, none⟩
  /-- Any other coroutine has its strand, on which nothing is left once it is dead. -/
  others : ∀ c, c.index < m.heap.coroutines.size → c ∉ ts → ∃ s,
    (m.heap.coroutine c).strand = some s ∧ s.owner = .coroutine c ∧
      ((m.heap.coroutine c).status = .suspended ∨
        (m.heap.coroutine c).status = .dead ∧ s.frames = #[] ∧ s.openCells = [] ∧
          ∀ slot, ¬ m.heap.Names (.coroutine c) slot)

/-- What is fixed while a machine runs. -/
structure Regime where
  program : Prototype → Prop
  /-- Whether host functions keep to the rules for yields and for errors of calls. -/
  honest : Bool
  /-- Coroutines that are not to be resumed. -/
  quiet : CoroutineId → Prop

/-- Prototypes, with those nested in them, that are told apart by their identities. -/
structure IsCatalog (U : Prototype → Prop) : Prop where
  child : ∀ {p q}, U p → q ∈ p.children → U q
  id_inj : ∀ {p q}, U p → U q → p.id = q.id → p = q

theorem IsProgram.isCatalog {U : Prototype → Prop} (h : IsProgram U) : IsCatalog U :=
  ⟨h.child, h.id_inj⟩

theorem Prototype.Coherent.isCatalog {p : Prototype} (h : p.Coherent) : IsCatalog p.Contains :=
  ⟨Prototype.Contains.child, h _ _⟩

/-! Strands -/

/-- The function of a frame exists, and a unit that runs it is its own. -/
def Frame.Backed (h : Heap) (f : Frame) : Prop :=
  ∀ c, f.closure? = some c → c.index < h.closures.size ∧
    ∀ u, f.unit = some u → (h.closure c).proto.IsUnit u

structure Frame.Above (k : Nat) (f : Frame) : Prop where
  slot : k ≤ f.slot
  base : k ≤ f.base
  top : k ≤ f.top

/-- A strand whose lowest frame is one of a Lua function, called from slot 0 for all its results, with
all else above its first register. -/
structure Strand.Rooted (s : Strand) (b : Frame) (fs : List Frame) : Prop where
  lua : b.isLua = true
  slot : b.slot = 0
  wanted : b.wanted = none
  window : b.base ≤ b.top
  top : b.base ≤ s.top
  frames : ∀ g ∈ fs, g.Above b.base
  cells : ∀ oc ∈ s.openCells, b.base ≤ oc.slot

/-- What the strand of a coroutine is like: nothing is open over it where it has no frames. -/
structure Strand.Grounded (s : Strand) : Prop where
  bare : s.frames.toList = [] → s.openCells = []
  rooted : ∀ b fs, s.frames.toList = b :: fs → s.Rooted b fs

/-- On the strand of a coroutine, nothing below a slot belongs to a frame. -/
def Strand.Floor (s : Strand) (k : Nat) : Prop :=
  (∃ c, s.owner = .coroutine c) → ∀ b fs, s.frames.toList = b :: fs → b.base ≤ k

structure Strand.Tidy (h : Heap) (s : Strand) : Prop where
  /-- The strand knows the upvalues that are open over it. -/
  cells : ∀ id slot, h.cell id = .opened s.owner slot → ⟨slot, id⟩ ∈ s.openCells
  frames : ∀ f ∈ s.frames.toList, f.Backed h
  grounded : (∃ c, s.owner = .coroutine c) → s.Grounded

/-- A coroutine's strand before it is run: its body is in slot 0. -/
structure Strand.Unstarted (s : Strand) : Prop where
  frames : s.frames = #[]
  boundaries : s.boundaries = 0
  top : s.top = 1
  body : ∃ c, s.stack[0]? = some (.function (.lua c))

/-- A host function runs in a frame directly above the one of a Lua function, which is at the `CALL`
or `TAILCALL` that wants its results. Behind a `CALL` compiled code can be entered, if it goes on. -/
structure Frame.CalledBy (h : Heap) (host f : Frame) : Prop where
  isHost : host.isLua = false
  caller : ∃ c w, f.closure? = some c ∧ c.index < h.closures.size ∧ 0 < f.pc ∧
    (h.closure c).proto.code[f.pc - 1]? = some w ∧ host.slot = f.base + (⟨w⟩ : Instruction).a ∧
      ((⟨w⟩ : Instruction).opcode? = some .call ∧
          host.wanted = (if (⟨w⟩ : Instruction).c = 0 then none
            else some ((⟨w⟩ : Instruction).c - 1)) ∧
          (∀ u, f.unit = some u → f.pc < (h.closure c).proto.code.size →
            u.lowered.isEntry f.pc = true) ∨
        (⟨w⟩ : Instruction).opcode? = some .tailCall ∧ host.wanted = none)

/-- A strand that stopped in a host function it called. -/
structure Strand.Halted (h : Heap) (s : Strand) : Prop where
  boundaries : s.boundaries = 0
  frames : ∃ fs f host, s.frames.toList = fs ++ [f, host] ∧ host.CalledBy h f ∧ host.slot < s.top

/-- A coroutine's strand that stopped above its lowest frame. -/
structure Strand.Stopped (S : Regime) (h : Heap) (s : Strand) : Prop where
  frames : 2 ≤ s.frames.size
  halted : S.honest = true → s.Halted h

structure Closure.Tidy (U : Prototype → Prop) (c : Closure) : Prop where
  program : U c.proto
  unit : ∀ u, c.unit = some (.ok u) → c.proto.IsUnit u

structure CodeCache.Tidy (U : Prototype → Prop) (c : CodeCache) : Prop where
  backend : c.backend = .threaded
  units : ∀ p, U p → ∀ u, c.lookup p.id = some (.ok u) → p.IsUnit u

/-- A machine in which the coroutines `ts` are being resumed and which can go on. -/
structure Machine.Steady (S : Regime) (ts : List CoroutineId) (m : Machine) : Prop
    extends m.Chained ts where
  /-- Upvalues are open over strands of coroutines that exist. -/
  owned : ∀ id c i, m.heap.cell id = .opened (.coroutine c) i → c.index < m.heap.coroutines.size
  tidy : ∀ s ∈ m.running :: m.parked, s.Tidy m.heap
  stored : ∀ c s, c ∉ ts → (m.heap.coroutine c).strand = some s → s.Tidy m.heap ∧
    ((m.heap.coroutine c).status = .suspended → s.Unstarted ∨ s.Stopped S m.heap)
  closures : ∀ c ∈ m.heap.closures, c.Tidy S.program
  caches : ∀ c ∈ m.heap.caches, c.Tidy S.program

/-! What may happen to strands that do not run -/

/-- The same strand but for slots with open upvalues; no further upvalue was opened over it. -/
structure Strand.Rests (h h' : Heap) (s s' : Strand) : Prop where
  owner : s'.owner = s.owner
  top : s'.top = s.top
  frames : s'.frames = s.frames
  openCells : s'.openCells = s.openCells
  boundaries : s'.boundaries = s.boundaries
  size : s'.stack.size = s.stack.size
  slots : ∀ i, ¬ h.Names s.owner i → s'.stack[i]? = s.stack[i]?
  names : ∀ i, h'.Names s.owner i → h.Names s.owner i

/-- Strands that each rest. -/
abbrev Strand.AllRest (h h' : Heap) : List Strand → List Strand → Prop :=
  List.Forall₂ (Strand.Rests h h')

structure Coroutine.Rests (h h' : Heap) (co co' : Coroutine) : Prop where
  status : co'.status = co.status
  strand : Option.Rel (Strand.Rests h h') co.strand co'.strand

attribute [ext] Coroutine

/-- What one basic action may change, the running strand's registers and frames apart. -/
structure Machine.Drift (S : Regime) (m m' : Machine) : Prop where
  owner : m'.running.owner = m.running.owner
  boundaries : m'.running.boundaries = m.running.boundaries
  current : m'.current = m.current
  nativeCalls : m'.nativeCalls = m.nativeCalls
  parked : Strand.AllRest m.heap m'.heap m.parked m'.parked
  cells : ∀ id o i, m'.heap.cell id = .opened o i →
    m.heap.cell id = .opened o i ∨ o = m.running.owner
  size : m.heap.coroutines.size ≤ m'.heap.coroutines.size
  coroutines : ∀ c, c.index < m.heap.coroutines.size →
    (m.heap.coroutine c).Rests m.heap m'.heap (m'.heap.coroutine c)
  fresh : ∀ c, m.heap.coroutines.size ≤ c.index → c.index < m'.heap.coroutines.size → ∃ s,
    m'.heap.coroutine c = ⟨.suspended, some s⟩ ∧ s.owner = .coroutine c ∧ s.openCells = [] ∧
      s.Unstarted
  extend : m.heap.Extends m'.heap
  closures : (∀ c ∈ m.heap.closures, c.Tidy S.program) → ∀ c ∈ m'.heap.closures, c.Tidy S.program
  caches : (∀ c ∈ m.heap.caches, c.Tidy S.program) → ∀ c ∈ m'.heap.caches, c.Tidy S.program

variable {S : Regime} {ts : List CoroutineId} {m m' m'' : Machine} {h h' h'' : Heap}

namespace Strand.Rests

variable {s s' s'' : Strand}

theorem of_names (hn : ∀ i, h'.Names s.owner i → h.Names s.owner i) : s.Rests h h' s :=
  ⟨rfl, rfl, rfl, rfl, rfl, rfl, fun _ _ => rfl, hn⟩

theorem refl (h : Heap) (s : Strand) : s.Rests h h s := .of_names fun _ => id

theorem trans (hr : s.Rests h h' s') (hr' : s'.Rests h' h'' s'') : s.Rests h h'' s'' where
  owner := hr'.owner.trans hr.owner
  top := hr'.top.trans hr.top
  frames := hr'.frames.trans hr.frames
  openCells := hr'.openCells.trans hr.openCells
  boundaries := hr'.boundaries.trans hr.boundaries
  size := hr'.size.trans hr.size
  slots i hi := by
    refine (hr'.slots i fun hn => hi (hr.names i ?_)).trans (hr.slots i hi)
    rwa [hr.owner] at hn
  names i hi := hr.names i (hr.owner ▸ hr'.names i (by rwa [hr.owner]))

theorem grounded (hr : s.Rests h h' s') (hs : s.Grounded) : s'.Grounded where
  bare hf := hr.openCells.trans (hs.bare (hr.frames ▸ hf))
  rooted b fs hf := by
    have hroot := hs.rooted b fs (hr.frames ▸ hf)
    exact { hroot with top := hr.top ▸ hroot.top, cells := hr.openCells ▸ hroot.cells }

end Strand.Rests

namespace Strand.AllRest

variable {ss ss' ss'' : List Strand}

theorem of_names (hn : ∀ s ∈ ss, ∀ i, h'.Names s.owner i → h.Names s.owner i) :
    AllRest h h' ss ss :=
  List.forall₂_same.2 fun s hs => .of_names (hn s hs)

theorem refl (h : Heap) (ss : List Strand) : AllRest h h ss ss := .of_names fun _ _ _ => id

theorem trans (hr : AllRest h h' ss ss') (hr' : AllRest h' h'' ss' ss'') :
    AllRest h h'' ss ss'' := by
  induction hr generalizing ss'' with
  | nil => cases hr' with
    | nil => exact .nil
  | cons hs _ ih => cases hr' with
    | cons hs' hr' => exact .cons (hs.trans hs') (ih hr')

theorem exists_of_mem (hr : AllRest h h' ss ss') {s' : Strand} (hs' : s' ∈ ss') :
    ∃ s ∈ ss, s.Rests h h' s' := by
  induction hr with
  | nil => simp at hs'
  | cons hs _ ih =>
    rcases List.mem_cons.1 hs' with rfl | hs'
    · exact ⟨_, List.mem_cons_self, hs⟩
    · obtain ⟨s, hmem, hrest⟩ := ih hs'
      exact ⟨s, List.mem_cons_of_mem _ hmem, hrest⟩

theorem map_owner (hr : AllRest h h' ss ss') : ss'.map (·.owner) = ss.map (·.owner) := by
  induction hr with
  | nil => rfl
  | cons hs _ ih => rw [List.map_cons, List.map_cons, hs.owner, ih]

end Strand.AllRest

theorem Frame.Backed.mono {f : Frame} (hx : h.Extends h') (hf : f.Backed h) : f.Backed h' := by
  intro c hc
  obtain ⟨hlt, hunit⟩ := hf c hc
  rw [hx.proto hlt]
  exact ⟨(hx c hlt).1, hunit⟩

theorem Frame.CalledBy.mono {host f : Frame} (hx : h.Extends h') (hf : host.CalledBy h f) :
    host.CalledBy h' f := by
  obtain ⟨hhost, c, w, hc, hlt, hpc, hw, hcall⟩ := hf
  refine ⟨hhost, c, w, hc, (hx c hlt).1, hpc, ?_⟩
  rw [hx.proto hlt]
  exact ⟨hw, hcall⟩

theorem Strand.Halted.mono {s s' : Strand} (hx : h.Extends h') (hs : s.Halted h)
    (hframes : s'.frames = s.frames) (hb : s'.boundaries = s.boundaries) (htop : s'.top = s.top) :
    s'.Halted h' := by
  obtain ⟨hboundaries, fs, f, host, hfs, hcall, hslot⟩ := hs
  exact ⟨hb.trans hboundaries, fs, f, host, hframes ▸ hfs, hcall.mono hx, htop ▸ hslot⟩

namespace Strand.Tidy

variable {s s' : Strand}

/-- Nothing is open over a coroutine's strand without frames. -/
theorem not_names (hs : s.Tidy h) (howner : ∃ c, s.owner = .coroutine c) (hf : s.frames = #[])
    (slot : Nat) : ¬ h.Names s.owner slot := by
  rintro ⟨id, hid⟩
  have hmem := hs.cells id slot hid
  rw [(hs.grounded howner).bare (by rw [hf])] at hmem
  simp at hmem

/-- Strands that rest stay tidy, as upvalues are opened over other ones only. -/
theorem rests (hs : s.Tidy h) (hr : s.Rests h h' s') (hx : h.Extends h')
    (hcells : ∀ id i, h'.cell id = .opened s.owner i → h.cell id = .opened s.owner i) :
    s'.Tidy h' where
  cells id i hid := by
    rw [hr.owner] at hid
    exact hr.openCells ▸ hs.cells id i (hcells id i hid)
  frames f hf := (hs.frames f (hr.frames ▸ hf)).mono hx
  grounded howner := hr.grounded (hs.grounded (hr.owner ▸ howner))

end Strand.Tidy

theorem Strand.Unstarted.rests {s s' : Strand} (hs : s.Unstarted)
    (hn : ¬ h.Names s.owner 0) (hr : s.Rests h h' s') : s'.Unstarted where
  frames := hr.frames.trans hs.frames
  boundaries := hr.boundaries.trans hs.boundaries
  top := hr.top.trans hs.top
  body := by
    obtain ⟨c, hc⟩ := hs.body
    exact ⟨c, (hr.slots 0 hn).trans hc⟩

theorem Strand.Stopped.rests {s s' : Strand} (hs : s.Stopped S h) (hx : h.Extends h')
    (hr : s.Rests h h' s') : s'.Stopped S h' :=
  ⟨hr.frames ▸ hs.frames, fun hS => (hs.halted hS).mono hx hr.frames hr.boundaries hr.top⟩

namespace Coroutine.Rests

theorem of_names {co : Coroutine}
    (hn : ∀ s, co.strand = some s → ∀ i, h'.Names s.owner i → h.Names s.owner i) :
    co.Rests h h' co := by
  refine ⟨rfl, ?_⟩
  cases hs : co.strand with
  | none => exact .none
  | some s => exact .some (.of_names (hn s hs))

theorem refl (h : Heap) (co : Coroutine) : co.Rests h h co := .of_names fun _ _ _ => id

theorem trans {co co' co'' : Coroutine} (hr : co.Rests h h' co') (hr' : co'.Rests h' h'' co'') :
    co.Rests h h'' co'' := by
  refine ⟨hr'.status.trans hr.status, ?_⟩
  obtain ⟨-, hs⟩ := hr
  obtain ⟨-, hs'⟩ := hr'
  generalize co.strand = o at hs
  generalize co'.strand = o' at hs hs'
  generalize co''.strand = o'' at hs'
  cases hs with
  | none => cases hs' with
    | none => exact .none
  | some h₁ => cases hs' with
    | some h₂ => exact .some (h₁.trans h₂)

end Coroutine.Rests

/-! Chains -/

theorem Heap.coroutine_lt {c : CoroutineId} (hc : (h.coroutine c).status ≠ .dead) :
    c.index < h.coroutines.size := by
  by_contra hlt
  refine hc ?_
  rw [Heap.coroutine, Array.getElem?_eq_none (Nat.le_of_not_lt hlt)]
  rfl

namespace Machine.Chained

variable {c t : CoroutineId}

theorem status_of_mem (hm : m.Chained ts) (ht : t ∈ ts) :
    m.heap.coroutine t = ⟨.running, none⟩ ∨ m.heap.coroutine t = ⟨.normal, none⟩ := by
  cases ts with
  | nil => simp at ht
  | cons u ts =>
    rcases List.mem_cons.1 ht with rfl | ht
    · exact .inl (hm.running t rfl)
    · exact .inr (hm.normal t ht)

theorem lt_of_mem (hm : m.Chained ts) (ht : t ∈ ts) : t.index < m.heap.coroutines.size := by
  apply Heap.coroutine_lt
  rcases hm.status_of_mem ht with h | h <;> simp [h]

theorem strand_of_mem (hm : m.Chained ts) (ht : t ∈ ts) : (m.heap.coroutine t).strand = none := by
  rcases hm.status_of_mem ht with h | h <;> rw [h]

/-- A coroutine that is not being resumed is either suspended or dead. -/
theorem not_mem_of_status (hm : m.Chained ts) (h : (m.heap.coroutine c).status = .suspended) :
    c ∉ ts := by
  intro hc
  rcases hm.status_of_mem hc with h' | h' <;> simp [h'] at h

theorem owners_nodup (hm : m.Chained ts) : ((m.running :: m.parked).map (·.owner)).Nodup := by
  obtain ⟨n, hn⟩ := hm.strands
  rw [hn]
  refine List.Nodup.append (hm.nodup.map fun _ _ h => Owner.coroutine.inj h) (List.nodup_singleton _) ?_
  simp

theorem owner_parked (hm : m.Chained ts) {s : Strand} (hs : s ∈ m.parked) :
    s.owner ≠ m.running.owner := by
  have h := hm.owners_nodup
  rw [List.map_cons, List.nodup_cons] at h
  exact fun heq => h.1 (heq ▸ List.mem_map_of_mem hs)

theorem owner_mem (hm : m.Chained ts) {s : Strand} (hs : s ∈ m.running :: m.parked)
    (hc : s.owner = .coroutine c) : c ∈ ts := by
  obtain ⟨n, hn⟩ := hm.strands
  have hmem : Owner.coroutine c ∈ (m.running :: m.parked).map (·.owner) :=
    hc ▸ List.mem_map_of_mem hs
  rw [hn] at hmem
  simpa using hmem

/-- The strand that runs is a coroutine's where a coroutine runs. -/
theorem owner_running (hm : m.Chained ts) : (∃ c, m.running.owner = .coroutine c) ↔ ts ≠ [] := by
  obtain ⟨n, hn⟩ := hm.strands
  cases ts with
  | nil =>
    simp only [List.map_cons, List.map_nil, List.nil_append, List.cons.injEq] at hn
    simp [hn.1]
  | cons t ts =>
    simp only [List.map_cons, List.cons_append, List.cons.injEq] at hn
    simp [hn.1]

end Machine.Chained

/-- The strand of a coroutine that is not being resumed. -/
theorem Machine.Steady.owner_stored {c : CoroutineId} {s : Strand} (hm : m.Steady S ts) (hc : c ∉ ts)
    (hs : (m.heap.coroutine c).strand = some s) : s.owner = .coroutine c := by
  have hlt : c.index < m.heap.coroutines.size := by
    by_contra hlt
    rw [Heap.coroutine, Array.getElem?_eq_none (Nat.le_of_not_lt hlt)] at hs
    cases hs
  obtain ⟨s', hs', howner, -⟩ := hm.others c hlt hc
  obtain rfl : s' = s := Option.some.inj (hs'.symm.trans hs)
  exact howner

namespace Machine.Drift

theorem coroutine_of_none (hd : m.Drift S m') {c : CoroutineId}
    (hc : c.index < m.heap.coroutines.size) (hs : (m.heap.coroutine c).strand = none) :
    m'.heap.coroutine c = m.heap.coroutine c := by
  obtain ⟨hstatus, hstrand⟩ := hd.coroutines c hc
  rw [hs] at hstrand
  cases hs' : (m'.heap.coroutine c).strand with
  | none => exact Coroutine.ext hstatus (hs'.trans hs.symm)
  | some s => rw [hs'] at hstrand; cases hstrand

theorem names (hd : m.Drift S m') {o : Owner} (ho : o ≠ m.running.owner) {id : CellId} {i : Nat}
    (hid : m'.heap.cell id = .opened o i) : m.heap.cell id = .opened o i :=
  (hd.cells id o i hid).resolve_right ho

end Machine.Drift

/-- What one basic action does leaves the chain as it is; only the running strand has to be looked
after. -/
theorem Machine.Steady.drift (hm : m.Steady S ts) (hd : m.Drift S m')
    (hrunning : m'.running.Tidy m'.heap) : m'.Steady S ts := by
  have howned (id : CellId) (c : CoroutineId) (i : Nat)
      (hid : m'.heap.cell id = .opened (.coroutine c) i) : c.index < m.heap.coroutines.size := by
    rcases hd.cells id _ i hid with hold | howner
    · exact hm.owned id c i hold
    · exact hm.lt_of_mem (hm.owner_mem List.mem_cons_self howner.symm)
  exact {
    nodup := hm.nodup
    current := hd.current.trans hm.current
    strands := by
      obtain ⟨n, hn⟩ := hm.strands
      exact ⟨n, by rw [List.map_cons, hd.owner, hd.parked.map_owner, ← List.map_cons, hn]⟩
    running t ht := by
      have hmem : t ∈ ts := List.mem_of_mem_head? ht
      exact (hd.coroutine_of_none (hm.lt_of_mem hmem) (hm.strand_of_mem hmem)).trans
        (hm.running t ht)
    normal t ht := by
      have hmem : t ∈ ts := List.mem_of_mem_tail ht
      exact (hd.coroutine_of_none (hm.lt_of_mem hmem) (hm.strand_of_mem hmem)).trans
        (hm.normal t ht)
    others c hc hts := by
      rcases Nat.lt_or_ge c.index m.heap.coroutines.size with hlt | hge
      · obtain ⟨s, hs, howner, hstatus⟩ := hm.others c hlt hts
        obtain ⟨hst, hrel⟩ := hd.coroutines c hlt
        rw [hs] at hrel
        cases hs' : (m'.heap.coroutine c).strand with
        | none => rw [hs'] at hrel; cases hrel
        | some s' =>
          rw [hs'] at hrel
          cases hrel with
          | some hr =>
            refine ⟨s', rfl, hr.owner.trans howner, hst ▸ hstatus.imp_right fun ⟨hdead, hf, hoc, hn⟩ =>
              ⟨hdead, hr.frames.trans hf, hr.openCells.trans hoc, fun slot hslot => hn slot ?_⟩⟩
            exact howner ▸ hr.names slot (howner ▸ hslot)
      · obtain ⟨s, hs, howner, -⟩ := hd.fresh c hge hc
        exact ⟨s, by rw [hs], howner, .inl (by rw [hs])⟩
    owned id c i hid := (howned id c i hid).trans_le hd.size
    tidy s' hs' := by
      rcases List.mem_cons.1 hs' with rfl | hs'
      · exact hrunning
      · obtain ⟨s, hs, hr⟩ := hd.parked.exists_of_mem hs'
        exact (hm.tidy s (List.mem_cons_of_mem _ hs)).rests hr hd.extend fun _ _ =>
          hd.names (hm.owner_parked hs)
    stored c s' hc hs' := by
      have hlt : c.index < m'.heap.coroutines.size := by
        by_contra hlt
        rw [Heap.coroutine, Array.getElem?_eq_none (Nat.le_of_not_lt hlt)] at hs'
        cases hs'
      rcases Nat.lt_or_ge c.index m.heap.coroutines.size with hold | hge
      · obtain ⟨hst, hrel⟩ := hd.coroutines c hold
        rw [hs'] at hrel
        cases hs : (m.heap.coroutine c).strand with
        | none => rw [hs] at hrel; cases hrel
        | some s =>
          rw [hs] at hrel
          cases hrel with
          | some hr =>
            obtain ⟨htidy, hshape⟩ := hm.stored c s hc hs
            have howner := hm.owner_stored hc hs
            have hne : s.owner ≠ m.running.owner := fun heq =>
              hc (hm.owner_mem List.mem_cons_self (heq ▸ howner))
            refine ⟨htidy.rests hr hd.extend fun _ _ => hd.names hne, fun hsus => ?_⟩
            refine (hshape (hst ▸ hsus)).imp (fun hu => hu.rests ?_ hr) fun hstop =>
              hstop.rests hd.extend hr
            exact htidy.not_names ⟨c, howner⟩ hu.frames 0
      · obtain ⟨s, hs, howner, hoc, hu⟩ := hd.fresh c hge hlt
        obtain rfl : s = s' := Option.some.inj (by rw [← hs', hs])
        refine ⟨⟨fun id i hid => ?_, by simp [hu.frames], fun _ => ⟨fun _ => hoc, ?_⟩⟩, fun _ => .inl hu⟩
        · rw [howner] at hid
          exact absurd (howned id c i hid) (Nat.not_lt.2 hge)
        · simp [hu.frames]
    closures := hd.closures hm.closures
    caches := hd.caches hm.caches }

end LuaMachine
