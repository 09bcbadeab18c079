import LuaMachine.Proofs.Calling
import LuaMachine.Proofs.Resuming

/-!
Limits on frames, slots and nested calls. No strand has more frames or slots than it may have, and its free
slot is on its stack; resumptions count as nested calls, of which there are no more than allowed. Each action
keeps it so, and leaves the count, the strands that wait and the slots of the running one to whoever goes on.
-/

namespace LuaMachine

/-- A strand has as many frames and slots as it may have. The registers of its frames and its free slot are
on its stack. -/
structure Strand.Limited (o : Options) (s : Strand) : Prop where
  frames : s.frames.size ≤ o.maxDepth
  stack : s.stack.size ≤ max Limit.basicStack o.maxStack
  top : s.top ≤ s.stack.size
  windows : ∀ f ∈ s.frames, f.top ≤ s.stack.size

/-- A machine with given options, but for its mode, that keeps to their limits. -/
structure Machine.Limited (o : Options) (m : Machine) : Prop where
  options : { m.options with mode := o.mode } = o
  running : m.running.Limited o
  parked : ∀ s ∈ m.parked, s.Limited o
  stored : ∀ c s, (m.heap.coroutine c).strand = some s → s.Limited o
  nativeCalls : m.nativeCalls ≤ o.maxNativeCalls
  resumptions : m.parked.length ≤ m.nativeCalls

/-- The slots of a strand, and its nested calls. -/
def Strand.extent (s : Strand) : Nat × Nat := (s.stack.size, s.boundaries)

/-- What is left to whoever goes on: the counts of nested calls, strands that wait with as many slots, and no
fewer slots to use. -/
structure Machine.GoesOn (m m' : Machine) : Prop where
  nativeCalls : m'.nativeCalls = m.nativeCalls
  boundaries : m'.running.boundaries = m.running.boundaries
  parked : m'.parked.map Strand.extent = m.parked.map Strand.extent
  stack : m.running.stack.size ≤ m'.running.stack.size

/-- How something ends that keeps to the limits. Nothing goes on from what no protected call may see. Only
what may yield does so, and not within a nested call. -/
structure Machine.Bounded (o : Options) (k : Bool) (m : Machine) {α : Type} (r : Outcome α) : Prop where
  limited : r.state.Limited o
  goesOn : (∀ e m', r = .error e m' → e.isFatal = false) → m.GoesOn r.state
  yields : ∀ m', r = .error .yield m' → k = true ∧ m.running.boundaries = 0

/-- An action that keeps to the limits wherever they were kept to. -/
def Action.Bounded (o : Options) (k : Bool) {α : Type} (x : Action α) : Prop :=
  ∀ m : Machine, m.Limited o → m.Bounded o k (x m)

variable {o : Options} {k : Bool} {m m' m'' : Machine} {s : Strand} {α β : Type} {n slot : Nat}

theorem Machine.Limited.options_eq (hm : m.Limited o) :
    m.options.maxStack = o.maxStack ∧ m.options.maxDepth = o.maxDepth ∧
      m.options.maxNativeCalls = o.maxNativeCalls := by
  have hoptions := hm.options
  exact ⟨congrArg (·.maxStack) hoptions, congrArg (·.maxDepth) hoptions, congrArg (·.maxNativeCalls) hoptions⟩

namespace Machine.GoesOn

theorem refl (m : Machine) : m.GoesOn m := ⟨rfl, rfl, rfl, le_rfl⟩

theorem trans (h : m.GoesOn m') (h' : m'.GoesOn m'') : m.GoesOn m'' :=
  ⟨h'.nativeCalls.trans h.nativeCalls, h'.boundaries.trans h.boundaries, h'.parked.trans h.parked,
    h.stack.trans h'.stack⟩

theorem length_parked (h : m.GoesOn m') : m'.parked.length = m.parked.length := by
  simpa using congrArg List.length h.parked

end Machine.GoesOn

namespace Machine.Bounded

variable {r : Outcome α}

protected theorem pure (hm : m.Limited o) {a : α} : m.Bounded o k (.ok a m) := ⟨hm, fun _ => .refl m, nofun⟩

protected theorem throw (hm : m.Limited o) {e : Fault} (he : e ≠ .yield) :
    m.Bounded o k (.error e m : Outcome α) :=
  ⟨hm, fun _ => .refl m, fun _ heq => absurd (EStateM.Result.error.inj heq).1 he⟩

protected theorem raise (hm : m.Limited o) (c : Complaint) : m.Bounded o k ((raise c : Action α) m) :=
  .throw hm (by simp)

theorem goesOn_ok {a : α} (h : m.Bounded o k (.ok a m')) : m.GoesOn m' :=
  h.goesOn fun _ _ heq => by cases heq

theorem goesOn_error {e : Fault} (h : m.Bounded o k (.error e m' : Outcome α)) (he : e.isFatal = false) :
    m.GoesOn m' := h.goesOn fun _ _ heq => (EStateM.Result.error.inj heq).1 ▸ he

theorem fatal {e : Fault} (hm' : m'.Limited o) (he : e.isFatal = true) :
    m.Bounded o k (.error e m' : Outcome α) where
  limited := hm'
  goesOn h := absurd (h e m' rfl) (by simp [he])
  yields _ heq := by
    rw [(EStateM.Result.error.inj heq).1] at he
    cases he

theorem of_ok {a : α} (hm' : m'.Limited o) (h : m.GoesOn m') : m.Bounded o k (.ok a m') :=
  ⟨hm', fun _ => h, nofun⟩

theorem of_error {e : Fault} (he : e ≠ .yield) (hm' : m'.Limited o) (h : m.GoesOn m') :
    m.Bounded o k (.error e m' : Outcome α) :=
  ⟨hm', fun _ => h, fun _ heq => absurd (EStateM.Result.error.inj heq).1 he⟩

/-- What does not yield keeps to the limits where others may yield. -/
theorem mayYield (h : m.Bounded o false r) : m.Bounded o k r :=
  ⟨h.limited, h.goesOn, fun m' hr => absurd (h.yields m' hr).1 Bool.false_ne_true⟩

/-- What comes later counts from before. -/
theorem after (h : m.GoesOn m') (hr : m'.Bounded o k r) : m.Bounded o k r :=
  ⟨hr.limited, fun hfatal => h.trans (hr.goesOn hfatal), fun m' heq => h.boundaries ▸ hr.yields m' heq⟩

theorem bind {x : Action α} {f : α → Action β} (hx : m.Bounded o k (x m))
    (hf : ∀ a m', x m = .ok a m' → m'.Limited o → m.GoesOn m' → m'.Bounded o k (f a m')) :
    m.Bounded o k ((x >>= f) m) := by
  rw [Action.bind_apply]
  cases h : x m with
  | ok a m' =>
    rw [h] at hx
    exact .after hx.goesOn_ok (hf a m' h hx.limited hx.goesOn_ok)
  | error e m' =>
    rw [h] at hx
    refine ⟨hx.limited, fun hfatal => hx.goesOn_error (hfatal e m' rfl), fun m'' heq => ?_⟩
    obtain ⟨rfl, rfl⟩ := EStateM.Result.error.inj heq
    exact hx.yields _ rfl

/-- A part of the state is looked at first. -/
theorem view {f : Machine → α} {x : α → Action β} (h : m.Bounded o k (x (f m) m)) :
    m.Bounded o k ((view f >>= x) m) := by
  rwa [Action.bind_ok (Action.view_apply f m)]

theorem attempt {x : Action α} (hx : m.Bounded o k (x m)) : m.Bounded o k (LuaMachine.attempt x m) := by
  rw [Action.attempt_apply]
  cases h : x m with
  | ok a m' =>
    rw [h] at hx
    exact .of_ok hx.limited hx.goesOn_ok
  | error e m' =>
    rw [h] at hx
    dsimp only
    split
    · next he => exact .fatal hx.limited he
    · next he => exact .of_ok hx.limited (hx.goesOn_error (Bool.eq_false_iff.2 he))

/-- A change of the running strand, of the mode or of the heap, in which no coroutine changes. -/
theorem change (hm : m.Limited o) {a : α} (hoptions : { m'.options with mode := o.mode } = o)
    (hrunning : m'.running.Limited o) (hsize : m.running.stack.size ≤ m'.running.stack.size)
    (hboundaries : m'.running.boundaries = m.running.boundaries) (hparked : m'.parked = m.parked)
    (hcoroutines : m'.heap.coroutines = m.heap.coroutines) (hcalls : m'.nativeCalls = m.nativeCalls) :
    m.Bounded o k (.ok a m') := by
  refine .of_ok ⟨hoptions, hrunning, hparked ▸ hm.parked, fun c s hs => hm.stored c s ?_,
    hcalls ▸ hm.nativeCalls, ?_⟩ ⟨hcalls, hboundaries, congrArg _ hparked, hsize⟩
  · rwa [Heap.coroutine, hcoroutines] at hs
  · rw [hparked, hcalls]
    exact hm.resumptions

/-- A change of the heap in which no coroutine changes. -/
theorem of_heap (hm : m.Limited o) {a : α} {h : Heap} (hcoroutines : h.coroutines = m.heap.coroutines) :
    m.Bounded o k (.ok a { m with heap := h } : Outcome α) :=
  .change hm hm.options hm.running le_rfl rfl rfl hcoroutines rfl

/-- A change of the running strand only. -/
theorem of_running (hm : m.Limited o) {a : α} {s : Strand} (hs : s.Limited o)
    (hsize : m.running.stack.size ≤ s.stack.size) (hboundaries : s.boundaries = m.running.boundaries) :
    m.Bounded o k (.ok a { m with running := s } : Outcome α) :=
  .change hm hm.options hs hsize hboundaries rfl rfl rfl

end Machine.Bounded

namespace Strand.Limited

/-- The stack may be another one of the same size. -/
theorem modifyStack (hs : s.Limited o) {f : Array Value → Array Value} (hf : (f s.stack).size = s.stack.size) :
    (s.modifyStack f).Limited o where
  frames := hs.frames
  stack := hf.symm ▸ hs.stack
  top := hs.top.trans hf.ge
  windows g hg := (hs.windows g hg).trans hf.ge

theorem withTop (hs : s.Limited o) {top : Nat} (htop : top ≤ s.stack.size) :
    ({ s with top := top } : Strand).Limited o where
  frames := hs.frames
  stack := hs.stack
  top := htop
  windows := hs.windows

theorem withOpenCells (hs : s.Limited o) (cells : List OpenCell) : ({ s with openCells := cells } : Strand).Limited o :=
  ⟨hs.frames, hs.stack, hs.top, hs.windows⟩

theorem create (o : Options) (owner : Owner) : (Strand.create owner).Limited o where
  frames := Nat.zero_le _
  stack := le_max_left ..
  top := Nat.zero_le _
  windows f hf := by simp [Strand.create] at hf

end Strand.Limited

/-! Basic actions -/

namespace Machine.Bounded

variable (hm : m.Limited o)

include hm

theorem setTop {top : Nat} (htop : top ≤ m.running.stack.size) : m.Bounded o k (LuaMachine.setTop top m) :=
  .of_running hm (hm.running.withTop htop) le_rfl rfl

theorem resetTop : m.Bounded o k (LuaMachine.resetTop m) := by
  refine .view ?_
  cases hf : m.topFrame? with
  | none => exact .pure hm
  | some f => exact .setTop hm (hm.running.windows f (Array.mem_of_back? hf))

theorem readSlot (i : Nat) : m.Bounded o k (LuaMachine.readSlot i m) := by
  unfold LuaMachine.readSlot
  split
  · exact .pure hm
  · exact .throw hm nofun

theorem writeSlot (i : Nat) (v : Value) : m.Bounded o k (LuaMachine.writeSlot i v m) := by
  unfold LuaMachine.writeSlot
  split
  · exact .of_running hm (hm.running.modifyStack Array.size_setIfInBounds) Array.size_setIfInBounds.ge rfl
  · exact .throw hm nofun

/-- A stack is made no larger than it may be. -/
theorem ensureStack (n : Nat) : m.Bounded o k (LuaMachine.ensureStack n m) := by
  unfold LuaMachine.ensureStack
  split
  · exact .pure hm
  · split
    · exact .throw hm nofun
    · next hsmall hlimit =>
      have hmax := hm.options_eq.1
      obtain ⟨s, hs⟩ : ∃ s, s = m.running.grow n m.options.maxStack := ⟨_, rfl⟩
      have hsize : s.stack.size =
          m.running.stack.size + (min (2 * n) m.options.maxStack - m.running.stack.size) := by
        simp [hs, Strand.grow, Strand.modifyStack]
      have hframes : s.frames = m.running.frames := by rw [hs]; rfl
      have htopEq : s.top = m.running.top := by rw [hs]; rfl
      have hboundaries : s.boundaries = m.running.boundaries := by rw [hs]; rfl
      have hstack := hm.running.stack
      have htop := hm.running.top
      change m.Bounded o k (.ok () { m with running := m.running.grow n m.options.maxStack } : Outcome Unit)
      rw [← hs]
      refine .of_running hm ⟨hframes ▸ hm.running.frames, ?_, ?_, fun f hf => ?_⟩ ?_ hboundaries
      · omega
      · omega
      · have := hm.running.windows f (hframes ▸ hf)
        omega
      · omega

/-- Once there is room for a number of slots, there are as many. -/
theorem withRoom {x : Action α}
    (h : ∀ m' : Machine, m'.Limited o → n ≤ m'.running.stack.size → m'.running.frames = m.running.frames →
      m'.Bounded o k (x m')) : m.Bounded o k ((LuaMachine.ensureStack n >>= fun _ => x) m) := by
  refine .bind (.ensureStack hm n) fun _ m' hroom hm' _ => ?_
  obtain ⟨stack, rfl, hsize, -⟩ := ensureStack_eq_ok hroom
  exact h _ hm' hsize rfl

theorem closeUpvalues (level : Nat) : m.Bounded o k (LuaMachine.closeUpvalues level m) := by
  obtain ⟨cells, openCells, hclose⟩ := m.heap.closeCells_eq m.running level
  have happly : LuaMachine.closeUpvalues level m = .ok ()
      { m with heap := { m.heap with cells := cells }, running := { m.running with openCells := openCells } } := by
    change EStateM.Result.ok () (m.modifyBoth fun h s => h.closeCells s level) = _
    simp only [Machine.modifyBoth, hclose]
  rw [happly]
  exact .change hm hm.options (hm.running.withOpenCells openCells) le_rfl rfl rfl rfl rfl

theorem findUpvalue (slot : Nat) : m.Bounded o k (LuaMachine.findUpvalue slot m) := by
  refine .view ?_
  cases m.running.openCells.find? (·.slot = slot) with
  | some c => exact .pure hm
  | none => exact .change hm hm.options (hm.running.withOpenCells _) le_rfl rfl rfl rfl rfl

/-- A slot of some strand is written; no stack changes its size. -/
theorem setCellValue (c : CellId) (v : Value) :
    m.Bounded o k (.ok () (m.setCellValue c v) : Outcome Unit) := by
  have hput {s : Strand} (hs : s.Limited o) (i : Nat) : (s.modifyStack (·.setIfInBounds i v)).Limited o :=
    hs.modifyStack Array.size_setIfInBounds
  unfold Machine.setCellValue
  split
  · exact .of_heap hm rfl
  · next owner i _ =>
    unfold Machine.setStrandSlot
    split_ifs
    · exact .of_running hm (hput hm.running i) Array.size_setIfInBounds.ge rfl
    · refine .of_ok ⟨hm.options, hm.running, fun s hs => ?_, hm.stored, hm.nativeCalls, ?_⟩ ⟨rfl, rfl, ?_, le_rfl⟩
      · obtain ⟨t, ht, rfl⟩ := List.mem_map.1 hs
        split
        · exact hput (hm.parked t ht) i
        · exact hm.parked t ht
      · exact (List.length_map _).trans_le hm.resumptions
      · refine (List.map_map ..).trans (List.map_congr_left fun t _ => ?_)
        change (if t.owner = owner then _ else t : Strand).extent = t.extent
        split
        · exact congrArg (·, t.boundaries) Array.size_setIfInBounds
        · rfl
    · cases owner with
      | main n => exact .pure hm
      | coroutine u =>
        refine .of_ok ⟨hm.options, hm.running, hm.parked, fun d s hs => ?_, hm.nativeCalls, hm.resumptions⟩
          ⟨rfl, rfl, rfl, le_rfl⟩
        change ((m.heap.modifyCoroutine u _).coroutine d).strand = some s at hs
        rw [Heap.coroutine_modifyCoroutine] at hs
        split at hs
        · obtain ⟨t, ht, rfl⟩ := Option.map_eq_some_iff.1 hs
          exact hput (hm.stored d t ht) i
        · exact hm.stored d s hs

theorem assignUpvalue (c : CellId) (v : Value) : m.Bounded o k (LuaMachine.assignUpvalue c v m) := by
  rcases assignUpvalue_cases c v m with hx | hx <;> rw [hx]
  · exact .setCellValue hm c v
  · exact .throw hm nofun

/-- The strand of a new coroutine holds nothing but its body. -/
theorem createCoroutine (body : Value) : m.Bounded o k (LuaMachine.createCoroutine body m) := by
  have hnew : m.Bounded o k (onHeap (·.newCoroutine body) m) := by
    refine .of_ok ⟨hm.options, hm.running, hm.parked, fun d s hs => ?_, hm.nativeCalls, hm.resumptions⟩
      ⟨rfl, rfl, rfl, le_rfl⟩
    change ((m.heap.coroutines.push _)[d.index]?.getD default).strand = some s at hs
    rw [Array.getElem?_push] at hs
    split at hs
    · have hbody := (Strand.Limited.create o (.coroutine ⟨m.heap.coroutines.size⟩)).modifyStack
        (f := (·.setIfInBounds 0 body)) Array.size_setIfInBounds
      obtain rfl := Option.some.inj hs
      exact hbody.withTop (by simp [Strand.modifyStack, Strand.create, Limit.basicStack, Limit.minStack])
    · exact hm.stored d s hs
  unfold LuaMachine.createCoroutine
  split
  · exact .bind (.raise hm _) fun _ _ h => by cases h
  · exact hnew

end Machine.Bounded

variable {R : Conduct}

/-- Basic actions of a host function keep to the limits. -/
theorem Elementary.bounded {x : Action α} (h : Elementary R x) (hhost : R.seat = .host)
    (hhonest : R.honest = true) : x.Bounded o k := by
  intro m hm
  cases h with
  | view f _ => exact .pure hm
  | throw e h => exact .throw hm fun he => by simp [(h he).2] at hhonest
  | readSlot i => exact .readSlot hm i
  | writeSlot i v => exact .writeSlot hm i v
  | setTop top h =>
    rw [hhost] at h
    exact h.elim
  | resetTop => exact .resetTop hm
  | pushValue v =>
    refine .view (.withRoom hm fun m₁ hm₁ hsize _ => .bind (.writeSlot hm₁ _ _) fun _ m₂ _ hm₂ h₂ => ?_)
    have hle := h₂.stack
    exact .setTop hm₂ (by omega)
  | ensureStack n => exact .ensureStack hm n
  | closeUpvalues level => exact .closeUpvalues hm level
  | findUpvalue slot _ => exact .findUpvalue hm slot
  | assignUpvalue c v => exact .assignUpvalue hm c v
  | modifyTable t f | newTable t | newHostClosure c | newClosure p cells env _ _ => exact .of_heap hm rfl
  | setStringMetatable _ | print _ | takeOutput _ =>
    exact .change hm hm.options hm.running le_rfl rfl rfl rfl rfl
  | createCoroutine body => exact .createCoroutine hm body
  | newCells vs =>
    obtain ⟨cells, heq⟩ := m.heap.newCells_eq vs
    exact .of_heap (h := (m.heap.newCells vs).2) hm (by rw [heq])
  | setMode mode _ => exact .change hm hm.options hm.running le_rfl rfl rfl rfl rfl
  | compile p _ _ => exact .view (.of_heap hm rfl)

theorem Sequence.bounded {x : Action α} (h : Sequence R x) (hhost : R.seat = .host)
    (hhonest : R.honest = true) : x.Bounded o k := by
  induction h with
  | elementary h => exact h.bounded hhost hhonest
  | pure a => exact fun m hm => .pure hm
  | bind _ _ ihx ihf =>
    exact fun m hm => (ihx m hm).bind fun a m' heq hm' _ => ihf a ⟨m, m', heq⟩ m' hm'

end LuaMachine
