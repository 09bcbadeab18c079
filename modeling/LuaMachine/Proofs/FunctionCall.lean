import LuaMachine.Proofs.Compilation

/-!
Calls start alike on engines that are alike: the called value is resolved to the same function, a
host function runs to its end, and a Lua function gets a frame that waits to be run.
-/

namespace LuaMachine

namespace Setting

variable {S : Setting} {α β γ : Type} {m m' : Machine} {depth : Nat}

theorem Stops.lower {p : Machine → Prop} {e : Fault} (hs : S.Stops m m.depth p e m')
    (hd : depth ≤ m.depth) : S.Stops m depth p e m' := by
  refine ⟨hs.sound, hs.kept, .trans ?_ hs.frames, hs.yield⟩
  exact List.take_prefix_take_left hd

/-- What comes after a state that has the frames below the depth counts from before. -/
theorem Results.after_kept {m₁ : Machine} {P : α → Machine → Prop} {yielding : Machine → Prop}
    {r : Outcome α} (hk : m.Kept m₁)
    (hframes : m.running.frames.toList.take depth <+: m₁.running.frames.toList)
    (hr : S.Results m₁ depth P yielding r) : S.Results m depth P yielding r := by
  cases r with
  | ok a m' => exact ⟨hr.1, hk.trans hr.2.1, hr.2.2⟩
  | error e m' =>
    refine hr.imp_right fun h => ⟨h.sound, hk.trans h.kept, .trans ?_ h.frames, h.yield⟩
    exact List.prefix_take_iff.2 ⟨hframes, List.length_take_le ..⟩

theorem Results.after {m₁ : Machine} {P : α → Machine → Prop} {yielding : Machine → Prop}
    {r : Outcome α} (h : S.Calm m m₁) (hr : S.Results m₁ depth P yielding r) :
    S.Results m depth P yielding r :=
  hr.after_kept h.kept (by rw [h.frames]; exact List.take_prefix _ _)

theorem length_le_depth {fs : List Frame} (h : fs <+: m.running.frames.toList) :
    fs.length ≤ m.depth := by
  rw [Machine.depth, ← Array.length_toList]
  exact h.length_le

theorem Calm.toList_frames {m₁ : Machine} {fs : List Frame} (h : S.Calm m m₁)
    (hfs : m.running.frames.toList = fs) : m₁.running.frames.toList = fs := by
  rw [h.frames, hfs]

theorem Results.lower {depth' : Nat} {P : α → Machine → Prop} {yielding : Machine → Prop}
    {r : Outcome α} (hr : S.Results m depth P yielding r) (hd : depth' ≤ depth) :
    S.Results m depth' P yielding r := by
  cases r with
  | ok a m' => exact hr
  | error e m' =>
    refine hr.imp_right fun h => ⟨h.sound, h.kept, .trans ?_ h.frames, h.yield⟩
    exact List.take_prefix_take_left hd

theorem Results.imp_yield {P : α → Machine → Prop} {p q : Machine → Prop} {r : Outcome α}
    (hr : S.Results m depth P p r) (hpq : ∀ m', p m' → q m') : S.Results m depth P q r := by
  cases r with
  | ok a m' => exact hr
  | error e m' => exact hr.imp_right fun h => h.imp fun _ hy => hpq m' hy

/-- Where nothing yields, nothing is asked of a yield. -/
theorem Results.never {P : α → Machine → Prop} {yielding : Machine → Prop} {r : Outcome α}
    (hr : S.Results m depth P (fun _ => False) r) : S.Results m depth P yielding r :=
  hr.imp_yield fun _ h => h.elim

/-- Frames below the depth are there all the time. -/
theorem Alike.bind_results {α' γ' : Type} {φ : α → α'} {ψ : γ → γ'} {xl : Action α'}
    {xr : Action α} {fl : α' → Action γ'} {fr : α → Action γ} {fs : List Frame}
    {P : α → Machine → Prop} {Q : γ → Machine → Prop} {yielding : Machine → Prop}
    (hx : S.Alike φ (xl (S.left m)) (xr m) (S.Results m fs.length P yielding))
    (hfs : m.running.frames.toList.take fs.length = fs)
    (hf : ∀ a m', S.Sound m' → P a m' → fs <+: m'.running.frames.toList ∧
      S.Alike ψ (fl (φ a) (S.left m')) (fr a m') (S.Results m' fs.length Q yielding)) :
    S.Alike ψ ((xl >>= fl) (S.left m)) ((xr >>= fr) m) (S.Results m fs.length Q yielding) := by
  refine hx.bind (fun a m' _ ⟨hm', hk, hP⟩ => ?_) fun _ _ h => h
  obtain ⟨hbelow, halike⟩ := hf a m' hm' hP
  exact halike.imp (.after_kept hk (by rwa [hfs]))

/-- Steps that settle after a frame was left. -/
theorem Results.of_popped {yielding : Machine → Prop} {r : Outcome α} {fs : List Frame} {f : Frame}
    (hfs : m.running.frames.toList = fs ++ [f]) (hr : S.Settles false m.popped r) :
    S.Results m fs.length (fun _ m' => m'.running.frames.toList = fs) yielding r := by
  have hpopped : m.popped.running.frames.toList = fs := by
    rw [Machine.frames_popped, hfs, List.dropLast_concat]
  cases r with
  | ok a m' => exact ⟨hr.sound, (kept_popped m).trans hr.kept, hr.toList_frames hpopped⟩
  | error e m' =>
    refine hr.imp_right fun h => ⟨h.sound, (kept_popped m).trans h.kept, ?_, fun he =>
      absurd (h.yield he).1 Bool.false_ne_true⟩
    have hframes := h.frames
    rw [Machine.take_depth, hpopped] at hframes
    rwa [hfs, List.take_left]

theorem Results.imp {P Q : α → Machine → Prop} {yielding : Machine → Prop} {r : Outcome α}
    (hr : S.Results m depth P yielding r) (hPQ : ∀ a m', P a m' → Q a m') :
    S.Results m depth Q yielding r := by
  cases r with
  | ok a m' => exact ⟨hr.1, hr.2.1, hPQ a m' hr.2.2⟩
  | error e m' => exact hr

/-- What is true of the outcome alone may be added. -/
theorem Results.and_ok {P Q : α → Machine → Prop} {yielding : Machine → Prop} {r : Outcome α}
    (hr : S.Results m depth P yielding r) (hQ : ∀ a m', r = .ok a m' → Q a m') :
    S.Results m depth (fun a m' => P a m' ∧ Q a m') yielding r := by
  cases r with
  | ok a m' => exact ⟨hr.1, hr.2.1, hr.2.2, hQ a m' rfl⟩
  | error e m' => exact hr

/-- Steps that settle may come first. -/
theorem Alike.results_bind {ψ : β → γ} {xl xr : Action α} {fl : α → Action γ} {fr : α → Action β}
    {P : β → Machine → Prop} {yielding : Machine → Prop} (hd : depth ≤ m.depth)
    (hx : S.Alike id (xl (S.left m)) (xr m) (S.Settles false m))
    (hf : ∀ a m', xr m = .ok a m' → S.Calm m m' →
      S.Alike ψ (fl a (S.left m')) (fr a m') (S.Results m' depth P yielding)) :
    S.Alike ψ ((xl >>= fl) (S.left m)) ((xr >>= fr) m) (S.Results m depth P yielding) :=
  hx.bind (fun a m' hr hcalm => (hf a m' hr hcalm).imp (.after hcalm)) fun _ _ h =>
    h.imp_right fun h => (h.lower hd).imp fun _ hy => absurd hy.1 Bool.false_ne_true

/-- Frames over given ones, of which the only new one waits. Its results go to a slot, and so many
of them are wanted. -/
def Pushed (S : Setting) (fs : List Frame) (slot : Nat) (wanted : Option Nat) (m : Machine) : Prop :=
  ∃ f, m.running.frames.toList = fs ++ [f] ∧ f.Waits S.tails m.heap ∧ f.slot = slot ∧
    f.wanted = wanted ∧ f.top ≤ m.running.top

/-- A host function on top of given frames has yielded. -/
def Yielding (fs : List Frame) (slot : Nat) (wanted : Option Nat) (m : Machine) : Prop :=
  m.running.boundaries = 0 ∧ ∃ host, m.running.frames.toList = fs ++ [host] ∧ host.slot = slot ∧
    host.wanted = wanted

/-- The frame and the unit on the left. -/
def leftFrame (S : Setting) (f : Frame) : Frame := if S.erased then f.erase else f

def leftUnit (S : Setting) (u : Option CompiledUnit) : Option CompiledUnit :=
  if S.erased then none else u

def leftTarget (S : Setting) : Target → Target
  | .lua c u => .lua c (S.leftUnit u)
  | .host f => .host f

end Setting

open Setting

/-! Frames -/

def Machine.pushed (m : Machine) (f : Frame) : Machine :=
  m.modifyRunning fun s => s.modifyFrames (·.push f)

theorem Machine.frames_pushed (m : Machine) (f : Frame) :
    (m.pushed f).running.frames.toList = m.running.frames.toList ++ [f] :=
  Array.toList_push

variable {S : Setting} {α : Type} {m : Machine} {c : ClosureId}

@[simp]
theorem pushFrame_apply (f : Frame) (m : Machine) : pushFrame f m = .ok () (m.pushed f) := rfl

theorem left_pushed (f : Frame) (m : Machine) :
    (S.left m).pushed (S.leftFrame f) = S.left (m.pushed f) := by
  unfold left leftFrame
  cases S.erased with
  | true => exact m.erase_modifyRunning fun s => by simp [Strand.erase, Strand.modifyFrames]
  | false => rfl

namespace Setting

theorem sound_pushed (hm : S.Sound m) {f : Frame} (hf : f.Sound m.heap m.running.stack.size) :
    S.Sound (m.pushed f) := by
  refine ⟨hm.closures, hm.caches, hm.coroutines, fun g hg => ?_, hm.parked⟩
  rcases Array.mem_push.1 hg with hg | rfl
  · exact hm.running g hg
  · exact hf

theorem kept_pushed (m : Machine) (f : Frame) : m.Kept (m.pushed f) := ⟨.refl _, rfl, le_rfl, .refl _⟩

end Setting

theorem le_size_of_ensureStack {n : Nat} {u : Unit} {m m' : Machine}
    (h : ensureStack n m = .ok u m') : n ≤ m'.running.stack.size := by
  unfold ensureStack at h
  split at h
  · obtain ⟨-, rfl⟩ := EStateM.Result.ok.inj h
    assumption
  · split at h
    · cases h
    · next hsmall hlimit =>
      obtain ⟨-, rfl⟩ := EStateM.Result.ok.inj h
      change n ≤ (m.running.stack ++ Array.replicate
        (min (2 * n) m.options.maxStack - m.running.stack.size) Value.nil).size
      rw [Array.size_append, Array.size_replicate]
      omega

theorem Orderly.checkDepth {R : Conduct} : Orderly R checkDepth := by
  have heq : LuaMachine.checkDepth = (do
      let full ← view fun m => decide (m.options.maxDepth ≤ m.depth)
      let position ← view (·.position)
      if full then throw (.stackOverflow position false) else Pure.pure ()) := by
    funext m
    by_cases h : m.options.maxDepth ≤ m.depth <;>
      simp [LuaMachine.checkDepth, Action.bind_apply, h]
  rw [heq]
  refine .andThen (.view _ fun m => by simp) fun _ => .andThen (.view _ fun m => by simp) fun _ => ?_
  exact .ite (.throw (by simp)) (.pure ())

theorem Plain.checkDepth {U : Prototype → Prop} : Plain U checkDepth :=
  (Orderly.checkDepth (R := ⟨U, .between 0, true, true⟩)).sequence.plain rfl rfl

/-- The fixed parameters move above all arguments. What was kept of the surplus follows them. -/
def placeParameters (p : Prototype) (base argCount : Nat) (surplus : Option (List Value)) :
    Action (Nat × Nat) := do
  let start := base + max argCount p.paramCount.toNat
  moveSlots start base p.paramCount.toNat
  match surplus with
  | none => pure (start, p.paramCount.toNat)
  | some vs =>
    let t ← newTable (surplusTable vs)
    writeSlot (start + p.paramCount.toNat) t
    pure (start, p.paramCount.toNat + 1)

theorem layOutSurplus_eq (p : Prototype) (base argCount : Nat) :
    layOutSurplus p base argCount = (do
      let fixed := p.paramCount.toNat
      let surplus ←
        if p.needsArg then some <$> readSlots (base + fixed) (max argCount fixed - fixed)
        else pure none
      placeParameters p base argCount surplus) := rfl

/-- The parameters are moved up, and what was kept of the surplus is written behind them. -/
theorem Action.Slotwise.layOutSurplus {free : Nat → Prop} {P : {α : Type} → Action α → Prop}
    (hP : Slotwise free P) (hnew : ∀ t, P (newTable t)) (p : Prototype) {base : Nat} (h : free base)
    (argCount : Nat) : P (layOutSurplus p base argCount) := by
  have hplace (surplus : Option (List Value)) : P (placeParameters p base argCount surplus) := by
    refine hP.andThen (hP.moveSlots (hP.mono h (Nat.le_add_right ..)) h _) fun _ => ?_
    cases surplus with
    | none => exact hP.pure _
    | some vs =>
      exact hP.andThen (hnew _) fun _ => hP.andThen (hP.writeSlot (hP.mono h (by omega)) _) fun _ =>
        hP.pure _
  rw [layOutSurplus_eq]
  dsimp only
  split
  · exact hP.andThen (hP.map _ (hP.readSlots _ _)) hplace
  · exact hP.andThen (hP.pure none) hplace

open LuaMachine.Action in
theorem returns_placeParameters (p : Prototype) (base argCount : Nat)
    (surplus : Option (List Value)) :
    Returns (fun r => r.1 = base + max argCount p.paramCount.toNat)
      (placeParameters p base argCount surplus) := by
  refine .bind fun _ => ?_
  cases surplus with
  | none => exact .pure rfl
  | some vs => exact .bind fun _ => .bind fun _ => .pure rfl

open LuaMachine.Action in
theorem returns_layOutSurplus (p : Prototype) (base argCount : Nat) :
    Returns (fun r => r.1 = base + max argCount p.paramCount.toNat)
      (layOutSurplus p base argCount) := by
  rw [layOutSurplus_eq]
  have hplace := returns_placeParameters p base argCount
  exact .ite (.bind hplace) (.bind hplace)

/-! Entering a Lua function -/

/-- A frame for a closure of a sound machine is sound where its registers fit. -/
theorem Frame.sound_of_fits {h : Heap} {f : Frame} {slots : Nat} (hc : f.closure? = some c)
    (hlt : c.index < h.closures.size) (hfits : f.Fits (h.closure c).proto slots)
    (hunit : ∀ u, f.unit = some u → (h.closure c).proto.IsUnit u) : f.Sound h slots := by
  intro d hd
  obtain rfl : c = d := Option.some.inj (hc.symm.trans hd)
  exact ⟨hlt, hfits, hunit⟩

/-- Lays out the stack for a frame: the prototype, the base and the end of the registers. -/
def layOutFrame (c : ClosureId) (slot argCount : Nat) : Action (Prototype × Nat × Nat) := do
  checkDepth
  let p ← view fun m => (m.heap.closure c).proto
  let fixed := p.paramCount.toNat
  let window := p.maxStack.toNat
  let start := slot + 1
  ensureStack (start + max argCount fixed + fixed + window + 1 + Limit.extraStack)
  clearSlots (start + min argCount fixed) (fixed - argCount)
  let (base, live) ← if p.isVararg then layOutSurplus p start argCount else pure (start, fixed)
  let top := base + max window live
  clearSlots (base + live) (top - (base + live))
  setTop top
  pure (p, base, top)

def calleeFrame (c : ClosureId) (unit : Option CompiledUnit) (slot argCount : Nat)
    (wanted : Option Nat) (tail : Bool) (p : Prototype) (base top : Nat) : Frame where
  function := .lua c
  unit := unit
  slot := slot
  base := base
  top := top
  pc := 0
  wanted := wanted
  argCount := argCount
  surplus := if p.isVararg then max argCount p.paramCount.toNat - p.paramCount.toNat else 0
  tail := tail

theorem enterLua_eq (c : ClosureId) (unit : Option CompiledUnit) (slot argCount : Nat)
    (wanted : Option Nat) (tail : Bool) :
    enterLua c unit slot argCount wanted tail = (do
      let (p, base, top) ← layOutFrame c slot argCount
      pushFrame (calleeFrame c unit slot argCount wanted tail p base top)) := by
  simp only [enterLua, layOutFrame, bind_assoc, pure_bind]
  congr! with _ p _ _
  split
  · next h => simp only [calleeFrame, h, ↓reduceIte, bind_assoc, pure_bind]
  · next h => simp only [calleeFrame, h, Bool.false_eq_true, ↓reduceIte, bind_assoc, pure_bind]

/-- The registers above the arguments are cleared. -/
def finishLayOut (p : Prototype) (base live : Nat) : Action (Prototype × Nat × Nat) := do
  let top := base + max p.maxStack.toNat live
  clearSlots (base + live) (top - (base + live))
  setTop top
  pure (p, base, top)

theorem finishLayOut_alike (hm : S.Sound m) (p : Prototype) (base live : Nat) {slots : Nat}
    (hslots : slots ≤ m.running.stack.size) {fs : Array Frame} (hfs : m.running.frames = fs) :
    S.Alike id (finishLayOut p base live (S.left m)) (finishLayOut p base live m)
      (S.Results m m.depth (fun r m' => r.1 = p ∧ r.2.1 = base ∧
        (base + p.maxStack.toNat ≤ r.2.2 ∧ r.2.2 ≤ m'.running.top) ∧
        slots ≤ m'.running.stack.size ∧ m'.running.frames = fs) fun _ => False) := by
  unfold finishLayOut
  refine Alike.results_bind le_rfl ((Plain.clearSlots _ _).alike hm) fun _ m₁ _ h₁ => ?_
  have hd₁ : m.depth ≤ m₁.depth := by simp [Machine.depth, h₁.frames]
  refine Alike.results_bind hd₁ ((Plain.primitive (.setTop _)).alike h₁.sound)
    fun u m₂ htop h₂ => .pure ⟨h₂.sound, .refl m₂, rfl, rfl, ⟨?_, ?_⟩, ?_, ?_⟩
  · exact Nat.add_le_add_left (le_max_left ..) base
  · exact (Action.leaves_setTop _ m₁ u m₂ htop).ge
  · exact hslots.trans (h₁.kept.stack.trans h₂.kept.stack)
  · rw [h₂.frames, h₁.frames, hfs]

theorem layOutFrame_alike (hm : S.Sound m) (hc : c.index < m.heap.closures.size)
    (slot argCount : Nat) :
    S.Alike id (layOutFrame c slot argCount (S.left m)) (layOutFrame c slot argCount m)
      (S.Results m m.depth (fun r m' => r.1 = (m.heap.closure c).proto ∧ slot < r.2.1 ∧
        (r.2.1 + r.1.maxStack.toNat ≤ r.2.2 ∧ r.2.2 ≤ m'.running.top) ∧
        r.2.1 + r.1.maxStack.toNat + 6 ≤ m'.running.stack.size ∧
        m'.running.frames = m.running.frames) fun _ => False) := by
  unfold layOutFrame
  refine Alike.results_bind le_rfl (Plain.checkDepth.alike hm) fun _ m₁ _ h₁ => ?_
  have hd₁ : m.depth ≤ m₁.depth := by simp [Machine.depth, h₁.frames]
  refine Alike.results_bind hd₁ ((Plain.view _ fun m => by simp [Closure.erase]).alike h₁.sound)
    fun p m₂ hp h₂ => ?_
  have hproto : p = (m.heap.closure c).proto := by
    rw [← h₁.kept.closures.proto hc]
    exact (EStateM.Result.ok.inj hp).1.symm
  have hd₂ : m.depth ≤ m₂.depth := by simp [Machine.depth, h₂.frames, h₁.frames]
  refine Alike.results_bind hd₂ ((Plain.primitive (.ensureStack _)).alike h₂.sound)
    fun _ m₃ hsize h₃ => ?_
  have hslots := le_size_of_ensureStack hsize
  have hd₃ : m.depth ≤ m₃.depth := by simp [Machine.depth, h₃.frames, h₂.frames, h₁.frames]
  refine Alike.results_bind hd₃ ((Plain.clearSlots _ _).alike h₃.sound) fun _ m₄ _ h₄ => ?_
  have hslots₄ := hslots.trans h₄.kept.stack
  have hframes₄ : m₄.running.frames = m.running.frames := by
    rw [h₄.frames, h₃.frames, h₂.frames, h₁.frames]
  have hd₄ : m.depth = m₄.depth := by simp [Machine.depth, hframes₄]
  rw [hd₄]
  have hlay (base : Nat) (hbase : base = slot + 1 ∨ base = slot + 1 + max argCount p.paramCount.toNat)
      (r : Prototype × Nat × Nat) (m' : Machine)
      (h : r.1 = p ∧ r.2.1 = base ∧
        (base + p.maxStack.toNat ≤ r.2.2 ∧ r.2.2 ≤ m'.running.top) ∧ slot + 1 + max argCount p.paramCount.toNat +
        p.paramCount.toNat + p.maxStack.toNat + 1 + Limit.extraStack ≤ m'.running.stack.size ∧
        m'.running.frames = m.running.frames) :
      r.1 = (m.heap.closure c).proto ∧ slot < r.2.1 ∧
        (r.2.1 + r.1.maxStack.toNat ≤ r.2.2 ∧ r.2.2 ≤ m'.running.top) ∧
        r.2.1 + r.1.maxStack.toNat + 6 ≤ m'.running.stack.size ∧
        m'.running.frames = m.running.frames := by
    obtain ⟨rfl, rfl, htop, hslots, hframes⟩ := h
    refine ⟨hproto, ?_, htop, ?_, hframes⟩
    · omega
    · simp only [Limit.extraStack] at hslots
      omega
  split
  · refine Alike.results_bind le_rfl ((Plain.slotwise.layOutSurplus .newTable p trivial argCount).alike h₄.sound)
      fun r m₅ hr h₅ => ?_
    have hbase := returns_layOutSurplus p (slot + 1) argCount _ _ _ hr
    have hd₅ : m₄.depth = m₅.depth := by simp [Machine.depth, h₅.frames]
    rw [hd₅]
    refine (finishLayOut_alike h₅.sound p r.1 r.2 (hslots₄.trans h₅.kept.stack)
      (h₅.frames.trans hframes₄)).imp fun hres => ?_
    exact hres.imp (hlay r.1 (.inr hbase))
  · refine (finishLayOut_alike h₄.sound p (slot + 1) p.paramCount.toNat hslots₄ hframes₄).imp
      fun hres => ?_
    exact hres.imp (hlay _ (.inl rfl))

theorem enterLua_alike (hS : S.Valid) (hm : S.Sound m) (hc : c.index < m.heap.closures.size)
    {unit : Option CompiledUnit} (hunit : ∀ u, unit = some u → (m.heap.closure c).proto.IsUnit u)
    (slot argCount : Nat) (wanted : Option Nat) (tail : Bool) {fs : List Frame}
    (hfs : m.running.frames.toList = fs) :
    S.Alike id (enterLua c (S.leftUnit unit) slot argCount wanted tail (S.left m))
      (enterLua c unit slot argCount wanted tail m)
      (S.Results m fs.length (fun _ => S.Pushed fs slot wanted) fun _ => False) := by
  subst hfs
  rw [enterLua_eq, enterLua_eq, Array.length_toList]
  refine (layOutFrame_alike hm hc slot argCount).bind (fun r m' _ hr => ?_) fun _ _ h => h
  obtain ⟨p, base, top⟩ := r
  obtain ⟨hm', hk, rfl, hslot, ⟨htop, hlive⟩, hfits, hframes⟩ := hr
  obtain ⟨f, hf⟩ : ∃ f, f = calleeFrame c unit slot argCount wanted tail
    (m.heap.closure c).proto base top := ⟨_, rfl⟩
  have hleft : calleeFrame c (S.leftUnit unit) slot argCount wanted tail
      (m.heap.closure c).proto base top = S.leftFrame f := by
    subst hf
    unfold leftUnit leftFrame
    cases S.erased <;> rfl
  have hclosure : f.closure? = some c := by rw [hf]; rfl
  have hproto := hk.closures.proto hc
  have hlt := (hk.closures c hc).1
  have hsound : f.Sound m'.heap m'.running.stack.size := by
    refine Frame.sound_of_fits hclosure hlt ?_ ?_
    · rw [hproto, hf]
      exact ⟨hslot, htop, hfits⟩
    · rw [hproto, hf]
      exact hunit
  dsimp only [id_eq]
  rw [hleft, ← hf, pushFrame_apply, pushFrame_apply, left_pushed]
  refine .inr ⟨rfl, sound_pushed hm' hsound, hk.trans (kept_pushed m' f), f, ?_,
    ⟨c, hclosure, hlt, ?_⟩, ?_, ?_, ?_⟩
  · rw [Machine.frames_pushed, hframes]
  · have hprogram := (hm.closures _ (Heap.closure_mem hc)).program
    have hpc : f.pc = 0 := by rw [hf]; rfl
    change (m'.heap.closure c).proto.IsReentry _ f.pc
    rw [hproto, hpc]
    exact ⟨(hS.program.verified hprogram).checked.code, .inl rfl⟩
  · rw [hf]
    rfl
  · rw [hf]
    rfl
  · rw [hf]
    exact hlive

/-! Resolving the called value -/

/-- The unit of a closure, where the mode asks for one; it leaves no other trace. -/
theorem unitFor_apply (hS : S.Valid) (hm : S.Sound m) (hc : c.index < m.heap.closures.size) :
    ∃ o m', unitFor c m = .ok o m' ∧ (∀ u, o = some u → (m.heap.closure c).proto.IsUnit u) ∧
      S.Calm m m' ∧ m'.erase = m.erase := by
  simp only [unitFor, Action.bind_apply, Action.view_apply]
  cases m.options.mode with
  | off => exact ⟨none, m, rfl, by simp, hm.calm, rfl⟩
  | auto | strict =>
    obtain ⟨u, m', hok, hu, hcalm, herase⟩ := compileClosure_apply hS hm hc
    refine ⟨some u, m', ?_, fun v hv => Option.some.inj hv ▸ hu, hcalm, herase⟩
    simp [Action.bind_apply, hok]

theorem unitFor_alike (hS : S.Valid) (hm : S.Sound m) (hc : c.index < m.heap.closures.size) :
    S.Alike S.leftUnit (unitFor c (S.left m)) (unitFor c m) (S.Results m m.depth
      (fun o m' => m'.running.frames = m.running.frames ∧
        ∀ u, o = some u → (m.heap.closure c).proto.IsUnit u) fun _ => False) := by
  obtain ⟨o, m', hok, hunit, hcalm, herase⟩ := unitFor_apply hS hm hc
  have hleft : unitFor c (S.left m) = .ok (S.leftUnit o) (S.left m') := by
    unfold left leftUnit
    cases S.erased with
    | true =>
      simp only [↓reduceIte, herase]
      rfl
    | false => exact hok
  rw [hleft, hok]
  exact .inr ⟨rfl, hcalm.sound, hcalm.kept, hcalm.frames, hunit⟩

theorem checkClosure_alike (c : ClosureId) :
    S.Alike id (checkClosure c (S.left m)) (checkClosure c m) (fun r =>
      r = .ok () m ∧ c.index < m.heap.closures.size ∨ r = .error .crash m) := by
  have hsize : (S.left m).heap.closures.size = m.heap.closures.size :=
    left_eq (f := (·.heap.closures.size)) (fun m => by simp) m
  unfold checkClosure
  rw [hsize]
  split
  · next h => exact .inr ⟨rfl, .inl ⟨rfl, h⟩⟩
  · exact .inr ⟨rfl, .inr rfl⟩

/-- A target of a call: a closure of the heap with its unit, or a host function. -/
def Setting.Resolved (h : Heap) : Target → Prop
  | .lua c unit => c.index < h.closures.size ∧ ∀ u, unit = some u → (h.closure c).proto.IsUnit u
  | .host f => ∀ c, f ≠ .lua c

theorem raise_alike {β : Type} {φ : α → β} (hm : S.Sound m) (complaint : Complaint) {depth : Nat}
    (hd : depth ≤ m.depth) (P : α → Machine → Prop) (yielding : Machine → Prop) :
    S.Alike φ ((raise complaint : Action β) (S.left m)) ((raise complaint : Action α) m)
      (S.Results m depth P yielding) := by
  refine .inr ⟨?_, .inr ((hm.calm.stops (by simp)).lower hd)⟩
  simp only [raise, left_eq Machine.erase_position]
  rfl

/-- The handler of a value that is called takes its place, and the value is its first argument. -/
def resolveHandler (slot steps argCount : Nat) (v : Value) : Action (Target × Nat) := do
  match ← view fun m => m.handler? v .call with
  | none => raise (.operand .call v.type)
  | some h =>
    ensureStack (slot + argCount + 2 + Limit.extraStack)
    shiftSlots (slot + argCount + 1) (argCount + 1)
    writeSlot slot h
    setTop (slot + argCount + 2)
    resolveCall slot steps (argCount + 1)

theorem resolveCall_alike (hS : S.Valid) (slot steps argCount : Nat) (hm : S.Sound m)
    {fs : List Frame} (hfs : m.running.frames.toList = fs) :
    S.Alike (fun r => (S.leftTarget r.1, r.2)) (resolveCall slot steps argCount (S.left m))
      (resolveCall slot steps argCount m) (S.Results m fs.length
        (fun r m' => m'.running.frames.toList = fs ∧ Resolved m'.heap r.1) fun _ => False) := by
  have hsize {m : Machine} (h : m.running.frames.toList = fs) : fs.length ≤ m.depth :=
    length_le_depth (by rw [h])
  induction steps generalizing m argCount with
  | zero => exact raise_alike hm .callChain (hsize hfs) _ _
  | succ steps ih =>
    have hhandler (v : Value) {m : Machine} (hm : S.Sound m) (hfs : m.running.frames.toList = fs) :
        S.Alike (fun r => (S.leftTarget r.1, r.2)) (resolveHandler slot steps argCount v (S.left m))
          (resolveHandler slot steps argCount v m) (S.Results m fs.length
          (fun r m' => m'.running.frames.toList = fs ∧ Resolved m'.heap r.1) fun _ => False) := by
      refine Alike.results_bind (hsize hfs) ((Plain.view _ fun m => m.erase_handler? v .call).alike hm)
        fun handler m₁ _ h₁ => ?_
      have hfs₁ := h₁.toList_frames hfs
      cases handler with
      | none => exact raise_alike h₁.sound _ (hsize hfs₁) _ _
      | some h =>
        refine Alike.results_bind (hsize hfs₁) ((Plain.primitive (.ensureStack _)).alike h₁.sound)
          fun _ m₂ _ h₂ => ?_
        have hfs₂ := h₂.toList_frames hfs₁
        refine Alike.results_bind (hsize hfs₂) ((Plain.shiftSlots _ _).alike h₂.sound)
          fun _ m₃ _ h₃ => ?_
        have hfs₃ := h₃.toList_frames hfs₂
        refine Alike.results_bind (hsize hfs₃) ((Plain.primitive (.writeSlot _ _)).alike h₃.sound)
          fun _ m₄ _ h₄ => ?_
        have hfs₄ := h₄.toList_frames hfs₃
        refine Alike.results_bind (hsize hfs₄) ((Plain.primitive (.setTop _)).alike h₄.sound)
          fun _ m₅ _ h₅ => ?_
        exact ih _ h₅.sound (h₅.toList_frames hfs₄)
    unfold resolveCall
    refine Alike.results_bind (hsize hfs) ((Plain.primitive (.readSlot slot)).alike hm)
      fun v m₁ _ h₁ => ?_
    have hfs₁ := h₁.toList_frames hfs
    cases v with
    | function f =>
      cases f with
      | lua c =>
        refine (checkClosure_alike c).bind (fun _ m' _ hr => ?_) ?_
        · obtain ⟨hr, hc⟩ := hr.resolve_right (by simp)
          obtain ⟨-, rfl⟩ := EStateM.Result.ok.inj hr
          refine (unitFor_alike hS h₁.sound hc).bind (fun o m₂ _ h => ?_) ?_
          · obtain ⟨hm₂, hk, hframes, hunit⟩ := h
            refine .inr ⟨rfl, hm₂, hk, hframes ▸ hfs₁, (hk.closures c hc).1, ?_⟩
            rwa [hk.closures.proto hc]
          · intro e m' h
            exact h.imp_right fun h => h.lower (hsize hfs₁)
        · intro e m' hr
          obtain ⟨rfl, -⟩ : e = .crash ∧ m' = m₁ := by simpa using hr
          exact .inl rfl
      | host g => exact .inr ⟨rfl, h₁.sound, .refl m₁, hfs₁, by simp [Resolved]⟩
      | hostClosure d => exact .inr ⟨rfl, h₁.sound, .refl m₁, hfs₁, by simp [Resolved]⟩
    | _ => exact hhandler _ h₁.sound hfs₁

/-! Running what was called -/

def hostFrame (f : Function) (slot argCount : Nat) (wanted : Option Nat) : Frame where
  function := f
  unit := none
  slot := slot
  base := slot + 1
  top := slot + 1 + argCount + Limit.minStack
  pc := 0
  wanted := wanted
  argCount := argCount
  surplus := 0
  tail := false

/-- What a host function does in its frame. -/
def hostBody (embedding : Embedding) (f : Function) (run : Run) : Action Nat :=
  match f with
  | .host g => g.body embedding run
  | .hostClosure c => do
    let g ← view fun m => (m.heap.hostClosure c).function
    g.body embedding run
  | .lua _ => throw .crash

/-- The results of a host function go to where it was called. -/
def leaveHost (slot n : Nat) : Action Unit := do
  let top ← view (·.running.top)
  let n := min n (top - (slot + 1))
  leaveFrame (top - n) n

theorem callHost_eq (embedding : Embedding) (run : Run) (f : Function) (slot argCount : Nat)
    (wanted : Option Nat) :
    callHost embedding run f slot argCount wanted = (do
      checkDepth
      ensureStack (slot + 1 + argCount + Limit.minStack)
      setTop (slot + 1 + argCount)
      pushFrame (hostFrame f slot argCount wanted)
      let n ← hostBody embedding f run
      leaveHost slot n) := by
  cases f with
  | host g => rfl
  | hostClosure c => simp only [callHost, hostBody, bind_assoc]; rfl
  | lua c => rfl

section

variable (hS : S.Valid) {runl runr : Run} (hrun : S.Engines runl runr) {embedding : Embedding}
  (hembedding : ∀ name, Routine S.program true (embedding name))

include hembedding in
/-- Host functions are routines. -/
theorem routine_hostBody (f : Function) :
    Routine S.program true fun run => hostBody embedding f run := by
  have hbody (g : HostFunction) : Routine S.program true (g.body embedding) := by
    cases g with
    | builtin g => exact g.routine _
    | embedded name => exact hembedding name
  cases f with
  | host g => exact hbody g
  | hostClosure c => exact .andThen (.view _ fun _ => rfl) hbody
  | lua c => exact .throw (by simp)

omit hembedding hS hrun in
theorem leaveHost_alike (hm : S.Sound m) (slot n : Nat) {fs : List Frame} {f : Frame}
    (hfs : m.running.frames.toList = fs ++ [f]) (yielding : Machine → Prop) :
    S.Alike id (leaveHost slot n (S.left m)) (leaveHost slot n m)
      (S.Results m fs.length
        (fun _ m' => m'.running.frames.toList = fs ∧ m'.Topped f.slot f.wanted) yielding) := by
  unfold leaveHost
  refine Alike.results_bind (length_le_depth (hfs ▸ List.prefix_append ..)) ((Plain.view (·.running.top) fun _ => rfl).alike hm)
    fun top m₁ _ h₁ => ?_
  have hfs₁ := h₁.toList_frames hfs
  refine (leaveFrame_alike h₁.sound _ _).imp fun hr => (Results.of_popped hfs₁ hr).and_ok fun _ _ h => ?_
  exact leaveFrame_topped (topFrame?_of_append hfs₁) h

include hS hrun hembedding

theorem callHost_alike (hm : S.Sound m) {f : Function} (hf : ∀ c, f ≠ .lua c)
    (slot argCount : Nat) (wanted : Option Nat) {fs : List Frame} (hfs : m.running.frames.toList = fs) :
    S.Alike id (callHost embedding runl f slot argCount wanted (S.left m))
      (callHost embedding runr f slot argCount wanted m)
      (S.Results m fs.length (fun _ m' => m'.running.frames.toList = fs ∧ m'.Topped slot wanted)
        (Yielding fs slot wanted)) := by
  have hsize {m : Machine} (h : m.running.frames.toList = fs) : fs.length ≤ m.depth :=
    length_le_depth (by rw [h])
  rw [callHost_eq, callHost_eq]
  refine Alike.results_bind (hsize hfs) (Plain.checkDepth.alike hm) fun _ m₁ _ h₁ => ?_
  have hfs₁ := h₁.toList_frames hfs
  refine Alike.results_bind (hsize hfs₁) ((Plain.primitive (.ensureStack _)).alike h₁.sound)
    fun _ m₂ _ h₂ => ?_
  have hfs₂ := h₂.toList_frames hfs₁
  refine Alike.results_bind (hsize hfs₂) ((Plain.primitive (.setTop _)).alike h₂.sound)
    fun _ m₃ _ h₃ => ?_
  have hfs₃ := h₃.toList_frames hfs₂
  obtain ⟨host, hhost⟩ : ∃ host, host = hostFrame f slot argCount wanted := ⟨_, rfl⟩
  have hleft : S.leftFrame host = host := by
    subst hhost
    unfold leftFrame
    cases S.erased <;> rfl
  have hsound : host.Sound m₃.heap m₃.running.stack.size := by
    intro c hc
    cases f <;> simp [hhost, hostFrame, Frame.closure?] at hc hf
  have hpush : (S.left m₃).pushed host = S.left (m₃.pushed host) := by
    rw [← left_pushed, hleft]
  obtain ⟨m₄, h₄⟩ : ∃ m₄, m₄ = m₃.pushed host := ⟨_, rfl⟩
  have hm₄ : S.Sound m₄ := h₄ ▸ sound_pushed h₃.sound hsound
  have hfs₄ : m₄.running.frames.toList = fs ++ [host] := by
    rw [h₄, Machine.frames_pushed, hfs₃]
  rw [Action.bind_ok (pushFrame_apply _ _), Action.bind_ok (pushFrame_apply _ _), ← hhost, hpush,
    ← h₄]
  have hk₄ : m₃.Kept m₄ := h₄ ▸ kept_pushed m₃ host
  refine .imp ?_ (.after_kept hk₄ ?_)
  · refine Alike.bind ((routine_hostBody hembedding f).alike hS hrun hm₄) (fun n m₅ _ h₅ => ?_)
      fun e m' he => ?_
    · have hfs₅ : m₅.running.frames.toList = fs ++ [host] := h₅.toList_frames hfs₄
      have hleave := (leaveHost_alike h₅.sound slot n hfs₅ (Yielding fs slot wanted)).imp fun hr =>
        hr.after h₅
      rwa [hhost] at hleave
    · refine he.imp_right fun hs => (hs.lower (length_le_depth (hfs₄ ▸ List.prefix_append ..))).imp fun _ hy => ?_
      exact ⟨hy.2.1, host, by rw [hy.2.2, hfs₄], by rw [hhost]; rfl, by rw [hhost]; rfl⟩
  · rw [hfs₃, List.take_length, hfs₄]
    exact List.prefix_append ..

/-- How a call has started over given frames. -/
def Setting.Started (S : Setting) (fs : List Frame) (slot : Nat) (wanted : Option Nat) :
    CallOutcome → Machine → Prop
  | .done, m => m.running.frames.toList = fs ∧ m.Topped slot wanted
  | .pushed, m => S.Pushed fs slot wanted m

/-- How a call in place of the frame on top has started. -/
def Setting.Continued (S : Setting) (fs : List Frame) (f : Frame) (slot : Nat) :
    CallOutcome → Machine → Prop
  | .done, m => m.running.frames.toList = fs ++ [f] ∧ m.Topped slot none
  | .pushed, m => S.Pushed fs f.slot f.wanted m

theorem startCall_alike (hm : S.Sound m) (slot argCount : Nat) (wanted : Option Nat)
    {fs : List Frame} (hfs : m.running.frames.toList = fs) :
    S.Alike id (startCall embedding runl slot argCount wanted (S.left m))
      (startCall embedding runr slot argCount wanted m)
      (S.Results m fs.length (S.Started fs slot wanted) (Yielding fs slot wanted)) := by
  unfold startCall
  have htake : m.running.frames.toList.take fs.length = fs := by rw [hfs, List.take_length]
  refine ((resolveCall_alike hS slot _ argCount hm hfs).imp .never).bind_results htake
    fun ⟨target, n⟩ m₁ hm₁ ⟨hfs₁, htarget⟩ => ⟨hfs₁ ▸ List.prefix_rfl, ?_⟩
  have htake₁ : m₁.running.frames.toList.take fs.length = fs := by rw [hfs₁, List.take_length]
  cases target with
  | host f =>
    refine (callHost_alike hS hrun hembedding hm₁ htarget slot n wanted hfs₁).bind_results htake₁
      fun _ m₂ hm₂ hdone => ⟨hdone.1 ▸ List.prefix_rfl, ?_⟩
    exact .pure ⟨hm₂, .refl m₂, hdone⟩
  | lua c unit =>
    refine ((enterLua_alike hS hm₁ htarget.1 htarget.2 slot n wanted false hfs₁).imp .never).bind_results
      htake₁ fun _ m₂ hm₂ hpushed => ⟨?_, .pure ⟨hm₂, .refl m₂, hpushed⟩⟩
    obtain ⟨g, hg, -⟩ := hpushed
    exact hg ▸ List.prefix_append ..

omit hS hrun hembedding in
theorem left_topFrame? {f : Frame} (h : m.topFrame? = some f) :
    (S.left m).topFrame? = some (S.leftFrame f) := by
  unfold left leftFrame
  split
  · simp [h]
  · exact h

/-- What replacing the frame on top does once the frame is gone. -/
def replaceWith (c : ClosureId) (unit : Option CompiledUnit) (slot argCount : Nat) (f : Frame) :
    Action Unit := do
  closeUpvalues f.base
  moveSlots f.slot slot (argCount + 1)
  setTop (f.slot + 1 + argCount)
  enterLua c unit f.slot argCount f.wanted true

omit hS hrun hembedding in
theorem replaceFrame_apply {c : ClosureId} {unit : Option CompiledUnit} {slot argCount : Nat}
    {f : Frame} (h : m.topFrame? = some f) :
    replaceFrame c unit slot argCount m = replaceWith c unit slot argCount f m.popped := by
  simp only [replaceFrame, replaceWith, popFrame?, Action.bind_apply, Action.view_apply,
    Action.modify_apply, Action.pure_apply, h]
  rfl

omit hrun hembedding in
theorem replaceFrame_alike (hm : S.Sound m) {c : ClosureId} (hc : c.index < m.heap.closures.size)
    {unit : Option CompiledUnit} (hunit : ∀ u, unit = some u → (m.heap.closure c).proto.IsUnit u)
    (slot argCount : Nat) {fs : List Frame} {f : Frame}
    (hfs : m.running.frames.toList = fs ++ [f]) (yielding : Machine → Prop) :
    S.Alike id (replaceFrame c (S.leftUnit unit) slot argCount (S.left m))
      (replaceFrame c unit slot argCount m)
      (S.Results m fs.length (fun _ => S.Pushed fs f.slot f.wanted) yielding) := by
  have htop : m.topFrame? = some f := topFrame?_of_append hfs
  have hpopped : m.popped.running.frames.toList = fs := by
    rw [Machine.frames_popped, hfs, List.dropLast_concat]
  have hleft : replaceWith c (S.leftUnit unit) slot argCount (S.leftFrame f) =
      replaceWith c (S.leftUnit unit) slot argCount f := by
    unfold leftFrame
    split <;> rfl
  rw [replaceFrame_apply (left_topFrame? htop), replaceFrame_apply htop,
    left_comm Machine.erase_popped, hleft]
  have hlength {m : Machine} (h : m.running.frames.toList = fs) : fs.length ≤ m.depth :=
    length_le_depth (by rw [h])
  refine .imp ?_ (.after_kept (kept_popped m) ?_)
  · refine Alike.results_bind (hlength hpopped)
      ((Plain.primitive (.closeUpvalues f.base)).alike hm.popped) fun _ m₁ _ h₁ => ?_
    have hfs₁ := h₁.toList_frames hpopped
    refine Alike.results_bind (hlength hfs₁) ((Plain.moveSlots _ _ _).alike h₁.sound)
      fun _ m₂ _ h₂ => ?_
    have hfs₂ := h₂.toList_frames hfs₁
    refine Alike.results_bind (hlength hfs₂) ((Plain.primitive (.setTop _)).alike h₂.sound)
      fun _ m₃ _ h₃ => ?_
    have hx := (h₁.kept.trans (h₂.kept.trans h₃.kept)).closures
    have hproto : (m₃.heap.closure c).proto = (m.heap.closure c).proto := hx.proto hc
    refine (enterLua_alike hS h₃.sound (hx c hc).1 ?_ _ _ _ _ (h₃.toList_frames hfs₂)).imp .never
    rwa [hproto]
  · rw [hfs, List.take_left, hpopped]

theorem startTailCall_alike (hm : S.Sound m) (slot argCount : Nat) {fs : List Frame} {f : Frame}
    (hfs : m.running.frames.toList = fs ++ [f]) :
    S.Alike id (startTailCall embedding runl slot argCount (S.left m))
      (startTailCall embedding runr slot argCount m)
      (S.Results m fs.length (S.Continued fs f slot) (Yielding (fs ++ [f]) slot none)) := by
  unfold startTailCall
  have hlength : fs.length ≤ (fs ++ [f]).length := by simp
  have htake {m : Machine} (h : m.running.frames.toList = fs ++ [f]) :
      m.running.frames.toList.take fs.length = fs := by rw [h, List.take_left]
  refine ((resolveCall_alike hS slot _ argCount hm hfs).imp fun hr =>
      (hr.lower hlength).never).bind_results (htake hfs)
    fun ⟨target, n⟩ m₁ hm₁ ⟨hfs₁, htarget⟩ => ⟨hfs₁ ▸ List.prefix_append .., ?_⟩
  cases target with
  | host g =>
    refine ((callHost_alike hS hrun hembedding hm₁ htarget slot n none hfs₁).imp
      (·.lower hlength)).bind_results (htake hfs₁)
        fun _ m₂ hm₂ hdone => ⟨hdone.1 ▸ List.prefix_append .., ?_⟩
    exact .pure ⟨hm₂, .refl m₂, hdone⟩
  | lua c unit =>
    refine (replaceFrame_alike hS hm₁ htarget.1 htarget.2 slot n hfs₁ _).bind_results (htake hfs₁)
      fun _ m₂ hm₂ hpushed => ⟨?_, .pure ⟨hm₂, .refl m₂, hpushed⟩⟩
    obtain ⟨g, hg, -⟩ := hpushed
    exact hg ▸ List.prefix_append ..

end

end LuaMachine
