import LuaMachine.Proofs.Switching

/-!
Scripts are run. Calls from native code, resumptions and all that a script is made of leave the chain
of resumptions as it was, given that the engine they have code run by does.
-/

namespace LuaMachine

open Setting (depthAfter)

namespace Regime

variable (S : Regime)

/-- No coroutine of a chain is one that is not to be resumed. -/
def Awake (ts : List CoroutineId) : Prop := ∀ t ∈ ts, ¬ S.quiet t

/-- An activation of the frame at an index, not below a depth. It is the frame on top, unless host
functions have left others there. -/
structure AtWork (d j : Nat) (a : Activation) (m : Machine) (f : Frame) (c : ClosureId) : Prop where
  frame : m.running.frames.toList[j]? = some f
  depth : d ≤ j
  closure : f.closure? = some c
  base : a.window.base = f.base
  proto : a.window.closure.proto = (m.heap.closure c).proto
  engine : a.engine = .interpreter ∨
    ∃ u, a.engine = .threaded u ∧ (m.heap.closure c).proto.IsUnit u
  unit : ∀ u, f.unit = some u → a.engine = .threaded u
  top : S.honest = true → m.depth = j + 1

/-- A function of the program lies in a slot of a strand without frames. -/
def BodyAt (slot : Nat) (m : Machine) : Prop :=
  m.running.frames = #[] ∧ ∃ c, m.running.stack[slot]? = some (.function (.lua c))

/-- The machine can be asked to run a job: native code makes a call, or a coroutine is about to start,
which may be one that is not to be resumed. -/
def Ready (ts : List CoroutineId) (m : Machine) : Job → Prop
  | .call slot _ wanted => m.running.Floor slot ∧
      (S.Awake ts ∧ (ts ≠ [] → 0 < m.depth) ∧ (S.honest = true → 0 < m.running.boundaries) ∨
        BodyAt slot m ∧ slot = 0 ∧ wanted = none)
  | .execute _ => True
  | .proceed d a => S.Awake ts ∧ ∃ j f c, S.AtWork d j a m f c

/-- Which frames a job leaves. -/
def Done (m : Machine) : Job → Machine → Prop
  | .call slot _ _, m' => S.honest = true ∨ BodyAt slot m → m'.running.frames = m.running.frames
  | .execute d, m' | .proceed d _, m' =>
    m'.running.frames.toList = m.running.frames.toList.take d

/-- A coroutine that yields can go on later. -/
structure Suspends (ts : List CoroutineId) (m : Machine) : Prop where
  awake : S.Awake ts
  frames : ts ≠ [] → 2 ≤ m.depth
  halted : S.honest = true → ts ≠ [] ∧ m.running.Halted m.heap

/-- Where host functions keep to the rules, a script leaves the frames as they are; one of a host
function leaves the free slot in its frame. -/
structure Stays (seat : Seat) (fs : Array Frame) (k : Nat) (m : Machine) : Prop where
  frames : S.honest = true → m.running.frames = fs
  beyond : S.honest = true → seat = .host → m.Beyond k

/-- A script fails; it yields in a host function of a coroutine, and where host functions keep to
the rules, outside of native calls. -/
def Fails (seat : Seat) (ts : List CoroutineId) (fs : Array Frame) (k : Nat) (e : Fault) (m : Machine) :
    Prop :=
  e = .yield → (ts ≠ [] → 2 ≤ m.depth) ∧ (S.honest = true →
    seat = .host ∧ ts ≠ [] ∧ m.running.boundaries = 0 ∧ m.running.frames = fs ∧ m.Beyond k)

/-- A call from native code has come to its end. -/
structure Returns (m m' : Machine) : Prop where
  frames : S.honest = true → m'.running.frames = m.running.frames
  top : m.running.top ≤ m'.running.top

/-- A call from native code fails; it yields only where host functions do not keep to the rules. -/
def Leaks (ts : List CoroutineId) (e : Fault) (m : Machine) : Prop :=
  e = .yield → (ts ≠ [] → 2 ≤ m.depth) ∧ S.honest = false

/-- Two engines run jobs alike, the first until it is stopped. -/
def Engines (runl runr : Run) : Prop :=
  ∀ job ts m, m.Steady S ts → S.Ready ts m job →
    Paired (S.Ends ts (depthAfter job m) m (fun _ => S.Done m job)
      fun e m' => e = .yield → S.Suspends ts m') (runl job m) (runr job m)

/-- Basic actions between frames that use slots from one on. -/
def between (floor : Nat) : Conduct := ⟨S.program, .between floor, true, false⟩

end Regime

variable {S : Regime} {R : Conduct} {ts : List CoroutineId} {m m' : Machine} {d : Nat} {α β : Type}
  {held : List Value}

theorem Regime.Leaks.fails {e : Fault} {seat : Seat} {fs : Array Frame} {k : Nat}
    (h : S.Leaks ts e m) : S.Fails seat ts fs k e m :=
  fun he => ⟨(h he).1, fun hS => absurd hS (by simp [(h he).2])⟩

theorem Regime.Stays.self (seat : Seat) (m : Machine) : S.Stays seat m.running.frames 0 m :=
  ⟨fun _ => rfl, fun _ _ => ⟨Nat.zero_le _, fun _ _ => Nat.zero_le _⟩⟩

theorem Regime.Stays.returns {seat : Seat} {fs : Array Frame} {k : Nat} (h : S.Stays seat fs k m)
    (hr : S.Returns m m') : S.Stays seat fs k m' :=
  ⟨fun hS => (hr.frames hS).trans (h.frames hS), fun hS hhost =>
    (h.beyond hS hhost).congr ((h.beyond hS hhost).top.trans hr.top) (hr.frames hS)⟩

theorem Regime.Leaks.of_ne {e : Fault} (he : e ≠ .yield) : S.Leaks ts e m := fun h => absurd h he

/-- A script may be run, and goes on where it belongs while frames up to a depth are kept. -/
structure Conduct.Settled (R : Conduct) (ts : List CoroutineId) (d : Nat) (m : Machine) : Prop where
  stands : m.Stands ts d
  seat : match R.seat with
    | .host => ts ≠ [] → 2 ≤ d
    | .code base => m.running.Floor base
    | .between _ => False

namespace Conduct.Settled

theorem seated (h : R.Settled ts d m) : R.Seated ts m := by
  obtain ⟨hd, hseat⟩ := h
  unfold Seated
  generalize R.seat = seat at hseat ⊢
  cases seat with
  | host => exact fun hts => (hseat hts).trans hd.depth
  | code base => exact ⟨hseat, fun hts => (hd.pos hts).trans_le hd.depth⟩
  | between floor => exact hseat.elim

theorem after (h : R.Settled ts d m) (hk : m.Keeps S d m') (hm' : m'.Steady S ts) :
    R.Settled ts d m' := by
  obtain ⟨hd, hseat⟩ := h
  refine ⟨hk.stands hd, ?_⟩
  generalize R.seat = seat at hseat ⊢
  cases seat with
  | host => exact hseat
  | code base => exact hk.floor hm' hd hseat
  | between floor => exact hseat.elim

theorem host (h : R.Settled ts d m) (hhost : R.seat = .host) (hts : ts ≠ []) : 2 ≤ m.depth := by
  obtain ⟨hd, hseat⟩ := h
  rw [hhost] at hseat
  exact (hseat hts).trans hd.depth

end Conduct.Settled

theorem Machine.Stands.all (hd : m.Stands ts d) : m.Stands ts m.depth :=
  ⟨le_rfl, fun hts => (hd.pos hts).trans_le hd.depth⟩

theorem Machine.Steady.floor_callBase (hm : m.Steady S ts) : m.running.Floor m.callBase :=
  hm.tidy_running.floor_top.mono m.top_le_callBase

/-! Between frames -/

/-- Puts a function and its arguments from a slot on. -/
def putCall (slot : Nat) (f : Value) (args : List Value) : Action Unit := do
  ensureStack (slot + args.length + 1 + Limit.extraStack)
  writeSlot slot f
  writeSlots (slot + 1) args
  setTop (slot + 1 + args.length)

theorem placeCall_apply (f : Value) (args : List Value) (m : Machine) :
    placeCall f args m = (putCall m.callBase f args >>= fun _ => pure m.callBase) m := by
  simp only [placeCall, putCall, bind_assoc]
  rfl

theorem Orderly.putCall {slot : Nat} (h : R.seat.Frees slot) (f : Value) (args : List Value) :
    Orderly R (putCall slot f args) :=
  .andThen (.ensureStack _) fun _ => .andThen (.writeSlot h f) fun _ =>
    .andThen (.writeSlots (h.mono (Nat.le_succ _)) args) fun _ => .setTop (h.mono (by omega))

section

variable (hS : IsCatalog S.program)

include hS

/-- Basic actions between frames do not yield. -/
theorem Sequence.ends_between {floor : Nat} {x : Action α} (h : Sequence (S.between floor) x)
    (d : Nat) (hm : m.Steady S ts) (hfloor : m.running.Floor floor) {fs : Array Frame}
    (hfs : m.running.frames = fs) :
    S.Ends ts d m (fun _ m' => m'.running.frames = fs) (fun e _ => e ≠ .yield) (x m) :=
  (h.ends hS (fun _ => id) d hm hfloor hfs (k := 0) nofun).imp (fun _ _ => And.left)
    fun _ _ h he => Bool.false_ne_true (h.2 he).2.symm

/-- A function and its arguments are placed above all that is in use. -/
theorem placeCall_ends (hm : m.Steady S ts) (d : Nat) (f : Value) (args : List Value) :
    S.Ends ts d m (fun slot m' => slot = m.callBase ∧ m'.running.frames = m.running.frames)
      (S.Leaks ts) (placeCall f args m) := by
  rw [placeCall_apply]
  have hends : S.Ends ts d m (fun _ m' => m'.running.frames = m.running.frames) (S.Leaks ts) _ :=
    ((Orderly.putCall (R := S.between m.callBase) le_rfl f args).sequence.ends_between hS d hm
      hm.floor_callBase rfl).imp (fun _ _ => id) fun _ _ => .of_ne
  exact hends.bind fun _ m' _ hm' _ hfs => .pure hm' ⟨rfl, hfs⟩

end

/-! Calls from native code -/

theorem Action.leaves_setTop_pure (top : Nat) (a : α) :
    Action.Leaves (fun m => m.running.top = top) (do setTop top; pure a) := by
  intro m b m' h
  obtain ⟨u, m₁, hset, h⟩ := Action.bind_eq_ok.1 h
  obtain ⟨-, rfl⟩ := EStateM.Result.ok.inj h
  exact Action.leaves_setTop top m u m₁ hset

theorem Machine.Keeps.exited (h : (m.entered held).Keeps S d m') : m.Keeps S d (m'.exited m.held) where
  nativeCalls := by
    change m'.nativeCalls - 1 = m.nativeCalls
    rw [h.nativeCalls]
    rfl
  parked := h.parked
  extend := h.extend
  buries := h.buries
  quiet := h.quiet
  owner := h.owner
  boundaries := by
    change m'.running.boundaries - 1 = m.running.boundaries
    rw [h.boundaries]
    rfl
  frames := h.frames

/-- Once the frames of a failed call are dropped all frames are as they were. -/
theorem Machine.Steady.unwound (hm' : m'.Steady S ts) (hk : m.Keeps S m.depth m')
    (hd : m.Stands ts d) {boundary : Nat} (hboundary : m.running.Floor boundary) :
    (m'.unwound m.depth boundary).Steady S ts ∧ m.Keeps S d (m'.unwound m.depth boundary) ∧
      (m'.unwound m.depth boundary).running.frames = m.running.frames := by
  have hshift := hm'.shift_closeUpvalues boundary
  have hclosed := hm'.drift hshift.drift hshift.tidy
  have hk₁ := hk.trans (.of_shift hshift m.depth)
  unfold Machine.unwound
  generalize (m'.modifyBoth fun h s => h.closeCells s boundary) = m₁ at hclosed hk₁
  have hbelow := hk₁.frames
  rw [m.take_depth, List.prefix_iff_eq_take] at hbelow
  have hframes : m₁.running.frames.shrink m.depth = m.running.frames := by
    rw [← Array.toList_inj, Array.toList_shrink, hbelow]
    simp [Machine.depth]
  have htidy : Strand.Tidy m₁.heap
      { m₁.running.modifyFrames (·.shrink m.depth) with top := boundary } := by
    refine hclosed.tidy_running.mk' rfl rfl (fun f hf => ?_) fun howner => ?_
    · refine hclosed.tidy_running.frames f (List.mem_of_mem_take (i := m.depth) ?_)
      rwa [← Array.toList_shrink]
    · have hpos : 0 < m.depth :=
        hd.all.pos (hclosed.owner_running.1 howner)
      obtain ⟨hbare, hrooted⟩ := hclosed.tidy_running.grounded howner
      have hshrunk : (m₁.running.modifyFrames (·.shrink m.depth)).frames.toList =
          m.running.frames.toList := congrArg Array.toList hframes
      refine ⟨fun hf => ?_, fun b fs hf => ?_⟩
      · rw [hshrunk] at hf
        rw [Machine.depth, ← Array.length_toList, hf] at hpos
        simp at hpos
      · rw [hshrunk] at hf
        obtain ⟨rest, hrest⟩ := hk₁.frames
        rw [m.take_depth, hf] at hrest
        have hroot := hrooted b (fs ++ rest) hrest.symm
        exact { hroot with
          top := hboundary (hk₁.owner ▸ howner) b fs hf
          frames := fun g hg => hroot.frames g (List.mem_append_left _ hg) }
  refine ⟨hclosed.congr rfl rfl rfl rfl htidy, (hk₁.lower hd.depth).trans (.of_running rfl rfl rfl rfl
    rfl ?_), hframes⟩
  change m₁.running.frames.toList.take d <+: (m₁.running.frames.shrink m.depth).toList
  rw [Array.toList_shrink]
  exact List.take_prefix_take_left hd.depth

section

variable (hS : IsCatalog S.program) {runl runr : Run} (hrun : S.Engines runl runr)
  (hawake : S.Awake ts)

include hrun hawake

/-- Nothing yields out of a nested call where host functions keep to the rules. -/
theorem callAt_paired (hm : m.Steady S ts) (hd : m.Stands ts d) {slot : Nat}
    (hslot : m.running.Floor slot) (argCount : Nat) (wanted : Option Nat) (held : List Value) :
    Paired (S.Ends ts d m (fun _ m' => S.honest = true → m'.running.frames = m.running.frames)
      (S.Leaks ts)) (callAt runl slot argCount wanted held m) (callAt runr slot argCount wanted held m) := by
  rw [callAt_apply, callAt_apply]
  split
  · exact .refl (.fail hm (.of_ne (by simp)))
  · have hready : S.Ready ts (m.entered held) (.call slot argCount wanted) :=
      ⟨hslot, .inl ⟨hawake, hd.all.pos, fun _ => Nat.succ_pos _⟩⟩
    have hjob := hrun _ ts _ hm.entered hready
    refine hjob.through
      (fun
        | .ok _ m' => .ok () (m'.exited m.held)
        | .error e m' => if e.isFatal then .error e m' else .error e (m'.exited m.held))
      (fun r hr => ?_) fun e m' he => by simp [he]
    cases r with
    | ok u m' =>
      obtain ⟨hm', hk, hdone⟩ := hr
      exact ⟨⟨hm'.exited, (hk.lower hd.depth).exited, fun hhonest => hdone (.inl hhonest)⟩, .refl _⟩
    | error e m' =>
      obtain ⟨hb, hr⟩ := hr
      by_cases he : e.isFatal = true
      · simp only [he, if_true]
        exact ⟨⟨hb, .inl ⟨he, hr.elim And.right fun h => ⟨ts, h.1⟩⟩⟩, .refl _⟩
      · obtain ⟨hm', hk, hyield⟩ := hr.resolve_left fun h => he h.1
        simp only [he]
        refine ⟨⟨hb, .inr ⟨hm'.exited, (hk.lower hd.depth).exited, fun hy => ?_⟩⟩, .refl _⟩
        refine ⟨(hyield hy).frames, Bool.eq_false_iff.2 fun hhonest => ?_⟩
        have hboundaries := hk.boundaries
        rw [((hyield hy).halted hhonest).2.boundaries] at hboundaries
        exact absurd hboundaries (Nat.zero_ne_add_one _)

include hS

/-- A call of a function that is placed above all that is in use, whose results are then collected. -/
theorem placedCall_paired (hm : m.Steady S ts) (hd : m.Stands ts d) (f : Value) (args : List Value)
    (wanted : Option Nat) (held : List Value) {collect : Nat → Action α}
    (hcollect : ∀ slot, Sequence (S.between slot) (collect slot))
    (htop : ∀ slot, Action.Leaves (fun m => m.running.top = slot) (collect slot)) :
    Paired (S.Ends ts d m (fun _ => S.Returns m) (S.Leaks ts))
      ((do
        let slot ← placeCall f args
        callAt runl slot args.length wanted held
        collect slot) m)
      ((do
        let slot ← placeCall f args
        callAt runr slot args.length wanted held
        collect slot) m) := by
  refine (Paired.refl (placeCall_ends hS hm d f args)).bind fun slot m₁ _ hm₁ hk₁ ⟨hslot, hfs₁⟩ => ?_
  have hd₁ := hk₁.stands hd
  have hfloor₁ := hk₁.floor hm₁ hd hm.floor_callBase
  rw [← hslot] at hfloor₁
  refine (callAt_paired hrun hawake hm₁ hd₁ hfloor₁ _ _ _).bind fun _ m₂ _ hm₂ hk₂ hfs₂ => ?_
  have hfloor₂ := hk₂.floor hm₂ hd₁ hfloor₁
  have hends := ((hcollect slot).ends_between hS d hm₂ hfloor₂ rfl).also fun a m' => htop slot m₂ a m'
  refine .refl (hends.imp (fun _ m₃ ⟨hfs, htop⟩ => ⟨fun hhonest => ?_, ?_⟩) fun _ _ => .of_ne)
  · rw [hfs, hfs₂ hhonest, hfs₁]
  · rw [htop, hslot]
    exact m.top_le_callBase

theorem callValue_paired (hm : m.Steady S ts) (hd : m.Stands ts d) (f : Value) (args held : List Value) :
    Paired (S.Ends ts d m (fun _ => S.Returns m) (S.Leaks ts)) (callValueHolding runl held f args m)
      (callValueHolding runr held f args m) :=
  placedCall_paired hS hrun hawake hm hd f args none held
    (fun slot => .andThen (.view _ fun _ => rfl) fun _ => .andThen (.takeSlots slot _) fun vs =>
      .andThen (.setTop (show slot ≤ slot from le_rfl)) fun _ => .pure vs)
    fun slot => .bind fun _ => .bind fun vs => Action.leaves_setTop_pure slot vs

theorem callHandler_paired (hm : m.Steady S ts) (hd : m.Stands ts d) (f : Value)
    (args held : List Value) :
    Paired (S.Ends ts d m (fun _ => S.Returns m) (S.Leaks ts)) (callHandlerHolding runl held f args m)
      (callHandlerHolding runr held f args m) :=
  placedCall_paired hS hrun hawake hm hd f args (some 1) held
    (fun slot => .andThen (.takeSlot slot) fun v =>
      .andThen (.setTop (show slot ≤ slot from le_rfl)) fun _ => .pure v)
    fun slot => .bind fun v => Action.leaves_setTop_pure slot v

omit hS hrun hawake in
/-- A call that came to its end, was stopped, or failed and had its frames dropped. -/
theorem Regime.Ends.recover {good : α → Machine → Prop} {r : Outcome α} (hm : m.Steady S ts)
    (hd : m.Stands ts d) (hr : S.Ends ts m.depth m good (S.Leaks ts) r) :
    (∃ a m', r = .ok a m' ∧ m'.Steady S ts ∧ m.Keeps S d m' ∧ good a m') ∨
      (∃ e m', r = .error e m' ∧ e.isFatal = true ∧ m.heap.Buries m'.heap ∧
        ∃ ts', m'.Steady S ts') ∨
      ∃ e m', r = .error e m' ∧ e.isFatal = false ∧ (e = .yield → S.honest = false) ∧
        m'.heap.Buries (m'.unwound m.depth m.callBase).heap ∧
        (m'.unwound m.depth m.callBase).Steady S ts ∧
        m.Keeps S d (m'.unwound m.depth m.callBase) ∧
        (m'.unwound m.depth m.callBase).running.frames = m.running.frames := by
  cases r with
  | ok a m' => exact .inl ⟨a, m', rfl, hr.1, hr.2.1.lower hd.depth, hr.2.2⟩
  | error e m' =>
    obtain ⟨hb, hr⟩ := hr
    right
    cases he : e.isFatal with
    | true => exact .inl ⟨e, m', rfl, he, hb, hr.elim And.right fun h => ⟨ts, h.1⟩⟩
    | false =>
      obtain ⟨hm', hk, hleak⟩ := hr.resolve_left fun h => by simp [he] at h
      have hclose := (Machine.Keeps.of_shift (hm'.shift_closeUpvalues m.callBase) d).buries
      exact .inr ⟨e, m', rfl, he, fun hy => (hleak hy).2, hclose, hm'.unwound hk hd hm.floor_callBase⟩

/-- A call that fails leaves the frames as they were. -/
theorem call_paired (hm : m.Steady S ts) (hd : m.Stands ts d) (f : Value) (args : List Value) :
    Paired (S.Ends ts d m (fun _ => S.Returns m)
      fun e m' => m'.running.frames = m.running.frames ∧ m.running.top ≤ m'.running.top ∧
        (e = .yield → S.honest = false))
      (call runl f args m) (call runr f args m) := by
  rw [call_apply, call_apply]
  refine (callValue_paired hS hrun hawake hm hd.all f args []).through
    (fun
      | .ok vs m' => .ok vs m'
      | .error e m' =>
        if e.isFatal then .error e m'
        else .error (m'.addTraceback e) (m'.unwound m.depth m.callBase))
    (fun r hr => ?_) fun e m' he => by simp [he]
  rcases hr.recover hm hd with ⟨a, m', rfl, h⟩ | ⟨e, m', rfl, he, hb, hstop⟩ |
    ⟨e, m', rfl, he, hyield, hb, hm', hk, hfs⟩
  · exact ⟨h, .refl _⟩
  · simp only [he, if_true]
    exact ⟨⟨hb, .inl ⟨he, hstop⟩⟩, .refl _⟩
  · simp only [he]
    refine ⟨⟨hk.buries, .inr ⟨hm', hk, hfs, m.top_le_callBase, fun hy => hyield ?_⟩⟩, hb⟩
    exact by_contra fun hne => Machine.addTraceback_ne_yield hne hy

theorem protectedCall_paired (hm : m.Steady S ts) (hd : m.Stands ts d) (f : Value)
    (args : List Value) :
    Paired (S.Ends ts d m (fun _ => S.Returns m) (S.Leaks ts)) (protectedCall runl f args m)
      (protectedCall runr f args m) := by
  rw [protectedCall_apply, protectedCall_apply]
  refine (callValue_paired hS hrun hawake hm hd.all f args []).through
    (fun
      | .ok vs m' => .ok (true, vs) m'
      | .error e m' =>
        if e.isFatal then .error e m' else .ok (false, [e.value]) (m'.unwound m.depth m.callBase))
    (fun r hr => ?_) fun e m' he => by simp [he]
  rcases hr.recover hm hd with ⟨a, m', rfl, h⟩ | ⟨e, m', rfl, he, hb, hstop⟩ |
    ⟨e, m', rfl, he, -, hb, hm', hk, hfs⟩
  · exact ⟨h, .refl _⟩
  · simp only [he, if_true]
    exact ⟨⟨hb, .inl ⟨he, hstop⟩⟩, .refl _⟩
  · simp only [he]
    exact ⟨⟨hm', hk, fun _ => hfs, m.top_le_callBase⟩, hb⟩

end

/-- The outcome of an action with what it throws turned into a result, unless it is what no protected
call may see. -/
def Outcome.attempted : Outcome α → Outcome (Except Fault α)
  | .ok a m => .ok (.ok a) m
  | .error e m => if e.isFatal then .error e m else .ok (.error e) m

/-- What an action throws becomes a result, unless it is what no protected call may see. -/
theorem Paired.attempt {good : α → Machine → Prop} {failing : Fault → Machine → Prop}
    {xl xr : Action α} (hx : Paired (S.Ends ts d m good failing) (xl m) (xr m)) :
    Paired (S.Ends ts d m (fun (r : Except Fault α) m' => match r with
      | .ok a => good a m'
      | .error e => failing e m') (S.Leaks ts)) (attempt xl m) (attempt xr m) := by
  rw [Action.attempt_apply, Action.attempt_apply]
  refine hx.through Outcome.attempted (fun r hr => ?_) fun e m' he => by simp [Outcome.attempted, he]
  cases r with
  | ok a m' => exact ⟨hr, .refl _⟩
  | error e m' =>
    obtain ⟨hb, hr⟩ := hr
    by_cases he : e.isFatal = true
    · simp only [Outcome.attempted, he, if_true]
      exact ⟨⟨hb, .inl ⟨he, hr.elim And.right fun h => ⟨ts, h.1⟩⟩⟩, .refl _⟩
    · simp only [Outcome.attempted, he]
      exact ⟨hr.resolve_left fun h => he h.1, .refl _⟩

end LuaMachine
