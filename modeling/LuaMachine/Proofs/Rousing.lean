import LuaMachine.Proofs.Sleeping
import LuaMachine.Proofs.SurplusArguments
import LuaMachine.Proofs.TailCalls

/-!
How coroutines are roused. At first the body is called with the arguments of the resumption; later these are the
results of the call in which the coroutine has stopped. Then its frames are run until none is left.
-/

namespace LuaMachine

variable {S : Regime} {ts : List CoroutineId} {m m' : Machine} {c : CoroutineId} {body : ClosureId} {s : Strand}
  {embedding : Embedding} {fuel slot n : Nat} {args : List Value} {α β : Type}

/-- The body of a coroutine is called, or the call in which it has stopped comes to its end. -/
def rouse (embedding : Embedding) (run : Run) (args : List Value) : Action CallOutcome := do
  if ← view (·.running.frames.isEmpty) then
    placeArguments 1 args
    startCall embedding run 0 args.length none
  else
    wake args
    pure .pushed

theorem rouse_of_bare (hf : m.running.frames = #[]) (embedding : Embedding) (run : Run) (args : List Value) :
    rouse embedding run args m =
      (placeArguments 1 args >>= fun _ => startCall embedding run 0 args.length none) m := by
  rw [rouse, Action.bind_ok (Action.view_apply _ m), hf]
  rfl

theorem rouse_of_frames (hf : m.running.frames ≠ #[]) (embedding : Embedding) (run : Run) (args : List Value) :
    rouse embedding run args m = (wake args >>= fun _ => pure .pushed) m := by
  rw [rouse, Action.bind_ok (Action.view_apply _ m), if_neg (by simpa using hf)]

/-! Limits -/

theorem Outcome.Overflows.bind {x : Action α} (h : Overflows (x m)) (f : α → Action β) :
    Overflows ((x >>= f) m) := by
  obtain ⟨m', hx⟩ := h
  exact ⟨m', by rw [Action.bind_apply, hx]⟩

/-- A function that cannot be entered overflows the stack. -/
theorem enterLua_overflows {unit : Option CompiledUnit} {wanted : Option Nat} {tail : Bool}
    (h : ¬ m.Admits (m.heap.closure body).proto slot n) :
    Outcome.Overflows (enterLua body unit slot n wanted tail m) := by
  rw [enterLua_eq, layOutFrame_eq]
  refine .bind ?_ _
  by_cases hdepth : m.depth < m.options.maxDepth
  · rw [Action.bind_ok (checkDepth_apply hdepth), Action.bind_ok (Action.view_apply _ m)]
    exact .bind ⟨m, ensureStack_overflows fun hroom => h ⟨hdepth, hroom⟩⟩ _
  · exact .bind ⟨m, if_pos (Nat.le_of_not_lt hdepth)⟩ _

/-- A resumption is within the limits on stacks and on calls from native code. -/
structure Machine.MayRouse (embedding : Embedding) (run : Run) (c : CoroutineId) (args : List Value)
    (m : Machine) : Prop where
  nativeCalls : m.nativeCalls < m.options.maxNativeCalls
  stack : ¬ Outcome.Overflows (rouse embedding run args (m.resumed c))

/-! The unit of the body -/

/-- A closure of verified code has a unit where the mode asks for one. -/
theorem Machine.Sound.exists_unitOf {U : Prototype → Prop} (hU : IsProgram U) (hm : m.Sound U true)
    (hbody : body.index < m.heap.closures.size) : ∃ unit, m.unitOf body = .ok unit := by
  have hvalid : Setting.Valid ⟨U, false, true, .crash⟩ := ⟨hU, rfl, nofun, nofun⟩
  obtain ⟨unit, m', hok, -⟩ := unitFor_apply hvalid hm hbody
  rw [unitFor_eq_unitOf] at hok
  cases hunit : m.unitOf body with
  | ok unit => exact ⟨unit, rfl⟩
  | error e =>
    rw [hunit] at hok
    cases hok

/-- A machine on which a coroutine is resumed has the same units for its closures. -/
theorem Machine.unitOf_resumed (m : Machine) (c : CoroutineId) : (m.resumed c).unitOf body = m.unitOf body := by
  have hx := m.matches_resumed c
  have hclosure : (m.resumed c).heap.closure body = m.heap.closure body := by
    rw [Heap.closure, hx.closures, ← Heap.closure]
  have hcache (i : Nat) : (m.resumed c).heap.cache i = m.heap.cache i := by
    rw [Heap.cache, hx.caches, ← Heap.cache]
  have hrest : (m.resumed c).cache = m.cache ∧ (m.resumed c).options = m.options := by
    rw [resumed_eq]
    exact ⟨rfl, rfl⟩
  rw [unitOf, unitOf, hclosure, hcache, hrest.1, hrest.2]

/-! The body is called -/

/-- A coroutine is about to run its body, with a frame that has received the arguments, the surplus ones in a
table as well if the body wants that. -/
def Machine.Begins (body : ClosureId) (args : List Value) (m : Machine) : Prop :=
  ∃ f t, m.running.frames.toList = [f] ∧ f.closure? = some body ∧
    f.Receives (m.heap.closure body).proto args t m.running.stack ∧
    ((m.heap.closure body).proto.isVararg = true → (m.heap.closure body).proto.needsArg = true →
      (m.heap.table t).Lists ((m.heap.closure body).proto.surplus args))

theorem HoldsFrom.values_eq {s : Strand} {i : Nat} (h : HoldsFrom s.stack i args) :
    s.values i args.length = args := by
  refine List.ext_getElem? fun k => ?_
  by_cases hk : k < args.length
  · rw [Strand.values, List.getElem?_map, List.getElem?_range hk, Option.map_some, h k hk,
      List.getElem?_eq_getElem hk]
    rfl
  · rw [List.getElem?_eq_none (by simpa using hk), List.getElem?_eq_none (by simpa using hk)]

theorem Heap.closures_withSurplus (h : Heap) (p : Prototype) (args : List Value) :
    (h.withSurplus p args).closures = h.closures := by
  unfold withSurplus
  split <;> rfl

/-- A function of the heap that is called without a frame is entered, or the stack overflows. -/
theorem startCall_begins (hf : m.running.frames = #[])
    (hbody : m.running.stack[0]? = some (.function (.lua body))) (hlt : body.index < m.heap.closures.size)
    {unit : Option CompiledUnit} (hunit : m.unitOf body = .ok unit) (hargs : HoldsFrom m.running.stack 1 args)
    (embedding : Embedding) (run : Run) :
    (∃ m', startCall embedding run 0 args.length none m = .ok .pushed m' ∧ m'.Begins body args) ∨
      Outcome.Overflows (startCall embedding run 0 args.length none m) := by
  rw [startCall_lua hbody hlt hunit]
  have hargs₁ : HoldsFrom (m.withHeap (m.heapWithUnit body)).running.stack (0 + 1) args := hargs
  have hf₁ : (m.withHeap (m.heapWithUnit body)).running.frames.toList = [] := by
    change m.running.frames.toList = []
    rw [hf]
  generalize m.withHeap (m.heapWithUnit body) = m₁ at hargs₁ hf₁
  by_cases hadmits : m₁.Admits (m₁.heap.closure body).proto 0 args.length
  · obtain ⟨g, stack, henter, -⟩ := enterLua_apply rfl hadmits hargs₁ unit none false
    obtain ⟨f, t, hframes, hf, hreceives, htable⟩ := enterLua_receives henter
    rw [hargs₁.values_eq] at hreceives htable
    rw [hf₁, List.nil_append] at hframes
    have hproto : ((((m₁.withHeap (m₁.heap.withSurplus (m₁.heap.closure body).proto args)).withStack
        stack).withTop g.top).pushed g).heap.closure body = m₁.heap.closure body :=
      congrArg (fun closures => (closures[body.index]?).getD default) (m₁.heap.closures_withSurplus _ args)
    refine .inl ⟨_, Action.bind_ok henter, f, t, hframes, hf ▸ rfl, ?_, ?_⟩
    · rwa [hproto]
    · rwa [hproto]
  · exact .inr ((enterLua_overflows hadmits).bind _)

theorem run_call_of_pushed {wanted : Option Nat}
    (h : startCall embedding (run embedding fuel) slot n wanted m = .ok .pushed m') :
    run embedding (fuel + 1) (.call slot n wanted) m = run embedding fuel (.execute m.depth) m' := by
  rw [run, Action.bind_ok (Action.view_apply _ m), Action.bind_ok h]

/-- A coroutine without frames is resumed: its body is called, and frames are run until none is left. -/
theorem resume_of_bare {m₁ : Machine} (hc : (m.heap.coroutine c).status = .suspended)
    (hnative : m.nativeCalls < m.options.maxNativeCalls) (hf : (m.resumed c).running.frames = #[])
    (hplace : placeArguments 1 args (m.resumed c) = .ok () m₁) (hf₁ : m₁.running.frames = #[])
    (hstart : startCall embedding (run embedding fuel) 0 args.length none m₁ = .ok .pushed m') :
    resume (run embedding (fuel + 1)) c args m =
      resumeEnds c m.current ((run embedding fuel (.execute 0) >>= fun _ => gather) m') := by
  have hdepth : m₁.depth = 0 := congrArg Array.size hf₁
  have hcall := run_call_of_pushed hstart
  rw [hdepth] at hcall
  have hbegin : beginCoroutine (run embedding (fuel + 1)) args (m.resumed c) =
      (run embedding fuel (.execute 0) >>= fun _ => gather) m' := by
    rw [beginCoroutine_eq, Action.bind_ok hplace, Action.bind_apply, hcall, Action.bind_apply]
  rw [resume_apply, hc]
  dsimp only
  rw [if_neg (Nat.not_le.2 hnative), resumeSuspended_apply, runCoroutine_apply, if_pos (by simpa using hf), hbegin]
  cases (run embedding fuel (.execute 0) >>= fun _ => gather) m' <;> rfl

section

variable {U : Prototype → Prop} (hU : IsProgram U)
  (hosts : ∀ name, Tame ⟨U, .host, true, true⟩ True (embedding name))
  (hm : m.Steady ⟨U, true, fun _ => False⟩ ts) (hk : m.Kempt true false)

include hU hosts hm hk

/-- What was called without a frame on a machine in order leaves it so. -/
theorem startCall_bare_inOrder {o : CallOutcome} (hf : m.running.frames = #[])
    (hbody : m.running.stack[0]? = some (.function (.lua body)))
    (h : startCall embedding (run embedding fuel) 0 n none m = .ok o m') :
    m'.Steady ⟨U, true, fun _ => False⟩ ts ∧ m'.Kempt true false := by
  let C : Custody := ⟨⟨U, true, fun _ => False⟩, fun _ _ => False, false⟩
  have hfree : ¬ C.Strict := fun ⟨_, _, h⟩ => h
  have hminds : C.Minds (run embedding fuel) :=
    Custody.minds_run (C := C) hU.isCatalog hfree (fun _ => id) rfl (fun name => (hosts name).script) fuel
  have hfloor := Strand.floor_of_bare hf 0
  have hat : Regime.BodyAt 0 m := ⟨hf, body, hbody⟩
  have hends := (startCall_paired (S := C.toRegime) hU.isCatalog hminds.engines
    (fun name => (hosts name).script) hm hfloor n (.inr ⟨hat, rfl, rfl⟩)).right
  have htends := startCall_tends (C := C) (L := .all) hU.isCatalog hminds
    (fun name => ((hosts name).script).tame rfl hfree) hm hk (.all hk) (Nat.zero_le _) hfloor le_rfl n
    (.inr ⟨hat, rfl, rfl⟩)
  rw [h] at hends htends
  exact ⟨hends.1, htends.kempt⟩

/-- A coroutine that has not started runs its body on the arguments. -/
theorem Machine.starts (hsound : m.Sound U true) (hc : (m.heap.coroutine c).status = .suspended)
    (hs : (m.heap.coroutine c).strand = some s) (hf : s.frames = #[])
    (hbody : s.stack[0]? = some (.function (.lua body))) (hlt : body.index < m.heap.closures.size)
    (hlimits : m.MayRouse embedding (run embedding fuel) c args) :
    ∃ m', resume (run embedding (fuel + 1)) c args m =
        resumeEnds c m.current ((run embedding fuel (.execute 0) >>= fun _ => gather) m') ∧
      m'.Steady ⟨U, true, fun _ => False⟩ (c :: ts) ∧ m'.Kempt true false ∧ m'.Begins body args := by
  let C : Custody := ⟨⟨U, true, fun _ => False⟩, fun _ _ => False, false⟩
  obtain ⟨hrunning, -⟩ := Machine.running_resumed hm hc hs
  have hresumed := hm.resumed hc
  have hkresumed := hk.resumed hm hc
  have hbare : (m.resumed c).running.frames = #[] := by rw [hrunning, hf]
  have hfloor := Strand.floor_of_bare hbare 0
  have hplaces : Orderly (C.toRegime.between 0) (placeArguments 1 args) := .placeArguments (Nat.zero_le _) args
  have hlimits' := hlimits.stack
  rw [rouse_of_bare hbare] at hlimits'
  rcases placeArguments_delivers 1 args (m.resumed c) with ⟨stack, hplace, hargs, hbelow⟩ | hoverflows
  · have hends := hplaces.sequence.ends_between (S := C.toRegime) hU.isCatalog 0 hresumed hfloor hbare
    have htends := hplaces.tends_between (C := C) (L := .all) hU.isCatalog le_rfl hresumed hfloor hkresumed
      (.all hkresumed)
    rw [hplace] at hends htends
    obtain ⟨hm₁, -, hf₁⟩ := hends
    have hk₁ := htends.kempt
    have hbody₁ : stack[0]? = some (.function (.lua body)) := hbelow 0 _ Nat.zero_lt_one (hrunning ▸ hbody)
    obtain ⟨unit, hunit⟩ := hsound.exists_unitOf hU hlt
    have hlt₁ : body.index < (m.resumed c).heap.closures.size := by
      rw [(m.matches_resumed c).closures]
      exact hlt
    rw [Action.bind_ok hplace] at hlimits'
    obtain ⟨m', hstart, hbegins⟩ := (startCall_begins (m := ((m.resumed c).withStack stack).withTop _) hf₁
      hbody₁ hlt₁ ((m.unitOf_resumed c).trans hunit) hargs embedding (run embedding fuel)).resolve_right hlimits'
    obtain ⟨hm', hk'⟩ := startCall_bare_inOrder hU hosts hm₁ hk₁ hf₁ hbody₁ hstart
    exact ⟨m', resume_of_bare hc hlimits.nativeCalls hbare hplace hf₁ hstart, hm', hk', hbegins⟩
  · exact absurd (hoverflows.bind _) hlimits'

end

end LuaMachine
