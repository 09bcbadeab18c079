import LuaMachine.Proofs.ChainRun
import LuaMachine.Proofs.Transparency

/-!
The states of coroutines. In every state a machine can be in, the coroutines that are being resumed wait
for one another, all others hold their own strands, and on that of a dead one nothing is left. A dead
coroutine stays dead.
-/

namespace LuaMachine

/-- A machine on which nothing has run and no upvalue is open. -/
structure Machine.Blank (m : Machine) : Prop extends m.Fresh where
  current : m.current = none
  owner : ∃ n, m.running.owner = .main n
  cells : ∀ id o slot, m.heap.cell id ≠ .opened o slot

/-- Something an embedding program has run, and the host functions it provides for that. -/
structure Errand (R : Conduct) where
  {Result : Type}
  script : Run → Action Result
  isScript : Script R script
  embedding : Embedding
  hosts : ∀ name, Script R (embedding name)
  fuel : Nat

namespace Errand

variable {R : Conduct} (x : Errand R)

def outcome (m : Machine) : Outcome x.Result := x.script (run x.embedding x.fuel) m

/-- What is run, up to the first of some states. -/
noncomputable def upTo (P : Machine → Prop) (m : Machine) : Outcome x.Result :=
  x.script (watched x.embedding (stopAt P) x.fuel) m

theorem upTo_never (m : Machine) : x.upTo (fun _ => False) m = x.outcome m := by
  rw [upTo, stopAt_never, watched_none, outcome]

end Errand

namespace Machine

variable (R : Conduct)

/-- A machine between errands, of which each came to an end, if only with an error. -/
inductive Idle : Machine → Prop
  | blank {m : Machine} (h : m.Blank) : Idle m
  | ran {m : Machine} (h : Idle m) (x : Errand R)
      (hend : ∀ e m', x.outcome m = .error e m' → e.isFatal = false) : Idle (x.outcome m).state

/-- A state in which a machine can be, also within an errand. -/
def Reachable (m : Machine) : Prop :=
  ∃ (m₀ : Machine) (x : Errand R) (P : Machine → Prop), Idle R m₀ ∧ m = (x.upTo P m₀).state

/-- One state comes before another, within one errand or in different ones. -/
inductive Before : Machine → Machine → Prop
  | within {m : Machine} (h : Idle R m) (x : Errand R) {P Q : Machine → Prop} (hPQ : ∀ m, Q m → P m) :
    Before (x.upTo P m).state (x.upTo Q m).state
  | start {m : Machine} (h : Idle R m) (x : Errand R) (P : Machine → Prop) :
    Before m (x.upTo P m).state
  | trans {m m' m'' : Machine} (h : Before m m') (h' : Before m' m'') : Before m m''

end Machine

variable {S : Regime} {ts : List CoroutineId} {m m' : Machine} {d : Nat} {α : Type}
  {P Q : Machine → Prop}

theorem Machine.Blank.steady (h : m.Blank) (S : Regime) : m.Steady S [] := by
  have hsize : m.heap.coroutines.size = 0 := by rw [h.coroutines]; rfl
  have hstrand (c : CoroutineId) : (m.heap.coroutine c).strand = none := by
    rw [Heap.coroutine, h.coroutines]
    rfl
  have htidy : m.running.Tidy m.heap := by
    refine ⟨fun id slot hid => absurd hid (h.cells id _ slot), by simp [h.frames], ?_⟩
    rintro ⟨c, hc⟩
    obtain ⟨n, hn⟩ := h.owner
    simp [hn] at hc
  exact {
    nodup := .nil
    current := h.current
    strands := by
      obtain ⟨n, hn⟩ := h.owner
      exact ⟨n, by simp [h.parked, hn]⟩
    running := by simp
    normal := by simp
    others := fun c hc => by omega
    owned := fun id c i hid => absurd hid (h.cells id _ i)
    tidy := fun s hs => by
      rw [h.parked, List.mem_singleton] at hs
      exact hs ▸ htidy
    stored := fun c s _ hs => by simp [hstrand c] at hs
    closures := by simp [h.closures]
    caches := fun c hc => by
      rw [h.caches c hc]
      refine ⟨rfl, fun p _ u hu => ?_⟩
      simp [CodeCache.lookup] at hu }

/-- Where all coroutines may be resumed, runs may be stopped anywhere. -/
theorem Regime.Guards.of_sooner {S : Regime} (hquiet : ∀ c, ¬ S.quiet c) (h : ∀ m, Q m → P m) :
    S.Guards (fun _ => P) fun _ => Q :=
  ⟨fun _ => h, fun _ _ _ _ hawake => absurd (fun t _ => hquiet t) hawake⟩

section

variable {U : Prototype → Prop} (hU : IsCatalog U) {honest strict : Bool}

include hU

/-- An errand that is stopped, and one that is stopped later. -/
theorem Errand.paired (x : Errand ⟨U, .host, honest, strict⟩)
    (hm : m.Steady ⟨U, honest, fun _ => False⟩ []) (hPQ : ∀ m, Q m → P m) :
    Paired (Regime.Ends ⟨U, honest, fun _ => False⟩ [] 0 m (fun _ _ => True) (fun _ _ => True))
      (x.upTo P m) (x.upTo Q m) := by
  have hrun := engines_stopAt (S := ⟨U, honest, fun _ => False⟩) hU x.hosts
    (.of_sooner (fun _ => id) hPQ) x.fuel
  have hseat : Conduct.Settled ⟨U, .host, honest, strict⟩ [] 0 m :=
    ⟨⟨Nat.zero_le _, absurd rfl⟩, absurd rfl⟩
  have hpaired := x.isScript.paired hU hrun nofun (fun _ => id) rfl hm hseat (.self _ m)
  exact hpaired.imp fun _ hr => hr.imp (fun _ _ _ => trivial) fun _ _ _ => trivial

theorem Machine.Idle.steady (h : Idle ⟨U, .host, honest, strict⟩ m) :
    m.Steady ⟨U, honest, fun _ => False⟩ [] := by
  induction h with
  | blank h => exact h.steady _
  | @ran m _ x hend hm =>
    have hr := (x.paired hU hm (P := fun _ => False) (Q := fun _ => False) fun _ => id).left
    rw [x.upTo_never] at hr
    cases ho : x.outcome m with
    | ok a m' =>
      rw [ho] at hr
      exact hr.1
    | error e m' =>
      rw [ho] at hr
      exact (hr.2.resolve_left (by simp [hend e m' ho])).1

theorem Machine.Reachable.steady (h : m.Reachable ⟨U, .host, honest, strict⟩) :
    ∃ ts, m.Steady ⟨U, honest, fun _ => False⟩ ts := by
  obtain ⟨m₀, x, P, hidle, rfl⟩ := h
  exact (x.paired hU (hidle.steady hU) (P := P) (Q := P) fun _ => id).left.steady

theorem Machine.Before.buries (h : Before ⟨U, .host, honest, strict⟩ m m') :
    m.heap.Buries m'.heap := by
  induction h with
  | @within m hidle x P Q hPQ =>
    have hp := x.paired hU (hidle.steady hU) hPQ
    rcases hp.same with heq | ⟨e, m₁, heq, -, hb⟩
    · rw [heq]
      exact .refl _
    · rw [heq]
      exact hb
  | start hidle x P =>
    exact (x.paired hU (hidle.steady hU) (P := P) (Q := P) fun _ => id).left.buries
  | trans _ _ ih ih' => exact ih.trans ih'

/-- In every state that can be reached, a chain of coroutines is being resumed: the innermost one runs
on its strand, the others are normal, and their strands are parked in order above the main one. Any
other coroutine holds its strand and is suspended, or dead with neither frames nor open upvalues. Once
dead, it is so in all later states. -/
theorem coroutine_states :
    (∀ m, Machine.Reachable ⟨U, .host, honest, strict⟩ m → ∃ ts, m.Chained ts) ∧
      ∀ m m', Machine.Before ⟨U, .host, honest, strict⟩ m m' →
        ∀ c, m.heap.IsDead c → m'.heap.IsDead c := by
  refine ⟨fun m hm => ?_, fun m m' h => h.buries hU⟩
  obtain ⟨ts, hsteady⟩ := hm.steady hU
  exact ⟨ts, hsteady.toChained⟩

end

/-- Makes a coroutine of a function. -/
def spawn (p : Prototype) : Action CoroutineId := do
  let f ← onHeap (·.newClosure { proto := p, upvalues := #[], env := ⟨0⟩ })
  createCoroutine (.function (.lua f))

/-- Runs a function in a coroutine of its own. -/
def runApart (p : Prototype) (run : Run) : Action (Bool × List Value) := do
  let c ← spawn p
  resume run c []

theorem Sequence.spawn {R : Conduct} {p : Prototype} (hp : R.program p)
    (hcells : R.strict = true → 0 = p.upvalueCount.toNat) : Sequence R (spawn p) :=
  .andThen (.elementary (.newClosure p #[] ⟨0⟩ hp hcells)) fun f =>
    .elementary (.createCoroutine (.function (.lua f)))

theorem Script.runApart {R : Conduct} {p : Prototype} (hp : R.program p)
    (hcells : R.strict = true → 0 = p.upvalueCount.toNat) : Script R (runApart p) :=
  .bind (.sequence (.spawn hp hcells)) fun c _ => .resume c []

theorem Machine.bare_blank : Machine.bare.Blank where
  toFresh := bare_fresh
  current := rfl
  owner := ⟨0, rfl⟩
  cells id o slot := by
    rw [Heap.cell, show bare.heap.cells = #[] from rfl]
    exact fun h => by cases h

namespace Errand

/-- The code with a skip, in a coroutine. -/
def leap : Errand ⟨Prototype.leap.Contains, .host, true, true⟩ where
  script := LuaMachine.runApart Prototype.leap
  isScript := .runApart Prototype.leap.contains_self fun _ => rfl
  embedding := fun _ _ => pure 0
  hosts := fun _ => .pure 0
  fuel := 9

/-- The same coroutine before it is run. -/
def beforeLeap : Errand ⟨Prototype.leap.Contains, .host, true, true⟩ where
  script := fun _ => LuaMachine.spawn Prototype.leap
  isScript := .sequence (.spawn Prototype.leap.contains_self fun _ => rfl)
  embedding := fun _ _ => pure 0
  hosts := fun _ => .pure 0
  fuel := 0

/-- A machine with a coroutine that can be resumed. -/
def machine : Machine := (beforeLeap.outcome .bare).state

theorem machine_reachable : machine.Reachable ⟨Prototype.leap.Contains, .host, true, true⟩ :=
  ⟨_, beforeLeap, fun _ => False, .blank Machine.bare_blank, by rw [upTo_never, machine]⟩

end Errand

theorem coroutine_states_leap :
    (∃ ts, (Errand.leap.upTo (fun m => m.current.isSome) .bare).state.Chained ts) ∧
      ∀ m', Machine.Before ⟨Prototype.leap.Contains, .host, true, true⟩
        (Errand.leap.upTo (fun _ => False) .bare).state m' → m'.heap.IsDead ⟨0⟩ := by
  have hstates := @coroutine_states _ Prototype.leap_coherent.isCatalog true true
  obtain ⟨hchained, hdead⟩ := hstates
  refine ⟨hchained _ ⟨_, .leap, _, .blank Machine.bare_blank, rfl⟩, fun m' h => ?_⟩
  refine hdead _ m' h ⟨0⟩ ?_
  rw [Errand.upTo_never]
  exact ⟨by decide +kernel, by decide +kernel⟩

/-! A function that calls its argument -/

def Prototype.relay : Prototype :=
  { Prototype.empty "=relay" with
    paramCount := 1
    code := #[(Instruction.abc .call 0 1 2).word, (Instruction.abc .ret 0 2 0).word] }

namespace Prototype

theorem relay_verified : relay.Verified := rfl

theorem relay_isProgram : IsProgram relay.Contains := relay_verified.isProgram (coherent_of_children rfl)

end Prototype

/-- A host function that yields two values. -/
def pauseHost : Embedding := fun _ _ => yieldValues [.bool true, .nil]

/-- Calls the host function in a coroutine, up to where it yields. -/
def pauseApart (run : Run) : Action CoroutineId := do
  let c ← spawn .relay
  let _ ← resume run c [.function (.host (.embedded "pause"))]
  pure c

theorem Script.pauseApart {R : Conduct} (hp : R.program .relay) : Script R pauseApart :=
  .bind (.sequence (.spawn hp fun _ => rfl)) fun c _ => .andThen (.resume c _) fun _ => .pure c

end LuaMachine
