import LuaMachine.Proofs.Watch

/-!
Compiling does not show: a verified program has the same outcome in every mode, up to the units and
code caches that compiling leaves behind.
-/

namespace LuaMachine

open Setting

/-- Loads a prototype and calls it. -/
def loadAndCall (p : Prototype) (args : List Value) (run : Run) : Action (List Value) := do
  let f ← loadPrototype p
  call run f args

/-- The machine in another mode. -/
def Machine.withMode (m : Machine) (mode : CompileMode) : Machine :=
  { m with options := { m.options with mode := mode } }

variable {U : Prototype → Prop} {embedding : Embedding} {α : Type} {k : Bool} {m : Machine}

theorem Routine.loadAndCall {p : Prototype} (hp : U p) (args : List Value) :
    Routine U k (loadAndCall p args) :=
  .andThen (.plain (.loadPrototype hp)) fun f => .call f args

namespace Machine.Fresh

theorem withMode (h : m.Fresh) (mode : CompileMode) : (m.withMode mode).Fresh :=
  ⟨h.closures, h.coroutines, h.caches, h.frames, h.parked⟩

/-- Only the mode can be erased from a fresh machine. -/
theorem erase_eq (h : m.Fresh) : m.erase = m.withMode .off := by
  have hcaches : m.heap.caches.map CodeCache.erase = m.heap.caches := by
    refine Array.ext (by simp) fun i hi hi' => ?_
    rw [Array.getElem_map, h.caches _ (Array.getElem_mem hi')]
    rfl
  have hheap : m.heap.erase = m.heap := by
    rw [Heap.erase, h.closures, h.coroutines, hcaches, Array.map_empty, Array.map_empty,
      ← h.closures, ← h.coroutines]
  have hrunning : m.running.erase = m.running := by
    rw [Strand.erase, Strand.modifyFrames, h.frames, Array.map_empty, ← h.frames]
  rw [erase, hheap, hrunning, h.parked, List.map_nil, ← h.parked, Machine.withMode]

end Machine.Fresh

/-- A program without units runs as it does in any mode, unless a tail call yields. -/
theorem run_erase (hU : IsProgram U) (hbatch : ∀ p, U p → ¬ p.EndsInBatch)
    (hembedding : ∀ name, Routine U true (embedding name)) {drive : Run → Action α}
    (hdrive : Routine U k drive) (hm : m.Sound U false) {fuel : Nat}
    (htails : Always embedding (fun t => ¬ t.TailYields) fuel drive m.erase) :
    drive (run embedding fuel) m.erase =
      Outcome.map id Machine.erase (drive (run embedding fuel) m) := by
  refine eq_of_alarms fun e he => ?_
  have hvalid : Valid ⟨U, true, false, e⟩ := ⟨hU, he, fun _ => rfl, fun _ => hbatch⟩
  have hwatch : Watches ⟨U, true, false, e⟩ (fun _ => none) (tailAlarm false e) fun _ => none :=
    watches_tailAlarm _ fun _ _ => rfl
  have halike := hdrive.alike hvalid (engines_watched hvalid hembedding hwatch fuel) hm
  rw [show left ⟨U, true, false, e⟩ m = m.erase from rfl, watched_tailAlarm (.inr htails),
    watched_none] at halike
  exact halike.imp_right And.left

/-- Without tail calls, no tail call yields. -/
theorem always_not_tailYields (hU : IsProgram U)
    (hcalls : ∀ {p}, U p → ∀ w ∈ p.code, (⟨w⟩ : Instruction).opcode? ≠ some .tailCall)
    (hembedding : ∀ name, Routine U true (embedding name)) {drive : Run → Action α}
    (hdrive : Routine U k drive) (hm : m.Sound U true) (fuel : Nat) :
    Always embedding (fun t => ¬ t.TailYields) fuel drive m := by
  refine always_of_seen hU hembedding hdrive hm (.inl rfl) fun S hS hprogram _ t ht => ?_
  cases t with
  | takeUp m => exact id
  | step a m r =>
    obtain ⟨hm, ⟨depth, below, f, c, h⟩, -⟩ := ht
    rintro ⟨⟨x, y, after, hfetch⟩, -⟩
    rcases h.place with hi | ⟨-, hnone⟩
    · obtain ⟨word, op, after', hw, hop, hfetch', -⟩ := h.fetches hS hm rfl hi
      obtain rfl := Prototype.operationAt_eq_tailCall
        (congrArg Fetched.operation (Option.some.inj (hfetch'.symm.trans hfetch)))
      exact hcalls (hprogram ▸ h.program hm) word (Array.mem_of_getElem? hw) hop
    · rw [hnone] at hfetch
      cases hfetch

/-- A verified tree has the same outcome whether the machine compiles or not: the same values or the
same error, the same text printed, and the same final state apart from units and code caches. -/
theorem same_outcome_in_modes {p : Prototype} (hp : p.Verified) (hids : p.Coherent)
    (hbatch : ∀ q, p.Contains q → ¬ q.EndsInBatch)
    (hembedding : ∀ name, Routine p.Contains true (embedding name)) (hm : m.Fresh)
    (args : List Value) (fuel : Nat)
    (htails : Always embedding (fun t => ¬ t.TailYields) fuel (loadAndCall p args) (m.withMode .off))
    (mode : CompileMode) :
    Outcome.map id Machine.erase (loadAndCall p args (run embedding fuel) (m.withMode .off)) =
      Outcome.map id Machine.erase (loadAndCall p args (run embedding fuel) (m.withMode mode)) := by
  have hrun (mode : CompileMode) : loadAndCall p args (run embedding fuel) (m.withMode .off) =
      Outcome.map id Machine.erase
        (loadAndCall p args (run embedding fuel) (m.withMode mode)) := by
    have herase : (m.withMode mode).erase = m.withMode .off := (hm.withMode mode).erase_eq
    have heq := run_erase (hp.isProgram hids) hbatch hembedding (k := false)
      (.loadAndCall p.contains_self args) ((hm.withMode mode).sound _ _) (herase ▸ htails)
    rwa [herase] at heq
  rw [← hrun .off, hrun mode]

/-! The code with a skip, on a machine without globals -/

def Machine.bare : Machine := .create { caches := #[{ backend := .threaded }] } 0 0 {}

theorem Machine.bare_fresh : Machine.bare.Fresh where
  closures := rfl
  coroutines := rfl
  caches c hc := by simpa [bare, create, Heap.newTable, Heap.modifyTables] using hc
  frames := rfl
  parked := rfl

namespace Prototype

theorem leap_verified : Prototype.leap.Verified := rfl

theorem contains_leap {q : Prototype} (h : leap.Contains q) : q = leap := eq_of_contains rfl h

theorem leap_calls {w : UInt32} (hw : w ∈ leap.code) :
    (⟨w⟩ : Instruction).opcode? ≠ some .tailCall := by
  simp only [leap, List.mem_toArray, List.mem_cons, List.not_mem_nil, or_false] at hw
  rcases hw with rfl | rfl | rfl <;> decide

theorem leap_coherent : leap.Coherent := coherent_of_children rfl

end Prototype

theorem same_outcome_in_modes_leap :
    Outcome.map id Machine.erase
        (loadAndCall .leap [] (run (fun _ _ => pure 0) 9) (Machine.bare.withMode .off)) =
      Outcome.map id Machine.erase
        (loadAndCall .leap [] (run (fun _ _ => pure 0) 9) (Machine.bare.withMode .strict)) := by
  have hembedding (name : String) :
      Routine Prototype.leap.Contains true ((fun _ _ => pure 0 : Embedding) name) := .pure 0
  refine same_outcome_in_modes Prototype.leap_verified Prototype.leap_coherent ?_ hembedding Machine.bare_fresh [] 9
    ?_ .strict
  · rintro q hq ⟨pc, w, -, hw, hpc, hop, -⟩
    rw [Prototype.contains_leap hq] at hw hpc
    obtain rfl : pc = 1 := by
      change pc + 2 = 3 at hpc
      omega
    obtain rfl : (Instruction.abc .close 0 0 0).word = w := Option.some.inj hw
    exact absurd hop (by decide)
  · refine always_not_tailYields (Prototype.leap_verified.isProgram Prototype.leap_coherent) ?_ hembedding
      (.loadAndCall (k := false) Prototype.leap.contains_self [])
      ((Machine.bare_fresh.withMode .off).sound _ _) 9
    intro q hq
    rw [Prototype.contains_leap hq]
    exact fun _ => Prototype.leap_calls

end LuaMachine
