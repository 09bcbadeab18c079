import LuaMachine.Proofs.FrameRun
import LuaMachine.Proofs.OperationScript
import LuaMachine.Proofs.StackTop

/-!
Two machines in lockstep. The one on the left runs on the state of the one on the right, either as it
is or with everything erased that compiling left in it; it may stop with an alarm where the other
one goes on. Otherwise both do the same, and the right one keeps what an outcome is to satisfy.
-/

namespace LuaMachine

/-- The activation without a unit. -/
def Activation.erase (a : Activation) : Activation := ⟨a.window.erase, .interpreter, a.pc⟩

/-- What is compared, and for which programs. -/
structure Setting where
  program : Prototype → Prop
  /-- Whether the machine on the left is without units. -/
  erased : Bool
  /-- Whether host functions called by tail calls may yield. -/
  tails : Bool
  /-- The fault with which the machine on the left may stop. -/
  alarm : Fault

namespace Setting

variable (S : Setting)

/-- The state on the left. -/
def left (m : Machine) : Machine := if S.erased then m.erase else m

/-- How outcomes compare: the value on the left is that on the right under a function. -/
def Alike {α β : Type} (φ : α → β) (l : Outcome β) (r : Outcome α) (Q : Outcome α → Prop) : Prop :=
  (∃ m, l = .error S.alarm m) ∨ l = Outcome.map φ S.left r ∧ Q r

variable {S} {α β α' β' : Type}

theorem left_eq {γ : Type} {f : Machine → γ} (hf : ∀ m, f m.erase = f m) (m : Machine) :
    f (S.left m) = f m := by
  unfold left
  split
  · exact hf m
  · rfl

theorem left_comm {f : Machine → Machine} (hf : ∀ m, f m.erase = (f m).erase) (m : Machine) :
    f (S.left m) = S.left (f m) := by
  unfold left
  split
  · exact hf m
  · rfl

theorem left_apply {x : Action α} (hx : ∀ m, x m.erase = Outcome.map id Machine.erase (x m))
    (m : Machine) : x (S.left m) = Outcome.map id S.left (x m) := by
  unfold left
  cases S.erased with
  | true => exact hx m
  | false =>
    change x m = Outcome.map id (fun m => m) (x m)
    cases x m <;> rfl

namespace Alike

variable {φ : α → α'} {ψ : β → β'} {l : Outcome α'} {r : Outcome α} {Q Q' : Outcome α → Prop}

theorem imp (h : S.Alike φ l r Q) (hQ : Q r → Q' r) : S.Alike φ l r Q' :=
  Or.imp_right (fun ⟨heq, hr⟩ => ⟨heq, hQ hr⟩) h

/-- Steps that are alike may be followed by ones that are alike. -/
theorem bind {xl : Action α'} {fl : α' → Action β'} {xr : Action α} {fr : α → Action β}
    {m : Machine} {R : Outcome β → Prop} (hx : S.Alike φ (xl (S.left m)) (xr m) Q)
    (hok : ∀ a m', xr m = .ok a m' → Q (.ok a m') →
      S.Alike ψ (fl (φ a) (S.left m')) (fr a m') R)
    (herror : ∀ e m', Q (.error e m') → R (.error e m')) :
    S.Alike ψ ((xl >>= fl) (S.left m)) ((xr >>= fr) m) R := by
  rw [Action.bind_apply, Action.bind_apply]
  rcases hx with ⟨m', hl⟩ | ⟨hl, hQ⟩
  · exact .inl ⟨m', by rw [hl]⟩
  · cases hr : xr m with
    | ok a m' =>
      rw [hr] at hl hQ
      rw [hl]
      exact hok a m' hr hQ
    | error e m' =>
      rw [hr] at hl hQ
      rw [hl]
      exact .inr ⟨rfl, herror e m' hQ⟩

/-- What an attempt makes of an outcome. -/
def Attempted (Q : Outcome α → Prop) : Outcome (Except Fault α) → Prop
  | .ok (.ok a) m => Q (.ok a m)
  | .ok (.error e) m => e.isFatal = false ∧ Q (.error e m)
  | .error e m => e.isFatal = true ∧ Q (.error e m)

theorem attempt (halarm : S.alarm.isFatal) {xl xr : Action α} {m : Machine}
    (hx : S.Alike id (xl (S.left m)) (xr m) Q) :
    S.Alike id (attempt xl (S.left m)) (attempt xr m) (Attempted Q) := by
  rw [Action.attempt_apply, Action.attempt_apply]
  rcases hx with ⟨m', hl⟩ | ⟨hl, hQ⟩
  · exact .inl ⟨m', by simp [hl, halarm]⟩
  · right
    cases hr : xr m with
    | ok a m' =>
      rw [hr] at hl hQ
      rw [hl]
      exact ⟨rfl, hQ⟩
    | error e m' =>
      rw [hr] at hl hQ
      rw [hl]
      cases he : e.isFatal <;> simp only [Outcome.map, he]
      · exact ⟨rfl, he, hQ⟩
      · exact ⟨rfl, he, hQ⟩

theorem pure {a : α} {m : Machine} (hQ : Q (.ok a m)) :
    S.Alike id ((Pure.pure a : Action α) (S.left m)) ((Pure.pure a : Action α) m) Q :=
  .inr ⟨rfl, hQ⟩

end Alike

variable (S)

/-- A program whose runs can be compared. -/
structure Valid : Prop where
  program : IsProgram S.program
  alarm : S.alarm.isFatal = true
  tails : S.erased = true → S.tails = false
  closed : S.erased = true → ∀ p, S.program p → ¬ p.EndsInBatch

/-! What outcomes satisfy -/

def Sound (m : Machine) : Prop := m.Sound S.program S.tails

def Calm (m m' : Machine) : Prop := m.Calm S.program S.tails m'

/-- How a run may stop with a fault: with a sound machine that still has the frames below a depth.
A yield is to leave the machine in a particular state. -/
structure Stops (m : Machine) (depth : Nat) (yielding : Machine → Prop) (e : Fault) (m' : Machine) :
    Prop where
  sound : S.Sound m'
  kept : m.Kept m'
  frames : m.running.frames.toList.take depth <+: m'.running.frames.toList
  yield : e = .yield → yielding m'

/-- The outcome of a routine. -/
def Settles (k : Bool) (m : Machine) {α : Type} : Outcome α → Prop
  | .ok _ m' => S.Calm m m'
  | .error e m' => e.isFatal = true ∨ S.Stops m m.depth (fun m' =>
      k = true ∧ m'.running.boundaries = 0 ∧ m'.running.frames = m.running.frames) e m'

/-- An outcome that keeps the frames below a depth: the value and the state satisfy a predicate, and
so does the state after a yield. -/
def Results (m : Machine) (depth : Nat) {α : Type} (P : α → Machine → Prop)
    (yielding : Machine → Prop) : Outcome α → Prop
  | .ok a m' => S.Sound m' ∧ m.Kept m' ∧ P a m'
  | .error e m' => e.isFatal = true ∨ S.Stops m depth yielding e m'

/-- The frames from a depth on wait for the host function on top. -/
def SuspendedAbove (depth : Nat) (m m' : Machine) : Prop :=
  m'.running.boundaries = 0 ∧
    ∃ above, m'.running.frames.toList = m.running.frames.toList.take depth ++ above ∧
      Frame.Suspended S.tails m'.heap above

/-- The outcome of running frames down to a depth. -/
def Runs (depth : Nat) (m : Machine) : Outcome Unit → Prop :=
  S.Results m depth (fun _ m' =>
    m'.running.frames.toList = m.running.frames.toList.take depth) (S.SuspendedAbove depth m)

/-! What jobs ask for -/

/-- Frames from a depth on wait, each for the one above it, and the one on top may go on. -/
structure Waiting (depth : Nat) (m : Machine) : Prop where
  waits : ∀ f ∈ m.running.frames.toList.drop depth, f.Waits S.tails m.heap
  linked : Frame.Linked m.heap (m.running.frames.toList.drop depth)
  poised : depth < m.depth → ∀ f c, m.topFrame? = some f → f.closure? = some c →
    f.Poised (m.heap.closure c).proto f.pc m.running.top

/-- An activation runs the frame on top, at an instruction; the frames below it wait. -/
structure AtWork (depth : Nat) (a : Activation) (m : Machine) (below : List Frame) (f : Frame)
    (c : ClosureId) : Prop where
  frames : m.running.frames.toList = below ++ [f]
  depth_le : depth ≤ below.length
  waiting : ∀ g ∈ below.drop depth, g.Waits S.tails m.heap
  linked : Frame.Linked m.heap (below.drop depth ++ [f])
  closure : f.closure? = some c
  closure_lt : c.index < m.heap.closures.size
  base : a.window.base = f.base
  window : a.window.closure.erase = (m.heap.closure c).erase
  /-- Code that ends in an operand word can be run off, though not where units are erased. -/
  place : (m.heap.closure c).proto.IsInstruction a.pc ∨ S.erased = false ∧ a.fetch? = none
  poised : (m.heap.closure c).proto.IsInstruction a.pc ∧
    f.Poised (m.heap.closure c).proto a.pc m.running.top ∨ a.RanOff
  engine : a.engine = .interpreter ∨
    ∃ u, a.engine = .threaded u ∧ (m.heap.closure c).proto.IsUnit u

/-- What has to hold when a job is begun. -/
def Ready : Job → Machine → Prop
  | .call .., _ => True
  | .execute depth, m => S.Waiting depth m
  | .proceed depth a, m => ∃ below f c, S.AtWork depth a m below f c

/-- The depth down to which frames are gone after a job. -/
def depthAfter : Job → Machine → Nat
  | .call .., m => m.depth
  | .execute depth, _ => depth
  | .proceed depth _, _ => depth

def leftActivation (a : Activation) : Activation := if S.erased then a.erase else a

def leftJob : Job → Job
  | .proceed depth a => .proceed depth (S.leftActivation a)
  | job => job

/-- Two engines do jobs alike. -/
def Engines (runl runr : Run) : Prop := ∀ job m, S.Sound m → S.Ready job m →
  S.Alike id (runl (S.leftJob job) (S.left m)) (runr job m) (S.Runs (depthAfter job m) m)

variable {S}

/-- Where the frame on top is gone, after its call is over, the one below goes on. -/
theorem waiting_of_topped {depth : Nat} {m : Machine} {fs : List Frame} {g : Frame}
    (hframes : m.running.frames.toList = fs) (hwaits : ∀ f ∈ fs.drop depth, f.Waits S.tails m.heap)
    (hlinked : Frame.Linked m.heap (fs.drop depth ++ [g])) (htop : m.Topped g.slot g.wanted) :
    S.Waiting depth m where
  waits := hframes ▸ hwaits
  linked := hframes ▸ hlinked.left_of_append
  poised hd f c hf hc := by
    obtain ⟨init, hinit⟩ := topFrame?_eq_some.1 hf
    have hle : depth ≤ init.length := by
      have hlength : m.running.frames.toList.length = m.depth := Array.length_toList
      rw [hinit, List.length_append, List.length_singleton] at hlength
      omega
    rw [← hframes, hinit, List.drop_append_of_le_length hle] at hlinked
    exact hlinked.awaits.poised htop hf hc

end Setting

end LuaMachine
