import LuaMachine.Proofs.BelowRegisters
import LuaMachine.Proofs.LimitedRun
import LuaMachine.Proofs.Results
import LuaMachine.Proofs.SurplusArguments

/-!
Arguments are kept. From when a function is entered until it returns, or gives way to another one, its surplus
arguments lie below its registers as they came: whatever it calls, and whatever is run while its coroutine sleeps,
writes above them, but for assignments through upvalues. So `VARARG` gives them wherever it is performed.
-/

namespace LuaMachine

/-- A frame lies directly on given ones, wherever it is in its code, and all above it lies above the start of its
registers. -/
structure Strand.Runs (fs : List Frame) (f : Frame) (s : Strand) : Prop where
  frame : s.Bears fs fun g => g = { f with pc := g.pc }
  serves : s.Serves (fs.length + 1) f.base

/-- At a stage the frame on given ones is on top and is about to leave. -/
def Stage.Leaves (fs : List Frame) (s : Stage) : Prop :=
  ∃ d a, s.job = .proceed d a ∧ s.machine.depth = fs.length + 1 ∧ a.Leaves s.machine

variable {S : Regime} {ts : List CoroutineId} {m m' : Machine} {d j n x y z after slot fuel k i : Nat}
  {a : Activation} {f g : Frame} {fs : List Frame} {c : ClosureId} {c' : CoroutineId}
  {embedding : Embedding} {s s' : Stage}
  {v : Value} {args : List Value} {p : Prototype} {t : TableId}

theorem Strand.Serves.mono {s : Strand} (h : s.Serves n slot) {slot' : Nat} (hle : slot' ≤ slot) :
    s.Serves n slot' where
  frames g hg := ⟨hle.trans (h.frames g hg).slot, hle.trans (h.frames g hg).base, hle.trans (h.frames g hg).top⟩
  top hn := hle.trans (h.top hn)

theorem Strand.serves_of_size_le {s : Strand} (h : s.frames.size ≤ n) (slot : Nat) : s.Serves n slot where
  frames g hg := by
    rw [List.drop_eq_nil_of_le (by rwa [Array.length_toList])] at hg
    cases hg
  top hn := absurd hn (Nat.not_lt.2 h)

namespace Strand.Runs

theorem placeless (f : Frame) : Frame.Placeless fun g => g = { f with pc := g.pc } := by
  intro g pc hg
  rw [hg]

theorem rests {s s' : Strand} {h h' : Heap} (hruns : s.Runs fs f) (hr : s.Rests h h' s') : s'.Runs fs f :=
  ⟨hruns.frame.rests hr, hruns.serves.rests hr⟩

/-- A frame that has just been pushed. -/
theorem of_append {s : Strand} (h : s.frames.toList = fs ++ [f]) : s.Runs fs f where
  frame := ⟨f, [], h, rfl⟩
  serves := serves_of_size_le (by rw [← Array.length_toList, h]; simp) _

/-- The frame itself, when it is on top. -/
theorem atop {s : Strand} (hruns : s.Runs fs f) (hsize : s.frames.size = fs.length + 1) :
    ∃ pc, s.frames.toList = fs ++ [{ f with pc := pc }] := by
  obtain ⟨g, rest, hfs, hg⟩ := hruns.frame
  have hlength := congrArg List.length hfs
  rw [Array.length_toList, hsize, List.length_append, List.length_cons] at hlength
  obtain rfl := List.eq_nil_of_length_eq_zero (show rest.length = 0 by omega)
  exact ⟨g.pc, hg ▸ hfs⟩

theorem lt_depth (hruns : m.running.Runs fs f) : fs.length < m.depth := hruns.frame.lt_size

section

variable {U : Prototype → Prop} (hU : IsCatalog U) {strict : Bool}

include hU

section

variable (hosts : ∀ name, Script ⟨U, .host, true, strict⟩ (embedding name))

include hosts

/-- A step of the frame itself, if it does not leave, has the frame on top, or below one that it has called. -/
theorem ownStep (hm : m.Steady ⟨U, true, fun _ => False⟩ ts) (hk : m.Kempt true false)
    (h : Regime.AtWork ⟨U, true, fun _ => False⟩ d j a m g c) (hruns : m.running.Runs fs f)
    (hdepth : m.depth = fs.length + 1) (hstays : ¬ a.Leaves m) {o : Option Activation}
    (hstep : step embedding (run embedding fuel) a m = .ok o m') : m'.running.Runs fs f := by
  have hrun := Stage.engines_run (S := ⟨U, true, fun _ => False⟩) hU (fun _ => id) hosts fuel
  obtain ⟨pc, hfs⟩ := hruns.atop hdepth
  obtain ⟨below, hbelow, -⟩ := h.exists_frames rfl
  obtain ⟨rfl, hg⟩ := List.append_inj' (hbelow.symm.trans hfs) rfl
  obtain rfl := List.singleton_inj.1 hg
  have hreframes := h.reframes hU hrun hosts rfl hm (fun _ _ => id) hfs hstep
  have hreturns (ho : o = none) : ∃ x y z after, a.fetch? = some ⟨.call x y z, after⟩ :=
    (Activation.leaves_of_step h.portable (ho ▸ hstep)).resolve_left hstays
  generalize hfs' : m'.running.frames.toList = fs' at hreframes
  cases hreframes with
  | stays =>
    refine ⟨⟨_, [], hfs', rfl⟩, serves_of_size_le ?_ _⟩
    rw [← Array.length_toList, hfs']
    simp
  | calls hfetch =>
    have haw := h.awaits_of_call hU hk hm hfetch hosts hfs hstep (.inl ⟨m', rfl⟩)
    exact ⟨⟨_, _, hfs', rfl⟩, haw.serves.mono (h.base ▸ Nat.le_add_right _ _)⟩
  | gives hfetch =>
    obtain ⟨x, y, z, after, hfetch'⟩ := hreturns rfl
    simp [hfetch] at hfetch'
  | returns hfetch =>
    obtain ⟨x, y, z, after, hfetch'⟩ := hreturns rfl
    simp [hfetch] at hfetch'

/-- So it has after each step, until it leaves. -/
theorem next (hs : s.Steady ⟨U, true, fun _ => False⟩ ts) (hk : s.machine.Kempt true false)
    (hruns : s.machine.running.Runs fs f) (hstays : ¬ s.Leaves fs) (hnext : Stage.Next embedding s s') :
    s'.machine.Kempt true false ∧ s'.machine.running.Runs fs f := by
  have hpos := Nat.zero_lt_of_lt hruns.lt_depth
  obtain ⟨hk', -⟩ := hnext.serves hU hs hk hosts hpos s.machine.running.serves_zero
  refine ⟨hk', ?_⟩
  rcases hnext.cases with heq | ⟨k, d, a, o, heq, hstep⟩
  · rwa [heq]
  · have hjob := congrArg Stage.job heq
    obtain ⟨j, g, c, h, hdepth⟩ := hs.atWork rfl hjob
    rcases Nat.lt_or_ge (fs.length + 1) s.machine.depth with hlt | hge
    · have hrun := Stage.engines_run (S := ⟨U, true, fun _ => False⟩) hU (fun _ => id) hosts k
      obtain ⟨-, hserves⟩ := hnext.serves hU hs hk hosts hlt hruns.serves
      have hkeeps := h.step_keeps hU hrun hosts hs.machine (fun _ _ => id) (show fs.length + 1 ≤ j by omega) hstep
        fun _ _ heq => by cases heq
      exact ⟨hruns.frame.keeps hkeeps.2, hserves⟩
    · have hown := le_antisymm hge hruns.lt_depth
      exact hruns.ownStep hU hosts hs.machine hk h hown (fun h => hstays ⟨d, a, hjob, hown, h⟩) hstep

/-- So it is over a whole run. -/
theorem leads (hs : s.Steady ⟨U, true, fun _ => False⟩ ts) (hk : s.machine.Kempt true false)
    (hruns : s.machine.running.Runs fs f) (h : Stage.LeadsWhile embedding (fun t => ¬ t.Leaves fs) s s') :
    s'.Steady ⟨U, true, fun _ => False⟩ ts ∧ s'.machine.Kempt true false ∧ s'.machine.running.Runs fs f ∧
      s'.machine.running.owner = s.machine.running.owner := by
  induction h with
  | refl => exact ⟨hs, hk, hruns, rfl⟩
  | tail _ hnext ih =>
    obtain ⟨hstays, hnext⟩ := hnext
    obtain ⟨hs₁, hk₁, hruns₁, howner⟩ := ih
    obtain ⟨hk₂, hruns₂⟩ := hruns₁.next hU hosts hs₁ hk₁ hstays hnext
    exact ⟨hnext.steady (S := ⟨U, true, fun _ => False⟩) hU (fun _ => id) hosts hs₁, hk₂, hruns₂,
      (hnext.owner hU hs₁ hosts).trans howner⟩

/-- A frame that has not left is still there where a yield stops it. -/
theorem yield (hm : m.Steady ⟨U, true, fun _ => False⟩ ts) (hk : m.Kempt true false)
    (h : Regime.AtWork ⟨U, true, fun _ => False⟩ d j a m g c) (hruns : m.running.Runs fs f)
    (hstays : m.depth = fs.length + 1 → ¬ a.Leaves m)
    (hstep : step embedding (run embedding fuel) a m = .error .yield m') : m'.running.Runs fs f := by
  let C : Custody := ⟨⟨U, true, fun _ => False⟩, fun _ _ => False, false⟩
  have hfree : ¬ C.Strict := fun ⟨_, _, h⟩ => h
  have hminds : C.Minds (run embedding fuel) := Custody.minds_run (C := C) hU hfree (fun _ => id) rfl hosts fuel
  have hnonfatal : ∀ e m'', step embedding (run embedding fuel) a m = .error e m'' → e.isFatal = false := by
    intro e m'' heq
    obtain ⟨rfl, -⟩ := EStateM.Result.error.inj (hstep.symm.trans heq)
    rfl
  refine ⟨hruns.frame.yield hU hminds.engines hosts rfl hm (fun _ _ => id) h (placeless f) hstep, ?_⟩
  rcases Nat.lt_or_ge (fs.length + 1) m.depth with hlt | hge
  · have hdepth := h.top rfl
    rw [hstep] at hnonfatal
    exact (h.step_serves hU hm hk hosts (show fs.length + 1 ≤ j by omega) hruns.serves hstep).2 hnonfatal
  · have hown := le_antisymm hge hruns.lt_depth
    obtain ⟨pc, hfs⟩ := hruns.atop hown
    obtain ⟨-, -, below, x, y, z, after, hbelow, hop, -⟩ :=
      h.yields hU hminds.engines hosts rfl hm (fun _ _ => id) hstep
    obtain ⟨rfl, hg⟩ := List.append_inj' (hbelow.symm.trans hfs) rfl
    obtain rfl := List.singleton_inj.1 hg
    have hbase : f.base ≤ a.window.base + x := h.base ▸ Nat.le_add_right _ _
    rcases hop with hfetch | ⟨hfetch, -⟩
    · exact (h.awaits_of_call hU hk hm hfetch hosts hfs hstep (.inr ⟨m', rfl⟩)).serves.mono hbase
    · have htends := stepTailCall_tends (C := C) hU hminds (fun _ _ => id) hm hk
        (fun name => (hosts name).tame rfl hfree) h hfetch
        fun henters => hstays hown (.inr ⟨x, y, after, hfetch, henters⟩)
      have hserves := (htends.leased hnonfatal).serves
      rw [hstep, hown] at hserves
      exact hserves.mono hbase

end

section

variable (hosts : ∀ name, Tame ⟨U, .host, true, strict⟩ True (embedding name)) (hwindow : f.base ≤ f.top)

include hosts hwindow

/-- What lies below the registers of a frame has the same value after a step, unless the frame leaves or something
is assigned through an upvalue. -/
theorem step_lasts (hs : s.Steady ⟨U, true, fun _ => False⟩ ts) (hk : s.machine.Kempt true false)
    (hruns : s.machine.running.Runs fs f) (hi : i < f.base) (hstays : ¬ s.Leaves fs)
    (hassigns : ¬ s.Assigns embedding s.machine.running.owner i)
    (hv : s.machine.slot? s.machine.running.owner i = some v)
    (hjob : s = ⟨k + 1, .proceed d a, s.machine⟩) :
    (Outcome.state (step embedding (run embedding k) a s.machine)).slot? s.machine.running.owner i = some v := by
  obtain ⟨j, g, c, h, hdepth⟩ := hs.atWork rfl (congrArg Stage.job hjob)
  rcases Nat.lt_or_ge (fs.length + 1) s.machine.depth with hlt | hge
  · have hno (hassign : a.Assigns s.machine s.machine.running.owner i ∨ ¬ Always embedding
        (fun t => ¬ t.Assigns s.machine.running.owner i) k (fun run => step embedding run a) s.machine) :
        False := hassigns ⟨k, d, a, congrArg Stage.fuel hjob, congrArg Stage.job hjob, hassign⟩
    exact h.step_lasts hU hs.machine hk hosts (show fs.length + 1 ≤ j by omega) hruns.serves hi
      (fun h => hno (.inl h)) (not_not.1 fun h => hno (.inr h)) hv
  · have hown := le_antisymm hge hruns.lt_depth
    obtain ⟨pc, hfs⟩ := hruns.atop hown
    obtain ⟨below, hbelow, -⟩ := h.exists_frames rfl
    obtain ⟨rfl, hg⟩ := List.append_inj' (hbelow.symm.trans hfs) rfl
    obtain rfl := List.singleton_inj.1 hg
    rw [hjob] at hassigns
    exact h.lasts_below hU hs.machine hk hwindow hosts
      (fun h => hstays ⟨d, a, congrArg Stage.job hjob, hown, h⟩) (h.base ▸ hi) hassigns hv

/-- So it has over a whole run. -/
theorem lasts (hs : s.Steady ⟨U, true, fun _ => False⟩ ts) (hk : s.machine.Kempt true false)
    (hruns : s.machine.running.Runs fs f) (hi : i < f.base)
    (hv : s.machine.slot? s.machine.running.owner i = some v)
    (h : Stage.LeadsWhile embedding
      (fun t => ¬ t.Leaves fs ∧ ¬ t.Assigns embedding s.machine.running.owner i) s s') :
    s'.machine.slot? s.machine.running.owner i = some v := by
  induction h with
  | refl => exact hv
  | @tail s₁ s₂ hleads hnext ih =>
    obtain ⟨⟨hstays, hassigns⟩, hnext⟩ := hnext
    obtain ⟨hs₁, hk₁, hruns₁, howner⟩ := hruns.leads hU (fun name => (hosts name).script) hs hk
      (Stage.LeadsWhile.imp hleads fun _ => And.left)
    rcases hnext.cases with heq | ⟨k, d, a, o, heq, hstep⟩
    · rwa [heq]
    · rw [← howner] at ih hassigns ⊢
      have hlasts := hruns₁.step_lasts hU hosts hwindow hs₁ hk₁ hi hstays hassigns ih heq
      rwa [hstep] at hlasts

end

end

/-- A frame whose coroutine has yielded is there when this is resumed. -/
theorem resumed {U : Prototype → Prop} (hU : IsCatalog U) (hk : m.Kempt true false)
    (hm : m.Steady ⟨U, true, fun _ => False⟩ ts) {s : Strand} (hlua : f.isLua = true)
    (hc : (m.heap.coroutine c').status = .suspended) (hs : (m.heap.coroutine c').strand = some s)
    (hruns : s.Runs fs f) (args : List Value) :
    (∃ m', wake args (m.resumed c') = .ok () m' ∧ m'.Steady ⟨U, true, fun _ => False⟩ (c' :: ts) ∧
        m'.Kempt true false ∧ SameBelow f.base s.stack m'.running.stack ∧ m'.running.Runs fs f) ∨
      Outcome.Overflows (wake args (m.resumed c')) := by
  obtain ⟨hrunning, -⟩ := Machine.running_resumed hm hc hs
  rw [← hrunning] at hruns ⊢
  have hframes : (m.resumed c').running.frames ≠ #[] := fun h => by
    have hlt := hruns.lt_depth
    rw [Machine.depth, h] at hlt
    simp at hlt
  obtain ⟨below, caller, host, hfs, hhost, htop, hwakes⟩ := wake_goesOn hU hm hk hc hframes args
  -- the frame on top is one of a host function
  have hlt : fs.length + 1 < (m.resumed c').depth := by
    refine lt_of_le_of_ne hruns.lt_depth fun heq => ?_
    obtain ⟨pc, hfs'⟩ := hruns.atop heq.symm
    obtain rfl := List.singleton_inj.1 (List.append_inj' (hfs.symm.trans hfs') rfl).2
    exact Bool.false_ne_true (hhost.symm.trans hlua)
  have hdepth : (m.resumed c').depth = (below ++ [caller]).length + 1 := by
    rw [Machine.depth, ← Array.length_toList, hfs, List.length_append, List.length_singleton]
  refine hwakes.imp_left ?_
  rintro ⟨m', hwake, -, hm', hk', hserves⟩
  obtain ⟨hbelow, hserves'⟩ := hserves _ _ hlt hruns.serves
  refine ⟨m', hwake, hm', hk', hbelow, ?_, hserves'⟩
  refine (hruns.frame.wake hfs htop.le hwake).resolve_right ?_
  rintro ⟨heq, -⟩
  rw [← heq] at hlt
  omega

end Strand.Runs

/-! Registers of `VARARG` -/

/-- What is fetched at an instruction of a verified function fits its prototype. -/
theorem Regime.AtWork.fits (hS : IsProgram S.program) (hm : m.Steady S ts) (h : S.AtWork d j a m f c)
    (hpc : a.window.closure.proto.IsInstruction a.pc) {op : Operation} (hfetch : a.fetch? = some ⟨op, after⟩) :
    op.Fits a.window.closure.proto := by
  obtain ⟨p, hp⟩ : ∃ p, p = a.window.closure.proto := ⟨_, rfl⟩
  rw [← hp] at hpc ⊢
  have hproto : p = (m.heap.closure c).proto := hp.trans h.proto
  have hverified : p.Verified :=
    hproto ▸ hS.verified (hm.closures _ (Heap.closure_mem (h.lt_closures hm))).program
  obtain ⟨l, hl⟩ := hverified.exists_lower
  have hlowers := Prototype.lowersTo_of_lower hl
  obtain ⟨word, hw⟩ := hpc.exists_word
  obtain ⟨opcode, hop, -⟩ := hlowers.instruction hpc hw
  have hengine := h.engine
  obtain ⟨w, engine, pc⟩ := a
  have hfits := hverified.checked.fits hpc hw hop
  rcases hengine with rfl | ⟨u, rfl, hu⟩
  · rw [Activation.fetch?_interpreter hlowers hp.symm hpc hw hop] at hfetch
    obtain ⟨rfl, -⟩ := Fetched.mk.inj (Option.some.inj hfetch)
    exact hfits
  · rw [← hproto] at hu
    rw [Activation.fetch?_threaded (Prototype.lowersTo_of_lower hu.lower) hpc hw hop] at hfetch
    obtain ⟨rfl, -⟩ := Fetched.mk.inj (Option.some.inj hfetch)
    exact hfits

theorem Operation.Fits.vararg_le (h : (Operation.vararg x y).Fits p) : x + (y - 1) ≤ p.maxStack.toNat := by
  rcases Nat.eq_zero_or_pos (y - 1) with hy | hy
  · have hlt := h.registers x (List.mem_cons_self ..)
    omega
  · have hlt := h.registers (x + (y - 1) - 1)
      (List.mem_cons_of_mem _ (List.mem_range'_1.2 ⟨by omega, by omega⟩))
    omega

theorem Machine.Reaches.occurs {R : Conduct} {m₀ : Machine} (h : m₀.Reaches R m) (hm₀ : m₀.AtRest R) :
    m.Occurs R := by
  obtain ⟨m₁, x, P, hrest, rfl⟩ := h
  refine ⟨m₁, x, P, ?_, rfl⟩
  induction hrest with
  | start => exact hm₀
  | ran _ x hend ih => exact .ran ih x hend

/-! What is true of arguments -/

/-- At a stage of a run on a machine a frame is there that has received arguments. -/
structure Stage.KeepsArguments (m₀ : Machine) (R : Conduct) (embedding : Embedding) (fs : List Frame) (f : Frame)
    (p : Prototype) (args : List Value) (s : Stage) : Prop where
  /-- It is there until it leaves. -/
  goesOn : ∀ {s'}, LeadsWhile embedding (fun t => ¬ t.Leaves fs) s s' → s'.machine.running.Runs fs f
  /-- So it is where a yield stops it. -/
  yields : ∀ {s' k d a m'}, LeadsWhile embedding (fun t => ¬ t.Leaves fs) s s' → ¬ s'.Leaves fs →
    s'.job = .proceed d a → step embedding (run embedding k) a s'.machine = .error .yield m' →
      m'.running.Runs fs f
  /-- Until then what lies below its registers has the same value, unless something is assigned to it through an
  upvalue, and so it has after a step that fails or yields. -/
  lasts : ∀ {i v s'}, i < f.base → s.machine.slot? s.machine.running.owner i = some v →
    LeadsWhile embedding (fun t => ¬ t.Leaves fs ∧ ¬ t.Assigns embedding s.machine.running.owner i) s s' →
      s'.machine.slot? s.machine.running.owner i = some v ∧
        ∀ {k d a}, s' = ⟨k + 1, .proceed d a, s'.machine⟩ → ¬ s'.Leaves fs →
          ¬ s'.Assigns embedding s.machine.running.owner i →
            (Outcome.state (step embedding (run embedding k) a s'.machine)).slot? s.machine.running.owner i =
              some v
  /-- Wherever it performs `VARARG` until then, that writes the surplus arguments, as many as it wants, or all of
  them unless the stack overflows. -/
  vararg : HoldsFrom s.machine.running.stack (f.base - f.surplus) (p.surplus args) →
    ∀ {s' k d a x y after}, LeadsWhile embedding (fun t => ¬ t.Leaves fs ∧
        ∀ i, f.base - f.surplus ≤ i → i < f.base → ¬ t.Assigns embedding s.machine.running.owner i) s s' →
      m₀.Reaches R s'.machine → s'.job = .proceed d a → s'.machine.depth = fs.length + 1 →
      a.window.closure.proto = p → p.IsInstruction a.pc → a.fetch? = some ⟨.vararg x y, after⟩ →
        (∃ m', step embedding (run embedding k) a s'.machine = .ok (some { a with pc := after }) m' ∧
          m'.running.frames.toList = fs ++ [{ f with pc := a.pc + 1 }] ∧
            s'.machine.Spreads m' (f.base + x) (wantedBy y) (p.surplus args)) ∨
        y = 0 ∧ Outcome.Overflows (step embedding (run embedding k) a s'.machine)

/-- In a state of a machine a frame is there that has received arguments, on the running strand or on one whose
coroutine sleeps. -/
structure Machine.KeepsArguments (m m₀ : Machine) (S : Regime) (strict : Bool) (embedding : Embedding)
    (fuel : Nat) (fs : List Frame) (f : Frame) (p : Prototype) (args : List Value) : Prop where
  running : ∀ {ts job}, m.Steady S ts → S.Ready ts m job → m.running.Runs fs f →
    Stage.KeepsArguments m₀ ⟨S.program, .host, S.honest, strict⟩ embedding fs f p args ⟨fuel, job, m⟩
  /-- What names a slot below its registers is an upvalue over a frame below. -/
  enclosing : ∀ {s cell i}, m.Holds s → s.Runs fs f → m.heap.cell cell = .opened s.owner i → i < f.base →
    ∃ g ∈ fs, g.Covers true m.heap i
  asleep : ∀ {c s}, (m.heap.coroutine c).status = .suspended → (m.heap.coroutine c).strand = some s →
    s.Runs fs f → m.Undisturbed S strict embedding fuel c (·.Runs fs f)
  /-- When its coroutine is resumed it goes on, with what lies below its registers as it was. -/
  resumed : ∀ {c s}, (m.heap.coroutine c).status = .suspended → (m.heap.coroutine c).strand = some s →
    s.Runs fs f → m.nativeCalls < m.options.maxNativeCalls → ∀ vs, Outcome.Overflows (wake vs (m.resumed c)) ∨
      ∃ m', resume (run embedding fuel) c vs m =
          resumeEnds c m.current ((run embedding fuel (.execute 0) >>= fun _ => gather) m') ∧
        SameBelow f.base s.stack m'.running.stack ∧
          Stage.KeepsArguments m₀ ⟨S.program, .host, S.honest, strict⟩ embedding fs f p args
            ⟨fuel, .execute 0, m'⟩

section

variable {U : Prototype → Prop} (hU : IsProgram U)
  (hosts : ∀ name, Tame ⟨U, .host, true, true⟩ True (embedding name)) {m₀ : Machine} {stack : Array Value}
  (hf : f.Receives p args t stack)

include hU hosts hf

theorem Strand.Runs.keepsArguments {o : Options} (hm₀ : m₀.Sound U true) (hlimited : m₀.Limited o)
    (hs : s.Steady ⟨U, true, fun _ => False⟩ ts) (hk : s.machine.Kempt true false)
    (hruns : s.machine.running.Runs fs f) :
    s.KeepsArguments m₀ ⟨U, .host, true, true⟩ embedding fs f p args where
  goesOn hleads := (hruns.leads hU.isCatalog (fun name => (hosts name).script) hs hk hleads).2.2.1
  yields hleads hstays hjob hstep := by
    obtain ⟨hs', hk', hruns', -⟩ := hruns.leads hU.isCatalog (fun name => (hosts name).script) hs hk hleads
    obtain ⟨j, g, c, h, -⟩ := hs'.atWork rfl hjob
    exact hruns'.yield hU.isCatalog (fun name => (hosts name).script) hs'.machine hk' h
      (fun hown h => hstays ⟨_, _, hjob, hown, h⟩) hstep
  lasts {i v s'} hi hv hleads := by
    have hwindow : f.base ≤ f.top := (Nat.le_add_right ..).trans hf.base_add_le_top
    have hlasts := hruns.lasts hU.isCatalog hosts hwindow hs hk hi hv hleads
    obtain ⟨hs', hk', hruns', howner⟩ := hruns.leads hU.isCatalog (fun name => (hosts name).script) hs hk
      (Stage.LeadsWhile.imp hleads fun _ => And.left)
    refine ⟨hlasts, fun {k d a} heq hstays hassigns => ?_⟩
    rw [← howner] at hlasts hassigns ⊢
    exact hruns'.step_lasts hU.isCatalog hosts hwindow hs' hk' hi hstays hassigns hlasts heq
  vararg hvs {s' k d a x y after} hleads hreaches hjob hown hproto hpc hfetch := by
    have hwindow : f.base ≤ f.top := (Nat.le_add_right ..).trans hf.base_add_le_top
    obtain ⟨hs', hk', hruns', howner⟩ := hruns.leads hU.isCatalog (fun name => (hosts name).script) hs hk
      (Stage.LeadsWhile.imp hleads fun _ => And.left)
    obtain ⟨j, g, c, h, -⟩ := hs'.atWork rfl hjob
    obtain ⟨pc, hfs⟩ := hruns'.atop hown
    obtain ⟨below, hbelow, -⟩ := h.exists_frames rfl
    obtain ⟨rfl, hg⟩ := List.append_inj' (hbelow.symm.trans hfs) rfl
    obtain rfl := List.singleton_inj.1 hg
    have hlength := hf.length_surplus
    have hle := hf.surplus_le_base
    have hvs' : HoldsFrom s'.machine.running.stack (f.base - f.surplus) (p.surplus args) := by
      intro i hi
      have hv := hvs i hi
      rw [List.getElem?_eq_getElem hi, ← Machine.slot?_running] at hv
      have hlasts := hruns.lasts hU.isCatalog hosts hwindow hs hk (by omega) hv
        (Stage.LeadsWhile.imp hleads fun _ h => ⟨h.1, h.2 _ (by omega) (by omega)⟩)
      rw [← howner, Machine.slot?_running] at hlasts
      rw [hlasts, List.getElem?_eq_getElem hi]
    have hfits := h.fits hU hs'.machine (hproto.symm ▸ hpc) hfetch
    rw [hproto] at hfits
    have hlast := hfits.vararg_le
    have htop := hf.base_add_le_top
    have hstack : f.top ≤ s'.machine.running.stack.size := by
      refine (hreaches.limited hU hm₀ hlimited).running.windows { f with pc := pc } ?_
      rw [← Array.mem_toList_iff, hfs]
      simp
    exact Activation.step_vararg hfetch hfs h.base hvs' hlength hle
      (show f.base + x + (y - 1) ≤ s'.machine.running.stack.size by omega) embedding (run embedding k)

theorem Machine.keepsArguments {o : Options} (hm₀ : m₀.Sound U true) (hlimited : m₀.Limited o)
    (hm : m.Steady ⟨U, true, fun _ => False⟩ ts) (hk : m.Kempt true true) (hk' : m.Kempt true false)
    (hlua : f.isLua = true) (fuel : Nat) :
    m.KeepsArguments m₀ ⟨U, true, fun _ => False⟩ true embedding fuel fs f p args where
  running hm hready hruns := hruns.keepsArguments hU hosts hf hm₀ hlimited ⟨hm, hready⟩ hk'
  enclosing {s cell i} hs hruns hcell hi := by
    have hopen := ((hm.indexes hk hs).mem_iff cell i).2 hcell
    obtain ⟨g, hg, hcovers⟩ := (hk.of_holds hs).covered rfl _ hopen
    refine ⟨g, ?_, hcovers⟩
    obtain ⟨f', rest, hfs, hf'⟩ := hruns.frame
    rw [hfs, List.mem_append, List.mem_cons] at hg
    rcases hg with hg | rfl | hg
    · exact hg
    · have hbase := hcovers.base
      rw [hf'] at hbase
      exact absurd hi (Nat.not_lt.2 hbase)
    · have habove := hruns.serves.frames g (by
        rw [hfs, List.drop_append, List.drop_of_length_le (Nat.le_succ _), Nat.add_sub_cancel_left]
        exact hg)
      exact absurd hi (Nat.not_lt.2 (habove.base.trans hcovers.base))
  asleep hc hs hruns := Machine.undisturbed hU.isCatalog hosts hk' hc hs fun _ _ _ => hruns.rests
  resumed {c s} hc hs hruns hnative vs := by
    obtain ⟨hrunning, -⟩ := Machine.running_resumed hm hc hs
    have hframes : (m.resumed c).running.frames ≠ #[] := fun hnil => by
      rw [← hrunning] at hruns
      have hlt := hruns.lt_depth
      rw [Machine.depth, hnil] at hlt
      simp at hlt
    refine (hruns.resumed hU.isCatalog hk' hm hlua hc hs vs).symm.imp_right ?_
    rintro ⟨m', hwake, hm', hkempt, hbelow, hruns'⟩
    refine ⟨m', ?_, hbelow, ?_⟩
    · rw [resume_of_frames _ vs hc hnative hframes, Action.bind_ok hwake]
    · exact hruns'.keepsArguments (s := ⟨fuel, .execute 0, m'⟩) hU hosts hf hm₀ hlimited ⟨hm', trivial⟩ hkempt

end

/-- A function that is entered finds its arguments in its registers, and `VARARG` gives the surplus ones as they
came, whatever has been run since then, unless they were assigned to through upvalues. -/
theorem arguments_reach_callee {U : Prototype → Prop} (hU : IsProgram U) {heap : Heap} {number cache : Nat}
    {options : Options} (hblank : (Machine.create heap number cache options).Blank)
    (hosts : ∀ name, Tame ⟨U, .host, true, true⟩ True (embedding name)) {unit : Option CompiledUnit}
    {wanted : Option Nat} {tail : Bool} {u : Unit} (h : enterLua c unit slot n wanted tail m = .ok u m') :
    ∃ f t, m'.running.frames.toList = m.running.frames.toList ++ [f] ∧
      f = calleeFrame c unit slot n wanted tail (m.heap.closure c).proto f.base f.top ∧
      f.Receives (m.heap.closure c).proto (m.running.values (slot + 1) n) t m'.running.stack ∧
      ((m.heap.closure c).proto.isVararg = true → (m.heap.closure c).proto.needsArg = true →
        (m'.heap.table t).Lists ((m.heap.closure c).proto.surplus (m.running.values (slot + 1) n))) ∧
      HoldsFrom m'.running.stack (f.base - f.surplus)
        ((m.heap.closure c).proto.surplus (m.running.values (slot + 1) n)) ∧
      m'.running.Runs m.running.frames.toList f ∧
      ∀ fuel m₁, (Machine.create heap number cache options).Reaches ⟨U, .host, true, true⟩ m₁ →
        m₁.KeepsArguments (.create heap number cache options) ⟨U, true, fun _ => False⟩ true embedding fuel
          m.running.frames.toList f (m.heap.closure c).proto (m.running.values (slot + 1) n) := by
  obtain ⟨f, t, hframes, hf, hreceives, htable⟩ := enterLua_receives h
  refine ⟨f, t, hframes, hf, hreceives, htable, hreceives.holdsFrom_surplus, .of_append hframes,
    fun fuel m₁ hreaches => ?_⟩
  have hlua : f.isLua = true := by
    rw [hf]
    rfl
  have hm₁ := hreaches.occurs (.blank hblank rfl)
  obtain ⟨ts, hsteady⟩ := hm₁.reachable.steady hU.isCatalog
  exact Machine.keepsArguments hU hosts hreceives (hblank.toFresh.sound U true) hblank.limited_create hsteady
    (hm₁.kempt_verified hU) (hm₁.kempt hU.isCatalog) hlua fuel

/-! A function that gives back its surplus arguments -/

def Prototype.spread : Prototype :=
  { Prototype.empty "=spread" with
    paramCount := 1
    varargFlags := 2
    maxStack := 3
    code := #[(Instruction.abc .vararg 0 3 0).word, (Instruction.abc .ret 0 3 0).word] }

theorem Prototype.spread_verified : spread.Verified := rfl

/-- The function is about to be called with two arguments, or to make its first step. -/
def Errand.spread (fuel : Nat) : Errand ⟨Prototype.spread.Contains, .host, true, true⟩ where
  script := loadAndCall .spread [.bool true, .bool false]
  isScript := .loadAndCall Prototype.spread.contains_self rfl _
  embedding := fun _ _ => pure 0
  hosts := fun _ => .pure 0
  fuel := fuel

def Machine.spreading (fuel : Nat) : Machine := ((Errand.spread fuel).outcome .narrow).state

def Activation.spread : Activation := ⟨⟨⟨.spread, #[], ⟨0⟩, none⟩, 3⟩, .interpreter, 0⟩

def Frame.spread : Frame := ⟨.lua ⟨0⟩, none, 0, 3, 6, 0, none, 2, 1, false⟩

theorem Machine.spreading_atWork {U : Prototype → Prop} :
    Regime.AtWork ⟨U, true, fun _ => False⟩ 0 0 .spread (.spreading 2) .spread ⟨0⟩ where
  frame := rfl
  depth := le_rfl
  closure := rfl
  base := rfl
  proto := rfl
  engine := .inl rfl
  unit := nofun
  top _ := by decide +kernel

theorem arguments_reach_callee_spreading : ∃ m',
    step (fun _ _ => pure 0) (run (fun _ _ => pure 0) 9) .spread (.spreading 2) =
        .ok (some { Activation.spread with pc := 1 }) m' ∧
      HoldsFrom m'.running.stack 3 [.bool false, .nil] := by
  have hprogram : IsProgram Prototype.spread.Contains :=
    Prototype.spread_verified.isProgram (Prototype.coherent_of_children rfl)
  have hsucceeds : Outcome.succeeds (enterLua ⟨0⟩ none 0 2 none false (.spreading 0)) = true := by
    decide +kernel
  cases henter : enterLua ⟨0⟩ none 0 2 none false (.spreading 0) with
  | error e m' => simp [henter, Outcome.succeeds] at hsucceeds
  | ok u m' =>
    have hosts : ∀ name, Tame ⟨Prototype.spread.Contains, .host, true, true⟩ True
        ((fun _ _ => pure 0 : Embedding) name) := fun _ => .pure 0
    obtain ⟨f, t, -, hf, hreceives, -, -, -, hkeeps⟩ :=
      arguments_reach_callee hprogram Machine.narrow_blank hosts henter
    have hargs : (Machine.spreading 0).running.values 1 2 = [.bool true, .bool false] := rfl
    have hproto : ((Machine.spreading 0).heap.closure ⟨0⟩).proto = .spread := rfl
    rw [hargs, hproto] at hreceives hkeeps
    rw [hproto] at hf
    obtain rfl : f = .spread := by
      have hslot : f.slot = 0 := by
        rw [hf]
        rfl
      rw [hf, hreceives.top, hreceives.base, hslot]
      rfl
    have hreaches : Machine.narrow.Reaches ⟨Prototype.spread.Contains, .host, true, true⟩ (.spreading 2) :=
      ⟨_, .spread 2, fun _ => False, .start, by rw [Errand.upTo_never]; rfl⟩
    have hoccurs := hreaches.occurs (.blank Machine.narrow_blank rfl)
    obtain ⟨ts, hsteady⟩ := hoccurs.reachable.steady hprogram.isCatalog
    have hready : Regime.Ready ⟨Prototype.spread.Contains, true, fun _ => False⟩ ts (.spreading 2)
        (.proceed 0 .spread) := ⟨fun _ _ => id, 0, .spread, ⟨0⟩, Machine.spreading_atWork⟩
    have hkept := (hkeeps 9 _ hreaches).running hsteady hready (.of_append rfl)
    have hheld : HoldsFrom (Machine.spreading 2).running.stack 2 [.bool false] := by
      intro k hk
      obtain rfl : k = 0 := by simpa using hk
      rfl
    have hvararg := hkept.vararg hheld (k := 9) .refl hreaches rfl (by decide +kernel) rfl
      (Prototype.isInstruction_zero (by decide)) rfl
    obtain ⟨m'', hstep, -, hspreads⟩ := hvararg.resolve_right fun h => absurd h.1 (by decide)
    exact ⟨m'', hstep, hspreads.values⟩

end LuaMachine
