import LuaMachine.Proofs.CallFloor
import LuaMachine.Proofs.Stages

/-!
What a step does to the frames. The frame at work goes on, waits for a function that it has called, gives way to
one that it calls in its place, or returns; those below it stay. What lies below a slot keeps its values as long
as all that is above a depth lies above that slot.
-/

namespace LuaMachine

variable {S : Regime} {ts : List CoroutineId} {m m' : Machine} {d j n x y z slot k : Nat} {a : Activation}
  {f g : Frame} {fs below : List Frame} {c : ClosureId} {wanted : Option Nat} {embedding : Embedding} {run : Run}
  {o : Option Activation} {K : Frame → Prop}

/-! Frames that are entered -/

theorem topFrame?_of_enterLua {unit : Option CompiledUnit} {tail : Bool} {u : Unit}
    (h : enterLua c unit slot n wanted tail m = .ok u m') :
    ∃ g, m'.topFrame? = some g ∧ g.slot = slot ∧ g.wanted = wanted := by
  rw [enterLua_eq] at h
  obtain ⟨⟨p, base, top⟩, m₁, -, hpush⟩ := Action.bind_eq_ok.1 h
  obtain ⟨-, rfl⟩ := EStateM.Result.ok.inj hpush
  exact ⟨_, topFrame?_of_append (m₁.frames_pushed _), rfl, rfl⟩

theorem topFrame?_of_startCall (h : startCall embedding run slot n wanted m = .ok .pushed m') :
    ∃ g, m'.topFrame? = some g ∧ g.slot = slot ∧ g.wanted = wanted := by
  obtain ⟨⟨target, n⟩, m₁, -, h⟩ := Action.bind_eq_ok.1 h
  cases target with
  | host f =>
    obtain ⟨u, m₂, -, h⟩ := Action.bind_eq_ok.1 h
    cases h
  | lua c unit =>
    obtain ⟨u, m₂, henter, h⟩ := Action.bind_eq_ok.1 h
    obtain ⟨-, rfl⟩ := EStateM.Result.ok.inj h
    exact topFrame?_of_enterLua henter

theorem topFrame?_of_replaceFrame {unit : Option CompiledUnit} {u : Unit}
    (hfs : m.running.frames.toList = fs ++ [f]) (h : replaceFrame c unit slot n m = .ok u m') :
    ∃ g, m'.topFrame? = some g ∧ g.slot = f.slot ∧ g.wanted = f.wanted := by
  rw [replaceFrame_of_append hfs] at h
  obtain ⟨_, m₁, -, henter⟩ := Action.bind_eq_ok.1 h
  exact topFrame?_of_enterLua henter

theorem topFrame?_of_startTailCall (hS : IsCatalog S.program) (hm : m.Steady S ts)
    (hslot : m.running.Floor slot) (hfs : m.running.frames.toList = fs ++ [f])
    (h : startTailCall embedding run slot n m = .ok .pushed m') :
    ∃ g, m'.topFrame? = some g ∧ g.slot = f.slot ∧ g.wanted = f.wanted := by
  obtain ⟨⟨target, n'⟩, m₁, hresolve, h⟩ := Action.bind_eq_ok.1 h
  have hends := resolveCall_ends hS hm hslot Limit.metaSteps n 0
  rw [hresolve] at hends
  obtain ⟨-, -, hfs₁, -⟩ := hends
  cases target with
  | host f =>
    obtain ⟨u, m₂, -, h⟩ := Action.bind_eq_ok.1 h
    cases h
  | lua c unit =>
    obtain ⟨u, m₂, hreplace, h⟩ := Action.bind_eq_ok.1 h
    obtain ⟨-, rfl⟩ := EStateM.Result.ok.inj h
    exact topFrame?_of_replaceFrame (hfs₁ ▸ hfs) hreplace

theorem perform_call_eq_ok {w : Window} {flow : Flow}
    (h : perform embedding run w (.call x y z) m = .ok flow m') :
    ∃ n m₁ o, w.callArgs x y m = .ok n m₁ ∧
      startCall embedding run (w.base + x) n (wantedBy z) m₁ = .ok o m' ∧ flow = o.flow := by
  obtain ⟨n, m₁, hargs, h⟩ := Action.bind_eq_ok.1 h
  rw [← bind_pure_comp] at h
  obtain ⟨o, m₂, hstart, h⟩ := Action.bind_eq_ok.1 h
  obtain ⟨rfl, rfl⟩ := EStateM.Result.ok.inj h
  exact ⟨n, m₁, o, hargs, hstart, rfl⟩

theorem perform_tailCall_eq_ok {w : Window} {flow : Flow}
    (h : perform embedding run w (.tailCall x y) m = .ok flow m') :
    ∃ n m₁ o, w.callArgs x y m = .ok n m₁ ∧
      startTailCall embedding run (w.base + x) n m₁ = .ok o m' ∧ flow = o.flow := by
  obtain ⟨n, m₁, hargs, h⟩ := Action.bind_eq_ok.1 h
  rw [← bind_pure_comp] at h
  obtain ⟨o, m₂, hstart, h⟩ := Action.bind_eq_ok.1 h
  obtain ⟨rfl, rfl⟩ := EStateM.Result.ok.inj h
  exact ⟨n, m₁, o, hargs, hstart, rfl⟩

/-! One step -/

/-- What a step of the frame on top makes of the frames: it is still there, alone or with one for the function
it has called on top, another one has its place, or it is gone. -/
inductive Activation.Reframes (a : Activation) (fs : List Frame) (f : Frame) :
    Option Activation → List Frame → Prop
  | stays (a' : Activation) : a.Reframes fs f (some a') (fs ++ [{ f with pc := a.pc + 1 }])
  | calls {x y z after : Nat} {g : Frame} (hfetch : a.fetch? = some ⟨.call x y z, after⟩)
    (hslot : g.slot = a.window.base + x) (hwanted : g.wanted = wantedBy z) :
    a.Reframes fs f none (fs ++ [{ f with pc := a.pc + 1 }, g])
  | gives {x y after : Nat} {g : Frame} (hfetch : a.fetch? = some ⟨.tailCall x y, after⟩)
    (hslot : g.slot = f.slot) (hwanted : g.wanted = f.wanted) :
    a.Reframes fs f none (fs ++ [g])
  | returns {x y after : Nat} (hfetch : a.fetch? = some ⟨.ret x y, after⟩) : a.Reframes fs f none fs

section

variable (hS : IsCatalog S.program) (hrun : S.Engines run run) {strict : Bool}
  (hembedding : ∀ name, Script (S.host strict) (embedding name)) (hhonest : S.honest = true)
  (hm : m.Steady S ts) (hawake : S.Awake ts) (h : S.AtWork d j a m f c)

include hS hrun hm hawake h

/-- The arguments of a call are counted, and the frames are as they were. -/
theorem Regime.AtWork.callArgs_ends {m₁ : Machine} (hhonest : S.honest = true)
    (hargs : a.window.callArgs x y m = .ok n m₁) :
    m₁.Steady S ts ∧ m₁.running.frames = m.running.frames ∧ S.AtWork d j a m₁ f c := by
  have hends := (h.script_paired hS hrun hm hawake (.callArgs rfl x y) .data).right
  rw [hargs] at hends
  obtain ⟨hm₁, -, hk₁, hfs₁⟩ := hends
  exact ⟨hm₁, hfs₁ hhonest, h.after hm hk₁ hfs₁⟩

include hembedding hhonest

theorem Regime.AtWork.reframes (hfs : m.running.frames.toList = fs ++ [f])
    (hstep : step embedding run a m = .ok o m') : a.Reframes fs f o m'.running.frames.toList := by
  cases hfetch : a.fetch? with
  | none =>
    obtain ⟨e, m₁, hfails, -⟩ := Activation.step_of_fetch_none embedding h.portable hfetch m
    cases (hfails run).symm.trans hstep
  | some fetched =>
    obtain ⟨op, after⟩ := fetched
    obtain ⟨f₁, h₁, -⟩ := h.atPc (a.pc + 1)
    have hm₁ := hm.atPc (a.pc + 1)
    have hfs₁ := Setting.toList_frames_atPc hfs (a.pc + 1)
    rw [Activation.step_of_fetch embedding run hfetch] at hstep
    generalize m.atPc (a.pc + 1) = m₁ at h₁ hm₁ hfs₁ hstep
    cases hperform : perform embedding run a.window op m₁ with
    | error e m₂ =>
      rw [hperform] at hstep
      cases hstep
    | ok flow m₂ =>
      rw [hperform] at hstep
      obtain ⟨rfl, rfl⟩ := EStateM.Result.ok.inj hstep
      by_cases hop : op.isControl = true
      · cases op with
        | call x y z =>
          obtain ⟨n, m₂, out, hargs, hstart, rfl⟩ := perform_call_eq_ok hperform
          obtain ⟨hm₂, hfs₂, h₂⟩ := h₁.callArgs_ends hS hrun hm₁ hawake hhonest hargs
          have hslot := (h₂.floor hm₂).mono (Nat.le_add_right _ x)
          have hcall : S.Ends ts m₂.depth m₂ (S.Started (a.window.base + x) m₂) _
              (startCall embedding run (a.window.base + x) n (wantedBy z) m₂) :=
            (startCall_paired hS hrun hembedding hm₂ hslot n
              (.inl ⟨hawake, fun _ => Nat.zero_lt_of_lt h₂.lt_depth⟩)).right
          rw [hstart] at hcall
          obtain ⟨-, -, hstarted⟩ := hcall
          cases out with
          | done =>
            rw [hstarted.2 hhonest, hfs₂, hfs₁]
            exact .stays _
          | pushed =>
            obtain ⟨g, htop, hslot, hwanted⟩ := topFrame?_of_startCall hstart
            obtain ⟨g', hfs'⟩ := hstarted
            obtain rfl := Option.some.inj (htop.symm.trans (topFrame?_of_append hfs'))
            rw [hfs', hfs₂, hfs₁, List.append_assoc]
            exact .calls hfetch hslot hwanted
        | tailCall x y =>
          obtain ⟨n, m₂, out, hargs, hstart, rfl⟩ := perform_tailCall_eq_ok hperform
          obtain ⟨hm₂, hfs₂, h₂⟩ := h₁.callArgs_ends hS hrun hm₁ hawake hhonest hargs
          have hcall := (startTailCall_paired hS hrun hembedding hm₂ hawake (hfs₂ ▸ hfs₁)
            ((h₂.floor hm₂).mono (Nat.le_add_right _ x)) n).right
          rw [hstart] at hcall
          obtain ⟨-, -, hcontinued⟩ := hcall
          cases out with
          | done =>
            rw [hcontinued.2 hhonest, hfs₂, hfs₁]
            exact .stays _
          | pushed =>
            obtain ⟨g, htop, hslot, hwanted⟩ := topFrame?_of_startTailCall hS hm₂
              ((h₂.floor hm₂).mono (Nat.le_add_right _ x)) (hfs₂ ▸ hfs₁) hstart
            obtain ⟨g', hfs'⟩ := hcontinued
            obtain rfl := Option.some.inj (htop.symm.trans (topFrame?_of_append hfs'))
            rw [hfs']
            exact .gives hfetch hslot hwanted
        | ret x y =>
          have hret := return_ends hS hm₁ h₁ embedding run x y
          rw [hperform] at hret
          obtain ⟨-, -, rfl, hfs'⟩ := hret
          rw [hfs', hfs₁, List.dropLast_concat]
          exact .returns hfetch
        | _ => simp [Operation.isControl] at hop
      · have hends : S.Ends ts d m₁ _ _ (perform embedding run a.window op m₁) :=
          (h₁.operation_paired hS hrun hm₁ hawake (Bool.not_eq_true _ ▸ hop)).right
        rw [hperform] at hends
        rw [hends.2.2.2 hhonest, hfs₁]
        cases flow with
        | leave => exact absurd (perform_within embedding run a.window op a.pc _ _ _ hperform) hop
        | _ => exact .stays _

omit hhonest in
/-- Frames below the one at work are kept. -/
theorem Regime.AtWork.step_keeps (hn : n ≤ j) {r : Outcome (Option Activation)}
    (hstep : step embedding run a m = r) (hend : ∀ e m', r = .error e m' → e.isFatal = false) :
    r.state.Steady S ts ∧ m.Keeps S n r.state := by
  have hends := (step_paired hS hrun hembedding hm hawake { h with depth := hn }).right
  rw [hstep] at hends
  cases r with
  | ok o m' => exact ⟨hends.1, hends.2.1⟩
  | error e m' =>
    obtain ⟨hm', hk, -⟩ := hends.2.resolve_left fun hfatal => by simp [hend e m' rfl] at hfatal
    exact ⟨hm', hk⟩

end

/-! Frames that stay -/

/-- A frame of some kind lies directly on given ones, whatever lies on it. -/
def Strand.Bears (fs : List Frame) (K : Frame → Prop) (s : Strand) : Prop :=
  ∃ g rest, s.frames.toList = fs ++ g :: rest ∧ K g

/-- A frame is of some kind wherever it is in its code. -/
def Frame.Placeless (K : Frame → Prop) : Prop := ∀ f pc, K f → K { f with pc := pc }

theorem Strand.Bears.lt_size {s : Strand} (h : s.Bears fs K) : fs.length < s.frames.size := by
  obtain ⟨g, rest, hfs, -⟩ := h
  rw [← Array.length_toList, hfs, List.length_append, List.length_cons]
  omega

theorem Strand.Bears.rests {s s' : Strand} {h h' : Heap} (hb : s.Bears fs K) (hr : s.Rests h h' s') :
    s'.Bears fs K := by
  obtain ⟨g, rest, hfs, hg⟩ := hb
  exact ⟨g, rest, hr.frames ▸ hfs, hg⟩

/-- What keeps the frames up to that one keeps it. -/
theorem Strand.Bears.keeps (hb : m.running.Bears fs K) (hk : m.Keeps S (fs.length + 1) m') :
    m'.running.Bears fs K := by
  obtain ⟨g, rest, hfs, hg⟩ := hb
  obtain ⟨rest', hrest'⟩ := hk.frames
  have htake : m.running.frames.toList.take (fs.length + 1) = fs ++ [g] := by
    rw [hfs, List.take_length_add_append]
    rfl
  exact ⟨g, rest', by rw [← hrest', htake, List.append_assoc, List.singleton_append], hg⟩

section

variable (hS : IsCatalog S.program) (hrun : S.Engines run run) {strict : Bool}
  (hembedding : ∀ name, Script (S.host strict) (embedding name)) (hhonest : S.honest = true)
  (hm : m.Steady S ts) (hawake : S.Awake ts) (h : S.AtWork d j a m f c) (hK : Frame.Placeless K)
  (hb : m.running.Bears fs K)

include hS hrun hembedding hhonest hm hawake h hK hb

/-- A frame stays until it gives way to another one or returns. -/
theorem Strand.Bears.step (hstep : step embedding run a m = .ok o m') :
    m'.running.Bears fs K ∨ m.running.frames.toList = fs ++ [f] ∧ K f ∧
      ((∃ x y after, a.fetch? = some ⟨.ret x y, after⟩ ∧ m'.running.frames.toList = fs) ∨
        ∃ x y after g, a.fetch? = some ⟨.tailCall x y, after⟩ ∧
          m'.running.frames.toList = fs ++ [g] ∧ g.slot = f.slot ∧ g.wanted = f.wanted) := by
  obtain ⟨below, hbelow, hj⟩ := h.exists_frames hhonest
  obtain ⟨g, rest, hfs, hg⟩ := hb
  rcases List.eq_nil_or_concat rest with rfl | ⟨rest', top, rfl⟩
  · obtain ⟨rfl, heq⟩ := List.append_inj' (hbelow.symm.trans hfs) rfl
    obtain rfl := List.singleton_inj.1 heq
    have hreframes := h.reframes hS hrun hembedding hhonest hm hawake hfs hstep
    generalize hfs' : m'.running.frames.toList = fs' at hreframes
    cases hreframes with
    | stays => exact .inl ⟨_, [], hfs', hK _ _ hg⟩
    | calls => exact .inl ⟨_, [_], hfs', hK _ _ hg⟩
    | @gives x y after g hfetch hslot hwanted =>
      exact .inr ⟨hfs, hg, .inr ⟨x, y, after, g, hfetch, rfl, hslot, hwanted⟩⟩
    | @returns x y after hfetch => exact .inr ⟨hfs, hg, .inl ⟨x, y, after, hfetch, rfl⟩⟩
  · have hlength := congrArg List.length (hbelow.symm.trans hfs)
    simp only [List.length_append, List.length_cons, List.length_nil, List.concat_eq_append] at hlength
    have hj' : fs.length + 1 ≤ j := by omega
    have hkeeps := h.step_keeps hS hrun hembedding hm hawake hj' hstep fun _ _ heq => by cases heq
    exact .inl (Strand.Bears.keeps ⟨g, _, hfs, hg⟩ hkeeps.2)

theorem Strand.Bears.yield (hstep : LuaMachine.step embedding run a m = .error .yield m') :
    m'.running.Bears fs K := by
  obtain ⟨-, -, below, x, y, z, after, hbelow, -, hstopped⟩ :=
    h.yields hS hrun hembedding hhonest hm hawake hstep
  obtain ⟨host, hfs', -⟩ := hstopped.called
  obtain ⟨g, rest, hfs, hg⟩ := hb
  rcases List.eq_nil_or_concat rest with rfl | ⟨rest', top, rfl⟩
  · obtain ⟨rfl, heq⟩ := List.append_inj' (hbelow.symm.trans hfs) rfl
    obtain rfl := List.singleton_inj.1 heq
    exact ⟨_, [host], hfs', hK _ _ hg⟩
  · rw [List.concat_eq_append, ← List.cons_append, ← List.append_assoc] at hfs
    obtain ⟨rfl, -⟩ := List.append_inj' (hbelow.symm.trans hfs) rfl
    exact ⟨g, _, by rw [hfs', List.append_assoc]; rfl, hg⟩

end

/-- Waking takes away the frame on top. -/
theorem Strand.Bears.wake {host : Frame} {args : List Value} {u : Unit} (hb : m.running.Bears fs K)
    (hfs : m.running.frames.toList = below ++ [host]) (hslot : host.slot ≤ m.running.top)
    (hwake : LuaMachine.wake args m = .ok u m') :
    m'.running.Bears fs K ∨ below = fs ∧ K host := by
  rcases wake_delivers hfs hslot args with ⟨stack, hok, -⟩ | ⟨m₁, herror⟩
  · obtain rfl := (EStateM.Result.ok.inj (hwake.symm.trans hok)).2
    have hfs' := m.frames_popped
    rw [hfs, List.dropLast_concat] at hfs'
    obtain ⟨g, rest, hg, hK⟩ := hb
    rcases List.eq_nil_or_concat rest with rfl | ⟨rest', top, rfl⟩
    · obtain ⟨rfl, heq⟩ := List.append_inj' (hfs.symm.trans hg) rfl
      exact .inr ⟨rfl, List.singleton_inj.1 heq ▸ hK⟩
    · rw [List.concat_eq_append, ← List.cons_append, ← List.append_assoc] at hg
      obtain ⟨rfl, -⟩ := List.append_inj' (hfs.symm.trans hg) rfl
      exact .inl ⟨g, rest', hfs', hK⟩
  · cases hwake.symm.trans herror

/-! What lies below a slot -/

section

variable {U : Prototype → Prop} (hU : IsCatalog U) {strict : Bool} {fuel i : Nat} {v : Value}
  (hm : m.Steady ⟨U, true, fun _ => False⟩ ts) (hk : m.Kempt true false)
  (h : Regime.AtWork ⟨U, true, fun _ => False⟩ d j a m f c)

include hU hm hk h

/-- A step of a frame above a depth leaves all that is above it above a slot. -/
theorem Regime.AtWork.step_serves (hosts : ∀ name, Script ⟨U, .host, true, strict⟩ (embedding name))
    (hn : n ≤ j) (hserves : m.running.Serves n slot) {r : Outcome (Option Activation)}
    (hstep : step embedding (LuaMachine.run embedding fuel) a m = r) :
    r.state.Kempt true false ∧
      ((∀ e m', r = .error e m' → e.isFatal = false) → r.state.running.Serves n slot) := by
  let C : Custody := ⟨⟨U, true, fun _ => False⟩, fun _ _ => False, false⟩
  have hfree : ¬ C.Strict := fun ⟨_, _, h⟩ => h
  have hminds : C.Minds (LuaMachine.run embedding fuel) :=
    Custody.minds_run (C := C) hU hfree (fun _ => id) rfl hosts fuel
  have htends := step_tends (C := C) (L := ⟨n, slot, m.running.openCells⟩) hU hminds
    (fun name => (hosts name).tame rfl hfree) hm hk (.of_serves hserves rfl) { h with depth := hn } le_rfl
    (fun _ _ => id) (fun _ _ => False.elim) nofun
  rw [hstep] at htends
  exact ⟨htends.kempt, fun hend => (htends.leased hend).serves⟩

/-- What lies below that slot has the same value after the step, unless something is assigned to it. -/
theorem Regime.AtWork.step_lasts (hosts : ∀ name, Tame ⟨U, .host, true, strict⟩ True (embedding name))
    (hn : n ≤ j) (hserves : m.running.Serves n slot) (hi : i < slot)
    (hassigns : ¬ a.Assigns m m.running.owner i)
    (halways : Always embedding (fun t => ¬ t.Assigns m.running.owner i) fuel
      (fun run => step embedding run a) m)
    (hv : m.slot? m.running.owner i = some v) :
    (Outcome.state (step embedding (LuaMachine.run embedding fuel) a m)).slot? m.running.owner i = some v := by
  have hlasts : Lasts embedding fuel (fun _ => False) m.running.owner i (fun run => step embedding run a) m := by
    refine lasts_of_tends hU hosts (L := ⟨n, slot, m.running.openCells⟩) hi fun _ _ hminds => ?_
    refine step_tends hU hminds (Custody.hosts_ofSlot hosts _ i) hm hk (.of_serves hserves rfl)
      { h with depth := hn } le_rfl (fun _ _ => id) ?_ nofun
    rintro _ _ ⟨rfl, rfl⟩
    exact hassigns
  exact hlasts.of_always halways hv

end

namespace Stage

/-- A run comes from one stage to another, and something is true of all stages but the last. -/
def LeadsWhile (embedding : Embedding) (Q : Stage → Prop) : Stage → Stage → Prop :=
  Relation.ReflTransGen fun s s' => Q s ∧ Next embedding s s'

/-- Before the next stage something is assigned to a slot through an upvalue. -/
def Assigns (embedding : Embedding) (o : Owner) (i : Nat) (s : Stage) : Prop :=
  ∃ k d a, s.fuel = k + 1 ∧ s.job = .proceed d a ∧ (a.Assigns s.machine o i ∨
    ¬ Always embedding (fun t => ¬ t.Assigns o i) k (fun run => step embedding run a) s.machine)

variable {s s' : Stage} {Q Q' : Stage → Prop}

theorem LeadsWhile.imp (h : LeadsWhile embedding Q s s') (hQ : ∀ s, Q s → Q' s) :
    LeadsWhile embedding Q' s s' :=
  Relation.ReflTransGen.mono (r := fun s s' => Q s ∧ Next embedding s s') (fun s _ h => ⟨hQ s h.1, h.2⟩) _ _ h

/-- What is about to make a step is the frame on top. -/
theorem Steady.atWork (hhonest : S.honest = true) (hs : s.Steady S ts) (hjob : s.job = .proceed d a) :
    ∃ j f c, S.AtWork d j a s.machine f c ∧ s.machine.depth = j + 1 := by
  have hready := hs.ready
  rw [hjob] at hready
  obtain ⟨-, j, f, c, h⟩ := hready
  exact ⟨j, f, c, h, h.top hhonest⟩

/-- One stage after another: nothing has happened but that a frame was taken up, or a step was made. -/
theorem Next.cases (h : Next embedding s s') : s'.machine = s.machine ∨ ∃ k d a o,
    s = ⟨k + 1, .proceed d a, s.machine⟩ ∧
    step embedding (LuaMachine.run embedding k) a s.machine = .ok o s'.machine := by
  cases h with
  | @takenUp k d a m m' hd h =>
    have hstate := state_activate m
    rw [h] at hstate
    exact .inl hstate
  | stepped h => exact .inr ⟨_, _, _, _, rfl, h⟩
  | left h => exact .inr ⟨_, _, _, _, rfl, h⟩

section

variable {U : Prototype → Prop} (hU : IsCatalog U) {strict : Bool} {i : Nat} {v : Value}
  (hs : s.Steady ⟨U, true, fun _ => False⟩ ts) (hk : s.machine.Kempt true false)
  (hnext : Next embedding s s')

include hU hs hk hnext

/-- Frames above a depth lie above a slot from stage to stage. -/
theorem Next.serves (hosts : ∀ name, Script ⟨U, .host, true, strict⟩ (embedding name))
    (hn : n < s.machine.depth) (hserves : s.machine.running.Serves n slot) :
    s'.machine.Kempt true false ∧ s'.machine.running.Serves n slot := by
  rcases hnext.cases with heq | ⟨k, d, a, o, heq, hstep⟩
  · rw [heq]
    exact ⟨hk, hserves⟩
  · obtain ⟨j, f, c, h, hdepth⟩ := hs.atWork rfl (congrArg Stage.job heq)
    have hstepped := h.step_serves hU hs.machine hk hosts (show n ≤ j by omega) hserves hstep
    exact ⟨hstepped.1, hstepped.2 fun _ _ heq => by cases heq⟩

/-- What lies below the slot keeps its value. -/
theorem Next.lasts (hosts : ∀ name, Tame ⟨U, .host, true, strict⟩ True (embedding name))
    (hn : n < s.machine.depth) (hserves : s.machine.running.Serves n slot) (hi : i < slot)
    (hassigns : ¬ s.Assigns embedding s.machine.running.owner i)
    (hv : s.machine.slot? s.machine.running.owner i = some v) :
    s'.machine.slot? s.machine.running.owner i = some v := by
  rcases hnext.cases with heq | ⟨k, d, a, o, heq, hstep⟩
  · rwa [heq]
  · obtain ⟨j, f, c, h, hdepth⟩ := hs.atWork rfl (congrArg Stage.job heq)
    have hno (hassign : a.Assigns s.machine s.machine.running.owner i ∨ ¬ Always embedding
        (fun t => ¬ t.Assigns s.machine.running.owner i) k (fun run => step embedding run a) s.machine) :
        False := hassigns ⟨k, d, a, congrArg Stage.fuel heq, congrArg Stage.job heq, hassign⟩
    have hlasts := h.step_lasts hU hs.machine hk hosts (show n ≤ j by omega) hserves hi
      (fun h => hno (.inl h)) (not_not.1 fun h => hno (.inr h)) hv
    rwa [hstep] at hlasts

omit hk in
theorem Next.owner (hosts : ∀ name, Script ⟨U, .host, true, strict⟩ (embedding name)) :
    s'.machine.running.owner = s.machine.running.owner := by
  rcases hnext.cases with heq | ⟨k, d, a, o, heq, hstep⟩
  · rw [heq]
  · obtain ⟨j, f, c, h, -⟩ := hs.atWork rfl (congrArg Stage.job heq)
    have hrun := engines_run (S := ⟨U, true, fun _ => False⟩) hU (fun _ => id) hosts k
    exact (h.step_keeps hU hrun hosts hs.machine (fun _ _ => id) le_rfl hstep fun _ _ heq => by cases heq).2.owner

end

section

variable {U : Prototype → Prop} (hU : IsCatalog U) {strict : Bool} {i : Nat} {v : Value}
  (hs : s.Steady ⟨U, true, fun _ => False⟩ ts) (hk : s.machine.Kempt true false)
  (hserves : s.machine.running.Serves n slot)

include hU hs hk hserves

/-- While there are more frames than a number, those above it lie above the slot. -/
theorem LeadsWhile.serves (hosts : ∀ name, Script ⟨U, .host, true, strict⟩ (embedding name))
    (h : LeadsWhile embedding (fun t => n < t.machine.depth) s s') :
    s'.Steady ⟨U, true, fun _ => False⟩ ts ∧ s'.machine.Kempt true false ∧ s'.machine.running.Serves n slot ∧
      s'.machine.running.owner = s.machine.running.owner := by
  induction h with
  | refl => exact ⟨hs, hk, hserves, rfl⟩
  | tail _ hnext ih =>
    obtain ⟨hdepth, hnext⟩ := hnext
    obtain ⟨hs₁, hk₁, hserves₁, howner⟩ := ih
    obtain ⟨hk₂, hserves₂⟩ := hnext.serves hU hs₁ hk₁ hosts hdepth hserves₁
    exact ⟨hnext.steady (S := ⟨U, true, fun _ => False⟩) hU (fun _ => id) hosts hs₁, hk₂, hserves₂,
      (hnext.owner hU hs₁ hosts).trans howner⟩

/-- Meanwhile what lies below the slot has the same value, unless something is assigned to it. -/
theorem LeadsWhile.lasts (hosts : ∀ name, Tame ⟨U, .host, true, strict⟩ True (embedding name)) (hi : i < slot)
    (hv : s.machine.slot? s.machine.running.owner i = some v)
    (h : LeadsWhile embedding
      (fun t => n < t.machine.depth ∧ ¬ t.Assigns embedding s.machine.running.owner i) s s') :
    s'.machine.slot? s.machine.running.owner i = some v := by
  induction h with
  | refl => exact hv
  | @tail s₁ s₂ hleads hnext ih =>
    obtain ⟨⟨hdepth, hassigns⟩, hnext⟩ := hnext
    obtain ⟨hs₁, hk₁, hserves₁, howner⟩ := LeadsWhile.serves hU hs hk hserves (fun name => (hosts name).script)
      (LeadsWhile.imp hleads fun _ => And.left)
    rw [← howner] at ih hassigns ⊢
    exact hnext.lasts hU hs₁ hk₁ hosts hdepth hserves₁ hi hassigns ih

end

end Stage

/-- A call leaves what lies below the called value as it is, unless something is assigned to it. -/
theorem Regime.AtWork.call_lasts {U : Prototype → Prop} (hU : IsCatalog U) {strict : Bool} {fuel after i : Nat}
    {v : Value} (hm : m.Steady ⟨U, true, fun _ => False⟩ ts) (hk : m.Kempt true false)
    (h : Regime.AtWork ⟨U, true, fun _ => False⟩ d j a m f c) (hfetch : a.fetch? = some ⟨.call x y z, after⟩)
    (hosts : ∀ name, Tame ⟨U, .host, true, strict⟩ True (embedding name)) (hi : i < a.window.base + x)
    (hv : m.slot? m.running.owner i = some v)
    (hassigns : ¬ Stage.Assigns embedding m.running.owner i ⟨fuel + 1, .proceed d a, m⟩) :
    (Outcome.state (step embedding (LuaMachine.run embedding fuel) a m)).slot? m.running.owner i = some v := by
  have hlasts : Lasts embedding fuel (fun _ => False) m.running.owner i (fun run => step embedding run a) m :=
    lasts_of_tends hU hosts (L := ⟨m.depth, a.window.base + x, m.running.openCells⟩) hi fun _ _ hminds =>
      (stepCall_tends hU (Custody.hosts_ofSlot hosts _ i) hminds hm hk (fun _ _ => id) h hfetch).1
  refine hlasts.of_always (not_not.1 fun halways => hassigns ?_) hv
  exact ⟨fuel, d, a, rfl, rfl, .inr halways⟩

end LuaMachine
