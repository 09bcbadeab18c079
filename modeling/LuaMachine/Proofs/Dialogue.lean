import LuaMachine.Proofs.CoroutineRun
import LuaMachine.Proofs.Interludes
import LuaMachine.Proofs.KeptArguments

/-!
Dialogues with coroutines. A coroutine is resumed time and again, and each time it runs until it yields, returns or
fails. Its body gets the arguments of the first resumption; what it yields goes to its resumer, and the arguments
of the next one are the results of the call in which it has stopped, where it goes on. What it returns goes to its
resumer in the end.
-/

namespace LuaMachine

/-- A resumption of a coroutine. -/
structure Exchange where
  before : Machine
  /-- The steps it may take after the first. -/
  fuel : Nat
  args : List Value
  /-- Slots of the stack to which something may have been assigned since the coroutine was suspended. -/
  assigned : Nat → Prop

/-- Where a coroutine is between resumptions. -/
inductive Standing
  | unstarted (body : ClosureId)
  | paused (p : Pause)
  | ended

/-- A call that has yielded is over: the frame below has the arguments of a resumption as the results of that
call, with all below them as it was, and goes on behind it. -/
structure Pause.Resumes (p : Pause) (args : List Value) (assigned : Nat → Prop) (m : Machine) : Prop where
  frames : m.running.frames.toList = p.below ++ [p.waiting]
  results : HoldsFrom m.running.stack p.slot (adjusted p.wanted args)
  top : m.running.top = p.wanted.elim (p.slot + args.length) fun _ => p.frame.top
  below : ∀ i v, i < p.slot → ¬ assigned i → p.machine.running.stack[i]? = some v →
    m.running.stack[i]? = some v
  goesOn : p.IsCall → p.GoesOn m

/-- How a resumption starts. -/
def Standing.Opens : Standing → List Value → (Nat → Prop) → Machine → Prop
  | unstarted body, args, _, m => m.Begins body args
  | paused p, args, assigned, m => p.Resumes args assigned m
  | ended, _, _, _ => False

namespace Exchange

variable (embedding : Embedding) (c : CoroutineId)

def outcome (x : Exchange) : Outcome (Bool × List Value) :=
  resume (run embedding (x.fuel + 1)) c x.args x.before

/-- The coroutine is suspended and can be resumed within the limits. -/
structure Admitted (x : Exchange) : Prop where
  suspended : (x.before.heap.coroutine c).status = .suspended
  limits : x.before.MayRouse embedding (run embedding x.fuel) c x.args

/-- From a stage on the coroutine runs, and its resumer gets what it yields or returns. -/
structure Runs (st : Standing) (x : Exchange) (s : Stage) : Prop where
  owner : s.machine.running.owner = .coroutine c
  job : s.job = .execute 0
  opens : st.Opens x.args x.assigned s.machine
  outcome : x.outcome embedding c =
    resumeEnds c x.before.current ((run embedding s.fuel s.job >>= fun _ => gather) s.machine)
  yields : ∀ {t p vs}, Stage.Leads embedding s t → t.YieldsAt embedding p vs →
    ∃ m', x.outcome embedding c = .ok (true, vs) m' ∧
      m'.heap.coroutine c = ⟨.suspended, some p.machine.running⟩
  returns : ∀ {t vs}, Stage.Leads embedding s t → t.ReturnsAt embedding vs →
    ∃ m', x.outcome embedding c = .ok (true, vs) m' ∧ m'.heap.IsDead c

/-- How a resumption has ended. -/
inductive Ends (x : Exchange) (s : Stage) : Standing → Prop
  | yields {t : Stage} {p : Pause} {vs : List Value} {m' : Machine} (hleads : Stage.Leads embedding s t)
    (h : t.YieldsAt embedding p vs) (houtcome : x.outcome embedding c = .ok (true, vs) m') : Ends x s (.paused p)
  | returns {t : Stage} {vs : List Value} {m' : Machine} (hleads : Stage.Leads embedding s t)
    (h : t.ReturnsAt embedding vs) (houtcome : x.outcome embedding c = .ok (true, vs) m') : Ends x s .ended
  | fails {t : Stage} {e : Fault} {m' : Machine} (hleads : Stage.Leads embedding s t)
    (h : t.FailsAt embedding e) (houtcome : x.outcome embedding c = .ok (false, [e.value]) m') : Ends x s .ended

end Exchange

/-- Resumptions of a coroutine, one after another: each starts where the one before has left it. -/
inductive Course (embedding : Embedding) (c : CoroutineId) (st : Standing) : List Exchange → Standing → Prop
  | nil : Course embedding c st [] st
  | snoc {xs : List Exchange} {x : Exchange} {st' st'' : Standing} {s : Stage} (h : Course embedding c st xs st')
    (hruns : x.Runs embedding c st' s) (hends : x.Ends embedding c s st'') :
    Course embedding c st (xs ++ [x]) st''

/-- A machine after a coroutine over verified code was resumed a number of times, and the slots of its stack to
which something may have been assigned since the last one. -/
inductive Dialogue (U : Prototype → Prop) (embedding : Embedding) (c : CoroutineId) (body : ClosureId) :
    List Exchange → (Nat → Prop) → Machine → Prop
  | begins {m : Machine} {s : Strand} {assigned : Nat → Prop} (hm : m.InOrder U) (hsound : m.Sound U true)
    (hc : (m.heap.coroutine c).status = .suspended) (hs : (m.heap.coroutine c).strand = some s)
    (hframes : s.frames = #[]) (hbody : s.stack[0]? = some (.function (.lua body)))
    (hlt : body.index < m.heap.closures.size) : Dialogue U embedding c body [] assigned m
  | resumes {xs : List Exchange} {x : Exchange} {r : Bool × List Value} {m' : Machine}
    (h : Dialogue U embedding c body xs x.assigned x.before) (hx : x.Admitted embedding c)
    (houtcome : x.outcome embedding c = .ok r m') : Dialogue U embedding c body (xs ++ [x]) (fun _ => False) m'
  | meanwhile {xs : List Exchange} {before assigned : Nat → Prop} {m m' : Machine}
    (h : Dialogue U embedding c body xs before m) (hxs : xs ≠ [])
    (hc : (m.heap.coroutine c).status = .suspended) (hw : Interlude U embedding c assigned m m') :
    Dialogue U embedding c body xs (fun i => before i ∨ assigned i) m'

/-- What is true of a machine between resumptions of a coroutine. -/
def Standing.Fits (U : Prototype → Prop) (c : CoroutineId) : Standing → (Nat → Prop) → Machine → Prop
  | unstarted body, _, m => m.Sound U true ∧ body.index < m.heap.closures.size ∧
      (m.heap.coroutine c).status = .suspended ∧ ∃ s, (m.heap.coroutine c).strand = some s ∧ s.frames = #[] ∧
        s.stack[0]? = some (.function (.lua body))
  | paused p, assigned, m => p.Backed U m.heap ∧ m.SuspendedAs c p.machine.running assigned ∧
      ∃ host, p.machine.running.frames.toList = p.below ++ [p.waiting, host] ∧ host.slot = p.slot ∧
        host.wanted = p.wanted
  | ended, _, m => m.heap.IsDead c

variable {U : Prototype → Prop} {embedding : Embedding} {c : CoroutineId} {body : ClosureId} {x : Exchange}
  {xs : List Exchange} {assigned : Nat → Prop} {m m' : Machine} {ts : List CoroutineId} {st st' : Standing}
  {s t : Stage} {p : Pause} {vs : List Value}

section

variable (hU : IsProgram U) (hosts : ∀ name, Tame ⟨U, .host, true, true⟩ True (embedding name))

include hU hosts

/-- A resumption that is admitted starts as it should. -/
theorem Standing.Fits.opens (hm : x.before.Steady ⟨U, true, fun _ => False⟩ ts) (hk : x.before.Kempt true false)
    (hx : x.Admitted embedding c) (h : st.Fits U c x.assigned x.before) :
    ∃ s : Stage, s.job = .execute 0 ∧ 0 < s.machine.depth ∧ s.Steady ⟨U, true, fun _ => False⟩ (c :: ts) ∧
      st.Opens x.args x.assigned s.machine ∧ x.outcome embedding c =
        resumeEnds c x.before.current ((run embedding s.fuel s.job >>= fun _ => gather) s.machine) := by
  cases st with
  | unstarted body =>
    obtain ⟨hsound, hlt, hc, s, hs, hf, hbody⟩ := h
    obtain ⟨m', houtcome, hm', -, hbegins⟩ := Machine.starts hU hosts hm hk hsound hc hs hf hbody hlt hx.limits
    have hdepth : 0 < m'.depth := by
      obtain ⟨f, t, hframes, -⟩ := hbegins
      rw [Machine.depth, ← Array.length_toList, hframes]
      exact Nat.zero_lt_one
    exact ⟨⟨x.fuel, .execute 0, m'⟩, rfl, hdepth, ⟨hm', trivial⟩, hbegins, houtcome⟩
  | paused p =>
    obtain ⟨hbacked, ⟨hc, s, hs, hsame, hslots⟩, host, hframes, hslot, hwanted⟩ := h
    obtain ⟨hrunning, -⟩ := Machine.running_resumed hm hc hs
    have hfs : (x.before.resumed c).running.frames.toList = p.below ++ [p.waiting] ++ [host] := by
      rw [hrunning, hsame, hframes, List.append_assoc]
      rfl
    have hne : (x.before.resumed c).running.frames ≠ #[] := fun hnil => by simp [hnil] at hfs
    obtain ⟨fs, caller, host', hfs', -, htop, hwakes⟩ :=
      wake_goesOn hU.isCatalog hm hk hc hne x.args
    obtain ⟨hinit, hhost⟩ := List.append_inj' (hfs'.symm.trans hfs) rfl
    obtain ⟨rfl, hcaller⟩ := List.append_inj' hinit rfl
    obtain rfl := List.singleton_inj.1 hcaller
    obtain rfl := List.singleton_inj.1 hhost
    have hlimits := hx.limits.stack
    rw [rouse_of_frames hne] at hlimits
    obtain ⟨m', hwake, hover, hm', -⟩ := hwakes.resolve_right fun h => hlimits (h.bind _)
    have hextend : (x.before.resumed c).heap.Extends m'.heap := by
      obtain ⟨stack, hok, -⟩ := (wake_delivers hfs htop.le x.args).resolve_right fun h => hlimits (h.bind _)
      obtain rfl := (EStateM.Result.ok.inj (hwake.symm.trans hok)).2
      exact .refl _
    rw [hslot, hwanted] at hover
    refine ⟨⟨x.fuel + 1, .execute 0, m'⟩, rfl, ?_, ⟨hm', trivial⟩, ⟨hover.frames, hover.results, hover.top,
      fun i v hi hassigned hv => hover.below i v hi ?_, ?_⟩, ?_⟩
    · have hframes' := hover.frames
      rw [Machine.depth, ← Array.length_toList, hframes']
      simp
    · rw [hrunning]
      exact hslots i v hassigned hv
    · exact (hbacked.mono ((x.before.matches_resumed c).extend.trans hextend)).goesOn hU hover.frames
    · rw [Exchange.outcome, resume_of_frames _ x.args hc hx.limits.nativeCalls hne, Action.bind_ok hwake]
  | ended =>
    have hc := hx.suspended
    rw [h.2] at hc
    cases hc

/-- The resumer gets what the coroutine yields or returns. -/
theorem Standing.Fits.runs (hm : x.before.InOrder U) (hx : x.Admitted embedding c)
    (h : st.Fits U c x.assigned x.before) : ∃ s ts, x.Runs embedding c st s ∧ 0 < s.machine.depth ∧
      s.Steady ⟨U, true, fun _ => False⟩ (c :: ts) ∧ x.before.current = ts.head? := by
  obtain ⟨⟨ts, hsteady⟩, hk⟩ := hm
  obtain ⟨s, hjob, hdepth, hs, hopens, houtcome⟩ := h.opens hU hosts hsteady hk hx
  have howner : s.machine.running.owner = .coroutine c := by
    obtain ⟨n, s', parked, -, howner, -⟩ := hs.machine.exists_parked
    exact howner
  let S : Regime := ⟨U, true, fun _ => False⟩
  have hscripts (name : String) : Script (S.host true) (embedding name) := (hosts name).script
  have hlater {t : Stage} (hleads : Stage.Leads embedding s t) : t.Steady S (c :: ts) ∧ x.outcome embedding c =
      resumeEnds c ts.head? ((run embedding t.fuel t.job >>= fun _ => gather) t.machine) := by
    rw [houtcome, hsteady.current, hleads.bind_eq]
    exact ⟨hleads.steady hU.isCatalog (fun _ => id) hscripts hs, rfl⟩
  refine ⟨s, ts, ⟨howner, hjob, hopens, houtcome, fun {t p vs} hleads hyields => ?_,
    fun {t vs} hleads hreturns => ?_⟩, hdepth, hs, hsteady.current⟩
  · obtain ⟨ht, heq⟩ := hlater hleads
    obtain ⟨m', hends, hc, -⟩ :=
      hyields.resumeEnds_eq hU.isCatalog (fun _ => id) rfl hscripts ht fun _ => gather
    exact ⟨m', heq.trans hends, hc⟩
  · obtain ⟨ht, heq⟩ := hlater hleads
    rw [heq]
    exact hreturns.resumeEnds_eq hU.isCatalog (fun _ => id) hscripts ht

/-- A resumption leaves a machine in order. -/
theorem Exchange.inOrder {r : Bool × List Value} (x : Exchange) (hm : x.before.InOrder U)
    (houtcome : x.outcome embedding c = .ok r m') : m'.InOrder U := by
  obtain ⟨⟨ts, hsteady⟩, hk⟩ := hm
  let C : Custody := ⟨⟨U, true, fun _ => False⟩, fun _ _ => False, false⟩
  have hfree : ¬ C.Strict := fun ⟨_, _, h⟩ => h
  have hminds : C.Minds (run embedding (x.fuel + 1)) :=
    Custody.minds_run (C := C) hU.isCatalog hfree (fun _ => id) rfl (fun name => (hosts name).script) (x.fuel + 1)
  have hends := (resume_paired (S := C.toRegime) hU.isCatalog hminds.engines hsteady c x.args 0).right
  have htends := resume_tends (C := C) (L := .all) hU.isCatalog hminds hsteady hk (.all hk) c x.args
  rw [show resume (run embedding (x.fuel + 1)) c x.args x.before = _ from houtcome] at hends htends
  exact ⟨⟨ts, hends.1⟩, htends.kempt⟩

/-- A coroutine that has yielded, returned or failed stands as it should. -/
theorem Standing.Fits.ends {r : Bool × List Value} (hm : x.before.InOrder U) (hx : x.Admitted embedding c)
    (h : st.Fits U c x.assigned x.before) (hr : x.outcome embedding c = .ok r m') :
    ∃ s st', x.Runs embedding c st s ∧ x.Ends embedding c s st' ∧ st'.Fits U c (fun _ => False) m' := by
  obtain ⟨s, ts, hruns, hdepth, hs, hcurrent⟩ := h.runs hU hosts hm hx
  let S : Regime := ⟨U, true, fun _ => False⟩
  have hscripts (name : String) : Script (S.host true) (embedding name) := (hosts name).script
  obtain ⟨t, hleads, hsettles⟩ := Stage.leads_settles hU.isCatalog (fun _ => id) rfl
    hscripts rfl hs (.inl ⟨hruns.job, hdepth⟩)
  have ht := Stage.Leads.steady hU.isCatalog (fun _ => id) hscripts hleads hs
  have houtcome := hruns.outcome
  rw [hcurrent, hleads.bind_eq] at houtcome
  cases hsettles with
  | @yields p vs hyields =>
    obtain ⟨m₁, heq, hc, hextend⟩ := hyields.resumeEnds_eq hU.isCatalog
      (fun _ => id) rfl hscripts ht fun _ => gather
    obtain ⟨rfl, rfl⟩ := EStateM.Result.ok.inj (hr.symm.trans (houtcome.trans heq))
    obtain ⟨-, -, ⟨host, hframes, -, hslot, hwanted⟩, -⟩ := hyields.stops
      hU.isCatalog (fun _ => id) rfl hscripts ht
    have haligned : t.Aligned := Stage.Leads.aligned hU.isCatalog (fun _ => id) rfl
      hscripts hs hleads fun d a hjob => by cases hruns.job.symm.trans hjob
    have hbacked := hyields.backed hU.isCatalog (fun _ => id) rfl hscripts ht haligned
    refine ⟨s, .paused p, hruns, .yields hleads hyields hr, hbacked.mono hextend, ⟨?_, p.machine.running, ?_, rfl,
      fun _ _ _ => id⟩, host, hframes, hslot, hwanted⟩ <;> rw [hc]
  | @returns vs hreturns =>
    obtain ⟨m₁, heq, hdead⟩ := hreturns.resumeEnds_eq hU.isCatalog
      (fun _ => id) hscripts ht
    obtain ⟨rfl, rfl⟩ := EStateM.Result.ok.inj (hr.symm.trans (houtcome.trans heq))
    exact ⟨s, .ended, hruns, .returns hleads hreturns hr, hdead⟩
  | @fails e hfails =>
    obtain ⟨rfl, hdead⟩ := hfails.resumeEnds_eq hU.isCatalog (fun _ => id) hscripts
      ht (houtcome.symm.trans hr)
    exact ⟨s, .ended, hruns, .fails hleads hfails hr, hdead⟩

/-- Between resumptions a coroutine stands as they have left it, whatever is done meanwhile. -/
theorem Dialogue.fits (h : Dialogue U embedding c body xs assigned m) :
    m.InOrder U ∧ ∃ st, Course embedding c (.unstarted body) xs st ∧ st.Fits U c assigned m := by
  induction h with
  | @begins m s _ hm hsound hc hs hframes hbody hlt =>
    exact ⟨hm, .unstarted body, .nil, hsound, hlt, hc, s, hs, hframes, hbody⟩
  | @resumes xs x r m' _ hx houtcome ih =>
    obtain ⟨hm, st, hcourse, hfits⟩ := ih
    obtain ⟨s, st', hruns, hends, hfits'⟩ := hfits.ends hU hosts hm hx houtcome
    exact ⟨x.inOrder hU hosts hm houtcome, st', hcourse.snoc hruns hends, hfits'⟩
  | @meanwhile xs before assigned m m' _ hxs hc hw ih =>
    obtain ⟨hm, st, hcourse, hfits⟩ := ih
    cases hcourse with
    | nil => exact absurd rfl hxs
    | @snoc xs x st' _ s hcourse hruns hends =>
      have hdead (h : m.heap.IsDead c) : False := by
        rw [h.2] at hc
        cases hc
      cases hends with
      | returns => exact (hdead hfits).elim
      | fails => exact (hdead hfits).elim
      | @yields t p vs _ hleads hyields houtcome =>
        obtain ⟨hbacked, hsuspended, hhost⟩ := hfits
        obtain ⟨hm', hextend, hsuspended'⟩ := hw.keeps hU.isCatalog hosts hm hsuspended
        exact ⟨hm', .paused p, hcourse.snoc hruns (.yields hleads hyields houtcome), hbacked.mono hextend,
          hsuspended', hhost⟩

/-- A coroutine and its resumers exchange values, however often it is resumed. Its body runs on the arguments of
the first resumption. What a host function yields goes to the resumer, and the arguments of the next resumption are
the results of its call, behind which the frame that has made it goes on over slots that are as they were, but for
what was assigned to them meanwhile. What the body returns goes to the resumer, and the coroutine is dead. -/
theorem dialogue_exchanges (h : Dialogue U embedding c body xs assigned m) :
    ∃ st, Course embedding c (.unstarted body) xs st ∧ ∀ x : Exchange, x.before = m → x.assigned = assigned →
      x.Admitted embedding c → ∃ s, x.Runs embedding c st s := by
  obtain ⟨hm, st, hcourse, hfits⟩ := h.fits hU hosts
  refine ⟨st, hcourse, ?_⟩
  rintro x rfl rfl hx
  obtain ⟨s, -, hruns, -⟩ := hfits.runs hU hosts hm hx
  exact ⟨s, hruns⟩

end

/-! A function that calls its argument, in a coroutine -/

theorem pauseHost_tame {R : Conduct} (hhost : R.seat = .host) {name : String} : Tame R True (pauseHost name) :=
  .yieldValues _ hhost

/-- The coroutine is made. -/
def Errand.beforeRelay : Errand ⟨Prototype.relay.Contains, .host, true, true⟩ where
  script := fun _ => spawn .relay
  isScript := .sequence (.spawn Prototype.relay.contains_self fun _ => rfl)
  embedding := pauseHost
  hosts := fun _ => (pauseHost_tame rfl).script
  fuel := 0

def Machine.conversing : Machine := (Errand.beforeRelay.outcome (bare.withMode .off)).state

theorem Machine.conversing_occurs : conversing.Occurs ⟨Prototype.relay.Contains, .host, true, true⟩ :=
  ⟨_, .beforeRelay, fun _ => False, .blank (bare_blank.withMode .off) rfl, by rw [Errand.upTo_never, conversing]⟩

theorem Machine.conversing_atRest : conversing.AtRest ⟨Prototype.relay.Contains, .host, true, true⟩ :=
  .of_succeeds (.blank (bare_blank.withMode .off) rfl) .beforeRelay (by decide +kernel)

/-- The function is called with a host function that yields. -/
def Exchange.opening : Exchange := ⟨.conversing, 9, [.function (.host (.embedded "pause"))], fun _ => False⟩

/-- What it has yielded is answered. -/
def Exchange.answering : Exchange :=
  ⟨(Exchange.opening.outcome pauseHost ⟨0⟩).state, 9, [.str "on", .nil], fun _ => False⟩

theorem Machine.mayRouse_of_succeeds {run : Run} {args : List Value}
    (hnative : m.nativeCalls < m.options.maxNativeCalls)
    (h : Outcome.succeeds (rouse embedding run args (m.resumed c)) = true) : m.MayRouse embedding run c args := by
  refine ⟨hnative, ?_⟩
  rintro ⟨m', hoverflows⟩
  rw [hoverflows] at h
  cases h

theorem dialogue_exchanges_conversing : ∃ st s,
    Course pauseHost ⟨0⟩ (.unstarted ⟨0⟩) [.opening] st ∧ Exchange.answering.Runs pauseHost ⟨0⟩ st s := by
  have hprogram := Prototype.relay_isProgram
  have hopening : Exchange.opening.Admitted pauseHost ⟨0⟩ :=
    ⟨by decide +kernel, Machine.mayRouse_of_succeeds (by decide +kernel) (by decide +kernel)⟩
  have hanswering : Exchange.answering.Admitted pauseHost ⟨0⟩ :=
    ⟨by decide +kernel, Machine.mayRouse_of_succeeds (by decide +kernel) (by decide +kernel)⟩
  have hbegins : Dialogue Prototype.relay.Contains pauseHost ⟨0⟩ ⟨0⟩ [] Exchange.opening.assigned .conversing :=
    .begins (s := Machine.conversing.heap.coroutine ⟨0⟩ |>.strand.getD default)
      (Machine.conversing_occurs.inOrder hprogram.isCatalog) (Machine.conversing_atRest.sound hprogram)
      (by decide +kernel) rfl rfl rfl (by decide +kernel)
  have hsucceeds : Outcome.succeeds (Exchange.opening.outcome pauseHost ⟨0⟩) = true := by decide +kernel
  obtain ⟨r, houtcome⟩ : ∃ r, Exchange.opening.outcome pauseHost ⟨0⟩ = .ok r Exchange.answering.before := by
    rw [Exchange.answering]
    cases h : Exchange.opening.outcome pauseHost ⟨0⟩ with
    | ok r m' => exact ⟨r, rfl⟩
    | error e m' =>
      rw [h] at hsucceeds
      cases hsucceeds
  obtain ⟨st, hcourse, hanswers⟩ :=
    dialogue_exchanges hprogram (fun _ => pauseHost_tame rfl) (hbegins.resumes hopening houtcome)
  obtain ⟨s, hruns⟩ := hanswers .answering rfl rfl hanswering
  exact ⟨st, s, hcourse, hruns⟩

end LuaMachine
