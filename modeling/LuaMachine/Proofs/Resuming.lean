import LuaMachine.Proofs.FrameShift
import LuaMachine.Proofs.StackContents

/-!
Coroutines are resumed, and scripts are run, on engines that leave chains of resumptions as they are.
-/

namespace LuaMachine

variable {S : Regime} {R : Conduct} {ts : List CoroutineId} {m m' : Machine} {d : Nat} {α : Type}
  {c : CoroutineId} {runl runr : Run}

/-- The arguments of a resumption go to the slots from one on. -/
def placeArguments (slot : Nat) (args : List Value) : Action Unit := do
  ensureStack (slot + args.length + Limit.extraStack)
  writeSlots slot args
  setTop (slot + args.length)

theorem beginCoroutine_eq (run : Run) (args : List Value) :
    beginCoroutine run args =
      placeArguments 1 args >>= fun _ => run (.call 0 args.length none) >>= fun _ => gather := by
  simp only [beginCoroutine, placeArguments, bind_assoc]

/-- The arguments of a resumption become the results of the host function that yielded. -/
def wake (args : List Value) : Action Unit := do
  let first ← view (·.running.top)
  placeArguments first args
  leaveFrame first args.length

theorem continueCoroutine_eq (run : Run) (args : List Value) :
    continueCoroutine run args = wake args >>= fun _ => run (.execute 0) >>= fun _ => gather := by
  simp only [continueCoroutine, wake, placeArguments, bind_assoc]

theorem wake_apply (args : List Value) (m : Machine) :
    wake args m = (placeArguments m.running.top args >>= fun _ =>
      leaveFrame m.running.top args.length) m := rfl

theorem Orderly.placeArguments {slot : Nat} (h : R.seat.Frees slot) (args : List Value) :
    Orderly R (placeArguments slot args) :=
  .andThen (.ensureStack _) fun _ => .andThen (.writeSlots h _) fun _ => .setTop (h.mono (by omega))

theorem Orderly.gather (h : R.seat.Frees 0) : Orderly R gather :=
  .andThen (.view _ fun _ => rfl) fun _ => .andThen (.takeSlots h _) fun vs =>
    .andThen (.setTop h) fun _ => .pure vs

theorem Strand.floor_of_bare {s : Strand} (hf : s.frames = #[]) (k : Nat) : s.Floor k :=
  fun _ b fs hfs => by simp [hf] at hfs

/-- The body of a coroutine stays below its arguments. -/
theorem Regime.BodyAt.placeArguments {args : List Value} {u : Unit} (h : Regime.BodyAt 0 m)
    (hplace : placeArguments 1 args m = .ok u m') (hf : m'.running.frames = m.running.frames) :
    Regime.BodyAt 0 m' := by
  obtain ⟨hframes, c, hc⟩ := h
  obtain ⟨_, m₂, hensure, hrest⟩ := Action.bind_eq_ok.1 hplace
  obtain ⟨_, m₃, hwrite, htop⟩ := Action.bind_eq_ok.1 hrest
  obtain ⟨stack, rfl, -, -, hlow, -⟩ := ensureStack_eq_ok hensure
  obtain ⟨stack', rfl, -, hlow', -⟩ := writeSlots_eq_ok hwrite
  obtain ⟨-, rfl⟩ := EStateM.Result.ok.inj htop
  exact ⟨hf.trans hframes, c,
    (hlow' 0 Nat.zero_lt_one).trans ((hlow 0 (Array.getElem?_eq_some_iff.1 hc).1).trans hc)⟩

section

variable (hS : IsCatalog S.program) (hrun : S.Engines runl runr)

include hS

theorem gather_ends (hm : m.Steady S ts) (hf : m.running.frames = #[]) :
    S.Ends ts 0 m (fun _ m' => m'.running.frames = #[]) (fun e _ => e ≠ .yield) (gather m) :=
  (Orderly.gather (R := S.between 0) le_rfl).sequence.ends_between hS 0 hm (Strand.floor_of_bare hf 0) hf

include hrun

/-- The last frames of a coroutine are run, and its results collected. -/
theorem finish_paired {job : Job} (hm : m.Steady S ts) (hready : S.Ready ts m job)
    (hdone : ∀ m', S.Done m job m' → m'.running.frames = #[]) :
    Paired (S.Ends ts 0 m (fun _ m' => m'.running.frames = #[]) fun e m' =>
      e = .yield → S.Suspends ts m') ((runl job >>= fun _ => gather) m)
      ((runr job >>= fun _ => gather) m) := by
  refine ((hrun job ts m hm hready).imp fun r hr => hr.lower (Nat.zero_le _)).bind
    fun _ m' _ hm' _ hr => ?_
  exact .refl (gather_ends hS hm' (hdone m' hr)).never

theorem beginCoroutine_paired (hm : m.Steady S ts) (hf : m.running.frames = #[])
    (hbody : ∃ c, m.running.stack[0]? = some (.function (.lua c))) (args : List Value) :
    Paired (S.Ends ts 0 m (fun _ m' => m'.running.frames = #[]) fun e m' =>
      e = .yield → S.Suspends ts m') (beginCoroutine runl args m) (beginCoroutine runr args m) := by
  have hplace : Orderly (S.between 0) (placeArguments 1 args) := .placeArguments (Nat.zero_le _) args
  have hends := hplace.sequence.ends_between hS 0 hm (Strand.floor_of_bare hf 0) hf
  rw [beginCoroutine_eq, beginCoroutine_eq]
  refine (Paired.refl hends.never).bind fun u m₁ heq hm₁ _ hf₁ => ?_
  have hbody₁ := Regime.BodyAt.placeArguments ⟨hf, hbody⟩ heq (hf₁.trans hf.symm)
  exact finish_paired hS hrun hm₁ ⟨Strand.floor_of_bare hf₁ 0, .inr ⟨hbody₁, rfl, rfl⟩⟩ fun m' h =>
    (h (.inr hbody₁)).trans hf₁

omit hrun in
theorem wake_ends (hm : m.Steady S ts) (hf : 2 ≤ m.running.frames.size) (args : List Value)
    (hd : d < m.running.frames.size) :
    S.Ends ts d m (fun _ _ => True) (fun e _ => e ≠ .yield) (wake args m) := by
  have hplace : Orderly (S.between m.running.top) (placeArguments m.running.top args) :=
    .placeArguments le_rfl args
  rw [wake_apply]
  refine (hplace.sequence.ends_between hS d hm hm.tidy_running.floor_top rfl).bind
    fun _ m₁ _ hm₁ _ hf₁ => ?_
  obtain ⟨fs, f, hfs⟩ : ∃ fs f, m₁.running.frames.toList = fs ++ [f] := by
    rcases List.eq_nil_or_concat m₁.running.frames.toList with hnil | ⟨fs, f, hfs⟩
    · rw [hf₁] at hnil
      rw [← Array.length_toList, hnil] at hf
      simp at hf
    · exact ⟨fs, f, hfs.trans List.concat_eq_append⟩
  have hne (_ : ts ≠ []) (hnil : fs = []) : m₁.running.openCells = [] := by
    rw [← hf₁, ← Array.length_toList, hfs, hnil] at hf
    simp at hf
  have hle : d ≤ fs.length := by
    rw [← hf₁, ← Array.length_toList, hfs, List.length_append, List.length_singleton] at hd
    exact Nat.le_of_lt_succ hd
  exact (leaveFrame_ends hS hm₁ m.running.top args.length hfs hne hle).imp
    (fun _ _ _ => trivial) fun _ _ => id

theorem continueCoroutine_paired (hm : m.Steady S ts) (hf : 2 ≤ m.running.frames.size)
    (args : List Value) :
    Paired (S.Ends ts 0 m (fun _ m' => m'.running.frames = #[]) fun e m' =>
      e = .yield → S.Suspends ts m') (continueCoroutine runl args m)
      (continueCoroutine runr args m) := by
  rw [continueCoroutine_eq, continueCoroutine_eq]
  refine (Paired.refl (wake_ends hS hm hf args (Nat.zero_lt_of_lt hf)).never).bind fun _ m' _ hm' _ _ => ?_
  exact finish_paired hS hrun hm' trivial fun m' h => by simpa [Regime.Done] using h

/-- A coroutine that may be run comes to its end, yields again or fails. -/
theorem runCoroutine_paired (hm : m.Steady S ts)
    (hshape : m.running.Unstarted ∨ m.running.Stopped S m.heap) (args : List Value) :
    Paired (S.Ends ts 0 m (fun _ m' => m'.running.frames = #[]) fun e m' =>
      e = .yield → S.Suspends ts m') (runCoroutine runl args m) (runCoroutine runr args m) := by
  rw [runCoroutine_apply, runCoroutine_apply]
  rcases hshape with hu | hs
  · rw [hu.frames]
    exact beginCoroutine_paired hS hrun hm hu.frames hu.body args
  · have hne : m.running.frames ≠ #[] := by
      intro hnil
      have hsize := hs.frames
      simp [hnil] at hsize
    simp only [Array.isEmpty_eq_false_iff.2 hne]
    exact continueCoroutine_paired hS hrun hm hs.frames args

/-- A suspended coroutine that is resumed ends, yields or fails; its resumer goes on as it was. -/
theorem resumeSuspended_paired (hm : m.Steady S ts)
    (hc : (m.heap.coroutine c).status = .suspended) (args : List Value) (d : Nat) :
    Paired (S.Ends ts d m (fun _ m' => m.running.Rests m.heap m'.heap m'.running) fun _ _ => False)
      (resumeSuspended runl c args m) (resumeSuspended runr c args m) := by
  have hresumed := hm.resumed hc
  have hshape := hm.shape_resumed hc
  have hb := hm.buries_resumed hc
  rw [resumeSuspended_apply, resumeSuspended_apply, hm.current]
  refine (runCoroutine_paired hS hrun hresumed hshape args).through
    (fun
      | .ok vs m' => .ok (true, vs) (m'.resumedFrom c ts.head? .dead)
      | .error e m' => resumeFailed c ts.head? m' e)
    (fun r hr => ?_) fun e m' he => ?_
  · cases r with
    | ok vs m' =>
      obtain ⟨hm', hk, hf⟩ := hr
      obtain ⟨hkept, hrest⟩ := hm.keeps_resumedFrom hc hm' hk.toSpares .dead (.inl rfl) d
      exact ⟨⟨hm'.resumedFrom (.inl ⟨rfl, hf⟩), hkept, hrest⟩, hm'.buries_resumedFrom .dead⟩
    | error e m' =>
      obtain ⟨hb', hr⟩ := hr
      rcases eq_or_ne e .yield with rfl | hne
      · obtain ⟨hm', hk, hs⟩ := hr.resolve_left (by simp [Fault.isFatal])
        obtain ⟨hawake, hframes, hhalted⟩ := hs rfl
        have hstop : m'.running.Stopped S m'.heap :=
          ⟨hframes (by simp), fun hhonest => (hhalted hhonest).2⟩
        obtain ⟨hkept, hrest⟩ := hm.keeps_resumedFrom hc hm' hk.toSpares .suspended
          (.inr (hawake c List.mem_cons_self)) d
        have hsteady := hm'.resumedFrom (.inr ⟨rfl, hstop⟩)
        exact ⟨⟨hsteady.withoutYielded, hkept.trans (.of_running rfl rfl rfl rfl rfl
          (List.take_prefix d _)), hrest⟩, hm'.buries_resumedFrom .suspended⟩
      · simp only [resumeFailed_of_ne _ _ _ hne]
        cases he : e.isFatal with
        | true =>
          exact ⟨⟨hb.trans hb', .inl ⟨he, hr.elim And.right fun h => ⟨_, h.1⟩⟩⟩, .refl _⟩
        | false =>
          obtain ⟨hm', hk, -⟩ := hr.resolve_left (by simp [he])
          obtain ⟨hreset, hspares, hf⟩ := hm'.resetRunning
          obtain ⟨hkept, hrest⟩ := hm.keeps_resumedFrom hc hreset (hk.toSpares.trans hspares)
            .dead (.inl rfl) d
          exact ⟨⟨hreset.resumedFrom (.inl ⟨rfl, hf⟩), hkept, hrest⟩,
            hspares.buries.trans (hreset.buries_resumedFrom .dead)⟩
  · have hne : e ≠ .yield := by
      rintro rfl
      simp [Fault.isFatal] at he
    simp only [resumeFailed_of_ne _ _ _ hne, he, if_true]

theorem resume_paired (hm : m.Steady S ts) (c : CoroutineId) (args : List Value) (d : Nat) :
    Paired (S.Ends ts d m (fun _ m' => m.running.Rests m.heap m'.heap m'.running) fun _ _ => False)
      (resume runl c args m) (resume runr c args m) := by
  have hsame (r : Bool × List Value) : Paired (S.Ends ts d m
      (fun _ m' => m.running.Rests m.heap m'.heap m'.running) fun _ _ => False) (.ok r m) (.ok r m) :=
    .refl (.pure hm (.refl _ _))
  rw [resume_apply, resume_apply]
  cases hc : (m.heap.coroutine c).status with
  | suspended =>
    dsimp only
    split
    · exact hsame _
    · exact resumeSuspended_paired hS hrun hm hc args d
  | _ => exact hsame _

end

/-- A yield stops a host function where it may. -/
theorem yieldValues_ends (hm : m.Steady S ts) (hdepth : ts ≠ [] → 2 ≤ m.depth) (vs : List Value)
    {fs : Array Frame} {k : Nat} (hstays : S.Stays .host fs k m) {good : α → Machine → Prop} :
    S.Ends ts d m good (S.Fails .host ts fs k) ((yieldValues vs : Action α) m) := by
  have hraise (complaint : Complaint) :
      S.Ends ts d m good (S.Fails .host ts fs k) ((raise complaint : Action α) m) :=
    .fail hm fun he => absurd he (by simp)
  rw [yieldValues_apply]
  split
  · exact hraise _
  · next hcurrent =>
    split
    · exact hraise _
    · next hb =>
      have hyielded : ({ m with yielded := vs } : Machine).Steady S ts :=
        hm.congr rfl rfl rfl rfl hm.tidy_running
      have hkept : m.Keeps S d { m with yielded := vs } :=
        .of_running rfl rfl rfl rfl rfl (List.take_prefix d _)
      refine ⟨.refl _, .inr ⟨hyielded, hkept, fun _ => ⟨hdepth, fun hhonest => ⟨rfl, ?_, ?_,
        hstays.frames hhonest, (hstays.beyond hhonest rfl).congr ?_ rfl⟩⟩⟩⟩
      · rintro rfl
        simp [hm.current] at hcurrent
      · simpa using hb
      · exact (hstays.beyond hhonest rfl).top

/-- Scripts leave the chain as it is. -/
theorem Script.paired (hS : IsCatalog S.program) (hrun : S.Engines runl runr)
    (hawake : S.Awake ts) (hprogram : ∀ p, R.program p → S.program p) (hhonest : R.honest = S.honest)
    {x : Run → Action α} (h : Script R x) (hm : m.Steady S ts) (hseat : R.Settled ts d m)
    {fs : Array Frame} {k : Nat} (hstays : S.Stays R.seat fs k m) :
    Paired (S.Ends ts d m (fun _ => S.Stays R.seat fs k) (S.Fails R.seat ts fs k)) (x runl m)
      (x runr m) := by
  -- calls from native code, and what follows them
  have hcall {β : Type} {m : Machine} {l r : Outcome β} (hstays : S.Stays R.seat fs k m)
      (h : Paired (S.Ends ts d m (fun _ => S.Returns m) (S.Leaks ts)) l r) :
      Paired (S.Ends ts d m (fun _ => S.Stays R.seat fs k) (S.Fails R.seat ts fs k)) l r :=
    h.imp fun _ hr => hr.imp (fun _ _ => hstays.returns) fun _ _ h => h.fails
  induction h generalizing m with
  | sequence h =>
    obtain ⟨k', hbeyond, hk⟩ : ∃ k', (R.seat = .host → m.Beyond k') ∧ (S.honest = true → k' = k) := by
      by_cases hS : S.honest = true
      · exact ⟨k, hstays.beyond hS, fun _ => rfl⟩
      · exact ⟨0, fun _ => ⟨Nat.zero_le _, fun _ _ => Nat.zero_le _⟩, fun h => absurd h hS⟩
    refine .refl ((h.ends hS hprogram d hm hseat.seated rfl hbeyond).imp
      (fun _ _ h => ⟨fun hS => h.1.trans (hstays.frames hS), fun hS hhost => hk hS ▸ h.2 hhost⟩)
      fun e m' hfail he => ⟨fun hts => ?_, fun hS => ?_⟩)
    · rw [Machine.depth, hfail.1]
      exact hseat.host (hfail.2 he).1 hts
    · rw [← hhonest, (hfail.2 he).2] at hS
      cases hS
  | bind _ _ ihx ihf =>
    refine (ihx hm hseat hstays).bind fun a m' heq hm' hk hstays' => ?_
    exact ihf a ⟨runr, m, m', heq⟩ hm' (hseat.after hk hm') hstays'
  | @callAt held slot argCount wanted hslot =>
    have hfloor := hseat.seated.floor hslot
    have hpaired := callAt_paired hrun hawake hm hseat.stands hfloor argCount wanted held
    refine hpaired.imp fun _ hr => hr.imp (fun _ _ hfs =>
      ⟨fun hS => (hfs hS).trans (hstays.frames hS), fun _ hhost => ?_⟩) fun _ _ h => h.fails
    rw [hhost] at hslot
    exact hslot.elim
  | callHandler f args => exact hcall hstays (callHandler_paired hS hrun hawake hm hseat.stands f args _)
  | callValue f args => exact hcall hstays (callValue_paired hS hrun hawake hm hseat.stands f args _)
  | protectedCall f args => exact hcall hstays (protectedCall_paired hS hrun hawake hm hseat.stands f args)
  | resume c args =>
    exact (resume_paired hS hrun hm c args d).imp fun _ hr =>
      hr.imp (fun _ _ h => hstays.returns ⟨fun _ => h.frames, h.top.ge⟩) fun _ _ h => h.elim
  | call f args hhost =>
    refine (call_paired hS hrun hawake hm hseat.stands f args).imp fun _ hr =>
      hr.imp (fun _ _ => hstays.returns) fun e m' hfail he => ⟨fun hts => ?_, ?_⟩
    · rw [Machine.depth, hfail.1]
      exact hseat.host hhost hts
    · exact fun hS => absurd hS (by simp [hfail.2.2 he])
  | tryCall f args hhost _ _ ihv ihe =>
    have hattempt := (call_paired hS hrun hawake hm hseat.stands f args).attempt
    refine Paired.bind (hattempt.imp fun _ hr => hr.imp (fun _ _ => id) fun _ _ h => h.fails)
      fun r m' _ hm' hk hr => ?_
    cases r with
    | ok vs => exact ihv vs hm' (hseat.after hk hm') (hstays.returns hr)
    | error e =>
      exact ihe e (fun he => hhonest.trans (hr.2.2 he)) hm'
        (hseat.after hk hm') (hstays.returns ⟨fun _ => hr.1, hr.2.1⟩)
  | yieldValues vs hhost =>
    rw [hhost] at hstays ⊢
    exact .refl (yieldValues_ends hm (hseat.host hhost) vs hstays)
  | attempt _ _ hdishonest ih =>
    have hS : S.honest = false := hhonest ▸ hdishonest
    have hx := ih hm hseat hstays
    refine hx.attempt.imp fun _ hr => hr.imp (fun _ _ _ => ⟨?_, ?_⟩) fun _ _ h => h.fails
    all_goals
      rw [hS]
      exact fun h => by cases h

end LuaMachine
