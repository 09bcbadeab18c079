import LuaMachine.Proofs.CellValues
import LuaMachine.Proofs.FrameLeases

/-!
Coroutines are resumed and scripts are run within leases. A coroutine that is resumed may use its whole
strand; those of the coroutines that wait for it are left as they are.
-/

namespace LuaMachine

variable {C : Custody} {R : Conduct} {ts : List CoroutineId} {m m' : Machine} {L : Lease}
  {c : CoroutineId} {status : CoroutineStatus} {honest bounded : Bool} {k d : Nat} {α : Type}

/-! Strands that are switched to and from -/

namespace Machine

theorem find?_eq_none_of_notMem {strands : List Strand} {o : Owner}
    (ho : o ∉ strands.map (·.owner)) : strands.find? (·.owner = o) = none := by
  rw [List.find?_eq_none]
  exact fun s hs heq => ho (of_decide_eq_true heq ▸ List.mem_map_of_mem hs)

/-- Resuming leaves each owner its strand. -/
theorem Steady.strand?_resumed {S : Regime} (hm : m.Steady S ts)
    (hc : (m.heap.coroutine c).status = .suspended) (o : Owner) :
    (m.resumed c).strand? o = m.strand? o := by
  have hget := coroutine_resumed hm.toChained hc
  have hnot := hm.not_mem_of_status hc
  obtain ⟨s, hs, howner, -⟩ := hm.exists_strand hc
  have hrunning : (m.resumed c).running = s := by rw [resumed_eq, hs]; rfl
  have hparked : (m.resumed c).parked = m.running :: m.parked := by rw [resumed_eq]
  rw [strand?_eq_or, strand?_eq_or m, hrunning, hparked]
  by_cases ho : o = .coroutine c
  · subst ho
    have hnone : (m.running :: m.parked).find? (·.owner = .coroutine c) = none := by
      rw [List.find?_eq_none]
      exact fun t ht heq => hnot (hm.owner_mem ht (of_decide_eq_true heq))
    rw [hnone, Option.none_or, List.find?_cons_of_pos (by simpa using howner), Option.some_or]
    exact hs.symm
  · rw [List.find?_cons_of_neg (by simpa [howner] using Ne.symm ho)]
    congr 1
    cases o with
    | main n => rfl
    | coroutine u =>
      have huc : u ≠ c := fun h => ho (h ▸ rfl)
      dsimp only
      rw [hget, if_neg huc]
      split
      · next hu => exact (hm.strand_of_mem hu).symm
      · rfl

/-- And so does going back. -/
theorem Steady.strand?_resumedFrom {S : Regime} (hm : m.Steady S (c :: ts)) (status : CoroutineStatus)
    (o : Owner) : (m.resumedFrom c ts.head? status).strand? o = m.strand? o := by
  have hget := coroutine_resumedFrom hm.toChained status
  obtain ⟨n, s, parked, hp, howner, -⟩ := hm.exists_parked
  have hnodup := hm.owners_nodup
  have hrunning : (m.resumedFrom c ts.head? status).running = s := by
    rw [resumedFrom_eq m c _ status hp]
  have hparked : (m.resumedFrom c ts.head? status).parked = parked := by
    rw [resumedFrom_eq m c _ status hp]
  rw [hp, List.map_cons, List.nodup_cons, howner] at hnodup
  rw [strand?_eq_or, strand?_eq_or m, hrunning, hparked, hp]
  by_cases ho : o = .coroutine c
  · subst ho
    rw [find?_eq_none_of_notMem hnodup.1, Option.none_or, List.find?_cons_of_pos (by simpa using howner),
      Option.some_or]
    dsimp only
    rw [hget, if_pos rfl]
  · have hrest : (m.running :: s :: parked).find? (·.owner = o) = (s :: parked).find? (·.owner = o) :=
      List.find?_cons_of_neg (by simpa [howner] using Ne.symm ho)
    rw [hrest]
    congr 1
    cases o with
    | main n => rfl
    | coroutine u =>
      have huc : u ≠ c := fun h => ho (h ▸ rfl)
      dsimp only
      rw [hget, if_neg huc]
      split
      · next hhead =>
        exact (hm.strand_of_mem (List.mem_cons_of_mem _ (List.mem_of_mem_head? hhead))).symm
      · rfl

/-! What is open over them -/

theorem Kempt.resumed {S : Regime} (hk : m.Kempt honest bounded) (hm : m.Steady S ts)
    (hc : (m.heap.coroutine c).status = .suspended) : (m.resumed c).Kempt honest bounded := by
  have hx := m.matches_resumed c
  have hget := coroutine_resumed hm.toChained hc
  obtain ⟨s, hs, -⟩ := hm.exists_strand hc
  have hrunning : (m.resumed c).running = s := by rw [resumed_eq, hs]; rfl
  have hparked : (m.resumed c).parked = m.running :: m.parked := by rw [resumed_eq]
  refine ⟨?_, fun t ht => ?_, fun u t ht => ?_, fun id n i hid => ?_⟩
  · rw [hrunning]
    exact (hk.stored c s hs).matches hx
  · rw [hparked] at ht
    rcases List.mem_cons.1 ht with rfl | ht
    · exact hk.running.matches hx
    · exact (hk.parked t ht).matches hx
  · rw [hget] at ht
    split_ifs at ht
    exact (hk.stored u t ht).matches hx
  · rw [hx.cell] at hid
    rw [hparked]
    exact List.mem_cons_of_mem _ (hk.main id n i hid)

theorem Kempt.resumedFrom {S : Regime} (hk : m.Kempt honest bounded) (hm : m.Steady S (c :: ts)) :
    (m.resumedFrom c ts.head? status).Kempt honest bounded := by
  have hx := matches_resumedFrom hm.toChained ts.head? status
  have hget := coroutine_resumedFrom hm.toChained status
  obtain ⟨n, s, parked, hp, howner, -⟩ := hm.exists_parked
  have hrunning : (m.resumedFrom c ts.head? status).running = s := by
    rw [resumedFrom_eq m c _ status hp]
  have hparked : (m.resumedFrom c ts.head? status).parked = parked := by
    rw [resumedFrom_eq m c _ status hp]
  have hold (t : Strand) (ht : t ∈ s :: parked) :
      t.Kempt honest bounded (m.resumedFrom c ts.head? status).heap :=
    (hk.parked t (hp ▸ ht)).matches hx
  refine ⟨?_, fun t ht => ?_, fun u t ht => ?_, fun id n i hid => ?_⟩
  · rw [hrunning]
    exact hold s List.mem_cons_self
  · rw [hparked] at ht
    exact hold t (List.mem_cons_of_mem _ ht)
  · rw [hget] at ht
    split_ifs at ht
    · exact Option.some.inj ht ▸ hk.running.matches hx
    · exact (hk.stored u t ht).matches hx
  · rw [hx.cell] at hid
    have hmem := hk.main id n i hid
    rw [List.map_cons, howner, hp] at hmem
    rw [hrunning, hparked]
    exact (List.mem_cons.1 hmem).resolve_left nofun

/-- Once all frames are dropped nothing is open. -/
theorem Kempt.resetRunning (hk : m.Kempt C.honest C.bounded) (hm : m.Steady C.toRegime ts) :
    m.resetRunning.Kempt C.honest C.bounded := by
  have hcarries : m.Carries .host (m.modifyBoth fun h s => h.closeCells s 0) :=
    hm.carries_closeUpvalues 0
  have hclosed : (m.modifyBoth fun h s => h.closeCells s 0).Kempt C.honest C.bounded :=
    hk.carried (L := .all) hm hcarries fun oc hoc => .inl ((hcarries.opened oc hoc).resolve_right id)
  refine hclosed.of_running rfl rfl rfl (.of_nil ?_)
  change (m.heap.closeCells m.running 0).2.openCells = []
  rw [Heap.openCells_closeCells]
  simp

end Machine

namespace Custody.Leaves

/-- What a coroutine does on its own strand leaves all other strands alone. -/
theorem of_resumed (hm : m.Steady C.toRegime ts) (hc : (m.heap.coroutine c).status = .suspended)
    (h : C.Leaves 0 (m.resumed c) m') : C.Leaves k m m' := by
  have hget := Machine.coroutine_resumed hm.toChained hc
  have hnot := hm.not_mem_of_status hc
  have hslot (o : Owner) (i : Nat) : (m.resumed c).slot? o i = m.slot? o i := by
    unfold Machine.slot?
    rw [hm.strand?_resumed hc]
  have hstrands : (m.resumed c).running.owner = .coroutine c ∧
      (m.resumed c).parked = m.running :: m.parked := by
    obtain ⟨s, hs, howner, -⟩ := hm.exists_strand hc
    rw [Machine.resumed_eq, hs]
    exact ⟨howner, rfl⟩
  have hcurrent : (m'.heap.coroutine c).status ≠ .suspended :=
    h.awake c (.inl (by rw [hget, if_pos rfl]))
  refine ⟨(hm.buries_resumed hc).trans h.buries, fun t ht => h.awake t ?_, fun o i v hp ho _ hv => ?_,
    fun u i v hp hq hu hu' hv => ?_⟩
  · have hmem := hm.mem_of_status ht
    rw [hget, if_neg fun (heq : t = c) => hnot (heq ▸ hmem), if_pos hmem]
    exact .inr rfl
  · refine h.waiting o i v hp ?_ (fun heq => absurd ?_ hnot) (by rwa [hslot])
    · rw [hstrands.2]
      exact List.mem_cons_of_mem _ ho
    · rw [hstrands.1] at heq
      obtain ⟨s, hs, howner⟩ := List.mem_map.1 ho
      exact hm.owner_mem hs (howner.trans heq)
  · have huc : u ≠ c := fun heq => hcurrent (heq ▸ hu')
    have huts := hm.not_mem_of_status hu
    exact h.asleep u i v hp hq (by rwa [hget, if_neg huc, if_neg huts]) hu' (by rwa [hslot])

/-- The resumer goes on, and the coroutine does not: it may not have been one that is not to be
resumed. -/
theorem of_resumedFrom (hm : m.Steady C.toRegime ts) (hc : (m.heap.coroutine c).status = .suspended)
    (h : C.Leaves 0 (m.resumed c) m') (hm' : m'.Steady C.toRegime (c :: ts))
    (hst : status = .dead ∨ ¬ C.quiet c) : C.Leaves k m (m'.resumedFrom c ts.head? status) := by
  have h' : C.Leaves k m m' := h.of_resumed hm hc
  have hget := Machine.coroutine_resumedFrom hm'.toChained status
  have hslot (o : Owner) (i : Nat) : (m'.resumedFrom c ts.head? status).slot? o i = m'.slot? o i := by
    unfold Machine.slot?
    rw [hm'.strand?_resumedFrom]
  have hnot := hm.not_mem_of_status hc
  refine ⟨h'.buries.trans (hm'.buries_resumedFrom status), fun t ht => ?_, fun o i v hp ho hi hv => ?_,
    fun u i v hp hq hu hu' hv => ?_⟩
  · have hmem := hm.mem_of_status ht
    rw [hget, if_neg fun (heq : t = c) => hnot (heq ▸ hmem)]
    split
    · nofun
    · exact h'.awake t ht
  · rw [hslot]
    exact h'.waiting o i v hp ho hi hv
  · rw [hslot]
    rw [hget] at hu'
    split_ifs at hu' with huc hhead
    · obtain rfl := huc
      exact absurd hq (hst.resolve_left fun hdead => by simp [hdead] at hu')
    · exact h'.asleep u i v hp hq hu hu' hv

/-- Dropping all frames writes no slot. -/
theorem resetRunning (hm : m.Steady C.toRegime ts) : C.Leaves k m m.resetRunning := by
  obtain ⟨hreset, hspares, -⟩ := hm.resetRunning
  have hclose : Confined (.between k) (fun _ => False) (closeUpvalues 0) := .closeUpvalues 0
  refine .of_respects hm hreset hspares.buries fun o i v _ hi hv => ?_
  have hsame : m.resetRunning.slot? o i = (m.modifyBoth fun h s => h.closeCells s 0).slot? o i := by
    apply Machine.slot?_congr <;> rfl
  rw [hsame]
  exact (hclose m k nofun fun _ => id).retains o i v hi hv

end Custody.Leaves

theorem Machine.Leased.rests (hL : m.Leased honest bounded L)
    (hr : m.running.Rests m.heap m'.heap m'.running) (hx : m.heap.Extends m'.heap) :
    m'.Leased honest bounded L where
  frames := by
    rw [hr.frames]
    exact hL.frames
  top hd := by
    rw [hr.top]
    exact hL.top (by rwa [depth, hr.frames] at hd)
  covered hh oc hoc := by
    rw [hr.frames]
    rcases hL.covered hh oc (hr.openCells ▸ hoc) with hold | ⟨f, hf, hcovers⟩
    · exact .inl hold
    · exact .inr ⟨f, hf, hcovers.mono hx⟩

section

variable (hS : IsCatalog C.program) {run : Run} (hrun : C.Minds run)

include hS hrun

/-! Coroutines -/

/-- The last frames of a coroutine are run, and its results collected. -/
theorem finish_tends {job : Job} (hm : m.Steady C.toRegime ts) (hready : C.toRegime.Ready ts m job)
    (hk : m.Kempt C.honest C.bounded) (hsuits : Lease.all.Suits m job)
    (hdone : ∀ m', C.toRegime.Done m job m' → m'.running.frames = #[]) :
    C.Tends .all m ((run job >>= fun _ => gather) m) := by
  have hgather : Orderly (C.toRegime.between 0) gather := .gather le_rfl
  exact (hrun.tends hm hready hk (.all hk) hsuits).bind hm (hrun.engines job ts m hm hready).right
    fun _ m' _ hm' _ hend hk' hL' => hgather.tends_between hS (Nat.zero_le _) hm'
      (Strand.floor_of_bare (hdone m' hend) 0) hk' hL'

omit hrun in
/-- A host function is on top of the strand, so nothing is open over the frame that goes. -/
theorem wake_tends (hm : m.Steady C.toRegime ts) (hk : m.Kempt C.honest C.bounded)
    (hL : m.Leased C.honest C.bounded L) (hs : m.running.Stopped C.toRegime m.heap)
    (hd : L.depth < m.depth) (args : List Value) : C.Tends L m (wake args m) := by
  have hplace : Orderly (C.toRegime.between m.running.top) (placeArguments m.running.top args) :=
    .placeArguments le_rfl args
  obtain ⟨fs, f, hfs, hlength⟩ := m.exists_append_frame (Nat.zero_lt_of_lt hs.frames)
  have hne : fs ≠ [] := by
    rintro rfl
    have htwo : 2 ≤ m.depth := hs.frames
    rw [← hlength] at htwo
    simp at htwo
  have hhost (hh : C.honest = true) : f.isLua = false := by
    obtain ⟨-, fs', f', host, hfs', hcall, -⟩ := hs.halted hh
    obtain ⟨-, hlast⟩ := List.append_inj' (hfs.symm.trans (hfs'.trans (by simp)) :
      fs ++ [f] = (fs' ++ [f']) ++ [host]) rfl
    rw [(List.cons.inj hlast).1]
    exact hcall.isHost
  rw [wake_apply]
  refine (hplace.tends_between hS (hL.top hd) hm hm.tidy_running.floor_top hk hL).bind hm
    (hplace.sequence.ends_between hS 0 hm hm.tidy_running.floor_top rfl)
    fun _ m₁ _ hm₁ _ hf₁ hk₁ hL₁ => ?_
  exact leaveFrame_tends hS hm₁ hk₁ hL₁ (hf₁ ▸ hfs) (fun _ hnil => absurd hnil hne)
    (by omega) (fun hh hlua => absurd (hhost hh) (by simp [hlua]))
    fun _ => hL.top hd

/-- A coroutine that is run may use its whole strand. -/
theorem runCoroutine_tends (hm : m.Steady C.toRegime ts) (hk : m.Kempt C.honest C.bounded)
    (hshape : m.running.Unstarted ∨ m.running.Stopped C.toRegime m.heap) (args : List Value) :
    C.Tends .all m (runCoroutine run args m) := by
  rw [runCoroutine_apply]
  rcases hshape with hu | hs
  · have hplace : Orderly (C.toRegime.between 0) (placeArguments 1 args) :=
      .placeArguments (Nat.zero_le _) args
    have hfloor := Strand.floor_of_bare hu.frames 0
    simp only [hu.frames, Array.isEmpty_empty, if_true]
    rw [beginCoroutine_eq]
    refine (hplace.tends_between hS le_rfl hm hfloor hk (.all hk)).bind hm
      (hplace.sequence.ends_between hS 0 hm hfloor hu.frames) fun u m₁ heq hm₁ _ hf₁ hk₁ _ => ?_
    have hbody₁ := Regime.BodyAt.placeArguments ⟨hu.frames, hu.body⟩ heq (hf₁.trans hu.frames.symm)
    exact finish_tends hS hrun hm₁ ⟨Strand.floor_of_bare hf₁ 0, .inr ⟨hbody₁, rfl, rfl⟩⟩ hk₁
      ⟨Nat.zero_le _, le_rfl⟩ fun m' h => (h (.inr hbody₁)).trans hf₁
  · have hne : m.running.frames ≠ #[] := by
      intro hnil
      have hsize := hs.frames
      simp [hnil] at hsize
    simp only [Array.isEmpty_eq_false_iff.2 hne]
    rw [if_neg Bool.false_ne_true, continueCoroutine_eq]
    refine (wake_tends hS hm hk (.all hk) hs (Nat.zero_lt_of_lt hs.frames) args).bind hm
      (wake_ends hS hm hs.frames args (Nat.zero_lt_of_lt hs.frames)) fun _ m₁ _ hm₁ _ _ hk₁ _ => ?_
    exact finish_tends hS hrun hm₁ trivial hk₁ (Nat.le_refl 0) fun m' h => by
      simpa [Regime.Done] using h

theorem resumeSuspended_tends (hm : m.Steady C.toRegime ts) (hk : m.Kempt C.honest C.bounded)
    (hL : m.Leased C.honest C.bounded L) (hc : (m.heap.coroutine c).status = .suspended)
    (args : List Value) : C.Tends L m (resumeSuspended run c args m) := by
  have hresumed := hm.resumed hc
  have hshape := hm.shape_resumed hc
  have hends := (runCoroutine_paired hS hrun.engines hresumed hshape args).right
  have hrun := runCoroutine_tends hS hrun hresumed (hk.resumed hm hc) hshape args
  rw [resumeSuspended_apply, hm.current]
  cases hr : runCoroutine run args (m.resumed c) with
  | ok vs m' =>
    rw [hr] at hends hrun
    obtain ⟨hm', hkeeps, -⟩ := hends
    obtain ⟨hkept, hrest⟩ := hm.keeps_resumedFrom hc hm' hkeeps.toSpares .dead (.inl rfl) 0
    exact ⟨hrun.kempt.resumedFrom hm', .of_resumedFrom hm hc hrun.leaves hm' (.inl rfl), fun _ =>
      hL.rests hrest hkept.extend⟩
  | error e m' =>
    rw [hr] at hends hrun
    rcases eq_or_ne e .yield with rfl | hne
    · obtain ⟨hm', hkeeps, hs⟩ := hends.2.resolve_left (by simp [Fault.isFatal])
      have hnot : ¬ C.quiet c := (hs rfl).awake c List.mem_cons_self
      obtain ⟨hkept, hrest⟩ := hm.keeps_resumedFrom hc hm' hkeeps.toSpares .suspended (.inr hnot) 0
      have hkempt : (m'.resumedFrom c ts.head? .suspended).Kempt C.honest C.bounded :=
        hrun.kempt.resumedFrom hm'
      have hleaves : C.Leaves L.floor m (m'.resumedFrom c ts.head? .suspended) :=
        .of_resumedFrom hm hc hrun.leaves hm' (.inr hnot)
      exact ⟨⟨hkempt.running, hkempt.parked, hkempt.stored, hkempt.main⟩,
        hleaves.congr rfl rfl rfl rfl rfl rfl rfl rfl, fun _ => hL.rests hrest hkept.extend⟩
    · simp only [resumeFailed_of_ne _ _ _ hne]
      cases he : e.isFatal with
      | true =>
        exact ⟨hrun.kempt, hrun.leaves.of_resumed hm hc, fun h => absurd (h e m' rfl) (by simp [he])⟩
      | false =>
        obtain ⟨hm', hkeeps, -⟩ := hends.2.resolve_left (by simp [he])
        obtain ⟨hreset, hspares, -⟩ := hm'.resetRunning
        obtain ⟨hkept, hrest⟩ := hm.keeps_resumedFrom hc hreset (hkeeps.toSpares.trans hspares)
          .dead (.inl rfl) 0
        have hleaves : C.Leaves 0 (m.resumed c) m'.resetRunning :=
          hrun.leaves.trans hresumed hm' hkeeps.toSpares hkeeps.owner (.resetRunning hm')
        exact ⟨(hrun.kempt.resetRunning hm').resumedFrom hreset,
          .of_resumedFrom hm hc hleaves hreset (.inl rfl), fun _ => hL.rests hrest hkept.extend⟩

theorem resume_tends (hm : m.Steady C.toRegime ts) (hk : m.Kempt C.honest C.bounded)
    (hL : m.Leased C.honest C.bounded L) (c : CoroutineId) (args : List Value) :
    C.Tends L m (resume run c args m) := by
  rw [resume_apply]
  cases hc : (m.heap.coroutine c).status with
  | suspended =>
    dsimp only
    split
    · exact .stay hk hL rfl
    · exact resumeSuspended_tends hS hrun hm hk hL hc args
  | _ => exact .stay hk hL rfl

omit hS hrun in
/-- A yield leaves everything where it is. -/
theorem yieldValues_tends (hk : m.Kempt C.honest C.bounded) (hL : m.Leased C.honest C.bounded L)
    (vs : List Value) : C.Tends L m ((yieldValues vs : Action α) m) := by
  rw [yieldValues_apply]
  split
  · exact .stay hk hL rfl
  · split
    · exact .stay hk hL rfl
    · have hleaves : C.Leaves L.floor m m := .refl m L.floor
      exact ⟨⟨hk.running, hk.parked, hk.stored, hk.main⟩,
        hleaves.congr rfl rfl rfl rfl rfl rfl rfl rfl, fun _ => hL.congr rfl rfl rfl rfl⟩

end

/-! Scripts -/

/-- What an action throws becomes a result, unless it is what no protected call may see. -/
theorem Custody.Tends.attempt {x : Action α} (hx : C.Tends L m (x m)) :
    C.Tends L m (LuaMachine.attempt x m) := by
  rw [Action.attempt_apply]
  cases hr : x m with
  | ok a m' =>
    rw [hr] at hx
    exact ⟨hx.kempt, hx.leaves, fun _ => hx.leased_ok⟩
  | error e m' =>
    rw [hr] at hx
    cases he : e.isFatal with
    | true =>
      simp only [he, if_true]
      exact ⟨hx.kempt, hx.leaves, fun h => absurd (h e m' rfl) (by simp [he])⟩
    | false =>
      simp only [he]
      refine ⟨hx.kempt, hx.leaves, fun _ => hx.leased fun e' m'' heq => ?_⟩
      rw [← (EStateM.Result.error.inj heq).1, he]

/-- Scripts keep to leases that have all their seat may free, where calls are placed above the floor of the
lease. What they are run in may be relied on for that, if it stays while frames do. -/
theorem Tame.tends_where (hS : IsCatalog C.program) {run : Run} (hrun : C.Minds run)
    (hawake : C.toRegime.Awake ts) (hprogram : ∀ p, R.program p → C.program p)
    (hhonest : R.honest = C.honest) {x : Run → Action α} (h : Tame R C.Strict x)
    (hm : m.Steady C.toRegime ts) (hseat : R.Settled ts d m) (hk : m.Kempt C.honest C.bounded)
    (hL : m.Leased C.honest C.bounded L) (hfrees : ∀ i, R.seat.Frees i → L.floor ≤ i) (hdepth : L.depth ≤ d)
    {P : Machine → Prop} (hP : P m)
    (hstays : ∀ m m', P m → C.toRegime.Stays R.seat m.running.frames 0 m' → P m')
    (hbase : ∀ m, P m → R.Settled ts d m → m.Leased C.honest C.bounded L → L.floor ≤ m.callBase)
    (hbeyond : ∀ m, P m → R.Settled ts d m → m.Leased C.honest C.bounded L → R.seat = .host →
      m.Beyond L.floor) : C.Tends L m (x run m) := by
  have hle {m : Machine} (hseat : R.Settled ts d m) : L.depth ≤ m.depth :=
    hdepth.trans hseat.stands.depth
  induction h generalizing m with
  | sequence h hx =>
    exact h.tends_confined hS hprogram hx hm hseat.seated hk hL hfrees (hbeyond m hP hseat hL)
      fun _ => False.elim
  | bind hx _ ihx ihf =>
    have hpaired := hx.script.paired hS hrun.engines hawake hprogram hhonest hm hseat (.self _ m)
    exact (ihx hm hseat hk hL hP).bind hm hpaired.right fun a m' heq hm' hkeeps hr hk' hL' =>
      ihf a ⟨run, m, m', heq⟩ hm' (hseat.after hkeeps hm') hk' hL' (hstays m m' hP hr)
  | callAt slot argCount wanted hslot =>
    exact callAt_tends hrun hawake hm hseat.stands.all.pos hk hL (hle hseat) (hseat.seated.floor hslot)
      (hfrees _ hslot) argCount wanted _
  | callHandler f args =>
    exact callHandler_tends hS hrun hawake hm hseat.stands.all.pos hk hL (hle hseat)
      (hbase m hP hseat hL) f args _
  | callValue f args =>
    exact callValue_tends hS hrun hawake hm hseat.stands.all.pos hk hL (hle hseat)
      (hbase m hP hseat hL) f args _
  | protectedCall f args =>
    exact protectedCall_tends hS hrun hawake hm hseat.stands.all.pos hk hL (hle hseat)
      (hbase m hP hseat hL) f args
  | resume c args => exact resume_tends hS hrun hm hk hL c args
  | call f args _ =>
    exact call_tends hS hrun hawake hm hseat.stands.all.pos hk hL (hle hseat) (hbase m hP hseat hL) f args
  | tryCall f args hhost _ _ ihv ihe =>
    have hcall := call_tends hS hrun hawake hm hseat.stands.all.pos hk hL (hle hseat)
      (hbase m hP hseat hL) f args
    have hpaired := (call_paired hS hrun.engines hawake hm hseat.stands f args).attempt
    refine hcall.attempt.bind hm hpaired.right fun r m' _ hm' hkeeps hr hk' hL' => ?_
    cases r with
    | ok vs =>
      exact ihv vs hm' (hseat.after hkeeps hm') hk' hL' (hstays m m' hP ((Regime.Stays.self _ m).returns hr))
    | error e =>
      have hreturns : C.toRegime.Returns m m' := ⟨fun _ => hr.1, hr.2.1⟩
      exact ihe e (fun he => hhonest.trans (hr.2.2 he)) hm' (hseat.after hkeeps hm') hk' hL'
        (hstays m m' hP ((Regime.Stays.self _ m).returns hreturns))
  | yieldValues vs _ => exact yieldValues_tends hk hL vs
  | attempt _ _ _ ih => exact (ih hm hseat hk hL hP).attempt

/-- So they do where the lease begins below the frame in which they are run, or leaves everything to them. -/
theorem Tame.tends (hS : IsCatalog C.program) {run : Run} (hrun : C.Minds run)
    (hawake : C.toRegime.Awake ts) (hprogram : ∀ p, R.program p → C.program p)
    (hhonest : R.honest = C.honest) {x : Run → Action α} (h : Tame R C.Strict x)
    (hm : m.Steady C.toRegime ts) (hseat : R.Settled ts d m) (hk : m.Kempt C.honest C.bounded)
    (hL : m.Leased C.honest C.bounded L) (hfrees : ∀ i, R.seat.Frees i → L.floor ≤ i)
    (hdepth : L.depth ≤ d) (hroom : L.depth < d ∨ L.floor = 0) : C.Tends L m (x run m) := by
  have hbeyond (m : Machine) (hseat : R.Settled ts d m) (hL : m.Leased C.honest C.bounded L) :
      m.Beyond L.floor := by
    rcases hroom with hlt | hzero
    · exact hL.beyond (hlt.trans_le hseat.stands.depth)
    · rw [hzero]
      exact ⟨Nat.zero_le _, fun _ _ => Nat.zero_le _⟩
  exact h.tends_where hS hrun hawake hprogram hhonest hm hseat hk hL hfrees hdepth
    (P := fun _ => True) trivial (fun _ _ _ _ => trivial)
    (fun m _ hseat hL => (hbeyond m hseat hL).top.trans m.top_le_callBase)
    fun m _ hseat hL _ => hbeyond m hseat hL

end LuaMachine
