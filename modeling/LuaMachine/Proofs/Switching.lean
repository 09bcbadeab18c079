import LuaMachine.Proofs.Nesting

/-!
Switching between strands. A coroutine that is resumed comes first in the chain; when it ends, fails
or yields, the rest of the chain is as it was, and the coroutine has its strand back.
-/

namespace LuaMachine

variable {S : Regime} {ts : List CoroutineId} {m m' : Machine} {h h' : Heap} {c u : CoroutineId}

/-- Heaps that differ in the state of coroutines only. -/
structure Heap.Matches (h h' : Heap) : Prop where
  cells : h'.cells = h.cells
  closures : h'.closures = h.closures
  caches : h'.caches = h.caches
  size : h'.coroutines.size = h.coroutines.size

/-- Gives a status to a coroutine, if there is one. -/
def Heap.withStatus (h : Heap) (o : Option CoroutineId) (status : CoroutineStatus) : Heap :=
  match o with
  | some u => h.modifyCoroutine u fun ⟨_, strand⟩ => ⟨status, strand⟩
  | none => h

namespace Heap

theorem matches_modifyCoroutine (h : Heap) (c : CoroutineId) (f : Coroutine → Coroutine) :
    h.Matches (h.modifyCoroutine c f) :=
  ⟨rfl, rfl, rfl, Array.size_modify⟩

theorem Matches.trans {h'' : Heap} (hx : h.Matches h') (hx' : h'.Matches h'') : h.Matches h'' :=
  ⟨hx'.cells.trans hx.cells, hx'.closures.trans hx.closures, hx'.caches.trans hx.caches,
    hx'.size.trans hx.size⟩

theorem matches_withStatus (h : Heap) (o : Option CoroutineId) (status : CoroutineStatus) :
    h.Matches (h.withStatus o status) := by
  cases o with
  | none => exact ⟨rfl, rfl, rfl, rfl⟩
  | some u => exact h.matches_modifyCoroutine u _

theorem coroutine_withStatus (h : Heap) (o : Option CoroutineId) (status : CoroutineStatus)
    (c : CoroutineId) : (h.withStatus o status).coroutine c =
      if o = some c ∧ c.index < h.coroutines.size then ⟨status, (h.coroutine c).strand⟩
      else h.coroutine c := by
  cases o with
  | none => simp [withStatus]
  | some u =>
    simp only [withStatus, coroutine_modifyCoroutine, Option.some.injEq]

namespace Matches

variable (hx : h.Matches h')

include hx

theorem cell (id : CellId) : h'.cell id = h.cell id := by
  rw [Heap.cell, hx.cells, ← Heap.cell]

theorem names (o : Owner) (i : Nat) : h'.Names o i ↔ h.Names o i := by
  simp only [Names, hx.cell]

theorem extend : h.Extends h' := .of_eq hx.closures

theorem tidy {s : Strand} (hs : s.Tidy h) : s.Tidy h' :=
  hs.rests (.of_names fun i => (hx.names s.owner i).1) hx.extend fun id _ hid => hx.cell id ▸ hid

theorem halted {s : Strand} (hs : s.Halted h) : s.Halted h' := hs.mono hx.extend rfl rfl rfl

theorem stopped {s : Strand} (hs : s.Stopped S h) : s.Stopped S h' :=
  ⟨hs.frames, fun hS => hx.halted (hs.halted hS)⟩

end Matches

end Heap

/-- Strands rest in heaps with the same cells. -/
theorem Strand.Rests.matches {h₁ h₁' : Heap} {s s' : Strand} (hr : s.Rests h₁ h₁' s')
    (hx : h.Matches h₁) (hx' : h₁'.Matches h') : s.Rests h h' s' :=
  { hr with
    slots := fun i hi => hr.slots i fun hn => hi ((hx.names _ _).1 hn)
    names := fun i hi => (hx.names _ _).1 (hr.names i ((hx'.names _ _).1 hi)) }

theorem Coroutine.Rests.matches {h₁ h₁' : Heap} {co co' : Coroutine} (hr : co.Rests h₁ h₁' co')
    (hx : h.Matches h₁) (hx' : h₁'.Matches h') : co.Rests h h' co' := by
  refine ⟨hr.status, ?_⟩
  have hs := hr.strand
  generalize co.strand = o at hs
  generalize co'.strand = o' at hs
  cases hs with
  | none => exact .none
  | some hr => exact .some (hr.matches hx hx')

namespace Machine

/-! Resuming -/

theorem setCurrentStatus_eq (m : Machine) (status : CoroutineStatus) :
    m.setCurrentStatus status = { m with heap := m.heap.withStatus m.current status } := by
  obtain ⟨heap, running, parked, current, globals, strings, cache, options, yielded, calls, output⟩ := m
  cases current <;> rfl

theorem resumed_eq (m : Machine) (c : CoroutineId) :
    m.resumed c =
      { m with
        heap := (m.heap.modifyCoroutine c fun _ => ⟨.running, none⟩).withStatus m.current .normal
        running := ((m.heap.coroutine c).strand).getD default
        parked := m.running :: m.parked
        current := some c
        nativeCalls := m.nativeCalls + 1 } := by
  simp only [resumed, switchTo, setCurrentStatus_eq]
  rfl

/-- The coroutines of a machine on which one is resumed. -/
theorem coroutine_resumed (hm : m.Chained ts) (hc : (m.heap.coroutine c).status = .suspended)
    (u : CoroutineId) : (m.resumed c).heap.coroutine u =
      if u = c then ⟨.running, none⟩ else if u ∈ ts then ⟨.normal, none⟩ else m.heap.coroutine u := by
  have hlt : c.index < m.heap.coroutines.size := Heap.coroutine_lt (by simp [hc])
  have hnot : c ∉ ts := hm.not_mem_of_status hc
  rw [resumed_eq]
  simp only [Heap.coroutine_withStatus, Heap.coroutine_modifyCoroutine,
    (m.heap.matches_modifyCoroutine c _).size, hm.current]
  by_cases huc : u = c
  · subst huc
    have hhead : ts.head? ≠ some u := fun h => hnot (List.mem_of_mem_head? h)
    simp [hlt, hhead]
  · simp only [huc, Ne.symm huc, false_and, if_false]
    by_cases hu : u ∈ ts
    · simp only [hu, if_true, hm.lt_of_mem hu, and_true, hm.strand_of_mem hu]
      split
      · rfl
      · next hhead =>
        refine hm.normal u ?_
        cases ts with
        | nil => simp at hu
        | cons t ts =>
          rcases List.mem_cons.1 hu with rfl | hu
          · simp at hhead
          · exact hu
    · have hhead : ts.head? ≠ some u := fun h => hu (List.mem_of_mem_head? h)
      simp [hu, hhead]

theorem matches_resumed (m : Machine) (c : CoroutineId) : m.heap.Matches (m.resumed c).heap := by
  rw [resumed_eq]
  exact (m.heap.matches_modifyCoroutine c _).trans (Heap.matches_withStatus _ _ _)

theorem Steady.exists_strand (hm : m.Steady S ts) (hc : (m.heap.coroutine c).status = .suspended) :
    ∃ s, (m.heap.coroutine c).strand = some s ∧ s.owner = .coroutine c ∧ s.Tidy m.heap ∧
      (s.Unstarted ∨ s.Stopped S m.heap) := by
  have hnot : c ∉ ts := hm.not_mem_of_status hc
  obtain ⟨s, hs, howner, -⟩ := hm.others c (Heap.coroutine_lt (by simp [hc])) hnot
  obtain ⟨htidy, hshape⟩ := hm.stored c s hnot hs
  exact ⟨s, hs, howner, htidy, hshape hc⟩

/-- The coroutine that is resumed comes first in the chain. -/
theorem Steady.resumed (hm : m.Steady S ts) (hc : (m.heap.coroutine c).status = .suspended) :
    (m.resumed c).Steady S (c :: ts) := by
  have hnot : c ∉ ts := hm.not_mem_of_status hc
  have hx := m.matches_resumed c
  have hget := coroutine_resumed hm.toChained hc
  obtain ⟨s, hs, howner, htidy, -⟩ := hm.exists_strand hc
  have hrunning : (m.resumed c).running = s := by rw [resumed_eq, hs]; rfl
  have hparked : (m.resumed c).parked = m.running :: m.parked := by rw [resumed_eq]
  have hne {u : CoroutineId} (hu : u ∈ ts) : u ≠ c := fun heq => hnot (heq ▸ hu)
  have hother {u : CoroutineId} (hu : u ∉ c :: ts) :
      (m.resumed c).heap.coroutine u = m.heap.coroutine u := by
    rw [List.mem_cons, not_or] at hu
    rw [hget, if_neg hu.1, if_neg hu.2]
  exact {
    nodup := List.nodup_cons.2 ⟨hnot, hm.nodup⟩
    current := by rw [resumed_eq]; rfl
    strands := by
      obtain ⟨n, hn⟩ := hm.strands
      exact ⟨n, by rw [hrunning, hparked, List.map_cons, hn, howner]; rfl⟩
    running t ht := by
      obtain rfl : c = t := by simpa using ht
      rw [hget, if_pos rfl]
    normal t ht := by
      have hmem : t ∈ ts := ht
      rw [hget, if_neg (hne hmem), if_pos hmem]
    others u hu hts := by
      rw [hx.size] at hu
      simp only [hother hts, hx.names]
      exact hm.others u hu fun hmem => hts (List.mem_cons_of_mem _ hmem)
    owned id u i hid := by
      rw [hx.size]
      exact hm.owned id u i (hx.cell id ▸ hid)
    tidy t ht := by
      rw [hrunning, hparked] at ht
      rcases List.mem_cons.1 ht with rfl | ht
      · exact hx.tidy htidy
      · exact hx.tidy (hm.tidy t ht)
    stored u t hu ht := by
      rw [hother hu] at ht ⊢
      obtain ⟨htidy, hshape⟩ := hm.stored u t (fun hmem => hu (List.mem_cons_of_mem _ hmem)) ht
      exact ⟨hx.tidy htidy, fun h => (hshape h).imp_right hx.stopped⟩
    closures := hx.closures ▸ hm.closures
    caches := hx.caches ▸ hm.caches }

/-- The strand of a coroutine that is resumed is as it was when it stopped. -/
theorem Steady.shape_resumed (hm : m.Steady S ts) (hc : (m.heap.coroutine c).status = .suspended) :
    (m.resumed c).running.Unstarted ∨ (m.resumed c).running.Stopped S (m.resumed c).heap := by
  obtain ⟨s, hs, -, -, hshape⟩ := hm.exists_strand hc
  have hrunning : (m.resumed c).running = s := by rw [resumed_eq, hs]; rfl
  rw [hrunning]
  exact hshape.imp_right (m.matches_resumed c).stopped

/-! Going back -/

theorem resumedFrom_eq (m : Machine) (c : CoroutineId) (resumer : Option CoroutineId)
    (status : CoroutineStatus) {s : Strand} {parked : List Strand} (hp : m.parked = s :: parked) :
    m.resumedFrom c resumer status =
      { m with
        heap := ((m.heap.modifyCoroutine c fun ⟨status, _⟩ => ⟨status, some m.running⟩).withStatus
          resumer .running).withStatus (some c) status
        running := s
        parked := parked
        current := resumer
        nativeCalls := m.nativeCalls - 1 } := by
  simp only [resumedFrom, switchBack, hp, setCurrentStatus_eq]
  rfl

/-- There is a strand to go back to. -/
theorem Chained.exists_parked (hm : m.Chained (c :: ts)) :
    ∃ n s parked, m.parked = s :: parked ∧ m.running.owner = .coroutine c ∧
      (s :: parked).map (·.owner) = ts.map .coroutine ++ [.main n] := by
  obtain ⟨n, hn⟩ := hm.strands
  rw [List.map_cons, List.map_cons, List.cons_append, List.cons.injEq] at hn
  cases hp : m.parked with
  | nil => simp [hp] at hn
  | cons s parked => exact ⟨n, s, parked, rfl, hn.1, hp ▸ hn.2⟩

variable {status : CoroutineStatus}

theorem matches_resumedFrom (hm : m.Chained (c :: ts)) (resumer : Option CoroutineId)
    (status : CoroutineStatus) : m.heap.Matches (m.resumedFrom c resumer status).heap := by
  obtain ⟨n, s, parked, hp, -⟩ := hm.exists_parked
  rw [resumedFrom_eq m c resumer status hp]
  have hx := (m.heap.matches_modifyCoroutine c fun ⟨status, _⟩ => ⟨status, some m.running⟩).trans
    (Heap.matches_withStatus _ resumer .running)
  exact hx.trans (Heap.matches_withStatus _ (some c) status)

theorem coroutine_resumedFrom (hm : m.Chained (c :: ts)) (status : CoroutineStatus)
    (u : CoroutineId) : (m.resumedFrom c ts.head? status).heap.coroutine u =
      if u = c then ⟨status, some m.running⟩ else if ts.head? = some u then ⟨.running, none⟩
      else m.heap.coroutine u := by
  obtain ⟨n, s, parked, hp, -⟩ := hm.exists_parked
  have hlt : c.index < m.heap.coroutines.size := hm.lt_of_mem List.mem_cons_self
  have hnot : c ∉ ts := (List.nodup_cons.1 hm.nodup).1
  have hx := m.heap.matches_modifyCoroutine c fun ⟨status, _⟩ => ⟨status, some m.running⟩
  rw [resumedFrom_eq m c _ status hp]
  simp only [Heap.coroutine_withStatus, (Heap.matches_withStatus _ _ _).size,
    Heap.coroutine_modifyCoroutine, hx.size]
  by_cases huc : u = c
  · subst huc
    have hhead : ts.head? ≠ some u := fun h => hnot (List.mem_of_mem_head? h)
    simp [hlt, hhead]
  · simp only [Option.some.injEq, huc, Ne.symm huc, false_and, if_false]
    split
    · next hhead =>
      have hu : u ∈ c :: ts := List.mem_cons_of_mem _ (List.mem_of_mem_head? hhead.1)
      simp only [hhead.1, if_true, hm.strand_of_mem hu]
    · next hhead =>
      split
      · next hu =>
        exact absurd ⟨hu, hm.lt_of_mem (List.mem_cons_of_mem _ (List.mem_of_mem_head? hu))⟩ hhead
      · rfl

/-- The coroutine that goes back leaves the chain: it is dead and has no frames, or it stopped. -/
theorem Steady.resumedFrom (hm : m.Steady S (c :: ts))
    (hst : status = .dead ∧ m.running.frames = #[] ∨
      status = .suspended ∧ m.running.Stopped S m.heap) :
    (m.resumedFrom c ts.head? status).Steady S ts := by
  obtain ⟨n, s, parked, hp, howner, hn⟩ := hm.exists_parked
  obtain ⟨hnot, hnodup⟩ := List.nodup_cons.1 hm.nodup
  have hx := matches_resumedFrom hm.toChained ts.head? status
  have hget := coroutine_resumedFrom hm.toChained status
  have hrunning : (m.resumedFrom c ts.head? status).running = s := by
    rw [resumedFrom_eq m c _ status hp]
  have hparked : (m.resumedFrom c ts.head? status).parked = parked := by
    rw [resumedFrom_eq m c _ status hp]
  have htidy := hm.tidy_running
  have hgrounded := htidy.grounded ⟨c, howner⟩
  have hne {u : CoroutineId} (hu : u ∈ ts) : u ≠ c := fun heq => hnot (heq ▸ hu)
  have hhead {u : CoroutineId} (hu : u ∉ ts) : ts.head? ≠ some u :=
    fun h => hu (List.mem_of_mem_head? h)
  exact {
    nodup := hnodup
    current := by rw [resumedFrom_eq m c _ status hp]
    strands := ⟨n, by rw [hrunning, hparked, hn]⟩
    running t ht := by
      rw [hget, if_neg (hne (List.mem_of_mem_head? ht)), if_pos ht]
    normal t ht := by
      have hmem := List.mem_of_mem_tail ht
      rw [hget, if_neg (hne hmem), if_neg ?_]
      · exact hm.normal t hmem
      · intro hhead
        cases ts with
        | nil => simp at hmem
        | cons t' ts =>
          obtain rfl : t' = t := by simpa using hhead
          exact (List.nodup_cons.1 hnodup).1 ht
    others u hu hts := by
      rw [hx.size] at hu
      by_cases huc : u = c
      · subst huc
        rw [hget, if_pos rfl]
        refine ⟨m.running, rfl, howner, ?_⟩
        rcases hst with ⟨rfl, hf⟩ | ⟨rfl, -⟩
        · refine .inr ⟨rfl, hf, hgrounded.bare (by rw [hf]), fun slot hslot => ?_⟩
          exact htidy.not_names ⟨u, howner⟩ hf slot (howner ▸ (hx.names _ _).1 hslot)
        · exact .inl rfl
      · simp only [hget, huc, hhead hts, if_false, hx.names]
        exact hm.others u hu fun hmem => hts ((List.mem_cons.1 hmem).resolve_left huc)
    owned id u i hid := by
      rw [hx.size]
      exact hm.owned id u i (hx.cell id ▸ hid)
    tidy t ht := by
      rw [hrunning, hparked, ← hp] at ht
      exact hx.tidy (hm.tidy t (List.mem_cons_of_mem _ ht))
    stored u t hu ht := by
      by_cases huc : u = c
      · subst huc
        rw [hget, if_pos rfl] at ht ⊢
        obtain rfl := Option.some.inj ht
        refine ⟨hx.tidy htidy, fun hsus => .inr ?_⟩
        rcases hst with ⟨rfl, -⟩ | ⟨-, hstop⟩
        · cases hsus
        · exact hx.stopped hstop
      · rw [hget, if_neg huc, if_neg (hhead hu)] at ht ⊢
        obtain ⟨htidy, hshape⟩ :=
          hm.stored u t (fun hmem => hu ((List.mem_cons.1 hmem).resolve_left huc)) ht
        exact ⟨hx.tidy htidy, fun h => (hshape h).imp_right hx.stopped⟩
    closures := hx.closures ▸ hm.closures
    caches := hx.caches ▸ hm.caches }

theorem Chained.not_mem_of_dead (hm : m.Chained ts) (hu : m.heap.IsDead u) : u ∉ ts := by
  intro hmem
  have hstatus := hu.2
  rcases hm.status_of_mem hmem with h | h <;> simp [h] at hstatus

theorem Chained.buries_resumed (hm : m.Chained ts) (hc : (m.heap.coroutine c).status = .suspended) :
    m.heap.Buries (m.resumed c).heap := by
  intro u hu
  have huc : u ≠ c := by
    rintro rfl
    simp [hu.2] at hc
  refine ⟨(m.matches_resumed c).size ▸ hu.1, ?_⟩
  rw [coroutine_resumed hm hc, if_neg huc, if_neg (hm.not_mem_of_dead hu)]
  exact hu.2

theorem Chained.buries_resumedFrom (hm : m.Chained (c :: ts)) (status : CoroutineStatus) :
    m.heap.Buries (m.resumedFrom c ts.head? status).heap := by
  intro u hu
  have hnot := hm.not_mem_of_dead hu
  rw [List.mem_cons, not_or] at hnot
  have hhead : ¬ ts.head? = some u := fun h => hnot.2 (List.mem_of_mem_head? h)
  refine ⟨(matches_resumedFrom hm _ status).size ▸ hu.1, ?_⟩
  rw [coroutine_resumedFrom hm, if_neg hnot.1, if_neg hhead]
  exact hu.2

/-- What the coroutine did leaves the resumer as it was. -/
theorem Steady.keeps_resumedFrom (hm : m.Steady S ts)
    (hc : (m.heap.coroutine c).status = .suspended) (hm' : m'.Steady S (c :: ts))
    (hk : (m.resumed c).Spares S m') (status : CoroutineStatus) (hst : status = .dead ∨ ¬ S.quiet c)
    (d : Nat) :
    m.Keeps S d (m'.resumedFrom c ts.head? status) ∧
      m.running.Rests m.heap (m'.resumedFrom c ts.head? status).heap
        (m'.resumedFrom c ts.head? status).running := by
  obtain ⟨n, s, parked, hp, -, -⟩ := hm'.exists_parked
  have hx := m.matches_resumed c
  have hx' := matches_resumedFrom hm'.toChained ts.head? status
  have hget' := coroutine_resumedFrom hm'.toChained status
  have hparked : (m.resumed c).parked = m.running :: m.parked := by rw [resumed_eq]
  have hcalls : (m.resumed c).nativeCalls = m.nativeCalls + 1 := by rw [resumed_eq]
  obtain ⟨hs, hrest⟩ := List.forall₂_cons.1 (hp ▸ hparked ▸ hk.parked)
  have hrunning : (m'.resumedFrom c ts.head? status).running = s := by
    rw [resumedFrom_eq m' c _ status hp]
  have hparked' : (m'.resumedFrom c ts.head? status).parked = parked := by
    rw [resumedFrom_eq m' c _ status hp]
  have hs' : m.running.Rests m.heap (m'.resumedFrom c ts.head? status).heap s := hs.matches hx hx'
  -- coroutines that are not in the chain
  have hold {u : CoroutineId} (huc : u ≠ c) (huts : u ∉ ts) :
      (m.resumed c).heap.coroutine u = m.heap.coroutine u := by
    rw [coroutine_resumed hm.toChained hc, if_neg huc, if_neg huts]
  have hnew {u : CoroutineId} (huc : u ≠ c) (huts : u ∉ ts) :
      (m'.resumedFrom c ts.head? status).heap.coroutine u = m'.heap.coroutine u := by
    have hhead : ¬ ts.head? = some u := fun h => huts (List.mem_of_mem_head? h)
    rw [hget', if_neg huc, if_neg hhead]
  rw [hrunning]
  have hburies := hm'.buries_resumedFrom status
  refine ⟨⟨⟨?_, ?_, hx.extend.trans (hk.extend.trans hx'.extend),
    (hm.buries_resumed hc).trans (hk.buries.trans hburies), fun u hq hu => ?_⟩, ?_, ?_, ?_⟩, hs'⟩
  · rw [resumedFrom_eq m' c _ status hp]
    change m'.nativeCalls - 1 = m.nativeCalls
    rw [hk.nativeCalls, hcalls, Nat.add_sub_cancel]
  · rw [hparked']
    exact hrest.imp fun _ _ h => h.matches hx hx'
  · by_cases huc : u = c
    · subst huc
      refine .inr ⟨hx'.size ▸ hm'.lt_of_mem List.mem_cons_self, ?_⟩
      rw [hget', if_pos rfl]
      exact hst.resolve_right fun h => h hq
    · have huts : u ∉ ts := hm.not_mem_of_status hu
      have hq' := hk.quiet u hq (by rwa [hold huc huts])
      rw [hold huc huts] at hq'
      rw [hnew huc huts]
      exact hq'.imp (·.matches hx hx') (hburies u)
  · rw [hrunning]
    exact hs'.owner
  · rw [hrunning]
    exact hs'.boundaries
  · rw [hrunning, hs'.frames]
    exact List.take_prefix d _

/-- Dropping all frames leaves nothing open. -/
theorem Steady.resetRunning (hm : m.Steady S ts) :
    m.resetRunning.Steady S ts ∧ m.Spares S m.resetRunning ∧ m.resetRunning.running.frames = #[] := by
  have hshift := hm.shift_closeUpvalues 0
  have hclosed := hm.drift hshift.drift hshift.tidy
  generalize hm₁ : (m.modifyBoth fun h s => h.closeCells s 0) = m₁ at hshift hclosed
  have hopen : m₁.running.openCells = [] := by
    rw [← hm₁]
    change (m.heap.closeCells m.running 0).2.openCells = []
    rw [Heap.openCells_closeCells]
    simp
  have hreset : m.resetRunning =
      m₁.modifyRunning fun s => { s with frames := #[], top := 0, boundaries := 0 } := by
    rw [← hm₁]
    rfl
  rw [hreset]
  have hnil : (#[] : Array Frame).toList = [] := rfl
  have htidy : Strand.Tidy m₁.heap { m₁.running with frames := #[], top := 0, boundaries := 0 } :=
    hclosed.tidy_running.mk' rfl rfl (fun f hf => absurd (hnil ▸ hf) List.not_mem_nil) fun _ =>
      ⟨fun _ => hopen, nofun⟩
  exact ⟨hclosed.congr rfl rfl rfl rfl htidy, { Machine.Spares.of_drift hshift.drift with }, rfl⟩

theorem Steady.withoutYielded (hm : m.Steady S ts) : m.withoutYielded.Steady S ts :=
  hm.congr rfl rfl rfl rfl hm.tidy_running

end Machine

end LuaMachine
