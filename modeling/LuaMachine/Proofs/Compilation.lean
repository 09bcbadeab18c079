import LuaMachine.Proofs.Resumption

/-!
Compiling a verified prototype succeeds, and the code caches hold nothing but the units of the
prototypes they were asked for.
-/

namespace LuaMachine

variable {U : Prototype → Prop}

namespace CodeCache

variable {c : CodeCache} {p : Prototype} {r : Except CompileError CompiledUnit}

theorem Sound.record (hU : IsProgram U) (hc : c.Sound U) (hp : U p) (hr : p.IsCompiled r) :
    (c.record p.id r).Sound U := by
  have hunits (q : Prototype) (hq : U q) (r' : Except CompileError CompiledUnit)
      (h : (c.units.insert p.id r)[q.id]? = some r') : q.IsCompiled r' := by
    rw [Std.HashMap.getElem?_insert] at h
    split at h
    · next heq =>
      obtain rfl := hU.id_inj hp hq (by simpa using heq)
      exact Option.some.inj h ▸ hr
    · exact hc.units q hq r' h
  cases r <;> exact ⟨hc.backend, hunits⟩

mutual

/-- A verified prototype compiles to its unit. -/
theorem getOrCompile_sound (hU : IsProgram U) {c : CodeCache} (hc : c.Sound U) :
    ∀ {p : Prototype}, U p →
      p.IsCompiled (c.getOrCompile p).1 ∧ (c.getOrCompile p).2.Sound U
  | ⟨id, source, line, last, nup, npar, va, max, code, ks, children, lines, locals, names⟩, hp => by
    rw [getOrCompile]
    cases hfound : c.units[id]? with
    | some r => exact ⟨hc.units _ hp r hfound, hc.backend, hc.units⟩
    | none =>
      obtain ⟨l, hl⟩ := (hU.verified hp).exists_lower
      simp only [hl]
      have hchildren (q : Prototype) (hq : q ∈ children) : U q := hU.child hp hq
      have hall := compileAll_sound hU hc hchildren
      rcases hr : c.compileAll children with ⟨e, c'⟩
      rw [hr] at hall
      obtain ⟨rfl, hc'⟩ := hall
      have hassemble : c'.assemble id l = (.ok ⟨id, l, none⟩, c') := by
        rw [assemble, hc'.backend]
      simp only [hassemble]
      have hunit : Prototype.IsCompiled _ (.ok ⟨id, l, none⟩) := ⟨_, rfl, rfl, hl, rfl⟩
      exact ⟨hunit, hc'.record hU hp hunit⟩

theorem compileAll_sound (hU : IsProgram U) {c : CodeCache} (hc : c.Sound U) :
    ∀ {ps : List Prototype}, (∀ p ∈ ps, U p) →
      (c.compileAll ps).1 = none ∧ (c.compileAll ps).2.Sound U
  | [], _ => by
    rw [compileAll]
    exact ⟨rfl, hc⟩
  | p :: ps, hps => by
    obtain ⟨⟨u, hu, -⟩, hc'⟩ := getOrCompile_sound hU hc (hps p List.mem_cons_self)
    rw [compileAll]
    rcases hr : c.getOrCompile p with ⟨r, c'⟩
    rw [hr] at hu hc'
    subst hu
    exact compileAll_sound hU hc' fun q hq => hps q (List.mem_cons_of_mem _ hq)

end

end CodeCache

open Setting

variable {S : Setting} {m : Machine} {c : ClosureId}

theorem Heap.closure_mem {h : Heap} (hc : c.index < h.closures.size) :
    h.closure c ∈ h.closures := by
  rw [Heap.closure_eq hc]
  exact Array.getElem_mem hc

/-- The heap in which a closure has a unit and a cache another content. -/
def Heap.compiled (h : Heap) (cache : Nat) (cc : CodeCache) (c : ClosureId)
    (r : Except CompileError CompiledUnit) : Heap :=
  ({ h with caches := h.caches.setIfInBounds cache cc } : Heap).modifyClosure c
    fun closure => { closure with unit := some r }

theorem Heap.erase_compiled (h : Heap) (cache : Nat) {cc : CodeCache} (c : ClosureId)
    (r : Except CompileError CompiledUnit) (hcc : ∀ d ∈ h.caches, d.backend = cc.backend) :
    (h.compiled cache cc c r).erase = h.erase := by
  rw [compiled, erase_modifyClosure_unit]
  simp only [erase, mk.injEq, true_and, and_true]
  ext i hi hi'
  · simp
  · have hlt : i < h.caches.size := by simpa using hi'
    rw [Array.getElem_map, Array.getElem_map, Array.getElem_setIfInBounds hlt]
    split
    · simp only [CodeCache.erase, hcc _ (Array.getElem_mem _)]
    · rfl

theorem Heap.mem_modifyClosure {h : Heap} {f : Closure → Closure} {d : Closure}
    (hd : d ∈ (h.modifyClosure c f).closures) :
    d ∈ h.closures ∨ h.closure c ∈ h.closures ∧ d = f (h.closure c) := by
  obtain ⟨i, hi, rfl⟩ := Array.mem_iff_getElem.1 hd
  have hi' : i < h.closures.size := by
    simpa only [modifyClosure, modifyClosures, Array.size_modify] using hi
  simp only [modifyClosure, modifyClosures, Array.getElem_modify]
  split
  · next hc =>
    have hget : h.closure c = h.closures[i] := by simp [closure, hc, hi']
    exact .inr ⟨hget ▸ Array.getElem_mem hi', hget ▸ rfl⟩
  · exact .inl (Array.getElem_mem hi')

theorem Heap.extends_modifyClosure (h : Heap) (c : ClosureId)
    (u : Option (Except CompileError CompiledUnit)) :
    h.Extends (h.modifyClosure c fun closure => { closure with unit := u }) := by
  intro d hd
  have herase := h.erase_modifyClosure_unit c u
  have hd' : d.index < (h.modifyClosure c fun closure =>
      { closure with unit := u }).closures.size := by
    simpa only [modifyClosure, modifyClosures, Array.size_modify] using hd
  exact ⟨hd', by rw [← Heap.erase_closure, herase, Heap.erase_closure]⟩

namespace Setting

theorem sound_compiled (hm : S.Sound m) {cache : Nat} {cc : CodeCache} (hcc : cc.Sound S.program)
    {r : Except CompileError CompiledUnit} (hr : (m.heap.closure c).proto.IsCompiled r) :
    S.Calm m { m with heap := m.heap.compiled cache cc c r } := by
  have hx : m.heap.Extends (m.heap.compiled cache cc c r) := Heap.extends_modifyClosure _ c _
  refine ⟨⟨fun d hd => ?_, fun d hd => ?_, fun co hco => (hm.coroutines co hco).mono hx (.refl co),
    hm.running.mono hx (.refl _), fun s hs => (hm.parked s hs).mono hx (.refl s)⟩,
    ⟨hx, rfl, le_rfl, .refl _⟩, rfl⟩
  · rcases Heap.mem_modifyClosure hd with hmem | ⟨hmem, rfl⟩
    · exact hm.closures d hmem
    · have hsound := hm.closures _ hmem
      exact ⟨hsound.program, hsound.upvalues, fun r' hr' => Option.some.inj hr' ▸ hr⟩
  · rcases Array.mem_or_eq_of_mem_setIfInBounds hd with hmem | rfl
    · exact hm.caches d hmem
    · exact hcc

end Setting

/-- What compiling a closure does to a sound machine. -/
theorem compileClosure_apply (hS : S.Valid) (hm : S.Sound m) (hc : c.index < m.heap.closures.size) :
    ∃ u m', compileClosure c m = .ok (.ok u) m' ∧ (m.heap.closure c).proto.IsUnit u ∧
      S.Calm m m' ∧ m'.erase = m.erase := by
  have hclosure := hm.closures _ (Heap.closure_mem hc)
  cases hunit : (m.heap.closure c).unit with
  | some r =>
    obtain ⟨u, rfl, hu⟩ := hclosure.unit r hunit
    refine ⟨u, m, ?_, hu, hm.calm, rfl⟩
    simp [compileClosure, Action.bind_apply, hunit]
  | none =>
    have hcache : (m.heap.cache m.cache).Sound S.program := by
      unfold Heap.cache
      cases hget : m.heap.caches[m.cache]? with
      | none => exact ⟨rfl, fun p _ r hr => by
        change (∅ : Std.HashMap Nat (Except CompileError CompiledUnit))[p.id]? = some r at hr
        simp at hr⟩
      | some cc => exact hm.caches cc (Array.mem_of_getElem? hget)
    obtain ⟨⟨u, hu, hisUnit⟩, hcc⟩ :=
      CodeCache.getOrCompile_sound hS.program hcache hclosure.program
    rcases hcompiled : (m.heap.cache m.cache).getOrCompile (m.heap.closure c).proto with ⟨r, cc⟩
    rw [hcompiled] at hu hcc
    obtain rfl : r = .ok u := hu
    refine ⟨u, { m with heap := m.heap.compiled m.cache cc c (.ok u) }, ?_, hisUnit,
      sound_compiled hm hcc ⟨u, rfl, hisUnit⟩, ?_⟩
    · simp only [compileClosure, Action.bind_apply, Action.view_apply, hunit, Action.onHeap_apply,
        Heap.compile, hcompiled]
      rfl
    · have hbackend (d : CodeCache) (hd : d ∈ m.heap.caches) : d.backend = cc.backend :=
        (hm.caches d hd).backend.trans hcc.backend.symm
      simp only [Machine.erase, m.heap.erase_compiled m.cache c (.ok u) hbackend]

end LuaMachine
