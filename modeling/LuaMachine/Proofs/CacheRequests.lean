import LuaMachine.Proofs.Transparency

/-!
Requests to a code cache. Whatever it was asked to compile before, a cache has a unit for every
verified prototype that shares its identity with no other one, so that a machine in strict mode finds
one for each closure it may call.
-/

namespace LuaMachine

variable {U : Prototype → Prop}

/-- No prototype of the tree has the identity of another one in the program. -/
def Prototype.Respects (U : Prototype → Prop) (q : Prototype) : Prop :=
  ∀ r, q.Contains r → ∀ p, U p → p.id = r.id → p = r

theorem Prototype.Respects.child {q r : Prototype} (h : q.Respects U) (hr : r ∈ q.children) :
    r.Respects U := by
  intro s hs
  obtain ⟨i, hi⟩ := List.mem_iff_getElem?.1 hr
  obtain ⟨path, hpath⟩ := hs
  apply h s ⟨i :: path, ?_⟩
  rw [descend?, hi]
  exact hpath

namespace CodeCache

variable {c : CodeCache}

/-- The cache that requests leave behind, made one after the other. -/
def after (requests : List Prototype) : CodeCache :=
  requests.foldl (fun c p => (c.getOrCompile p).2) { backend := .threaded }

namespace Sound

theorem empty : ({ backend := .threaded } : CodeCache).Sound U where
  backend := rfl
  units p _ r hr := by simp [lookup] at hr

/-- What is kept under an identity out of use does not matter. -/
theorem record_other (hc : c.Sound U) {id : Nat} (hid : ∀ p, U p → p.id ≠ id)
    (r : Except CompileError CompiledUnit) : (c.record id r).Sound U := by
  have hunits (p : Prototype) (hp : U p) (r' : Except CompileError CompiledUnit)
      (h : (c.units.insert id r)[p.id]? = some r') : p.IsCompiled r' := by
    rw [Std.HashMap.getElem?_insert, if_neg (by simpa using (hid p hp).symm)] at h
    exact hc.units p hp r' h
  cases r <;> exact ⟨hc.backend, hunits⟩

theorem assemble (hc : c.Sound U) (id : Nat) (l : Lowered) : (c.assemble id l).2.Sound U := by
  rw [CodeCache.assemble, hc.backend]
  exact hc

mutual

/-- A request keeps the cache sound, be it for a prototype of the program or for code that cannot be
compiled. -/
theorem getOrCompile (hU : IsProgram U) {c : CodeCache} (hc : c.Sound U) :
    ∀ {q : Prototype}, q.Respects U → (c.getOrCompile q).2.Sound U
  | ⟨id, source, line, last, nup, npar, va, max, code, ks, children, lines, locals, names⟩, hq => by
    let q : Prototype :=
      ⟨id, source, line, last, nup, npar, va, max, code, ks, children, lines, locals, names⟩
    by_cases hprogram : U q
    · exact (getOrCompile_sound hU hc hprogram).2
    -- code outside the program may leave an error, but under an identity no prototype of it has
    · have hid (p : Prototype) (hp : U p) : p.id ≠ id :=
        fun h => hprogram (hq q q.contains_self p hp h ▸ hp)
      rw [CodeCache.getOrCompile]
      cases c.units[id]? with
      | some r => exact ⟨hc.backend, hc.units⟩
      | none =>
        cases hlower : q.lower with
        | error e =>
          simp only [q] at hlower
          simp only [hlower]
          exact hc.record_other hid _
        | ok l =>
          simp only [q] at hlower
          simp only [hlower]
          have hchildren := compileAll hU hc fun r (hr : r ∈ q.children) => hq.child hr
          rcases hall : c.compileAll children with ⟨e, c'⟩
          rw [hall] at hchildren
          cases e with
          | some e => exact hchildren.record_other hid (.error e)
          | none => exact (hchildren.assemble id l).record_other hid _

theorem compileAll (hU : IsProgram U) {c : CodeCache} (hc : c.Sound U) :
    ∀ {ps : List Prototype}, (∀ p ∈ ps, p.Respects U) → (c.compileAll ps).2.Sound U
  | [], _ => by
    rw [CodeCache.compileAll]
    exact hc
  | p :: ps, hps => by
    have hp := getOrCompile hU hc (hps p List.mem_cons_self)
    rw [CodeCache.compileAll]
    rcases hr : c.getOrCompile p with ⟨r, c'⟩
    rw [hr] at hp
    cases r with
    | error e => exact hp
    | ok u => exact compileAll hU hp fun q hq => hps q (List.mem_cons_of_mem _ hq)

end

theorem after (hU : IsProgram U) {requests : List Prototype}
    (hrequests : ∀ q ∈ requests, q.Respects U) : (CodeCache.after requests).Sound U := by
  suffices h : ∀ c : CodeCache, c.Sound U →
      (requests.foldl (fun c p => (c.getOrCompile p).2) c).Sound U from h _ .empty
  induction requests with
  | nil => exact fun _ hc => hc
  | cons q requests ih =>
    intro c hc
    apply ih fun r hr => hrequests r (List.mem_cons_of_mem _ hr)
    exact hc.getOrCompile hU (hrequests q List.mem_cons_self)

end Sound

end CodeCache

/-- A machine on which nothing has run, with code caches that were asked for other prototypes. -/
structure Machine.Shares (U : Prototype → Prop) (m : Machine) : Prop where
  closures : m.heap.closures = #[]
  coroutines : m.heap.coroutines = #[]
  frames : m.running.frames = #[]
  parked : m.parked = []
  caches : ∀ c ∈ m.heap.caches, ∃ requests : List Prototype,
    (∀ q ∈ requests, q.Respects U) ∧ c = .after requests

theorem Machine.Shares.sound (hU : IsProgram U) {m : Machine} (h : m.Shares U) (tails : Bool) :
    m.Sound U tails where
  closures := by simp [h.closures]
  caches c hc := by
    obtain ⟨requests, hrequests, rfl⟩ := h.caches c hc
    exact .after hU hrequests
  coroutines := by simp [h.coroutines]
  running f hf := by simp [h.frames] at hf
  parked := by simp [h.parked]

/-- The caches compile the program, and in each mode that compiles, every closure gets the unit of
its prototype. -/
structure Machine.Compiles (U : Prototype → Prop) (m : Machine) : Prop where
  caches : ∀ cache ∈ m.heap.caches, ∀ p, U p → p.IsCompiled (cache.getOrCompile p).1
  closures : ∀ c : ClosureId, c.index < m.heap.closures.size → ∀ mode ≠ CompileMode.off,
    ∃ u m', unitFor c (m.withMode mode) = .ok (some u) m' ∧ (m.heap.closure c).proto.IsUnit u

open Setting

variable {S : Setting} {m : Machine} {embedding : Embedding} {α : Type} {k : Bool}

theorem Setting.Sound.compiles (hS : S.Valid) (hm : S.Sound m) : m.Compiles S.program where
  caches _ hcache _ hp :=
    (CodeCache.getOrCompile_sound hS.program (hm.caches _ hcache) hp).1
  closures c hc mode hmode := by
    have hsound : S.Sound (m.withMode mode) :=
      ⟨hm.closures, hm.caches, hm.coroutines, hm.running, hm.parked⟩
    obtain ⟨u, m', hok, hunit, -⟩ := compileClosure_apply hS hsound hc
    refine ⟨u, m', ?_, hunit⟩
    have hview : (m.withMode mode).options.mode = mode := rfl
    cases mode with
    | off => exact absurd rfl hmode
    | auto => simp [unitFor, Action.bind_apply, hview, hok]
    | strict => simp [unitFor, Action.bind_apply, hview, hok]

/-- Verified prototypes compile, with those nested in them, whatever a cache was asked for before; and
no closure over them is ever without a unit in a run, with caches shared by others. -/
theorem verified_compiles (hU : IsProgram U) {requests : List Prototype}
    (hrequests : ∀ q ∈ requests, q.Respects U)
    (hembedding : ∀ name, Routine U true (embedding name)) (hm : m.Shares U) {drive : Run → Action α}
    (hdrive : Routine U k drive) (fuel : Nat) :
    (∀ p, U p → p.IsCompiled ((CodeCache.after requests).getOrCompile p).1) ∧
      Always embedding (fun t => t.machine.Compiles U) fuel drive m := by
  constructor
  · intro p hp
    exact (CodeCache.getOrCompile_sound hU (.after hU hrequests) hp).1
  · refine always_of_seen hU hembedding hdrive (hm.sound hU true) (.inl rfl)
      fun S hS hprogram _ t ht => ?_
    cases t with
    | takeUp m => exact hprogram ▸ ht.1.compiles hS
    | step a m r => exact hprogram ▸ ht.1.compiles hS

theorem Machine.bare_shares : Machine.bare.Shares U where
  closures := bare_fresh.closures
  coroutines := bare_fresh.coroutines
  frames := bare_fresh.frames
  parked := bare_fresh.parked
  caches c hc := ⟨[], by simp, bare_fresh.caches c hc⟩

theorem verified_compiles_leap :
    Prototype.leap.IsCompiled ((CodeCache.after [.leap, .leap]).getOrCompile .leap).1 ∧
      Always (fun _ _ => pure 0) (fun t => t.machine.Compiles Prototype.leap.Contains) 9
        (loadAndCall .leap []) Machine.bare := by
  have hprogram := Prototype.leap_verified.isProgram Prototype.leap_coherent
  have hrespects (q : Prototype) (hq : q ∈ [Prototype.leap, .leap]) :
      q.Respects Prototype.leap.Contains := by
    obtain rfl : q = .leap := by simpa using hq
    exact fun r hr p hp _ => (Prototype.contains_leap hp).trans (Prototype.contains_leap hr).symm
  obtain ⟨hcompiled, halways⟩ := verified_compiles hprogram hrespects (fun _ => .pure 0)
    Machine.bare_shares (.loadAndCall (k := false) Prototype.leap.contains_self []) 9
  exact ⟨hcompiled _ Prototype.leap.contains_self, halways⟩

end LuaMachine
