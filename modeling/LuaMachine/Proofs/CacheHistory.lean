import LuaMachine.Proofs.CacheRequests
import LuaMachine.Proofs.Upvalues

/-!
The history of a code cache. What a cache answers depends on the prototype alone, and not on what it was asked
before: the unit of the prototype, or the first failure in its tree. Each prototype is compiled at most once,
and the counters account for all requests, those for nested prototypes included.
-/

namespace LuaMachine

namespace Prototype

mutual

/-- The prototypes of a tree, each before those nested in it. -/
def preorder : Prototype → List Prototype
  | ⟨id, source, line, last, nup, npar, va, max, code, ks, children, lines, locals, names⟩ =>
    ⟨id, source, line, last, nup, npar, va, max, code, ks, children, lines, locals, names⟩ :: preorderAll children

def preorderAll : List Prototype → List Prototype
  | [] => []
  | p :: ps => preorder p ++ preorderAll ps

end

/-- Why a prototype does not compile by itself. -/
def failure? (p : Prototype) : Option CompileError :=
  match p.lower with
  | .ok _ => none
  | .error e => some e

/-- What compiling a prototype comes to: the first failure in its tree, or else its unit. -/
def answer (p : Prototype) : Except CompileError CompiledUnit :=
  match p.preorder.findSome? failure? with
  | some e => .error e
  | none => p.lower.map (⟨p.id, ·, none⟩)

theorem preorder_eq (p : Prototype) : p.preorder = p :: preorderAll p.children := by
  cases p
  rw [preorder]

theorem answer_of_error {p : Prototype} {e : CompileError} (h : p.lower = .error e) : p.answer = .error e := by
  rw [answer, preorder_eq, List.findSome?_cons]
  simp only [failure?, h]

theorem answer_of_ok {p : Prototype} {l : Lowered} (h : p.lower = .ok l) :
    p.answer =
      match (preorderAll p.children).findSome? failure? with
      | some e => .error e
      | none => .ok ⟨p.id, l, none⟩ := by
  have hp : p.failure? = none := by simp only [failure?, h]
  rw [answer, preorder_eq, List.findSome?_cons, hp, h]
  rfl

theorem findSome?_failure (p : Prototype) :
    p.preorder.findSome? failure? =
      match p.answer with
      | .error e => some e
      | .ok _ => none := by
  cases h : p.lower with
  | error e =>
    rw [answer_of_error h, preorder_eq, List.findSome?_cons]
    simp only [failure?, h]
  | ok l =>
    have hp : p.failure? = none := by simp only [failure?, h]
    rw [answer_of_ok h, preorder_eq, List.findSome?_cons, hp]
    cases (preorderAll p.children).findSome? failure? <;> rfl

theorem answer_eq_error_iff (p : Prototype) {e : CompileError} :
    p.answer = .error e ↔ p.preorder.findSome? failure? = some e := by
  rw [findSome?_failure]
  cases p.answer <;> simp

theorem failure?_eq_none_iff (p : Prototype) : p.failure? = none ↔ ∃ l, p.lower = .ok l := by
  unfold failure?
  cases p.lower <;> simp

/-- A prototype compiles if all of its tree does by itself. -/
theorem exists_answer_iff (p : Prototype) :
    (∃ u, p.answer = .ok u) ↔ ∀ q ∈ p.preorder, ∃ l, q.lower = .ok l := by
  have hnone : (∃ u, p.answer = .ok u) ↔ p.preorder.findSome? failure? = none := by
    rw [findSome?_failure]
    cases p.answer <;> simp
  rw [hnone, List.findSome?_eq_none_iff]
  simp only [failure?_eq_none_iff]

mutual

theorem sizeOf_le_of_mem_preorder {q : Prototype} : ∀ {p : Prototype}, q ∈ p.preorder → sizeOf q ≤ sizeOf p
  | ⟨id, source, line, last, nup, npar, va, max, code, ks, children, lines, locals, names⟩, hq => by
    rw [preorder, List.mem_cons] at hq
    rcases hq with rfl | hq
    · exact le_rfl
    · have hlt := sizeOf_lt_of_mem_preorderAll hq
      simp only [Prototype.mk.sizeOf_spec]
      omega

theorem sizeOf_lt_of_mem_preorderAll {q : Prototype} :
    ∀ {ps : List Prototype}, q ∈ preorderAll ps → sizeOf q < sizeOf ps
  | [], hq => by cases hq
  | p :: ps, hq => by
    rw [preorderAll, List.mem_append] at hq
    simp only [List.cons.sizeOf_spec]
    rcases hq with hq | hq
    · have hle := sizeOf_le_of_mem_preorder hq
      omega
    · have hlt := sizeOf_lt_of_mem_preorderAll hq
      omega

end

/-- No prototype is nested in itself. -/
theorem not_mem_preorderAll_children (p : Prototype) : p ∉ preorderAll p.children := by
  intro h
  have hlt := sizeOf_lt_of_mem_preorderAll h
  cases p
  simp only [Prototype.mk.sizeOf_spec] at hlt
  omega

end Prototype

variable {U : Prototype → Prop}

mutual

theorem IsCatalog.mem_preorder (hU : IsCatalog U) {q : Prototype} :
    ∀ {p : Prototype}, U p → q ∈ p.preorder → U q
  | ⟨id, source, line, last, nup, npar, va, max, code, ks, children, lines, locals, names⟩, hp, hq => by
    rw [Prototype.preorder, List.mem_cons] at hq
    rcases hq with rfl | hq
    · exact hp
    · exact hU.mem_preorderAll (fun r (hr : r ∈ children) => hU.child hp hr) hq

theorem IsCatalog.mem_preorderAll (hU : IsCatalog U) {q : Prototype} :
    ∀ {ps : List Prototype}, (∀ p ∈ ps, U p) → q ∈ Prototype.preorderAll ps → U q
  | [], _, hq => by cases hq
  | p :: ps, hps, hq => by
    rw [Prototype.preorderAll, List.mem_append] at hq
    rcases hq with hq | hq
    · exact hU.mem_preorder (hps p List.mem_cons_self) hq
    · exact hU.mem_preorderAll (fun r hr => hps r (List.mem_cons_of_mem _ hr)) hq

end

namespace CodeCache

/-- A request to a cache, with what it was answered and whether that was kept from before. -/
structure Invocation where
  proto : Prototype
  kept : Bool
  answer : Except CompileError CompiledUnit

mutual

/-- The requests that a request for a prototype comes to, those for nested prototypes included, in order. -/
def invocations (c : CodeCache) : Prototype → List Invocation
  | ⟨id, source, line, last, nup, npar, va, max, code, ks, children, lines, locals, names⟩ =>
    let p : Prototype :=
      ⟨id, source, line, last, nup, npar, va, max, code, ks, children, lines, locals, names⟩
    match c.units[id]? with
    | some r => [⟨p, true, r⟩]
    | none =>
      ⟨p, false, (c.getOrCompile p).1⟩ ::
        match p.lower with
        | .error _ => []
        | .ok _ => invocationsAll c children

def invocationsAll (c : CodeCache) : List Prototype → List Invocation
  | [] => []
  | p :: ps =>
    invocations c p ++
      match c.getOrCompile p with
      | (.error _, _) => []
      | (.ok _, c) => invocationsAll c ps

end

/-- All requests that a list of requests comes to. -/
def history (c : CodeCache) : List Prototype → List Invocation
  | [] => []
  | p :: ps => c.invocations p ++ history (c.getOrCompile p).2 ps

/-- The identities that were compiled. -/
def compiledIds (invocations : List Invocation) : List Nat :=
  (invocations.filter fun i => !i.kept).map (·.proto.id)

/-- A cache that holds nothing but what its prototypes compile to, and counts that. -/
structure Records (U : Prototype → Prop) (c : CodeCache) : Prop where
  backend : c.backend = .threaded
  units : ∀ p, U p → ∀ r, c.lookup p.id = some r → r = p.answer
  size : c.units.size = c.compiled + c.failed

/-- How a cache goes on with some requests for prototypes of a kind. -/
structure Serves (U : Prototype → Prop) (kind : Prototype → Prop) (c c' : CodeCache) (is : List Invocation) :
    Prop where
  records : c'.Records U
  keeps : ∀ id r, c.lookup id = some r → c'.lookup id = some r
  adds : ∀ id, (c'.lookup id).isSome → (c.lookup id).isSome ∨ id ∈ compiledIds is
  fresh : ∀ id ∈ compiledIds is, c.lookup id = none ∧ (c'.lookup id).isSome
  once : (compiledIds is).Nodup
  answers : ∀ i ∈ is, kind i.proto ∧ i.answer = i.proto.answer
  counts : c'.compiled + c'.failed + c'.hits = c.compiled + c.failed + c.hits + is.length

variable {kind kind' : Prototype → Prop} {c c' c'' : CodeCache} {is is' : List Invocation} {p : Prototype}

theorem compiledIds_append (is is' : List Invocation) :
    compiledIds (is ++ is') = compiledIds is ++ compiledIds is' := by
  simp [compiledIds]

theorem Serves.refl (hc : c.Records U) : Serves U kind c c [] where
  records := hc
  keeps _ _ := id
  adds _ := .inl
  fresh _ h := by cases h
  once := List.nodup_nil
  answers _ h := by cases h
  counts := rfl

theorem Serves.mono (h : Serves U kind c c' is) (hkind : ∀ p, kind p → kind' p) : Serves U kind' c c' is :=
  { h with answers := fun i hi => (h.answers i hi).imp_left (hkind _) }

theorem Serves.trans (h : Serves U kind c c' is) (h' : Serves U kind c' c'' is') :
    Serves U kind c c'' (is ++ is') where
  records := h'.records
  keeps id r hr := h'.keeps id r (h.keeps id r hr)
  adds id hid := by
    rw [compiledIds_append, List.mem_append]
    rcases h'.adds id hid with hid | hid
    · exact (h.adds id hid).imp_right .inl
    · exact .inr (.inr hid)
  fresh id hid := by
    rw [compiledIds_append, List.mem_append] at hid
    rcases hid with hid | hid
    · obtain ⟨hnone, hsome⟩ := h.fresh id hid
      obtain ⟨r, hr⟩ := Option.isSome_iff_exists.1 hsome
      exact ⟨hnone, by rw [h'.keeps id r hr]; rfl⟩
    · obtain ⟨hnone, hsome⟩ := h'.fresh id hid
      refine ⟨?_, hsome⟩
      cases hr : c.lookup id with
      | none => rfl
      | some r => simp [h.keeps id r hr] at hnone
  once := by
    rw [compiledIds_append, List.nodup_append']
    refine ⟨h.once, h'.once, fun id hid hid' => ?_⟩
    have hsome := (h.fresh id hid).2
    simp [(h'.fresh id hid').1] at hsome
  answers i hi := by
    rcases List.mem_append.1 hi with hi | hi
    · exact h.answers i hi
    · exact h'.answers i hi
  counts := by
    rw [h'.counts, h.counts, List.length_append, Nat.add_assoc]

/-- A request that is answered from the cache. -/
theorem Serves.hit (hc : c.Records U) (hp : U p) {r : Except CompileError CompiledUnit}
    (hr : c.lookup p.id = some r) : Serves U (· = p) c { c with hits := c.hits + 1 } [⟨p, true, r⟩] where
  records := ⟨hc.backend, hc.units, hc.size⟩
  keeps _ _ := id
  adds _ := .inl
  fresh _ h := by cases h
  once := List.nodup_nil
  answers i hi := by
    obtain rfl := List.mem_singleton.1 hi
    exact ⟨rfl, hc.units p hp r hr⟩
  counts := rfl

theorem lookup_record (c : CodeCache) (id id' : Nat) (r : Except CompileError CompiledUnit) :
    (c.record id r).lookup id' = if id = id' then some r else c.lookup id' := by
  have hinsert : (c.units.insert id r)[id']? = if id = id' then some r else c.lookup id' := by
    rw [Std.HashMap.getElem?_insert]
    simp only [beq_iff_eq]
    rfl
  cases r <;> exact hinsert

/-- A request after which something is kept, when those for what is nested in it have been made. -/
theorem Serves.record (hU : IsCatalog U) (h : Serves U kind c c' is) (hp : U p) (hkind : ∀ q, kind q → U q ∧ q ≠ p)
    (hnone : c.lookup p.id = none) :
    Serves U (fun q => q = p ∨ kind q) c (c'.record p.id p.answer) (⟨p, false, p.answer⟩ :: is) := by
  have hids : p.id ∉ compiledIds is := by
    intro hid
    obtain ⟨i, hi, hid⟩ := List.mem_map.1 hid
    obtain ⟨hi, -⟩ := h.answers i (List.mem_filter.1 hi).1
    exact (hkind _ hi).2 (hU.id_inj (hkind _ hi).1 hp hid)
  have hnone' : c'.lookup p.id = none := by
    rw [← Option.not_isSome_iff_eq_none]
    intro hsome
    rcases h.adds p.id hsome with hsome | hmem
    · simp [hnone] at hsome
    · exact hids hmem
  have hcompiled : compiledIds (⟨p, false, p.answer⟩ :: is) = p.id :: compiledIds is := rfl
  have hsize : (c'.units.insert p.id p.answer).size = c'.units.size + 1 := by
    rw [Std.HashMap.size_insert, if_neg]
    intro hmem
    rw [lookup, Std.HashMap.getElem?_eq_some_getElem hmem] at hnone'
    cases hnone'
  refine ⟨⟨?_, fun q hq r hr => ?_, ?_⟩, fun id r hr => ?_, fun id hid => ?_, fun id hid => ?_, ?_,
    fun i hi => ?_, ?_⟩
  · cases p.answer <;> exact h.records.backend
  · rw [lookup_record] at hr
    split at hr
    · next hid =>
      obtain rfl := hU.id_inj hp hq hid
      exact (Option.some.inj hr).symm
    · exact h.records.units q hq r hr
  · have hcount := h.records.size
    cases hanswer : p.answer <;> rw [hanswer] at hsize <;> simp only [CodeCache.record] <;> omega
  · rw [lookup_record, if_neg]
    · exact h.keeps id r hr
    · rintro rfl
      simp [hnone] at hr
  · rw [hcompiled, List.mem_cons]
    rw [lookup_record] at hid
    split at hid
    · next heq => exact .inr (.inl heq.symm)
    · exact (h.adds id hid).imp_right .inr
  · rw [hcompiled, List.mem_cons] at hid
    rw [lookup_record]
    rcases hid with rfl | hid
    · exact ⟨hnone, by simp⟩
    · rw [if_neg fun heq : p.id = id => hids (heq ▸ hid)]
      exact h.fresh id hid
  · rw [hcompiled, List.nodup_cons]
    exact ⟨hids, h.once⟩
  · rcases List.mem_cons.1 hi with rfl | hi
    · exact ⟨.inl rfl, rfl⟩
    · exact (h.answers i hi).imp_left .inr
  · have hcount := h.counts
    rw [List.length_cons]
    cases p.answer <;> simp only [CodeCache.record] <;> omega

mutual

/-- A request is answered as the prototype is. -/
theorem getOrCompile_serves (hU : IsCatalog U) : ∀ {p : Prototype} {c : CodeCache}, U p → c.Records U →
    (c.getOrCompile p).1 = p.answer ∧ Serves U (· ∈ p.preorder) c (c.getOrCompile p).2 (c.invocations p)
  | ⟨id, source, line, last, nup, npar, va, max, code, ks, children, lines, locals, names⟩, c, hp, hc => by
    let p : Prototype :=
      ⟨id, source, line, last, nup, npar, va, max, code, ks, children, lines, locals, names⟩
    have hself : p ∈ p.preorder := p.preorder_eq ▸ List.mem_cons_self
    cases hfound : c.units[id]? with
    | some r =>
      have hr := hc.units p hp r hfound
      rw [getOrCompile, invocations]
      simp only [hfound]
      exact ⟨hr, (Serves.hit hc hp hfound).mono fun q hq => by rwa [hq]⟩
    | none =>
      have hkind (q : Prototype) (hq : q ∈ Prototype.preorderAll p.children) : U q ∧ q ≠ p :=
        ⟨hU.mem_preorderAll (fun r hr => hU.child hp hr) hq,
          fun h => p.not_mem_preorderAll_children (h ▸ hq)⟩
      have hmono (q : Prototype) (hq : q = p ∨ q ∈ Prototype.preorderAll p.children) : q ∈ p.preorder := by
        rw [p.preorder_eq, List.mem_cons]
        exact hq
      -- in each case the answer is recorded once the requests for what is nested have been made
      cases hlower : p.lower with
      | error e =>
        have hresult : c.getOrCompile p = (p.answer, c.record p.id p.answer) := by
          rw [Prototype.answer_of_error hlower, getOrCompile]
          simp only [p] at hlower
          simp only [hfound, hlower, p]
        have hinvocations : c.invocations p = [⟨p, false, p.answer⟩] := by
          rw [invocations, hresult]
          simp only [p] at hlower
          simp only [hfound, hlower, p]
        rw [hresult, hinvocations]
        exact ⟨rfl, (Serves.record hU (.refl hc) hp hkind hfound).mono hmono⟩
      | ok l =>
        obtain ⟨hall, hserves⟩ := compileAll_serves hU (fun r (hr : r ∈ p.children) => hU.child hp hr) hc
        have hresult : c.getOrCompile p = (p.answer, (c.compileAll p.children).2.record p.id p.answer) := by
          rw [Prototype.answer_of_ok hlower, ← hall, getOrCompile]
          simp only [p] at hlower
          simp only [hfound, hlower, p]
          have hbackend : (c.compileAll children).2.backend = .threaded := hserves.records.backend
          rcases hchildren : c.compileAll children with ⟨o, c'⟩
          rw [hchildren] at hbackend
          have hassemble : c'.assemble id l = (.ok ⟨id, l, none⟩, c') := by
            rw [assemble, show c'.backend = .threaded from hbackend]
          cases o with
          | some e => rfl
          | none => simp only [hassemble]
        have hinvocations : c.invocations p = ⟨p, false, p.answer⟩ :: c.invocationsAll p.children := by
          rw [invocations, hresult]
          simp only [p] at hlower
          simp only [hfound, hlower, p]
        rw [hresult, hinvocations]
        exact ⟨rfl, (hserves.record hU hp hkind hfound).mono hmono⟩

/-- Requests are made up to the first failure in the trees. -/
theorem compileAll_serves (hU : IsCatalog U) : ∀ {ps : List Prototype} {c : CodeCache}, (∀ p ∈ ps, U p) →
    c.Records U → (c.compileAll ps).1 = (Prototype.preorderAll ps).findSome? Prototype.failure? ∧
      Serves U (· ∈ Prototype.preorderAll ps) c (c.compileAll ps).2 (c.invocationsAll ps)
  | [], c, _, hc => by
    rw [compileAll, invocationsAll]
    exact ⟨rfl, .refl hc⟩
  | p :: ps, c, hps, hc => by
    obtain ⟨hanswer, hserves⟩ := getOrCompile_serves hU (hps p List.mem_cons_self) hc
    rw [compileAll, invocationsAll, Prototype.preorderAll, List.findSome?_append]
    have hfind := p.findSome?_failure
    rw [← hanswer] at hfind
    rcases hr : c.getOrCompile p with ⟨r, c'⟩
    rw [hr] at hfind hserves
    have hhead := hserves.mono fun q hq => List.mem_append_left (Prototype.preorderAll ps) hq
    cases r with
    | error e =>
      rw [hfind, List.append_nil]
      exact ⟨rfl, hhead⟩
    | ok u =>
      have hrest := compileAll_serves hU (fun q hq => hps q (List.mem_cons_of_mem _ hq)) hserves.records
      rw [hfind, Option.none_or]
      exact ⟨hrest.1, hhead.trans (hrest.2.mono fun q hq => List.mem_append_right p.preorder hq)⟩

end

theorem Records.empty : Records U { backend := .threaded } where
  backend := rfl
  units p _ r hr := by simp [lookup] at hr
  size := by simp

/-- What one request does, requests made one after the other do. -/
theorem history_serves (hU : IsCatalog U) {requests : List Prototype} (hrequests : ∀ p ∈ requests, U p)
    {c : CodeCache} (hc : c.Records U) :
    Serves U U c (requests.foldl (fun c p => (c.getOrCompile p).2) c) (c.history requests) := by
  induction requests generalizing c with
  | nil => exact .refl hc
  | cons p requests ih =>
    have hp := hrequests p List.mem_cons_self
    have hserves := (getOrCompile_serves hU hp hc).2.mono fun q hq => hU.mem_preorder hp hq
    exact hserves.trans (ih (fun q hq => hrequests q (List.mem_cons_of_mem _ hq)) hserves.records)

end CodeCache

/-- A cache is transparent: whatever it was asked before, it answers a request with the unit of the prototype if all
prototypes of its tree compile, or else with the first failure in the tree. Each identity is compiled at most
once, and its answer stays. The counters account for what is kept, and for all requests, those for nested
prototypes included. -/
theorem cache_transparent {U : Prototype → Prop} (hU : IsCatalog U) {requests : List Prototype}
    (hrequests : ∀ p ∈ requests, U p) :
    let c := CodeCache.after requests
    let history := CodeCache.history { backend := .threaded } requests
    (∀ p, U p → (c.getOrCompile p).1 = p.answer ∧
      ((∃ u, p.answer = .ok u) ↔ ∀ q ∈ p.preorder, ∃ l, q.lower = .ok l) ∧
      ∀ e, p.answer = .error e ↔ p.preorder.findSome? Prototype.failure? = some e) ∧
    (∀ i ∈ history, i.answer = i.proto.answer) ∧
    (CodeCache.compiledIds history).Nodup ∧
    (∀ more : List Prototype, (∀ p ∈ more, U p) → ∀ id r, c.lookup id = some r →
      (CodeCache.after (requests ++ more)).lookup id = some r) ∧
    c.units.size = c.compiled + c.failed ∧ c.compiled + c.failed + c.hits = history.length := by
  intro c history
  have hserves := CodeCache.history_serves hU hrequests .empty
  refine ⟨fun p hp => ⟨(CodeCache.getOrCompile_serves hU hp hserves.records).1, ?_, fun e => ?_⟩,
    fun i hi => (hserves.answers i hi).2, hserves.once, fun more hmore id r hr => ?_, hserves.records.size, ?_⟩
  · exact p.exists_answer_iff
  · exact p.answer_eq_error_iff
  · have hmore := CodeCache.history_serves hU hmore hserves.records
    rw [CodeCache.after, List.foldl_append]
    exact hmore.keeps id r hr
  · have hcounts : c.compiled + c.failed + c.hits = 0 + 0 + 0 + history.length := hserves.counts
    omega

/-- A function that is compiled with the one nested in it, which has been asked for before. -/
theorem cache_transparent_lender :
    let requests : List Prototype := [.reader, .lender, .lender]
    let c := CodeCache.after requests
    (∃ u, (c.getOrCompile .lender).1 = .ok u) ∧
      (CodeCache.compiledIds (CodeCache.history { backend := .threaded } requests)).Nodup ∧
      c.units.size = c.compiled + c.failed := by
  intro requests c
  have hreader : Prototype.lender.Contains .reader := ⟨[0], by simp [Prototype.descend?, Prototype.lender]⟩
  have hrequests (p : Prototype) (hp : p ∈ requests) : Prototype.lender.Contains p := by
    simp only [requests, List.mem_cons, List.not_mem_nil, or_false] at hp
    rcases hp with rfl | rfl | rfl
    · exact hreader
    · exact Prototype.lender.contains_self
    · exact Prototype.lender.contains_self
  have hcatalog := Prototype.lender_isProgram.isCatalog
  obtain ⟨hanswers, -, honce, -, hsize, -⟩ := cache_transparent hcatalog hrequests
  obtain ⟨hanswer, hcompiles, -⟩ := hanswers _ Prototype.lender.contains_self
  refine ⟨?_, honce, hsize⟩
  rw [hanswer]
  exact hcompiles.2 fun q hq =>
    (Prototype.lender_isProgram.verified (hcatalog.mem_preorder Prototype.lender.contains_self hq)).exists_lower

end LuaMachine
