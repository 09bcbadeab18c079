import LuaMachine.Proofs.Drift
import LuaMachine.Proofs.Resumption

/-!
What is run on a machine with a chain of resumptions. Whatever is run leaves the chain as it was, and
with it the strands that wait and the frames below the one that had it run. `Ends` says so of an
outcome; `Paired` says it of two runs of which the first may be stopped before the second.
-/

namespace LuaMachine

/-- A coroutine that exists and has ended. -/
def Heap.IsDead (h : Heap) (c : CoroutineId) : Prop :=
  c.index < h.coroutines.size ∧ (h.coroutine c).status = .dead

/-- Coroutines that have ended stay so. -/
def Heap.Buries (h h' : Heap) : Prop := ∀ c, h.IsDead c → h'.IsDead c

/-- What is left as it is outside the running strand. -/
structure Machine.Spares (S : Regime) (m m' : Machine) : Prop where
  nativeCalls : m'.nativeCalls = m.nativeCalls
  parked : Strand.AllRest m.heap m'.heap m.parked m'.parked
  extend : m.heap.Extends m'.heap
  buries : m.heap.Buries m'.heap
  quiet : ∀ u, S.quiet u → (m.heap.coroutine u).status = .suspended →
    (m.heap.coroutine u).Rests m.heap m'.heap (m'.heap.coroutine u) ∨ m'.heap.IsDead u

/-- Besides, the frames of the running strand below a depth are left as they are. -/
structure Machine.Keeps (S : Regime) (d : Nat) (m m' : Machine) : Prop extends m.Spares S m' where
  owner : m'.running.owner = m.running.owner
  boundaries : m'.running.boundaries = m.running.boundaries
  frames : m.running.frames.toList.take d <+: m'.running.frames.toList

/-- How something that is run ends. Where it is stopped by what no protected call may see, another
chain may be there. -/
def Regime.Ends (S : Regime) (ts : List CoroutineId) (d : Nat) (m : Machine) {α : Type}
    (good : α → Machine → Prop) (failing : Fault → Machine → Prop) : Outcome α → Prop
  | .ok a m' => m'.Steady S ts ∧ m.Keeps S d m' ∧ good a m'
  | .error e m' => m.heap.Buries m'.heap ∧ ((e.isFatal = true ∧ ∃ ts', m'.Steady S ts') ∨
      m'.Steady S ts ∧ m.Keeps S d m' ∧ failing e m')

/-- Two outcomes, which are the same unless the first run is stopped on the way to the second. -/
structure Paired {α : Type} (Q : Outcome α → Prop) (l r : Outcome α) : Prop where
  left : Q l
  right : Q r
  same : l = r ∨ ∃ e m, l = .error e m ∧ e.isFatal = true ∧ m.heap.Buries r.state.heap

/-- There are frames up to a depth, at least one on the strand of a coroutine. -/
structure Machine.Stands (ts : List CoroutineId) (d : Nat) (m : Machine) : Prop where
  depth : d ≤ m.depth
  pos : ts ≠ [] → 0 < d

variable {S : Regime} {R : Conduct} {ts : List CoroutineId} {m m' m'' : Machine} {h h' h'' : Heap}
  {held : List Value}
  {d d' : Nat} {α β : Type}

theorem Heap.Buries.refl (h : Heap) : h.Buries h := fun _ hc => hc

theorem Heap.Buries.trans (hb : h.Buries h') (hb' : h'.Buries h'') : h.Buries h'' :=
  fun c hc => hb' c (hb c hc)

namespace Machine.Spares

theorem refl (S : Regime) (m : Machine) : m.Spares S m :=
  ⟨rfl, .refl _ _, .refl _, .refl _, fun _ _ _ => .inl (.refl _ _)⟩

theorem trans (hk : m.Spares S m') (hk' : m'.Spares S m'') : m.Spares S m'' where
  nativeCalls := hk'.nativeCalls.trans hk.nativeCalls
  parked := hk.parked.trans hk'.parked
  extend := hk.extend.trans hk'.extend
  buries := hk.buries.trans hk'.buries
  quiet u hu hs := by
    rcases hk.quiet u hu hs with hr | hdead
    · exact (hk'.quiet u hu (hr.status.trans hs)).imp_left hr.trans
    · exact .inr (hk'.buries u hdead)

theorem of_drift (hd : m.Drift S m') : m.Spares S m' where
  nativeCalls := hd.nativeCalls
  parked := hd.parked
  extend := hd.extend
  buries c hc := ⟨hc.1.trans_le hd.size, (hd.coroutines c hc.1).status.trans hc.2⟩
  quiet u _ hs := .inl (hd.coroutines u (Heap.coroutine_lt (by simp [hs])))

end Machine.Spares

namespace Machine.Keeps

theorem refl (S : Regime) (d : Nat) (m : Machine) : m.Keeps S d m :=
  ⟨.refl S m, rfl, rfl, List.take_prefix d _⟩

theorem trans (hk : m.Keeps S d m') (hk' : m'.Keeps S d m'') : m.Keeps S d m'' where
  toSpares := hk.toSpares.trans hk'.toSpares
  owner := hk'.owner.trans hk.owner
  boundaries := hk'.boundaries.trans hk.boundaries
  frames := (List.prefix_take_iff.2 ⟨hk.frames, List.length_take_le ..⟩).trans hk'.frames

theorem lower (hk : m.Keeps S d' m') (hd : d ≤ d') : m.Keeps S d m' :=
  { hk with frames := (List.take_prefix_take_left hd).trans hk.frames }

theorem of_shift (hs : m.Shift S m') (d : Nat) : m.Keeps S d m' :=
  ⟨.of_drift hs.drift, hs.drift.owner, hs.drift.boundaries, hs.frames ▸ List.take_prefix d _⟩

/-- A change of the running strand only, in which no frame below the depth changes. -/
theorem of_running (hheap : m'.heap = m.heap) (hparked : m'.parked = m.parked)
    (hcalls : m'.nativeCalls = m.nativeCalls) (howner : m'.running.owner = m.running.owner)
    (hboundaries : m'.running.boundaries = m.running.boundaries)
    (hframes : m.running.frames.toList.take d <+: m'.running.frames.toList) : m.Keeps S d m' where
  nativeCalls := hcalls
  parked := by rw [hheap, hparked]; exact .refl _ _
  extend := by rw [hheap]; exact .refl _
  buries := by rw [hheap]; exact .refl _
  quiet u _ _ := by rw [hheap]; exact .inl (.refl _ _)
  owner := howner
  boundaries := hboundaries
  frames := hframes

theorem stands (hk : m.Keeps S d m') (hd : m.Stands ts d) : m'.Stands ts d where
  depth := by
    have hlength := hk.frames.length_le
    rw [List.length_take, Array.length_toList, Array.length_toList] at hlength
    exact (le_min le_rfl hd.depth).trans hlength
  pos := hd.pos

/-- The lowest frame is still there, and so is what lies below it. -/
theorem floor (hk : m.Keeps S d m') (hm' : m'.Steady S ts) (hd : m.Stands ts d) {k : Nat}
    (hf : m.running.Floor k) : m'.running.Floor k := by
  intro howner b fs hfs
  have hpos := hd.pos (hm'.owner_running.1 howner)
  have hframes := hk.frames
  rw [hfs] at hframes
  cases hold : m.running.frames.toList with
  | nil =>
    have hlength := hd.depth
    rw [Machine.depth, ← Array.length_toList, hold, List.length_nil] at hlength
    omega
  | cons b' fs' =>
    obtain ⟨n, rfl⟩ := Nat.exists_eq_succ_of_ne_zero hpos.ne'
    rw [hold, List.take_succ_cons, List.cons_prefix_cons] at hframes
    obtain rfl := hframes.1
    exact hf (hk.owner ▸ howner) _ fs' hold

end Machine.Keeps

namespace Regime.Ends

variable {good good' : α → Machine → Prop} {failing failing' : Fault → Machine → Prop} {r : Outcome α}

theorem pure {a : α} (hm : m.Steady S ts) (h : good a m) :
    S.Ends ts d m good failing (.ok a m) :=
  ⟨hm, .refl S d m, h⟩

theorem fail {e : Fault} (hm : m.Steady S ts) (h : failing e m) :
    S.Ends ts d m good failing (.error e m) :=
  ⟨.refl _, .inr ⟨hm, .refl S d m, h⟩⟩

theorem stop {e : Fault} (hm : m.Steady S ts) (he : e.isFatal = true) :
    S.Ends ts d m good failing (.error e m) :=
  ⟨.refl _, .inl ⟨he, ts, hm⟩⟩

theorem buries (hr : S.Ends ts d m good failing r) : m.heap.Buries r.state.heap := by
  cases r with
  | ok a m' => exact hr.2.1.buries
  | error e m' => exact hr.1

theorem steady (hr : S.Ends ts d m good failing r) : ∃ ts', r.state.Steady S ts' := by
  cases r with
  | ok a m' => exact ⟨ts, hr.1⟩
  | error e m' => exact hr.2.elim And.right fun h => ⟨ts, h.1⟩

theorem imp (hr : S.Ends ts d m good failing r) (hgood : ∀ a m', good a m' → good' a m')
    (hfail : ∀ e m', failing e m' → failing' e m') : S.Ends ts d m good' failing' r := by
  cases r with
  | ok a m' => exact ⟨hr.1, hr.2.1, hgood a m' hr.2.2⟩
  | error e m' => exact ⟨hr.1, hr.2.imp_right fun h => ⟨h.1, h.2.1, hfail e m' h.2.2⟩⟩

/-- Where nothing yields, nothing is asked of a yield. -/
theorem never {yielding : Machine → Prop} (hr : S.Ends ts d m good (fun e _ => e ≠ .yield) r) :
    S.Ends ts d m good (fun e m' => e = .yield → yielding m') r :=
  hr.imp (fun _ _ => id) fun _ _ hne he => absurd he hne

/-- What is kept may be looked at. -/
theorem kept (hr : S.Ends ts d m good failing r) :
    S.Ends ts d m (fun a m' => m.Keeps S d m' ∧ good a m')
      (fun e m' => m.Keeps S d m' ∧ failing e m') r := by
  cases r with
  | ok a m' => exact ⟨hr.1, hr.2.1, hr.2.1, hr.2.2⟩
  | error e m' => exact ⟨hr.1, hr.2.imp_right fun h => ⟨h.1, h.2.1, h.2.1, h.2.2⟩⟩

/-- What else holds of an outcome that is no failure. -/
theorem also {more : α → Machine → Prop} (hr : S.Ends ts d m good failing r)
    (h : ∀ a m', r = .ok a m' → more a m') :
    S.Ends ts d m (fun a m' => good a m' ∧ more a m') failing r := by
  cases r with
  | ok a m' => exact ⟨hr.1, hr.2.1, hr.2.2, h a m' rfl⟩
  | error e m' => exact hr

theorem lower (hr : S.Ends ts d' m good failing r) (hd : d ≤ d') :
    S.Ends ts d m good failing r := by
  cases r with
  | ok a m' => exact ⟨hr.1, hr.2.1.lower hd, hr.2.2⟩
  | error e m' => exact ⟨hr.1, hr.2.imp_right fun h => ⟨h.1, h.2.1.lower hd, h.2.2⟩⟩

/-- What comes later counts from before. -/
theorem after (hk : m.Keeps S d m') (hr : S.Ends ts d m' good failing r) :
    S.Ends ts d m good failing r := by
  cases r with
  | ok a m'' => exact ⟨hr.1, hk.trans hr.2.1, hr.2.2⟩
  | error e m'' =>
    exact ⟨hk.buries.trans hr.1, hr.2.imp_right fun h => ⟨h.1, hk.trans h.2.1, h.2.2⟩⟩

theorem bind {good' : β → Machine → Prop} {x : Action α} {f : α → Action β}
    (hx : S.Ends ts d m good failing (x m))
    (hf : ∀ a m', x m = .ok a m' → m'.Steady S ts → m.Keeps S d m' → good a m' →
      S.Ends ts d m' good' failing (f a m')) :
    S.Ends ts d m good' failing ((x >>= f) m) := by
  rw [Action.bind_apply]
  cases hr : x m with
  | ok a m' =>
    rw [hr] at hx
    exact .after hx.2.1 (hf a m' hr hx.1 hx.2.1 hx.2.2)
  | error e m' =>
    rw [hr] at hx
    exact hx

end Regime.Ends

namespace Paired

variable {Q Q' : Outcome α → Prop} {l r : Outcome α}

theorem refl (h : Q r) : Paired Q r r := ⟨h, h, .inl rfl⟩

theorem imp (hp : Paired Q l r) (h : ∀ r, Q r → Q' r) : Paired Q' l r :=
  ⟨h l hp.left, h r hp.right, hp.same⟩

/-- What is made of an outcome, unless it is one that goes through. -/
theorem through {Q' : Outcome β → Prop} (hp : Paired Q l r) (g : Outcome α → Outcome β)
    (hg : ∀ r, Q r → Q' (g r) ∧ r.state.heap.Buries (g r).state.heap)
    (hfatal : ∀ e m, e.isFatal = true → g (.error e m) = .error e m) : Paired Q' (g l) (g r) := by
  refine ⟨(hg l hp.left).1, (hg r hp.right).1, ?_⟩
  rcases hp.same with rfl | ⟨e, m, rfl, he, hb⟩
  · exact .inl rfl
  · exact .inr ⟨e, m, hfatal e m he, he, hb.trans (hg r hp.right).2⟩

theorem bind {good : α → Machine → Prop} {good' : β → Machine → Prop}
    {failing : Fault → Machine → Prop} {xl xr : Action α} {fl fr : α → Action β}
    (hx : Paired (S.Ends ts d m good failing) (xl m) (xr m))
    (hf : ∀ a m', xr m = .ok a m' → m'.Steady S ts → m.Keeps S d m' → good a m' →
      Paired (S.Ends ts d m' good' failing) (fl a m') (fr a m')) :
    Paired (S.Ends ts d m good' failing) ((xl >>= fl) m) ((xr >>= fr) m) := by
  have hsame {a : α} {m' : Machine} (heq : xl m = .ok a m') : xr m = .ok a m' := by
    rcases hx.same with h | ⟨e, m₁, h, -⟩
    · exact h.symm.trans heq
    · rw [h] at heq
      cases heq
  refine ⟨hx.left.bind fun a m' heq hm' hk hg => (hf a m' (hsame heq) hm' hk hg).left,
    hx.right.bind fun a m' heq hm' hk hg => (hf a m' heq hm' hk hg).right, ?_⟩
  rw [Action.bind_apply, Action.bind_apply]
  rcases hx.same with heq | ⟨e, m₁, heq, he, hb⟩
  · rw [heq]
    cases hr : xr m with
    | ok a m' =>
      have hright := hx.right
      rw [hr] at hright
      exact (hf a m' hr hright.1 hright.2.1 hright.2.2).same
    | error e m' => exact .inl rfl
  · refine .inr ⟨e, m₁, by rw [heq], he, ?_⟩
    cases hr : xr m with
    | ok a m' =>
      have hright := hx.right
      rw [hr] at hright hb
      exact hb.trans (hf a m' hr hright.1 hright.2.1 hright.2.2).right.buries
    | error e m' =>
      rw [hr] at hb
      exact hb

end Paired

/-! Changes of the running strand -/

theorem Strand.Tidy.mk' {s s' : Strand} (hs : s.Tidy h) (howner : s'.owner = s.owner)
    (hopen : s'.openCells = s.openCells) (hframes : ∀ f ∈ s'.frames.toList, f.Backed h)
    (hgrounded : (∃ c, s'.owner = .coroutine c) → s'.Grounded) : s'.Tidy h where
  cells id slot hid := hopen ▸ hs.cells id slot (howner ▸ hid)
  frames := hframes
  grounded := hgrounded

namespace Machine.Steady

/-- Only the strand that runs has to be looked after where nothing else changes. -/
theorem congr (hm : m.Steady S ts) (hheap : m'.heap = m.heap) (hparked : m'.parked = m.parked)
    (hcurrent : m'.current = m.current) (howner : m'.running.owner = m.running.owner)
    (htidy : m'.running.Tidy m.heap) : m'.Steady S ts where
  nodup := hm.nodup
  current := hcurrent.trans hm.current
  strands := by
    obtain ⟨n, hn⟩ := hm.strands
    exact ⟨n, by rw [List.map_cons, howner, hparked, ← List.map_cons, hn]⟩
  running := by rw [hheap]; exact hm.running
  normal := by rw [hheap]; exact hm.normal
  others := by rw [hheap]; exact hm.others
  owned := by rw [hheap]; exact hm.owned
  tidy s hs := by
    rw [hheap]
    rcases List.mem_cons.1 hs with rfl | hs
    · exact htidy
    · exact hm.tidy s (List.mem_cons_of_mem _ (hparked ▸ hs))
  stored := by rw [hheap]; exact hm.stored
  closures := by rw [hheap]; exact hm.closures
  caches := by rw [hheap]; exact hm.caches

variable (hm : m.Steady S ts)

include hm

theorem entered : (m.entered held).Steady S ts :=
  hm.congr rfl rfl rfl rfl (hm.tidy_running.mk' rfl rfl hm.tidy_running.frames fun h =>
    ⟨(hm.tidy_running.grounded h).bare, fun b fs hf =>
      { (hm.tidy_running.grounded h).rooted b fs hf with }⟩)

theorem exited : (m.exited held).Steady S ts :=
  hm.congr rfl rfl rfl rfl (hm.tidy_running.mk' rfl rfl hm.tidy_running.frames fun h =>
    ⟨(hm.tidy_running.grounded h).bare, fun b fs hf =>
      { (hm.tidy_running.grounded h).rooted b fs hf with }⟩)

end Machine.Steady

/-! Sequences of basic actions -/

theorem Conduct.Seated.congr (h : R.Seated ts m) (hframes : m'.running.frames = m.running.frames)
    (howner : m'.running.owner = m.running.owner) : R.Seated ts m' := by
  have hfloor (k : Nat) (hk : m.running.Floor k) : m'.running.Floor k := by
    unfold Strand.Floor
    rw [hframes, howner]
    exact hk
  have hdepth : m'.depth = m.depth := congrArg Array.size hframes
  unfold Seated at h ⊢
  generalize R.seat = seat at h ⊢
  cases seat with
  | host => exact fun hts => hdepth ▸ h hts
  | code base => exact ⟨hfloor base h.1, fun hts => hdepth ▸ h.2 hts⟩
  | between floor => exact hfloor floor h

/-- Basic actions of a host function leave the free slot in its frame. -/
theorem Elementary.top_le {x : Action α} (h : Elementary R x) (hhost : R.seat = .host) {k : Nat}
    (hk : m.Beyond k) {a : α} (hx : x m = .ok a m') : k ≤ m'.running.top := by
  have hrises (h : Action.Rises x) : k ≤ m'.running.top := hk.top.trans (h m a m' hx)
  cases h with
  | view f _ => exact hrises (.view f)
  | throw e _ => exact hrises (.throw e)
  | readSlot i => exact hrises (.readSlot i)
  | writeSlot i v => exact hrises (.writeSlot i v)
  | setTop top htop => rw [hhost] at htop; exact htop.elim
  | findUpvalue slot hslot => rw [hhost] at hslot; exact hslot.elim
  | resetTop =>
    unfold LuaMachine.resetTop at hx
    rw [Action.bind_ok (Action.view_apply _ _)] at hx
    cases hf : m.topFrame? with
    | none =>
      rw [hf] at hx
      obtain ⟨-, rfl⟩ := EStateM.Result.ok.inj hx
      exact hk.top
    | some f =>
      rw [hf] at hx
      rw [Action.leaves_setTop f.top m a m' hx]
      exact hk.frame f hf
  | pushValue v =>
    unfold LuaMachine.pushValue at hx
    rw [Action.bind_ok (Action.view_apply _ _)] at hx
    obtain ⟨_, m₁, -, hx⟩ := Action.bind_eq_ok.1 hx
    obtain ⟨_, m₂, -, hx⟩ := Action.bind_eq_ok.1 hx
    rw [Action.leaves_setTop _ m₂ a m' hx]
    exact hk.top.trans (Nat.le_succ _)
  | ensureStack n =>
    rcases ensureStack_cases n m with ⟨f, hf⟩ | ⟨e, -, hf⟩
    · rw [hf] at hx
      obtain ⟨-, rfl⟩ := EStateM.Result.ok.inj hx
      exact hk.top
    · rw [hf] at hx
      cases hx
  | closeUpvalues level => exact hrises (.closeUpvalues level)
  | assignUpvalue c v => exact hrises (.assignUpvalue c v)
  | modifyTable t f => exact hrises (.modify fun _ => rfl)
  | setStringMetatable metatable => exact hrises (.modify fun _ => rfl)
  | newTable t => exact hrises (.onHeap _)
  | newHostClosure c => exact hrises (.onHeap _)
  | createCoroutine body =>
    cases body with
    | function f =>
      cases f with
      | lua c => exact hrises (.of_apply fun _ _ _ h => (EStateM.Result.ok.inj h).2 ▸ rfl)
      | _ => exact hrises (.raise _)
    | _ => exact hrises (.raise _)
  | newCells vs => exact hrises (.onHeap _)
  | newClosure p cells env _ _ => exact hrises (.onHeap _)
  | print text => exact hrises (.of_apply fun _ _ _ h => (EStateM.Result.ok.inj h).2 ▸ rfl)
  | takeOutput _ =>
    exact hrises (.of_apply fun _ _ _ h => (EStateM.Result.ok.inj h).2 ▸ rfl)
  | setMode mode _ => exact hrises (.modify fun _ => rfl)
  | compile p _ _ => exact hrises ((Action.Rises.view _).bind fun _ => .onHeap _)

/-- Sequences of basic actions leave the frames as they are, and those of a host function the free slot
in its frame. -/
theorem Sequence.ends (hS : IsCatalog S.program) (hR : ∀ p, R.program p → S.program p)
    {x : Action α} (h : Sequence R x) (d : Nat) (hm : m.Steady S ts) (hseat : R.Seated ts m)
    {fs : Array Frame} (hfs : m.running.frames = fs) {k : Nat} (hk : R.seat = .host → m.Beyond k) :
    S.Ends ts d m (fun _ m' => m'.running.frames = fs ∧ (R.seat = .host → m'.Beyond k))
      (fun e m' => m'.running.frames = fs ∧ (e = .yield → R.seat = .host ∧ R.honest = false)) (x m) := by
  induction h generalizing m with
  | @elementary α x h =>
    have hshift := h.shifts hS hR hm hseat
    cases hr : x m with
    | ok a m' =>
      rw [hr] at hshift
      exact ⟨hm.drift hshift.drift hshift.tidy, .of_shift hshift d, hshift.frames.trans hfs,
        fun hhost => (hk hhost).congr (h.top_le hhost (hk hhost) hr) hshift.frames⟩
    | error e m' =>
      rw [hr] at hshift
      obtain ⟨hshift, hyield⟩ := hshift
      exact ⟨(Machine.Keeps.of_shift hshift d).buries, .inr ⟨hm.drift hshift.drift hshift.tidy,
        .of_shift hshift d, hshift.frames.trans hfs, hyield⟩⟩
  | pure a => exact .pure hm ⟨hfs, hk⟩
  | bind _ _ ihx ihf =>
    refine (ihx hm hseat hfs hk).bind fun a m' heq hm' hkeeps ⟨hfs', hk'⟩ => ?_
    exact ihf a ⟨_, m', heq⟩ hm' (hseat.congr (hfs'.trans hfs.symm) hkeeps.owner) hfs' hk'

end LuaMachine
