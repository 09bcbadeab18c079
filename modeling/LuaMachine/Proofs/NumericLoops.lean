import LuaMachine.Proofs.IntegerArithmetic
import LuaMachine.Proofs.Stages
import LuaMachine.Proofs.Transparency

/-!
Numeric loops. The index is set back by the step before the loop and advanced by it at each test, so a loop
over integers runs its body once for each value from the first one to the limit.
-/

namespace LuaMachine

/-- A numeric loop in the code that a frame runs: where it is prepared, where it is tested, and where its
body starts. -/
structure NumericLoop where
  /-- The number of frames below the run that the frame belongs to. -/
  outer : Nat
  window : Window
  engine : Engine
  register : Nat
  start : Nat
  test : Nat
  body : Nat
  prepared : ∃ after, (⟨window, engine, start⟩ : Activation).fetch? = some ⟨.forPrep register test, after⟩
  tested : (⟨window, engine, test⟩ : Activation).fetch? = some ⟨.forLoop register body, test + 1⟩
  backward : body ≤ test

namespace NumericLoop

variable (L : NumericLoop) (embedding : Embedding)

/-- The slot of a register, counted from the first one of the loop. -/
def slot (i : Nat) : Nat := L.window.base + L.register + i

/-- The frame of the loop is at a place in its code. -/
def At (pc : Nat) (s : Stage) : Prop := s.job = .proceed L.outer ⟨L.window, L.engine, pc⟩

/-- What a register of the loop holds. -/
def Holds (s : Stage) (i : Nat) (v : Value) : Prop := s.machine.running.stack[L.slot i]? = some v

/-- A register holds an integer, as a number or as a numeral for it. -/
def Denotes (s : Stage) (i : Nat) (z : Int) : Prop :=
  ∃ v x, L.Holds s i v ∧ v.toNumber? = some x ∧ (x == Float.ofInt z) = true

/-- The body is run: control goes from its first instruction to the test, for the first time, and the first
three registers of the loop are then as they were. -/
structure RunsBody (s s' : Stage) : Prop where
  steps : Relation.ReflTransGen (fun t t' => t.Next embedding t' ∧ ¬ L.At L.test t) s s'
  back : L.At L.test s'
  keeps : ∀ i < 3, ∀ v, L.Holds s i v → L.Holds s' i v
  room : ∃ v, L.Holds s' 3 v

/-- From one test to a later one the body is run a number of times, each time with another value in the
register of the loop variable. -/
inductive Rounds : List Value → Stage → Stage → Prop
  | none (s : Stage) : Rounds [] s s
  | more {vs : List Value} {v : Value} {s s₁ t s₂ : Stage} (h : Rounds vs s s₁) (hnext : s₁.Next embedding t)
    (hbody : L.At L.body t) (hv : L.Holds t 3 v) (hruns : L.RunsBody embedding t s₂) : Rounds (vs ++ [v]) s s₂

/-- From a test on, the loop runs its body once for each of some values, in order, and then goes on behind
the test. -/
structure Counts (vs : List Value) (s : Stage) : Prop where
  /-- No other rounds are made. -/
  only : ∀ ws s', L.Rounds embedding ws s s' → ws <+: vs
  /-- A round begins as long as there are values. -/
  begins : ∀ ws v s', L.Rounds embedding ws s s' → ws ++ [v] <+: vs → 0 < s'.fuel →
    ∃ t, s'.Next embedding t ∧ L.At L.body t ∧ L.Holds t 3 v
  ends : ∀ s', L.Rounds embedding vs s s' → 0 < s'.fuel →
    ∃ t, s'.Next embedding t ∧ L.At (L.test + 1) t ∧ L.Holds t 3 .nil
  /-- All rounds are made if each one that begins comes to its end. -/
  completes : 0 < s.fuel → (∀ ws v s' t, L.Rounds embedding ws s s' → s'.Next embedding t → L.At L.body t →
    L.Holds t 3 v → ∃ s'', L.RunsBody embedding t s'' ∧ 0 < s''.fuel) → ∃ s', L.Rounds embedding vs s s' ∧ 0 < s'.fuel

end NumericLoop

/-- How often a loop is run. -/
def tripCount (init limit step : Int) : Nat := ((limit - init).fdiv step + 1).toNat

/-- The values of the loop variable. -/
def loopValues (init limit step : Int) : List Value :=
  (List.range (tripCount init limit step)).map fun k : Nat => .ofInt (init + k * step)

/-! The count of rounds -/

/-- A round is made for each value that is not beyond the limit. -/
theorem lt_tripCount {init limit step : Int} (hstep : step ≠ 0) {k : Nat} :
    k < tripCount init limit step ↔
      if 0 < step then init + k * step ≤ limit else limit ≤ init + k * step := by
  have hle : k < tripCount init limit step ↔ (k : Int) ≤ (limit - init).fdiv step := by
    rw [tripCount]
    omega
  rw [hle]
  split
  · next hpos =>
    rw [Int.fdiv_eq_ediv_of_nonneg _ hpos.le, Int.le_ediv_iff_mul_le hpos]
    omega
  · next hneg =>
    have hpos : 0 < -step := by omega
    rw [← Int.neg_fdiv_neg, Int.fdiv_eq_ediv_of_nonneg _ hpos.le, Int.le_ediv_iff_mul_le hpos, Int.mul_neg]
    omega

theorem length_loopValues (init limit step : Int) :
    (loopValues init limit step).length = tripCount init limit step := by
  simp [loopValues]

theorem getElem?_loopValues {init limit step : Int} {k : Nat} (hk : k < tripCount init limit step) :
    (loopValues init limit step)[k]? = some (.ofInt (init + k * step)) := by
  simp [loopValues, hk]

theorem concat_prefix_iff {α : Type} {xs ys : List α} {x : α} :
    xs ++ [x] <+: ys ↔ xs <+: ys ∧ ys[xs.length]? = some x := by
  constructor
  · rintro ⟨zs, rfl⟩
    exact ⟨⟨x :: zs, by simp⟩, by simp⟩
  · rintro ⟨⟨zs, rfl⟩, hx⟩
    cases zs with
    | nil => simp at hx
    | cons z zs =>
      obtain rfl : z = x := by simpa using hx
      exact ⟨zs, by simp⟩

/-! The operations -/

variable {m m' : Machine} {w : Window} {r : Nat} {v : Value} {x y z : Float}

namespace Window

theorem get_apply (h : m.running.stack[w.base + r]? = some v) : w.get r m = .ok v m :=
  readSlot_eq_ok.2 ⟨h, rfl⟩

theorem set_apply (h : w.base + r < m.running.stack.size) (v : Value) :
    w.set r v m = .ok () (m.withStack (m.running.stack.setIfInBounds (w.base + r) v)) :=
  writeSlot_apply v h

/-- A register that denotes a number holds it then. -/
theorem loopNumber_apply (h : m.running.stack[w.base + r]? = some v) (hv : v.toNumber? = some x)
    (what : String) : w.loopNumber r what m =
      .ok x (m.withStack (m.running.stack.setIfInBounds (w.base + r) (.number x))) := by
  rw [loopNumber, Action.bind_ok (get_apply h)]
  simp only [hv]
  exact Action.bind_ok (set_apply (Array.getElem?_eq_some_iff.1 h).1 _)

end Window

/-- A loop is prepared: its registers hold numbers, and the index is one step before the first value. -/
theorem forPrep_apply {u v' : Value} (hx : m.running.stack[w.base + r]? = some u) (hux : u.toNumber? = some x)
    (hy : m.running.stack[w.base + (r + 1)]? = some v) (hvy : v.toNumber? = some y)
    (hz : m.running.stack[w.base + (r + 2)]? = some v') (hvz : v'.toNumber? = some z) :
    ∃ stack, forPrep w r m = .ok () (m.withStack stack) ∧ stack.size = m.running.stack.size ∧
      stack[w.base + r]? = some (.number (x - z)) ∧ stack[w.base + (r + 1)]? = some (.number y) ∧
      stack[w.base + (r + 2)]? = some (.number z) := by
  have hi := (Array.getElem?_eq_some_iff.1 hx).1
  have hj := (Array.getElem?_eq_some_iff.1 hy).1
  have hk := (Array.getElem?_eq_some_iff.1 hz).1
  let numbers := ((m.running.stack.setIfInBounds (w.base + r) (.number x)).setIfInBounds (w.base + (r + 1))
    (.number y)).setIfInBounds (w.base + (r + 2)) (.number z)
  have hnumbers : forPrep w r m = w.set r (.number (x - z)) (m.withStack numbers) := by
    have hlimit (stack : Array Value) (h : stack[w.base + (r + 1)]? = some v) :=
      Window.loopNumber_apply (m := m.withStack stack) h hvy "limit"
    have hstep (stack : Array Value) (h : stack[w.base + (r + 2)]? = some v') :=
      Window.loopNumber_apply (m := m.withStack stack) h hvz "step"
    simp only [Machine.withStack_withStack, Machine.stack_withStack] at hlimit hstep
    rw [forPrep, Action.bind_ok (Window.loopNumber_apply hx hux _), Action.bind_ok (hlimit _ (by simpa using hy)),
      Action.bind_ok (hstep _ (by simpa using hz))]
  have hsize : numbers.size = m.running.stack.size := by simp [numbers]
  refine ⟨numbers.setIfInBounds (w.base + r) (.number (x - z)), ?_, ?_, ?_, ?_, ?_⟩
  · rw [hnumbers, Window.set_apply (by simpa [hsize] using hi)]
    rfl
  · simp [hsize]
  · simp [numbers, hi]
  · simp [numbers, hj]
  · simp [numbers, hk]

/-- Whether an index has not passed the limit. -/
def goesOn (index limit step : Float) : Bool := if step > 0 then decide (index ≤ limit) else decide (limit ≤ index)

/-- A test advances the index, and the loop goes on where that has not passed the limit. -/
theorem forLoop_apply (hx : m.running.stack[w.base + r]? = some (.number x))
    (hy : m.running.stack[w.base + (r + 1)]? = some (.number y))
    (hz : m.running.stack[w.base + (r + 2)]? = some (.number z)) (hv : w.base + (r + 3) < m.running.stack.size) :
    forLoop w r m = .ok (goesOn (x + z) y z) (m.withStack (if goesOn (x + z) y z then
      (m.running.stack.setIfInBounds (w.base + r) (.number (x + z))).setIfInBounds (w.base + (r + 3))
        (.number (x + z))
      else m.running.stack.setIfInBounds (w.base + (r + 3)) .nil)) := by
  have hi := (Array.getElem?_eq_some_iff.1 hx).1
  have hset (stack : Array Value) (i : Nat) (v : Value) (h : w.base + i < stack.size) :=
    Window.set_apply (m := m.withStack stack) h v
  simp only [Machine.withStack_withStack, Machine.stack_withStack] at hset
  rw [forLoop, Action.bind_ok (Window.get_apply hx), Action.bind_ok (Window.get_apply hy),
    Action.bind_ok (Window.get_apply hz)]
  dsimp only
  rw [← goesOn]
  cases goesOn (x + z) y z
  · exact Action.bind_ok (Window.set_apply hv _)
  · exact (Action.bind_ok (Window.set_apply hi _)).trans (Action.bind_ok (hset _ _ _ (by simpa using hv)))

/-- Integers go on as long as they are not beyond the limit. -/
theorem goesOn_eq {i limit step : Int} (hx : Number.IsInt x.toModel.unpack i)
    (hy : Number.IsInt y.toModel.unpack limit) (hz : Number.IsInt z.toModel.unpack step)
    (hi : i.natAbs < 2 ^ 53) (hlimit : limit.natAbs < 2 ^ 53) (hstep : step.natAbs < 2 ^ 53) :
    goesOn x y z = decide (if 0 < step then i ≤ limit else limit ≤ i) := by
  have hzero : Number.IsInt (0 : Float).toModel.unpack 0 := .inl rfl
  have hpos : z > 0 ↔ 0 < step := Number.lt_iff hzero hz (by decide) hstep
  simp only [goesOn, hpos, Number.le_iff hx hy hi hlimit, Number.le_iff hy hx hlimit hi]
  split <;> rfl

namespace NumericLoop

variable {L : NumericLoop} {embedding : Embedding} {s s' t : Stage}

/-- A loop is at its test, with numbers for the index, the limit and the step. -/
structure Poised (L : NumericLoop) (s : Stage) (x y z : Float) : Prop where
  place : L.At L.test s
  index : L.Holds s 0 (.number x)
  limit : L.Holds s 1 (.number y)
  step : L.Holds s 2 (.number z)
  room : ∃ v, L.Holds s 3 v

/-- A loop is at the start of its body, with an index that the loop variable has too. -/
structure Begun (L : NumericLoop) (s : Stage) (x y z : Float) : Prop where
  place : L.At L.body s
  index : L.Holds s 0 (.number x)
  limit : L.Holds s 1 (.number y)
  step : L.Holds s 2 (.number z)
  value : L.Holds s 3 (.number x)

theorem Begun.poised (h : L.Begun s x y z) (hruns : L.RunsBody embedding s s') : L.Poised s' x y z :=
  ⟨hruns.back, hruns.keeps 0 (by decide) _ h.index, hruns.keeps 1 (by decide) _ h.limit,
    hruns.keeps 2 (by decide) _ h.step, hruns.room⟩

/-- One step prepares the loop and leads to its test. -/
theorem exists_poised (hat : L.At L.start s) (hfuel : 0 < s.fuel) {u v w' : Value} (hu : L.Holds s 0 u)
    (hux : u.toNumber? = some x) (hv : L.Holds s 1 v) (hvy : v.toNumber? = some y) (hw : L.Holds s 2 w')
    (hwz : w'.toNumber? = some z) (hroom : ∃ v, L.Holds s 3 v) (embedding : Embedding) :
    ∃ t, s.Next embedding t ∧ L.Poised t (x - z) y z := by
  obtain ⟨after, hfetch⟩ := L.prepared
  obtain ⟨fuel, job, m⟩ := s
  obtain ⟨k, rfl⟩ := Nat.exists_eq_add_of_lt hfuel
  obtain rfl : job = _ := hat
  obtain ⟨stack, hprep, hsize, hstack⟩ :=
    forPrep_apply (m := m.atPc (L.start + 1)) (w := L.window) (r := L.register) hu hux hv hvy hw hwz
  have hstep : step embedding (run embedding k) ⟨L.window, L.engine, L.start⟩ m =
      .ok (some ⟨L.window, L.engine, L.test⟩) ((m.atPc (L.start + 1)).withStack stack) := by
    rw [Activation.step_of_fetch embedding _ hfetch]
    simp only [perform, Action.bind_ok hprep]
    rfl
  obtain ⟨v', hv'⟩ := hroom
  have hlt : L.slot 3 < stack.size := hsize.symm ▸ (Array.getElem?_eq_some_iff.1 hv').1
  rw [Nat.zero_add]
  exact ⟨_, .stepped hstep, rfl, hstack.1, hstack.2.1, hstack.2.2, _, Array.getElem?_eq_getElem hlt⟩

/-- One step makes the test and leads into the loop or behind it. -/
theorem Poised.next (h : L.Poised s x y z) (hfuel : 0 < s.fuel) :
    ∃ t, s.Next embedding t ∧ (goesOn (x + z) y z = true → L.Begun t (x + z) y z) ∧
      (goesOn (x + z) y z = false → L.At (L.test + 1) t ∧ L.Holds t 3 .nil) := by
  obtain ⟨fuel, job, m⟩ := s
  obtain ⟨k, rfl⟩ := Nat.exists_eq_add_of_lt hfuel
  obtain rfl : job = _ := h.place
  obtain ⟨v, hv⟩ := h.room
  have hlt := (Array.getElem?_eq_some_iff.1 hv).1
  have hloop := forLoop_apply (m := m.atPc (L.test + 1)) (w := L.window) (r := L.register) h.index h.limit h.step hlt
  rw [Nat.zero_add]
  have hstep := Activation.step_of_fetch embedding (run embedding k) L.tested m
  simp only [perform, Action.bind_ok hloop] at hstep
  have hi : L.slot 0 < m.running.stack.size := (Array.getElem?_eq_some_iff.1 h.index).1
  have hslot (i : Nat) : L.window.base + (L.register + i) = L.slot i := (Nat.add_assoc ..).symm
  have hfirst : L.window.base + L.register = L.slot 0 := rfl
  have hstack : (m.atPc (L.test + 1)).running.stack = m.running.stack := rfl
  have hne {i j : Nat} (hij : i ≠ j) : L.slot i ≠ L.slot j := fun h => hij (Nat.add_left_cancel h)
  simp only [hslot, hfirst, hstack] at hstep
  cases hgoes : goesOn (x + z) y z <;> rw [hgoes] at hstep
  · exact ⟨_, .stepped hstep, (absurd · Bool.false_ne_true), fun _ =>
      ⟨rfl, Array.getElem?_setIfInBounds_self_of_lt hlt⟩⟩
  · refine ⟨_, .stepped hstep, fun _ => ⟨rfl, ?_, ?_, ?_, ?_⟩, (absurd ·.symm Bool.false_ne_true)⟩
    · exact (Array.getElem?_setIfInBounds_ne (hne (by decide))).trans (Array.getElem?_setIfInBounds_self_of_lt hi)
    · exact (Array.getElem?_setIfInBounds_ne (hne (by decide))).trans
        ((Array.getElem?_setIfInBounds_ne (hne (by decide))).trans h.limit)
    · exact (Array.getElem?_setIfInBounds_ne (hne (by decide))).trans
        ((Array.getElem?_setIfInBounds_ne (hne (by decide))).trans h.step)
    · exact Array.getElem?_setIfInBounds_self_of_lt (by simpa using hlt)

/-! Rounds -/

section

variable {init limit step : Int} (hstep : step ≠ 0) (hinit : init.natAbs ≤ 2 ^ 51) (hlimit : limit.natAbs ≤ 2 ^ 51)
  (hbound : step.natAbs ≤ 2 ^ 51)

/-- A loop over integers is at its test for the `k`-th time: the index is one step before the `k`-th value. -/
def Reaches (L : NumericLoop) (init limit step : Int) (k : Nat) (s : Stage) : Prop :=
  ∃ x y z : Float, L.Poised s x y z ∧ Number.IsInt x.toModel.unpack (init + k * step - step) ∧
    Number.IsInt y.toModel.unpack limit ∧ Number.IsInt z.toModel.unpack step

include hstep hinit hlimit hbound

/-- All numbers that the index takes are far from the largest exact one. -/
theorem natAbs_index_le {k : Nat} (hk : k ≤ tripCount init limit step) :
    (init + k * step).natAbs ≤ 2 ^ 52 ∧ (init + k * step - step).natAbs ≤ 2 ^ 52 := by
  cases k with
  | zero => simp; omega
  | succ k =>
    have hlt := (lt_tripCount hstep).1 (Nat.lt_of_succ_le hk)
    have hprev : init + (k + 1 : Nat) * step - step = init + k * step := by
      rw [Nat.cast_succ, add_mul, one_mul]
      omega
    have hle : (init + k * step).natAbs ≤ 2 ^ 51 := by
      split at hlt
      · next hpos =>
        have := Int.mul_nonneg (Int.natCast_nonneg k) hpos.le
        omega
      · next hneg =>
        have := Int.mul_nonpos_of_nonneg_of_nonpos (Int.natCast_nonneg k) (not_lt.1 hneg)
        omega
    omega

/-- The test for the `k`-th time leads to the `k`-th round, or behind the loop where there is none. -/
theorem Reaches.next {k : Nat} (h : L.Reaches init limit step k s) (hk : k ≤ tripCount init limit step)
    (hfuel : 0 < s.fuel) (embedding : Embedding) : ∃ t, s.Next embedding t ∧
      (k < tripCount init limit step → L.At L.body t ∧ L.Holds t 3 (.ofInt (init + k * step)) ∧
        ∀ s', L.RunsBody embedding t s' → L.Reaches init limit step (k + 1) s') ∧
      (k = tripCount init limit step → L.At (L.test + 1) t ∧ L.Holds t 3 .nil) := by
  obtain ⟨x, y, z, hpoised, hx, hy, hz⟩ := h
  obtain ⟨hnow, hbefore⟩ := natAbs_index_le hstep hinit hlimit hbound hk
  have hsum : x + z = Float.ofInt (init + k * step) := by
    have := Number.add_eq hx hz hstep (by omega) (by omega) (by rw [sub_add_cancel]; omega)
    rwa [sub_add_cancel] at this
  have hint : Number.IsInt (x + z).toModel.unpack (init + k * step) := by
    rw [hsum]
    exact Number.isInt_ofInt (by omega)
  have hgoes : goesOn (x + z) y z = decide (k < tripCount init limit step) := by
    rw [goesOn_eq hint hy hz (by omega) (by omega) (by omega), decide_eq_decide]
    exact (lt_tripCount hstep).symm
  obtain ⟨t, hnext, hon, hoff⟩ := hpoised.next hfuel
  refine ⟨t, hnext, fun hlt => ?_, fun heq => hoff (by simp [hgoes, heq])⟩
  have hbegun := hon (by simp [hgoes, hlt])
  have hvalue := hbegun.value
  rw [hsum] at hvalue
  refine ⟨hbegun.place, hvalue, fun s' hruns => ⟨x + z, y, z, hbegun.poised hruns, ?_, hy, hz⟩⟩
  have hprev : init + (k + 1 : Nat) * step - step = init + k * step := by
    rw [Nat.cast_succ, add_mul, one_mul]
    omega
  rwa [hprev]

/-- The rounds made so far were made with the first values. -/
theorem Rounds.reaches {ws : List Value} (h : L.Rounds embedding ws s s') (hs : L.Reaches init limit step 0 s) :
    L.Reaches init limit step ws.length s' ∧ ws <+: loopValues init limit step := by
  induction h with
  | none s => exact ⟨hs, List.nil_prefix⟩
  | @more vs v s s₁ t s₂ _ hnext hbody hv hruns ih =>
    obtain ⟨hreaches, hbegins⟩ := ih hs
    have hle : vs.length ≤ tripCount init limit step := length_loopValues .. ▸ hbegins.length_le
    obtain ⟨t', hnext', hon, hoff⟩ := hreaches.next hstep hinit hlimit hbound hle hnext.fuel_pos embedding
    obtain rfl := hnext.unique hnext'
    obtain hlt | heq := hle.lt_or_eq
    · obtain ⟨-, hvalue, hbegun⟩ := hon hlt
      obtain rfl := Option.some.inj (hv.symm.trans hvalue)
      rw [List.length_append]
      exact ⟨hbegun s₂ hruns, concat_prefix_iff.2 ⟨hbegins, getElem?_loopValues hlt⟩⟩
    · have hsame : L.test + 1 = L.body := by simpa using (hoff heq).1.symm.trans hbody
      exact absurd L.backward (by omega)

/-- From its first test on, a loop over integers counts. -/
theorem Reaches.counts (hs : L.Reaches init limit step 0 s) :
    L.Counts embedding (loopValues init limit step) s where
  only ws s' h := (h.reaches hstep hinit hlimit hbound hs).2
  begins ws v s' h hbegins hfuel := by
    obtain ⟨hreaches, -⟩ := h.reaches hstep hinit hlimit hbound hs
    obtain ⟨hle, hget⟩ := concat_prefix_iff.1 hbegins
    have hlt : ws.length < tripCount init limit step := by
      have := (List.getElem?_eq_some_iff.1 hget).1
      rwa [length_loopValues] at this
    obtain ⟨t, hnext, hon, -⟩ := hreaches.next hstep hinit hlimit hbound hlt.le hfuel embedding
    obtain ⟨hbody, hvalue, -⟩ := hon hlt
    obtain rfl := Option.some.inj ((getElem?_loopValues hlt).symm.trans hget)
    exact ⟨t, hnext, hbody, hvalue⟩
  ends s' h hfuel := by
    obtain ⟨hreaches, -⟩ := h.reaches hstep hinit hlimit hbound hs
    have heq := length_loopValues init limit step
    obtain ⟨t, hnext, -, hoff⟩ := hreaches.next hstep hinit hlimit hbound heq.le hfuel embedding
    exact ⟨t, hnext, hoff heq⟩
  completes hfuel hruns := by
    have htake (n : Nat) (hn : n ≤ tripCount init limit step) :
        ∃ s', L.Rounds embedding ((loopValues init limit step).take n) s s' ∧ 0 < s'.fuel := by
      induction n with
      | zero => exact ⟨s, .none s, hfuel⟩
      | succ n ih =>
        obtain ⟨s₁, hrounds, hfuel₁⟩ := ih (Nat.le_of_succ_le hn)
        obtain ⟨hreaches, -⟩ := hrounds.reaches hstep hinit hlimit hbound hs
        have hlength : ((loopValues init limit step).take n).length = n := by
          rw [List.length_take, length_loopValues]
          omega
        rw [hlength] at hreaches
        obtain ⟨t, hnext, hon, -⟩ :=
          hreaches.next hstep hinit hlimit hbound (Nat.le_of_succ_le hn) hfuel₁ embedding
        obtain ⟨hbody, hvalue, -⟩ := hon hn
        obtain ⟨s₂, hbodyRun, hfuel₂⟩ := hruns _ _ _ _ hrounds hnext hbody hvalue
        refine ⟨s₂, ?_, hfuel₂⟩
        rw [List.take_add_one, getElem?_loopValues hn]
        exact hrounds.more hnext hbody hvalue hbodyRun
    obtain ⟨s', hrounds, hfuel'⟩ := htake _ le_rfl
    rw [← length_loopValues, List.take_length] at hrounds
    exact ⟨s', hrounds, hfuel'⟩

end

end NumericLoop

/-- A numeric `for` loop counts: prepared with integers, it goes to its test and from there runs its body once
for each value from the first one to the limit, with that value in the register behind its three, and then
leaves `nil` there and goes on. -/
theorem numeric_for_counts {L : NumericLoop} {s : Stage} {init limit step : Int} (hat : L.At L.start s)
    (hfuel : 0 < s.fuel) (hinit : L.Denotes s 0 init) (hlimit : L.Denotes s 1 limit) (hstep : L.Denotes s 2 step)
    (hroom : ∃ v, L.Holds s 3 v) (hne : step ≠ 0) (hinitBound : init.natAbs ≤ 2 ^ 51)
    (hlimitBound : limit.natAbs ≤ 2 ^ 51) (hstepBound : step.natAbs ≤ 2 ^ 51) (embedding : Embedding) :
    ∃ t, s.Next embedding t ∧ L.At L.test t ∧ L.Counts embedding (loopValues init limit step) t := by
  obtain ⟨u, x, hu, hux, hx⟩ := hinit
  obtain ⟨v, y, hv, hvy, hy⟩ := hlimit
  obtain ⟨w, z, hw, hwz, hz⟩ := hstep
  obtain ⟨t, hnext, hpoised⟩ :=
    NumericLoop.exists_poised hat hfuel hu hux hv hvy hw hwz hroom embedding
  have hintX := Number.isInt_of_beq (by omega) hx
  have hintY := Number.isInt_of_beq (by omega) hy
  have hintZ := Number.isInt_of_beq (by omega) hz
  have hdiff : x - z = Float.ofInt (init - step) :=
    Number.sub_eq hintX hintZ hne (by omega) (by omega) (by omega)
  have hreaches : L.Reaches init limit step 0 t := by
    refine ⟨x - z, y, z, hpoised, ?_, hintY, hintZ⟩
    rw [hdiff, Nat.cast_zero, zero_mul, add_zero]
    exact Number.isInt_ofInt (by omega)
  exact ⟨t, hnext, hpoised.place, hreaches.counts hne hinitBound hlimitBound hstepBound⟩

/-! A loop without a body, which counts down -/

/-- The code of a loop without a body. -/
def Prototype.idler : Prototype :=
  { Prototype.empty "" with
    maxStack := 4
    code := #[(Instruction.asbx .forPrep 0 0).word, (Instruction.asbx .forLoop 0 (-1)).word] }

def NumericLoop.idle : NumericLoop where
  outer := 0
  window := ⟨{ proto := .idler, upvalues := #[], env := ⟨0⟩ }, 0⟩
  engine := .interpreter
  register := 0
  start := 0
  test := 1
  body := 1
  prepared := ⟨1, rfl⟩
  tested := rfl
  backward := le_rfl

/-- Before the loop, with numerals for the limit and the step. -/
def Stage.idle : Stage :=
  ⟨6, .proceed 0 ⟨NumericLoop.idle.window, .interpreter, 0⟩,
    Machine.bare.withStack #[.ofInt 10, .str "1", .str " -4 ", .nil]⟩

/-- A round without a body takes one step. -/
theorem NumericLoop.Rounds.fuel_idle {embedding : Embedding} {vs : List Value} {s s' : Stage}
    (h : NumericLoop.idle.Rounds embedding vs s s') : s.fuel = s'.fuel + vs.length := by
  induction h with
  | none s => rfl
  | @more vs v s s₁ t s₂ _ hnext hbody _ hruns ih =>
    obtain rfl | ⟨t', hfirst, -⟩ := Relation.ReflTransGen.cases_head_iff.1 hruns.steps
    · rw [ih, hnext.fuel_eq, List.length_append]
      simp only [List.length_cons, List.length_nil]
      omega
    · exact absurd hbody hfirst.2

theorem numeric_for_counts_idle : ∃ t s', Stage.idle.Next (fun _ _ => pure 0) t ∧
    NumericLoop.idle.Rounds (fun _ _ => pure 0) [.ofInt 10, .ofInt 6, .ofInt 2] t s' := by
  have hinit : NumericLoop.idle.Denotes .idle 0 10 := ⟨.ofInt 10, .ofInt 10, rfl, rfl, by decide⟩
  have hlimit : NumericLoop.idle.Denotes .idle 1 1 := ⟨.str "1", .ofInt 1, rfl, by decide, by decide⟩
  have hstep : NumericLoop.idle.Denotes .idle 2 (-4) := ⟨.str " -4 ", .ofInt (-4), rfl, by decide, by decide⟩
  obtain ⟨t, hnext, -, hcounts⟩ := numeric_for_counts (L := .idle) (s := .idle) rfl (by decide) hinit hlimit hstep
    ⟨.nil, rfl⟩ (by decide) (by decide) (by decide) (by decide) fun _ _ => pure 0
  have hfuel : t.fuel = 5 := (Nat.succ.inj hnext.fuel_eq).symm
  have hvalues : loopValues 10 1 (-4) = [.ofInt 10, .ofInt 6, .ofInt 2] := rfl
  rw [hvalues] at hcounts
  obtain ⟨s', hrounds, -⟩ := hcounts.completes (by omega) fun ws v s' u hrounds hnext' hbody hv => by
    have hlength : ws.length ≤ 3 := (hcounts.only ws s' hrounds).length_le
    have hrest := hrounds.fuel_idle
    have hlast := hnext'.fuel_eq
    exact ⟨u, ⟨.refl, hbody, fun _ _ _ => id, v, hv⟩, by omega⟩
  exact ⟨t, s', hnext, hrounds⟩

end LuaMachine
