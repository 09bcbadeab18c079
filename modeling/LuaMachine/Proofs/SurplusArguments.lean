import LuaMachine.Proofs.Stages
import LuaMachine.Proofs.TableBorder

/-!
Surplus arguments. A function that is entered may find them in a table, and `VARARG` copies them from below the
registers: all of them, or as many as it wants.
-/

namespace LuaMachine

variable {m m' : Machine} {stack : Array Value} {vs ws args : List Value} {p : Prototype} {f : Frame}
  {fs : List Frame} {i j n x y target source after : Nat} {a : Activation} {w : Window} {u : Unit}

/-! Writing values in a row -/

theorem writeSlots_append (i : Nat) (vs ws : List Value) :
    writeSlots i (vs ++ ws) = (writeSlots i vs >>= fun _ => writeSlots (i + vs.length) ws) := by
  induction vs generalizing i with
  | nil => rfl
  | cons v vs ih =>
    simp only [List.cons_append, writeSlots, ih, bind_assoc, List.length_cons,
      show i + 1 + vs.length = i + (vs.length + 1) by omega]

theorem clearSlots_eq_writeSlots (i n : Nat) : clearSlots i n = writeSlots i (List.replicate n .nil) := by
  induction n generalizing i with
  | zero => rfl
  | succ n ih => rw [clearSlots, ih, List.replicate_succ, writeSlots]

/-- Values that are copied up, beyond where they are, are read as they were. -/
theorem copySlots_eq_writeSlots (h : HoldsFrom m.running.stack source vs) (hle : source + vs.length ≤ target) :
    copySlots target source vs.length m = writeSlots target vs m := by
  induction vs generalizing target source m with
  | nil => rfl
  | cons v vs ih =>
    rw [List.length_cons] at hle
    have hread : readSlot source m = .ok v m := readSlot_eq_ok.2 ⟨h 0 (Nat.succ_pos _), rfl⟩
    rw [List.length_cons, copySlots, Action.bind_ok hread, writeSlots, Action.bind_apply, Action.bind_apply]
    cases hwrite : writeSlot target v m with
    | error e m₁ => rfl
    | ok u m₁ =>
      obtain ⟨-, rfl⟩ := writeSlot_eq_ok.1 hwrite
      refine ih (fun k hk => ?_) (by omega)
      rw [Machine.stack_withStack, Array.getElem?_setIfInBounds_ne (by omega)]
      have hnext := h (k + 1) (Nat.succ_lt_succ hk)
      rwa [List.getElem?_cons_succ, show source + (k + 1) = source + 1 + k by omega] at hnext

/-! What `VARARG` does -/

/-- Values were written to slots from one on, as many as are wanted; if all are, the free slot is behind them. -/
structure Machine.Spreads (m m' : Machine) (first : Nat) (wanted : Option Nat) (vs : List Value) : Prop where
  values : HoldsFrom m'.running.stack first (adjusted wanted vs)
  top : m'.running.top = wanted.elim (first + vs.length) fun _ => m.running.top
  others : ∀ j v, j < first ∨ first + (adjusted wanted vs).length ≤ j → m.running.stack[j]? = some v →
    m'.running.stack[j]? = some v

/-- Surplus arguments are copied to registers. -/
theorem spreadSurplus_eq (hf : m.topFrame? = some f) (hvs : HoldsFrom m.running.stack (w.base - f.surplus) vs)
    (hlength : vs.length = f.surplus) (hle : f.surplus ≤ w.base) (x y : Nat) :
    spreadSurplus w x y m = (if y = 0 then do
        ensureStack (w.base + x + vs.length + Limit.extraStack)
        writeSlots (w.base + x) vs
        setTop (w.base + x + vs.length)
      else writeSlots (w.base + x) (adjusted (some (y - 1)) vs)) m := by
  have hbeyond : w.base - f.surplus + vs.length ≤ w.base + x := by omega
  rw [spreadSurplus, Action.bind_ok (Action.view_apply _ m), hf, Option.map_some, Option.getD_some, ← hlength]
  rw [← hlength] at hvs hbeyond
  rcases Nat.eq_zero_or_pos y with rfl | hy
  · simp only [if_true]
    rw [Action.bind_apply, Action.bind_apply]
    cases hensure : ensureStack (w.base + x + vs.length + Limit.extraStack) m with
    | error e m₁ => rfl
    | ok u m₁ =>
      obtain ⟨stack, rfl, -, -, hgrown, -⟩ := ensureStack_eq_ok hensure
      have hvs' : HoldsFrom (m.withStack stack).running.stack (w.base - vs.length) vs :=
        hvs.congr fun k hk => hgrown _ (hvs.lt_size hk)
      simp only [Action.bind_apply, copySlots_eq_writeSlots hvs' hbeyond]
  · have hcopied := hvs.take (y - 1)
    have hcopy : copySlots (w.base + x) (w.base - vs.length) (vs.take (y - 1)).length m =
        writeSlots (w.base + x) (vs.take (y - 1)) m :=
      copySlots_eq_writeSlots hcopied (by rw [List.length_take]; omega)
    -- what is missing starts behind all values, so it makes no difference where nothing is
    have hclear : clearSlots (w.base + x + vs.length) (y - 1 - vs.length) =
        writeSlots (w.base + x + (vs.take (y - 1)).length) (List.replicate (y - 1 - vs.length) .nil) := by
      rw [clearSlots_eq_writeSlots, List.length_take]
      rcases le_total (y - 1) vs.length with hle | hle
      · rw [Nat.sub_eq_zero_of_le hle]
        rfl
      · rw [min_eq_right hle]
    simp only [if_neg hy.ne', adjusted, writeSlots_append, hclear]
    rw [Action.bind_apply, Action.bind_apply, ← List.length_take, hcopy]

/-- They are there afterwards, unless the stack overflows, which it may where all are wanted. -/
theorem spreadSurplus_spreads (hf : m.topFrame? = some f)
    (hvs : HoldsFrom m.running.stack (w.base - f.surplus) vs) (hlength : vs.length = f.surplus)
    (hle : f.surplus ≤ w.base) (hsize : w.base + x + (y - 1) ≤ m.running.stack.size) :
    (∃ m', spreadSurplus w x y m = .ok () m' ∧ m'.running.frames = m.running.frames ∧
      m.Spreads m' (w.base + x) (wantedBy y) vs) ∨
    y = 0 ∧ Outcome.Overflows (spreadSurplus w x y m) := by
  rw [spreadSurplus_eq hf hvs hlength hle]
  rcases Nat.eq_zero_or_pos y with rfl | hy
  · simp only [if_true, true_and]
    by_cases hroom : m.running.HasRoom m.options.maxStack (w.base + x + vs.length + Limit.extraStack)
    · obtain ⟨grown, hensure, hgrown, -, hsame⟩ := ensureStack_apply hroom
      obtain ⟨m₁, hwrite⟩ : ∃ m₁, writeSlots (w.base + x) vs (m.withStack grown) = .ok () m₁ :=
        exists_writeSlots (by rw [Machine.stack_withStack]; omega)
      obtain ⟨stack, rfl, -, hlow, hheld, hhigh⟩ := writeSlots_eq_ok hwrite
      rw [Machine.stack_withStack] at hlow hhigh
      refine .inl ⟨(m.withStack stack).withTop (w.base + x + vs.length), ?_, rfl, hheld, rfl,
        fun j v hj hv => ?_⟩
      · rw [Action.bind_ok hensure, Action.bind_ok hwrite]
        rfl
      · have hlt := (Array.getElem?_eq_some_iff.1 hv).1
        rw [← hsame j hlt] at hv
        exact hj.elim (fun hj => (hlow j hj).trans hv) fun hj => (hhigh j hj).trans hv
    · exact .inr ⟨m, by rw [Action.bind_apply, ensureStack_overflows hroom]⟩
  · have hwanted : wantedBy y = some (y - 1) := if_neg hy.ne'
    rw [hwanted]
    have hcount : (adjusted (some (y - 1)) vs).length = y - 1 := length_adjusted_some _ _
    obtain ⟨m₁, hwrite⟩ := exists_writeSlots (m := m) (hcount.symm ▸ hsize)
    obtain ⟨stack, rfl, -, hlow, hheld, hhigh⟩ := writeSlots_eq_ok hwrite
    refine .inl ⟨m.withStack stack, ?_, rfl, hheld, rfl, fun j v hj hv => ?_⟩
    · rw [if_neg hy.ne']
      exact hwrite
    · exact hj.elim (fun hj => (hlow j hj).trans hv) fun hj => (hhigh j hj).trans hv

/-- A frame that performs `VARARG` has the surplus arguments in its registers and goes on. -/
theorem Activation.step_vararg (hfetch : a.fetch? = some ⟨.vararg x y, after⟩)
    (hfs : m.running.frames.toList = fs ++ [f]) (hbase : a.window.base = f.base)
    (hvs : HoldsFrom m.running.stack (f.base - f.surplus) vs) (hlength : vs.length = f.surplus)
    (hle : f.surplus ≤ f.base) (hsize : f.base + x + (y - 1) ≤ m.running.stack.size)
    (embedding : Embedding) (run : Run) :
    (∃ m', step embedding run a m = .ok (some { a with pc := after }) m' ∧
      m'.running.frames.toList = fs ++ [{ f with pc := a.pc + 1 }] ∧
        m.Spreads m' (f.base + x) (wantedBy y) vs) ∨
    y = 0 ∧ Outcome.Overflows (step embedding run a m) := by
  have hfs' := Setting.toList_frames_atPc hfs (a.pc + 1)
  rw [step_of_fetch embedding run hfetch]
  have hperform : perform embedding run a.window (.vararg x y) (m.atPc (a.pc + 1)) =
      (spreadSurplus a.window x y >>= fun _ => pure Flow.next) (m.atPc (a.pc + 1)) := rfl
  rw [hperform, Action.bind_apply]
  have hspread := spreadSurplus_spreads (m := m.atPc (a.pc + 1)) (w := a.window) (x := x) (y := y)
    (topFrame?_of_append hfs') (hbase ▸ hvs) hlength (hbase ▸ hle) (hbase ▸ hsize)
  rw [hbase] at hspread
  refine hspread.imp ?_ ?_
  · rintro ⟨m', hspread, hframes, hspreads⟩
    exact ⟨m', by rw [hspread]; rfl, hframes ▸ hfs', hspreads.values, hspreads.top, hspreads.others⟩
  · rintro ⟨hy, m', hover⟩
    exact ⟨hy, m', by rw [hover]⟩

/-! The table of surplus arguments -/

namespace Table

/-- Assignments of values to the integers from 1 on. -/
def items (vs : List Value) : List Assignment :=
  vs.zipIdx.map fun (v, i) => .setInt (i + 1 : Nat) v

/-- Besides, their number goes to the name `n`. -/
def listing (vs : List Value) : List Assignment := items vs ++ [.set (.str "n") (.ofNat vs.length)]

theorem items_append (vs : List Value) (v : Value) :
    items (vs ++ [v]) = items vs ++ [.setInt (vs.length + 1 : Nat) v] := by
  simp [items, List.zipIdx_append]

/-- A table has values at the integers from 1 on, and their number under the name `n`. Beyond `2 ^ 53` an integer
is not one number any more. -/
structure Lists (t : Table) (vs : List Value) : Prop where
  count : t.getString "n" = .ofNat vs.length
  items : vs.length ≤ 2 ^ 53 → ∀ j (hj : j < vs.length), t.getInt (j + 1 : Nat) = vs[j]
  contents : ∀ k, k.isNil = false → t.get k = lastValue (listing vs) k

theorem lastValue_items {j : Nat} (hj : j < vs.length) (hle : vs.length ≤ 2 ^ 53) :
    lastValue (items vs) (.ofInt (j + 1 : Nat)) = vs[j] := by
  induction vs using List.reverseRecOn with
  | nil => simp at hj
  | append_singleton vs v ih =>
    rw [List.length_append, List.length_singleton] at hj hle
    have hkey : (Assignment.setInt (vs.length + 1 : Nat) v).key.key = .ok (.position (vs.length + 1)) :=
      Value.key_ofInt (Nat.succ_pos _) hle
    have hsame := Value.rawEquals_iff_key hkey (w := .ofInt (j + 1 : Nat))
    rw [Value.key_ofInt (Nat.succ_pos j) (by omega)] at hsame
    rw [items_append, lastValue_append]
    rcases Nat.lt_succ_iff_lt_or_eq.1 hj with hlt | rfl
    · rw [if_neg fun heq => by simpa [hlt.ne] using hsame.1 heq, ih hlt (by omega), List.getElem_append_left hlt]
    · rw [if_pos (hsame.2 rfl), List.getElem_concat_length rfl]
      rfl

theorem lists_built (vs : List Value) : (built (listing vs)).Lists vs := by
  refine ⟨?_, fun hle j hj => ?_, fun k => get_built _⟩
  · have hget := get_built (listing vs) (k := .str "n") rfl
    rw [listing, lastValue_append, if_pos (by rfl)] at hget
    exact hget
  · have hkey := Value.key_ofInt (Nat.succ_pos j) (by omega : j + 1 ≤ 2 ^ 53)
    have hget := get_built (listing vs) (k := .ofInt (j + 1 : Nat)) rfl
    have hother : ¬ Value.rawEquals (.str "n") (.ofInt (j + 1 : Nat)) :=
      Bool.eq_false_iff.1 (Value.rawEquals_of_types nofun)
    have hlast : lastValue (listing vs) (.ofInt (j + 1 : Nat)) = lastValue (items vs) (.ofInt (j + 1 : Nat)) :=
      (lastValue_append _ _ _).trans (if_neg hother)
    rw [hlast, lastValue_items hj hle] at hget
    rw [getInt_eq (Nat.succ_pos j) (by omega), ← hget, get, hkey]

end Table

theorem surplusTable_eq_built (vs : List Value) : surplusTable vs = Table.built (Table.listing vs) := by
  have hitems : vs.foldl (fun (s : Table × Nat) v => (s.1.setInt s.2 v, s.2 + 1)) (.empty, 1) =
      (Table.built (Table.items vs), vs.length + 1) := by
    induction vs using List.reverseRecOn with
    | nil => rfl
    | append_singleton vs v ih =>
      rw [List.foldl_append, ih, Table.items_append, Table.built_append, List.length_append]
      rfl
  have hsurplus : surplusTable vs = (vs.foldl (fun (s : Table × Nat) v => (s.1.setInt s.2 v, s.2 + 1))
      (.empty, 1)).1.setString "n" (.ofNat vs.length) := rfl
  rw [hsurplus, hitems, Table.listing, Table.built_append]
  rfl

/-! Functions that are entered -/

/-- The arguments for which a function has no parameters, if it takes such. -/
def Prototype.surplus (p : Prototype) (args : List Value) : List Value :=
  if p.isVararg then args.drop p.paramCount.toNat else []

namespace Frame.Receives

variable {t : TableId}

theorem surplus_eq (h : f.Receives p args t stack) :
    (args.drop p.paramCount.toNat).take f.surplus = p.surplus args := by
  rw [h.surplus, Prototype.surplus]
  split
  · rw [← List.length_drop, List.take_length]
  · rfl

theorem length_surplus (h : f.Receives p args t stack) : (p.surplus args).length = f.surplus := by
  rw [h.surplus, Prototype.surplus]
  split
  · rw [List.length_drop]
  · rfl

theorem holdsFrom_surplus (h : f.Receives p args t stack) :
    HoldsFrom stack (f.base - f.surplus) (p.surplus args) := h.surplus_eq ▸ h.kept

theorem surplus_le_base (h : f.Receives p args t stack) : f.surplus ≤ f.base := by
  rw [h.surplus, h.base, Prototype.baseFor]
  split <;> omega

theorem base_add_le_top (h : f.Receives p args t stack) : f.base + p.maxStack.toNat ≤ f.top := by
  rw [h.top, Prototype.registers, List.length_append, List.length_replicate]
  omega

end Frame.Receives

/-- Entering a function makes room first. -/
theorem enterLua_grows {c : ClosureId} {unit : Option CompiledUnit} {slot : Nat} {wanted : Option Nat}
    {tail : Bool} (h : enterLua c unit slot n wanted tail m = .ok u m') :
    ∃ stack, enterLua c unit slot n wanted tail (m.withStack stack) = .ok u m' ∧
      (m.heap.closure c).proto.extent slot n ≤ stack.size ∧
      (∀ j, j < m.running.stack.size → stack[j]? = m.running.stack[j]?) ∧
      ∀ j, m.running.stack.size ≤ j → j < stack.size → stack[j]? = some .nil := by
  have hadmits := admits_of_enterLua h
  rw [enterLua_eq, layOutFrame_eq] at h ⊢
  obtain ⟨laid, m₁, hlay, hpush⟩ := Action.bind_eq_ok.1 h
  rw [Action.bind_ok (checkDepth_apply hadmits.1), Action.bind_ok (Action.view_apply _ m)] at hlay
  obtain ⟨_, m₂, hensure, hlay⟩ := Action.bind_eq_ok.1 hlay
  obtain ⟨stack, rfl, hsize, -, hold, hnew⟩ := ensureStack_eq_ok hensure
  refine ⟨stack, Action.bind_eq_ok.2 ⟨laid, m₁, ?_, hpush⟩, hsize, hold, hnew⟩
  have hensure' : ensureStack ((m.heap.closure c).proto.extent slot n) (m.withStack stack) =
      .ok () (m.withStack stack) := if_pos hsize
  rw [Action.bind_ok (checkDepth_apply (m := m.withStack stack) hadmits.1),
    Action.bind_ok (Action.view_apply _ (m.withStack stack))]
  exact Action.bind_eq_ok.2 ⟨_, _, hensure', hlay⟩

/-- A function that was entered has received the values behind it: its parameters in the first registers, a table
of the surplus ones next to them if it wants that, and `nil` in all others. -/
theorem enterLua_receives {c : ClosureId} {unit : Option CompiledUnit} {slot : Nat} {wanted : Option Nat}
    {tail : Bool} (h : enterLua c unit slot n wanted tail m = .ok u m') : ∃ f t,
      m'.running.frames.toList = m.running.frames.toList ++ [f] ∧
      f = calleeFrame c unit slot n wanted tail (m.heap.closure c).proto f.base f.top ∧
      f.Receives (m.heap.closure c).proto (m.running.values (slot + 1) n) t m'.running.stack ∧
      ((m.heap.closure c).proto.isVararg = true → (m.heap.closure c).proto.needsArg = true →
        (m'.heap.table t).Lists ((m.heap.closure c).proto.surplus (m.running.values (slot + 1) n))) := by
  obtain ⟨p, hp⟩ : ∃ p, p = (m.heap.closure c).proto := ⟨_, rfl⟩
  obtain ⟨args, hargs⟩ : ∃ args, args = m.running.values (slot + 1) n := ⟨_, rfl⟩
  have hadmits := admits_of_enterLua h
  obtain ⟨grown, hgrown, hsize, hold, hnew⟩ := enterLua_grows h
  rw [← hp] at hadmits hsize ⊢
  rw [← hargs]
  obtain rfl : n = args.length := by rw [hargs, Strand.length_values]
  have hheld : HoldsFrom (m.withStack grown).running.stack (slot + 1) args := by
    have hvalues : (m.withStack grown).running.values (slot + 1) args.length = args :=
      (Strand.values_of_grown hold hnew).trans hargs.symm
    rw [← hvalues]
    refine Strand.holdsFrom_values fun k hk => ?_
    rw [Machine.stack_withStack]
    unfold Prototype.extent at hsize
    omega
  have hadmits' : (m.withStack grown).Admits p slot args.length := ⟨hadmits.1, hsize.trans (le_max_left ..)⟩
  obtain ⟨f, stack, henter, hf, hreceives, -⟩ :=
    enterLua_apply (m := m.withStack grown) hp.symm hadmits' hheld unit wanted tail
  obtain ⟨-, rfl⟩ := EStateM.Result.ok.inj (hgrown.symm.trans henter)
  refine ⟨f, ⟨m.heap.tables.size⟩, Machine.frames_pushed _ f, hf, hreceives, fun hvararg hneeds => ?_⟩
  have htable : (m.heap.withSurplus p args).table ⟨m.heap.tables.size⟩ = surplusTable (p.surplus args) := by
    rw [Heap.withSurplus, if_pos ⟨hvararg, hneeds⟩, Heap.table_newTable, Prototype.surplus, if_pos hvararg]
  change ((m.heap.withSurplus p args).table ⟨m.heap.tables.size⟩).Lists (p.surplus args)
  rw [htable, surplusTable_eq_built]
  exact Table.lists_built _

end LuaMachine
