import LuaMachine.Arithmetic
import LuaMachine.Call
import LuaMachine.Comparison
import LuaMachine.Concatenation
import LuaMachine.Proofs.Confinement

/-!
The operators with their metamethods and the functions of the libraries are tame scripts, and so
routines.
-/

namespace LuaMachine.Tame

variable {R : Conduct} {strictly : Prop}

/-! Operators -/

protected theorem index (v key : Value) : Tame R strictly fun run => index run v key := by
  refine .andThen (.view _ fun m => m.erase_resolveIndex key _ v) fun r => ?_
  cases r with
  | value found => exact .pure found
  | handler f receiver => exact .callHandler f _
  | notIndexable w => exact .raise _
  | tooLong => exact .raise _

protected theorem assign (v key new : Value) : Tame R strictly fun run => assign run v key new := by
  refine .andThen (.view _ fun m => m.erase_resolveAssign key _ v) fun r => ?_
  cases r with
  | store t => exact .orderly (.rawSet t key new)
  | handler f receiver => exact .andThen (.callHandler f _) fun _ => .pure ()
  | notIndexable w => exact .raise _
  | tooLong => exact .raise _

protected theorem length (v : Value) : Tame R strictly fun _ => length v := by
  cases v with
  | table t => exact .view _ fun _ => rfl
  | str s => exact .pure _
  | _ => exact .raise _

protected theorem arith (op : ArithOp) (l r : Value) :
    Tame R strictly fun run => arith run op l r := by
  unfold LuaMachine.arith
  split
  · exact .pure _
  · refine .andThen (.view _ fun m => m.erase_binaryHandler? l r _) fun h => ?_
    cases h with
    | some h => exact .callHandler h _
    | none => exact .raise _

protected theorem negate (v : Value) : Tame R strictly fun run => negate run v := by
  unfold LuaMachine.negate
  split
  · exact .pure _
  · refine .andThen (.view _ fun m => m.erase_handler? v _) fun h => ?_
    cases h with
    | some h => exact .callHandler h _
    | none => exact .raise _

theorem callPredicate (h l r : Value) : Tame R strictly fun run => callPredicate run h l r :=
  .andThen (.callHandler h _) fun _ => .pure _

protected theorem equals (l r : Value) : Tame R strictly fun run => equals run l r := by
  unfold LuaMachine.equals
  split
  · split
    · exact .pure _
    · refine .andThen (.view _ fun m => m.erase_binaryHandler? _ _ _) fun h => ?_
      cases h with
      | some h => exact .callPredicate h _ _
      | none => exact .pure _
  · exact .pure _

protected theorem lessThan (l r : Value) : Tame R strictly fun run => lessThan run l r := by
  unfold LuaMachine.lessThan
  split
  · exact .pure _
  · exact .pure _
  · refine .ite (.raise _) (.andThen (.view _ fun m => m.erase_binaryHandler? _ _ _) fun h => ?_)
    cases h with
    | some h => exact .callPredicate h _ _
    | none => exact .raise _

protected theorem lessEqual (l r : Value) : Tame R strictly fun run => lessEqual run l r := by
  unfold LuaMachine.lessEqual
  split
  · exact .pure _
  · exact .pure _
  · refine .ite (.raise _) (.andThen (.view _ fun m => m.erase_binaryHandler? _ _ _) fun h => ?_)
    cases h with
    | some h => exact .callPredicate h _ _
    | none =>
      refine .andThen (.view _ fun m => m.erase_binaryHandler? _ _ _) fun h => ?_
      cases h with
      | some h => exact .map _ (.callPredicate h _ _)
      | none => exact .raise _

theorem textRun (finish n : Nat) : Tame R strictly fun _ => textRun finish n := by
  induction n generalizing finish with
  | zero => exact .pure 0
  | succ n ih =>
    exact .andThen (.readSlot _) fun v =>
      .ite (.andThen (ih _) fun _ => .pure _) (.pure 0)

theorem returns_textRun (finish n : Nat) :
    Action.Returns (· ≤ n) (LuaMachine.textRun finish n) := by
  induction n generalizing finish with
  | zero => exact .pure le_rfl
  | succ n ih =>
    refine .bind fun v => .ite ?_ (.pure (Nat.zero_le _))
    intro m k m' h
    obtain ⟨j, m₁, hj, h⟩ := Action.bind_eq_ok.1 h
    obtain ⟨rfl, -⟩ := EStateM.Result.ok.inj h
    exact Nat.succ_le_succ (ih _ m j m₁ hj)

/-- Registers from the first one of the block on are written. -/
theorem concatStep {total finish : Nat} (htotal : 2 ≤ total) (h : R.seat.Frees (finish - total)) :
    Tame R strictly fun run => concatStep run total finish := by
  refine .andThen (.readSlot _) fun last => ?_
  refine .andThen (.readSlot _) fun prev => ?_
  refine .ite ?_ ?_
  · refine .bind (.textRun _ _) fun more ⟨run, m, m', hm⟩ => ?_
    have hmore := returns_textRun _ _ m more m' hm
    exact .andThen (.orderly (.readSlots _ _)) fun _ => .andThen (.writeSlot (h.mono (by omega)) _) fun _ => .pure _
  · refine .andThen (.view _ fun m => m.erase_binaryHandler? _ _ _) fun h' => ?_
    cases h' with
    | none => exact .raise _
    | some f =>
      exact .andThen (.callHandler f _) fun _ =>
        .andThen (.writeSlot (h.mono (by omega)) _) fun _ => .pure 2

theorem returns_concatStep (run : Run) {total : Nat} (finish : Nat) (htotal : 2 ≤ total) :
    Action.Returns (· ≤ total) (LuaMachine.concatStep run total finish) := by
  refine .bind fun last => .bind fun prev => .ite ?_ ?_
  · intro m n m' h
    obtain ⟨more, m₁, hmore, h⟩ := Action.bind_eq_ok.1 h
    have hle : more ≤ total - 2 := returns_textRun _ _ m more m₁ hmore
    refine Action.Returns.bind (P := (· ≤ total)) (fun _ => .bind fun _ => .pure ?_) m₁ n m' h
    omega
  · refine .bind fun h => ?_
    cases h with
    | none => exact fun _ _ _ h => nomatch h
    | some f => exact .bind fun _ => .bind fun _ => .pure htotal

protected theorem concatRange (fuel : Nat) {total finish : Nat}
    (h : R.seat.Frees (finish - total)) :
    Tame R strictly fun run => concatRange run fuel total finish := by
  induction fuel generalizing total finish with
  | zero => exact .pure ()
  | succ fuel ih =>
    unfold LuaMachine.concatRange
    split
    · exact .pure ()
    · next htotal =>
      have htotal : 2 ≤ total := by omega
      refine .bind (.concatStep htotal h) fun n ⟨run, m, m', hm⟩ => ih (h.mono ?_)
      have hn := returns_concatStep run finish htotal m n m' hm
      omega

/-! Arguments -/

protected theorem argCount : Tame R strictly fun _ => argCount :=
  .view _ fun m => by cases h : m.topFrame? <;> simp [h]

protected theorem arg (i : Nat) : Tame R strictly fun _ => arg i := by
  refine .ofTopFrame (fun o => ?_) fun o => ?_
  · cases o <;> rfl
  · cases o with
    | none => exact .pure _
    | some f => exact .ite (.readSlot _) (.pure _)

protected theorem args : Tame R strictly fun _ => args := by
  refine .ofTopFrame (fun o => ?_) fun o => ?_
  · cases o <;> rfl
  · cases o with
    | none => exact .pure _
    | some f => exact .orderly (.readSlots _ _)

protected theorem capturedValue (i : Nat) : Tame R strictly fun _ => capturedValue i := by
  refine .view _ fun m => ?_
  rw [Machine.erase_topFrame?]
  cases m.topFrame? <;> rfl

theorem argumentError {α : Type} (i : Nat) (function : String) (problem : ArgumentProblem) :
    Tame R strictly fun _ => (argumentError i function problem : Action α) :=
  .raise _

protected theorem requireArg (i : Nat) (function : String) :
    Tame R strictly fun _ => requireArg i function :=
  .andThen .argCount fun _ => .ite (.andThen (.argumentError _ _ _) fun _ => .arg i) (.arg i)

theorem argTypeName (i : Nat) : Tame R strictly fun _ => argTypeName i :=
  .andThen .argCount fun _ => .ite (.pure _) (.map _ (.arg i))

protected theorem requireTable (i : Nat) (function : String) :
    Tame R strictly fun _ => requireTable i function := by
  refine .andThen (.arg i) fun v => ?_
  cases v with
  | table t => exact .pure t
  | _ => exact .andThen (.argTypeName i) fun _ => .argumentError _ _ _

protected theorem requireNumber (i : Nat) (function : String) :
    Tame R strictly fun _ => requireNumber i function := by
  refine .andThen (.arg i) fun v => ?_
  split
  · exact .pure _
  · exact .andThen (.argTypeName i) fun _ => .argumentError _ _ _

protected theorem optionalNumber (i : Nat) (function : String) (default : Float) :
    Tame R strictly fun _ => optionalNumber i function default :=
  .andThen (.arg i) fun _ => .ite (.pure _) (.requireNumber i function)

protected theorem toStringValue {held : List Value} (v : Value) :
    Tame R strictly fun run => toStringValue run v held := by
  refine .andThen (.view _ fun m => ?_) fun handler => .ite (.pure _) ?_
  · cases v <;> rfl
  · exact .andThen (.callValue handler _) fun _ => .pure _

/-! Results -/

section

variable (hhost : R.seat = .host)

include hhost

theorem pushAll (vs : List Value) : Tame R strictly fun _ => pushAll vs := by
  induction vs with
  | nil => exact .pure ()
  | cons v vs ih => exact .andThen (.orderly (.pushValue hhost v)) fun _ => ih

protected theorem pushValues (vs : List Value) : Tame R strictly fun _ => pushValues vs :=
  .andThen (.pushAll hhost vs) fun _ => .pure _

protected theorem giveValue (v : Value) : Tame R strictly fun _ => giveValue v :=
  .pushValues hhost [v]

/-! The basic functions -/

theorem assert : Tame R strictly fun _ => Library.assert := by
  refine .andThen (.requireArg 1 _) fun condition => .ite ?_ ?_
  · exact .andThen .args fun _ => .pushValues hhost _
  · refine .andThen (.arg 2) fun message => ?_
    cases message <;> exact .throw (by simp)

omit hhost in
theorem error : Tame R strictly fun _ => Library.error := by
  refine .andThen (.arg 1) fun v => .andThen (.optionalNumber 2 _ _) fun level => ?_
  cases v with
  | str s =>
    exact .ite (.throw (by simp))
      (.andThen (.view _ fun m => m.erase_positionAt _) fun _ => .throw (by simp))
  | _ => exact .throw (by simp)

theorem pcall : Tame R strictly fun run => Library.pcall run :=
  .andThen (.requireArg 1 _) fun _ => .andThen .args fun _ => .andThen (.protectedCall _ _) fun _ =>
    .pushValues hhost _

theorem select : Tame R strictly fun _ => Library.select := by
  refine .andThen .argCount fun n => .andThen (.arg 1) fun v => ?_
  dsimp only
  split
  · exact .giveValue hhost _
  · exact .andThen (.requireNumber 1 _) fun _ =>
      .ite (.andThen (.argumentError _ _ _) fun _ => .andThen .args fun _ => .pushValues hhost _)
        (.andThen .args fun _ => .pushValues hhost _)

theorem tonumber : Tame R strictly fun _ => Library.tonumber := by
  refine .andThen (.optionalNumber 2 _ _) fun base => .andThen (.arg 1) fun v => ?_
  refine .ite (.giveValue hhost _) (.ite (.argumentError _ _ _) ?_)
  split
  · exact .argumentError _ _ _
  · exact .giveValue hhost _

theorem rawequal : Tame R strictly fun _ => Library.rawequal :=
  .andThen (.requireArg 1 _) fun _ => .andThen (.requireArg 2 _) fun _ => .giveValue hhost _

theorem rawget : Tame R strictly fun _ => Library.rawget :=
  .andThen (.requireTable 1 _) fun _ => .andThen (.requireArg 2 _) fun _ =>
    .andThen (.view _ fun _ => rfl) fun _ => .giveValue hhost _

theorem rawset : Tame R strictly fun _ => Library.rawset :=
  .andThen (.requireTable 1 _) fun t => .andThen (.requireArg 2 _) fun key =>
    .andThen (.requireArg 3 _) fun v => .andThen (.orderly (.rawSet t key v)) fun _ => .giveValue hhost _

theorem setmetatable : Tame R strictly fun _ => Library.setmetatable := by
  have hset (t : TableId) (metatable : Option TableId) : Tame R strictly fun _ => (do
      let guard ← LuaMachine.view fun m => ((m.heap.table t).metatable.map fun old =>
        (m.heap.table old).getString "__metatable").getD .nil
      if !guard.isNil then LuaMachine.raise .protectedMetatable
      Library.setMetatable t metatable
      LuaMachine.giveValue (.table t)) :=
    .andThen (.view _ fun _ => rfl) fun _ =>
      .ite (.andThen (.raise _) fun _ =>
          .andThen (.orderly (.modifyTable t _)) fun _ => .giveValue hhost _)
        (.andThen (.orderly (.modifyTable t _)) fun _ => .giveValue hhost _)
  refine .andThen (.requireTable 1 _) fun t => .andThen (.arg 2) fun metatable => ?_
  cases metatable with
  | nil => exact hset t none
  | table mt => exact hset t (some mt)
  | _ => exact .andThen (.argumentError _ _ _) fun mt => hset t mt

theorem getmetatable : Tame R strictly fun _ => Library.getmetatable := by
  refine .andThen (.requireArg 1 _) fun v => .andThen (.view _ fun m => ?_) fun _ => .giveValue hhost _
  cases v <;> rfl

theorem next : Tame R strictly fun _ => Library.next := by
  refine .andThen (.requireTable 1 _) fun t => .andThen (.arg 2) fun key => ?_
  refine .andThen (.view _ fun _ => rfl) fun r => ?_
  split
  · exact .pushValues hhost _
  · exact .giveValue hhost _
  · exact .raise _

theorem pairs : Tame R strictly fun _ => Library.pairs :=
  .andThen (.requireTable 1 _) fun _ => .pushValues hhost _

theorem ipairsStep : Tame R strictly fun _ => Library.ipairsStep := by
  refine .andThen (.requireTable 1 _) fun t => .andThen (.requireNumber 2 _) fun i => ?_
  refine .ite (.throw (by simp)) (.andThen (.view _ fun _ => rfl) fun v => ?_)
  split
  · exact .pure 0
  · exact .pushValues hhost _

theorem ipairs : Tame R strictly fun _ => Library.ipairs :=
  .andThen (.requireTable 1 _) fun _ => .pushValues hhost _

theorem unpack : Tame R strictly fun _ => Library.unpack := by
  have hrange (t : TableId) (i j : Int) : Tame R strictly fun _ => (do
      if j < i then Pure.pure 0
      else if 9223372036854775808 ≤ j - i then MonadExcept.throw .crash
      else if (← LuaMachine.view (Library.unpackLimit ·.options)) ≤ j - i then LuaMachine.raise .unpackSize
      else
        let vs ← LuaMachine.view fun m =>
          let t := m.heap.table t
          (List.range (j - i + 1).toNat).map fun (k : Nat) => t.getInt (i + k)
        LuaMachine.pushValues vs) := by
    refine .ite (.pure 0) (.ite (.throw (by simp)) (.andThen (.view _ fun _ => rfl) fun _ => ?_))
    exact .ite (.raise _) (.andThen (.view _ fun _ => rfl) fun _ => .pushValues hhost _)
  refine .andThen (.requireTable 1 _) fun t => .andThen (.optionalNumber 2 _ _) fun i => ?_
  refine .andThen (.arg 3) fun j => .ite ?_ ?_
  · exact .andThen (.view _ fun _ => rfl) fun j => hrange t _ j
  · exact .andThen (.map _ (.requireNumber 3 _)) fun j => hrange t _ j

omit hhost in
theorem printTexts (held vs : List Value) : Tame R strictly fun run => Library.printTexts run held vs := by
  induction vs with
  | nil => exact .pure []
  | cons v vs ih =>
    refine .andThen (.toStringValue v) fun text => ?_
    cases text with
    | str s => exact .andThen ih fun _ => .pure _
    | _ => exact .raise _

omit hhost in
theorem print : Tame R strictly fun run => Library.print run :=
  .andThen .args fun vs => .andThen (.printTexts vs vs) fun _ =>
    .andThen (.orderly ⟨.elementary (.print _), .print _⟩) fun _ => .pure 0

/-! The coroutine functions -/

omit hhost in
theorem requireCoroutine (i : Nat) (function : String) :
    Tame R strictly fun _ => Library.requireCoroutine i function := by
  refine .andThen (.arg i) fun v => ?_
  cases v with
  | thread c => exact .pure c
  | _ => exact .argumentError _ _ _

omit hhost in
protected theorem createCoroutine (body : Value) : Tame R strictly fun _ => createCoroutine body :=
  .orderly ⟨.elementary (.createCoroutine body), .createCoroutine body⟩

omit hhost in
theorem newCoroutine (function : String) : Tame R strictly fun _ => Library.newCoroutine function :=
  .andThen (.requireArg 1 _) fun body =>
    .ite (.andThen (.argumentError _ _ _) fun _ => .createCoroutine body) (.createCoroutine body)

theorem resumeFunction : Tame R strictly fun run => Library.resume run :=
  .andThen (.requireCoroutine 1 _) fun c => .andThen .args fun _ => .andThen (.resume c _) fun _ =>
    .pushValues hhost _

theorem wrapped : Tame R strictly fun run => Library.wrapped run := by
  refine .andThen (.capturedValue 0) fun v => ?_
  cases v with
  | thread c =>
    exact .andThen .args fun _ => .andThen (.resume c _) fun _ =>
      .ite (.andThen (.throw (by simp)) fun _ => .pushValues hhost _) (.pushValues hhost _)
  | _ => exact .raise _

end

end LuaMachine.Tame

namespace LuaMachine

/-- The functions of the libraries are scripts of hosts that write no registers but to push results. -/
theorem Builtin.tame {R : Conduct} {strictly : Prop} (hhost : R.seat = .host) (f : Builtin) :
    Tame R strictly f.body := by
  cases f with
  | assert => exact .assert hhost
  | error => exact .error
  | pcall => exact .pcall hhost
  | select => exact .select hhost
  | type => exact .andThen (.requireArg 1 _) fun _ => .giveValue hhost _
  | tostring =>
    exact .andThen (.requireArg 1 _) fun v => .andThen (.toStringValue v) fun _ => .giveValue hhost _
  | tonumber => exact .tonumber hhost
  | rawequal => exact .rawequal hhost
  | rawget => exact .rawget hhost
  | rawset => exact .rawset hhost
  | setmetatable => exact .setmetatable hhost
  | getmetatable => exact .getmetatable hhost
  | next => exact .next hhost
  | pairs => exact .pairs hhost
  | ipairs => exact .ipairs hhost
  | ipairsStep => exact .ipairsStep hhost
  | unpack => exact .unpack hhost
  | print => exact .print
  | create => exact .andThen (.newCoroutine _) fun _ => .giveValue hhost _
  | resume => exact .resumeFunction hhost
  | yield => exact .andThen .args fun vs => .yieldValues vs hhost
  | status =>
    refine .andThen (.requireCoroutine 1 _) fun c => ?_
    exact .andThen (.view _ fun m => by simp [Coroutine.erase]) fun _ => .giveValue hhost _
  | running => exact .andThen (.view _ fun _ => rfl) fun _ => .giveValue hhost _
  | wrap =>
    exact .andThen (.newCoroutine _) fun _ =>
      .andThen (.orderly ⟨.elementary (.newHostClosure _), .onHeap fun _ => rfl⟩) fun _ =>
        .giveValue hhost _
  | wrapped => exact .wrapped hhost
  | isyieldable => exact .andThen (.view _ fun _ => rfl) fun _ => .giveValue hhost _

theorem Builtin.script {R : Conduct} (hhost : R.seat = .host) (f : Builtin) : Script R f.body :=
  (show Tame R False f.body from f.tame hhost).script

/-- The functions of the libraries are routines. -/
theorem Builtin.routine (U : Prototype → Prop) (f : Builtin) : Routine U true f.body :=
  (f.script (R := ⟨U, .host, true, true⟩) rfl).routine rfl rfl fun _ => rfl

end LuaMachine
