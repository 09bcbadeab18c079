import LuaMachine.Proofs.HostResults
import LuaMachine.Proofs.TableBorder

/-!
Calls of `unpack`: the range that it is asked for, the values that it pushes, and what its caller gets. The
range is checked by a difference of 64-bit integers. Where that is none itself, the check crashes; in every
other range the caller gets the values of the table or an error.
-/

namespace LuaMachine

variable {m : Machine} {args : List Value} {n slot : Nat} {i j : Int} {t : TableId}

namespace Table

/-- The values at the integers from one to another. -/
def slice (t : Table) (i j : Int) : List Value :=
  (List.range (j - i + 1).toNat).map fun (k : Nat) => t.getInt (i + k)

/-- What is read at an integer is the value at it as a key. -/
theorem getInt_eq_get {t : Table} (h : t.array.size ≤ 2 ^ 53) (i : Int) : t.getInt i = t.get (.ofInt i) := by
  by_cases hinside : 1 ≤ i ∧ i.toNat ≤ t.array.size
  · obtain ⟨k, rfl⟩ := Int.eq_ofNat_of_zero_le (by omega : 0 ≤ i)
    have hpos : 0 < k := by omega
    have hle : k ≤ 2 ^ 53 := by omega
    rw [getInt_eq hpos hle, get, Value.key_ofInt hpos hle]
  · rw [getInt, if_neg hinside]

end Table

/-! What `unpack` does in its frame -/

namespace Library

/-- The integer that a numeric argument is cut to, or a default if there is no such argument. -/
def integerArgument (args : List Value) (k : Nat) (default : Int) : Option Int :=
  let v := args.getD k .nil
  if v.isNil then some default else v.toNumber?.map Number.toInt64

/-- The first integer of the range, 1 unless the second argument says otherwise. -/
def unpackFirst (args : List Value) : Option Int := integerArgument args 1 1

/-- The last integer of the range, that at the border of the table unless the third argument says otherwise. -/
def unpackLast (t : Table) (args : List Value) : Option Int := integerArgument args 2 t.border

theorem toInt64_one : Number.toInt64 1 = 1 := by decide +kernel

theorem exists_optionalNumber (h : m.HasArguments args) {k : Nat} (default : Float)
    (hi : integerArgument args k (Number.toInt64 default) = some i) (function : String) :
    ∃ x, optionalNumber (k + 1) function default m = .ok x m ∧ Number.toInt64 x = i := by
  rw [optionalNumber, Action.bind_ok (h.arg_apply k)]
  by_cases hnil : (args.getD k .nil).isNil
  · rw [integerArgument, if_pos hnil] at hi
    rw [if_pos hnil]
    exact ⟨default, rfl, Option.some.inj hi⟩
  · rw [integerArgument, if_neg hnil] at hi
    obtain ⟨x, hx, hxi⟩ := Option.map_eq_some_iff.1 hi
    rw [if_neg hnil]
    exact ⟨x, h.requireNumber_apply hx function, hxi⟩

/-- What `unpack` does with the range that it was asked for. -/
def unpackRange (t : TableId) (i j : Int) : Action Nat := do
  if j < i then pure 0
  else if 9223372036854775808 ≤ j - i then throw .crash
  else if (← view (unpackLimit ·.options)) ≤ j - i then raise .unpackSize
  else pushValues (← view fun m => (m.heap.table t).slice i j)

theorem unpack_eq_unpackRange (h : m.HasArguments args) (ht : args.getD 0 .nil = .table t)
    (hi : unpackFirst args = some i) (hj : unpackLast (m.heap.table t) args = some j) :
    unpack m = unpackRange t i j m := by
  obtain ⟨x, hfirst, rfl⟩ := exists_optionalNumber h 1 (by rwa [toInt64_one]) "unpack"
  rw [unpack, Action.bind_ok (h.requireTable_apply ht _), Action.bind_ok hfirst, Action.bind_ok (h.arg_apply 2)]
  by_cases hnil : (args.getD 2 .nil).isNil
  · rw [unpackLast, integerArgument, if_pos hnil] at hj
    obtain rfl := Option.some.inj hj
    rw [if_pos hnil, Action.bind_ok (Action.view_apply ..)]
    rfl
  · rw [unpackLast, integerArgument, if_neg hnil] at hj
    obtain ⟨y, hy, rfl⟩ := Option.map_eq_some_iff.1 hj
    have hlast : (Number.toInt64 <$> requireNumber 3 "unpack") m = .ok (Number.toInt64 y) m := by
      rw [map_eq_pure_bind, Action.bind_ok (h.requireNumber_apply hy _)]
      rfl
    rw [if_neg hnil, Action.bind_ok hlast]
    rfl

theorem unpackRange_apply (t : TableId) (i j : Int) (m : Machine) :
    unpackRange t i j m =
      if j < i then .ok 0 m
      else if 2 ^ 63 ≤ j - i then .error .crash m
      else if unpackLimit m.options ≤ j - i then
        .error (.runtime (.str (m.position ++ "too many results to unpack")) none) m
      else pushValues ((m.heap.table t).slice i j) m := by
  have hwords : (2 : Int) ^ 63 = 9223372036854775808 := by norm_num
  rw [hwords]
  unfold unpackRange
  split_ifs with hempty hwide hlong
  · rfl
  · rfl
  · rw [Action.bind_ok (Action.view_apply ..), if_pos hlong]
    rfl
  · rw [Action.bind_ok (Action.view_apply ..), if_neg hlong]
    rfl

theorem unpackLimit_eq {o : Options} (h : o.maxStack < 2 ^ 63) : unpackLimit o = o.maxStack := by
  have hlow : -((18446744073709551616 : Nat) : Int) ≤ (o.maxStack : Int) * 2 := by push_cast; omega
  have hlt : (o.maxStack : Int) * 2 < ((18446744073709551616 : Nat) : Int) := by push_cast; omega
  exact Int.bmod_eq_of_le_mul_two hlow hlt

end Library

/-- A call of `unpack` with a table and numbers gives its caller the values at the integers of the range, in
their order, and none if the range is empty. It fails with an error if the range is longer than the limit, and
if the stack overflows. A range of more than `2 ^ 63` integers is a crash: its length is no 64-bit integer. -/
theorem callHost_unpack (embedding : Embedding) (run : Run) (wanted : Option Nat)
    (hargs : HoldsFrom m.running.stack (slot + 1) args) (ht : args.getD 0 .nil = .table t)
    (hi : Library.unpackFirst args = some i) (hj : Library.unpackLast (m.heap.table t) args = some j) :
    ((m.heap.table t).array.size ≤ 2 ^ 53 → (m.heap.table t).slice i j =
      (List.range (j - i + 1).toNat).map fun (k : Nat) => (m.heap.table t).get (.ofInt (i + k))) ∧
    (m.options.maxStack < 2 ^ 63 → Library.unpackLimit m.options = m.options.maxStack) ∧
    ∃ r : Outcome Unit, callHost embedding run (.host (.builtin .unpack)) slot args.length wanted m = r ∧
      (¬ m.AdmitsHost slot args.length → r.Overflows) ∧
      (m.AdmitsHost slot args.length →
        if j < i then m.GetsBack slot args.length wanted [] r
        else if 2 ^ 63 ≤ j - i then ∃ m', r = .error .crash m'
        else if Library.unpackLimit m.options ≤ j - i then ∃ m',
          r = .error (.runtime (.str (m.callerPosition ++ "too many results to unpack")) none) m'
        else m.GetsBack slot args.length wanted ((m.heap.table t).slice i j) r) := by
  refine ⟨fun hsize => ?_, Library.unpackLimit_eq, _, rfl, callHost_overflows, fun hadmits => ?_⟩
  · exact List.map_congr_left fun k _ => Table.getInt_eq_get hsize _
  · obtain ⟨m', hentered, hcall⟩ :=
      callHost_admitted hadmits hargs embedding run (.host (.builtin .unpack)) wanted
    have hbody : hostBody embedding (.host (.builtin .unpack)) run m' = Library.unpackRange t i j m' :=
      Library.unpack_eq_unpackRange hentered.hasArguments ht hi (by rwa [hentered.heap])
    rw [hcall]
    rw [Library.unpackRange_apply, hentered.heap, hentered.options, hentered.position] at hbody
    split_ifs at hbody ⊢ with hempty hwide hlong
    · have hgets := hentered.pushValues_getsBack hadmits []
      rwa [Action.bind_apply, show pushValues [] m' = .ok 0 m' from rfl, ← hbody, ← Action.bind_apply] at hgets
    · exact ⟨m', by rw [Action.bind_apply, hbody]⟩
    · exact ⟨m', by rw [Action.bind_apply, hbody]⟩
    · have hgets := hentered.pushValues_getsBack hadmits ((m.heap.table t).slice i j)
      rwa [Action.bind_apply, ← hbody, ← Action.bind_apply] at hgets

/-- A machine with a table that holds `true`, and with arguments above the slot of a function. -/
def Machine.offering (args : List Value) : Machine :=
  let m := (Machine.create {} 0 0 {}).modifyHeap fun h =>
    h.modifyTable ⟨0⟩ fun t => { t with array := #[.bool true] }
  m.withStack (.nil :: args).toArray

theorem Machine.offering_holds (args : List Value) : HoldsFrom (offering args).running.stack 1 args := by
  intro k _
  change (Value.nil :: args).toArray[1 + k]? = args[k]?
  rw [List.getElem?_toArray, Nat.add_comm, List.getElem?_cons_succ]

theorem Machine.offering_hasRoom (args : List Value) (hn : n ≤ 1000000) :
    (offering args).running.HasRoom (offering args).options.maxStack n :=
  hn.trans (le_max_right ..)

theorem toInt64_least : Number.toInt64 (.ofInt (-9223372036854775808)) = -9223372036854775808 := by decide +kernel

/-- The table has one value, and the range from the least 64-bit integer to 1 is too wide. -/
theorem callHost_unpack_offering :
    (∃ m', callHost (fun _ _ => pure 0) (fun _ => pure ()) (.host (.builtin .unpack)) 0 3 none
        (.offering [.table ⟨0⟩, .nil, .number 1]) = .ok () m' ∧ m'.running.stack[0]? = some (.bool true) ∧
      m'.running.top = 1) ∧
    ∃ m', callHost (fun _ _ => pure 0) (fun _ => pure ()) (.host (.builtin .unpack)) 0 3 none
        (.offering [.table ⟨0⟩, .number (.ofInt (-9223372036854775808)), .number 1]) = .error .crash m' := by
  constructor
  · obtain ⟨-, -, r, hr, -, hcall⟩ := callHost_unpack (i := 1) (j := 1) (fun _ _ => pure 0) (fun _ => pure ())
      none (Machine.offering_holds [.table ⟨0⟩, .nil, .number 1]) rfl rfl (congrArg some Library.toInt64_one)
    have hgets := hcall ⟨by decide, Machine.offering_hasRoom _ (by decide)⟩
    rw [if_neg (by decide), if_neg (by decide), if_neg (by decide)] at hgets
    obtain ⟨m', hm', hgot⟩ := hgets.results
      ⟨Machine.offering_hasRoom _ (by decide), Machine.offering_hasRoom _ (by decide)⟩
    exact ⟨m', hr.trans hm', hgot.results 0 (by decide), hgot.top rfl⟩
  · obtain ⟨-, -, r, hr, -, hcall⟩ := callHost_unpack (fun _ _ => pure 0) (fun _ => pure ()) none
      (Machine.offering_holds [.table ⟨0⟩, .number (.ofInt (-9223372036854775808)), .number 1]) rfl
      (congrArg some toInt64_least) (congrArg some Library.toInt64_one)
    have hcrash := hcall ⟨by decide, Machine.offering_hasRoom _ (by decide)⟩
    rw [if_neg (by decide), if_pos (by decide)] at hcrash
    exact hr ▸ hcrash

end LuaMachine
