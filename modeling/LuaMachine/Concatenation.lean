import LuaMachine.Invoke
import LuaMachine.Metamethod

/-!
Concatenation of a block of registers, from the right. A run of strings and numbers is joined in
one go; any other pair goes to its `__concat` handler.
-/

namespace LuaMachine

def Value.isText : Value → Bool
  | str _ | number _ => true
  | _ => false

/-- How many of at most `n` registers below `finish`, counted downwards, are text. -/
def textRun (finish : Nat) : Nat → Action Nat
  | 0 => pure 0
  | n + 1 => do
    let v ← readSlot (finish - 1)
    if v.isText then
      let k ← textRun (finish - 1) n
      pure (k + 1)
    else pure 0

/-- The texts of values, one after the other. -/
def joinText (vs : List Value) : String :=
  vs.foldl (fun s v => s ++ (v.toText?).getD "") ""

section

variable (run : Run)

/-- Joins the last operands of a block that ends before `finish` and has `total` registers. Gives
the number of registers that have become one. -/
def concatStep (total finish : Nat) : Action Nat := do
  let last ← readSlot (finish - 1)
  let prev ← readSlot (finish - 2)
  if prev.isText && last.isText then
    let more ← textRun (finish - 2) (total - 2)
    let n := more + 2
    let vs ← readSlots (finish - n) n
    writeSlot (finish - n) (.str (joinText vs))
    pure n
  else
    match ← view fun m => m.binaryHandler? prev last .concat with
    | none => raise (.operand .concatenate (if prev.isText then last else prev).type)
    | some h =>
      let v ← callHandler run h [prev, last]
      writeSlot (finish - 2) v
      pure 2

/-- Concatenates a block of registers into its first one. -/
def concatRange : Nat → Nat → Nat → Action Unit
  | 0, _, _ => pure ()
  | fuel + 1, total, finish => do
    if total ≤ 1 then pure ()
    else
      let n ← concatStep run total finish
      concatRange fuel (total - (n - 1)) (finish - (n - 1))

end

end LuaMachine
