/-!
Text from bytes that may not be UTF-8. Each longest piece that starts a character and breaks off
becomes one replacement character, and so does each byte that starts none.
-/

namespace LuaMachine.Text

/-- What a lead byte of a longer character allows: the range of the second byte and the number of
bytes after that one. -/
structure Lead where
  low : UInt8
  high : UInt8
  more : Nat

def lead? (b : UInt8) : Option Lead :=
  if 0xC2 ≤ b && b ≤ 0xDF then some ⟨0x80, 0xBF, 0⟩
  else if b == 0xE0 then some ⟨0xA0, 0xBF, 1⟩
  else if b == 0xED then some ⟨0x80, 0x9F, 1⟩
  else if 0xE1 ≤ b && b ≤ 0xEF then some ⟨0x80, 0xBF, 1⟩
  else if b == 0xF0 then some ⟨0x90, 0xBF, 2⟩
  else if 0xF1 ≤ b && b ≤ 0xF3 then some ⟨0x80, 0xBF, 2⟩
  else if b == 0xF4 then some ⟨0x80, 0x8F, 2⟩
  else none

def isContinuation (b : UInt8) : Bool := 0x80 ≤ b && b ≤ 0xBF

def replacement : Char := '\ufffd'

/-- The six low bits of each byte after the lead, appended to what the lead holds. -/
def join (head : Nat) (tail : List UInt8) : Char :=
  .ofNat (tail.foldl (fun v b => v * 64 + b.toNat % 64) head)

def lossyChars : List UInt8 → List Char
  | [] => []
  | b :: r =>
    if b < 0x80 then .ofNat b.toNat :: lossyChars r
    else
      match lead? b, r with
      | none, r => replacement :: lossyChars r
      | some _, [] => [replacement]
      | some l, b1 :: r1 =>
        if !(l.low ≤ b1 && b1 ≤ l.high) then replacement :: lossyChars (b1 :: r1)
        else if l.more = 0 then join (b.toNat % 32) [b1] :: lossyChars r1
        else
          match r1 with
          | [] => [replacement]
          | b2 :: r2 =>
            if !isContinuation b2 then replacement :: lossyChars (b2 :: r2)
            else if l.more = 1 then join (b.toNat % 16) [b1, b2] :: lossyChars r2
            else
              match r2 with
              | [] => [replacement]
              | b3 :: r3 =>
                if !isContinuation b3 then replacement :: lossyChars (b3 :: r3)
                else join (b.toNat % 8) [b1, b2, b3] :: lossyChars r3

/-- The text of the bytes, with replacement characters where they are not UTF-8. -/
def ofBytes (bytes : List UInt8) : String :=
  match String.fromUTF8? ⟨bytes.toArray⟩ with
  | some s => s
  | none => String.ofList (lossyChars bytes)

/-- The UTF-8 bytes of a text. -/
def toBytes (s : String) : List UInt8 := s.toUTF8.data.toList

end LuaMachine.Text
