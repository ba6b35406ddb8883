namespace WorkloadConfig.Text.Base64

def digit? (c : Char) : Option Nat :=
  if 'A' ≤ c && c ≤ 'Z' then some (c.toNat - 65)
  else if 'a' ≤ c && c ≤ 'z' then some (c.toNat - 71)
  else if c.isDigit then some (c.toNat + 4)
  else if c = '+' then some 62
  else if c = '/' then some 63
  else none

/-- The bytes of the digits ahead, where `place` digits of a group lie behind, the last of them with
the bits `left` to spare, and `fills` signs for a missing digit. -/
def bytes? (place left fills : Nat) : List Char → Option (List UInt8)
  | [] => if place = 0 then some [] else none
  | c :: rest =>
    if c = '=' then
      if 2 ≤ place && 4 ≤ place + fills + 1 then some []
      else bytes? place left (if 2 ≤ place then fills + 1 else fills) rest
    else match digit? c with
      | none => bytes? place left fills rest
      | some d =>
        match place with
        | 0 => bytes? 1 d 0 rest
        | 1 => (bytes? 2 (d % 16) 0 rest).map ((left * 4 + d / 16).toUInt8 :: ·)
        | 2 => (bytes? 3 (d % 4) 0 rest).map ((left * 16 + d / 4).toUInt8 :: ·)
        | _ => (bytes? 0 0 0 rest).map ((left * 64 + d).toUInt8 :: ·)

def decode? (s : List Char) : Option (List UInt8) :=
  bytes? 0 0 0 s

example : decode? "aGk=".toList = some [104, 105] := by decide
example : decode? "aGkh\nYQ==".toList = some [104, 105, 33, 97] := by decide
example : decode? "aGk".toList = none := by decide

end WorkloadConfig.Text.Base64
