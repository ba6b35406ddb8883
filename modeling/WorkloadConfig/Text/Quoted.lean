import WorkloadConfig.Text.Printable

namespace WorkloadConfig.Text

/-- Lower-case hexadecimal digits of a code point, filled up with zeros to the width. -/
def hex (width n : Nat) : List Char :=
  let digits := Nat.toDigits 16 n
  List.replicate (width - digits.length) '0' ++ digits

def quoteFor (s : List Char) : Char :=
  if s.contains '\x27' && !s.contains '"' then '"' else '\x27'

def quotedChar (quote c : Char) : List Char :=
  if c = quote || c = '\\' then ['\\', c]
  else if c = '\n' then ['\\', 'n']
  else if c = '\r' then ['\\', 'r']
  else if c = '\t' then ['\\', 't']
  else if isPrintable c then [c]
  else if c.toNat < 0x100 then '\\' :: 'x' :: hex 2 c.toNat
  else if c.toNat < 0x10000 then '\\' :: 'u' :: hex 4 c.toNat
  else '\\' :: 'U' :: hex 8 c.toNat

def quoted (s : String) : String :=
  let quote := quoteFor s.toList
  String.ofList (quote :: s.toList.flatMap (quotedChar quote) ++ [quote])

/-- Bytes as messages show them, those of printable characters in ASCII as these. -/
def quotedBytes (bytes : List UInt8) : String :=
  let s := bytes.map fun byte => Char.ofNat byte.toNat
  let quote := quoteFor s
  let shown (c : Char) : List Char :=
    if 0x7f ≤ c.toNat then '\\' :: 'x' :: hex 2 c.toNat else quotedChar quote c
  String.ofList ('b' :: quote :: s.flatMap shown ++ [quote])

example : quotedBytes [104, 0, 255] = "b'h\\x00\\xff'" := by decide +kernel
example : quoted "it's" = "\"it's\"" := by decide +kernel
example : quoted "a\n" = "'a\\n'" := by decide +kernel

end WorkloadConfig.Text
