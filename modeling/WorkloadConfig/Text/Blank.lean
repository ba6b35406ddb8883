namespace WorkloadConfig.Text

/-- White space in the sense of Unicode. -/
def isBlank (c : Char) : Bool :=
  let n := c.toNat
  (9 ≤ n && n ≤ 13) || n = 32 || n = 0x85 || n = 0xa0 || n = 0x1680 || (0x2000 ≤ n && n ≤ 0x200a) ||
    n = 0x2028 || n = 0x2029 || n = 0x202f || n = 0x205f || n = 0x3000

/-- White space or one of the information separators. -/
def isSpacing (c : Char) : Bool :=
  isBlank c || (0x1c ≤ c.toNat && c.toNat ≤ 0x1f)

def trimRight (blank : Char → Bool) (s : List Char) : List Char :=
  (s.reverse.dropWhile blank).reverse

def trim (blank : Char → Bool) (s : List Char) : List Char :=
  trimRight blank (s.dropWhile blank)

end WorkloadConfig.Text
