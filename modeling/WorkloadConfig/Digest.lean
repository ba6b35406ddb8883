import WorkloadConfig.Text.Quoted

namespace WorkloadConfig.Digest

def roundConstants : List UInt32 := [
  0x428a2f98, 0x71374491, 0xb5c0fbcf, 0xe9b5dba5, 0x3956c25b, 0x59f111f1, 0x923f82a4, 0xab1c5ed5,
  0xd807aa98, 0x12835b01, 0x243185be, 0x550c7dc3, 0x72be5d74, 0x80deb1fe, 0x9bdc06a7, 0xc19bf174,
  0xe49b69c1, 0xefbe4786, 0x0fc19dc6, 0x240ca1cc, 0x2de92c6f, 0x4a7484aa, 0x5cb0a9dc, 0x76f988da,
  0x983e5152, 0xa831c66d, 0xb00327c8, 0xbf597fc7, 0xc6e00bf3, 0xd5a79147, 0x06ca6351, 0x14292967,
  0x27b70a85, 0x2e1b2138, 0x4d2c6dfc, 0x53380d13, 0x650a7354, 0x766a0abb, 0x81c2c92e, 0x92722c85,
  0xa2bfe8a1, 0xa81a664b, 0xc24b8b70, 0xc76c51a3, 0xd192e819, 0xd6990624, 0xf40e3585, 0x106aa070,
  0x19a4c116, 0x1e376c08, 0x2748774c, 0x34b0bcb5, 0x391c0cb3, 0x4ed8aa4a, 0x5b9cca4f, 0x682e6ff3,
  0x748f82ee, 0x78a5636f, 0x84c87814, 0x8cc70208, 0x90befffa, 0xa4506ceb, 0xbef9a3f7, 0xc67178f2]

def rotate (x n : UInt32) : UInt32 :=
  (x >>> n) ||| (x <<< (32 - n))

/-- The eight working words. -/
structure State where
  a : UInt32
  b : UInt32
  c : UInt32
  d : UInt32
  e : UInt32
  f : UInt32
  g : UInt32
  h : UInt32

def State.initial : State where
  a := 0x6a09e667
  b := 0xbb67ae85
  c := 0x3c6ef372
  d := 0xa54ff53a
  e := 0x510e527f
  f := 0x9b05688c
  g := 0x1f83d9ab
  h := 0x5be0cd19

def State.words (s : State) : List UInt32 :=
  [s.a, s.b, s.c, s.d, s.e, s.f, s.g, s.h]

def State.round (s : State) (constant word : UInt32) : State :=
  let first := s.h + (rotate s.e 6 ^^^ rotate s.e 11 ^^^ rotate s.e 25) +
    ((s.e &&& s.f) ^^^ (~~~s.e &&& s.g)) + constant + word
  let second := (rotate s.a 2 ^^^ rotate s.a 13 ^^^ rotate s.a 22) +
    ((s.a &&& s.b) ^^^ (s.a &&& s.c) ^^^ (s.b &&& s.c))
  ⟨first + second, s.a, s.b, s.c, s.d + first, s.e, s.f, s.g⟩

/-- The next word of the schedule from the sixteen before it. -/
def nextWord (window : List UInt32) : UInt32 :=
  let x := window.getD 1 0
  let y := window.getD 14 0
  window.getD 0 0 + (rotate x 7 ^^^ rotate x 18 ^^^ (x >>> 3)) + window.getD 9 0 +
    (rotate y 17 ^^^ rotate y 19 ^^^ (y >>> 10))

def rounds : List UInt32 → List UInt32 → State → State
  | [], _, s => s
  | constant :: rest, window, s =>
    rounds rest (window.drop 1 ++ [nextWord window]) (s.round constant (window.headD 0))

def State.add (s t : State) : State :=
  ⟨s.a + t.a, s.b + t.b, s.c + t.c, s.d + t.d, s.e + t.e, s.f + t.f, s.g + t.g, s.h + t.h⟩

def word (bytes : List UInt8) : UInt32 :=
  bytes.foldl (fun w byte => (w <<< 8) ||| byte.toUInt32) 0

/-- A list in pieces of the size, as many as the first argument says. -/
def pieces {α : Type} (size : Nat) : Nat → List α → List (List α)
  | 0, _ => []
  | n + 1, items => items.take size :: pieces size n (items.drop size)

/-- The message, a set bit, zeros, and the length in bits in eight bytes, to whole blocks. -/
def padded (bytes : List UInt8) : List UInt8 :=
  let size := bytes.length
  let zeros := (119 - size % 64) % 64
  bytes ++ 0x80 :: List.replicate zeros 0 ++
    (List.range 8).reverse.map fun i => (8 * size / Nat.pow 256 i).toUInt8

def sha256 (bytes : List UInt8) : List UInt32 :=
  let message := padded bytes
  let blocks := pieces 64 (message.length / 64) message
  (blocks.foldl (fun s block => s.add (rounds roundConstants ((pieces 4 16 block).map word) s))
    State.initial).words

/-- The digest in lower-case hexadecimal digits. -/
def ofText (text : String) : String :=
  String.ofList ((sha256 text.toUTF8.toList).flatMap fun w => Text.hex 8 w.toNat)

example : ofText "abc" =
    "ba7816bf8f01cfea414140de5dae2223b00361a396177a9cb410ff61f20015ad" := by decide +kernel

end WorkloadConfig.Digest
