import WorkloadConfig.Yaml.Flaw

namespace WorkloadConfig.Yaml

/-- The version of the language that a document is read by. -/
inductive Version where
  | oneOne
  | oneTwo
deriving DecidableEq, Repr

def isGap (c : Char) : Bool :=
  c = ' ' || c = '\t'

def isBreak (c : Char) : Bool :=
  c = '\n' || c = '\u0085' || c = '\u2028' || c = '\u2029'

/-- A line break as text: two of its kinds read as a line feed. -/
def breakText (c : Char) : Char :=
  if c = '\u0085' then '\n' else c

/-- A blank, a line break or the end. -/
def endsWord : List Char → Bool
  | [] => true
  | c :: _ => isGap c || isBreak c

/-- A line break or the end. -/
def endsLine : List Char → Bool
  | [] => true
  | c :: _ => isBreak c

def isFlowMark (c : Char) : Bool :=
  c = ',' || c = '[' || c = ']' || c = '\x7b' || c = '\x7d'

/-- The mark as a word of its own. -/
def begins (mark : String) (s : List Char) : Bool :=
  mark.toList.isPrefixOf s && endsWord (s.drop mark.length)

/-- A mark between documents. -/
def beginsDocumentMark (s : List Char) : Bool :=
  begins "---" s || begins "..." s

/-- Control characters other than tabs and line breaks have no place in a text. -/
def isWritable (c : Char) : Bool :=
  let n := c.toNat
  c = '\t' || c = '\n' || (0x20 ≤ n && n ≤ 0x7e) || n = 0x85 ||
    (0xa0 ≤ n && n ≠ 0xfffe && n ≠ 0xffff)

/-- The text between two lines from the line breaks there: one line feed reads as a blank, and of
more than one the first counts for nothing. -/
def foldedBreaks (first : Char) (breaks : List Char) : List Char :=
  (if first ≠ '\n' then [first] else if breaks = [] then [' '] else []) ++ breaks

/-- The characters ahead, how many lie behind, and the line and column of the next one. Only a line
feed begins a line. -/
structure Cursor where
  rest : List Char
  index : Nat := 0
  line : Nat := 0
  column : Nat := 0

namespace Cursor

def step (s : Cursor) : Cursor :=
  match s.rest with
  | [] => s
  | c :: rest =>
    if c = '\n' then ⟨rest, s.index + 1, s.line + 1, 0⟩
    else ⟨rest, s.index + 1, s.line, if c = '\ufeff' then s.column else s.column + 1⟩

def advance : Nat → Cursor → Cursor
  | 0, s => s
  | n + 1, s => advance n s.step

def skipWhile (p : Char → Bool) (s : Cursor) : Cursor :=
  s.advance (s.rest.takeWhile p).length

/-- At what is left of the text, a suffix of it. -/
def leave (s : Cursor) (rest : List Char) : Cursor :=
  s.advance (s.rest.length - rest.length)

/-- The line break ahead, if there is one, and the place behind it. -/
def passBreak (s : Cursor) : List Char × Cursor :=
  match s.rest with
  | c :: _ => if isBreak c then ([breakText c], s.step) else ([], s)
  | [] => ([], s)

end Cursor

/-- Steps of reading a text. -/
abbrev Scanning := StateT Cursor (Except Flaw)

namespace Scanning

def malformed {α : Type} : Scanning α :=
  fun _ => .error .malformed

def expect (met : Bool) : Scanning Unit :=
  if met then pure () else malformed

def rest : Scanning (List Char) := do
  return (← get).rest

def advance (n : Nat) : Scanning Unit :=
  modify (·.advance n)

/-- Passes the characters of the class and gives them. -/
def takeWhile (p : Char → Bool) : Scanning (List Char) := do
  let found := (← rest).takeWhile p
  advance found.length
  return found

end Scanning
end WorkloadConfig.Yaml
