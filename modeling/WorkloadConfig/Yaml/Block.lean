import WorkloadConfig.Yaml.Scan

namespace WorkloadConfig.Yaml

/-- Which line breaks at the end of a block are kept: none, one or all. -/
inductive Chomping where
  | strip
  | clip
  | keep
deriving DecidableEq

namespace Block

def chomping? (s : List Char) : Option Chomping :=
  match s.head? with
  | some '-' => some .strip
  | some '+' => some .keep
  | _ => none

def indent? (s : List Char) : Option Nat :=
  match s.head? with
  | some c => if '1' ≤ c && c ≤ '9' then some (c.toNat - 48) else none
  | none => none

/-- The marks of a header, at most one of each kind in either order, and the rest behind them. -/
def marks (s : List Char) : Chomping × Option Nat × List Char :=
  let first := chomping? s
  let s := s.drop first.toList.length
  let indent := indent? s
  let s := s.drop indent.toList.length
  let last := if first.isSome then none else chomping? s
  ((first.or last).getD .clip, indent, s.drop last.toList.length)

/-- The rest of a header, which may be a comment after a blank. -/
def endOfHeader : Scanning Unit := do
  let s ← Scanning.rest
  Scanning.expect (s.head? = some ' ' || endsLine s)
  let _ ← Scanning.takeWhile (· = ' ')
  if (← Scanning.rest).head? = some '#' then
    let _ ← Scanning.takeWhile (!isBreak ·)
  Scanning.expect (endsLine (← Scanning.rest))
  modify (·.passBreak.2)

/-- Past blanks, at most to the column. -/
def skipTo (column : Nat) (s : Cursor) : Cursor :=
  s.advance (min (column - s.column) (s.rest.takeWhile (· = ' ')).length)

/-- The line breaks of the empty lines ahead, and the place at the column on the line behind. -/
def emptyLines (column : Nat) : Nat → Cursor → List Char × Cursor
  | 0, s => ([], s)
  | fuel + 1, s =>
    match (skipTo column s).passBreak with
    | ([c], s) =>
      let (breaks, s) := emptyLines column fuel s
      (c :: breaks, s)
    | (_, s) => ([], s)

/-- The empty lines before the first other one: their breaks, the column at which the first of them
ends, and the column that the longest of them or the blanks behind them reach. -/
structure Lead where
  breaks : List Char := []
  first : Option Nat := none
  widest : Nat := 0

def lead : Nat → Lead → Cursor → Lead × Cursor
  | 0, l, s => (l, s)
  | fuel + 1, l, s =>
    if s.rest.head? = some ' ' then
      lead fuel { l with widest := max l.widest s.step.column } s.step
    else match s.passBreak with
      | ([c], next) =>
        lead fuel { l with breaks := l.breaks ++ [c], first := l.first.or (some s.column) } next
      | _ => (l, s)

/-- A block as far as it has been read: its text, the break of its last line, and the breaks of the
empty lines behind it. -/
structure Body where
  text : List Char := []
  last : List Char := []
  behind : List Char

/-- What stands for the line break between two lines. -/
def joint (folded : Bool) (line : List Char) (body : Body) (next : Cursor) : List Char :=
  if folded && body.last = ['\n'] && !line.head?.any isGap && !next.rest.head?.any isGap then
    if body.behind = [] then [' '] else []
  else body.last

/-- The lines at the column. At the top a mark between documents ends them. -/
def lines (folded top : Bool) (column : Nat) : Nat → Body → Cursor → Body × Cursor
  | 0, body, s => (body, s)
  | fuel + 1, body, s =>
    if s.column = column && s.rest ≠ [] then
      let line := s.rest.takeWhile (!isBreak ·)
      let (last, next) := (s.advance line.length).passBreak
      let (behind, next) := emptyLines column (next.rest.length + 1) next
      let body : Body := ⟨body.text ++ body.behind ++ line, last, behind⟩
      if (top && next.column = 0 && beginsDocumentMark next.rest) || next.column ≠ column ||
          next.rest = [] then (body, next)
      else
        lines folded top column fuel { body with text := body.text ++ joint folded line body next }
          next
    else (body, s)

def text (chomping : Chomping) (body : Body) : List Char :=
  match chomping with
  | .strip => body.text
  | .clip => body.text ++ body.last
  | .keep => body.text ++ body.last ++ body.behind

end Block

/-- A block scalar whose lines lie at the least column or right of it. -/
def block (least : Nat) : Scanning String := do
  let folded := (← Scanning.rest).head? = some '>'
  Scanning.advance 1
  let (chomping, indent, rest) := Block.marks (← Scanning.rest)
  modify (·.leave rest)
  Block.endOfHeader
  let s ← get
  let size := s.rest.length + 1
  let (column, body, s) ← match indent with
    | some n =>
      let column := max least 1 + n - 1
      let (breaks, s) := Block.emptyLines column size s
      pure (column, { behind := breaks : Block.Body }, s)
    | none =>
      let (l, s) := Block.lead size {} s
      Scanning.expect (l.first.all fun first => first = 0 || l.widest ≤ first)
      pure (max least l.widest, { behind := l.breaks : Block.Body }, s)
  let (body, s) := Block.lines folded (least = 0 && indent.isNone) column size body s
  set s
  return String.ofList (Block.text chomping body)

end WorkloadConfig.Yaml
