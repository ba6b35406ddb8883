import WorkloadConfig.Yaml.Scan

namespace WorkloadConfig.Yaml

/-- The marks that no plain scalar begins with. -/
def isIndicator (c : Char) : Bool :=
  isFlowMark c || "-?:#&*!|>\x27\"%@`".toList.contains c

/-- A hyphen, question mark or colon may begin a plain scalar if it is no word of its own. -/
def beginsPlain (version : Version) (inFlow : Bool) (s : List Char) : Bool :=
  match s with
  | [] => false
  | c :: rest =>
    if !isIndicator c then !endsWord s
    else if c = '-' then !endsWord rest
    else if c = ':' && inFlow then version = .oneTwo && !rest.head?.any isGap
    else (c = ':' || c = '?') && !inFlow && !endsWord rest

/-- The word ahead. A colon ends it before a blank, and in a flow every mark of the flow does. -/
def plainWord (version : Version) (inFlow : Bool) : List Char → List Char
  | [] => []
  | c :: rest =>
    if endsWord (c :: rest) || (c = ':' && endsWord rest) ||
        (inFlow && (isFlowMark c || (c = '?' && version = .oneOne))) then []
    else c :: plainWord version inFlow rest

/-- The line breaks behind the first one, the number of characters to pass, and whether a mark
between documents stands in the way. -/
def plainBreaks : List Char → List Char × Nat × Bool
  | [] => ([], 0, false)
  | c :: rest =>
    if c = ' ' then
      let (breaks, n, stopped) := plainBreaks rest
      (breaks, n + 1, stopped)
    else if isBreak c then
      if beginsDocumentMark rest then ([], 1, true)
      else
        let (breaks, n, stopped) := plainBreaks rest
        (breakText c :: breaks, n + 1, stopped)
    else ([], 0, false)

/-- What stands between two words: its text, empty where the scalar ends, and whether it goes over
the end of a line. -/
def plainGap (s : Cursor) : List Char × Bool × Cursor :=
  let blanks := s.rest.takeWhile (· = ' ')
  let s := s.advance blanks.length
  match s.passBreak with
  | ([first], s) =>
    if beginsDocumentMark s.rest then ([], true, s)
    else
      let (breaks, n, stopped) := plainBreaks s.rest
      (if stopped then [] else foldedBreaks first breaks, true, s.advance n)
  | _ => (blanks, false, s)

/-- The words ahead behind the given gap, whether the last gap goes over the end of a line, and the
place behind it. In a block the further lines lie at the column or right of it. -/
def plainWords (version : Version) (inFlow : Bool) (column : Nat) :
    Nat → (gap : List Char) → (crossed : Bool) → Cursor → List Char × Bool × Cursor
  | 0, _, crossed, s => ([], crossed, s)
  | fuel + 1, gap, crossed, s =>
    let word := plainWord version inFlow s.rest
    if word = [] then ([], crossed, s)
    else
      let (next, crossed, s) := plainGap (s.advance word.length)
      if next = [] || s.rest.head? = some '#' || (!inFlow && s.column < column) then
        (gap ++ word, crossed, s)
      else
        let (more, crossed, s) := plainWords version inFlow column fuel next crossed s
        (gap ++ word ++ more, crossed, s)

/-- A plain scalar and whether the reading is on a fresh line behind it. -/
def plain (version : Version) (inFlow : Bool) (column : Nat) : Scanning (String × Bool) := do
  let s ← get
  let (text, crossed, s) := plainWords version inFlow column (s.rest.length + 1) [] false s
  set s
  return (String.ofList text, crossed)

end WorkloadConfig.Yaml
