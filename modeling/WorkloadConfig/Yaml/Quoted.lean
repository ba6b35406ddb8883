import WorkloadConfig.Json.Reader
import WorkloadConfig.Yaml.Scan

namespace WorkloadConfig.Yaml

def escape? : Char → Option Char
  | '0' => some '\x00'
  | 'a' => some '\x07'
  | 'b' => some '\x08'
  | 't' => some '\t'
  | '\t' => some '\t'
  | 'n' => some '\n'
  | 'v' => some '\x0b'
  | 'f' => some '\x0c'
  | 'r' => some '\r'
  | 'e' => some '\x1b'
  | ' ' => some ' '
  | '"' => some '"'
  | '/' => some '/'
  | '\\' => some '\\'
  | 'N' => some '\u0085'
  | '_' => some '\u00a0'
  | 'L' => some '\u2028'
  | 'P' => some '\u2029'
  | _ => none

def escapeWidth? : Char → Option Nat
  | 'x' => some 2
  | 'u' => some 4
  | 'U' => some 8
  | _ => none

/-- The character with the code. Half of a pair is none on its own. -/
def charOfCode (code : Nat) : Except Flaw Char :=
  if code.isValidChar then .ok (Char.ofNat code)
  else if code < 0x110000 then .error .malformed
  else if code < 0x80000000 then .error (.badValue "chr() arg not in range(0x110000)")
  else .error (.failing .tooLarge)

/-- The character of a code written in hexadecimal digits. Two halves of a pair make one. -/
def coded (width : Nat) (s : List Char) : Except Flaw (Char × List Char) :=
  match if s.length < width then none else Json.hexNumber? (s.take width) with
  | none => .error .malformed
  | some code =>
    let rest := s.drop width
    if Json.isHighUnit code then
      match rest with
      | '\\' :: 'u' :: more => match Json.hexNumber? (more.take 4) with
        | some low =>
          if Json.isLowUnit low then .ok (Json.joinUnits code low, more.drop 4)
          else .error .malformed
        | none => .error .malformed
      | _ => .error .malformed
    else return (← charOfCode code, rest)

/-- The line breaks ahead, up to something other than blanks. No line may begin with a mark between
documents. -/
def quotedBreaks : (fresh : Bool) → List Char → Except Flaw (List Char × List Char)
  | _, [] => .ok ([], [])
  | fresh, c :: rest =>
    if fresh && beginsDocumentMark (c :: rest) then .error .malformed
    else if isGap c then quotedBreaks false rest
    else if isBreak c then do
      let (breaks, r) ← quotedBreaks true rest
      return (breakText c :: breaks, r)
    else .ok ([], c :: rest)

/-- The text of the blanks and line breaks ahead. -/
def quotedGap (s : List Char) : Except Flaw (List Char × List Char) :=
  match s.dropWhile isGap with
  | [] => .error .malformed
  | c :: rest =>
    if isBreak c then do
      let (breaks, r) ← quotedBreaks true rest
      return (foldedBreaks (breakText c) breaks, r)
    else .ok (s.takeWhile isGap, c :: rest)

/-- What an escape behind its backslash stands for: before a line break the breaks of the empty
lines behind, else a character. -/
def escaped : List Char → Except Flaw (List Char × List Char)
  | [] => .error .malformed
  | c :: rest =>
    if isBreak c then quotedBreaks true rest
    else match escapeWidth? c, escape? c with
      | some width, _ => do
        let (d, r) ← coded width rest
        return ([d], r)
      | none, some d => .ok ([d], rest)
      | none, none => .error .malformed

/-- The text up to the closing quote, each step of which passes at least one character. -/
def quotedText (double : Bool) : Nat → List Char → Except Flaw (List Char × List Char)
  | 0, _ | _, [] => .error .malformed
  | fuel + 1, c :: rest => do
    if c = (if double then '"' else '\x27') && (double || rest.head? ≠ some c) then
      return ([], rest)
    let (text, r) ←
      if endsWord (c :: rest) then quotedGap (c :: rest)
      else if double && c = '\\' then escaped rest
      else if !double && c = '\x27' then .ok ([c], rest.drop 1)
      else .ok ([c], rest)
    let (more, r) ← quotedText double fuel r
    return (text ++ more, r)

/-- A quoted scalar from its opening quote to its closing one. -/
def quoted (double : Bool) : Scanning String := do
  let s ← get
  let (text, rest) ← (quotedText double (s.rest.length + 1) (s.rest.drop 1) : Except Flaw _)
  set (s.leave rest)
  return String.ofList text

end WorkloadConfig.Yaml
