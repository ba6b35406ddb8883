import WorkloadConfig.Yaml.Block
import WorkloadConfig.Yaml.Plain
import WorkloadConfig.Yaml.Properties
import WorkloadConfig.Yaml.Quoted

namespace WorkloadConfig.Yaml

/-- A node that may be a key: the number of its first token, where it begins, and whether nothing
but a key can stand there. -/
structure Candidate where
  number : Nat
  required : Bool
  index : Nat
  line : Nat
  column : Nat

/-- An open bracket or brace and the candidate outside of it. -/
structure Frame where
  mark : Char
  outside : Option Candidate

structure Lexer where
  cursor : Cursor
  version : Version
  /-- The version that a directive gives the document ahead. -/
  announced : Option Version := none
  /-- The columns of the open blocks, the innermost first. -/
  columns : List Nat := []
  frames : List Frame := []
  keyAllowed : Bool := true
  candidate : Option Candidate := none
  /-- The tokens so far, the last first. -/
  tokens : List Token := []
  count : Nat := 0
  finished : Bool := false

namespace Lexer

def inFlow (l : Lexer) : Bool := !l.frames.isEmpty

/-- The column at which a new block lies to the right of all open ones. -/
def least (l : Lexer) : Nat :=
  match l.columns with
  | column :: _ => column + 1
  | [] => 0

def emit (t : Token) (l : Lexer) : Lexer :=
  { l with tokens := t :: l.tokens, count := l.count + 1 }

/-- Puts a token before the one of the given number. -/
def insert (number : Nat) (t : Token) (l : Lexer) : Lexer :=
  let behind := l.count - number
  { l with tokens := l.tokens.take behind ++ t :: l.tokens.drop behind, count := l.count + 1 }

def isStale (l : Lexer) (c : Candidate) : Bool :=
  c.line ≠ l.cursor.line || 1024 < l.cursor.index - c.index

def keepLive (l : Lexer) : Option Candidate → Except Flaw (Option Candidate)
  | none => .ok none
  | some c =>
    if !l.isStale c then .ok (some c)
    else if c.required then .error .malformed
    else .ok none

/-- Without the candidates that no colon can follow any more. -/
def dropStale (l : Lexer) : Except Flaw Lexer := do
  let candidate ← l.keepLive l.candidate
  let frames ← l.frames.mapM fun f => return { f with outside := ← l.keepLive f.outside }
  return { l with candidate, frames }

def candidates (l : Lexer) : List Candidate :=
  l.candidate.toList ++ l.frames.flatMap (·.outside.toList)

/-- The candidate of the present level is none. -/
def dropCandidate (l : Lexer) : Except Flaw Lexer :=
  if l.candidate.any (·.required) then .error .malformed else .ok { l with candidate := none }

/-- The node ahead is a candidate where a key is allowed. -/
def addCandidate (l : Lexer) : Except Flaw Lexer := do
  if !l.keyAllowed then return l
  let l ← l.dropCandidate
  let s := l.cursor
  let required := !l.inFlow && l.columns.head? = some s.column
  return { l with candidate := some ⟨l.count, required, s.index, s.line, s.column⟩ }

/-- Ends the blocks to the right of the column. -/
def unwindTo (column : Nat) : List Nat → Lexer → Lexer
  | [], l => { l with columns := [] }
  | open_ :: rest, l =>
    if column < open_ then unwindTo column rest (l.emit .blockEnd)
    else { l with columns := open_ :: rest }

def unwind (l : Lexer) : Lexer :=
  if l.inFlow then l else unwindTo l.cursor.column l.columns l

def unwindAll (l : Lexer) : Lexer :=
  if l.inFlow then l else { l.columns.foldl (fun l _ => l.emit .blockEnd) l with columns := [] }

/-- Whether a block at the column would be a new one. -/
def isDeeper (l : Lexer) (column : Nat) : Bool :=
  l.columns.head?.all (· < column)

/-- Begins a block at the column unless one is open there. -/
def openBlock (t : Token) (l : Lexer) : Lexer :=
  if l.isDeeper l.cursor.column then
    { l.emit t with columns := l.cursor.column :: l.columns }
  else l

def advance (n : Nat) (l : Lexer) : Lexer :=
  { l with cursor := l.cursor.advance n }

/-- Past blanks, comments and line breaks. Behind a line break a key may stand. -/
def skip : Nat → Lexer → Lexer
  | 0, l => l
  | fuel + 1, l =>
    let s := l.cursor.skipWhile fun c => c = ' ' || (c = '\t' && l.inFlow)
    let s := if s.rest.head? = some '#' then s.skipWhile (!isBreak ·) else s
    match s.passBreak with
    | ([_], s) => skip fuel { l with cursor := s, keyAllowed := l.keyAllowed || !l.inFlow }
    | _ => { l with cursor := s }

/-- Reads a part of the text as a token. -/
def scan {α : Type} (l : Lexer) (part : Scanning α) : Except Flaw (α × Lexer) := do
  let (a, cursor) ← part.run l.cursor
  return (a, { l with cursor })

/-- The mark of a document's beginning or end, of three characters. -/
def documentMark (t : Token) (version : Version) (l : Lexer) : Except Flaw Lexer := do
  let l ← l.unwindAll.dropCandidate
  return { (l.advance 3).emit t with keyAllowed := false, version, announced := none }

def documentStart (l : Lexer) : Except Flaw Lexer :=
  let version := l.announced.getD .oneTwo
  l.documentMark (.documentStart version) version

def documentEnd (l : Lexer) : Except Flaw Lexer :=
  let behind := (l.cursor.rest.drop 3).dropWhile fun c => c ≠ '\n' && (c = ' ' || isBreak c)
  let alone := behind.head?.all fun c => c = '\n' || c = '#'
  l.documentMark (.documentEnd alone) l.version

def streamEnd (l : Lexer) : Except Flaw Lexer := do
  let l ← l.unwindAll.dropCandidate
  return { l.emit .streamEnd with finished := true }

def directive (l : Lexer) : Except Flaw Lexer := do
  let l ← l.unwindAll.dropCandidate
  let (d, l) ← l.scan (Yaml.directive l.version)
  let announced := match d with
    | .version 1 1 => some .oneOne
    | .version _ _ => some .oneTwo
    | _ => l.announced
  return { l.emit (.directive d) with keyAllowed := false, announced }

def flowStart (mark : Char) (t : Token) (l : Lexer) : Except Flaw Lexer := do
  let l ← l.addCandidate
  return { (l.advance 1).emit t with
    frames := ⟨mark, l.candidate⟩ :: l.frames, candidate := none, keyAllowed := true }

def flowEnd (t : Token) (l : Lexer) : Except Flaw Lexer := do
  let l ← l.dropCandidate
  let l := match l.frames with
    | f :: frames => { l with frames, candidate := f.outside }
    | [] => l
  return { (l.advance 1).emit t with keyAllowed := false }

def flowEntry (l : Lexer) : Except Flaw Lexer := do
  let l ← l.dropCandidate
  return { (l.advance 1).emit .flowEntry with keyAllowed := true }

def blockEntry (l : Lexer) : Except Flaw Lexer := do
  if !l.inFlow && !l.keyAllowed then throw .malformed
  let l ← (if l.inFlow then l else l.openBlock .blockListStart).dropCandidate
  return { (l.advance 1).emit .blockEntry with keyAllowed := true }

/-- A question mark in front of a key. -/
def key (l : Lexer) : Except Flaw Lexer := do
  if !l.inFlow && !l.keyAllowed then throw .malformed
  let l ← (if l.inFlow then l else l.openBlock .blockMapStart).dropCandidate
  return { (l.advance 1).emit .key with keyAllowed := !l.inFlow }

/-- The colon behind a key. It makes a key of the candidate, and in a block perhaps the beginning of
a map. -/
def value (l : Lexer) : Except Flaw Lexer := do
  match l.candidate with
  | some c =>
    let l := { l.insert c.number .key with candidate := none }
    let l :=
      if !l.inFlow && l.isDeeper c.column then
        { l.insert c.number .blockMapStart with columns := c.column :: l.columns }
      else l
    return { (l.advance 1).emit .value with keyAllowed := false }
  | none =>
    if !l.inFlow && !l.keyAllowed then throw .malformed
    let l := if l.inFlow then l else l.openBlock .blockMapStart
    return { (l.advance 1).emit .value with keyAllowed := !l.inFlow }

/-- A node's name, tag or scalar, which a colon may follow. -/
def node (part : Scanning Token) (l : Lexer) : Except Flaw Lexer := do
  let (t, l) ← (← l.addCandidate).scan part
  return { l.emit t with keyAllowed := false }

def plainScalar (l : Lexer) : Except Flaw Lexer := do
  let ((text, crossed), l) ← (← l.addCandidate).scan (plain l.version l.inFlow l.least)
  return { l.emit (.scalar text true) with keyAllowed := crossed }

def blockScalar (l : Lexer) : Except Flaw Lexer := do
  let (text, l) ← (← l.dropCandidate).scan (block l.least)
  return { l.emit (.scalar text false) with keyAllowed := true }

/-- Whether the colon ahead stands behind a key. In a flow it does not need a blank behind it,
unless it may be part of a plain scalar: within brackets, and behind a colon that is still in
question. -/
def beginsValue (l : Lexer) (inQuestion : Bool) (behind : List Char) : Bool :=
  match l.frames with
  | [] => endsWord behind
  | f :: _ =>
    l.version = .oneOne || endsWord behind ||
      !(f.mark = '[' || (inQuestion && l.tokens.head? = some .value))

/-- The next token; tokens before it may be in question. -/
def token (l : Lexer) (inQuestion : Bool) : Except Flaw Lexer :=
  let s := l.cursor
  match s.rest with
  | [] => l.streamEnd
  | c :: rest =>
    if c = '%' && s.column = 0 then l.directive
    else if s.column = 0 && begins "---" s.rest then l.documentStart
    else if s.column = 0 && begins "..." s.rest then l.documentEnd
    else if c = '[' then l.flowStart c .flowListStart
    else if c = '\x7b' then l.flowStart c .flowMapStart
    else if c = ']' then l.flowEnd .flowListEnd
    else if c = '\x7d' then l.flowEnd .flowMapEnd
    else if c = ',' then l.flowEntry
    else if c = '-' && endsWord rest then l.blockEntry
    else if c = '?' && (l.inFlow || endsWord rest) then l.key
    else if c = ':' && l.beginsValue inQuestion rest then l.value
    else if c = '*' then l.node (.recall <$> anchorName)
    else if c = '&' then l.node (.anchor <$> anchorName)
    else if c = '!' then l.node (tag l.version)
    else if (c = '|' || c = '>') && !l.inFlow then l.blockScalar
    else if c = '\x27' then l.node ((Token.scalar · false) <$> quoted false)
    else if c = '"' then l.node ((Token.scalar · false) <$> quoted true)
    else if beginsPlain l.version l.inFlow s.rest then l.plainScalar
    else .error .malformed

/-- Passes to the next token and reads it. -/
def next (l : Lexer) : Except Flaw Lexer := do
  let l ← l.dropStale
  let inQuestion := !l.candidates.isEmpty
  let l ← (l.skip (l.cursor.rest.length + 1)).dropStale
  l.unwind.token inQuestion

/-- The tokens that nothing ahead can change. -/
def settled (l : Lexer) : List Token :=
  let open_ := l.candidates.filter fun c => c.required || !l.isStale c
  l.tokens.reverse.take (open_.foldl (fun n c => min n c.number) l.count)

def run : Nat → Lexer → List Token × Version
  | 0, l => (l.settled, l.version)
  | fuel + 1, l =>
    match l.next with
    | .error flaw => (l.settled ++ [.broken flaw], l.version)
    | .ok l => if l.finished then (l.tokens.reverse, l.version) else run fuel l

end Lexer

/-- The tokens of a text, and the version of its last document. Where it cannot be read on, the
tokens end in the flaw. -/
def tokens (version : Version) (s : List Char) : List Token × Version :=
  let s := if s.head? = some '\ufeff' then s.drop 1 else s
  Lexer.run (s.length + 2) { cursor := { rest := s }, version }

end WorkloadConfig.Yaml
