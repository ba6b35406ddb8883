import WorkloadConfig.Table
import WorkloadConfig.Text.Blank
import WorkloadConfig.Text.Lines

namespace WorkloadConfig.EnvFile

/-- A name with its value, or without one where no equals sign follows it. -/
abbrev Binding := String × Option String

def isLineBreak (c : Char) : Bool := c = '\n' || c = '\r'

/-- Blank within a line. -/
def isGap (c : Char) : Bool :=
  Text.isSpacing c && !isLineBreak c

def skipGap (s : List Char) : List Char :=
  s.dropWhile isGap

/-- Line breaks of any kind as one line feed, and up to two marks of the byte order in front taken
away. -/
def normalized (text : String) : List Char :=
  match Text.withLineFeeds text.toList with
  | '\ufeff' :: '\ufeff' :: rest => rest
  | '\ufeff' :: rest => rest
  | s => s

def skipExport (s : List Char) : List Char :=
  match "export".toList.isPrefixOf? s with
  | some rest => if rest.head?.any isGap then skipGap rest else s
  | none => s

/-- A quoted text up to its closing quote. A backslash keeps the character behind it from closing
the text, but cannot stand before a line break. -/
def closeQuote? (quote : Char) : List Char → Option (List Char × List Char)
  | [] | ['\\'] => none
  | '\\' :: c :: rest =>
    if c = '\n' then none
    else (closeQuote? quote rest).map fun (body, tail) => ('\\' :: c :: body, tail)
  | c :: rest =>
    if c = quote then some ([], rest)
    else (closeQuote? quote rest).map fun (body, tail) => (c :: body, tail)

def escape? (c : Char) : Option Char :=
  match c with
  | '\\' => some '\\'
  | '"' => some '"'
  | 'a' => some '\x07'
  | 'b' => some '\x08'
  | 'f' => some '\x0c'
  | 'n' => some '\n'
  | 'r' => some '\r'
  | 't' => some '\t'
  | 'v' => some '\x0b'
  | c => if c = '\x27' then some c else none

/-- Backslashes before the characters that `decode?` knows are resolved and others stay. -/
def unescape (decode? : Char → Option Char) : List Char → List Char
  | '\\' :: c :: rest =>
    match decode? c with
    | some d => d :: unescape decode? rest
    | none => '\\' :: unescape decode? (c :: rest)
  | c :: rest => c :: unescape decode? rest
  | [] => []

def quoteEscape? (c : Char) : Option Char :=
  if c = '\\' || c = '\x27' then some c else none

/-- A plain value ends at a comment, which begins after a blank. -/
def cutComment : List Char → List Char
  | [] => []
  | c :: rest =>
    if Text.isSpacing c && (rest.dropWhile Text.isSpacing).head? = some '#' then []
    else c :: cutComment rest

def plainValue (s : List Char) : List Char :=
  Text.trimRight Text.isSpacing (cutComment s)

/-- The value after the equals sign and the rest behind it. -/
def value? : List Char → Option (List Char × List Char)
  | '"' :: rest => (closeQuote? '"' rest).map fun (body, tail) => (unescape escape? body, tail)
  | '\x27' :: rest =>
    (closeQuote? '\x27' rest).map fun (body, tail) => (unescape quoteEscape? body, tail)
  | s => some (plainValue (s.takeWhile (!isLineBreak ·)), s.dropWhile (!isLineBreak ·))

/-- A line as far as it could be read. -/
inductive Line where
  | bound (binding : Option Binding) (rest : List Char)
  | unreadable (rest : List Char)

/-- After the binding only a comment may stand on the line. -/
def finish (binding : Option Binding) (s : List Char) : Line :=
  let afterComment :=
    if (skipGap s).head? = some '#' then (skipGap s).dropWhile (!isLineBreak ·) else s
  match skipGap afterComment with
  | [] => .bound binding []
  | c :: rest => if isLineBreak c then .bound binding rest else .unreadable (c :: rest)

def key? (s : List Char) : Option (List Char × List Char) :=
  match s with
  | '\x27' :: rest =>
    let name := rest.takeWhile (· ≠ '\x27')
    let tail := rest.dropWhile (· ≠ '\x27')
    if name = [] || tail = [] then none else some (name, tail.drop 1)
  | s =>
    let inName (c : Char) : Bool := c ≠ '=' && c ≠ '#' && !Text.isSpacing c
    let name := s.takeWhile inName
    if name = [] then none else some (name, s.dropWhile inName)

def line (s : List Char) : Line :=
  let s := skipExport s
  if s.head? = some '#' then finish none s
  else match key? s with
    | none => .unreadable s
    | some (name, rest) =>
      let name := String.ofList name
      match skipGap rest with
      | '=' :: rest =>
        if rest.head?.any isGap && (skipGap rest).head? = some '#' then
          finish (some (name, some "")) (skipGap rest)
        else match value? (skipGap rest) with
        | some (body, tail) => finish (some (name, some (String.ofList body))) tail
        | none => .unreadable (skipGap rest)
      | rest => finish (some (name, none)) rest

def bindings : Nat → List Char → List Binding
  | 0, _ => []
  | fuel + 1, s =>
    match s.dropWhile Text.isSpacing with
    | [] => []
    | s => match line s with
      | .bound binding rest => binding.toList ++ bindings fuel rest
      | .unreadable rest => bindings fuel ((rest.dropWhile (!isLineBreak ·)).drop 1)

/-- A reference in braces to a variable, perhaps with a default after a colon and a hyphen. -/
def braced? (s : List Char) : Option ((List Char × List Char) × List Char) :=
  let name := s.takeWhile fun c => c ≠ '\x7d' && c ≠ ':'
  match s.dropWhile fun c => c ≠ '\x7d' && c ≠ ':' with
  | '\x7d' :: rest => some ((name, []), rest)
  | ':' :: '-' :: rest =>
    match rest.dropWhile (· ≠ '\x7d') with
    | _ :: tail => some ((name, rest.takeWhile (· ≠ '\x7d')), tail)
    | [] => none
  | _ => none

/-- The value with its references to variables replaced. -/
def interpolate (known : String → Option (Option String)) : Nat → List Char → List Char
  | 0, s => s
  | _, [] => []
  | fuel + 1, '$' :: '\x7b' :: rest =>
    match braced? rest with
    | some ((name, default), tail) =>
      let text := match known (String.ofList name) with
        | some (some text) => text.toList
        | some none => []
        | none => default
      text ++ interpolate known fuel tail
    | none => '$' :: interpolate known fuel ('\x7b' :: rest)
  | fuel + 1, c :: rest => c :: interpolate known fuel rest

/-- Variables of the environment, covered by the bindings read so far. -/
def bind (env : Table String String) (done : Table String (Option String)) (b : Binding) :
    Table String (Option String) :=
  let known (name : String) := (done.find? name).or ((env.find? name).map some)
  done.put b.1 (b.2.map fun text =>
    String.ofList (interpolate known (text.length + 1) text.toList))

/-- The bindings of a file's text; of two for one name the later counts. -/
def read (env : Table String String) (text : String) : Table String (Option String) :=
  let s := normalized text
  (bindings (s.length + 1) s).foldl (bind env) []

example : read [] "# c\nexport A='x y' # d\nB = ${A}z\nC\nD=\"a\\\"b\"" =
    [("A", some "x y"), ("B", some "x yz"), ("C", none), ("D", some "a\"b")] := by decide +kernel

end WorkloadConfig.EnvFile
