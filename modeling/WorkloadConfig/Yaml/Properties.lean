import WorkloadConfig.Json.Reader
import WorkloadConfig.Text.Lines
import WorkloadConfig.Yaml.Token

namespace WorkloadConfig.Yaml

def isNameChar (c : Char) : Bool :=
  let n := c.toNat
  0x21 ≤ n && n ≠ 0x7f && !(0x80 ≤ n && n < 0xa0) && isWritable c && n ≠ 0xfeff && !isFlowMark c

/-- The name behind an ampersand or asterisk. -/
def anchorName : Scanning String := do
  Scanning.advance 1
  let name ← Scanning.takeWhile isNameChar
  let s ← Scanning.rest
  Scanning.expect (name ≠ [] && (endsWord s || s.head?.any isFlowMark))
  return String.ofList name

def isUriChar (version : Version) (c : Char) : Bool :=
  c.isAlphanum || "-;/?:@&=+$,_.!~*\x27()[]".toList.contains c || (c = '#' && version = .oneTwo)

/-- The bytes written as percent signs with two hexadecimal digits each. -/
def escapedBytes : List Char → Except Flaw (List UInt8 × List Char)
  | '%' :: a :: b :: rest => match Json.hexNumber? [a, b] with
    | some n => do
      let (bytes, r) ← escapedBytes rest
      return (n.toUInt8 :: bytes, r)
    | none => .error .malformed
  | '%' :: _ => .error .malformed
  | s => .ok ([], s)

/-- Characters of a URI, where escaped bytes stand for the text that they encode. -/
def uriText (version : Version) : Nat → List Char → Except Flaw (List Char × List Char)
  | 0, s => .ok ([], s)
  | _, [] => .ok ([], [])
  | fuel + 1, c :: rest =>
    if c = '%' then do
      let (bytes, r) ← escapedBytes (c :: rest)
      match Text.ofBytes? bytes with
      | some text =>
        let (more, r) ← uriText version fuel r
        return (text.toList ++ more, r)
      | none => .error .malformed
    else if isUriChar version c then do
      let (more, r) ← uriText version fuel rest
      return (c :: more, r)
    else .ok ([], c :: rest)

def uri (version : Version) : Scanning String := do
  let s ← get
  let (text, rest) ← (uriText version (s.rest.length + 1) s.rest : Except Flaw _)
  Scanning.expect (text ≠ [])
  set (s.leave rest)
  return String.ofList text

/-- A blank, a line break or the end, but no tab. -/
def expectApart : Scanning Unit := do
  let s ← Scanning.rest
  Scanning.expect (s.head? = some ' ' || endsLine s)

/-- A handle between exclamation marks, or a single one before a blank. -/
def tagHandle : Scanning String := do
  Scanning.expect ((← Scanning.rest).head? = some '!')
  Scanning.advance 1
  if (← Scanning.rest).head? = some ' ' then return "!"
  let word ← Scanning.takeWhile fun c => c.isAlphanum || c = '-' || c = '_'
  Scanning.expect ((← Scanning.rest).head? = some '!')
  Scanning.advance 1
  return String.ofList ('!' :: word ++ ['!'])

/-- A tag: verbatim between angles, none in particular, or a suffix behind a handle. -/
def tag (version : Version) : Scanning Token := do
  let s := (← Scanning.rest).drop 1
  let found ←
    if s.head? = some '<' then
      Scanning.advance 2
      let text ← uri version
      Scanning.expect ((← Scanning.rest).head? = some '>')
      Scanning.advance 1
      pure (Token.tag none text)
    else if endsWord s then
      Scanning.advance 1
      pure (Token.tag none "!")
    else if (s.takeWhile fun c => c ≠ ' ' && !isBreak c).contains '!' then
      let handle ← tagHandle
      pure (Token.tag (some handle) (← uri version))
    else
      Scanning.advance 1
      pure (Token.tag (some "!") (← uri version))
  expectApart
  return found

def versionNumber : Scanning Nat := do
  let digits ← Scanning.takeWhile Char.isDigit
  Scanning.expect (digits ≠ [])
  return Literal.ofDigits digits

/-- What follows the name of a directive. -/
def directiveValue (version : Version) (name : String) : Scanning Directive := do
  if name = "YAML" then
    let _ ← Scanning.takeWhile (· = ' ')
    let major ← versionNumber
    Scanning.expect ((← Scanning.rest).head? = some '.')
    Scanning.advance 1
    let minor ← versionNumber
    expectApart
    return .version major minor
  else if name = "TAG" then
    let _ ← Scanning.takeWhile (· = ' ')
    let handle ← tagHandle
    Scanning.expect ((← Scanning.rest).head? = some ' ')
    let _ ← Scanning.takeWhile (· = ' ')
    let start ← uri version
    expectApart
    return .handle handle start
  else
    let _ ← Scanning.takeWhile (!isBreak ·)
    return .other

/-- A directive on a line of its own, perhaps with a comment. -/
def directive (version : Version) : Scanning Directive := do
  Scanning.advance 1
  let name ← Scanning.takeWhile fun c => c.isAlphanum || "-_:.".toList.contains c
  Scanning.expect (name ≠ [])
  expectApart
  let found ← directiveValue version (String.ofList name)
  let _ ← Scanning.takeWhile (· = ' ')
  if (← Scanning.rest).head? = some '#' then
    let _ ← Scanning.takeWhile (!isBreak ·)
  Scanning.expect (endsLine (← Scanning.rest))
  modify (·.passBreak.2)
  return found

end WorkloadConfig.Yaml
