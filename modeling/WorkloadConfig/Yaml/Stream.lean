import WorkloadConfig.Text.Lines
import WorkloadConfig.Yaml.Content
import WorkloadConfig.Yaml.Lexer

namespace WorkloadConfig.Yaml

namespace Stream

def usualHandles : Table String String :=
  [("!", "!"), ("!!", "tag:yaml.org,2002:")]

/-- What the directives of a document say. -/
structure Heading where
  version : Option (Nat × Nat) := none
  handles : Table String String := []

/-- Directives, each version and handle of which is given once. -/
def directives : Nat → Heading → Reading Heading
  | 0, _ => Node.malformed
  | fuel + 1, h => do
    match ← Node.peek with
    | .directive d =>
      Node.drop
      match d with
      | .version major minor =>
        if h.version.isSome || major ≠ 1 then Node.malformed
        else directives fuel { h with version := some (major, minor) }
      | .handle name uri =>
        if h.handles.contains name then Node.malformed
        else directives fuel { h with handles := h.handles.put name uri }
      | .other => directives fuel h
    | _ => return h

/-- There are two versions of the language. -/
def isSupported (h : Heading) : Bool :=
  h.version.all fun (_, minor) => minor = 1 || minor = 2

/-- Begins a document with its handles, and nothing named. -/
def enter (handles : Table String String) : Reading Unit :=
  modify fun s => { s with handles := usualHandles.putAll handles, named := [] }

def content (size : Nat) : Reading Node :=
  Node.node (4 * size + 8) deepest .block

/-- A document with the line that begins it. -/
def marked (size : Nat) : Reading Node := do
  let h ← directives (size + 1) {}
  if !isSupported h then (fun _ => .error (.failing .unmetAssumption) : Reading Unit)
  match ← Node.peek with
  | .documentStart version =>
    Node.drop
    enter h.handles
    modify fun s => { s with version }
    match ← Node.peek with
    | .directive _ | .documentStart _ | .documentEnd _ | .streamEnd => Node.nothing
    | _ => content size
  | _ => Node.malformed

/-- Past lines that end documents. -/
def passEnds : Nat → Reading Unit
  | 0 => return
  | fuel + 1 => do
    if let .documentEnd _ ← Node.peek then
      Node.drop
      passEnds fuel

/-- The end of a document, and whether the next one may begin without a line of its own. Behind a
line that ends a document nothing else may stand. -/
def finish : Reading Bool := do
  match ← Node.peek with
  | .documentEnd alone =>
    Node.drop
    if (← Node.peek) ≠ .streamEnd && !alone then Node.malformed
    return (← get).version = .oneTwo
  | _ => return false

/-- The next document, if there is one, and whether the one behind it may begin unmarked. -/
def next (size : Nat) (mayBeUnmarked : Bool) : Reading (Option (Node × Bool)) := do
  if !mayBeUnmarked then passEnds size
  match ← Node.peek with
  | .streamEnd => return none
  | .directive _ | .documentStart _ => return some (← marked size, ← finish)
  | _ =>
    if mayBeUnmarked then
      enter []
      return some (← content size, ← finish)
    else Node.malformed

/-- The documents ahead. -/
def values (size : Nat) : Nat → (mayBeUnmarked : Bool) → Parse → Except Flaw (List Linked)
  | 0, _, _ => .error .malformed
  | fuel + 1, mayBeUnmarked, s => do
    let (found, s) ← (next size mayBeUnmarked).run s
    match found with
    | none => return []
    | some (node, mayBeUnmarked) =>
      let v ← Content.ofNode s.version node
      return v :: (← values size fuel mayBeUnmarked s)

end Stream

/-- All documents of a text. Documents without a line that begins them are read by the
given version; the version of the last document is handed on. -/
def readFrom (version : Version) (text : String) : Except Flaw (List Linked × Version) :=
  let s := Text.withLineFeeds text.toList
  if s.all isWritable then do
    let (tokens, last) := tokens version s
    let size := tokens.length
    return (← Stream.values size (size + 1) true { tokens, version }, last)
  else .error .malformed

def read (text : String) : Except Flaw (List Linked) :=
  Prod.fst <$> readFrom .oneTwo text

def read? (text : String) : Option (List Value) :=
  (read text).toOption.map fun documents => documents.map (·.value)

example : read? "a: [1, x]\nb:\n- c: ~\n  d: 'it''s'\n--- |\n one\n two\n" = some [
    .map [("a", .list [.int 1, .str "x"]),
      ("b", .list [.map [("c", .null), ("d", .str "it's")]])],
    .str "one\ntwo\n"] := by decide +kernel
example : read? "a: 1\n\tb: 2" = none := by decide +kernel
example : read? "a: &x 1\nb: *y" = none := by decide +kernel
example : read? "a: 1\na: 2" = none := by decide +kernel

end WorkloadConfig.Yaml
