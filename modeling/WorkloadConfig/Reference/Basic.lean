import WorkloadConfig.Failure

namespace WorkloadConfig

inductive Family where
  | outputs
  | connections
  | secrets
  | configs
deriving DecidableEq, Repr

def Family.word : Family → String
  | outputs => "outputs"
  | connections => "connections"
  | secrets => "secrets"
  | configs => "configs"

inductive Reference where
  | output (ns : Option String) (target key : String)
  | connection (target key : String)
  | secret (target resource : String) (key : Option String)
  | config (target resource : String) (key : Option String)
deriving DecidableEq, Repr

namespace Reference

/-- The name of the instance that a reference leads to. -/
def target : Reference → String
  | output _ target _ | connection target _ | secret target _ _ | config target _ _ => target

def keySuffix : Option String → String
  | some key => "/" ++ key
  | none => ""

/-- The text that a reference is written as. -/
def text : Reference → String
  | output (some ns) target key => ns ++ "::outputs/" ++ target ++ "/" ++ key
  | output none target key => "outputs/" ++ target ++ "/" ++ key
  | connection target key => "connections/" ++ target ++ "/" ++ key
  | secret target resource key => "secrets/" ++ target ++ "/" ++ resource ++ keySuffix key
  | config target resource key => "configs/" ++ target ++ "/" ++ resource ++ keySuffix key

/-- What stands before and after the first pair of colons. -/
def splitNamespace : List Char → Option (List Char × List Char)
  | ':' :: ':' :: rest => some ([], rest)
  | c :: rest => (splitNamespace rest).map fun (before, behind) => (c :: before, behind)
  | [] => none

def familyOf? (word : List Char) : Option Family :=
  [Family.outputs, .connections, .secrets, .configs].find? fun family => family.word.toList = word

/-- The family that a text begins with and the path behind the slash. -/
def splitFamily (s : List Char) : Option (Family × List Char) :=
  match s.dropWhile (· ≠ '/') with
  | _ :: path => (familyOf? (s.takeWhile (· ≠ '/'))).map (·, path)
  | [] => none

/-- The text without a namespace in front. -/
def remainder (s : List Char) : List Char :=
  match splitNamespace s with
  | some (_, rest) => rest
  | none => s

/-- Whether a text begins like a reference; its path may still be malformed. -/
def isReference (text : String) : Bool :=
  [Family.outputs, .connections, .secrets, .configs].any fun family =>
    (family.word.toList ++ ['/']).isPrefixOf (remainder text.toList)

def segments (raw : String) (path : List Char) (least most : Nat) : Result (List String) :=
  let parts := path.splitOn '/'
  if parts.length < least || most < parts.length then
    Result.fail (.referenceSyntax raw (.segmentCount least most parts.length))
  else if parts.contains [] then Result.fail (.referenceSyntax raw .emptySegment)
  else .ok (parts.map String.ofList)

/-- The parts of a path under a family; the counts leave no other lists of segments. -/
def ofSegments (family : Family) (ns : Option String) : List String → Option Reference
  | [a, b] => some <| match family with
    | .outputs => output ns a b
    | .connections => connection a b
    | .secrets => secret a b none
    | .configs => config a b none
  | [a, b, c] => match family with
    | .secrets => some (secret a b (some c))
    | .configs => some (config a b (some c))
    | _ => none
  | _ => none

def mostSegments : Family → Nat
  | .outputs | .connections => 2
  | .secrets | .configs => 3

/-- The reference that a text writes, or none if it writes a literal. A namespace where none is
allowed is reported before anything that is wrong with the path. -/
def parse (raw : String) : Result (Option Reference) :=
  let ns := splitNamespace raw.toList
  match splitFamily (remainder raw.toList) with
  | none => .ok none
  | some (family, path) =>
    if ns.isSome && family ≠ .outputs then Result.fail (.crossNamespace family.word raw)
    else if ns.any (·.1 = []) then Result.fail (.referenceSyntax raw .emptyNamespace)
    else do
      let parts ← segments raw path 2 (mostSegments family)
      .ok (ofSegments family (ns.map fun split => String.ofList split.1) parts)

example : parse "team::outputs/db/host" = .ok (some (output (some "team") "db" "host")) := rfl
example : parse "a::b::outputs/x/y" = .ok none := rfl
example : parse "secrets/vault/tls/crt" = .ok (some (secret "vault" "tls" (some "crt"))) := rfl

end Reference
end WorkloadConfig
