import WorkloadConfig.Schema

namespace WorkloadConfig

def isLabelChar (c : Char) : Bool :=
  ('a' ≤ c && c ≤ 'z') || c.isDigit

/-- Hyphens stand between letters or digits only. -/
def isLabel (s : List Char) : Bool :=
  s ≠ [] && s.all (fun c => isLabelChar c || c = '-') && s.head? ≠ some '-' && s.getLast? ≠ some '-'

/-- A label of any length. -/
structure Label where
  text : String
  valid : isLabel text.toList = true
deriving DecidableEq

/-- A label of at most sixty-three characters. -/
structure DnsLabel where
  text : String
  valid : isLabel text.toList = true
  short : text.length ≤ 63
deriving DecidableEq

def isKeyChar (c : Char) : Bool :=
  c.isAlphanum || c = '_' || c = '.' || c = '-'

structure OutputKey where
  text : String
  valid : (text.toList ≠ [] && text.toList.all isKeyChar) = true
deriving DecidableEq

namespace Label

def pattern : String := "^[a-z0-9]([-a-z0-9]*[a-z0-9])?$"

def read : Schema.Reader Label := fun v =>
  (Schema.text v).andThen fun text =>
    if valid : isLabel text.toList = true then .valid ⟨text, valid⟩ else .fault (.pattern pattern)

end Label

/-- The length is looked at before the alphabet. -/
def DnsLabel.read : Schema.Reader DnsLabel := fun v =>
  (Schema.text v).andThen fun text =>
    if short : text.length ≤ 63 then
      if valid : isLabel text.toList = true then .valid ⟨text, valid, short⟩
      else .fault (.pattern Label.pattern)
    else .fault (.tooLong 63)

def OutputKey.read : Schema.Reader OutputKey := fun v =>
  (Schema.text v).andThen fun text =>
    if valid : (text.toList ≠ [] && text.toList.all isKeyChar) = true then .valid ⟨text, valid⟩
    else .fault (.pattern "^[A-Za-z0-9_.-]+$")

def FieldPath.read : Schema.Reader FieldPath := fun v =>
  (Schema.text v).andThen fun text =>
    match FieldPath.ofText? text with
    | some path => .valid path
    | none => .fault (.rule (FieldPath.invalidMessage text))

end WorkloadConfig
