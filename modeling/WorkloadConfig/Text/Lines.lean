namespace WorkloadConfig.Text

/-- The text that the bytes encode. -/
def ofBytes? (bytes : List UInt8) : Option String :=
  String.fromUTF8? ⟨bytes.toArray⟩

/-- How many of the bytes in front are a text. -/
def validLength (bytes : List UInt8) : Nat :=
  ((List.range bytes.length).filter fun n => (ofBytes? (bytes.take n)).isSome).getLast?.getD 0

/-- Every line break as a line feed. -/
def withLineFeeds : List Char → List Char
  | '\r' :: '\n' :: rest => '\n' :: withLineFeeds rest
  | '\r' :: rest => '\n' :: withLineFeeds rest
  | c :: rest => c :: withLineFeeds rest
  | [] => []

end WorkloadConfig.Text
