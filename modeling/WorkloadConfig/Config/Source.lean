import WorkloadConfig.Availability
import WorkloadConfig.Config.Record
import WorkloadConfig.Value.Agreement

namespace WorkloadConfig

/-- A source as it stands: its records, or why they cannot be had, and how it answers. -/
structure ConfigSource where
  records : Result (List Value)
  availability : Availability := .answering

namespace ConfigSource

def ofRecords (records : List Value) : ConfigSource := ⟨.ok records, .answering⟩

/-- Every label asked for is there with a value that agrees; one that is missing counts as null. -/
def carries (labels : Table String Value) (record : Value) : Result Bool := do
  let own ← ConfigRecord.labels record
  if labels.isEmpty || own.isMap then
    .ok (labels.all fun (key, wanted) => (own.lookup (.str key)).agrees wanted)
  else .error .noSuchMember

/-- The records that carry the labels, in their order. -/
def filterCarrying (labels : Table String Value) : List Value → Result (List Value)
  | [] => .ok []
  | record :: rest => do
    let found ← carries labels record
    let others ← filterCarrying labels rest
    .ok (if found then record :: others else others)

def select (source : ConfigSource) (labels : Table String Value) : Result (List Value) := do
  filterCarrying labels (← source.records)

end ConfigSource
end WorkloadConfig
