import WorkloadConfig.Store.Basic

namespace WorkloadConfig

/-- A store that holds its records itself and counts the lookups of each name. -/
structure MemoryStore where
  records : Table (String × String) Record := []
  lookups : Table (String × String) Nat := []

namespace MemoryStore

def read (s : MemoryStore) (ns name : String) : Option Record :=
  s.records.find? (ns, name)

def counted (s : MemoryStore) (ns name : String) : MemoryStore :=
  { s with lookups := s.lookups.put (ns, name) ((s.lookups.find? (ns, name)).getD 0 + 1) }

def get (s : MemoryStore) (ns name : String) : Option Target × MemoryStore :=
  ((s.read ns name).map Target.ofRecord, s.counted ns name)

def publish (s : MemoryStore) (r : Record) : Record × MemoryStore :=
  let stored := r.following (s.read r.ns r.name)
  (stored, { s with records := s.records.put (r.ns, r.name) stored })

end MemoryStore

instance : OutputStore MemoryStore where
  get s ns name := let (found, s) := s.get ns name; (.ok found, s)
  read s ns name := .ok (s.read ns name)
  publish s r := let (stored, s) := s.publish r; (.ok stored, s)

end WorkloadConfig
