import WorkloadConfig.Proofs.Directories
import WorkloadConfig.Proofs.Order.Passes
import WorkloadConfig.Proofs.Storing

namespace WorkloadConfig

/-- What a store can be asked. -/
inductive Call
  | publish (r : Record)
  | read (ns name : String)
  | get (ns name : String)

inductive Answer
  | published (outcome : Result Record)
  | held (outcome : Result (Option Record))
  | shown (outcome : Result (Option Target))

namespace OutputStore
variable {σ : Type} [OutputStore σ]

def answer (s : σ) : Call → Answer × σ
  | .publish r => let (outcome, s) := publish s r; (.published outcome, s)
  | .read ns name => (.held (read s ns name), s)
  | .get ns name => let (outcome, s) := TargetLookup.get s ns name; (.shown outcome, s)

/-- The answers to calls one after the other. The store is told the moment of each. -/
def answers (tell : σ → String → σ) (s : σ) : List (String × Call) → List Answer
  | [] => []
  | (now, call) :: later =>
    let (given, s) := answer (tell s now) call
    given :: answers tell s later

end OutputStore

/-- The history of a store: all records that were published, the last one at the end. -/
structure Ledger where
  published : List Record := []

namespace Ledger

def under (l : Ledger) (ns name : String) : List Record :=
  l.published.filter fun r => r.ns = ns && r.name = name

/-- The last record under the name, its generation being how many there were. -/
def read (l : Ledger) (ns name : String) : Option Record :=
  (l.under ns name).getLast?.map fun r => { r with generation := (l.under ns name).length }

def publish (l : Ledger) (r : Record) : Record × Ledger :=
  let later : Ledger := ⟨l.published ++ [r]⟩
  ({ r with generation := (later.under r.ns r.name).length }, later)

end Ledger

instance : OutputStore Ledger where
  get l ns name := (.ok ((l.read ns name).map Target.ofRecord), l)
  read l ns name := .ok (l.read ns name)
  publish l r := let (stored, l) := l.publish r; (.ok stored, l)

namespace Ledger
variable (l : Ledger) (r : Record)

theorem under_publish_self : (l.publish r).2.under r.ns r.name = l.under r.ns r.name ++ [r] := by
  simp [publish, under]

theorem under_publish_of_ne {ns name : String} (other : (ns, name) ≠ (r.ns, r.name)) :
    (l.publish r).2.under ns name = l.under ns name := by
  have notUnder : (decide (r.ns = ns) && decide (r.name = name)) = false := by
    simp only [Bool.and_eq_false_iff, decide_eq_false_iff_not]
    exact Decidable.not_and_iff_not_or_not.mp fun same => other (Prod.ext same.1.symm same.2.symm)
  simp only [publish, under, List.filter_append, List.filter_cons, notUnder, List.filter_nil,
    Bool.false_eq_true, if_false, List.append_nil]

theorem length_under_le (ns name : String) : (l.under ns name).length ≤ l.published.length :=
  List.length_filter_le _ _

theorem publish_fst : (l.publish r).1 = { r with generation := (l.under r.ns r.name).length + 1 } := by
  have length : ((l.publish r).2.under r.ns r.name).length = (l.under r.ns r.name).length + 1 := by
    rw [under_publish_self, List.length_append, List.length_singleton]
  exact congrArg (fun count : Nat => { r with generation := count }) length

theorem read_publish_self : (l.publish r).2.read r.ns r.name = some (l.publish r).1 := by
  simp only [read, publish_fst, under_publish_self, List.getLast?_concat, Option.map_some,
    List.length_append, List.length_singleton, Int.natCast_succ]

theorem read_publish_of_ne {ns name : String} (other : (ns, name) ≠ (r.ns, r.name)) :
    (l.publish r).2.read ns name = l.read ns name := by
  simp only [read, under_publish_of_ne l r other]

/-- The record published last has one generation more than the one held before it. -/
theorem following_read : r.following (l.read r.ns r.name) = (l.publish r).1 := by
  rw [publish_fst, read]
  cases last : (l.under r.ns r.name).getLast? with
  | none =>
    rw [List.getLast?_eq_none_iff.mp last]
    rfl
  | some old => rfl

end Ledger

namespace MemoryStore

/-- The store holds what the history says. -/
def Follows (s : MemoryStore) (l : Ledger) : Prop :=
  ∀ ns name, s.read ns name = l.read ns name

theorem Follows.publish {s : MemoryStore} {l : Ledger} (follows : s.Follows l) (r : Record) :
    (s.publish r).1 = (l.publish r).1 ∧ (s.publish r).2.Follows (l.publish r).2 := by
  have stored : (s.publish r).1 = (l.publish r).1 := by
    rw [← l.following_read r, ← follows]
    rfl
  refine ⟨stored, fun ns name => ?_⟩
  by_cases same : (ns, name) = (r.ns, r.name)
  · obtain ⟨rfl, rfl⟩ := Prod.mk.inj same
    rw [l.read_publish_self r, ← stored]
    exact Table.find?_put_self _ _ _
  · rw [l.read_publish_of_ne r same, ← follows]
    exact Table.find?_put_of_ne _ _ same

theorem Follows.answer {s : MemoryStore} {l : Ledger} (follows : s.Follows l) (call : Call) :
    (OutputStore.answer s call).1 = (OutputStore.answer l call).1 ∧
      (OutputStore.answer s call).2.Follows (OutputStore.answer l call).2 := by
  cases call with
  | publish r =>
    obtain ⟨stored, later⟩ := follows.publish r
    exact ⟨congrArg (Answer.published ∘ .ok) stored, later⟩
  | read ns name => exact ⟨congrArg (Answer.held ∘ .ok) (follows ns name), follows⟩
  | get ns name =>
    exact ⟨congrArg (fun held : Option Record => Answer.shown (.ok (held.map .ofRecord)))
      (follows ns name), follows⟩

/-- What a memory store answers does not depend on the moment, and is what the history tells. -/
theorem answers_eq {s : MemoryStore} {l : Ledger} (follows : s.Follows l)
    (calls : List (String × Call)) :
    OutputStore.answers (fun s _ => s) s calls = OutputStore.answers (fun l _ => l) l calls := by
  induction calls generalizing s l with
  | nil => rfl
  | cons first later ih =>
    obtain ⟨same, next⟩ := follows.answer first.2
    simp only [OutputStore.answers]
    rw [same, ih next]

end MemoryStore

/-- Both calls succeed; what is published is the same, and what is read differs at most in the order
of entries. -/
inductive Answer.Agrees : Answer → Answer → Prop
  | published (r : Record) : Agrees (.published (.ok r)) (.published (.ok r))
  | held {a b : Option Record} : Option.Rel Record.Reordered a b → Agrees (.held (.ok a)) (.held (.ok b))
  | shown {a b : Option Target} :
      Option.Rel (fun a b => a.Reordered b ∧ a.ns = b.ns ∧ a.name = b.name) a b →
      Agrees (.shown (.ok a)) (.shown (.ok b))

/-- The text is a document of the record, which is within the limits of its reader. -/
structure Record.IsWritten (limits : Json.Limits) (text : String) (r : Record) : Prop where
  storable : r.IsStorable
  fits : r.Fits limits
  document : ∃ now, Moment.textFlaw? now = none ∧ r.document now = .ok text

namespace DirectoryStore
variable {limits : Json.Limits} {s : DirectoryStore limits} {place : Place} {l : Ledger}

/-- The root hosts the documents of the records that the history says are held. -/
def Follows (s : DirectoryStore limits) (place : Place) (l : Ledger) : Prop :=
  s.Holds place (Record.IsWritten limits) l.read

namespace Follows
variable (follows : s.Follows place l) (ns name : DnsLabel)
include follows

theorem read : ∃ held, s.read ns.text name.text = .ok held ∧
    Option.Rel Record.Reordered (l.read ns.text name.text) held := by
  rw [read_hosted follows.hosts]
  rcases rel_cases (follows.documents ns name) with ⟨one, two⟩ | ⟨text, r, one, two, written⟩
  · rw [one, two]
    exact ⟨none, rfl, .none⟩
  · obtain ⟨now, moment, document⟩ := written.document
    obtain ⟨r', comes, same⟩ :=
      Record.ofDocument_document written.storable written.fits moment document
    refine ⟨some r', ?_, two ▸ .some same⟩
    simp only [one, comes]

theorem publish {r : Record} (atNs : r.ns = ns.text) (atName : r.name = name.text)
    (storable : r.IsStorable) (fits : (l.publish r).1.Fits limits)
    (writable : (l.publish r).1.IsWritable) (moment : Moment.textFlaw? s.now = none) :
    ∃ s', s.publish r = (.ok (l.publish r).1, s') ∧ s'.Follows place (l.publish r).2 := by
  obtain ⟨held, reads, same⟩ := follows.read ns name
  obtain ⟨t, published, -⟩ := publish_hosted follows.hosts atNs atName follows.free
  have stored : r.following held = (l.publish r).1 := by
    rw [← l.following_read r, atNs, atName, Turn.following_eq same]
  have storable : (l.publish r).1.IsStorable := ⟨storable.outputs, storable.data⟩
  have document := ((l.publish r).1.document_eq_ok s.now storable).mpr ⟨writable, rfl⟩
  have published : s.publish r = (.ok (l.publish r).1, { s with tree := t }) := by
    rw [published, following?, atNs, atName, reads, Result.ok_bind, stored, document]
    rfl
  refine ⟨_, published, follows.published atNs atName published ?_ ?_ ?_⟩
  · exact fun text written => ⟨storable, fits, s.now, moment, written⟩
  · rw [← atNs, ← atName, l.read_publish_self r]
  · intro ns' name' other
    rw [l.read_publish_of_ne r (by rwa [atNs, atName])]

end Follows

/-- The root follows the history, or nothing has been published and the root is fresh. -/
def Mirrors (s : DirectoryStore limits) (place : Place) (l : Ledger) : Prop :=
  s.Follows place l ∨ s.IsFresh place ∧ l = {}

namespace Mirrors

theorem tell (mirrors : s.Mirrors place l) (now : String) : (s.tell now).Mirrors place l :=
  mirrors.imp (·.tell now) fun unused => ⟨unused.1.tell now, unused.2⟩

theorem read (mirrors : s.Mirrors place l) (ns name : DnsLabel) :
    ∃ held, s.read ns.text name.text = .ok held ∧
      Option.Rel Record.Reordered (l.read ns.text name.text) held := by
  rcases mirrors with follows | ⟨fresh, rfl⟩
  · exact follows.read ns name
  · cases made : s.tree.isDirectory s.root with
    | true =>
      have follows : s.rooted.Follows place {} := fresh.holds _
      rw [rooted_eq made] at follows
      exact follows.read ns name
    | false => exact ⟨none, fresh.read_eq made ns name, .none⟩

theorem publish (mirrors : s.Mirrors place l) {r : Record} {ns name : DnsLabel}
    (atNs : r.ns = ns.text) (atName : r.name = name.text) (storable : r.IsStorable)
    (fits : (l.publish r).1.Fits limits) (writable : (l.publish r).1.IsWritable)
    (moment : Moment.textFlaw? s.now = none) :
    ∃ s', s.publish r = (.ok (l.publish r).1, s') ∧ s'.Mirrors place (l.publish r).2 := by
  rcases mirrors with follows | ⟨fresh, rfl⟩
  · obtain ⟨s', published, next⟩ := follows.publish ns name atNs atName storable fits writable moment
    exact ⟨s', published, .inl next⟩
  · have follows : s.rooted.Follows place {} := fresh.holds _
    obtain ⟨s', published, next⟩ := follows.publish ns name atNs atName storable fits writable moment
    exact ⟨s', (fresh.publish_eq atNs atName).trans published, .inl next⟩

end Mirrors
end DirectoryStore

/-- The call names an instance, and what it publishes has a form in storage. -/
def Call.IsProper : Call → Prop
  | .publish r => (∃ ns name : DnsLabel, r.ns = ns.text ∧ r.name = name.text) ∧ r.IsStorable ∧
      (Value.ofTable r.outputs).isWritable = true
  | .read ns name | .get ns name => ∃ ns' name' : DnsLabel, ns = ns'.text ∧ name = name'.text

namespace DirectoryStore
variable {s : DirectoryStore { depth := none }} {place : Place} {l : Ledger}

/-- A directory store that mirrors the history answers as it does, and goes on to mirror it. -/
theorem Mirrors.answer (mirrors : s.Mirrors place l) (moment : Moment.textFlaw? s.now = none)
    (room : l.published.length + 1 < decimalBound digitLimit) {call : Call} (proper : call.IsProper) :
    (OutputStore.answer l call).1.Agrees (OutputStore.answer s call).1 ∧
      (OutputStore.answer s call).2.Mirrors place (OutputStore.answer l call).2 ∧
      (OutputStore.answer l call).2.published.length ≤ l.published.length + 1 := by
  cases call with
  | publish r =>
    obtain ⟨⟨ns, name, atNs, atName⟩, storable, outputs⟩ := proper
    have writable : (l.publish r).1.IsWritable := by
      rw [l.publish_fst, Record.isWritable_iff]
      have count := l.length_under_le r.ns r.name
      exact ⟨outputs, by show (l.under r.ns r.name).length + 1 < _; omega⟩
    have fits : (l.publish r).1.Fits { depth := none } := Json.isWithin_of_isWritable writable 0
    obtain ⟨s', published, next⟩ := mirrors.publish atNs atName storable fits writable moment
    have answered : OutputStore.answer s (.publish r) = (.published (.ok (l.publish r).1), s') := by
      simp only [OutputStore.answer, OutputStore.publish, published]
    rw [answered]
    exact ⟨.published _, next, by simp [OutputStore.answer, OutputStore.publish, Ledger.publish]⟩
  | read ns name =>
    obtain ⟨ns', name', rfl, rfl⟩ := proper
    obtain ⟨held, reads, same⟩ := mirrors.read ns' name'
    have answered : (OutputStore.answer s (.read ns'.text name'.text)).1 = .held (.ok held) :=
      congrArg Answer.held reads
    rw [answered]
    exact ⟨.held same, mirrors, Nat.le_succ _⟩
  | get ns name =>
    obtain ⟨ns', name', rfl, rfl⟩ := proper
    obtain ⟨held, reads, same⟩ := mirrors.read ns' name'
    have answered : (OutputStore.answer s (.get ns'.text name'.text)).1 =
        .shown (.ok (held.map .ofRecord)) := by
      simp only [OutputStore.answer, TargetLookup.get, reads]
      rfl
    rw [answered]
    refine ⟨.shown ?_, mirrors, Nat.le_succ _⟩
    rcases rel_cases same with ⟨one, two⟩ | ⟨r, r', one, two, related⟩
    · rw [one, two]
      exact .none
    · rw [one, two]
      exact .some ⟨related.target, related.ns, related.name⟩

theorem Mirrors.answers (mirrors : s.Mirrors place l) {calls : List (String × Call)}
    (room : l.published.length + calls.length < decimalBound digitLimit)
    (proper : ∀ call ∈ calls, Moment.textFlaw? call.1 = none ∧ call.2.IsProper) :
    List.Forall₂ Answer.Agrees (OutputStore.answers (fun l _ => l) l calls)
      (OutputStore.answers DirectoryStore.tell s calls) := by
  induction calls generalizing s l with
  | nil => exact .nil
  | cons first later ih =>
    obtain ⟨⟨moment, asked⟩, rest⟩ := List.forall_mem_cons.mp proper
    rw [List.length_cons] at room
    obtain ⟨agrees, next, grown⟩ := (mirrors.tell first.1).answer moment (by omega) asked
    have answered := ih next (by omega) rest
    exact .cons agrees answered

/-- Whatever is asked of a memory store and of a directory store with a fresh root, one call after the
other, both answer as the history of the publications does, as long as no number has too many digits
to be written: none within the outputs, and not that of the calls, which bounds the generations. The
reader of documents takes any depth. -/
theorem answers_agree (fresh : s.IsFresh place) {calls : List (String × Call)}
    (few : calls.length < decimalBound digitLimit)
    (proper : ∀ call ∈ calls, Moment.textFlaw? call.1 = none ∧ call.2.IsProper) :
    OutputStore.answers (fun s _ => s) ({} : MemoryStore) calls =
        OutputStore.answers (fun l _ => l) ({} : Ledger) calls ∧
      List.Forall₂ Answer.Agrees (OutputStore.answers (fun s _ => s) ({} : MemoryStore) calls)
        (OutputStore.answers DirectoryStore.tell s calls) := by
  have told := MemoryStore.answers_eq (s := {}) (l := {}) (fun _ _ => rfl) calls
  refine ⟨told, ?_⟩
  rw [told]
  exact Mirrors.answers (.inr ⟨fresh, rfl⟩) (by simpa using few) proper

/-- A record of the instance `team/web` with the outputs. -/
def ofOutputs (outputs : Table String Value) : Record where
  kind := "App"
  ns := "team"
  name := "web"
  outputs
  connection := ⟨"web-conn", [("password", "s3cret")]⟩
  generation := 7

/-- Two publications under a root that is not there. -/
theorem answers_agree_ofPublications :
    let s := ofNothing { depth := none }
    let r := ofOutputs [("text", .str "ü\u0001"), ("parts", .list [
      .int 1000000000000000000000000000000, .map [("half", .float ⟨false, 1022, 0⟩)]])]
    let now := "2026-01-02T03:04:05Z"
    let calls := [(now, .get "team" "web"), (now, .publish r), (now, .publish r),
      (now, Call.read "team" "web")]
    s.IsFresh ["outputs"] ∧ calls.length < decimalBound digitLimit ∧
      (∀ call ∈ calls, Moment.textFlaw? call.1 = none ∧ call.2.IsProper) ∧
      OutputStore.answers (fun l _ => l) ({} : Ledger) calls = [.shown (.ok none),
        .published (.ok { r with generation := 1 }), .published (.ok { r with generation := 2 }),
        .held (.ok (some { r with generation := 2 }))] ∧
      OutputStore.answers (fun s _ => s) ({} : MemoryStore) calls =
        OutputStore.answers (fun l _ => l) ({} : Ledger) calls ∧
      List.Forall₂ Answer.Agrees (OutputStore.answers (fun s _ => s) ({} : MemoryStore) calls)
        (OutputStore.answers DirectoryStore.tell s calls) := by
  intro s r now calls
  have fresh : s.IsFresh ["outputs"] := isFresh_ofNothing { depth := none }
  have few : calls.length < decimalBound digitLimit := by decide +kernel
  have moment : Moment.textFlaw? now = none := by decide +kernel
  have labelled : ∃ ns name : DnsLabel, "team" = ns.text ∧ "web" = name.text :=
    ⟨⟨"team", by decide, by decide⟩, ⟨"web", by decide, by decide⟩, rfl, rfl⟩
  have storable : r.IsStorable := by
    have half : Json.ReadsBack ⟨false, 1022, 0⟩ := ⟨by decide, by decide +kernel⟩
    have entry : (Value.map [("half", .float ⟨false, 1022, 0⟩)]).IsJson :=
      .map (by decide) (by decide) (by simpa using .scalar half)
    have number : (Value.int 1000000000000000000000000000000).IsJson := .scalar trivial
    have text : (Value.str "ü\u0001").IsJson := .scalar trivial
    refine ⟨.map (by decide) (by decide) ?_, by decide⟩
    simpa [r, ofOutputs, Table.keyed, text] using Value.IsJson.list (by simpa using ⟨number, entry⟩)
  have writable : (Value.ofTable r.outputs).isWritable = true := by decide +kernel
  have proper : ∀ call ∈ calls, Moment.textFlaw? call.1 = none ∧ call.2.IsProper := by
    simp only [calls, List.forall_mem_cons, List.not_mem_nil, false_implies, implies_true, and_true]
    have published : (Call.publish r).IsProper := ⟨labelled, storable, writable⟩
    exact ⟨⟨moment, labelled⟩, ⟨moment, published⟩, ⟨moment, published⟩, moment, labelled⟩
  exact ⟨fresh, few, proper, rfl, answers_agree fresh few proper⟩

/-- An output that is an integer of 5001 digits can be held in memory, but not written. -/
theorem not_answers_agree_ofDigits :
    let s := ofNothing { depth := none }
    let r := ofOutputs [("count", .int (Nat.pow 10 5000))]
    let calls := [("2026-01-02T03:04:05Z", Call.publish r)]
    s.IsFresh ["outputs"] ∧ r.IsStorable ∧
      OutputStore.answers (fun s _ => s) ({} : MemoryStore) calls =
        [.published (.ok { r with generation := 1 })] ∧
      OutputStore.answers DirectoryStore.tell s calls = [.published (.error .tooLong)] ∧
      ¬ List.Forall₂ Answer.Agrees (OutputStore.answers (fun s _ => s) ({} : MemoryStore) calls)
        (OutputStore.answers DirectoryStore.tell s calls) := by
  intro s r calls
  have storable : r.IsStorable := by
    have number : (Value.int (Nat.pow 10 5000)).IsJson := .scalar trivial
    refine ⟨.map (by decide) (by decide) ?_, by decide⟩
    rintro entry member
    rw [List.mem_singleton.mp member]
    exact number
  have refused : ((s.tell "2026-01-02T03:04:05Z").publish r).1 = .error .tooLong := by decide +kernel
  have answered : OutputStore.answers DirectoryStore.tell s calls = [.published (.error .tooLong)] := by
    show [Answer.published ((s.tell "2026-01-02T03:04:05Z").publish r).1] = _
    rw [refused]
  have held : OutputStore.answers (fun s _ => s) ({} : MemoryStore) calls =
    [.published (.ok { r with generation := 1 })] := rfl
  refine ⟨isFresh_ofNothing _, storable, held, answered, ?_⟩
  rw [held, answered]
  rintro (_ | ⟨⟨⟩, _⟩)

end DirectoryStore
end WorkloadConfig
