import WorkloadConfig.Proofs.Refinement

namespace WorkloadConfig

namespace Location

/-- The path does not begin at the root of all files and never leads up. -/
structure StaysBelow (path : String) : Prop where
  relative : path.toList.head? ≠ some '/'
  down : ".." ∉ partsOf path

/-- The name that remains of a path, if it is the only one. -/
def onlyName? (path : String) : Option String :=
  match partsOf path with
  | [name] => some name
  | _ => none

theorem onlyName?_eq_some {path name : String} : onlyName? path = some name ↔ partsOf path = [name] := by
  unfold onlyName?
  split
  · rename_i parts
    simp [parts]
  · rename_i notOne
    simp only [reduceCtorEq, false_iff]
    exact notOne name

theorem isName_document {name : String} (plain : '/' ∉ name.toList) : IsName (name ++ ".json") := by
  have apart (other : String) (ending : other.toList.getLast? ≠ some 'n') : name ++ ".json" ≠ other := by
    rintro rfl
    simp at ending
  exact ⟨by simp [plain], apart "" (by decide), apart "." (by decide), apart ".." (by decide)⟩

end Location

namespace Stored
variable {names : List String} {text : String}

theorem of_file (stored : Stored names (.file text)) : ∃ ns name : DnsLabel,
    ∃ suffix ∈ recordSuffixes, names = [ns.text, name.text ++ ".json" ++ suffix] := by
  cases stored with
  | file ns name text within => exact ⟨ns, name, _, within, rfl⟩

/-- Of the files of records only documents have a name with the ending of one. -/
theorem of_document {parts : List String} {file : String}
    (stored : Stored (parts ++ [file ++ ".json"]) (.file text)) :
    ∃ ns name : DnsLabel, parts = [ns.text] ∧ file = name.text := by
  obtain ⟨ns, name, suffix, within, names⟩ := stored.of_file
  have split : parts ++ [file ++ ".json"] = [ns.text] ++ [name.text ++ ".json" ++ suffix] := names
  obtain ⟨parts, last⟩ := List.append_inj' split rfl
  rw [List.cons.injEq] at last
  have ends := congrArg (fun name : String => name.toList.getLast?) last.1
  simp only [recordSuffixes, List.mem_cons, List.not_mem_nil, or_false] at within
  rcases within with rfl | rfl | rfl
  · rw [String.append_empty] at last
    exact ⟨ns, name, parts, (String.append_left_inj ".json").mp last.1⟩
  · simp at ends
  · simp at ends

end Stored

namespace FileTree
variable {t : FileTree} {root : Location} {place : Place} {names : List String} {text : String}

/-- What can be read below the root of a tree that hosts records belongs to one. -/
theorem Hosts.stored_of_read (hosts : t.Hosts root place) (given : names ≠ [])
    (down : ".." ∉ names) (reads : t.read (root.below names) = .ok text) :
    Stored names (.file text) ∧ t.text? (place ++ names) = some text := by
  obtain ⟨there, atThere, holds⟩ := read_eq_ok.mp reads
  have same : root.place?.map (· ++ names) = some there := by
    rw [← Location.place?_below_of_down root down, place?_of_placeOf atThere]
  rw [place?_of_placeOf hosts.there, Option.map_some, Option.some.injEq] at same
  subst same
  exact ⟨hosts.stored names _ given (text?_eq_some.mp holds), holds⟩

theorem placeOf_eq_error {l : Location} {failure : Failure} (failed : t.placeOf l = .error failure) :
    (∃ e, failure = .file e) ∨ l.hasNul = true ∧ failure = .nulInPath false := by
  unfold placeOf refuse at failed
  split at failed
  · rename_i noNul
    cases failed
    exact .inr ⟨noNul, rfl⟩
  · left
    split at failed
    · cases failed
      exact ⟨_, rfl⟩
    · split at failed
      · cases failed
        exact ⟨_, rfl⟩
      · split at failed
        · cases failed
        · cases failed
          exact ⟨_, rfl⟩

/-- Reading is refused by the files unless the path has no meaning to them. -/
theorem read_eq_error {l : Location} {failure : Failure} (failed : t.read l = .error failure) :
    (∃ e, failure = .file e) ∨ l.hasNul = true ∧ failure = .nulInPath false := by
  unfold read at failed
  cases there : t.placeOf l with
  | error refusal =>
    rw [there] at failed
    cases failed
    exact placeOf_eq_error there
  | ok place =>
    rw [there, Result.ok_bind] at failed
    split at failed
    · cases failed
    · cases failed
      exact .inl ⟨_, rfl⟩
    · cases failed
      exact .inl ⟨_, rfl⟩

end FileTree

namespace Ledger

/-- The record published last under the name. -/
def latest (l : Ledger) (ns name : String) : Option Record :=
  (l.under ns name).getLast?

/-- The history after a publication with the outcome. -/
def noting (l : Ledger) : Result Record → Ledger
  | .ok stored => (l.publish stored).2
  | .error _ => l

theorem latest_publish_self (l : Ledger) (r : Record) :
    (l.publish r).2.latest r.ns r.name = some r := by
  rw [latest, under_publish_self, List.getLast?_concat]

theorem latest_publish_of_ne (l : Ledger) (r : Record) {ns name : String}
    (other : (ns, name) ≠ (r.ns, r.name)) : (l.publish r).2.latest ns name = l.latest ns name := by
  rw [latest, under_publish_of_ne l r other, latest]

theorem mem_of_latest {l : Ledger} {ns name : String} {r : Record}
    (latest : l.latest ns name = some r) : r ∈ l.published ∧ r.ns = ns ∧ r.name = name := by
  have member := List.mem_of_getLast? latest
  simpa [under] using member

end Ledger

/-- What a lookup of a document may come to when these are the records that were stored. A target is
of the record stored last under the one name that remains of the namespace; there is none only where
no record was stored, and a record that JSON has a form for is unusable only if it is beyond the
limits of its reader. -/
inductive Ledger.Justifies (l : Ledger) (limits : Json.Limits) (document : Location)
    (ns name : String) : Result (Option Target) → Prop
  | target {target : Target} {r : Record} : Location.onlyName? ns = some target.ns →
      target.name = name → l.latest target.ns name = some r →
      (r.IsStorable → (Target.ofRecord r).Reordered target) →
      Justifies l limits document ns name (.ok (some target))
  | none : (∀ ns', Location.onlyName? ns = some ns' → l.latest ns' name = Option.none) →
      Justifies l limits document ns name (.ok Option.none)
  | unusable {flaw : StoreFlaw} : (∀ ns' r, Location.onlyName? ns = some ns' →
      l.latest ns' name = some r → r.IsStorable → ¬ r.Fits limits) →
      Justifies l limits document ns name (Result.fail (.store document.text flaw))
  | noPath : document.hasNul = true →
      Justifies l limits document ns name (.error (.nulInPath false))

namespace Record

/-- What JSON can hold of the outputs comes back from it, and no key of the data is there twice. -/
structure IsHoldable (r : Record) : Prop where
  outputs : ∀ held, (Value.ofTable r.outputs).asJson = .ok held → held.IsJson
  data : r.connection.data.keys.Nodup

/-- The text is a document of the record. -/
structure IsHeld (text : String) (r : Record) : Prop where
  holdable : r.IsHoldable
  document : ∃ now, Moment.textFlaw? now = none ∧ r.document now = .ok text

/-- The document of a record is read as a record of the same name, and as the same record if JSON has
a form for it. -/
theorem IsHeld.of_ofDocument {text : String} {r r' : Record} {limits : Json.Limits}
    (held : IsHeld text r) (read : ofDocument limits text = .ok r') :
    r'.ns = r.ns ∧ r'.name = r.name ∧ (r.IsStorable → r.Reordered r') := by
  obtain ⟨now, moment, written⟩ := held.document
  obtain ⟨outputs, asJson⟩ := exists_outputs_of_document written
  have json := held.holdable.outputs _ asJson
  have storable : ({ r with outputs } : Record).IsStorable := ⟨json, held.holdable.data⟩
  have same := reordered_of_ofDocument storable moment
    ((document_of_asJson asJson json now).trans written) read
  exact ⟨same.ns.symm, same.name.symm, fun storable =>
    reordered_of_ofDocument storable moment written read⟩

end Record

namespace DirectoryStore
variable {limits : Json.Limits} {s s' : DirectoryStore limits} {place : Place} {l : Ledger}

/-- The store has been reached from a fresh root by publications, each at a moment of its own, and
these are the records that were stored. -/
inductive Reached (place : Place) : DirectoryStore limits → Ledger → Prop
  | fresh {s : DirectoryStore limits} : s.IsFresh place → Reached place s {}
  | publish {s s' : DirectoryStore limits} {l : Ledger} {r : Record} {outcome : Result Record}
      {ns name : DnsLabel} (now : String) :
      Reached place s l → r.ns = ns.text → r.name = name.text → r.IsHoldable →
      Moment.textFlaw? now = none → (s.tell now).publish r = (outcome, s') →
      Reached place s' (l.noting outcome)

/-- The root holds the records stored last under their names, all of which have labels for names. -/
structure Confined (s : DirectoryStore limits) (place : Place) (l : Ledger) : Prop where
  holds : s.Holds place Record.IsHeld l.latest ∨ s.IsFresh place ∧ l = {}
  labelled : ∀ r ∈ l.published, ∃ ns name : DnsLabel, r.ns = ns.text ∧ r.name = name.text

theorem following_of_published {r stored : Record} (published : s.publish r = (.ok stored, s')) :
    ∃ held, stored = r.following held := by
  obtain ⟨_, held, _, _, _, _, -, same, -⟩ := publish_ok_files published
  exact ⟨held, same⟩

theorem Confined.tell (confined : s.Confined place l) (now : String) : (s.tell now).Confined place l :=
  ⟨confined.holds.imp (·.tell now) fun unused => ⟨unused.1.tell now, unused.2⟩, confined.labelled⟩

theorem Confined.publish (confined : s.Confined place l) {r : Record} {outcome : Result Record}
    {ns name : DnsLabel} (atNs : r.ns = ns.text) (atName : r.name = name.text)
    (holdable : r.IsHoldable) (moment : Moment.textFlaw? s.now = none)
    (published : s.publish r = (outcome, s')) : s'.Confined place (l.noting outcome) := by
  have opened : ∃ s₁ : DirectoryStore limits, s₁.now = s.now ∧ s₁.publish r = (outcome, s') ∧
      s₁.Holds place Record.IsHeld l.latest := by
    rcases confined.holds with holds | ⟨fresh, rfl⟩
    · exact ⟨s, rfl, published, holds⟩
    · exact ⟨s.rooted, rfl, (fresh.publish_eq atNs atName).symm.trans published, fresh.holds _⟩
  obtain ⟨s₁, sameNow, published, holds⟩ := opened
  cases outcome with
  | error failure => exact ⟨.inl (holds.refused atNs atName published), confined.labelled⟩
  | ok stored =>
    obtain ⟨held, rfl⟩ := following_of_published published
    refine ⟨.inl (holds.published atNs atName published ?_ ?_ ?_), ?_⟩
    · exact fun text written =>
        ⟨⟨holdable.outputs, holdable.data⟩, s.now, moment, by rw [← sameNow, written]⟩
    · rw [← atNs, ← atName]
      exact l.latest_publish_self (r.following held)
    · intro ns' name' other
      exact l.latest_publish_of_ne (r.following held) (by rw [← atNs, ← atName] at other; exact other)
    · intro r' member
      rcases List.mem_append.mp member with old | new
      · exact confined.labelled r' old
      · rw [List.mem_singleton.mp new]
        exact ⟨ns, name, atNs, atName⟩

theorem Reached.confined (reached : Reached place s l) : s.Confined place l := by
  induction reached with
  | fresh isFresh => exact ⟨.inr ⟨isFresh, rfl⟩, fun _ member => absurd member List.not_mem_nil⟩
  | publish now _ atNs atName holdable moment published ih =>
    exact (ih.tell now).publish atNs atName holdable moment published

theorem documentAt_below_of_staysBelow (s : DirectoryStore limits) {ns name : String}
    (below : Location.StaysBelow ns) (plain : '/' ∉ name.toList) :
    s.documentAt ns name = s.root.below (Location.partsOf ns ++ [name ++ ".json"]) := by
  rw [documentAt, Location.join_of_isName _ (Location.isName_document plain), Location.join,
    if_neg below.relative, List.append_assoc]
  rfl

/-- If the path of a namespace has one name left, the document is that of the name. -/
theorem documentAt_of_partsOf (s : DirectoryStore limits) {ns : String} (ns' name : DnsLabel)
    (below : Location.StaysBelow ns) (only : Location.partsOf ns = [ns'.text]) :
    s.documentAt ns name.text = s.documentAt ns'.text name.text := by
  rw [documentAt_below_of_staysBelow s below (by simpa using name.isName.plain), only, documentAt_eq]
  rfl

theorem read_congr {ns name ns' name' : String}
    (same : s.documentAt ns name = s.documentAt ns' name') : s.read ns name = s.read ns' name' := by
  simp only [read, same]

namespace Confined
variable (confined : s.Confined place l) {names : List String} {text : String}
include confined

/-- Where something can be read below the root, the root is there. -/
theorem holds_of_read (given : names ≠ []) (reads : s.tree.read (s.root.below names) = .ok text) :
    s.Holds place Record.IsHeld l.latest := by
  rcases confined.holds with holds | ⟨fresh, rfl⟩
  · exact holds
  · obtain ⟨there, atThere, -⟩ := FileTree.read_eq_ok.mp reads
    have made : s.tree.isDirectory s.root = true := by
      refine (FileTree.isDirectory_or_missing fresh.made).resolve_right fun missing => ?_
      obtain ⟨noNul, short, -⟩ := FileTree.placeOf_eq_ok.mp atThere
      rw [Location.length_below] at short
      have clean : names.any (·.toList.contains '\x00') = false := by
        rw [Location.hasNul, Location.below, List.any_append, Bool.or_eq_false_iff] at noNul
        exact noNul.2
      rw [missing names given clean short] at atThere
      cases atThere
    have holds : s.rooted.Holds place Record.IsHeld ({} : Ledger).latest := fresh.holds _
    rwa [rooted_eq made] at holds

/-- What is read below the root is the document of a record, under the one name that remains of the
namespace. -/
theorem latest_of_read {ns name : String} (below : Location.StaysBelow ns)
    (plain : '/' ∉ name.toList) (reads : s.tree.read (s.documentAt ns name) = .ok text) :
    ∃ ns', Location.onlyName? ns = some ns' ∧ ∃ r, l.latest ns' name = some r ∧ r.IsHeld text := by
  rw [documentAt_below_of_staysBelow s below plain] at reads
  have given : Location.partsOf ns ++ [name ++ ".json"] ≠ [] := by simp
  have down : ".." ∉ Location.partsOf ns ++ [name ++ ".json"] := by
    simpa [below.down] using (Location.isName_document plain).notParent.symm
  have holds := confined.holds_of_read given reads
  obtain ⟨stored, atPlace⟩ := holds.hosts.stored_of_read given down reads
  obtain ⟨ns', name', parts, rfl⟩ := stored.of_document
  have document : s.document? ns'.text name'.text = some text := by
    rw [document?_hosted holds.hosts, documentPlace, String.append_empty, ← atPlace, parts]
    rfl
  refine ⟨ns'.text, Location.onlyName?_eq_some.mpr parts, ?_⟩
  rcases rel_cases (holds.documents ns' name') with ⟨one, -⟩ | ⟨text', r, one, two, held⟩
  · rw [document] at one
    cases one
  · cases Option.some.inj (document.symm.trans one)
    exact ⟨r, two, held⟩

/-- The record stored last under the one name that remains of the namespace is what is read. -/
theorem read_of_latest {ns ns' name : String} {r : Record} (below : Location.StaysBelow ns)
    (only : Location.onlyName? ns = some ns') (latest : l.latest ns' name = some r) :
    ∃ text, r.IsHeld text ∧ s.read ns name = match Record.ofDocument limits text with
      | .ok record => .ok (some record)
      | .error report => Result.fail (.store (s.documentAt ns name).text (.invalidRecord report)) := by
  obtain ⟨member, rfl, rfl⟩ := Ledger.mem_of_latest latest
  obtain ⟨a, b, atNs, atName⟩ := confined.labelled r member
  rw [atNs, atName] at latest
  rw [atNs] at only
  have same := documentAt_of_partsOf s a b below (Location.onlyName?_eq_some.mp only)
  rw [atName, read_congr same, same]
  rcases confined.holds with holds | ⟨-, rfl⟩
  · rcases rel_cases (holds.documents a b) with ⟨-, two⟩ | ⟨text, r', one, two, held⟩
    · rw [latest] at two
      cases two
    · cases Option.some.inj (latest.symm.trans two)
      refine ⟨text, held, ?_⟩
      rw [read_hosted holds.hosts]
      exact one ▸ rfl
  · cases latest

end Confined

/-- A lookup that does not come to a target is told of none, of a file that cannot be used or of a
path that has no meaning to files. -/
theorem read_cases (s : DirectoryStore limits) (ns name : String) :
    (∃ text record, s.tree.read (s.documentAt ns name) = .ok text ∧
      Record.ofDocument limits text = .ok record ∧ s.read ns name = .ok (some record)) ∨
    s.read ns name = .ok none ∨
    (∃ flaw, s.read ns name = Result.fail (.store (s.documentAt ns name).text flaw)) ∨
    (s.documentAt ns name).hasNul = true ∧ s.read ns name = .error (.nulInPath false) := by
  cases reads : s.tree.read (s.documentAt ns name) with
  | ok text =>
    cases parsed : Record.ofDocument limits text with
    | ok record =>
      exact .inl ⟨text, record, rfl, parsed, by simp only [DirectoryStore.read, reads, parsed]⟩
    | error report =>
      exact .inr (.inr (.inl ⟨.invalidRecord report, by
        simp only [DirectoryStore.read, reads, parsed]⟩))
  | error failure =>
    rcases FileTree.read_eq_error reads with ⟨⟨refusal, path⟩, rfl⟩ | ⟨noNul, rfl⟩
    · have comes : s.read ns name = .ok none ∨ s.read ns name =
          Result.fail (.store (s.documentAt ns name).text (.file ⟨refusal, path⟩)) := by
        cases refusal <;> simp [DirectoryStore.read, reads, unusable]
      exact .inr (comes.imp_right fun refused => .inl ⟨_, refused⟩)
    · refine .inr (.inr (.inr ⟨noNul, ?_⟩))
      simp only [DirectoryStore.read, reads, unusable]

/-- A document that is read as no record is of a record that does not fit the reader. -/
theorem not_fits_of_ofDocument {text : String} {r : Record} {report : Report} (held : r.IsHeld text)
    (read : Record.ofDocument limits text = .error report) (storable : r.IsStorable) :
    ¬ r.Fits limits := by
  intro fits
  obtain ⟨now, moment, written⟩ := held.document
  obtain ⟨r', comes, -⟩ := Record.ofDocument_document storable fits moment written
  rw [comes] at read
  cases read

theorem Confined.justifies (confined : s.Confined place l) {ns name : String}
    (below : Location.StaysBelow ns) (plain : '/' ∉ name.toList) :
    l.Justifies limits (s.documentAt ns name) ns name
      ((·.map Target.ofRecord) <$> s.read ns name) := by
  by_cases held : ∃ ns' r, Location.onlyName? ns = some ns' ∧ l.latest ns' name = some r
  · obtain ⟨ns', r, only, latest⟩ := held
    obtain ⟨text, isHeld, reads⟩ := confined.read_of_latest below only latest
    obtain ⟨-, atNs, atName⟩ := Ledger.mem_of_latest latest
    rw [reads]
    cases parsed : Record.ofDocument limits text with
    | ok record =>
      obtain ⟨sameNs, sameName, same⟩ := isHeld.of_ofDocument parsed
      refine .target (r := r) ?_ (sameName.trans atName) ?_ fun storable => (same storable).target
      · exact only.trans (congrArg some (sameNs.trans atNs).symm)
      · show l.latest record.ns name = some r
        rw [sameNs, atNs, latest]
    | error report =>
      refine .unusable fun ns'' r' only' latest' storable => ?_
      cases Option.some.inj (only.symm.trans only')
      cases Option.some.inj (latest.symm.trans latest')
      exact not_fits_of_ofDocument isHeld parsed storable
  · have nothing : ∀ ns', Location.onlyName? ns = some ns' → l.latest ns' name = none :=
      fun ns' only => Option.eq_none_iff_forall_ne_some.mpr fun r latest => held ⟨ns', r, only, latest⟩
    rcases s.read_cases ns name with ⟨text, record, reads, -, -⟩ | read | ⟨flaw, read⟩ | ⟨nul, read⟩
    · obtain ⟨ns', only, r, latest, -⟩ := confined.latest_of_read below plain reads
      exact absurd ⟨ns', r, only, latest⟩ held
    · rw [read]
      exact .none nothing
    · rw [read]
      exact .unusable fun ns' r only latest => absurd ⟨ns', r, only, latest⟩ held
    · rw [read]
      exact .noPath nul

/-- Asked by a reference for a namespace that stays below the root, a store looks for the document
below the root, under what remains of the namespace, and answers what the history justifies. A target
is of the namespace asked for just when the namespace is a name itself. -/
theorem get_answers (reached : Reached place s l) {raw : String} {reference : Reference}
    (parsed : Reference.parse raw = .ok (some reference)) {ns : String}
    (below : Location.StaysBelow ns) :
    s.documentAt ns reference.target =
        s.root.below (Location.partsOf ns ++ [reference.target ++ ".json"]) ∧
      l.Justifies limits (s.documentAt ns reference.target) ns reference.target
        (TargetLookup.get s ns reference.target).1 ∧
      ∀ target, (TargetLookup.get s ns reference.target).1 = .ok (some target) →
        (target.ns = ns ↔ Location.IsName ns) := by
  have plain : '/' ∉ reference.target.toList := by
    have names := Reference.isPlain_of_parse parsed
    cases reference <;> exact names _ List.mem_cons_self
  have confined := reached.confined
  have justified := confined.justifies below plain
  refine ⟨documentAt_below_of_staysBelow s below plain, justified, fun target found => ?_⟩
  have shown : l.Justifies limits (s.documentAt ns reference.target) ns reference.target
      (.ok (some target)) := found ▸ justified
  cases shown with
  | target only _ latest _ =>
    obtain ⟨member, atNs, -⟩ := Ledger.mem_of_latest latest
    obtain ⟨a, -, isLabel, -⟩ := confined.labelled _ member
    have isName : Location.IsName target.ns := by
      rw [← atNs, isLabel]
      exact a.isName
    constructor
    · intro same
      exact same ▸ isName
    · intro single
      have own : Location.onlyName? ns = some ns :=
        Location.onlyName?_eq_some.mpr (Location.partsOf_of_isName single)
      exact Option.some.inj (only.symm.trans own)

/-- A record that JSON has a form for and that is within the limits of its reader is found under every
namespace that its own is all that remains of. -/
theorem Confined.get_of_latest (confined : s.Confined place l) {ns ns' name : String} {r : Record}
    (below : Location.StaysBelow ns) (only : Location.onlyName? ns = some ns')
    (latest : l.latest ns' name = some r) (storable : r.IsStorable) (fits : r.Fits limits) :
    ∃ target, (TargetLookup.get s ns name).1 = .ok (some target) ∧ target.ns = ns' ∧
      (Target.ofRecord r).Reordered target := by
  obtain ⟨text, held, reads⟩ := confined.read_of_latest below only latest
  obtain ⟨now, moment, written⟩ := held.document
  obtain ⟨r', comes, same⟩ := Record.ofDocument_document storable fits moment written
  rw [comes] at reads
  have found : (TargetLookup.get s ns name).1 = (·.map Target.ofRecord) <$> s.read ns name := rfl
  refine ⟨.ofRecord r', by rw [found, reads]; rfl, ?_, same.target⟩
  exact same.ns.symm.trans (Ledger.mem_of_latest latest).2.1

/-- A record of the instance `team/web` with its address, as it is stored first. -/
def address : Record where
  kind := "App"
  ns := "team"
  name := "web"
  outputs := [("url", .str "http://web")]
  connection := ⟨"web-conn", []⟩
  generation := 1

/-- The store after the publication of the record in an empty root. -/
def ofAddress : DirectoryStore :=
  (((ofNothing {}).tell "2026-01-02T03:04:05Z").publish address).2

theorem isStorable_address : address.IsStorable := by
  have url : (Value.str "http://web").IsJson := .scalar trivial
  have outputs : (Value.map [("url", .str "http://web")]).IsJson :=
    .map (by decide) (by decide) (by simpa using url)
  exact ⟨outputs, by decide⟩

theorem reached_ofAddress : Reached ["outputs"] ofAddress ⟨[address]⟩ := by
  have fresh := isFresh_ofNothing {}
  have atNs : address.ns = (⟨"team", by decide, by decide⟩ : DnsLabel).text := rfl
  have atName : address.name = (⟨"web", by decide, by decide⟩ : DnsLabel).text := rfl
  have moment : Moment.textFlaw? "2026-01-02T03:04:05Z" = none := by decide +kernel
  have unused : ((ofNothing {}).tell "2026-01-02T03:04:05Z").Mirrors ["outputs"] {} :=
    .inr ⟨fresh.tell _, rfl⟩
  have fits : address.Fits {} := by decide +kernel
  have writable : address.IsWritable := by decide +kernel
  obtain ⟨s', published, -⟩ := unused.publish atNs atName isStorable_address fits writable moment
  have same : ofAddress = s' := congrArg Prod.snd published
  have holdable : address.IsHoldable := by
    refine ⟨fun held asJson => ?_, by decide⟩
    rw [isStorable_address.outputs.asJson_eq] at asJson
    cases asJson
    exact isStorable_address.outputs
  exact same ▸ (Reached.fresh fresh).publish _ atNs atName holdable moment published

theorem get_ofAddress {ns : String} (below : Location.StaysBelow ns)
    (only : Location.onlyName? ns = some "team") :
    ∃ target, (TargetLookup.get ofAddress ns "web").1 = .ok (some target) ∧ target.ns = "team" ∧
      (Target.ofRecord address).Reordered target := by
  have latest : Ledger.latest ⟨[address]⟩ "team" "web" = some address := by decide +kernel
  have fits : address.Fits {} := by decide +kernel
  exact reached_ofAddress.confined.get_of_latest below only latest isStorable_address fits

/-- The address is found under the namespace that it was published under. -/
theorem get_answers_ofAddress :
    Reached ["outputs"] ofAddress ⟨[address]⟩ ∧
      Reference.parse "team::outputs/web/url" = .ok (some (.output (some "team") "web" "url")) ∧
      Location.StaysBelow "team" ∧
      (∃ target, (TargetLookup.get ofAddress "team" "web").1 = .ok (some target) ∧
        (Target.ofRecord address).Reordered target) ∧
      ofAddress.documentAt "team" "web" = ofAddress.root.below ["team", "web.json"] ∧
      Ledger.Justifies ⟨[address]⟩ {} (ofAddress.documentAt "team" "web")
        "team" "web" (TargetLookup.get ofAddress "team" "web").1 ∧
      ∀ target, (TargetLookup.get ofAddress "team" "web").1 = .ok (some target) →
        (target.ns = "team" ↔ Location.IsName "team") := by
  have parsed : Reference.parse "team::outputs/web/url" =
      .ok (some (.output (some "team") "web" "url")) := rfl
  have below : Location.StaysBelow "team" := ⟨by decide, by decide⟩
  obtain ⟨target, found, -, same⟩ := get_ofAddress below rfl
  exact ⟨reached_ofAddress, parsed, below, ⟨target, found, same⟩,
    get_answers reached_ofAddress parsed below⟩

/-- The address is found as well under a namespace that nothing was published under. -/
theorem not_own_ofAddress :
    Reached ["outputs"] ofAddress ⟨[address]⟩ ∧
      Reference.parse "./team::outputs/web/url" =
        .ok (some (.output (some "./team") "web" "url")) ∧
      address.ns ≠ "./team" ∧
      ∃ target, (TargetLookup.get ofAddress "./team" "web").1 = .ok (some target) ∧
        target.ns = "team" := by
  have below : Location.StaysBelow "./team" := ⟨by decide, by decide⟩
  obtain ⟨target, found, ns, -⟩ := get_ofAddress below rfl
  exact ⟨reached_ofAddress, rfl, by decide, target, found, ns⟩

end DirectoryStore
end WorkloadConfig
