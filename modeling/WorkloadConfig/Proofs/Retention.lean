import Mathlib.Data.List.ReduceOption
import WorkloadConfig.Proofs.Refinement

namespace WorkloadConfig

/-- What a file of a record holds after attempts to publish it, the last one at the end: each has written
a document, or had none to write once the document before was backed up. -/
def kept (attempts : List (Option String)) (suffix : String) : Option String :=
  if suffix = "" then attempts.reduceOption.getLast?
  else if suffix = ".lock" then attempts.getLast?.map fun _ => ""
  else if attempts.getLast? = some none then attempts.reduceOption.getLast?
  else attempts.reduceOption.dropLast.getLast?

section
variable (attempts : List (Option String))

theorem kept_document : kept attempts "" = attempts.reduceOption.getLast? := rfl

theorem kept_lock : kept attempts ".lock" = attempts.getLast?.map fun _ => "" := rfl

theorem kept_backup : kept attempts ".backup" =
    if attempts.getLast? = some none then attempts.reduceOption.getLast?
    else attempts.reduceOption.dropLast.getLast? := rfl

/-- There is no backup without a document. -/
theorem kept_backup_of_none (none : kept attempts "" = none) : kept attempts ".backup" = .none := by
  rw [kept_document, List.getLast?_eq_none_iff] at none
  simp [kept_backup, none]

end

theorem kept_nil (suffix : String) : kept [] suffix = none := by
  unfold kept
  split
  · rfl
  · split <;> rfl

/-- The files that are there, by the attempts to publish under each name: the backup is the document
before the last one, or that itself if nothing could be written since. -/
inductive Retained (attempts : String → String → List (Option String)) : List String → String → Prop
  | document (ns name : DnsLabel) {text : String} :
      (attempts ns.text name.text).reduceOption.getLast? = some text →
      Retained attempts [ns.text, name.text ++ ".json"] text
  | lock (ns name : DnsLabel) : attempts ns.text name.text ≠ [] →
      Retained attempts [ns.text, name.text ++ ".json" ++ ".lock"] ""
  | backup (ns name : DnsLabel) {text : String} :
      (attempts ns.text name.text).getLast? ≠ some none →
      (attempts ns.text name.text).reduceOption.dropLast.getLast? = some text →
      Retained attempts [ns.text, name.text ++ ".json" ++ ".backup"] text
  | copy (ns name : DnsLabel) {text : String} :
      (attempts ns.text name.text).getLast? = some none →
      (attempts ns.text name.text).reduceOption.getLast? = some text →
      Retained attempts [ns.text, name.text ++ ".json" ++ ".backup"] text

theorem retained_iff {attempts : String → String → List (Option String)} {names : List String}
    {text : String} : Retained attempts names text ↔
      ∃ ns name : DnsLabel, ∃ suffix ∈ recordSuffixes,
        names = [ns.text, name.text ++ ".json" ++ suffix] ∧
        kept (attempts ns.text name.text) suffix = some text := by
  constructor
  · rintro (⟨ns, name, last⟩ | ⟨ns, name, given⟩ | ⟨ns, name, written, before⟩ |
      ⟨ns, name, unwritten, last⟩)
    · exact ⟨ns, name, "", by decide, by rw [String.append_empty], last⟩
    · have isLast := List.getLast?_eq_some_getLast given
      exact ⟨ns, name, ".lock", by decide, rfl, congrArg (Option.map fun _ => "") isLast⟩
    · exact ⟨ns, name, ".backup", by decide, rfl, by rw [kept_backup, if_neg written, before]⟩
    · exact ⟨ns, name, ".backup", by decide, rfl, by rw [kept_backup, if_pos unwritten, last]⟩
  · rintro ⟨ns, name, suffix, within, rfl, holds⟩
    simp only [recordSuffixes, List.mem_cons, List.not_mem_nil, or_false] at within
    rcases within with rfl | rfl | rfl
    · rw [String.append_empty]
      exact .document ns name holds
    · obtain ⟨last, isLast, rfl⟩ := Option.map_eq_some_iff.mp holds
      exact .lock ns name fun empty => by simp [empty] at isLast
    · rw [kept_backup] at holds
      split at holds
      · rename_i unwritten
        exact .copy ns name unwritten holds
      · rename_i written
        exact .backup ns name written holds

/-- A record to publish under labels, the moment of that, and what is drawn for its draft. -/
structure Request where
  now : String
  draws : Draws
  record : Record
  ns : DnsLabel
  name : DnsLabel
  atNs : record.ns = ns.text
  atName : record.name = name.text

/-- The names that lead from the root to a file of the record. -/
def Request.file (q : Request) (suffix : String) : List String :=
  [q.ns.text, q.name.text ++ ".json" ++ suffix]

/-- What a request came to for the files of its record: nothing if the store could not be used, which is
a cause that a pass reports. -/
def attempt? : Request × Result Record → Option (Option String)
  | (q, .ok stored) => some (stored.document q.now).toOption
  | (_, .error (.resolution _)) => none
  | (_, .error _) => some none

/-- The attempts to publish under the name, the last one at the end. -/
def attempts (outcomes : List (Request × Result Record)) (ns name : String) : List (Option String) :=
  outcomes.filterMap fun given =>
    if given.1.ns.text = ns ∧ given.1.name.text = name then attempt? given else none

theorem attempts_cons (given : Request × Result Record) (later : List (Request × Result Record))
    (ns name : String) :
    attempts (given :: later) ns name = attempts [given] ns name ++ attempts later ns name :=
  List.filterMap_append (l := [given])

namespace DirectoryStore
variable {limits : Json.Limits} {s s' : DirectoryStore limits} {place : Place} {q : Request}

/-- The store at the moment of the request, with the draws for its draft. -/
def taking (s : DirectoryStore limits) (q : Request) : DirectoryStore limits :=
  { s.tell q.now with tree := s.tree.drawing q.draws }

/-- What the requests come to, one after the other. -/
def publishAll (s : DirectoryStore limits) :
    List Request → List (Request × Result Record) × DirectoryStore limits
  | [] => ([], s)
  | q :: later =>
    let (outcome, s) := (s.taking q).publish q.record
    let (outcomes, s) := s.publishAll later
    ((q, outcome) :: outcomes, s)

theorem publishAll_cons {outcome : Result Record} {later : List Request}
    (published : (s.taking q).publish q.record = (outcome, s')) :
    (s.publishAll (q :: later)).1 = (q, outcome) :: (s'.publishAll later).1 := by
  rw [publishAll, published]

/-- What becomes of the files in an attempt: its document, if it has one, takes the place of the one
before, which is the backup in any case; there is a lock, and no other text has changed. -/
structure Attempted (s s' : DirectoryStore limits) (place : Place) (q : Request)
    (attempt : Option String) : Prop where
  root : s'.root = s.root
  document : s'.tree.text? (place ++ q.file "") = attempt.or (s.tree.text? (place ++ q.file ""))
  lock : s'.tree.text? (place ++ q.file ".lock") =
    some ((s.tree.text? (place ++ q.file ".lock")).getD "")
  backup : s'.tree.text? (place ++ q.file ".backup") =
    (s.tree.text? (place ++ q.file "")).or (s.tree.text? (place ++ q.file ".backup"))
  others : ∀ names, (∀ suffix ∈ recordSuffixes, names ≠ q.file suffix) →
    s'.tree.text? (place ++ names) = s.tree.text? (place ++ names)

/-- A file of the record has its place below the root's. -/
theorem eq_file {suffix : String} {file : Place} (atPlace : s.root.place? = some place)
    (plain : '/' ∉ suffix.toList)
    (atFile : ((s.documentAt q.ns.text q.name.text).withSuffix suffix).place? = some file) :
    place ++ q.file suffix = file := by
  rw [place?_beside s _ _ plain, atPlace] at atFile
  exact Option.some.inj atFile

theorem ne_files (place : Place) {names : List String}
    (apart : ∀ suffix ∈ recordSuffixes, names ≠ q.file suffix) :
    place ++ names ≠ place ++ q.file "" ∧ place ++ names ≠ place ++ q.file ".lock" ∧
      place ++ names ≠ place ++ q.file ".backup" := by
  simp only [ne_eq, List.append_cancel_left_eq]
  exact ⟨apart "" (by decide), apart ".lock" (by decide), apart ".backup" (by decide)⟩

/-- A publication that succeeds is an attempt with the document of its record. -/
theorem attempted_of_ok {stored : Record} (atPlace : s.root.place? = some place)
    (published : s.publish q.record = (.ok stored, s')) :
    s.Attempted s' place q (stored.document s.now).toOption := by
  obtain ⟨t, held, text, document, lock, backup, rfl, -, written, -, there, atLock, atBackup,
    keeps, documentText, lockText, backupText⟩ := publish_ok_files published
  have atDocument := FileTree.place?_of_placeOf there
  rw [q.atNs, q.atName] at atDocument atLock atBackup
  rw [← withSuffix_empty] at atDocument
  obtain rfl := eq_file atPlace (by decide) atDocument
  obtain rfl := eq_file atPlace (by decide) atLock
  obtain rfl := eq_file atPlace (by decide) atBackup
  rw [written]
  refine ⟨rfl, documentText, lockText, backupText, fun names apart => keeps.texts _ ?_⟩
  obtain ⟨notDocument, notLock, notBackup⟩ := ne_files place apart
  rintro (same | same | same)
  · exact notDocument same
  · exact notLock same
  · exact notBackup same

/-- Once the record before is read, having no document to write is an attempt without one. -/
theorem attempted_of_unwritten {t t₁ t₂ : FileTree} (atPlace : s.root.place? = some place)
    (there : t₁.placeOf (s.documentAt q.ns.text q.name.text) = .ok (place ++ q.file ""))
    (locked : lock s.tree (s.documentAt q.ns.text q.name.text) s.lockTimeout =
      (.ok (lockPlace place q.ns q.name), t₁))
    (backed : backUp t₁ (s.documentAt q.ns.text q.name.text) = .ok t₂) (nodes : t.nodes = t₂.nodes) :
    s.Attempted { s with tree := t } place q none := by
  have lockKeeps := keeps_lock locked
  obtain ⟨-, -, lockText⟩ := lock_ok locked
  obtain ⟨backup, atBackup⟩ : ∃ backup,
      ((s.documentAt q.ns.text q.name.text).withSuffix ".backup").place? = some backup := by
    rw [place?_beside s _ _ (by decide), atPlace]
    exact ⟨_, rfl⟩
  obtain rfl := eq_file atPlace (by decide) atBackup
  have unlocked {names : List String} (apart : place ++ names ≠ place ++ q.file ".lock") :
      t₁.text? (place ++ names) = s.tree.text? (place ++ names) :=
    lockKeeps.texts _ fun atLock => apart (eq_file atPlace (by decide) atLock).symm
  obtain ⟨above, stem, isDocument⟩ := s.exists_documentAt q.ns.text q.name.text
  rw [isDocument] at backed there atBackup
  rw [Location.withSuffix_record] at atBackup
  have copied := backedUp_of_backUp backed
  have unbacked {names : List String} (apart : place ++ names ≠ place ++ q.file ".backup") :
      t.text? (place ++ names) = t₁.text? (place ++ names) := by
    rw [FileTree.text?_congr nodes]
    exact copied.keeps.texts _ fun other => apart (Option.some.inj (other.symm.trans atBackup))
  have file_ne {suffix other : String} (different : suffix ≠ other) :
      place ++ q.file suffix ≠ place ++ q.file other := by
    simpa [Request.file] using different
  refine ⟨rfl, ?_, ?_, ?_, fun names apart => ?_⟩
  · rw [Option.none_or, unbacked (file_ne (by decide)), unlocked (file_ne (by decide))]
  · rw [unbacked (file_ne (by decide))]
    exact lockText
  · rw [FileTree.text?_congr nodes, copied.text_backup there atBackup,
      unlocked (file_ne (by decide)), unlocked (file_ne (by decide))]
  · obtain ⟨-, notLock, notBackup⟩ := ne_files place apart
    rw [unbacked notBackup, unlocked notLock]

/-- Below the root there are the files that the attempts leave, and no other. -/
structure Retains (s : DirectoryStore limits) (place : Place)
    (history : String → String → List (Option String)) : Prop where
  atPlace : s.root.place? = some place
  files : ∀ ns name : DnsLabel, ∀ suffix ∈ recordSuffixes,
    s.tree.text? (place ++ [ns.text, name.text ++ ".json" ++ suffix]) =
      kept (history ns.text name.text) suffix
  only : ∀ names, s.tree.text? (place ++ names) ≠ none →
    ∃ ns name : DnsLabel, ∃ suffix ∈ recordSuffixes,
      names = [ns.text, name.text ++ ".json" ++ suffix]

namespace Retains
variable {history : String → String → List (Option String)} (retains : s.Retains place history)
include retains

theorem text?_iff (names : List String) (text : String) :
    s.tree.text? (place ++ names) = some text ↔ Retained history names text := by
  rw [retained_iff]
  constructor
  · intro holds
    obtain ⟨ns, name, suffix, within, rfl⟩ := retains.only names (by simp [holds])
    exact ⟨ns, name, suffix, within, rfl, (retains.files ns name suffix within).symm.trans holds⟩
  · rintro ⟨ns, name, suffix, within, rfl, holds⟩
    exact (retains.files ns name suffix within).trans holds

theorem of_texts (root : s'.root = s.root) (same : ∀ names,
    s'.tree.text? (place ++ names) = s.tree.text? (place ++ names)) : s'.Retains place history := by
  refine ⟨root ▸ retains.atPlace, fun ns name suffix within => ?_, fun names found => ?_⟩
  · rw [same, retains.files ns name suffix within]
  · rw [same] at found
    exact retains.only names found

section
variable {attempt : Option String} (change : s.Attempted s' place q attempt)
include change

theorem text?_file {suffix : String} (within : suffix ∈ recordSuffixes) :
    s'.tree.text? (place ++ q.file suffix) =
      kept (history q.ns.text q.name.text ++ [attempt]) suffix := by
  have before (suffix : String) (within : suffix ∈ recordSuffixes) :
      s.tree.text? (place ++ q.file suffix) = kept (history q.ns.text q.name.text) suffix :=
    retains.files q.ns q.name suffix within
  simp only [recordSuffixes, List.mem_cons, List.not_mem_nil, or_false] at within
  rcases within with rfl | rfl | rfl
  · rw [change.document, before "" (by decide), kept_document, kept_document]
    cases attempt <;> simp [List.reduceOption_append]
  · rw [change.lock, before ".lock" (by decide), kept_lock, kept_lock, List.getLast?_concat]
    cases (history q.ns.text q.name.text).getLast? <;> rfl
  · rw [change.backup, before "" (by decide), before ".backup" (by decide)]
    have backup : kept (history q.ns.text q.name.text ++ [attempt]) ".backup" =
        kept (history q.ns.text q.name.text) "" := by
      cases attempt <;> simp [kept_backup, kept_document, List.reduceOption_append]
    rw [backup]
    cases last : kept (history q.ns.text q.name.text) "" with
    | some text => rfl
    | none => rw [kept_backup_of_none _ last]; rfl

/-- What was attempted is kept after what was attempted before it. -/
theorem attempted : s'.Retains place fun ns name => history ns name ++
    if q.ns.text = ns ∧ q.name.text = name then [attempt] else [] := by
  refine ⟨change.root ▸ retains.atPlace, fun ns name suffix within => ?_, fun names found => ?_⟩
  · by_cases same : q.ns.text = ns.text ∧ q.name.text = name.text
    · rw [if_pos same, ← same.1, ← same.2]
      exact retains.text?_file change within
    · rw [if_neg same, List.append_nil, change.others, retains.files ns name suffix within]
      intro other _ file
      simp only [Request.file, List.cons.injEq, and_true] at file
      exact same ⟨file.1.symm, (DnsLabel.file_inj file.2).1.symm⟩
  · by_cases own : ∃ suffix ∈ recordSuffixes, names = q.file suffix
    · obtain ⟨suffix, within, rfl⟩ := own
      exact ⟨q.ns, q.name, suffix, within, rfl⟩
    · rw [change.others names fun suffix within same => own ⟨suffix, within, same⟩] at found
      exact retains.only names found

end

/-- A publication that fails under a root with nothing but records is an attempt without a document,
or nothing, where the record before could not be read. -/
theorem refused {failure : Failure} (hosts : s.tree.Hosts s.root place)
    (free : ∀ names, place ++ names ∉ s.tree.locked)
    (published : s.publish q.record = (.error failure, s')) :
    s'.Retains place fun ns name => history ns name ++ attempts [(q, .error failure)] ns name := by
  obtain ⟨t, publishes, -, -, touches, unwritten⟩ := publish_hosted hosts q.atNs q.atName free
  obtain ⟨outcome, rfl⟩ := Prod.mk.inj (published.symm.trans publishes)
  rw [following?, q.atNs, q.atName] at outcome
  cases reads : s.read q.ns.text q.name.text with
  | ok held =>
    rw [reads, Result.ok_bind] at outcome
    cases written : (q.record.following held).document s.now with
    | ok text =>
      rw [written] at outcome
      cases outcome
    | error stopped =>
      rw [written] at outcome
      obtain ⟨t₁, t₂, locked, there, backed, nodes⟩ := unwritten held stopped reads written
      have kept := retains.attempted (attempted_of_unwritten retains.atPlace there locked backed nodes)
      have attempt : attempt? (q, .error failure) = some none := by
        cases Record.failsOnly_document _ _ stopped written with
        | badBytes data => cases outcome; rfl
        | unwritten hindrance => cases hindrance <;> cases outcome <;> rfl
      refine cast (congrArg _ (funext₂ fun ns name => ?_)) kept
      simp only [attempts, List.filterMap_cons, List.filterMap_nil, attempt]
      split <;> rfl
  | error unread =>
    -- The document was there and could not be read, so its lock was there as well.
    have document : s.document? q.ns.text q.name.text ≠ none := by
      intro missing
      rw [read_hosted hosts, missing] at reads
      cases reads
    rw [document?_hosted hosts, documentPlace, retains.files q.ns q.name "" (by decide),
      kept_document] at document
    have lock : s.tree.text? (lockPlace place q.ns q.name) = some "" := by
      rw [lockPlace, retains.files q.ns q.name ".lock" (by decide), kept_lock]
      cases last : (history q.ns.text q.name.text).getLast? with
      | some _ => rfl
      | none => simp [List.getLast?_eq_none_iff.mp last] at document
    have reported : ∃ cause, failure = .resolution cause := by
      obtain ⟨text, holds⟩ := Option.ne_none_iff_exists'.mp document
      rw [reads, Result.error_bind] at outcome
      rw [read_hosted hosts, document?_hosted hosts, documentPlace,
        retains.files q.ns q.name "" (by decide), kept_document, holds] at reads
      cases parsed : Record.ofDocument limits text with
      | ok record => simp [parsed] at reads
      | error report =>
        simp only [parsed] at reads
        cases reads
        exact ⟨_, Except.error.inj outcome⟩
    obtain ⟨cause, rfl⟩ := reported
    have nothing (ns name : String) : attempts [(q, .error (.resolution cause))] ns name = [] := by
      simp [attempts, attempt?]
    simp only [nothing, List.append_nil]
    refine retains.of_texts rfl fun names => ?_
    rcases touches unread reads (place ++ names) with same | ⟨atLock, missing, -⟩
    · exact same
    · rw [place?_beside s _ _ (by decide), retains.atPlace] at atLock
      rw [← Option.some.inj atLock] at missing
      cases lock.symm.trans missing

end Retains

/-- Nothing below the root is in the way of a record, whether the root is there or still to be made. -/
def Ready (s : DirectoryStore limits) (place : Place) : Prop :=
  (s.tree.Hosts s.root place ∧ ∀ names, place ++ names ∉ s.tree.locked) ∨ s.IsFresh place

namespace Ready

theorem taking (ready : s.Ready place) (q : Request) : (s.taking q).Ready place := by
  rcases ready with ⟨hosts, free⟩ | fresh
  · exact .inl ⟨hosts.of_node?_eq fun _ => rfl, free⟩
  · exact .inr ((fresh.drawing q.draws).tell q.now)

/-- The root is there from the first publication on. -/
theorem exists_hosted (ready : s.Ready place) (q : Request) : ∃ t : FileTree,
    t.Hosts s.root place ∧ (∀ names, place ++ names ∉ t.locked) ∧
      (∀ names, t.text? (place ++ names) = s.tree.text? (place ++ names)) ∧
      s.publish q.record = ({ s with tree := t } : DirectoryStore limits).publish q.record := by
  rcases ready with ⟨hosts, free⟩ | fresh
  · exact ⟨s.tree, hosts, free, fun _ => rfl, rfl⟩
  · have unmade := FileTree.keeps_makeDirectories s.tree s.root
    exact ⟨_, fresh.hosts, fresh.free, fun names => unmade.texts _ not_false,
      fresh.publish_eq q.atNs q.atName⟩

theorem publish (ready : s.Ready place) {outcome : Result Record}
    (published : s.publish q.record = (outcome, s')) : s'.Ready place := by
  obtain ⟨t, hosts, free, -, publishes⟩ := ready.exists_hosted q
  obtain ⟨t', given, hosts', locked, -⟩ :=
    publish_hosted (s := { s with tree := t }) hosts q.atNs q.atName free
  rw [← publishes, published] at given
  obtain ⟨-, rfl⟩ := Prod.mk.inj given
  exact .inl ⟨hosts', by simpa only [locked] using free⟩

end Ready

/-- Without files there is what publishing nothing leaves. -/
theorem retains_of_empty (atPlace : s.root.place? = some place)
    (empty : ∀ names, s.tree.text? (place ++ names) = none) : s.Retains place fun _ _ => [] := by
  refine ⟨atPlace, fun ns name suffix _ => ?_, fun names found => absurd (empty names) found⟩
  rw [empty, kept_nil]

theorem IsFresh.text?_eq_none (fresh : s.IsFresh place) (names : List String) :
    s.tree.text? (place ++ names) = none := by
  rw [← (FileTree.keeps_makeDirectories s.tree s.root).texts _ not_false, FileTree.text?]
  by_cases given : names = []
  · have directory := fresh.hosts.directory
    rw [rooted] at directory
    simp only [given, List.append_nil, directory]
  · have nothing := fresh.empty names given
    rw [rooted] at nothing
    simp only [nothing]

/-- One more request adds what it came to to what is kept. -/
theorem Retains.publish {history : String → String → List (Option String)} {outcome : Result Record}
    (retains : s.Retains place history) (now : s.now = q.now)
    (published : s.publish q.record = (outcome, s'))
    (proper : s.Ready place ∨ ∃ stored, outcome = .ok stored) :
    s'.Retains place fun ns name => history ns name ++ attempts [(q, outcome)] ns name := by
  cases outcome with
  | ok stored =>
    have kept := retains.attempted (attempted_of_ok retains.atPlace published)
    refine cast (congrArg _ (funext₂ fun ns name => ?_)) kept
    simp only [attempts, List.filterMap_cons, List.filterMap_nil, attempt?, now]
    split <;> rfl
  | error failure =>
    rcases proper with ready | ⟨_, impossible⟩
    · obtain ⟨t, hosts, free, texts, publishes⟩ := ready.exists_hosted q
      rw [publishes] at published
      have same : ({ s with tree := t } : DirectoryStore limits).Retains place history :=
        retains.of_texts rfl texts
      exact same.refused hosts free published
    · cases impossible

/-- After any requests the files are those that they came to, with those of before. -/
theorem Retains.publishAll {history : String → String → List (Option String)}
    (retains : s.Retains place history) (requests : List Request)
    (proper : s.Ready place ∨
      ∀ given ∈ (s.publishAll requests).1, ∃ stored, given.2 = .ok stored) :
    (s.publishAll requests).2.Retains place fun ns name =>
      history ns name ++ attempts (s.publishAll requests).1 ns name := by
  induction requests generalizing s history with
  | nil => simpa [DirectoryStore.publishAll, attempts] using retains
  | cons q later ih =>
    rcases published : (s.taking q).publish q.record with ⟨outcome, s'⟩
    simp only [DirectoryStore.publishAll, published, List.forall_mem_cons] at proper ⊢
    have told : (s.taking q).Retains place history := retains.of_texts rfl fun _ => rfl
    have next := told.publish rfl published (proper.imp (·.taking q) And.left)
    have rest := ih next (proper.imp (fun ready => (ready.taking q).publish published) And.right)
    simp only [List.append_assoc, ← attempts_cons] at rest
    exact rest

/-- Where there was no file before, publications that succeed leave for each name its last document, a
lock, and the document before as backup. Under a fresh root the same is so whether they all succeed or
not, except that one whose record cannot be written makes the document its own backup. None that
succeeds changes a file of another name. A publication that fails, whatever is in its way, leaves the
document, and no file but an empty lock and a backup that is the document's copy. -/
theorem publishing_retains (limits : Json.Limits) :
    (∀ (s : DirectoryStore limits) (place : Place) (requests : List Request),
      s.root.place? = some place →
      (∀ names, s.tree.text? (place ++ names) = none) →
      (∀ given ∈ (s.publishAll requests).1, ∃ stored, given.2 = .ok stored) →
      ∀ names text, (s.publishAll requests).2.tree.text? (place ++ names) = some text ↔
        Retained (attempts (s.publishAll requests).1) names text) ∧
    (∀ (s : DirectoryStore limits) (place : Place) (requests : List Request), s.IsFresh place →
      ∀ names text, (s.publishAll requests).2.tree.text? (place ++ names) = some text ↔
        Retained (attempts (s.publishAll requests).1) names text) ∧
    (∀ (s s' : DirectoryStore limits) (place : Place) (q : Request) (stored : Record),
      s.root.place? = some place → s.publish q.record = (.ok stored, s') →
      ∀ names, (∀ suffix ∈ recordSuffixes, names ≠ q.file suffix) →
        s'.tree.text? (place ++ names) = s.tree.text? (place ++ names)) ∧
    (∀ (s s' : DirectoryStore limits) (r : Record) (failure : Failure),
      s.publish r = (.error failure, s') →
      s'.document? r.ns r.name = s.document? r.ns r.name ∧
      ∀ place, s'.tree.text? place = s.tree.text? place ∨
        (((s.documentAt r.ns r.name).withSuffix ".lock").place? = some place ∧
          s.tree.text? place = none ∧ s'.tree.text? place = some "") ∨
        (((s.documentAt r.ns r.name).withSuffix ".backup").place? = some place ∧
          ∃ text, s.document? r.ns r.name = some text ∧ s'.tree.text? place = some text)) := by
  refine ⟨?_, ?_, ?_, ?_⟩
  · intro s place requests atPlace empty succeed
    have retains := (retains_of_empty atPlace empty).publishAll requests (.inr succeed)
    exact retains.text?_iff
  · intro s place requests fresh
    have retains := (retains_of_empty fresh.atPlace fresh.text?_eq_none).publishAll requests
      (.inl (.inr fresh))
    exact retains.text?_iff
  · intro s s' place q stored atPlace published
    exact (attempted_of_ok atPlace published).others
  · intro s s' r failure published
    refine ⟨(publish_error published _ _).document, ?_⟩
    obtain ⟨t, rfl, -, texts⟩ := publish_error_files published
    exact texts

theorem Mirrors.taking {l : Ledger} (mirrors : s.Mirrors place l) (q : Request) :
    (s.taking q).Mirrors place l := by
  rcases mirrors with follows | ⟨fresh, rfl⟩
  · exact .inl ⟨follows.hosts.of_node?_eq fun _ => rfl, follows.free, follows.documents⟩
  · exact .inr ⟨(fresh.drawing q.draws).tell q.now, rfl⟩

/-- To publish an instance in `team` with the outputs and the name of its connection, at the moment. -/
def asking (name : DnsLabel) (now : String) (outputs : Table String Value) : Request where
  now := now
  draws := {}
  record :=
    { kind := "App", ns := "team", name := name.text, outputs, connection := ⟨"web-conn", []⟩,
      generation := 1 }
  ns := .team
  name := name
  atNs := rfl
  atName := rfl

abbrev ofWeb (now : String) : Request :=
  asking .web now []

theorem isStorable_asking (name : DnsLabel) (now : String) :
    (asking name now []).record.IsStorable :=
  ⟨.map (by simp [asking, Table.keys]) (by simp [asking, Table.keys]) (by simp [asking]),
    List.nodup_nil⟩

theorem short_one : (1 : Int).natAbs < decimalBound digitLimit := by decide +kernel

theorem short_two : (2 : Int).natAbs < decimalBound digitLimit := by decide +kernel

section
variable {name : DnsLabel} {now : String} {generation : Int}
  (short : generation.natAbs < decimalBound digitLimit)
include short

theorem isWritable_asking :
    ({ (asking name now []).record with generation } : Record).IsWritable :=
  Record.isWritable_iff.mpr ⟨rfl, short⟩

theorem exists_document_asking :
    ∃ text, ({ (asking name now []).record with generation } : Record).document now = .ok text := by
  have storable : ({ (asking name now []).record with generation } : Record).IsStorable :=
    ⟨(isStorable_asking name now).outputs, List.nodup_nil⟩
  rw [Record.document_eq storable, if_pos (isWritable_asking short)]
  exact ⟨_, rfl⟩

end

/-- A store with a directory in the place of a document. -/
def ofObstructed : DirectoryStore { depth := none } :=
  { ofNothing { depth := none } with tree := { nodes := [(["outputs"], .directory),
    (["outputs", "team"], .directory), (["outputs", "team", "web.json"], .directory)] } }

theorem Mirrors.publish_asking {s : DirectoryStore { depth := none }} {l : Ledger} (name : DnsLabel)
    (now : String) (mirrors : s.Mirrors ["outputs"] l) (moment : Moment.textFlaw? now = none)
    (few : (l.under "team" name.text).length + 1 < decimalBound digitLimit) :
    ∃ s', (s.taking (asking name now [])).publish (asking name now []).record =
        (.ok (l.publish (asking name now []).record).1, s') ∧
      s'.Mirrors ["outputs"] (l.publish (asking name now []).record).2 := by
  have writable : (l.publish (asking name now []).record).1.IsWritable := by
    rw [l.publish_fst]
    exact isWritable_asking few
  exact (mirrors.taking (asking name now [])).publish (asking name now []).atNs
    (asking name now []).atName (isStorable_asking name now) (Json.isWithin_of_isWritable writable 0)
    writable moment

/-- Published twice, it has its second generation. -/
theorem publishAll_ofWeb {now later : String} (moment : Moment.textFlaw? now = none)
    (moment' : Moment.textFlaw? later = none) :
    ((ofNothing { depth := none }).publishAll [ofWeb now, ofWeb later]).1 =
      [(ofWeb now, .ok (ofWeb now).record),
        (ofWeb later, .ok { (ofWeb later).record with generation := 2 })] := by
  have unused : (ofNothing { depth := none }).Mirrors ["outputs"] {} :=
    .inr ⟨isFresh_ofNothing _, rfl⟩
  obtain ⟨s₁, first, mirrors⟩ := unused.publish_asking .web now moment (by decide +kernel)
  have few : ((({} : Ledger).publish (ofWeb now).record).2.under (ofWeb now).record.ns
      (ofWeb now).record.name).length + 1 < decimalBound digitLimit := by
    rw [Ledger.under_publish_self]
    exact short_two
  obtain ⟨s₂, second, -⟩ := mirrors.publish_asking .web later moment' few
  rw [publishAll_cons first, publishAll_cons second]
  rfl

theorem attempts_ofWeb {now later : String} (moment : Moment.textFlaw? now = none)
    (moment' : Moment.textFlaw? later = none) :
    ∃ text again, (ofWeb now).record.document now = .ok text ∧
      attempts ((ofNothing { depth := none }).publishAll [ofWeb now, ofWeb later]).1
        DnsLabel.team.text DnsLabel.web.text = [some text, some again] := by
  obtain ⟨text, document⟩ : ∃ text, ({ (ofWeb now).record with generation := 1 } : Record).document
      now = .ok text := exists_document_asking short_one
  obtain ⟨again, document'⟩ : ∃ text,
      ({ (ofWeb later).record with generation := 2 } : Record).document later = .ok text :=
    exists_document_asking short_two
  have shown : attempts ((ofNothing { depth := none }).publishAll [ofWeb now, ofWeb later]).1
      DnsLabel.team.text DnsLabel.web.text =
        [(({ (ofWeb now).record with generation := 1 } : Record).document now).toOption,
          (({ (ofWeb later).record with generation := 2 } : Record).document later).toOption] := by
    rw [publishAll_ofWeb moment moment']
    rfl
  rw [document, document'] at shown
  exact ⟨text, again, document, shown⟩

/-- A publication where a directory is in the place of the document. -/
theorem publish_ofObstructed : ∃ failure s',
    ofObstructed.publish (ofWeb "2026-01-02T03:04:05Z").record = (.error failure, s') := by
  have fails : (ofObstructed.publish (ofWeb "2026-01-02T03:04:05Z").record).1.toOption = none := by
    decide +kernel
  rcases given : ofObstructed.publish (ofWeb "2026-01-02T03:04:05Z").record with ⟨failure | stored, s'⟩
  · exact ⟨failure, s', rfl⟩
  · rw [given] at fails
    cases fails

/-- The document of the first of two publications under a root that is still to be made is the backup. A
file of another record is left, and so is the document in whose place there is a directory. -/
theorem publishing_retains_ofWeb :
    let first := ofWeb "2026-01-02T03:04:05Z"
    let run := (ofNothing { depth := none }).publishAll [first, ofWeb "2026-01-02T03:04:06Z"]
    let told := (ofNothing { depth := none }).taking first
    (∀ given ∈ run.1, ∃ stored, given.2 = .ok stored) ∧
      (∀ names, (ofNothing { depth := none }).tree.text? (["outputs"] ++ names) = none) ∧
      (ofNothing { depth := none }).IsFresh ["outputs"] ∧
      (∃ text, first.record.document first.now = .ok text ∧
        run.2.tree.text? (["outputs"] ++ ["team", "web.json.backup"]) = some text) ∧
      run.2.tree.text? (["outputs"] ++ ["team", "web.json.lock"]) = some "" ∧
      (∃ stored s', told.publish first.record = (.ok stored, s') ∧
        s'.tree.text? (["outputs"] ++ ["team", "other.json"]) =
          told.tree.text? (["outputs"] ++ ["team", "other.json"])) ∧
      ∃ failure s', ofObstructed.publish first.record = (.error failure, s') ∧
        s'.document? "team" "web" = ofObstructed.document? "team" "web" := by
  have moment : Moment.textFlaw? "2026-01-02T03:04:05Z" = none := by decide +kernel
  have later : Moment.textFlaw? "2026-01-02T03:04:06Z" = none := by decide +kernel
  have fresh := isFresh_ofNothing { depth := none }
  have unused : (ofNothing { depth := none }).Mirrors ["outputs"] {} := .inr ⟨fresh, rfl⟩
  have outcomes := publishAll_ofWeb moment later
  obtain ⟨s₁, published, -⟩ := unused.publish_asking .web _ moment (by decide +kernel)
  obtain ⟨failure, s', failed⟩ := publish_ofObstructed
  obtain ⟨all, any, apart, left⟩ := publishing_retains { depth := none }
  have succeed : ∀ given ∈ ((ofNothing { depth := none }).publishAll
      [ofWeb "2026-01-02T03:04:05Z", ofWeb "2026-01-02T03:04:06Z"]).1,
      ∃ stored, given.2 = .ok stored := by
    rw [outcomes]
    exact List.forall_mem_cons.mpr ⟨⟨_, rfl⟩, List.forall_mem_singleton.mpr ⟨_, rfl⟩⟩
  obtain ⟨text, again, document, history⟩ := attempts_ofWeb moment later
  have backup := (all _ _ _ rfl fresh.text?_eq_none succeed ["team", "web.json.backup"] text).mpr
    (.backup .team .web (by rw [history]; simp) (by rw [history]; rfl))
  have lock := (any _ _ [ofWeb "2026-01-02T03:04:05Z", ofWeb "2026-01-02T03:04:06Z"] fresh
    ["team", "web.json.lock"] "").mpr
    (.lock .team .web (by rw [history]; exact List.cons_ne_nil _ _))
  have other := apart _ s₁ ["outputs"] _ _ rfl published ["team", "other.json"] (by decide)
  exact ⟨succeed, fresh.text?_eq_none, fresh, ⟨text, document, backup⟩, lock,
    ⟨_, s₁, published, other⟩, failure, s', failed, (left _ _ _ _ failed).1⟩

/-- Where a record cannot be written, its publication fails and leaves what the history says. -/
theorem Follows.refused {l : Ledger} (follows : s.Follows place l) {ns name : DnsLabel} {r : Record}
    (atNs : r.ns = ns.text) (atName : r.name = name.text) (storable : r.IsStorable)
    (unwritable : ¬ (l.publish r).1.IsWritable) :
    ∃ s', s.publish r = (.error .tooLong, s') ∧ s'.Follows place l := by
  obtain ⟨held, reads, same⟩ := follows.read ns name
  obtain ⟨t, published, -⟩ := publish_hosted follows.hosts atNs atName follows.free
  have stored : r.following held = (l.publish r).1 := by
    rw [← l.following_read r, atNs, atName, Turn.following_eq same]
  have storable : (l.publish r).1.IsStorable := ⟨storable.outputs, storable.data⟩
  have document : (l.publish r).1.document s.now = .error .tooLong := by
    rw [Record.document_eq storable, if_neg unwritable]
  have published : s.publish r = (.error .tooLong, { s with tree := t }) := by
    rw [published, following?, atNs, atName, reads, Result.ok_bind, stored, document]
    rfl
  exact ⟨_, published, Holds.refused follows atNs atName published⟩

theorem Mirrors.refused {l : Ledger} (mirrors : s.Mirrors place l) {ns name : DnsLabel} {r : Record}
    (atNs : r.ns = ns.text) (atName : r.name = name.text) (storable : r.IsStorable)
    (unwritable : ¬ (l.publish r).1.IsWritable) :
    ∃ s', s.publish r = (.error .tooLong, s') ∧ s'.Mirrors place l := by
  rcases mirrors with follows | ⟨fresh, rfl⟩
  · obtain ⟨s', published, next⟩ := follows.refused atNs atName storable unwritable
    exact ⟨s', published, .inl next⟩
  · have follows : s.rooted.Follows place {} := fresh.holds _
    obtain ⟨s', published, next⟩ := follows.refused atNs atName storable unwritable
    exact ⟨s', (fresh.publish_eq atNs atName).trans published, .inl next⟩

/-- To publish `team/web` with an integer of 5001 digits. -/
def ofDigits : Request :=
  asking .web "2026-01-02T03:04:06Z" [("count", .int (Nat.pow 10 5000))]

theorem isStorable_ofDigits : ofDigits.record.IsStorable := by
  have number : (Value.int (Nat.pow 10 5000)).IsJson := .scalar trivial
  refine ⟨.map (by decide) (by decide) fun entry member => ?_, List.nodup_nil⟩
  rw [List.mem_singleton.mp member]
  exact number

/-- A publication that succeeds, one with the integer, and one of another name. -/
def requestsOfDigits : List Request :=
  [ofWeb "2026-01-02T03:04:05Z", ofDigits, asking .team "2026-01-02T03:04:07Z" []]

theorem publishAll_ofDigits : ((ofNothing { depth := none }).publishAll requestsOfDigits).1 =
    requestsOfDigits.zip [.ok (ofWeb "2026-01-02T03:04:05Z").record, .error .tooLong,
      .ok (asking .team "2026-01-02T03:04:07Z" []).record] := by
  have unused : (ofNothing { depth := none }).Mirrors ["outputs"] {} :=
    .inr ⟨isFresh_ofNothing _, rfl⟩
  obtain ⟨s₁, first, mirrors⟩ := unused.publish_asking .web "2026-01-02T03:04:05Z"
    (by decide +kernel) (by decide +kernel)
  have unwritable : ¬ ((({} : Ledger).publish (ofWeb "2026-01-02T03:04:05Z").record).2.publish
      ofDigits.record).1.IsWritable := by
    rw [Ledger.publish_fst, Record.isWritable_iff]
    have long : (Value.ofTable ofDigits.record.outputs).isWritable = false := by decide +kernel
    exact fun both => Bool.false_ne_true (long.symm.trans both.1)
  obtain ⟨s₂, second, mirrors⟩ := (mirrors.taking ofDigits).refused ofDigits.atNs ofDigits.atName
    isStorable_ofDigits unwritable
  obtain ⟨s₃, third, -⟩ := mirrors.publish_asking .team "2026-01-02T03:04:07Z" (by decide +kernel)
    (by decide +kernel)
  rw [requestsOfDigits, publishAll_cons first, publishAll_cons second, publishAll_cons third]
  rfl

/-- Between two publications that succeed, one with an integer of 5001 digits leaves a backup of a
document that was written but once. -/
theorem retains_ofDigits :
    let run := (ofNothing { depth := none }).publishAll requestsOfDigits
    (ofNothing { depth := none }).IsFresh ["outputs"] ∧
      run.1 = requestsOfDigits.zip [.ok (ofWeb "2026-01-02T03:04:05Z").record, .error .tooLong,
        .ok (asking .team "2026-01-02T03:04:07Z" []).record] ∧
      ∃ text, run.2.tree.text? (["outputs"] ++ ["team", "web.json"]) = some text ∧
        run.2.tree.text? (["outputs"] ++ ["team", "web.json.backup"]) = some text := by
  have fresh := isFresh_ofNothing { depth := none }
  have outcomes := publishAll_ofDigits
  obtain ⟨text, document⟩ : ∃ text, ({ (ofWeb "2026-01-02T03:04:05Z").record with generation := 1 } :
      Record).document "2026-01-02T03:04:05Z" = .ok text := exists_document_asking short_one
  have history : attempts ((ofNothing { depth := none }).publishAll requestsOfDigits).1
      DnsLabel.team.text DnsLabel.web.text = [some text, none] := by
    have shown : attempts ((ofNothing { depth := none }).publishAll requestsOfDigits).1
        DnsLabel.team.text DnsLabel.web.text =
          [(({ (ofWeb "2026-01-02T03:04:05Z").record with generation := 1 } : Record).document
            "2026-01-02T03:04:05Z").toOption, none] := by
      rw [outcomes]
      rfl
    rw [document] at shown
    exact shown
  have retains := (retains_of_empty fresh.atPlace fresh.text?_eq_none).publishAll requestsOfDigits
    (.inl (.inr fresh))
  refine ⟨fresh, outcomes, text, (retains.text?_iff _ _).mpr (.document .team .web ?_),
    (retains.text?_iff _ _).mpr (.copy .team .web ?_ ?_)⟩
  · rw [List.nil_append, history]
    rfl
  · rw [List.nil_append, history]
    rfl
  · rw [List.nil_append, history]
    rfl

end DirectoryStore
end WorkloadConfig
