import WorkloadConfig.Proofs.Hosting

namespace WorkloadConfig.DirectoryStore
variable {limits : Json.Limits} {s : DirectoryStore limits} {place : Place}

theorem documentAt_below (s : DirectoryStore limits) (ns name : DnsLabel) :
    s.documentAt ns.text name.text = s.root.below [ns.text, name.text ++ ".json" ++ ""] := by
  rw [documentAt_eq, String.append_empty]

/-- The place of a document below the root's. -/
def documentPlace (place : Place) (ns name : DnsLabel) : Place :=
  place ++ [ns.text, name.text ++ ".json" ++ ""]

section
variable (hosts : s.tree.Hosts s.root place) (ns name : DnsLabel)
include hosts

theorem place?_documentPlace :
    (s.documentAt ns.text name.text).place? = some (documentPlace place ns name) := by
  rw [place?_documentAt, FileTree.place?_of_placeOf hosts.there, documentPlace, String.append_empty]
  rfl

theorem document?_hosted :
    s.document? ns.text name.text = s.tree.text? (documentPlace place ns name) := by
  rw [document?, place?_documentPlace hosts]
  rfl

/-- What is read is what the document holds, and nothing where there is no document. -/
theorem read_hosted : s.read ns.text name.text =
    match s.document? ns.text name.text with
    | none => .ok none
    | some text => match Record.ofDocument limits text with
      | .ok record => .ok (some record)
      | .error report =>
        Result.fail (.store (s.documentAt ns.text name.text).text (.invalidRecord report)) := by
  have within : "" ∈ recordSuffixes := by decide
  have reads := hosts.read_eq ns name within
  rw [← documentAt_below, ← documentPlace] at reads
  rw [document?_hosted hosts, DirectoryStore.read, reads]
  cases s.tree.text? (documentPlace place ns name) with
  | none => rfl
  | some text => rfl

/-- The place of a lock below the root's. -/
def lockPlace (place : Place) (ns name : DnsLabel) : Place :=
  place ++ [ns.text, name.text ++ ".json" ++ ".lock"]

theorem lock_hosted (timeout : Binary64) (free : lockPlace place ns name ∉ s.tree.locked) :
    ∃ t, lock s.tree (s.documentAt ns.text name.text) timeout = (.ok (lockPlace place ns name), t) ∧
      t.HostsIn s.root place ns ∧ t.locked = lockPlace place ns name :: s.tree.locked := by
  have within : ".lock" ∈ recordSuffixes := by decide
  have above : (s.root.below [ns.text, name.text ++ ".json" ++ ".lock"]).parent =
      s.root.below [ns.text] := by
    simp [Location.parent, Location.below, List.dropLast_append_of_ne_nil]
  obtain ⟨opened, made, inOpened, lockedOpened⟩ := hosts.makeDirectories ns
  obtain ⟨touched, touch, inTouched, lockedTouched⟩ := inOpened.touch name within
  have there := inTouched.placeOf_file name within
  have locked : touched.locked = s.tree.locked := lockedTouched.trans lockedOpened
  have taken : touched.lock? (lockPlace place ns name) =
      some { touched with locked := lockPlace place ns name :: touched.locked } := by
    rw [FileTree.lock?, if_neg (by simpa [locked] using free)]
  refine ⟨{ touched with locked := lockPlace place ns name :: touched.locked }, ?_, ⟨?_, ?_⟩, ?_⟩
  · rw [← lockPlace] at there
    simp only [lock, withSuffix_documentAt, above, made, touch, there, taken]
  · exact inTouched.toHosts.of_node?_eq fun _ => rfl
  · exact inTouched.opened
  · rw [locked]

end

section
variable {t : FileTree} {ns : DnsLabel} (hosts : t.HostsIn s.root place ns) (name : DnsLabel)
include hosts

theorem backUp_hosted : ∃ t', backUp t (s.documentAt ns.text name.text) = .ok t' ∧
    t'.HostsIn s.root place ns ∧ t'.locked = t.locked := by
  have reads := hosts.toHosts.read_eq ns name (show "" ∈ recordSuffixes by decide)
  rw [← documentAt_below] at reads
  simp only [backUp, reads, withSuffix_documentAt]
  cases t.text? (place ++ [ns.text, name.text ++ ".json" ++ ""]) with
  | none => exact ⟨t, rfl, hosts, rfl⟩
  | some text => exact hosts.write name (by decide) text

/-- Where no record's file is locked but for locks, a document is installed. -/
theorem install_hosted (unlocked : ∀ names, place ++ names ∈ t.locked →
      names = [ns.text, name.text ++ ".json" ++ ".lock"]) (document : String) :
    ∃ t', t.install (s.documentAt ns.text name.text) document = (.ok (), t') ∧
      t'.HostsIn s.root place ns ∧ t'.locked = t.locked := by
  have within : "" ∈ recordSuffixes := by decide
  have atDraft := hosts.toHosts.placeOf_beside ns (name.fits_draft t.draws.first)
  rw [hosts.opened] at atDraft
  have isDraft : (s.documentAt ns.text name.text).draft t.draws.first =
      s.root.below [ns.text, "." ++ (name.text ++ ".json" ++ "") ++ "." ++ t.draws.first.text] := by
    rw [documentAt_below, ← List.singleton_append, ← Location.below_below, Location.draft_below,
      Location.below_below]
    rfl
  have atDocument := hosts.placeOf_file name within
  rw [← documentAt_below] at atDocument
  have apart (suffix : String) : place ++ [ns.text, "." ++ (name.text ++ ".json" ++ "") ++ "." ++
      t.draws.first.text] ≠ place ++ [ns.text, name.text ++ ".json" ++ suffix] := by
    simpa using (name.file_ne_draft suffix (name.text ++ ".json" ++ "") t.draws.first).symm
  obtain ⟨t', installed, nodes, locked⟩ := FileTree.install_eq_ok (isDraft ▸ atDraft)
    (hosts.node?_draft ns name t.draws.first) atDocument (apart "") (hosts.node?_file ns _) document
  obtain ⟨t'', written, inWritten, -⟩ := hosts.write name within document
  have sameNodes : t'.nodes = t''.nodes := by
    obtain ⟨place'', there, -, rfl⟩ := FileTree.write_eq_ok.mp written
    rw [← documentAt_below, atDocument] at there
    exact nodes.trans (by rw [← Except.ok.inj there]; rfl)
  have same := FileTree.node?_congr sameNodes
  refine ⟨t', installed, ⟨inWritten.toHosts.of_node?_eq same, (same _).trans inWritten.opened⟩,
    locked (fun member => ?_) fun member => ?_⟩
  · exact apart ".lock" (congrArg _ (unlocked _ member))
  · have same := (List.cons.inj (List.cons.inj (unlocked _ member)).2).1
    exact absurd ((String.append_right_inj _).mp same) (by decide)

theorem write_hosted (unlocked : ∀ names, place ++ names ∈ t.locked →
      names = [ns.text, name.text ++ ".json" ++ ".lock"]) (document : Result String) :
    ∃ t', write t (s.documentAt ns.text name.text) document = ((fun _ => ()) <$> document, t') ∧
      t'.HostsIn s.root place ns ∧ t'.locked = t.locked ∧
      ∀ failure, document = .error failure → backUp t (s.documentAt ns.text name.text) = .ok t' := by
  obtain ⟨backed, backUp, inBacked, lockedBacked⟩ := backUp_hosted hosts name
  have above : (s.documentAt ns.text name.text).parent = s.root.below [ns.text] := by
    rw [documentAt_below, ← List.singleton_append, ← Location.below_below, Location.parent_below]
  have opened := FileTree.isDirectory_iff.mpr ⟨_, hosts.toHosts.placeOf_ns ns, hosts.opened⟩
  simp only [DirectoryStore.write, above, FileTree.makeDirectories_of_isDirectory opened, backUp]
  cases document with
  | error failure => exact ⟨backed, rfl, inBacked, lockedBacked, fun _ _ => rfl⟩
  | ok text =>
    obtain ⟨written, install, inWritten, lockedWritten⟩ :=
      install_hosted inBacked name (lockedBacked ▸ unlocked) text
    exact ⟨written, install, inWritten, lockedWritten.trans lockedBacked, nofun⟩

end

/-- What a publication comes to where nothing is in its way: the record before has to be readable, and
the one that follows it to have a document. -/
def following? (s : DirectoryStore limits) (r : Record) : Result Record := do
  let held ← s.read r.ns r.name
  (fun _ => r.following held) <$> (r.following held).document s.now

/-- In a tree that hosts records and has no locks on them, a record is published unless the one before
it cannot be read, and then nothing is written but a lock, or it has no document, and then the one
before is backed up all the same. -/
theorem publish_hosted (hosts : s.tree.Hosts s.root place) {ns name : DnsLabel} {r : Record}
    (atNs : r.ns = ns.text) (atName : r.name = name.text)
    (free : ∀ names, place ++ names ∉ s.tree.locked) :
    ∃ t, s.publish r = (unusable (s.documentAt ns.text name.text) (s.following? r),
        { s with tree := t }) ∧
      t.Hosts s.root place ∧ t.locked = s.tree.locked ∧
      (∀ failure, s.read ns.text name.text = .error failure →
        FileTree.Touches ((s.documentAt ns.text name.text).withSuffix ".lock") s.tree t) ∧
      ∀ held failure, s.read ns.text name.text = .ok held →
        (r.following held).document s.now = .error failure → ∃ t₁ t₂,
          lock s.tree (s.documentAt ns.text name.text) s.lockTimeout =
            (.ok (lockPlace place ns name), t₁) ∧
          t₁.placeOf (s.documentAt ns.text name.text) = .ok (documentPlace place ns name) ∧
          backUp t₁ (s.documentAt ns.text name.text) = .ok t₂ ∧ t.nodes = t₂.nodes := by
  obtain ⟨t, locked, inLocked, lockedIs⟩ := lock_hosted hosts ns name s.lockTimeout (free _)
  have unlocked : t.locked.erase (lockPlace place ns name) = s.tree.locked := by
    rw [lockedIs, List.erase_cons_head]
  have document : ({ s with tree := t } : DirectoryStore limits).document? ns.text name.text =
      s.document? ns.text name.text :=
    (leaves_of_keeps (keeps_lock locked) fun _ => beside_apart (by decide) (by decide)).document
  have readLocked : ({ s with tree := t } : DirectoryStore limits).read ns.text name.text =
      s.read ns.text name.text := by
    rw [read_hosted hosts, read_hosted (s := { s with tree := t }) inLocked.toHosts, document]
    rfl
  simp only [publish, following?, atNs, atName, locked, replace, readLocked]
  cases s.read ns.text name.text with
  | error failure =>
    exact ⟨t.unlock (lockPlace place ns name), rfl,
      inLocked.toHosts.of_node?_eq fun _ => rfl, unlocked,
      fun _ _ other => touches_lock locked other, nofun⟩
  | ok held =>
    have onlyLock (names : List String) (member : place ++ names ∈ t.locked) :
        names = [ns.text, name.text ++ ".json" ++ ".lock"] := by
      rw [lockedIs] at member
      rcases List.mem_cons.mp member with own | other
      · exact List.append_cancel_left own
      · exact absurd other (free names)
    obtain ⟨written, write, inWritten, lockedWritten, unwritten⟩ :=
      write_hosted inLocked name onlyLock ((r.following held).document s.now)
    refine ⟨written.unlock (lockPlace place ns name), ?_,
      inWritten.toHosts.of_node?_eq fun _ => rfl, ?_, nofun, ?_⟩
    · simp only [write, Result.ok_bind]
      cases (r.following held).document s.now <;> rfl
    · rw [FileTree.unlock, lockedWritten, unlocked]
    · rintro _ failure ⟨⟩ fails
      have there := inLocked.placeOf_file name (show "" ∈ recordSuffixes by decide)
      rw [← documentAt_below] at there
      exact ⟨t, written, rfl, there, unwritten failure fails, rfl⟩

/-- A record that was published is what its document is written of. -/
theorem document?_published {ns name : DnsLabel} {r stored : Record} {s' : DirectoryStore limits}
    (atNs : r.ns = ns.text) (atName : r.name = name.text)
    (published : s.publish r = (.ok stored, s')) :
    ∃ text, stored.document s.now = .ok text ∧ s'.document? ns.text name.text = some text := by
  obtain ⟨⟨_, text, -, -, written, holds⟩, -⟩ := publish_ok published
  rw [atNs, atName, ← documentAt_of_publish published] at holds
  exact ⟨text, written, document?_of_text holds⟩

/-- The root hosts documents of the records that are held, nothing below it is locked, and each
document is written of its record. -/
structure Holds (s : DirectoryStore limits) (place : Place) (written : String → Record → Prop)
    (held : String → String → Option Record) : Prop where
  hosts : s.tree.Hosts s.root place
  free : ∀ names, place ++ names ∉ s.tree.locked
  documents : ∀ ns name : DnsLabel,
    Option.Rel written (s.document? ns.text name.text) (held ns.text name.text)

/-- The store at the moment. -/
def tell (s : DirectoryStore limits) (now : String) : DirectoryStore limits :=
  { s with now := now }

namespace Holds
variable {written : String → Record → Prop} {held held' : String → String → Option Record}
variable (holds : s.Holds place written held) {ns name : DnsLabel} {r : Record}
variable {s' : DirectoryStore limits} (atNs : r.ns = ns.text) (atName : r.name = name.text)
include holds atNs atName

theorem hosts_published {outcome : Result Record} (published : s.publish r = (outcome, s')) :
    s'.tree.Hosts s'.root place ∧ ∀ names, place ++ names ∉ s'.tree.locked := by
  obtain ⟨t, publishes, hosts, locked, -⟩ := publish_hosted holds.hosts atNs atName holds.free
  rw [published] at publishes
  obtain ⟨-, rfl⟩ := Prod.mk.inj publishes
  exact ⟨hosts, by simpa only [locked] using holds.free⟩

/-- After a publication its record is held in place of the one before it. -/
theorem published {stored : Record} (published : s.publish r = (.ok stored, s'))
    (document : ∀ text, stored.document s.now = .ok text → written text stored)
    (own : held' ns.text name.text = some stored)
    (others : ∀ ns' name', (ns', name') ≠ (ns.text, name.text) → held' ns' name' = held ns' name') :
    s'.Holds place written held' := by
  obtain ⟨hosts, free⟩ := holds.hosts_published atNs atName published
  refine ⟨hosts, free, fun ns' name' => ?_⟩
  by_cases key : (ns'.text, name'.text) = (ns.text, name.text)
  · obtain ⟨sameNs, sameName⟩ := Prod.mk.inj key
    obtain ⟨text, isDocument, after⟩ := document?_published atNs atName published
    rw [sameNs, sameName, own, after]
    exact .some (document text isDocument)
  · rw [(publish_ok_other atNs atName published key).document, others _ _ key]
    exact holds.documents ns' name'

/-- After a refused publication the same records are held. -/
theorem refused {failure : Failure} (published : s.publish r = (.error failure, s')) :
    s'.Holds place written held := by
  obtain ⟨hosts, free⟩ := holds.hosts_published atNs atName published
  refine ⟨hosts, free, fun ns' name' => ?_⟩
  rw [(publish_error published _ _).document]
  exact holds.documents ns' name'

omit atNs atName in
theorem tell (now : String) : (s.tell now).Holds place written held :=
  ⟨holds.hosts, holds.free, holds.documents⟩

end Holds

/-- The store after its root has been made. -/
def rooted (s : DirectoryStore limits) : DirectoryStore limits :=
  { s with tree := (s.tree.makeDirectories s.root).2 }

theorem rooted_eq (there : s.tree.isDirectory s.root = true) : s.rooted = s := by
  rw [rooted, FileTree.makeDirectories_of_isDirectory there]

/-- The root can be made where it is not there, and then nothing stands below it and nothing is
locked there. -/
structure IsFresh (s : DirectoryStore limits) (place : Place) : Prop where
  made : (s.tree.makeDirectories s.root).1 = .ok ()
  atPlace : s.root.place? = some place
  short : s.root.length + 150 ≤ FileTree.longestPath
  empty : ∀ names, names ≠ [] → s.rooted.tree.node? (place ++ names) = none
  free : ∀ names, place ++ names ∉ s.rooted.tree.locked

namespace IsFresh
variable (fresh : s.IsFresh place)
include fresh

theorem makeDirectories : s.tree.makeDirectories s.root = (.ok (), s.rooted.tree) :=
  Prod.ext fresh.made rfl

theorem hosts : s.rooted.tree.Hosts s.root place := by
  obtain ⟨place', there, directory⟩ := FileTree.isDirectory_iff.mp
    (FileTree.isDirectory_of_makeDirectories fresh.makeDirectories)
  cases Option.some.inj ((FileTree.place?_of_placeOf there).symm.trans fresh.atPlace)
  refine ⟨there, directory, fresh.short, ?_, ?_⟩
  · intro names node given found
    rw [fresh.empty names given] at found
    cases found
  · intro ns file found
    exact absurd (fresh.empty [ns, file] (by simp)) found

/-- A fresh root holds nothing once it is made. -/
theorem holds (written : String → Record → Prop) :
    s.rooted.Holds place written fun _ _ => none := by
  refine ⟨fresh.hosts, fresh.free, fun ns name => ?_⟩
  have nothing : s.rooted.document? ns.text name.text = none := by
    rw [document?_hosted fresh.hosts, documentPlace, FileTree.text?, fresh.empty _ (by simp)]
  rw [nothing]
  exact .none

theorem tell (now : String) : (s.tell now).IsFresh place :=
  ⟨fresh.made, fresh.atPlace, fresh.short, fresh.empty, fresh.free⟩

theorem drawing (draws : Draws) :
    ({ s with tree := s.tree.drawing draws } : DirectoryStore limits).IsFresh place := by
  obtain ⟨made, atPlace, short, empty, free⟩ := fresh
  have same := s.tree.makeDirectories_drawing draws s.root
  refine ⟨?_, atPlace, short, ?_, ?_⟩
  · rw [same]
    exact made
  · rw [rooted, same]
    exact empty
  · rw [rooted, same]
    exact free

/-- In a root that is still to be made there is nothing to read. -/
theorem read_eq (missing : s.tree.isDirectory s.root = false) (ns name : DnsLabel) :
    s.read ns.text name.text = .ok none := by
  have within : "" ∈ recordSuffixes := by decide
  have fits := name.fits_file within
  have sizes := fits.sum_sizes_le ns
  have short := fresh.short
  have nowhere := (FileTree.isDirectory_or_missing fresh.made).resolve_left (by simp [missing])
    _ (List.cons_ne_nil _ _) (fits.noNul_names ns) (by omega)
  rw [DirectoryStore.read, documentAt_below, FileTree.read, nowhere]
  rfl

/-- A publication makes the root if it is not there. -/
theorem publish_eq {r : Record} {ns name : DnsLabel} (atNs : r.ns = ns.text)
    (atName : r.name = name.text) : s.publish r = s.rooted.publish r := by
  have above : ((s.documentAt r.ns r.name).withSuffix ".lock").parent = s.root.below [ns.text] := by
    rw [atNs, atName, withSuffix_documentAt]
    simp [Location.parent, Location.below, List.dropLast_append_of_ne_nil]
  have made := fresh.hosts.makeDirectories_of_made ns fresh.makeDirectories
  have locks (timeout : Binary64) : lock s.tree (s.documentAt r.ns r.name) timeout =
      lock s.rooted.tree (s.documentAt r.ns r.name) timeout := by
    simp only [lock, above, made]
  simp only [publish, locks]
  rfl

end IsFresh

/-- A store in a base directory without files. Its root is still to be made. -/
def ofNothing (limits : Json.Limits) : DirectoryStore limits where
  tree := {}
  root := ⟨"base", ["outputs"]⟩
  lockTimeout := default
  now := ""

theorem isFresh_ofNothing (limits : Json.Limits) : (ofNothing limits).IsFresh ["outputs"] := by
  have short : (⟨"base", ["outputs"]⟩ : Location).length + 150 ≤ FileTree.longestPath := by decide
  refine ⟨rfl, rfl, short, fun names given => ?_, fun names locked => ?_⟩
  · show FileTree.node? { nodes := [(["outputs"], .directory)] } ("outputs" :: names) = none
    simpa [FileTree.node?, Table.find?] using given
  · cases locked

end WorkloadConfig.DirectoryStore
