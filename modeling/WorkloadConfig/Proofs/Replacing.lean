import WorkloadConfig.Proofs.Drafts
import WorkloadConfig.Proofs.Lookup
import WorkloadConfig.Store.Directory

namespace WorkloadConfig

namespace Location

theorem splitOn_append_plain {s : List Char} (rest : List Char) (plain : '/' ∉ s) :
    ∃ pieces piece, (rest ++ s).splitOn '/' = pieces ++ [piece ++ s] := by
  induction rest with
  | nil => exact ⟨[], [], List.splitOn_eq_singleton plain⟩
  | cons c rest ih =>
    obtain ⟨pieces, piece, split⟩ := ih
    rw [List.splitOn_eq_splitOnP] at split
    rw [List.cons_append, List.splitOn_eq_splitOnP, List.splitOnP_cons_eq_if_modifyHead, split]
    split
    · exact ⟨[] :: pieces, piece, rfl⟩
    · cases pieces with
      | nil => exact ⟨[], c :: piece, rfl⟩
      | cons first others => exact ⟨(c :: first) :: others, piece, rfl⟩

/-- The path of a document ends in a name with the ending of documents. -/
theorem exists_partsOf_document (name : String) :
    ∃ parts stem, partsOf (name ++ ".json") = parts ++ [stem ++ ".json"] := by
  obtain ⟨pieces, piece, split⟩ :=
    splitOn_append_plain (s := ".json".toList) name.toList (by decide)
  refine ⟨(pieces.map String.ofList).filter fun part => part ≠ "" && part ≠ ".", .ofList piece, ?_⟩
  have ending : String.ofList (piece ++ ".json".toList) = .ofList piece ++ ".json" := by
    rw [String.ofList_append, String.ofList_toList]
  have apart (other : String) (short : other.length < 5) : .ofList piece ++ ".json" ≠ other := by
    rintro rfl
    rw [String.length_append, show ".json".length = 5 from rfl] at short
    omega
  rw [partsOf, String.toList_append, split, List.map_append, List.filter_append, List.map_singleton,
    ending, List.filter_cons, if_pos, List.filter_nil]
  simp [apart "" (by decide), apart "." (by decide)]

/-- The file of a record in the directory, told by its ending from the others of the record. -/
def record (above : Location) (stem suffix : String) : Location :=
  above.below [stem ++ ".json" ++ suffix]

theorem exists_join_document (l : Location) (name : String) :
    ∃ (above : Location) (stem : String), l.join (name ++ ".json") = above.record stem "" := by
  obtain ⟨parts, stem, same⟩ := exists_partsOf_document name
  simp only [join, record, String.append_empty]
  split
  · exact ⟨⟨"", parts⟩, stem, by rw [same, below]⟩
  · exact ⟨l.below parts, stem, by rw [same, below, below, List.append_assoc]⟩

section
variable (above : Location) (stem : String)

theorem file_ne_parent (suffix : String) : stem ++ ".json" ++ suffix ≠ ".." := by
  intro same
  have length := congrArg String.length same
  simp only [String.length_append, show ".json".length = 5 from rfl,
    show "..".length = 2 from rfl] at length
  omega

theorem withSuffix_record (suffix : String) :
    (above.record stem "").withSuffix suffix = above.record stem suffix := by
  rw [record, withSuffix_below, String.append_empty, record]

theorem parent_record (suffix : String) : (above.record stem suffix).parent = above :=
  parent_below above _

variable {above stem} {suffix other : String} {place : Place}

theorem place?_record : (above.record stem suffix).place? =
    above.place?.map (· ++ [stem ++ ".json" ++ suffix]) :=
  place?_below_of_down _ (by simpa using (file_ne_parent stem suffix).symm)

theorem getLast?_of_place?_record (one : (above.record stem suffix).place? = some place) :
    place.getLast? = some (stem ++ ".json" ++ suffix) := by
  rw [place?_record, Option.map_eq_some_iff] at one
  obtain ⟨here, -, rfl⟩ := one
  exact List.getLast?_concat

/-- Files of one record with different endings are in different places. -/
theorem eq_of_place?_record (one : (above.record stem suffix).place? = some place)
    (two : (above.record stem other).place? = some place) : suffix = other :=
  (String.append_right_inj _).mp (Option.some.inj
    ((getLast?_of_place?_record one).symm.trans (getLast?_of_place?_record two)))

theorem record_apart (different : suffix ≠ other) (one : (above.record stem suffix).place? = some place) :
    ¬ (above.record stem other).place? = some place :=
  fun two => different (eq_of_place?_record one two)

/-- If one file of a record has a place, the others have one. -/
theorem exists_place?_record (one : (above.record stem suffix).place? = some place) (other : String) :
    ∃ place', (above.record stem other).place? = some place' := by
  rw [place?_record, Option.map_eq_some_iff] at one
  obtain ⟨here, atHere, -⟩ := one
  exact ⟨_, by rw [place?_record, atHere]; rfl⟩

end
end Location

namespace FileTree
variable {t t' : FileTree} {l : Location} {place : Place} {text : String}

theorem Keeps.of_put (nodes : t'.nodes = t.nodes.put place (.file text))
    (below : t.node? place ≠ some .directory) : Keeps (place = ·) t t' := by
  refine ⟨fun other directory => ?_, fun other apart => ?_⟩
  · rw [node?_of_put nodes below, if_neg, directory]
    rintro rfl
    exact below directory
  · rw [text?_of_put nodes below, if_neg (Ne.symm apart)]

theorem Keeps.of_nodes {marked : Place → Prop} (same : t'.nodes = t.nodes) : Keeps marked t t' :=
  ⟨fun place directory => (node?_congr same place).trans directory,
    fun place _ => text?_congr same place⟩

theorem Keeps.isDirectory {marked : Place → Prop} (keeps : Keeps marked t t')
    (directory : t.isDirectory l = true) : t'.isDirectory l = true := by
  obtain ⟨place, there, directory⟩ := isDirectory_iff.mp directory
  exact isDirectory_iff.mpr ⟨place, keeps.placeOf there, keeps.directories place directory⟩

/-- A location apart from the marked places holds what it held. -/
theorem Keeps.bind_text? {marked : Place → Prop} (keeps : Keeps marked t t')
    (apart : ∀ place, l.place? = some place → ¬ marked place) :
    l.place?.bind t'.text? = l.place?.bind t.text? := by
  cases atPlace : l.place? with
  | none => rfl
  | some place => exact keeps.texts place (apart place atPlace)

/-- Each text is as before, or it is that of a new empty file at the location. -/
def Touches (l : Location) (t t' : FileTree) : Prop :=
  ∀ place, t'.text? place = t.text? place ∨
    l.place? = some place ∧ t.text? place = none ∧ t'.text? place = some ""

theorem touches_touch (touched : t.touch l = .ok t') : Touches l t t' := by
  obtain ⟨keeps, place, there, text⟩ := keeps_touch touched
  have atPlace := place?_of_placeOf there
  intro other
  by_cases same : other = place
  · subst same
    cases before : t.text? other with
    | none => exact .inr ⟨atPlace, rfl, by rw [text, before]; rfl⟩
    | some old => exact .inl (by rw [text, before]; rfl)
  · exact .inl (keeps.texts other fun atOther => same (Option.some.inj (atOther.symm.trans atPlace)))

end FileTree

namespace DirectoryStore
open FileTree (Keeps Touches)

variable {limits : Json.Limits} {s s' : DirectoryStore limits} {t t' : FileTree} {l : Location}

/-- The text that stands where the document of a record belongs. -/
def document? (s : DirectoryStore limits) (ns name : String) : Option String :=
  (s.documentAt ns name).place?.bind s.tree.text?

theorem exists_documentAt (s : DirectoryStore limits) (ns name : String) :
    ∃ (above : Location) (stem : String), s.documentAt ns name = above.record stem "" :=
  (s.root.join ns).exists_join_document name

theorem unusable_ne_ok {α : Type} {failure : Failure} {a : α} :
    unusable l (.error failure : Result α) ≠ .ok a := by
  unfold unusable
  split <;> simp [Result.fail]

theorem unusable_eq_ok {α : Type} {outcome : Result α} {a : α} :
    unusable l outcome = .ok a ↔ outcome = .ok a := by
  cases outcome with
  | ok b => rfl
  | error failure => simp [unusable_ne_ok]

theorem read_eq_some {ns name : String} {record : Record} :
    s.read ns name = .ok (some record) ↔
      ∃ text, s.tree.read (s.documentAt ns name) = .ok text ∧ Record.ofDocument limits text = .ok record := by
  simp only [DirectoryStore.read]
  cases s.tree.read (s.documentAt ns name) with
  | ok text =>
    simp only [Except.ok.injEq, exists_eq_left']
    cases Record.ofDocument limits text <;> simp [Result.fail]
  | error failure =>
    simp only [reduceCtorEq, false_and, exists_false, iff_false]
    split
    · rename_i same
      cases same
    · simp
    · rename_i failure' _ same
      cases same
      unfold unusable
      split
      · simp [Result.fail]
      · simp

/-- What was read is what the document holds, wherever the document's place is. -/
theorem document?_of_read {ns name : String} {place : Place} {held : Option Record}
    (there : s.tree.placeOf (s.documentAt ns name) = .ok place) (read : s.read ns name = .ok held) :
    (s.document? ns name).map (Record.ofDocument limits) = held.map .ok := by
  rw [document?, FileTree.place?_of_placeOf there, Option.bind_some]
  cases held with
  | some record =>
    obtain ⟨text, holds, parsed⟩ := read_eq_some.mp read
    obtain ⟨place', there', atPlace⟩ := FileTree.read_eq_ok.mp holds
    cases Except.ok.inj (there.symm.trans there')
    simp only [atPlace, Option.map_some, parsed]
  | none =>
    cases atPlace : s.tree.text? place with
    | none => rfl
    | some text =>
      have holds := FileTree.read_eq_ok.mpr ⟨place, there, atPlace⟩
      unfold DirectoryStore.read at read
      simp only [holds] at read
      split at read
      · cases read
      · cases read

section
variable {timeout : Binary64} {outcome : Result Place}

/-- Either the directories cannot be made, or they are there with a file to lock in them, at the place
that is locked. -/
theorem lock_cases (locked : lock t l timeout = (outcome, t')) :
    (∃ failure, outcome = .error failure ∧ Keeps (fun _ => False) t t') ∨
      ∃ t₁ t₂, Keeps (fun _ => False) t t₁ ∧
        t₁.isDirectory (l.withSuffix ".lock").parent = true ∧
        t₁.touch (l.withSuffix ".lock") = .ok t₂ ∧ t'.nodes = t₂.nodes ∧
        ∀ place, outcome = .ok place → t₂.placeOf (l.withSuffix ".lock") = .ok place := by
  have unmade := FileTree.keeps_makeDirectories t (l.withSuffix ".lock").parent
  unfold lock at locked
  dsimp only at locked
  split at locked
  · rename_i made
    rw [made] at unmade
    cases locked
    exact .inl ⟨_, rfl, unmade⟩
  · rename_i t₁ made
    rw [made] at unmade
    split at locked
    · cases locked
      exact .inl ⟨_, rfl, unmade⟩
    · rename_i t₂ touched
      refine .inr ⟨t₁, t₂, unmade, FileTree.isDirectory_of_makeDirectories made, touched, ?_⟩
      split at locked
      · cases locked
        exact ⟨rfl, fun _ impossible => nomatch impossible⟩
      · rename_i place there
        split at locked
        · rename_i t₃ taken
          cases locked
          refine ⟨?_, fun _ same => Except.ok.inj same ▸ there⟩
          unfold FileTree.lock? at taken
          split at taken <;> cases taken
          rfl
        · cases locked
          exact ⟨rfl, fun _ impossible => nomatch impossible⟩

theorem keeps_lock (locked : lock t l timeout = (outcome, t')) :
    Keeps ((l.withSuffix ".lock").place? = some ·) t t' := by
  rcases lock_cases locked with ⟨failure, rfl, unmade⟩ | ⟨t₁, t₂, unmade, -, touched, nodes, -⟩
  · exact unmade.mono fun _ => False.elim
  · exact ((unmade.mono fun _ => False.elim).trans (FileTree.keeps_touch touched).1).trans
      (.of_nodes nodes)

theorem touches_lock (locked : lock t l timeout = (outcome, t')) :
    Touches (l.withSuffix ".lock") t t' := by
  intro place
  rcases lock_cases locked with ⟨failure, rfl, unmade⟩ | ⟨t₁, t₂, unmade, -, touched, nodes, -⟩
  · exact .inl (unmade.texts place not_false)
  · rw [FileTree.text?_congr nodes, ← unmade.texts place not_false]
    exact FileTree.touches_touch touched place

/-- A lock that is taken is a file in a directory. -/
theorem lock_ok {place : Place} (locked : lock t l timeout = (.ok place, t')) :
    t'.isDirectory (l.withSuffix ".lock").parent = true ∧
      (l.withSuffix ".lock").place? = some place ∧
      t'.text? place = some ((t.text? place).getD "") := by
  rcases lock_cases locked with
    ⟨failure, impossible, -⟩ | ⟨t₁, t₂, unmade, opened, touched, nodes, atPlace⟩
  · cases impossible
  · obtain ⟨keeps, place', there, text⟩ := FileTree.keeps_touch touched
    have there' := atPlace place rfl
    cases Except.ok.inj (there'.symm.trans (keeps.placeOf there))
    have unlocked : Keeps (fun _ => False) t₂ t' := .of_nodes nodes
    refine ⟨unlocked.isDirectory (keeps.isDirectory opened), FileTree.place?_of_placeOf there', ?_⟩
    rw [FileTree.text?_congr nodes, text, unmade.texts place not_false]

end

section
variable {above : Location} {stem : String}

/-- The text of the document, if there is one, stands in the backup too; nothing else has changed. -/
inductive BackedUp (above : Location) (stem : String) (t t' : FileTree) : Prop
  | nothing : t'.nodes = t.nodes →
      (∀ place, t.placeOf (above.record stem "") = .ok place → t.text? place = none) →
      BackedUp above stem t t'
  | copied {place backup : Place} {text : String} : t.placeOf (above.record stem "") = .ok place →
      t.text? place = some text → t.placeOf (above.record stem ".backup") = .ok backup →
      t.node? backup ≠ some .directory → t'.nodes = t.nodes.put backup (.file text) →
      BackedUp above stem t t'

theorem backedUp_of_backUp (backed : backUp t (above.record stem "") = .ok t') :
    BackedUp above stem t t' := by
  unfold backUp at backed
  rw [Location.withSuffix_record] at backed
  split at backed
  · rename_i text reads
    obtain ⟨place, there, holds⟩ := FileTree.read_eq_ok.mp reads
    obtain ⟨backup, atBackup, below, rfl⟩ := FileTree.write_eq_ok.mp backed
    exact .copied there holds atBackup below rfl
  · rename_i path missing
    cases backed
    refine .nothing rfl fun place there => Option.eq_none_iff_forall_ne_some.mpr fun text holds => ?_
    have reads := FileTree.read_eq_ok.mpr ⟨place, there, holds⟩
    rw [missing] at reads
    cases reads
  · cases backed

/-- Each text is as before, or it is that of the document, in its backup. -/
def Copies (above : Location) (stem : String) (t t' : FileTree) : Prop :=
  ∀ place, t'.text? place = t.text? place ∨ (above.record stem ".backup").place? = some place ∧
    ∃ text, (above.record stem "").place?.bind t.text? = some text ∧ t'.text? place = some text

namespace BackedUp
variable (backed : BackedUp above stem t t')
include backed

theorem keeps : Keeps ((above.record stem ".backup").place? = some ·) t t' := by
  cases backed with
  | nothing nodes => exact .of_nodes nodes
  | copied _ _ atBackup below nodes =>
    exact (Keeps.of_put nodes below).mono fun _ same => same ▸ FileTree.place?_of_placeOf atBackup

theorem copies : Copies above stem t t' := by
  intro place
  cases backed with
  | nothing nodes => exact .inl (FileTree.text?_congr nodes place)
  | @copied document backup text there holds atBackup below nodes =>
    rw [FileTree.text?_of_put nodes below]
    split
    · rename_i same
      subst same
      refine .inr ⟨FileTree.place?_of_placeOf atBackup, text, ?_, rfl⟩
      rw [FileTree.place?_of_placeOf there, Option.bind_some, holds]
    · exact .inl rfl

theorem text_backup {place backup : Place} (there : t.placeOf (above.record stem "") = .ok place)
    (atBackup : (above.record stem ".backup").place? = some backup) :
    t'.text? backup = (t.text? place).or (t.text? backup) := by
  cases backed with
  | nothing nodes missing => rw [FileTree.text?_congr nodes, missing place there, Option.none_or]
  | copied there' holds atBackup' below nodes =>
    cases Except.ok.inj (there.symm.trans there')
    cases Option.some.inj (atBackup.symm.trans (FileTree.place?_of_placeOf atBackup'))
    rw [FileTree.text?_of_put nodes below, if_pos rfl, holds, Option.some_or]

theorem placeOf_iff {place : Place} : t'.placeOf l = .ok place ↔ t.placeOf l = .ok place := by
  cases backed with
  | nothing nodes => exact FileTree.placeOf_iff fun here => by rw [FileTree.node?_congr nodes]
  | copied _ _ _ below nodes => exact FileTree.placeOf_iff_of_put nodes below

end BackedUp

/-- In a directory that is there, writing a document fails and leaves at most its backup, or it writes
the document after its backup. -/
theorem write_cases (opened : t.isDirectory above = true) {document : Result String}
    {outcome : Result Unit}
    (written : write t (above.record stem "") document = (outcome, t')) :
    (∃ failure, outcome = .error failure ∧
      Keeps ((above.record stem ".backup").place? = some ·) t t' ∧ Copies above stem t t') ∨
    outcome = .ok () ∧ ∃ text place t₁, document = .ok text ∧ BackedUp above stem t t₁ ∧
      t.placeOf (above.record stem "") = .ok place ∧ t₁.node? place ≠ some .directory ∧
      t'.nodes = t₁.nodes.put place (.file text) := by
  unfold write at written
  rw [Location.parent_record, FileTree.makeDirectories_of_isDirectory opened] at written
  dsimp only at written
  split at written
  · cases written
    exact .inl ⟨_, rfl, .refl _ t, fun _ => .inl rfl⟩
  · rename_i t₁ backed
    have backed := backedUp_of_backUp backed
    split at written
    · cases written
      exact .inl ⟨_, rfl, backed.keeps, backed.copies⟩
    · rename_i text
      rcases FileTree.install_cases (Location.file_ne_parent stem "") written with
        ⟨failure, rfl, nodes⟩ | ⟨rfl, place, there, below, nodes⟩
      · refine .inl ⟨failure, rfl, backed.keeps.trans (.of_nodes nodes), fun place => ?_⟩
        rw [FileTree.text?_congr nodes]
        exact backed.copies place
      · exact .inr ⟨rfl, text, place, t₁, rfl, backed, backed.placeOf_iff.mp there, below, nodes⟩

/-- Under the lock, the record that follows the one before it is written, or nothing but the backup. -/
theorem replace_cases {r : Record} {outcome : Result Record} (opened : s.tree.isDirectory above = true)
    (replaced : s.replace (above.record stem "") r = (outcome, t')) :
    (∃ failure, outcome = .error failure ∧
      Keeps ((above.record stem ".backup").place? = some ·) s.tree t' ∧ Copies above stem s.tree t') ∨
    ∃ held text place t₁, s.read r.ns r.name = .ok held ∧ outcome = .ok (r.following held) ∧
      (r.following held).document s.now = .ok text ∧ BackedUp above stem s.tree t₁ ∧
      s.tree.placeOf (above.record stem "") = .ok place ∧ t₁.node? place ≠ some .directory ∧
      t'.nodes = t₁.nodes.put place (.file text) := by
  unfold replace at replaced
  split at replaced
  · cases replaced
    exact .inl ⟨_, rfl, .refl _ _, fun _ => .inl rfl⟩
  · rename_i held reads
    rcases written : write s.tree (above.record stem "") ((r.following held).document s.now) with
      ⟨done, t₀⟩
    simp only [written] at replaced
    obtain ⟨rfl, rfl⟩ := Prod.mk.inj replaced
    rcases write_cases opened written with ⟨failure, rfl, left⟩ | ⟨rfl, text, place, t₁, backed⟩
    · exact .inl ⟨failure, rfl, left⟩
    · exact .inr ⟨held, text, place, t₁, reads, rfl, backed⟩

/-- A record that was written stands in its document, and the document before in the backup. -/
theorem replace_ok_files {r stored : Record} (opened : s.tree.isDirectory above = true)
    (replaced : s.replace (above.record stem "") r = (.ok stored, t')) :
    ∃ held text document backup, s.read r.ns r.name = .ok held ∧ stored = r.following held ∧
      stored.document s.now = .ok text ∧ s.tree.placeOf (above.record stem "") = .ok document ∧
      (above.record stem ".backup").place? = some backup ∧
      Keeps (fun place => place = document ∨ place = backup) s.tree t' ∧
      t'.text? document = some text ∧
      t'.text? backup = (s.tree.text? document).or (s.tree.text? backup) := by
  rcases replace_cases opened replaced with
    ⟨_, impossible, -⟩ | ⟨held, text, document, t₁, reads, same, written, backed, there, below, nodes⟩
  · cases impossible
  · cases same
    have atDocument := FileTree.place?_of_placeOf there
    obtain ⟨backup, atBackup⟩ := Location.exists_place?_record atDocument ".backup"
    have apart : backup ≠ document := by
      rintro rfl
      exact Location.record_apart (by decide) atDocument atBackup
    refine ⟨held, text, document, backup, reads, rfl, written, there, atBackup, ?_, ?_, ?_⟩
    · refine (backed.keeps.mono fun place beside => ?_).trans
        ((Keeps.of_put nodes below).mono fun place same => .inl same.symm)
      exact .inr (Option.some.inj (beside.symm.trans atBackup))
    · rw [FileTree.text?_of_put nodes below, if_pos rfl]
    · rw [FileTree.text?_of_put nodes below, if_neg apart, backed.text_backup there atBackup]

end

theorem publish_cases {r : Record} {outcome : Result Record} (published : s.publish r = (outcome, s')) :
    (∃ failure t, lock s.tree (s.documentAt r.ns r.name) s.lockTimeout = (.error failure, t) ∧
      outcome = unusable (s.documentAt r.ns r.name) (.error failure) ∧ s' = { s with tree := t }) ∨
    ∃ place t under t', lock s.tree (s.documentAt r.ns r.name) s.lockTimeout = (.ok place, t) ∧
      ({ s with tree := t } : DirectoryStore limits).replace (s.documentAt r.ns r.name) r = (under, t') ∧
      outcome = unusable (s.documentAt r.ns r.name) under ∧
      s' = { s with tree := t'.unlock place } := by
  unfold publish at published
  dsimp only at published
  split at published
  · rename_i failure t locked
    cases published
    exact .inl ⟨failure, t, locked, rfl, rfl⟩
  · rename_i place t locked
    cases published
    exact .inr ⟨place, t, _, _, locked, rfl, rfl, rfl⟩

/-- A publication that fails leaves each file as it was, but for a new empty lock and a backup that is a
copy of the document. -/
theorem publish_error_files {r : Record} {failure : Failure}
    (published : s.publish r = (.error failure, s')) :
    ∃ t, s' = { s with tree := t } ∧
      Keeps (fun place => ((s.documentAt r.ns r.name).withSuffix ".lock").place? = some place ∨
        ((s.documentAt r.ns r.name).withSuffix ".backup").place? = some place) s.tree t ∧
      ∀ place, t.text? place = s.tree.text? place ∨
        (((s.documentAt r.ns r.name).withSuffix ".lock").place? = some place ∧
          s.tree.text? place = none ∧ t.text? place = some "") ∨
        ((s.documentAt r.ns r.name).withSuffix ".backup").place? = some place ∧
          ∃ text, s.document? r.ns r.name = some text ∧ t.text? place = some text := by
  rcases publish_cases published with ⟨failure, t, locked, -, rfl⟩ |
    ⟨place, t, under, t', locked, replaced, outcome, rfl⟩
  · exact ⟨t, rfl, (keeps_lock locked).mono fun _ => .inl,
      fun place => (touches_lock locked place).imp_right .inl⟩
  · have lockKeeps := keeps_lock locked
    have touches := touches_lock locked
    have opened := (lock_ok locked).1
    unfold document?
    obtain ⟨above, stem, document⟩ := s.exists_documentAt r.ns r.name
    rw [document] at replaced outcome lockKeeps touches opened ⊢
    simp only [Location.withSuffix_record, Location.parent_record] at lockKeeps touches opened ⊢
    rcases replace_cases (s := { s with tree := t }) opened replaced with
      ⟨failure, -, keeps, copies⟩ | ⟨held, _, _, _, -, rfl, -⟩
    · refine ⟨_, rfl, ?_, fun other => ?_⟩
      · exact ((lockKeeps.mono fun _ => .inl).trans (keeps.mono fun _ => .inr)).trans (.of_nodes rfl)
      · rw [show (t'.unlock place).text? other = t'.text? other from FileTree.text?_congr rfl other]
        rcases copies other with same | ⟨atBackup, text, holds, copied⟩
        · rw [same]
          exact (touches other).imp_right .inl
        · refine .inr (.inr ⟨atBackup, text, ?_, copied⟩)
          rw [← holds]
          exact (lockKeeps.bind_text? fun _ => Location.record_apart (by decide)).symm
    · cases outcome

/-- A publication that succeeds writes the record that follows the one in the document, keeps the document
before as its backup, leaves the lock behind, and changes no other file. -/
theorem publish_ok_files {r stored : Record} (published : s.publish r = (.ok stored, s')) :
    ∃ t held text document lock backup, s' = { s with tree := t } ∧ stored = r.following held ∧
      stored.document s.now = .ok text ∧
      (s.document? r.ns r.name).map (Record.ofDocument limits) = held.map .ok ∧
      t.placeOf (s.documentAt r.ns r.name) = .ok document ∧
      ((s.documentAt r.ns r.name).withSuffix ".lock").place? = some lock ∧
      ((s.documentAt r.ns r.name).withSuffix ".backup").place? = some backup ∧
      Keeps (fun place => place = document ∨ place = lock ∨ place = backup) s.tree t ∧
      t.text? document = some text ∧
      t.text? lock = some ((s.tree.text? lock).getD "") ∧
      t.text? backup = (s.tree.text? document).or (s.tree.text? backup) := by
  rcases publish_cases published with ⟨_, _, -, impossible, -⟩ |
    ⟨lockPlace, t, under, t', locked, replaced, outcome, rfl⟩
  · exact absurd impossible.symm unusable_ne_ok
  · have lockKeeps := keeps_lock locked
    obtain ⟨opened, atLock, lockText⟩ := lock_ok locked
    rw [unusable_eq_ok.mp outcome.symm] at replaced
    obtain ⟨above, stem, isDocument⟩ := s.exists_documentAt r.ns r.name
    rw [isDocument] at replaced lockKeeps opened atLock
    simp only [Location.withSuffix_record, Location.parent_record] at lockKeeps opened atLock
    obtain ⟨held, text, document, backup, reads, same, written, there, atBackup, keeps, texts,
      backupText⟩ := replace_ok_files (s := { s with tree := t }) opened replaced
    have atDocument := FileTree.place?_of_placeOf there
    have documentText : t.text? document = s.tree.text? document :=
      lockKeeps.texts document (Location.record_apart (by decide) atDocument)
    have backupBefore : t.text? backup = s.tree.text? backup :=
      lockKeeps.texts backup (Location.record_apart (by decide) atBackup)
    have lockApart : lockPlace ≠ document ∧ lockPlace ≠ backup :=
      ⟨fun eq => Location.record_apart (by decide) atLock (eq ▸ atDocument),
        fun eq => Location.record_apart (by decide) atLock (eq ▸ atBackup)⟩
    have before := document?_of_read (s := { s with tree := t }) (isDocument ▸ there) reads
    have sameDocument : ({ s with tree := t } : DirectoryStore limits).document? r.ns r.name =
        s.document? r.ns r.name := by
      refine lockKeeps.bind_text? fun place atPlace => ?_
      exact Location.record_apart (by decide) (isDocument ▸ atPlace)
    rw [sameDocument] at before
    simp only [isDocument, Location.withSuffix_record]
    have underLock := keeps.trans (FileTree.keeps_unlock t' lockPlace)
    refine ⟨_, held, text, document, lockPlace, backup, rfl, same, written, before,
      underLock.placeOf there, atLock, atBackup, ?_, texts, ?_, ?_⟩
    · refine (lockKeeps.mono fun place beside => ?_).trans (underLock.mono fun place => ?_)
      · exact .inr (.inl (Option.some.inj (beside.symm.trans atLock)))
      · exact Or.imp_right .inr
    · rw [← lockText]
      exact keeps.texts lockPlace fun either => either.elim lockApart.1 lockApart.2
    · rw [← documentText, ← backupBefore]
      exact backupText

end DirectoryStore
end WorkloadConfig
