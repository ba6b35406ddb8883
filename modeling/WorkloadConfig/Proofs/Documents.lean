import WorkloadConfig.Label
import WorkloadConfig.Proofs.Replacing

namespace WorkloadConfig

/-- A name of one step down in a tree. -/
structure Location.IsName (name : String) : Prop where
  plain : '/' ∉ name.toList
  given : name ≠ ""
  notHere : name ≠ "."
  notParent : name ≠ ".."

namespace Location

theorem partsOf_of_isName {name : String} (isName : IsName name) : partsOf name = [name] := by
  simp only [partsOf, List.splitOn_eq_singleton isName.plain, List.map_cons, List.map_nil,
    String.ofList_toList]
  simp [isName.given, isName.notHere]

theorem join_of_isName (l : Location) {name : String} (isName : IsName name) :
    l.join name = ⟨l.base, l.segments ++ [name]⟩ := by
  have plain : name.toList.head? ≠ some '/' := fun first =>
    isName.plain (List.mem_of_head? first)
  rw [join, if_neg plain, partsOf_of_isName isName]

theorem place?_below (l : Location) {directory file : String} (first : directory ≠ "..")
    (second : file ≠ "..") :
    (l.below [directory, file]).place? = l.place?.map (· ++ [directory, file]) :=
  l.place?_below_of_down (by simp [first.symm, second.symm])

end Location

/-- A label has no characters but those of labels, and hyphens. -/
theorem isLabelChar_or_hyphen {s : List Char} (valid : isLabel s = true) {c : Char} (member : c ∈ s) :
    isLabelChar c = true ∨ c = '-' := by
  simp only [isLabel, Bool.and_eq_true, List.all_eq_true, Bool.or_eq_true, decide_eq_true_eq] at valid
  exact valid.1.1.2 c member

theorem not_mem_of_isLabel {s : List Char} (valid : isLabel s = true) {c : Char}
    (outside : isLabelChar c = false) (notHyphen : c ≠ '-') : c ∉ s := by
  intro member
  rcases isLabelChar_or_hyphen valid member with inside | hyphen
  · simp [outside] at inside
  · exact notHyphen hyphen

namespace DnsLabel

theorem not_mem_of_outside (label : DnsLabel) {c : Char} (outside : isLabelChar c = false)
    (notHyphen : c ≠ '-') : c ∉ label.text.toList :=
  not_mem_of_isLabel label.valid outside notHyphen

theorem text_ne_empty (label : DnsLabel) : label.text ≠ "" := by
  intro empty
  have valid := label.valid
  simp [isLabel, empty] at valid

theorem head?_ne_dot (label : DnsLabel) (suffix : String) :
    (label.text ++ suffix).toList.head? ≠ some '.' := by
  have noDot := label.not_mem_of_outside (c := '.') (by decide) (by decide)
  obtain ⟨c, rest, letters⟩ := List.exists_cons_of_ne_nil
    (fun empty => label.text_ne_empty (String.toList_eq_nil_iff.mp empty))
  rw [String.toList_append, letters, List.cons_append, List.head?_cons, ne_eq, Option.some.injEq]
  exact fun dot => noDot (by simp [letters, dot])

/-- A label is a name, whatever without a slash stands behind it. -/
theorem isName_append (label : DnsLabel) (suffix : String) (plain : '/' ∉ suffix.toList) :
    Location.IsName (label.text ++ suffix) := by
  have noSlash := label.not_mem_of_outside (c := '/') (by decide) (by decide)
  have given : label.text ++ suffix ≠ "" := fun empty =>
    label.text_ne_empty (String.append_eq_empty_iff.mp empty).1
  have apart (other : String) (dotted : other.toList.head? = some '.') : label.text ++ suffix ≠ other := by
    rintro rfl
    exact label.head?_ne_dot suffix dotted
  exact ⟨by simp [noSlash, plain], given, apart "." (by decide), apart ".." (by decide)⟩

theorem isName (label : DnsLabel) : Location.IsName label.text := by
  simpa using label.isName_append "" (by decide)

/-- The name of a file tells the label of its record, and what stands behind the ending of documents. -/
theorem file_inj {name name' : DnsLabel} {suffix suffix' : String}
    (same : name.text ++ ".json" ++ suffix = name'.text ++ ".json" ++ suffix') :
    name.text = name'.text ∧ suffix = suffix' := by
  have stem (label : DnsLabel) (rest : String) :
      (label.text ++ ".json" ++ rest).toList.takeWhile (· ≠ '.') = label.text.toList := by
    have undotted : ∀ c ∈ label.text.toList, decide (c ≠ '.') = true := fun c member =>
      decide_eq_true fun dot => label.not_mem_of_outside (by decide) (by decide) (dot ▸ member)
    rw [String.append_assoc, String.toList_append, List.takeWhile_append_of_pos undotted,
      String.toList_append, show ".json".toList = '.' :: "json".toList from rfl, List.cons_append,
      List.takeWhile_cons_of_neg (by decide), List.append_nil]
  have labels : name.text = name'.text :=
    String.toList_injective (by rw [← stem name suffix, same, stem])
  rw [labels] at same
  exact ⟨labels, (String.append_right_inj _).mp same⟩

end DnsLabel

namespace DirectoryStore
variable {limits : Json.Limits} {s s' : DirectoryStore limits}

/-- A directory store is read where it is looked up, and stays as it is. -/
theorem shows (s : DirectoryStore limits) :
    TargetLookup.Shows (fun ns name => (·.map Target.ofRecord) <$> s.read ns name) (· = s) := by
  constructor
  · rintro _ ns name rfl
    rfl
  · rintro _ ns name rfl
    rfl

theorem documentAt_eq (s : DirectoryStore limits) (ns name : DnsLabel) :
    s.documentAt ns.text name.text = s.root.below [ns.text, name.text ++ ".json"] := by
  simp only [documentAt, Location.join_of_isName _ ns.isName,
    Location.join_of_isName _ (name.isName_append ".json" (by decide)), List.append_assoc,
    List.cons_append, List.nil_append, Location.below]

theorem place?_documentAt (s : DirectoryStore limits) (ns name : DnsLabel) :
    (s.documentAt ns.text name.text).place? =
      s.root.place?.map (· ++ [ns.text, name.text ++ ".json"]) := by
  rw [documentAt_eq, Location.place?_below _ ns.isName.notParent
    (name.isName_append ".json" (by decide)).notParent]

theorem withSuffix_documentAt (s : DirectoryStore limits) (ns name : DnsLabel) (suffix : String) :
    (s.documentAt ns.text name.text).withSuffix suffix =
      s.root.below [ns.text, name.text ++ ".json" ++ suffix] := by
  rw [documentAt_eq, Location.below, Location.withSuffix, List.getLast?_append]
  simp only [List.getLast?_cons_cons, List.getLast?_singleton, Option.some_or]
  rw [List.dropLast_append_of_ne_nil (by simp), List.append_assoc]
  rfl

theorem place?_beside (s : DirectoryStore limits) (ns name : DnsLabel) {suffix : String}
    (plain : '/' ∉ suffix.toList) :
    ((s.documentAt ns.text name.text).withSuffix suffix).place? =
      s.root.place?.map (· ++ [ns.text, name.text ++ ".json" ++ suffix]) := by
  have isName : Location.IsName (name.text ++ (".json" ++ suffix)) :=
    name.isName_append (".json" ++ suffix) (by simp [plain])
  rw [withSuffix_documentAt]
  exact Location.place?_below _ ns.isName.notParent (by
    rw [String.append_assoc]
    exact isName.notParent)

/-- The files of records under different names, and the files of one record, have different places. -/
theorem place?_beside_inj {ns name ns' name' : DnsLabel} {suffix suffix' : String} {place : Place}
    (plain : '/' ∉ suffix.toList) (plain' : '/' ∉ suffix'.toList)
    (one : ((s.documentAt ns.text name.text).withSuffix suffix).place? = some place)
    (other : ((s.documentAt ns'.text name'.text).withSuffix suffix').place? = some place) :
    ns.text = ns'.text ∧ name.text = name'.text ∧ suffix = suffix' := by
  rw [place?_beside s _ _ plain, Option.map_eq_some_iff] at one
  rw [place?_beside s _ _ plain', Option.map_eq_some_iff] at other
  obtain ⟨root, atRoot, rfl⟩ := one
  obtain ⟨root', atRoot', same⟩ := other
  cases Option.some.inj (atRoot.symm.trans atRoot')
  have names := List.append_cancel_left same
  simp only [List.cons.injEq, and_true] at names
  exact ⟨names.1.symm, DnsLabel.file_inj names.2.symm⟩

theorem withSuffix_empty (s : DirectoryStore limits) (ns name : DnsLabel) :
    (s.documentAt ns.text name.text).withSuffix "" = s.documentAt ns.text name.text := by
  rw [withSuffix_documentAt, String.append_empty, documentAt_eq]

/-- Documents under different labels have different places. -/
theorem place?_documentAt_ne {ns name ns' name' : DnsLabel} {place : Place}
    (other : (ns'.text, name'.text) ≠ (ns.text, name.text))
    (there : (s.documentAt ns.text name.text).place? = some place) :
    (s.documentAt ns'.text name'.text).place? ≠ some place := by
  rw [← withSuffix_empty] at there ⊢
  intro there'
  obtain ⟨sameNs, sameName, -⟩ := place?_beside_inj (by decide) (by decide) there' there
  exact other (by rw [sameNs, sameName])

/-- What stands beside a document is itself the document of no record, whatever texts name that. -/
theorem beside_apart {ns name ns' name' : String} {suffix : String} {place : Place} (given : suffix ≠ "")
    (ends : suffix.toList.getLast? ≠ some 'n') (document : (s.documentAt ns' name').place? = some place) :
    ¬ ((s.documentAt ns name).withSuffix suffix).place? = some place := by
  intro beside
  obtain ⟨above, stem, isDocument⟩ := s.exists_documentAt ns name
  obtain ⟨above', stem', isDocument'⟩ := s.exists_documentAt ns' name'
  rw [isDocument, Location.withSuffix_record] at beside
  rw [isDocument'] at document
  have same := (Location.getLast?_of_place?_record beside).symm.trans
    (Location.getLast?_of_place?_record document)
  have last := congrArg (fun file : String => file.toList.getLast?) (Option.some.inj same)
  have nonempty : suffix.toList ≠ [] := by simpa using given
  simp only [String.append_empty, String.toList_append, List.getLast?_append,
    List.getLast?_eq_some_getLast nonempty, Option.some_or] at last
  exact ends ((List.getLast?_eq_some_getLast nonempty).trans last)

open FileTree (Keeps)

variable {l : Location} {t t' : FileTree}

/-- The document is as it was, and it can be read if it could be. -/
structure Leaves (s s' : DirectoryStore limits) (ns name : String) : Prop where
  document : s'.document? ns name = s.document? ns name
  readable : ∀ record, s.read ns name = .ok (some record) → s'.read ns name = .ok (some record)

theorem leaves_of_keeps {marked : Place → Prop} {ns name : String} (keeps : Keeps marked s.tree t')
    (apart : ∀ place, (s.documentAt ns name).place? = some place → ¬ marked place) :
    s.Leaves { s with tree := t' } ns name := by
  constructor
  · exact keeps.bind_text? apart
  · intro record before
    obtain ⟨text, holds, parsed⟩ := read_eq_some.mp before
    exact read_eq_some.mpr ⟨text, keeps.read apart holds, parsed⟩

/-- A publication that fails leaves every document. -/
theorem publish_error {r : Record} {failure : Failure} (published : s.publish r = (.error failure, s'))
    (ns name : String) : s.Leaves s' ns name := by
  obtain ⟨t, rfl, keeps, -⟩ := publish_error_files published
  exact leaves_of_keeps keeps fun _ document => not_or_intro
    (beside_apart (by decide) (by decide) document) (beside_apart (by decide) (by decide) document)

theorem documentAt_of_publish {r : Record} {outcome : Result Record}
    (published : s.publish r = (outcome, s')) (ns name : String) :
    s'.documentAt ns name = s.documentAt ns name := by
  rcases publish_cases published with ⟨_, _, -, -, rfl⟩ | ⟨_, _, _, _, -, -, -, rfl⟩ <;> rfl

theorem document?_of_text {ns name text : String} (holds : s.tree.read (s.documentAt ns name) = .ok text) :
    s.document? ns name = some text := by
  obtain ⟨place, there, atPlace⟩ := FileTree.read_eq_ok.mp holds
  rw [document?, FileTree.place?_of_placeOf there, Option.bind_some, atPlace]

/-- A publication writes the document of the record that follows the one before it, and leaves every
document in another place. -/
theorem publish_ok {r stored : Record} (published : s.publish r = (.ok stored, s')) :
    (∃ held text, (s.document? r.ns r.name).map (Record.ofDocument limits) = held.map .ok ∧
      stored = r.following held ∧ stored.document s.now = .ok text ∧
      s'.tree.read (s.documentAt r.ns r.name) = .ok text) ∧
    ∀ ns name, (s.documentAt ns name).place? ≠ (s.documentAt r.ns r.name).place? →
      s.Leaves s' ns name := by
  obtain ⟨t, held, text, place, lock, backup, rfl, same, written, before, there, atLock, atBackup, keeps,
    after, -⟩ := publish_ok_files published
  refine ⟨⟨held, text, before, same, written, FileTree.read_eq_ok.mpr ⟨place, there, after⟩⟩,
    fun ns name other => leaves_of_keeps keeps ?_⟩
  rw [FileTree.place?_of_placeOf there] at other
  rintro place' document (rfl | rfl | rfl)
  · exact other document
  · exact beside_apart (by decide) (by decide) document atLock
  · exact beside_apart (by decide) (by decide) document atBackup

/-- A publication under labels leaves every document under other labels. -/
theorem publish_ok_other {r stored : Record} {ns name ns' name' : DnsLabel} (atNs : r.ns = ns.text)
    (atName : r.name = name.text) (published : s.publish r = (.ok stored, s'))
    (other : (ns'.text, name'.text) ≠ (ns.text, name.text)) : s.Leaves s' ns'.text name'.text := by
  obtain ⟨⟨_, _, -, -, -, holds⟩, others⟩ := publish_ok published
  obtain ⟨place, there, -⟩ := FileTree.read_eq_ok.mp holds
  have atPlace := FileTree.place?_of_placeOf there
  rw [atNs, atName] at atPlace others
  exact others _ _ (atPlace ▸ place?_documentAt_ne other atPlace)

end DirectoryStore
end WorkloadConfig
