import WorkloadConfig.Config.Record
import WorkloadConfig.Proofs.Order.Reading

namespace WorkloadConfig

namespace FieldValues
variable {v w : FieldValues}

/-- The values given for each field of each owner are reorderings of each other. -/
def Reordered (v w : FieldValues) : Prop :=
  Table.Reordered (Table.Reordered Value.Reordered) v w

theorem Reordered.valueFor (same : v.Reordered w) (owner path : String) :
    (v.valueFor owner path).Reordered (w.valueFor owner path) := by
  have own := rel_getD (same.under owner) .nil
  exact rel_getD (own.under path) (.scalar _)

theorem orEmpty_respects {α : Type} {R : α → α → Prop} {read : Schema.Reader (Table String α)}
    (respects : Schema.Respects (Table.Reordered R) read) :
    Schema.Respects (Table.Reordered R) (orEmpty read) := by
  have given {v : Value} (some : v ≠ .null) : orEmpty read v = read v := by
    unfold orEmpty
    split
    · exact absurd rfl some
    · rfl
  intro v w same
  by_cases null : v = .null
  · rw [null, same.null_iff.mp null]
    exact .valid .nil
  · rw [given null, given fun null' => null (same.null_iff.mpr null')]
    exact respects v w same

theorem read_respects : Schema.Respects Reordered read :=
  orEmpty_respects (Schema.table_respects .given (orEmpty_respects
    (Schema.table_respects .given (Schema.anything_respects .given))))

end FieldValues

structure RecordMetadata.Reordered (m m' : RecordMetadata) : Prop where
  name : m.name = m'.name
  labels : Table.Reordered (· = ·) m.labels m'.labels

structure ClusterConfig.Reordered (c c' : ClusterConfig) : Prop where
  name : c.name = c'.name
  environment : c.environment = c'.environment
  defaults : c.defaults.Reordered c'.defaults

structure ProjectConfig.Reordered (p p' : ProjectConfig) : Prop where
  name : p.name = p'.name
  project : p.project = p'.project
  overrides : p.overrides.Reordered p'.overrides

structure LoadedConfig.Reordered (l l' : LoadedConfig) : Prop where
  cluster : l.cluster.Reordered l'.cluster
  project : Option.Rel ProjectConfig.Reordered l.project l'.project

section
open Schema
variable {t u : List (Key × Value)} (same : Table.Reordered Value.Reordered t u)
include same

theorem RecordMetadata.read_matches :
    Checked.Matches Reordered (read (.map t)) (read (.map u)) := by
  have name := field_matches same text_respects "name"
  have labels := fieldOr_matches same (table_respects .given text_respects) .nil "labels"
  refine (name.map fun x y ofName => ?_).seq labels
  exact fun x y ofLabels => ⟨ofName, ofLabels⟩

theorem EnvironmentInfo.read_matches :
    Checked.Matches (· = ·) (read (.map t)) (read (.map u)) := by
  have name := field_matches same text_respects "name"
  have domain := fieldOr_matches same text_respects (rfl : "" = "") "domain"
  have region := fieldOr_matches same text_respects (rfl : "" = "") "region"
  refine ((name.map fun x y ofName => ?_).seq domain).seq region
  rintro _ _ rfl _ _ rfl
  rw [ofName]

omit same

theorem RecordMetadata.read_respects : Respects Reordered read :=
  object_respects fun _ _ same => read_matches same

theorem EnvironmentInfo.read_respects : Respects (· = ·) read :=
  object_respects fun _ _ same => read_matches same

include same

theorem ClusterConfig.read_matches :
    Checked.Matches Reordered (read (.map t)) (read (.map u)) := by
  have name := field_matches same text_respects "name"
  have environment := field_matches same EnvironmentInfo.read_respects "environment"
  have defaults := fieldOr_matches same FieldValues.read_respects .nil "defaults"
  refine (((name.map fun x y ofName => ?_).seq environment).seq defaults).also
    (strangers_eq_nil_iff same _)
  exact fun _ _ ofEnvironment _ _ ofDefaults => ⟨ofName, ofEnvironment, ofDefaults⟩

theorem ProjectConfig.read_matches :
    Checked.Matches Reordered (read (.map t)) (read (.map u)) := by
  have name := field_matches same text_respects "name"
  have project := field_matches same text_respects "project"
  have overrides := fieldOr_matches same FieldValues.read_respects .nil "overrides"
  refine (((name.map fun x y ofName => ?_).seq project).seq overrides).also
    (strangers_eq_nil_iff same _)
  exact fun _ _ ofProject _ _ ofOverrides => ⟨ofName, ofProject, ofOverrides⟩

end

namespace ConfigRecord
variable {v w : Value} (same : v.Reordered w)
include same

theorem member_matches (key : String) :
    Result.Matches Value.Reordered (member v key) (member w key) := by
  unfold member
  rw [same.isMap_eq]
  split
  · exact .ok (same.lookup _)
  · exact .error rfl

theorem given_reordered : (given v).Reordered (given w) := by
  unfold given
  rw [same.isGiven_eq]
  split
  · exact same
  · exact .empty

omit same in
theorem labels_matches (same : v.Reordered w) :
    Result.Matches Value.Reordered (labels v) (labels w) :=
  (member_matches same _).bind fun _ _ metadata =>
    (member_matches (given_reordered metadata) _).bind fun _ _ labels =>
      .ok (given_reordered labels)

theorem metadata_matches : Result.Matches RecordMetadata.Reordered (metadata v) (metadata w) := by
  have given := rel_getD (same.find? (.str "metadata")) .empty
  unfold metadata
  rw [same.isMap_eq]
  split
  · exact (RecordMetadata.read_respects _ _ given).ofReport _
  · exact .error rfl

omit same in
theorem named_reordered {t u : List (Key × Value)} (name : String)
    (same : Table.Reordered Value.Reordered t u) :
    Table.Reordered Value.Reordered (Table.putAll [(.str "name", .str name)] t)
      (Table.putAll [(.str "name", .str name)] u) :=
  Table.Reordered.putAll (Table.Reordered.put .nil _ (.scalar _)) same

end ConfigRecord

namespace Key
variable {α β : Type} {R : α → β → Prop} {t : List (Key × α)} {u : List (Key × β)}

theorem alignedWith_congr (same : Table.Aligned R t u) (key : Key) :
    alignedWith t key = alignedWith u key := by
  induction same with
  | nil => rfl
  | @cons entry other _ _ first _ ih =>
    simp only [alignedWith, List.find?_cons, first.1] at ih ⊢
    cases other.1.agrees key
    · exact ih
    · exact first.1

theorem putAligned_aligned (same : Table.Aligned R t u) {entry : Key × α} {other : Key × β}
    (key : entry.1 = other.1) (related : R entry.2 other.2) :
    Table.Aligned R (putAligned t entry) (putAligned u other) := by
  rw [putAligned, putAligned, alignedWith_congr same, key]
  exact same.put _ related

theorem foldl_putAligned {pairs : List (Key × α)} {others : List (Key × β)}
    (all : Table.Aligned R pairs others) (same : Table.Aligned R t u)
    (distinct : (Table.keys t).Nodup) :
    Table.Reordered R (pairs.foldl putAligned t) (others.foldl putAligned u) := by
  induction all generalizing t u with
  | nil => exact same.reordered distinct
  | cons first _ ih =>
    exact ih (putAligned_aligned same first.1 first.2) (Table.nodup_keys_put distinct _ _)

end Key

namespace ConfigRecord

/-- No map of two entries stands for a pair in the spec of the record. -/
def Unambiguous (record : Value) : Prop :=
  ∀ items entries, record.lookup "spec" = .list items → .map entries ∈ items → entries.length ≠ 2

theorem pair_map {entries : List (Key × Value)} (index : Nat) (notTwo : entries.length ≠ 2) :
    pair index (.map entries) = .error (.badPair index entries.length) := by
  unfold pair
  split <;> simp_all

theorem pair_list {items : List Value} (index : Nat) (notTwo : items.length ≠ 2) :
    pair index (.list items) = .error (.badPair index items.length) := by
  unfold pair
  split <;> simp_all

theorem pair_matches {v w : Value} (same : v.Reordered w)
    (notTwo : ∀ entries, v = .map entries → entries.length ≠ 2) (index : Nat) :
    Result.Matches (fun entry other => entry.1 = other.1 ∧ entry.2.Reordered other.2)
      (pair index v) (pair index w) := by
  cases same with
  | scalar s =>
    cases s with
    | str text =>
      simp only [pair]
      split
      · exact .ok ⟨rfl, .scalar _⟩
      · exact .error rfl
    | _ => exact .error rfl
  | @list items others all =>
    by_cases two : items.length = 2
    · obtain ⟨a, b, rfl⟩ := List.length_eq_two.mp two
      obtain ⟨c, _, first, later, rfl⟩ := List.forall₂_cons_left_iff.mp all
      obtain ⟨d, _, second, done, rfl⟩ := List.forall₂_cons_left_iff.mp later
      cases List.forall₂_nil_left_iff.mp done
      cases first with
      | scalar key => exact .ok ⟨rfl, second⟩
      | list _ => exact .error rfl
      | map => exact .error rfl
    · rw [pair_list index two, pair_list index (all.length_eq ▸ two)]
      exact .error rfl
  | @map t u texts distinct distinct' under =>
    have same : Table.Reordered Value.Reordered t u := ⟨distinct, distinct', under⟩
    rw [pair_map index (notTwo t rfl), pair_map index (same.length_eq ▸ notTwo t rfl)]
    exact .error rfl

theorem forall₂_zipIdx {α β : Type} {R : α → β → Prop} {items : List α} {others : List β}
    (all : List.Forall₂ R items others) (start : Nat) :
    List.Forall₂ (fun a b => a.2 = b.2 ∧ R a.1 b.1) (items.zipIdx start) (others.zipIdx start) := by
  induction all generalizing start with
  | nil => exact .nil
  | cons first _ ih => exact .cons ⟨rfl, first⟩ (ih (start + 1))

theorem pairedEntries_matches {v w : Value} (same : v.Reordered w)
    (notTwo : ∀ items entries, v = .list items → .map entries ∈ items → entries.length ≠ 2) :
    Result.Matches (Table.Reordered Value.Reordered) (pairedEntries v) (pairedEntries w) := by
  cases same with
  | scalar s =>
    cases s with
    | str text =>
      simp only [pairedEntries]
      split
      · exact .ok .nil
      · exact .error rfl
    | _ => exact .error rfl
  | @list items others all =>
    have each : List.Forall₂ (fun v w : Value =>
        v.Reordered w ∧ ∀ entries, v = .map entries → entries.length ≠ 2) items others :=
      forall₂_imp_mem all fun a member b related =>
        ⟨related, fun entries isMap => notTwo items entries rfl (isMap ▸ member)⟩
    refine Result.Matches.bind (Result.Matches.mapM ((forall₂_zipIdx each 0).imp ?_))
      fun _ _ pairs => .ok (Key.foldl_putAligned pairs .nil .nil)
    rintro ⟨a, index⟩ ⟨b, _⟩ ⟨rfl, related, notTwo⟩
    exact pair_matches related notTwo index
  | map texts distinct distinct' under => exact .ok ⟨distinct, distinct', under⟩

end ConfigRecord

theorem ClusterConfig.ofRecord_matches {v w : Value} (same : v.Reordered w) :
    Result.Matches Reordered (ofRecord v) (ofRecord w) := by
  refine (ConfigRecord.metadata_matches same).bind fun m m' metadata => ?_
  have spec := ConfigRecord.given_reordered (same.lookup (.str "spec"))
  simp only [metadata.name, spec.isMap_eq]
  split
  · exact (read_matches (ConfigRecord.named_reordered _ spec.entries.table)).ofReport title
  · exact .error rfl

/-- Projects are read alike if their specs are read as the same entries. -/
theorem ProjectConfig.ofRecord_matches_of_paired {v w : Value} (same : v.Reordered w)
    (paired : Result.Matches (Table.Reordered Value.Reordered)
      (ConfigRecord.pairedEntries (ConfigRecord.given (v.lookup "spec")))
      (ConfigRecord.pairedEntries (ConfigRecord.given (w.lookup "spec")))) :
    Result.Matches Reordered (ofRecord v) (ofRecord w) := by
  refine (ConfigRecord.metadata_matches same).bind fun m m' metadata => ?_
  refine paired.bind fun t u entries => ?_
  have project : Table.find? m.labels "project" = Table.find? m'.labels "project" := by
    rcases rel_cases (metadata.labels.under "project") with ⟨one, two⟩ | ⟨a, b, one, two, rfl⟩ <;>
      rw [one, two]
  simp only [metadata.name, project]
  have completed : Table.Reordered Value.Reordered
      (if Table.contains t (.str "project") then t
        else t ++ [(.str "project", .str ((Table.find? m'.labels "project").getD ""))])
      (if Table.contains u (.str "project") then u
        else u ++ [(.str "project", .str ((Table.find? m'.labels "project").getD ""))]) := by
    unfold Table.contains
    rcases rel_cases (entries.under (.str "project")) with ⟨one, two⟩ | ⟨a, b, one, two, -⟩
    · rw [one, two, ← Table.put_of_absent _ one, ← Table.put_of_absent _ two]
      exact entries.put _ (.scalar _)
    · rw [one, two]
      exact entries
  exact (read_matches (ConfigRecord.named_reordered _ completed)).ofReport title

theorem ProjectConfig.ofRecord_matches {v w : Value} (same : v.Reordered w)
    (unambiguous : ConfigRecord.Unambiguous v) :
    Result.Matches Reordered (ofRecord v) (ofRecord w) := by
  have spec := ConfigRecord.given_reordered (same.lookup (.str "spec"))
  refine ofRecord_matches_of_paired same (ConfigRecord.pairedEntries_matches spec ?_)
  intro items entries isList
  refine unambiguous items entries ?_
  unfold ConfigRecord.given at isList
  split at isList
  · exact isList
  · cases isList

end WorkloadConfig
