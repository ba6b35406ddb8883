import WorkloadConfig.Proofs.Reporting.Loading

namespace WorkloadConfig

theorem Value.agrees_str_iff {v : Value} {text : String} :
    v.agrees (.str text) = true ↔ v = .str text := by
  unfold Value.str
  cases v with
  | scalar s => cases s <;> simp [agrees, Scalar.agrees, Scalar.quantity?]
  | _ => simp [agrees]

namespace ConfigRecord
variable {record : Value}

/-- By its labels the record is the cluster's, or that of the namespace's project. -/
def Concerns (ns : String) (record : Value) : Prop :=
  label record "type" = .str "cluster" ∨
    label record "type" = .str "project" ∧ label record "project" = .str ns

instance (ns : String) (record : Value) : Decidable (Concerns ns record) :=
  inferInstanceAs (Decidable (_ ∨ _ ∧ _))

theorem carries_cluster_of_not (labelled : IsLabelled record)
    (other : label record "type" ≠ .str "cluster") :
    ConfigSource.carries (ConfigLoader.clusterSelector.mapValues .str) record = .ok false := by
  refine (carries_eq_ok ConfigLoader.asks_cluster).mpr ⟨labelled, ?_⟩
  have answer : (label record "type").agrees (.str "cluster") = false := by
    rwa [← Bool.not_eq_true, Value.agrees_str_iff]
  simp [ConfigLoader.clusterSelector, Table.mapValues, answer]

theorem carries_project_of_not {ns : String} (labelled : IsLabelled record)
    (other : ¬ (label record "type" = .str "project" ∧ label record "project" = .str ns)) :
    ConfigSource.carries ((ConfigLoader.projectSelector ns).mapValues .str) record = .ok false := by
  refine (carries_eq_ok ConfigLoader.asks_project).mpr ⟨labelled, ?_⟩
  simp only [← Value.agrees_str_iff, ← Bool.and_eq_true, Bool.not_eq_true] at other
  simp [ConfigLoader.projectSelector, Table.mapValues, other]

end ConfigRecord

namespace ConfigSource
variable {labels : Table String Value} {records others before behind : List Value} {record : Value}

/-- One record that cannot be asked for its labels is enough. -/
theorem filterCarrying_eq_error (asked : labels ≠ []) (member : record ∈ records)
    (odd : ¬ ConfigRecord.IsLabelled record) :
    filterCarrying labels records = .error .noSuchMember := by
  cases filtered : filterCarrying labels records with
  | error failure => rw [failsOnly_filterCarrying labels records failure filtered]
  | ok found =>
    have answers := (filterCarrying_eq_ok.mp filtered).1 record member
    exact absurd ((ConfigRecord.carries_ok_iff asked).mp answers) odd

theorem filterCarrying_insert (carried : carries labels record = .ok false) :
    filterCarrying labels (before ++ record :: behind) =
      filterCarrying labels (before ++ behind) := by
  induction before with
  | nil =>
    simp only [List.nil_append, filterCarrying, carried]
    cases filterCarrying labels behind <;> rfl
  | cons first rest ih => simp only [List.cons_append, filterCarrying, ih]

theorem filterCarrying_bind_eq_of_perm {α : Type} {read : List Value → Result α}
    (labels : Table String Value) (perm : records.Perm others)
    (same : ∀ found found', found.Perm found' → read found = read found') :
    filterCarrying labels records >>= read = filterCarrying labels others >>= read := by
  have matched := filterCarrying_perm labels perm
  generalize first : filterCarrying labels records = x at matched
  generalize second : filterCarrying labels others = y at matched
  cases matched with
  | ok perm' => exact same _ _ perm'
  | @error failure failure' _ =>
    rw [failsOnly_filterCarrying labels records failure first,
      failsOnly_filterCarrying labels others failure' second]

end ConfigSource

namespace ConfigLoader
open ConfigRecord (IsLabelled Concerns carries_eq_ok)
open ConfigSource (filterCarrying)
open Turn (clusterRecord)
variable {records others before behind : List Value} {extra : Value} {ns : String}

theorem ambiguous_eq_of_perm {α : Type} (selector : Selector) (perm : records.Perm others) :
    (ambiguous selector records : Result α) = ambiguous selector others := by
  unfold ambiguous
  rw [Sorting.texts_eq_of_perm (perm.map ConfigRecord.name)]

/-- Records that are permuted are none or one and the same, or they are several. -/
theorem eq_or_several (perm : records.Perm others) :
    records = others ∨
      ∃ v v' rest w w' rest', records = v :: v' :: rest ∧ others = w :: w' :: rest' := by
  match records, others with
  | [], _ => exact .inl perm.nil_eq
  | [_], _ => exact .inl perm.singleton_eq
  | _ :: _ :: _, [] => exact absurd perm.length_eq (by simp)
  | _ :: _ :: _, [_] => exact absurd perm.length_eq (by simp)
  | _ :: _ :: _, _ :: _ :: _ => exact .inr ⟨_, _, _, _, _, _, rfl, rfl⟩

theorem clusterOf_eq_of_perm (perm : records.Perm others) :
    clusterOf records = clusterOf others := by
  rcases eq_or_several perm with rfl | ⟨_, _, _, _, _, _, rfl, rfl⟩
  · rfl
  · exact ambiguous_eq_of_perm _ perm

theorem projectOf_eq_of_perm (ns : String) (perm : records.Perm others) :
    projectOf ns records = projectOf ns others := by
  rcases eq_or_several perm with rfl | ⟨_, _, _, _, _, _, rfl, rfl⟩
  · rfl
  · exact ambiguous_eq_of_perm _ perm

/-- What a loader comes to depends on no more than what its two queries come to. -/
theorem load_congr (loader : ConfigLoader)
    (clusters : filterCarrying (clusterSelector.mapValues .str) records >>= clusterOf =
      filterCarrying (clusterSelector.mapValues .str) others >>= clusterOf)
    (projects : filterCarrying ((projectSelector ns).mapValues .str) records >>= projectOf ns =
      filterCarrying ((projectSelector ns).mapValues .str) others >>= projectOf ns) :
    loader.load (.ofRecords records) ns = loader.load (.ofRecords others) ns := by
  have asked (loader : ConfigLoader) (records : List Value) (selector : Selector) :
      loader.select (.ofRecords records) selector =
        filterCarrying (selector.mapValues .str) records := rfl
  simp only [load, loadCluster, loadProject, asked, clusters, projects]

theorem load_insert_of_labelled (loader : ConfigLoader) (labelled : IsLabelled extra)
    (other : ¬ Concerns ns extra) :
    loader.load (.ofRecords (before ++ extra :: behind)) ns =
      loader.load (.ofRecords (before ++ behind)) ns := by
  obtain ⟨noCluster, noProject⟩ := not_or.mp other
  refine load_congr loader ?_ ?_
  · rw [ConfigSource.filterCarrying_insert (ConfigRecord.carries_cluster_of_not labelled noCluster)]
  · rw [ConfigSource.filterCarrying_insert (ConfigRecord.carries_project_of_not labelled noProject)]

/-- Whoever asks, nothing is loaded from records one of which cannot be asked for its labels. -/
theorem load_of_not_labelled (loader : ConfigLoader) (member : extra ∈ records)
    (odd : ¬ IsLabelled extra) (unloaded : loader.loaded.find? ns = none) :
    loader.load (.ofRecords records) ns =
      (.error .noSuchMember, { loader with asked := loader.asked + 1 }) := by
  have clusters : loader.select (.ofRecords records) clusterSelector = .error .noSuchMember :=
    ConfigSource.filterCarrying_eq_error asks_cluster member odd
  simp only [load, unloaded, loadCluster, clusters]
  rfl

theorem load_of_perm (loader : ConfigLoader) (ns : String) (perm : records.Perm others) :
    loader.load (.ofRecords records) ns = loader.load (.ofRecords others) ns :=
  load_congr loader
    (ConfigSource.filterCarrying_bind_eq_of_perm _ perm fun _ _ => clusterOf_eq_of_perm)
    (ConfigSource.filterCarrying_bind_eq_of_perm _ perm fun _ _ => projectOf_eq_of_perm ns)

/-- A loader comes to the same with the records in any order. It also comes to the same with a
further record that does not concern the namespace, wherever it is inserted, as long as the record
can be asked for its labels; if it cannot, whatever is not loaded yet can no longer be loaded. -/
theorem load_insensitive (loader : ConfigLoader) (ns : String) :
    (∀ records others, records.Perm others →
      loader.load (.ofRecords records) ns = loader.load (.ofRecords others) ns) ∧
    ∀ before behind extra, ¬ Concerns ns extra →
      (IsLabelled extra → loader.load (.ofRecords (before ++ extra :: behind)) ns =
        loader.load (.ofRecords (before ++ behind)) ns) ∧
      (¬ IsLabelled extra → loader.loaded.find? ns = none →
        loader.load (.ofRecords (before ++ extra :: behind)) ns =
          (.error .noSuchMember, { loader with asked := loader.asked + 1 })) := by
  refine ⟨fun records others => load_of_perm loader ns, fun before behind extra other => ?_⟩
  refine ⟨fun labelled => load_insert_of_labelled loader labelled other, fun odd => ?_⟩
  exact load_of_not_labelled loader List.mem_append_cons_self odd

/-- A loader that has loaded nothing yet. -/
def fresh : ConfigLoader := { timeout := .ofInt 5 }

/-- The project of another team, told apart by its label. -/
def otherRecord : Value := .map [
  ("metadata", .map [("name", .str "other"),
    ("labels", .map [("type", .str "project"), ("project", .str "other")])]),
  ("spec", .str "x")]

/-- A record whose metadata is a text. -/
def oddRecord : Value :=
  .map [("metadata", .str "x")]

theorem isLabelled_otherRecord : IsLabelled otherRecord :=
  ⟨rfl, by decide, by decide⟩

theorem not_isLabelled_oddRecord : ¬ IsLabelled oddRecord :=
  fun labelled => absurd labelled.metadata (by decide)

theorem load_insensitive_otherRecord :
    ¬ Concerns "team" otherRecord ∧ ¬ Concerns "team" oddRecord ∧
      fresh.load (.ofRecords [otherRecord, clusterRecord]) "team" =
        fresh.load (.ofRecords [clusterRecord, otherRecord]) "team" ∧
      fresh.load (.ofRecords [clusterRecord, otherRecord]) "team" =
        fresh.load (.ofRecords [clusterRecord]) "team" ∧
      fresh.load (.ofRecords [clusterRecord, oddRecord]) "team" =
        (.error .noSuchMember, { fresh with asked := 1 }) := by
  have apart : ¬ Concerns "team" otherRecord := by decide
  have apart' : ¬ Concerns "team" oddRecord := by decide
  obtain ⟨perm, insert⟩ := load_insensitive fresh "team"
  refine ⟨apart, apart', perm _ _ (.swap _ _ _), ?_, ?_⟩
  · exact (insert [clusterRecord] [] otherRecord apart).1 isLabelled_otherRecord
  · exact (insert [clusterRecord] [] oddRecord apart').2 not_isLabelled_oddRecord rfl

/-- One record that concerns nobody keeps a cluster's configuration from being loaded. -/
theorem not_insensitive_oddRecord :
    ¬ Concerns "team" oddRecord ∧
      (fresh.load (.ofRecords [clusterRecord]) "team").1.toOption.isSome = true ∧
      (fresh.load (.ofRecords [clusterRecord, oddRecord]) "team").1.toOption.isSome = false := by
  decide +kernel

end ConfigLoader

end WorkloadConfig
