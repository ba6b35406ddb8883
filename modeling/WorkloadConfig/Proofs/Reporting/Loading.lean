import WorkloadConfig.Proofs.Order.Passes

namespace WorkloadConfig

theorem Result.fails_bind_iff {α β : Type} {fate : Fate} {x : Result α} {f : α → Result β} :
    (x >>= f).Fails fate ↔ x.Fails fate ∧ ∀ a, x = .ok a → (f a).Fails fate := by
  cases x with
  | error failure => simp [Fails]
  | ok a => simp [Fails]

/-- The run ends in a failure that a pass neither reports nor turns into one to report. -/
def Result.Escapes {α : Type} (x : Result α) : Prop :=
  ∃ failure, x = .error failure ∧ failure.fate = .escaping

namespace Result
variable {α β : Type} {x : Result α}

theorem escapes_bind_iff {f : α → Result β} :
    (x >>= f).Escapes ↔ x.Escapes ∨ ∃ a, x = .ok a ∧ (f a).Escapes := by
  cases x with
  | error failure => simp [Escapes]
  | ok a => simp [Escapes]

theorem escapes_map_iff {f : α → β} : Escapes (f <$> x) ↔ x.Escapes := by
  cases x with
  | error failure => simp [Escapes, Functor.map, Except.map]
  | ok a => simp [Escapes, Functor.map, Except.map]

theorem not_escapes_of_fails {fate : Fate} (fails : x.Fails fate) (other : fate ≠ .escaping) :
    ¬ x.Escapes := by
  rintro ⟨failure, failed, escapes⟩
  exact other ((fails failure failed).symm.trans escapes)

theorem escapes_iff_of_fails (fails : x.Fails .escaping) : x.Escapes ↔ ¬ ∃ a, x = .ok a := by
  cases x with
  | error failure => simp [Escapes, fails failure rfl]
  | ok a => simp [Escapes]

end Result

/-- Nothing is given here, or a map is. -/
def Value.IsBlock (v : Value) : Prop :=
  v.isGiven = true → v.isMap = true

instance (v : Value) : Decidable v.IsBlock :=
  inferInstanceAs (Decidable (_ → _))

namespace ConfigRecord
variable {record : Value}

theorem isMap_given {v : Value} : (given v).isMap = true ↔ v.IsBlock := by
  unfold given Value.IsBlock
  split
  · rename_i isGiven
    simp [isGiven]
  · rename_i absent
    simp [absent, Value.isMap]

theorem lookup_given (v : Value) (key : Key) : (given v).lookup key = v.lookup key := by
  unfold given
  split
  · rfl
  · rename_i absent
    cases v with
    | map entries => simp_all [Value.isGiven]
    | _ => rfl

theorem member_eq_ok {v w : Value} {key : String} :
    member v key = .ok w ↔ v.isMap = true ∧ w = v.lookup (.str key) := by
  unfold member
  split
  · rename_i isMap
    simp [isMap, eq_comm]
  · rename_i noMap
    simp [noMap]

/-- A map whose metadata is a map as far as it is given, and so are the labels there. -/
structure IsLabelled (record : Value) : Prop where
  isMap : record.isMap = true
  metadata : (record.lookup "metadata").IsBlock
  labels : ((record.lookup "metadata").lookup "labels").IsBlock

theorem labels_eq_ok {labels : Value} : ConfigRecord.labels record = .ok labels ↔
    record.isMap = true ∧ (record.lookup "metadata").IsBlock ∧
      labels = given ((record.lookup "metadata").lookup "labels") := by
  simp only [ConfigRecord.labels, Result.bind_eq_ok, member_eq_ok, Except.ok.injEq, ← isMap_given]
  constructor
  · rintro ⟨_, ⟨isMap, rfl⟩, _, ⟨metadata, rfl⟩, rfl⟩
    exact ⟨isMap, metadata, by rw [lookup_given]⟩
  · rintro ⟨isMap, metadata, rfl⟩
    exact ⟨_, ⟨isMap, rfl⟩, _, ⟨metadata, rfl⟩, by rw [lookup_given]⟩

/-- What the record has for the label, null where it has nothing. -/
def label (record : Value) (key : String) : Value :=
  ((record.lookup "metadata").lookup "labels").lookup (.str key)

theorem carries_eq_ok {labels : Table String Value} (asked : labels ≠ []) {carried : Bool} :
    ConfigSource.carries labels record = .ok carried ↔
      IsLabelled record ∧
        carried = labels.all fun (key, wanted) => (label record key).agrees wanted := by
  have some : labels.isEmpty = false := List.isEmpty_eq_false_iff.mpr asked
  simp only [ConfigSource.carries, Result.bind_eq_ok, labels_eq_ok, some, Bool.false_or]
  constructor
  · rintro ⟨_, ⟨isMap, metadata, rfl⟩, answer⟩
    split at answer
    · rename_i labels
      cases answer
      exact ⟨⟨isMap, metadata, isMap_given.mp labels⟩, by simp only [lookup_given, label]⟩
    · cases answer
  · rintro ⟨⟨isMap, metadata, labels⟩, rfl⟩
    refine ⟨_, ⟨isMap, metadata, rfl⟩, ?_⟩
    simp only [isMap_given.mpr labels, if_true, lookup_given, label]

theorem carries_ok_iff {labels : Table String Value} (asked : labels ≠ []) :
    (∃ carried, ConfigSource.carries labels record = .ok carried) ↔ IsLabelled record := by
  simp [carries_eq_ok asked]

/-- What the selector asks for can be asked of every record. -/
theorem fails_filterCarrying_iff {labels : Table String Value} (asked : labels ≠ [])
    {records : List Value} : (ConfigSource.filterCarrying labels records).Fails .reported ↔
      ∀ record ∈ records, IsLabelled record := by
  simp only [← carries_ok_iff asked]
  constructor
  · intro reported
    cases filtered : ConfigSource.filterCarrying labels records with
    | error failure =>
      have escapes := ConfigSource.fails_filterCarrying labels records failure filtered
      rw [reported failure filtered] at escapes
      cases escapes
    | ok found => exact (ConfigSource.filterCarrying_eq_ok.mp filtered).1
  · intro labelled
    rw [ConfigSource.filterCarrying_eq_ok.mpr ⟨labelled, rfl⟩]
    exact .ok _

/-- The metadata of the record is as its model asks for. -/
def IsTitled (record : Value) : Prop :=
  ∃ metadata, ConfigRecord.metadata record = .ok metadata

/-- A map or a list of pairs, as far as anything is given. -/
def IsPaired (spec : Value) : Prop :=
  ∃ entries, pairedEntries (given spec) = .ok entries

theorem fails_pair (index : Nat) (v : Value) : (pair index v).Fails .escaping := by
  unfold pair
  split
  · split
    · exact .ok _
    · exact .error rfl
  · exact .ok _
  · split <;> exact .error rfl
  · exact .ok _
  · exact .ok _
  · exact .error rfl
  · exact .error rfl

theorem fails_pairedEntries (v : Value) : (pairedEntries v).Fails .escaping := by
  unfold pairedEntries
  split
  · exact .ok _
  · exact Result.Fails.bind (Result.FailsOnly.mapM fun item _ => fails_pair _ _) fun _ _ => .ok _
  · split
    · exact .ok _
    · exact .error rfl
  · exact .error rfl

end ConfigRecord

namespace ConfigLoader
open ConfigRecord (IsLabelled IsTitled IsPaired)
variable {records : List Value} {record : Value} {ns : String}

theorem fails_ofReport {α : Type} (x : Except Report α) : (Result.ofReport x).Fails .rejected := by
  cases x with
  | error report => exact .error rfl
  | ok a => exact .ok a

theorem not_escapes_ofReport {α : Type} (x : Except Report α) : ¬ (Result.ofReport x).Escapes :=
  Result.not_escapes_of_fails (fails_ofReport x) (by simp)

theorem not_escapes_metadata (isMap : record.isMap = true) :
    ¬ (ConfigRecord.metadata record).Escapes := by
  simp only [ConfigRecord.metadata, isMap, if_true]
  exact not_escapes_ofReport _

/-- What a model rejects is reported. -/
theorem fails_accept_iff {α : Type} {level : String} {x : Result α} :
    (accept level record x).Fails .reported ↔ ¬ x.Escapes := by
  unfold accept Result.Escapes
  split
  · simp [Result.fail, Result.Fails, Failure.fate]
  · rename_i noReport
    cases x with
    | ok a => simp [Result.Fails]
    | error failure =>
      cases failure <;> simp_all [Result.Fails, Failure.fate]

/-- The record of a cluster is read if its spec is a map as far as it is given, unless its metadata
is rejected before. -/
theorem escapes_cluster_iff (isMap : record.isMap = true) :
    (ClusterConfig.ofRecord record).Escapes ↔
      IsTitled record ∧ ¬ (record.lookup "spec").IsBlock := by
  simp only [ClusterConfig.ofRecord, Result.escapes_bind_iff, not_escapes_metadata isMap, false_or,
    ← ConfigRecord.isMap_given, IsTitled, ← exists_and_right]
  refine exists_congr fun metadata => and_congr_right fun _ => ?_
  split
  · rename_i isBlock
    simp [isBlock, not_escapes_ofReport]
  · rename_i noBlock
    simp [noBlock, Result.Escapes, Failure.fate]

theorem escapes_project_iff (isMap : record.isMap = true) :
    (ProjectConfig.ofRecord record).Escapes ↔
      IsTitled record ∧ ¬ IsPaired (record.lookup "spec") := by
  simp only [ProjectConfig.ofRecord, Result.escapes_bind_iff, not_escapes_metadata isMap, false_or,
    not_escapes_ofReport, and_false, exists_false, or_false, IsTitled, IsPaired, ← exists_and_right,
    Result.escapes_iff_of_fails (ConfigRecord.fails_pairedEntries _)]

/-- The selector finds this one record. -/
def Finds (selector : Selector) (records : List Value) (record : Value) : Prop :=
  ConfigSource.filterCarrying (selector.mapValues .str) records = .ok [record]

/-- Whatever is looked into in the records is a map as far as it is given: the metadata and labels
of all, the spec of the cluster's record and, which may also be a list of pairs, that of the
project's. A spec is not looked into before the metadata was accepted. -/
structure Fit (records : List Value) (ns : String) : Prop where
  labelled : ∀ record ∈ records, IsLabelled record
  cluster : ∀ record, Finds clusterSelector records record → IsTitled record →
    (record.lookup "spec").IsBlock
  project : ∀ record cluster own, Finds clusterSelector records record →
    ClusterConfig.ofRecord record = .ok cluster → Finds (projectSelector ns) records own →
    IsTitled own → IsPaired (own.lookup "spec")

theorem fails_clusterOf_iff {found : List Value} (labelled : ∀ record ∈ found, IsLabelled record) :
    (clusterOf found).Fails .reported ↔
      ∀ record, found = [record] → IsTitled record → (record.lookup "spec").IsBlock := by
  match found with
  | [] => simp [clusterOf, Result.fail, Result.Fails, Failure.fate]
  | [record] =>
    have isMap := (labelled record List.mem_cons_self).isMap
    simp [clusterOf, fails_accept_iff, escapes_cluster_iff isMap]
  | _ :: _ :: _ => simp [clusterOf, ambiguous, Result.fail, Result.Fails, Failure.fate]

theorem fails_projectOf_iff {found : List Value} (labelled : ∀ record ∈ found, IsLabelled record) :
    (projectOf ns found).Fails .reported ↔
      ∀ record, found = [record] → IsTitled record → IsPaired (record.lookup "spec") := by
  match found with
  | [] => simp [projectOf, Result.Fails]
  | [record] =>
    have isMap := (labelled record List.mem_cons_self).isMap
    simp [projectOf, fails_accept_iff, Result.escapes_map_iff, escapes_project_iff isMap]
  | _ :: _ :: _ => simp [projectOf, ambiguous, Result.fail, Result.Fails, Failure.fate]

theorem clusterOf_eq_ok {found : List Value} {cluster : ClusterConfig} :
    clusterOf found = .ok cluster ↔
      ∃ record, found = [record] ∧ ClusterConfig.ofRecord record = .ok cluster := by
  match found with
  | [] => simp [clusterOf, Result.fail]
  | [record] =>
    simp only [clusterOf, accept]
    split
    · rename_i rejected
      simp [rejected, Result.fail]
    · simp
  | _ :: _ :: _ => simp [clusterOf, ambiguous, Result.fail]

theorem asks_cluster : clusterSelector.mapValues Value.str ≠ [] := by
  simp [clusterSelector, Table.mapValues]

theorem asks_project : (projectSelector ns).mapValues Value.str ≠ [] := by
  simp [projectSelector, Table.mapValues]

/-- Records found by a selector can be asked for their labels. -/
theorem labelled_of_found {labels : Table String Value} {found : List Value}
    (labelled : ∀ record ∈ records, IsLabelled record)
    (filtered : ConfigSource.filterCarrying labels records = .ok found) :
    ∀ record ∈ found, IsLabelled record :=
  fun record member => labelled record (ConfigSource.carries_of_mem filtered member).1

/-- Loading reports whatever it fails with if the records are fit for it, and only then. -/
theorem fails_load_iff (timeout : Binary64) (records : List Value) (ns : String) :
    (({ timeout } : ConfigLoader).load (.ofRecords records) ns).1.Fails .reported ↔
      Fit records ns := by
  rw [load_fresh]
  simp only [Result.fails_bind_iff, Result.bind_eq_ok, clusterOf_eq_ok,
    ConfigRecord.fails_filterCarrying_iff asks_cluster,
    ConfigRecord.fails_filterCarrying_iff asks_project]
  constructor
  · rintro ⟨⟨labelled, clusters⟩, projects⟩
    refine ⟨labelled, fun record finds => ?_, fun record cluster own finds reads findsOwn => ?_⟩
    · have reported := clusters _ finds
      rw [fails_clusterOf_iff (labelled_of_found labelled finds)] at reported
      exact reported record rfl
    · have reported := (projects cluster ⟨_, finds, record, rfl, reads⟩).1.2 _ findsOwn
      rw [fails_projectOf_iff (labelled_of_found labelled findsOwn)] at reported
      exact reported own rfl
  · rintro ⟨labelled, cluster, project⟩
    refine ⟨⟨labelled, fun found finds => ?_⟩, ?_⟩
    · rw [fails_clusterOf_iff (labelled_of_found labelled finds)]
      rintro record rfl
      exact cluster record finds
    · rintro config ⟨_, finds, record, rfl, reads⟩
      refine ⟨⟨labelled, fun found findsOwn => ?_⟩, fun _ _ => .ok _⟩
      rw [fails_projectOf_iff (labelled_of_found labelled findsOwn)]
      rintro own rfl
      exact project record config own finds reads findsOwn

end ConfigLoader

end WorkloadConfig
