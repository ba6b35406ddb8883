import WorkloadConfig.Config.Loader
import WorkloadConfig.Proofs.Order.Records

namespace WorkloadConfig

/-- The values are reorderings of each other, and may stand in another order themselves. -/
def Value.Shuffled (values others : List Value) : Prop :=
  Relation.Comp List.Perm (List.Forall₂ Value.Reordered) values others

theorem Value.Reordered.agrees_str {v w : Value} (same : v.Reordered w) (text : String) :
    v.agrees (.str text) = w.agrees (.str text) := by
  cases same <;> simp [Value.agrees]

namespace ConfigSource
variable {labels : Table String Value} {records others : List Value}

theorem carries_matches (selector : Selector) {v w : Value} (same : v.Reordered w) :
    Result.Matches (· = ·) (carries (selector.mapValues .str) v)
      (carries (selector.mapValues .str) w) := by
  refine (ConfigRecord.labels_matches same).bind fun own own' labels => ?_
  rw [labels.isMap_eq]
  split
  · refine .ok ?_
    simp only [Table.mapValues, List.all_map, Function.comp_def,
      (labels.lookup (.str _)).agrees_str]
  · exact .error rfl

theorem failsOnly_carries (labels : Table String Value) (record : Value) :
    (carries labels record).FailsOnly (· = .noSuchMember) := by
  have member (v : Value) (key : String) :
      (ConfigRecord.member v key).FailsOnly (· = .noSuchMember) := by
    unfold ConfigRecord.member
    split
    · exact .ok _
    · exact .error rfl
  refine Result.FailsOnly.bind (.bind (member _ _) fun _ _ => .bind (member _ _) fun _ _ => .ok _)
    fun own _ => ?_
  split
  · exact .ok _
  · exact .error rfl

theorem failsOnly_filterCarrying (labels : Table String Value) (records : List Value) :
    (filterCarrying labels records).FailsOnly (· = .noSuchMember) := by
  induction records with
  | nil => exact .ok _
  | cons record rest ih =>
    exact .bind (failsOnly_carries labels record) fun _ _ => .bind ih fun _ _ => .ok _

theorem fails_filterCarrying (labels : Table String Value) (records : List Value) :
    (filterCarrying labels records).Fails .escaping := by
  intro failure failed
  rw [failsOnly_filterCarrying labels records failure failed]
  rfl

/-- The records that are found are those that carry the labels, provided that all can be asked. -/
theorem filterCarrying_eq_ok {found : List Value} : filterCarrying labels records = .ok found ↔
    (∀ record ∈ records, ∃ carried, carries labels record = .ok carried) ∧
      found = records.filter fun record => (carries labels record).toOption = some true := by
  induction records generalizing found with
  | nil => simp [filterCarrying, eq_comm]
  | cons record rest ih =>
    simp only [filterCarrying, Result.bind_eq_ok, ih, List.forall_mem_cons, Except.ok.injEq]
    constructor
    · rintro ⟨carried, asked, _, ⟨all, rfl⟩, rfl⟩
      refine ⟨⟨⟨carried, asked⟩, all⟩, ?_⟩
      cases carried <;> simp [asked, Except.toOption]
    · rintro ⟨⟨⟨carried, asked⟩, all⟩, rfl⟩
      refine ⟨carried, asked, _, ⟨all, rfl⟩, ?_⟩
      cases carried <;> simp [asked, Except.toOption]

theorem carries_of_mem {found : List Value} (filtered : filterCarrying labels records = .ok found)
    {record : Value} (member : record ∈ found) :
    record ∈ records ∧ carries labels record = .ok true := by
  obtain ⟨asked, rfl⟩ := filterCarrying_eq_ok.mp filtered
  obtain ⟨among, carried⟩ := List.mem_filter.mp member
  obtain ⟨b, answer⟩ := asked record among
  refine ⟨among, ?_⟩
  rw [answer] at carried ⊢
  simpa [Except.toOption] using carried

theorem filterCarrying_perm (labels : Table String Value) (perm : records.Perm others) :
    Result.Matches List.Perm (filterCarrying labels records) (filterCarrying labels others) := by
  refine .intro (fun found filtered => ?_) (fun found filtered => ?_)
    (fails_filterCarrying labels records) (fails_filterCarrying labels others)
  · obtain ⟨asked, rfl⟩ := filterCarrying_eq_ok.mp filtered
    refine ⟨_, filterCarrying_eq_ok.mpr ⟨fun record among => ?_, rfl⟩, perm.filter _⟩
    exact asked record (perm.mem_iff.mpr among)
  · obtain ⟨asked, -⟩ := filterCarrying_eq_ok.mp filtered
    refine ⟨_, filterCarrying_eq_ok.mpr ⟨fun record among => ?_, rfl⟩⟩
    exact asked record (perm.mem_iff.mp among)

theorem filterCarrying_forall₂ (selector : Selector)
    (all : List.Forall₂ Value.Reordered records others) :
    Result.Matches (List.Forall₂ Value.Reordered) (filterCarrying (selector.mapValues .str) records)
      (filterCarrying (selector.mapValues .str) others) := by
  induction all with
  | nil => exact .ok .nil
  | cons first _ ih =>
    refine (carries_matches selector first).bind fun carried _ same => ih.bind fun _ _ rest => ?_
    cases same
    cases carried
    · exact .ok rest
    · exact .ok (.cons first rest)

theorem filterCarrying_matches (selector : Selector) (shuffled : Value.Shuffled records others) :
    Result.Matches Value.Shuffled (filterCarrying (selector.mapValues .str) records)
      (filterCarrying (selector.mapValues .str) others) := by
  obtain ⟨middle, perm, all⟩ := shuffled
  exact (filterCarrying_perm _ perm).trans (filterCarrying_forall₂ selector all)

end ConfigSource

namespace ConfigLoader
variable {records others : List Value}

theorem accept_matches {α β : Type} {R : α → β → Prop} {x : Result α} {y : Result β}
    (first : Result.Matches R x y) (level : String) (record other : Value) :
    Result.Matches R (accept level record x) (accept level other y) := by
  cases first with
  | ok related => exact .ok related
  | @error f g both =>
    cases f <;> cases g <;> first | exact .error rfl | cases both

/-- Of shuffled records there is one if and only if there is one of the others. -/
theorem single_or_not (shuffled : Value.Shuffled records others) :
    records = [] ∧ others = [] ∨ (∃ v w, records = [v] ∧ others = [w] ∧ v.Reordered w) ∨
      ∃ v v' rest w w' rest', records = v :: v' :: rest ∧ others = w :: w' :: rest' := by
  obtain ⟨middle, perm, all⟩ := shuffled
  match records with
  | [] =>
    cases perm.nil_eq
    cases all
    exact .inl ⟨rfl, rfl⟩
  | [v] =>
    cases perm.singleton_eq
    obtain ⟨w, _, first, done, rfl⟩ := List.forall₂_cons_left_iff.mp all
    cases done
    exact .inr (.inl ⟨v, w, rfl, rfl, first⟩)
  | v :: v' :: rest =>
    have length := perm.length_eq.trans all.length_eq
    match others with
    | [] => simp at length
    | [_] => simp at length
    | w :: w' :: rest' => exact .inr (.inr ⟨_, _, _, _, _, _, rfl, rfl⟩)

theorem clusterOf_matches (shuffled : Value.Shuffled records others) :
    Result.Matches ClusterConfig.Reordered (clusterOf records) (clusterOf others) := by
  rcases single_or_not shuffled with ⟨rfl, rfl⟩ | ⟨v, w, rfl, rfl, same⟩ |
    ⟨_, _, _, _, _, _, rfl, rfl⟩
  · exact .error rfl
  · exact accept_matches (ClusterConfig.ofRecord_matches same) _ _ _
  · exact .error rfl

theorem projectOf_matches (ns : String) (shuffled : Value.Shuffled records others)
    (unambiguous : ∀ record ∈ records, ConfigRecord.Unambiguous record) :
    Result.Matches (Option.Rel ProjectConfig.Reordered) (projectOf ns records)
      (projectOf ns others) := by
  rcases single_or_not shuffled with ⟨rfl, rfl⟩ | ⟨v, w, rfl, rfl, same⟩ |
    ⟨_, _, _, _, _, _, rfl, rfl⟩
  · exact .ok .none
  · refine accept_matches (Result.Matches.map ?_ fun _ _ => .some) _ _ _
    exact ProjectConfig.ofRecord_matches same (unambiguous v (List.mem_singleton.mpr rfl))
  · exact .error rfl

/-- A loader that has loaded nothing asks for the cluster and then for the project. -/
theorem load_fresh (timeout : Binary64) (records : List Value) (ns : String) :
    (({ timeout } : ConfigLoader).load (.ofRecords records) ns).1 = (do
      let cluster ← ConfigSource.filterCarrying (clusterSelector.mapValues .str) records >>=
        clusterOf
      let project ← ConfigSource.filterCarrying ((projectSelector ns).mapValues .str) records >>=
        projectOf ns
      .ok ⟨cluster, project⟩) := by
  have asked (loader : ConfigLoader) (selector : Selector) :
      loader.select (.ofRecords records) selector =
        ConfigSource.filterCarrying (selector.mapValues .str) records := rfl
  unfold load
  simp only [loadCluster, loadProject, asked, Table.find?]
  cases ConfigSource.filterCarrying (clusterSelector.mapValues .str) records >>= clusterOf with
  | error failure => rfl
  | ok cluster =>
    simp only
    cases ConfigSource.filterCarrying ((projectSelector ns).mapValues .str) records >>=
      projectOf ns <;> rfl

/-- The records of the namespace's project. -/
def IsOfProject (ns : String) (record : Value) : Prop :=
  ConfigSource.carries ((projectSelector ns).mapValues .str) record = .ok true

theorem load_matches (timeout : Binary64) (ns : String) (shuffled : Value.Shuffled records others)
    (unambiguous : ∀ record ∈ records, IsOfProject ns record → ConfigRecord.Unambiguous record) :
    Result.Matches LoadedConfig.Reordered
      (({ timeout } : ConfigLoader).load (.ofRecords records) ns).1
      (({ timeout } : ConfigLoader).load (.ofRecords others) ns).1 := by
  rw [load_fresh, load_fresh]
  have clusters := (ConfigSource.filterCarrying_matches clusterSelector shuffled).bind
    fun _ _ => clusterOf_matches
  have carried (found : List Value) (filtered : ConfigSource.filterCarrying
      ((projectSelector ns).mapValues .str) records = .ok found) (record : Value)
      (member : record ∈ found) := ConfigSource.carries_of_mem filtered member
  have found := (ConfigSource.filterCarrying_matches (projectSelector ns) shuffled).with_left carried
  have projects := found.bind fun _ _ both => projectOf_matches ns both.2 fun record member =>
    unambiguous record (both.1 record member).1 (both.1 record member).2
  exact clusters.bind fun _ _ cluster => projects.bind fun _ _ project => .ok ⟨cluster, project⟩

end ConfigLoader

end WorkloadConfig
