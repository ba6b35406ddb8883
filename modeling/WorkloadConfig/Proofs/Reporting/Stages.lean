import WorkloadConfig.Proofs.Reporting.Loading

namespace WorkloadConfig

/-- A composition whose skeletons and defaults are as in JSON. -/
structure Composition.IsJson (c : Composition) : Prop where
  bases : ∀ t ∈ c.resources, (Value.ofTable t.base).IsProper
  defaults : ∀ t ∈ c.resources, ∀ p ∈ t.patches, p.default.IsProper

/-- The keys of a table are distinct, and its values as in JSON. -/
theorem Value.reordered_of_isProper {t : Table String Value} (proper : (Value.ofTable t).IsProper) :
    Table.Reordered Value.Reordered t t :=
  Table.reordered_keyed.mp (Value.Reordered.refl proper).table

theorem Composition.IsJson.reordered {c : Composition} (json : c.IsJson) : c.Reordered c where
  kind := rfl
  resources := List.forall₂_same.mpr fun t member => ⟨rfl, rfl, rfl,
    Value.reordered_of_isProper (json.bases t member), List.forall₂_same.mpr fun p within =>
      ⟨rfl, rfl, .refl (json.defaults t member p within), rfl⟩⟩
  publish := rfl

/-- An instance whose spec is as in JSON. -/
structure Instance.IsJson (i : Instance) : Prop where
  labels : i.labels.keys.Nodup
  spec : (Value.ofTable i.spec).IsProper

theorem Instance.IsJson.reordered {i : Instance} (json : i.IsJson) : i.Reordered i :=
  ⟨rfl, rfl, rfl, rfl, .of_perm json.labels (.refl _) fun _ _ => rfl,
    Value.reordered_of_isProper json.spec⟩

/-- A store whose outputs are as in JSON. -/
structure MemoryStore.IsJson (s : MemoryStore) : Prop where
  outputs : ∀ ns name r, s.read ns name = some r → (Value.ofTable r.outputs).IsProper
  connection : ∀ ns name r, s.read ns name = some r → r.connection.data.keys.Nodup

theorem MemoryStore.IsJson.reordered {s : MemoryStore} (json : s.IsJson) : s.Reordered s := by
  intro ns name
  cases held : s.read ns name with
  | none => exact .none
  | some r =>
    exact .some ⟨rfl, rfl, rfl, Value.reordered_of_isProper (json.outputs ns name r held), rfl,
      .of_perm (json.connection ns name r held) (.refl _) fun _ _ => rfl, rfl, rfl⟩

namespace ConfigRecord

theorem pair_proper {v : Value} (proper : v.IsProper) (index : Nat) {entry : Key × Value}
    (paired : pair index v = .ok entry) : entry.2.IsProper := by
  unfold pair at paired
  split at paired
  · split at paired
    · cases paired
      rfl
    · cases paired
  · cases paired
    exact Value.everyMap_list.mp proper _ (by simp)
  · split at paired <;> cases paired
  · cases paired
    rfl
  · cases paired
    refine Value.everyMap_list.mpr fun v member => ?_
    obtain ⟨s, -, rfl⟩ := List.mem_map.mp member
    rfl
  · cases paired
  · cases paired

/-- What is read from a list of pairs is as in JSON if the list is. -/
theorem pairedEntries_reordered {v : Value} (proper : v.IsProper) :
    Result.Matches (Table.Reordered Value.Reordered) (pairedEntries v) (pairedEntries v) := by
  refine .refl fun entries paired => ?_
  unfold pairedEntries at paired
  split at paired
  · cases paired
    exact (Value.Reordered.refl proper).table
  · rename_i items
    simp only [Result.bind_eq_ok, mapM_eq_ok, Except.ok.injEq] at paired
    obtain ⟨pairs, all, rfl⟩ := paired
    refine Key.foldl_putAligned (List.forall₂_same.mpr fun entry member => ⟨rfl, ?_⟩) .nil .nil
    obtain ⟨⟨item, index⟩, among, comes⟩ := exists_of_forall₂ all.flip member
    have within := List.fst_mem_of_mem_zipIdx among
    exact .refl (pair_proper (Value.everyMap_list.mp proper item within) index comes)
  · split at paired
    · cases paired
      exact .nil
    · cases paired
  · cases paired

end ConfigRecord

theorem Result.Matches.self {α : Type} {R : α → α → Prop} {x : Result α} (same : Matches R x x)
    {a : α} (comes : x = .ok a) : R a a := by
  obtain ⟨b, also, related⟩ := same.exists_ok comes
  cases Except.ok.inj (comes.symm.trans also)
  exact related

namespace ConfigLoader
variable {records : List Value} {ns : String}

theorem projectOf_reordered (ns : String) {found : List Value}
    (json : ∀ record ∈ found, record.IsProper) :
    Result.Matches (Option.Rel ProjectConfig.Reordered) (projectOf ns found) (projectOf ns found) := by
  match found with
  | [] => exact .ok .none
  | [own] =>
    have proper := Value.Reordered.refl (json own List.mem_cons_self)
    have spec := (ConfigRecord.given_reordered (proper.lookup (.str "spec"))).isProper
    have reads := ProjectConfig.ofRecord_matches_of_paired proper
      (ConfigRecord.pairedEntries_reordered spec)
    exact accept_matches (reads.map fun _ _ => .some) _ _ _
  | _ :: _ :: _ => exact .error rfl

/-- What is loaded from records as in JSON is as in JSON. -/
theorem reordered_of_load {timeout : Binary64} {config : LoadedConfig}
    (json : ∀ record ∈ records, record.IsProper)
    (loads : (({ timeout } : ConfigLoader).load (.ofRecords records) ns).1 = .ok config) :
    config.Reordered config := by
  rw [load_fresh] at loads
  simp only [Result.bind_eq_ok, Except.ok.injEq] at loads
  obtain ⟨cluster, ⟨found, finds, reads⟩, project, ⟨own, findsOwn, readsOwn⟩, rfl⟩ := loads
  have proper {labels : Table String Value} {found : List Value}
      (filtered : ConfigSource.filterCarrying labels records = .ok found) :
      ∀ record ∈ found, record.IsProper :=
    fun record member => json record (ConfigSource.carries_of_mem filtered member).1
  have shuffled : Value.Shuffled found found :=
    ⟨found, .refl _, List.forall₂_same.mpr fun record member => .refl (proper finds record member)⟩
  exact ⟨(clusterOf_matches shuffled).self reads,
    (projectOf_reordered ns (proper findsOwn)).self readsOwn⟩

end ConfigLoader

namespace Composition

/-- A field is declared under the text of its path. -/
theorem exists_path_of_declared {t : Table String Declaration} {patches : List Patch}
    (paths : ∀ entry ∈ t, ∃ p : FieldPath, entry.2.path = p.text) :
    ∀ entry ∈ patches.foldl declare t, ∃ p : FieldPath, entry.2.path = p.text := by
  induction patches generalizing t with
  | nil => exact paths
  | cons patch rest ih =>
    refine ih fun entry member => ?_
    rcases Table.mem_put member with rfl | old
    · exact ⟨patch.field, rfl⟩
    · exact paths entry old

theorem exists_path {c : Composition} {d : Declaration} (declared : d ∈ c.fields) :
    ∃ p : FieldPath, d.path = p.text := by
  obtain ⟨entry, member, rfl⟩ := List.mem_map.mp declared
  exact exists_path_of_declared (fun _ absent => absurd absent List.not_mem_nil) entry member

end Composition

namespace FieldLevels

/-- The value of a declared field is missing at worst. -/
theorem fails_resolveField (levels : FieldLevels) {d : Declaration}
    (declared : ∃ p : FieldPath, d.path = p.text) : (levels.resolveField d).Fails .reported := by
  obtain ⟨p, path⟩ := declared
  have candidates : (levels.candidates d).Fails .reported := by
    unfold FieldLevels.candidates
    rw [path, FieldPath.ofText?_text]
    exact .ok _
  refine Result.Fails.bind candidates fun candidates _ => ?_
  dsimp only
  split
  · split
    · exact .error rfl
    · exact .ok _
  · exact .ok _

theorem fails_resolve (levels : FieldLevels) {declarations : List Declaration}
    (paths : ∀ d ∈ declarations, ∃ p : FieldPath, d.path = p.text) :
    (levels.resolve declarations).Fails .reported := by
  refine Result.FailsOnly.foldlM_of_mem (fun d declared fields => ?_) []
  refine Result.Fails.bind (levels.fails_resolveField (paths d declared)) fun field _ => ?_
  cases field <;> exact .ok _

end FieldLevels

theorem Engine.fails_plan (i : Instance) (c : Composition) (config : LoadedConfig) :
    (plan i c config).Fails .reported := by
  refine .bind (FieldLevels.fails_resolve _ fun d => Composition.exists_path) fun fields _ => ?_
  exact .bind (Reference.fails_collect _) fun _ _ => .ok _

/-- The labels and annotations that a resource brings with it are maps, as far as they are given, and
none of its integers is too long to be written. -/
structure Value.IsMarkable (resource : Value) : Prop where
  labels : ((resource.lookup "metadata").lookup "labels").IsBlock
  annotations : ((resource.lookup "metadata").lookup "annotations").IsBlock
  writable : resource.isWritable = true

theorem Value.exists_spread_iff {v : Value} : (∃ entries, v.spread = .ok entries) ↔ v.IsBlock := by
  unfold spread IsBlock
  cases v.isGiven with
  | false => simp
  | true => cases v <;> simp [isMap]

theorem Value.exists_canonical?_iff {v : Value} (proper : v.IsProper) :
    (∃ text, v.canonical? = .ok text) ↔ v.isWritable = true := by
  simp [canonical?_eq_ok, proper.isTextual.hasOrder]

namespace Instance
variable {i : Instance} {manager : String} {template : Template} {c : Composition}
  {fields : Assignment} {refs : Resolutions} {v : Value}

/-- The name and namespace of a resource stand beside its labels and annotations. -/
theorem lookup_named (own : List (Key × Value)) (name ns : Value) {key : String}
    (notName : key ≠ "name") (notNs : key ≠ "namespace") :
    (Value.map (Table.putAll own [("name", name), ("namespace", ns)])).lookup (.str key) =
      (Value.map own).lookup (.str key) := by
  have apart {text : String} (other : key ≠ text) : Key.str key ≠ .str text := by simpa using other
  simp only [Value.lookup, Value.entries, Table.putAll, List.foldl_cons, List.foldl_nil,
    Table.find?_put_of_ne _ _ (apart notNs), Table.find?_put_of_ne _ _ (apart notName)]

theorem exists_metadata_iff (i : Instance) (manager : String) (template : Template)
    (proper : v.IsProper) : (∃ m, i.metadata manager template v = .ok m) ↔ v.IsMarkable := by
  have within (w : Value) (key : Key) : (Value.map w.entries).lookup key = w.lookup key := rfl
  simp only [Instance.metadata, Result.bind_eq_ok, Except.ok.injEq,
    lookup_named _ _ _ (show "labels" ≠ "name" by decide) (show "labels" ≠ "namespace" by decide),
    lookup_named _ _ _ (show "annotations" ≠ "name" by decide)
      (show "annotations" ≠ "namespace" by decide), within]
  constructor
  · rintro ⟨_, text, canonical, labels, labelled, annotations, annotated, -⟩
    exact ⟨Value.exists_spread_iff.mp ⟨labels, labelled⟩,
      Value.exists_spread_iff.mp ⟨annotations, annotated⟩,
      (Value.exists_canonical?_iff proper).mp ⟨text, canonical⟩⟩
  · rintro ⟨labelled, annotated, writable⟩
    obtain ⟨text, canonical⟩ := (Value.exists_canonical?_iff proper).mpr writable
    obtain ⟨labels, labelled⟩ := Value.exists_spread_iff.mpr labelled
    obtain ⟨annotations, annotated⟩ := Value.exists_spread_iff.mpr annotated
    exact ⟨_, text, canonical, labels, labelled, annotations, annotated, rfl⟩

theorem exists_resource_iff (filled : template.filled fields refs = .ok v)
    (inst : i.Reordered i) (own : template.Reordered template) (json : v.Reordered v) :
    (∃ r, i.resource manager fields refs template = .ok r) ↔ v.IsMarkable := by
  simp only [Instance.resource, filled, Result.ok_bind, Result.bind_eq_ok]
  rw [← exists_metadata_iff i manager template json.isProper]
  constructor
  · rintro ⟨_, m, made, -⟩
    exact ⟨m, made⟩
  · rintro ⟨m, made⟩
    have metadata := (metadata_matches manager inst own json).self made
    have proper := (json.entries.put "metadata" metadata).isProper
    exact ⟨_, m, made, Value.sorted?_eq_ok.mpr ⟨proper.isTextual.hasOrder, rfl⟩⟩

/-- Resources can be made if whatever the templates are filled with can be marked. Nothing else is in
the way, and what is in the way is not reported. -/
theorem fails_resources_iff (manager : String) (inst : i.Reordered i) (composition : c.Reordered c)
    (fieldsJson : Table.Aligned Value.Reordered fields fields)
    (refsJson : Table.Reordered Resolved.Reordered refs refs) (covers : refs.Covers fields.leaves) :
    (i.resources c manager fields refs).Fails .reported ↔
      ∀ template ∈ c.resources, ∀ v, template.filled fields refs = .ok v → v.IsMarkable := by
  have markable {template : Template} (member : template ∈ c.resources) {v : Value}
      (filled : template.filled fields refs = .ok v) :
      (∃ r, i.resource manager fields refs template = .ok r) ↔ v.IsMarkable := by
    have own := List.forall₂_same.mp composition.resources template member
    exact exists_resource_iff filled inst own ((own.filled fieldsJson refsJson).self filled)
  constructor
  · intro reported template member v filled
    rw [← markable member filled]
    cases made : i.resources c manager fields refs with
    | error failure =>
      cases failsOnly_resources covers failure made with
      | illTyped => cases reported _ made
      | tooLong => cases reported _ made
    | ok generated =>
      obtain ⟨r, -, comes⟩ := exists_of_forall₂ (mapM_eq_ok.mp made) member
      exact ⟨r, comes⟩
  · intro all
    refine Result.FailsOnly.mapM fun template member => ?_
    obtain ⟨v, filled⟩ := template.filled_of_covers covers
    obtain ⟨r, comes⟩ := (markable member filled).mpr (all template member v filled)
    rw [comes]
    exact .ok r

/-- None of the publications before the first pointer hides a value with an integer that is too long to
be written. -/
def CanHide (publications : List Publication) (fields : Assignment) (refs : Resolutions) : Prop :=
  ∀ p ∈ publications.takeWhile fun p => (p.literal fields refs).toOption.isSome,
    p.sensitive = true → ∀ v, p.literal fields refs = .ok v → v.isWritable = true

theorem fails_literal (covers : refs.Covers fields.leaves) (p : Publication) :
    (p.literal fields refs).Fails .reported := by
  unfold Publication.literal
  split
  · exact .ok _
  · rename_i v found
    exact Resolutions.fails_inject fun leaf within =>
      covers.fails (fun _ => .error rfl) (Assignment.mem_leaves found within)

theorem exists_secretText_iff (proper : v.IsProper) :
    (∃ text, Publication.secretText v = .ok text) ↔ v.isWritable = true := by
  unfold Publication.secretText
  split
  · exact iff_of_true ⟨_, rfl⟩ rfl
  · exact Value.exists_canonical?_iff proper

theorem exists_add_iff {p : Publication} (comes : p.literal fields refs = .ok v) (proper : v.IsProper)
    (done : Published) : (∃ next, Published.add fields refs done p = .ok next) ↔
      (p.sensitive = true → v.isWritable = true) := by
  simp only [Published.add, comes, Result.ok_bind, ← exists_secretText_iff proper]
  split
  · rename_i isNull
    subst isNull
    exact iff_of_true ⟨_, rfl⟩ fun _ => ⟨_, rfl⟩
  · split
    · rename_i sensitive
      simp [Result.bind_eq_ok, sensitive]
    · rename_i shown
      exact iff_of_true ⟨_, rfl⟩ fun sensitive => absurd sensitive shown

/-- A value that is no pointer can at worst not be written. -/
theorem fails_add {p : Publication} (comes : p.literal fields refs = .ok v) (done : Published) :
    (Published.add fields refs done p).Fails .escaping := by
  have secretText : (Publication.secretText v).Fails .escaping := by
    unfold Publication.secretText
    split
    · exact .ok _
    · intro failure fails
      cases v.failsOnly_canonical? failure fails <;> rfl
  simp only [Published.add, comes, Result.ok_bind]
  split
  · exact .ok _
  · split
    · exact .bind secretText fun _ _ => .ok _
    · exact .ok _

/-- Publishing stops at the first pointer, and has written all that is to be hidden before it. -/
theorem fails_foldlM_add_iff (fieldsJson : Table.Aligned Value.Reordered fields fields)
    (refsJson : Table.Reordered Resolved.Reordered refs refs) (covers : refs.Covers fields.leaves)
    (publications : List Publication) (done : Published) :
    (publications.foldlM (Published.add fields refs) done).Fails .reported ↔
      CanHide publications fields refs := by
  induction publications generalizing done with
  | nil => exact iff_of_true (.ok _) fun _ absent => absurd absent List.not_mem_nil
  | cons p rest ih =>
    rw [List.foldlM_cons]
    cases comes : p.literal fields refs with
    | error failure =>
      have stops : Published.add fields refs done p = .error failure := by
        simp [Published.add, comes]
      refine iff_of_true ?_ (by simp [CanHide, comes, Except.toOption])
      rw [stops, Result.error_bind]
      exact .error (fails_literal covers p failure comes)
    | ok v =>
      have proper := ((p.literal_matches fieldsJson refsJson covers covers).self comes).isProper
      have adds := exists_add_iff comes proper done
      have hides : CanHide (p :: rest) fields refs ↔
          (p.sensitive = true → v.isWritable = true) ∧ CanHide rest fields refs := by
        simp [CanHide, comes, Except.toOption]
      rw [hides, ← adds]
      cases added : Published.add fields refs done p with
      | error failure =>
        have escapes := fails_add comes done failure added
        simp [Result.Fails, escapes]
      | ok next => simp [ih next]

/-- Of a record at worst a pointer is in the way, unless what it hides cannot be written. -/
theorem fails_record_iff (fieldsJson : Table.Aligned Value.Reordered fields fields)
    (refsJson : Table.Reordered Resolved.Reordered refs refs) (covers : refs.Covers fields.leaves) :
    (i.record c fields refs).Fails .reported ↔ CanHide c.publish fields refs := by
  have matched : Result.Matches Published.Reordered (c.publish.foldlM (Published.add fields refs) {})
      (c.publish.foldlM (Published.add fields refs) {}) :=
    Result.Matches.foldlM_same _ (fun p done done' same =>
      Published.add_matches fieldsJson refsJson covers covers same p) ⟨.nil, rfl, .nil⟩
  rw [Instance.record, Result.fails_bind_iff, fails_foldlM_add_iff fieldsJson refsJson covers]
  refine and_iff_left fun published comes => ?_
  have proper := (Value.reordered_ofTable (matched.self comes).outputs).isProper
  simp only [sortedOutputs, proper.isTextual.hasOrder, if_true]
  exact .ok _

end Instance

end WorkloadConfig
