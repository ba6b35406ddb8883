import WorkloadConfig.Proofs.Positions
import WorkloadConfig.Proofs.Reporting.Stages

namespace WorkloadConfig

namespace Value

theorem at?_entry (v : Value) (key : Key) (rest : Position) :
    v.at? (.entry key :: rest) = (Table.find? v.entries key).bind (·.at? rest) := by
  cases v <;> rfl

theorem find?_sortKeys {v : Value} (distinct : v.HasDistinctKeys) (key : Key) :
    Table.find? v.sortKeys.entries key = (Table.find? v.entries key).map sortKeys := by
  cases v with
  | scalar _ | list _ => rfl
  | map entries =>
    have keys : (Table.keys (sortKeysEntries entries)).Nodup := by
      rw [sortKeysEntries_eq, Table.keys_mapValues]
      exact distinct.entries.1
    rw [← find?_sortKeysEntries]
    exact ((Table.Reordered.of_perm keys (Sorting.sort_perm _ _).symm fun _ _ => rfl).find?_eq
      key).symm

/-- Where keys are distinct, each part is found at its position after the keys were put in order. -/
theorem at?_sortKeys {v : Value} (distinct : v.HasDistinctKeys) (position : Position) :
    v.sortKeys.at? position = (v.at? position).map sortKeys := by
  induction position generalizing v with
  | nil => rfl
  | cons step rest ih =>
    cases step with
    | entry key =>
      rw [at?_entry, at?_entry, find?_sortKeys distinct]
      cases found : Table.find? v.entries key with
      | none => rfl
      | some part => exact ih (distinct.entries.2 _ (Table.mem_of_find? found))
    | item index =>
      cases v with
      | scalar _ | map _ => rfl
      | list items =>
        have there : (list items).sortKeys.child? (.item index) = items[index]?.map sortKeys := by
          rw [sortKeys, sortKeysItems_eq]
          exact List.getElem?_map
        rw [at?, at?, there]
        cases found : items[index]? with
        | none => simp [child?, found]
        | some part =>
          simp only [child?, found, Option.map_some, Option.bind_some]
          exact ih (hasDistinctKeys_list.mp distinct part (List.mem_of_getElem? found))

namespace HasDistinctKeys
variable {v : Value}

theorem putAll {entries added : List (Key × Value)} (distinct : (Value.map entries).HasDistinctKeys)
    (each : ∀ entry ∈ added, entry.2.HasDistinctKeys) :
    (Value.map (Table.putAll entries added)).HasDistinctKeys := by
  induction added generalizing entries with
  | nil => exact distinct
  | cons entry rest ih =>
    obtain ⟨first, others⟩ := List.forall_mem_cons.mp each
    exact ih (distinct.put entry.1 first) others

theorem sortKeys (distinct : v.HasDistinctKeys) : v.sortKeys.HasDistinctKeys := by
  have orderless : Orderless fun keys => decide keys.Nodup :=
    fun keys others perm => decide_eq_decide.mpr perm.nodup_iff
  exact (everyMap_sortKeys orderless v).trans distinct

end HasDistinctKeys

theorem eq_entries_of_spread {v : Value} {entries : List (Key × Value)}
    (spreads : v.spread = .ok entries) : entries = v.entries := by
  unfold spread at spreads
  split at spreads
  · rename_i notGiven
    cases spreads
    cases v with
    | scalar _ | list _ => rfl
    | map own =>
      have empty : own = [] := by simpa [isGiven] using notGiven
      rw [empty]
      rfl
  · split at spreads
    · cases spreads
      rfl
    · cases spreads

theorem find?_entries (v : Value) (key : Key) : Table.find? v.entries key = v.at? [.entry key] := by
  rw [at?_entry]
  cases Table.find? v.entries key <;> rfl

theorem at?_lookup (v : Value) (key other : Key) (rest : Position) :
    (v.lookup key).at? (.entry other :: rest) = v.at? (.entry key :: .entry other :: rest) := by
  rw [at?_entry v, lookup]
  cases Table.find? v.entries key <;> rfl

end Value

open Value (HasDistinctKeys)

theorem Pointer.hasDistinctKeys_field (p : Pointer) : p.field.HasDistinctKeys := by
  unfold field
  split <;> exact Eq.refl true

theorem Template.hasDistinctKeys_filled {t : Template} {fields : Assignment} {refs : Resolutions}
    {v : Value} (base : (Value.ofTable t.base).HasDistinctKeys)
    (values : ∀ field ∈ fields, field.2.HasDistinctKeys)
    (literals : ∀ text w, refs.find? text = some (.literal w) → w.HasDistinctKeys)
    (filled : t.filled fields refs = .ok v) : v.HasDistinctKeys := by
  rw [((filled_exact base values).mp filled).2]
  refine Value.everyMap_replaceLeaves (hasDistinctKeys_patched base values) fun position text => ?_
  split
  · cases found : Table.find? refs text with
    | none => exact Eq.refl true
    | some resolved =>
      cases resolved with
      | literal w => exact literals text w found
      | pointer pointer => exact pointer.hasDistinctKeys_field
  · exact Eq.refl true

namespace Instance
variable {i : Instance} {manager : String} {t : Template} {filled made m : Value}

/-- The labels of a resource: the engine's over those of the instance over its own. -/
def labelled (i : Instance) (manager : String) (filled : Value) : List (Key × Value) :=
  Table.putAll (Table.putAll (Table.ofList ((filled.lookup "metadata").lookup "labels").entries)
    (Value.ofLabels i.labels).entries) (i.reservedLabels manager)

def annotated (filled : Value) : List (Key × Value) :=
  Table.put ((filled.lookup "metadata").lookup "annotations").entries (.str digestAnnotation)
    (.str (Digest.ofText (Json.canonical filled)))

/-- What the engine writes into the metadata of a resource. -/
def marks (i : Instance) (manager : String) (t : Template) (filled : Value) :
    List (Key × Value) := [
  ("name", .str (i.resourceName t)),
  ("namespace", .str i.ns.text),
  ("labels", .map (i.labelled manager filled)),
  ("annotations", .map (annotated filled)),
  ("ownerReferences", .list [i.owner])]

theorem metadata_eq (stamped : i.metadata manager t filled = .ok m) :
    m = .map (Table.putAll (filled.lookup "metadata").entries (i.marks manager t filled)) := by
  simp only [metadata, Result.bind_eq_ok, Value.canonical?_eq_ok, Except.ok.injEq] at stamped
  obtain ⟨text, ⟨-, -, rfl⟩, labels, ofLabels, annotations, ofAnnotations, rfl⟩ := stamped
  rw [lookup_named _ _ _ (by decide) (by decide)] at ofLabels ofAnnotations
  cases Value.eq_entries_of_spread ofLabels
  cases Value.eq_entries_of_spread ofAnnotations
  rfl

/-- What a resource says of its owner, the uid only if there is one. -/
def ownerEntries (i : Instance) : List (Key × Value) :=
  let entries : List (Key × Value) := [
    ("apiVersion", .str ownerApiVersion),
    ("blockOwnerDeletion", .bool true),
    ("controller", .bool true),
    ("kind", .str i.kind),
    ("name", .str i.name.text)]
  let uid : List (Key × Value) :=
    (i.uid.filter (· ≠ "")).toList.map fun text => ("uid", .str text)
  entries ++ uid

/-- Where the digest stands in a resource. -/
def digestAt : Value.Position :=
  [.entry "metadata", .entry "annotations", .entry digestAnnotation]

/-- The resource is what its template was filled with under the marks of the instance: whatever stood
in their place is gone, and everything else is kept. -/
structure Marks (i : Instance) (manager : String) (t : Template) (filled made : Value) : Prop where
  distinct : made.HasDistinctKeys
  frame : ∀ key : Key, key ≠ "metadata" →
    made.at? [.entry key] = (filled.at? [.entry key]).map Value.sortKeys
  name : made.at? [.entry "metadata", .entry "name"] = some (.str (i.resourceName t))
  ns : made.at? [.entry "metadata", .entry "namespace"] = some (.str i.ns.text)
  metadata : ∀ key : Key, key ∉ (["name", "namespace", "labels", "annotations",
      "ownerReferences"] : List Key) →
    made.at? [.entry "metadata", .entry key] =
      (filled.at? [.entry "metadata", .entry key]).map Value.sortKeys
  managedBy : made.at? [.entry "metadata", .entry "labels", .entry managedByLabel] =
    some (.str manager)
  inst : made.at? [.entry "metadata", .entry "labels", .entry instanceLabel] =
    some (.str i.name.text)
  kind : made.at? [.entry "metadata", .entry "labels", .entry kindLabel] = some (.str i.kind)
  labels : ∀ key : Key, key ∉ ([managedByLabel, instanceLabel, kindLabel] : List Key) →
    made.at? [.entry "metadata", .entry "labels", .entry key] =
      (((Value.ofLabels i.labels).at? [.entry key]).or
        (filled.at? [.entry "metadata", .entry "labels", .entry key])).map Value.sortKeys
  digest : made.at? digestAt = some (.str (Digest.ofText (Json.canonical filled)))
  annotations : ∀ key : Key, key ≠ digestAnnotation →
    made.at? [.entry "metadata", .entry "annotations", .entry key] =
      (filled.at? [.entry "metadata", .entry "annotations", .entry key]).map Value.sortKeys
  owner : made.at? [.entry "metadata", .entry "ownerReferences"] =
    some (.list [.map i.ownerEntries])

theorem hasDistinctKeys_labelled (distinct : filled.HasDistinctKeys) :
    (Value.map (i.labelled manager filled)).HasDistinctKeys := by
  have empty : (Value.map []).HasDistinctKeys := Eq.refl true
  have own := ((distinct.lookup "metadata").lookup "labels").entries.2
  refine ((empty.putAll own).putAll ?_).putAll ?_
  · rintro _ member
    obtain ⟨_, among, rfl⟩ := List.mem_map.mp member
    obtain ⟨_, -, rfl⟩ := List.mem_map.mp among
    exact Eq.refl true
  · simp only [reservedLabels, List.forall_mem_cons]
    exact ⟨Eq.refl true, Eq.refl true, Eq.refl true, List.forall_mem_nil _⟩

theorem hasDistinctKeys_owner (i : Instance) : i.owner.HasDistinctKeys := by
  unfold owner ownerUid
  split
  · split <;> exact Eq.refl true
  · exact Eq.refl true

theorem hasDistinctKeys_marks (distinct : filled.HasDistinctKeys) :
    ∀ entry ∈ i.marks manager t filled, entry.2.HasDistinctKeys := by
  have annotations := ((distinct.lookup "metadata").lookup "annotations").entries
  simp only [marks, List.forall_mem_cons]
  refine ⟨Eq.refl true, Eq.refl true, hasDistinctKeys_labelled distinct, ?_, ?_,
    List.forall_mem_nil _⟩
  · exact (Value.hasDistinctKeys_map.mpr annotations).put _ (Eq.refl true)
  · exact Value.hasDistinctKeys_list.mpr (List.forall_mem_singleton.mpr i.hasDistinctKeys_owner)

/-- The finished resource before its keys are put in order. -/
def marked (i : Instance) (manager : String) (t : Template) (filled : Value) : Value :=
  .map (Table.put filled.entries "metadata"
    (.map (Table.putAll (filled.lookup "metadata").entries (i.marks manager t filled))))

theorem hasDistinctKeys_marked (distinct : filled.HasDistinctKeys) :
    (i.marked manager t filled).HasDistinctKeys := by
  have metadata := Value.hasDistinctKeys_map.mpr (distinct.lookup "metadata").entries
  exact (Value.hasDistinctKeys_map.mpr distinct.entries).put _
    (metadata.putAll (hasDistinctKeys_marks distinct))

theorem resource_eq {fields : Assignment} {refs : Resolutions}
    (finished : i.resource manager fields refs t = .ok made) :
    ∃ filled, t.filled fields refs = .ok filled ∧ made = (i.marked manager t filled).sortKeys := by
  simp only [resource, Result.bind_eq_ok, Value.sorted?_eq_ok] at finished
  obtain ⟨filled, fills, m, stamped, -, rfl⟩ := finished
  exact ⟨filled, fills, by rw [metadata_eq stamped, marked]⟩

theorem at?_marked {key : Key} (other : key ≠ "metadata") (rest : Value.Position) :
    (i.marked manager t filled).at? (.entry key :: rest) = filled.at? (.entry key :: rest) := by
  rw [Value.at?_entry, Value.at?_entry filled, marked, Value.entries, Table.find?_put_of_ne _ _ other]

theorem at?_marked_metadata (key : Key) (rest : Value.Position) :
    (i.marked manager t filled).at? (.entry "metadata" :: .entry key :: rest) =
      ((Table.find? (i.marks manager t filled) key).or
        (filled.at? [.entry "metadata", .entry key])).bind (·.at? rest) := by
  have distinct : (Table.keys (i.marks manager t filled)).Nodup := by
    simp [Table.keys, marks]
  rw [Value.at?_entry, marked, Value.entries, Table.find?_put_self, Option.bind_some,
    Value.at?_entry, Value.entries, Table.find?_putAll distinct, Value.find?_entries,
    Value.at?_lookup]

theorem nodup_reservedLabels : (Table.keys (i.reservedLabels manager)).Nodup := by
  have texts : ([managedByLabel, instanceLabel, kindLabel] : List Key).Nodup := by decide
  exact texts

theorem find?_labelled (own : i.labels.keys.Nodup) (distinct : filled.HasDistinctKeys) (key : Key) :
    Table.find? (i.labelled manager filled) key = (Table.find? (i.reservedLabels manager) key).or
      (((Value.ofLabels i.labels).at? [.entry key]).or
        (filled.at? [.entry "metadata", .entry "labels", .entry key])) := by
  have reserved : (Table.keys (i.reservedLabels manager)).Nodup := nodup_reservedLabels
  have ofInstance : (Table.keys (Value.ofLabels i.labels).entries).Nodup :=
    Table.nodup_keys_keyed.mpr (by rwa [Table.keys_mapValues])
  rw [labelled, Table.find?_putAll reserved, Table.find?_putAll ofInstance,
    Table.ofList_of_nodup ((distinct.lookup _).lookup _).entries.1, Value.find?_entries,
    Value.find?_entries, Value.at?_lookup, Value.at?_lookup]

theorem sortKeys_owner (i : Instance) : i.owner.sortKeys = .map i.ownerEntries := by
  unfold owner ownerUid ownerEntries
  cases i.uid with
  | none => exact Eq.refl _
  | some uid =>
    by_cases empty : uid = ""
    · rw [empty]
      exact Eq.refl _
    · have given : (some uid).filter (· ≠ "") = some uid := by simp [Option.filter, empty]
      -- The uid comes after the other keys in their order too.
      simp only [empty, if_false, given]
      exact Eq.refl _

theorem at?_marked_annotations (key : Key) :
    (i.marked manager t filled).at? [.entry "metadata", .entry "annotations", .entry key] =
      Table.find? (annotated filled) key := by
  rw [at?_marked_metadata]
  exact (Value.find?_entries _ _).symm

theorem at?_sortKeys_marked_digestAt (distinct : filled.HasDistinctKeys) :
    (i.marked manager t filled).sortKeys.at? digestAt =
      some (.str (Digest.ofText (Json.canonical filled))) := by
  rw [Value.at?_sortKeys (hasDistinctKeys_marked distinct), digestAt, at?_marked_annotations,
    annotated, Table.find?_put_self]
  rfl

theorem marks_sortKeys_marked (own : i.labels.keys.Nodup) (distinct : filled.HasDistinctKeys) :
    i.Marks manager t filled (i.marked manager t filled).sortKeys := by
  have sorted (position : Value.Position) : (i.marked manager t filled).sortKeys.at? position =
      ((i.marked manager t filled).at? position).map Value.sortKeys :=
    Value.at?_sortKeys (hasDistinctKeys_marked distinct) position
  have labels (key : Key) :
      (i.marked manager t filled).at? [.entry "metadata", .entry "labels", .entry key] =
        Table.find? (i.labelled manager filled) key := by
    rw [at?_marked_metadata]
    exact (Value.find?_entries _ _).symm
  exact {
    distinct := (hasDistinctKeys_marked distinct).sortKeys
    frame := fun key other => by rw [sorted, at?_marked other]
    name := by rw [sorted, at?_marked_metadata]; rfl
    ns := by rw [sorted, at?_marked_metadata]; rfl
    metadata := fun key other => by
      have absent : Table.find? (i.marks manager t filled) key = none :=
        Table.find?_eq_none_iff.mpr other
      rw [sorted, at?_marked_metadata, absent, Option.none_or]
      cases filled.at? [.entry "metadata", .entry key] <;> rfl
    managedBy := by rw [sorted, labels, find?_labelled own distinct]; rfl
    inst := by rw [sorted, labels, find?_labelled own distinct]; rfl
    kind := by rw [sorted, labels, find?_labelled own distinct]; rfl
    labels := fun key other => by
      have absent : Table.find? (i.reservedLabels manager) key = none :=
        Table.find?_eq_none_iff.mpr other
      rw [sorted, labels, find?_labelled own distinct, absent, Option.none_or]
    digest := at?_sortKeys_marked_digestAt distinct
    annotations := fun key other => by
      rw [sorted, at?_marked_annotations, annotated, Table.find?_put_of_ne _ _ other, Value.find?_entries,
        Value.at?_lookup, Value.at?_lookup]
    owner := by
      rw [sorted, at?_marked_metadata]
      have last : Table.find? (i.marks manager t filled) "ownerReferences" =
        some (.list [i.owner]) := rfl
      rw [last, ← sortKeys_owner]
      rfl }

section resources
variable {c : Composition} {fields : Assignment} {refs : Resolutions} {resources : List Value}

/-- Nothing of the instance is in the digests. -/
theorem digests_resources
    (distinct : ∀ t ∈ c.resources, ∀ v, t.filled fields refs = .ok v → v.HasDistinctKeys)
    (applied : i.resources c manager fields refs = .ok resources) :
    resources.map (·.at? digestAt) = c.resources.map fun t =>
      (t.filled fields refs).toOption.map fun v => .str (Digest.ofText (Json.canonical v)) := by
  have each : List.Forall₂ (fun t made => made.at? digestAt =
      (t.filled fields refs).toOption.map fun v => .str (Digest.ofText (Json.canonical v)))
      c.resources resources := by
    refine forall₂_imp_mem (mapM_eq_ok.mp applied) fun t member made finished => ?_
    obtain ⟨filled, fills, rfl⟩ := resource_eq finished
    rw [at?_sortKeys_marked_digestAt (distinct t member filled fills), fills]
    rfl
  rw [← List.forall₂_eq_eq_eq, List.forall₂_map_left_iff, List.forall₂_map_right_iff]
  exact each.flip

theorem marks_resources (own : i.labels.keys.Nodup)
    (distinct : ∀ t ∈ c.resources, ∀ v, t.filled fields refs = .ok v → v.HasDistinctKeys)
    (applied : i.resources c manager fields refs = .ok resources) :
    List.Forall₂ (fun t made => ∃ filled, t.filled fields refs = .ok filled ∧
      i.Marks manager t filled made) c.resources resources := by
  refine forall₂_imp_mem (mapM_eq_ok.mp applied) fun t member made finished => ?_
  obtain ⟨filled, fills, rfl⟩ := resource_eq finished
  exact ⟨filled, fills, marks_sortKeys_marked own (distinct t member filled fills)⟩

end resources

/-- Resources are what the skeletons were filled with, marked as the instance's, as long as no map stands
at two places of a skeleton or a field value. The digest is that of what the skeleton was filled with, so
that it is the same whichever instance is given the same field values and resolutions. -/
theorem resources_marked {d : Design} {fields : Table String Linked} {refs : Resolutions}
    {resources : List Value} (own : i.labels.keys.Nodup) (unshared : d.IsUnshared)
    (unsharedValues : ∀ field ∈ fields, field.2.IsUnshared)
    (bases : ∀ t ∈ d.composition.resources, (Value.ofTable t.base).HasDistinctKeys)
    (values : ∀ field ∈ fields, field.2.value.HasDistinctKeys)
    (literals : ∀ text v, refs.find? text = some (.literal v) → v.HasDistinctKeys)
    (applied : i.resourcesOf d manager fields refs = .ok resources) :
    List.Forall₂ (fun b made => ∃ filled, b.filled fields refs = .ok filled ∧
      i.Marks manager b.template filled.value made) d.blueprints resources ∧
    ∀ (j : Instance) (other : String) (others : List Value),
      j.resourcesOf d other fields refs = .ok others →
        others.map (·.at? digestAt) = resources.map (·.at? digestAt) := by
  have distinct : ∀ t ∈ d.composition.resources, ∀ v,
      t.filled (fields.mapValues Linked.value) refs = .ok v → v.HasDistinctKeys :=
    fun t member _ filled => t.hasDistinctKeys_filled (bases t member)
      (List.forall_mem_map.mpr values) literals filled
  rw [resourcesOf_eq i manager refs unshared unsharedValues] at applied
  constructor
  · have marked := List.forall₂_map_left_iff.mp (marks_resources own distinct applied)
    refine forall₂_imp_mem marked fun b member made ⟨filled, fills, marks⟩ => ?_
    rw [← (Blueprint.filled_eq refs (unshared b member) unsharedValues).1, Result.map_eq_ok] at fills
    obtain ⟨linked, comes, rfl⟩ := fills
    exact ⟨linked, comes, marks⟩
  · intro j other others applies
    rw [resourcesOf_eq j other refs unshared unsharedValues] at applies
    rw [digests_resources distinct applied, digests_resources distinct applies]

/-- An instance with a label of the engine among its own. -/
def spoofing : Instance where
  kind := "App"
  name := .web
  ns := .team
  uid := some "abc-123"
  labels := [("team", "a"), (managedByLabel, "somebody")]

/-- A blueprint with metadata of its own, whose labels a patch replaces. -/
def labelling : Blueprint where
  name := ⟨"main", Eq.refl true⟩
  kind := "Deployment"
  base := [("metadata", .map 0 [("name", .str "own"), ("generation", .int 2), ("labels", .str "none"),
    ("annotations", .map 1 [("note", .str "kept"), (.str digestAnnotation, .str "none")])])]
  patches := [⟨⟨"labels", by decide⟩, ⟨"metadata.labels", by decide⟩, .null, false⟩]

theorem resources_marked_spoofing :
    let d : Design := { kind := "App", blueprints := [labelling] }
    let fields : Table String Linked :=
      [("labels", .map 0 [("tier", .str "web"), (instanceLabel, .str "outputs/db/host")])]
    let refs : Resolutions := [("outputs/db/host", .literal (.str "db"))]
    spoofing.labels.keys.Nodup ∧ d.IsUnshared ∧ (∀ field ∈ fields, field.2.IsUnshared) ∧
      (∀ t ∈ d.composition.resources, (Value.ofTable t.base).HasDistinctKeys) ∧
      (∀ field ∈ fields, field.2.value.HasDistinctKeys) ∧
      (∀ text v, refs.find? text = some (.literal v) → v.HasDistinctKeys) ∧
      ∃ resources, spoofing.resourcesOf d "kresolve" fields refs = .ok resources ∧
        List.Forall₂ (fun b made => ∃ filled, b.filled fields refs = .ok filled ∧
          spoofing.Marks "kresolve" b.template filled.value made) d.blueprints resources ∧
        ∀ (j : Instance) (other : String) (others : List Value),
          j.resourcesOf d other fields refs = .ok others →
            others.map (·.at? digestAt) = resources.map (·.at? digestAt) := by
  intro d fields refs
  have own : spoofing.labels.keys.Nodup := by decide
  have unshared : d.IsUnshared := by decide
  have unsharedValues : ∀ field ∈ fields, field.2.IsUnshared := by decide
  have bases : ∀ t ∈ d.composition.resources, (Value.ofTable t.base).HasDistinctKeys :=
    List.forall_mem_singleton.mpr (Eq.refl true)
  have values : ∀ field ∈ fields, field.2.value.HasDistinctKeys :=
    List.forall_mem_singleton.mpr (Eq.refl true)
  have literals : ∀ text v, refs.find? text = some (.literal v) → v.HasDistinctKeys := by
    intro text v found
    cases List.mem_singleton.mp (Table.mem_of_find? found)
    exact Eq.refl true
  have comes : (spoofing.resourcesOf d "kresolve" fields refs).toOption.isSome = true := by
    decide +kernel
  refine ⟨own, unshared, unsharedValues, bases, values, literals, ?_⟩
  cases applied : spoofing.resourcesOf d "kresolve" fields refs with
  | error failure =>
    rw [applied] at comes
    cases comes
  | ok resources =>
    exact ⟨resources, rfl,
      resources_marked own unshared unsharedValues bases values literals applied⟩

/-- The metadata of a resource is also what its pods are made with, and so the name of the resource
shows there. -/
theorem resources_ofSharedMetadata :
    let b : Blueprint := {
      name := ⟨"main", Eq.refl true⟩
      kind := "Deployment"
      base := [("metadata", .map 0 [("labels", .map 1 [("app", .str "x")])]),
        ("template", .map 2 [("metadata", .map 0 [("labels", .map 1 [("app", .str "x")])])])] }
    let position : Value.Position := Value.along ["template", "metadata", "name"]
    ((b.filled [] []).toOption.map fun v => v.value.at? position) = some none ∧
      (ofWeb.resourcesOf { kind := "App", blueprints := [b] } "kresolve" [] []).toOption.map
        (List.map (·.at? position)) = some [some (.str "web-main")] := by
  decide +kernel

end Instance
end WorkloadConfig
