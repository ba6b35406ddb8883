import WorkloadConfig.Proofs.Identities
import WorkloadConfig.Proofs.Positions
import WorkloadConfig.Proofs.Reporting.Stages

namespace WorkloadConfig

theorem Value.isTextual_substitute {f : String → Value} {v : Value} (textual : v.IsTextual)
    (each : ∀ text, (f text).IsTextual) : (v.substitute f).IsTextual := by
  rw [← replaceLeaves_const v fun _ => rfl]
  exact everyMap_replaceLeaves textual fun _ => each

namespace Publication
variable {p : Publication} {fields : Assignment} {refs : Resolutions}

/-- A leaf of the published field, however deep, was resolved to a pointer. -/
def Points (p : Publication) (fields : Assignment) (refs : Resolutions) : Prop :=
  ∃ v, fields.find? p.fromField.text = some v ∧
    ∃ leaf ∈ v.leaves, Reference.isReference leaf = true ∧
      ∃ pointer, refs.find? leaf = some (.pointer pointer)

/-- The value of the published field with its references replaced, null where it has none. -/
def shown (p : Publication) (fields : Assignment) (refs : Resolutions) : Value :=
  ((fields.find? p.fromField.text).map (Value.substitute refs.meaning)).getD .null

/-- What stands for the value where only texts may stand. -/
def secret : Value → String
  | .str text => text
  | v => Json.canonical v

/-- If the published value is sensitive, it can be written with its keys in order. -/
def IsLegible (p : Publication) (fields : Assignment) (refs : Resolutions) : Prop :=
  p.sensitive = true →
    (p.shown fields refs).hasOrder = true ∧ (p.shown fields refs).isWritable = true

/-- The keys of the published value can be put in order, and be written where it is sensitive. -/
structure IsOrderly (p : Publication) (fields : Assignment) (refs : Resolutions) : Prop where
  order : (p.shown fields refs).hasOrder = true
  legible : p.IsLegible fields refs

theorem literal_of_points (covers : refs.Covers fields.leaves) (points : p.Points fields refs) :
    p.literal fields refs = Result.fail (.unpublishable p.key.text p.fromField.text) := by
  obtain ⟨v, found, leaf, within, begins, pointer, resolved⟩ := points
  have injected : p.literal fields refs = refs.inject
      (fun _ => Result.fail (.unpublishable p.key.text p.fromField.text)) v := by
    rw [literal, found]
  rw [injected]
  cases outcome : refs.inject
      (fun _ => Result.fail (.unpublishable p.key.text p.fromField.text)) v with
  | ok w =>
    obtain ⟨u, comes⟩ := (Resolutions.inject_eq_ok.mp outcome).1 leaf within
    simp [Resolutions.replacement, begins, resolved, Result.fail] at comes
  | error failure =>
    obtain ⟨other, among, fails⟩ := Resolutions.exists_leaf_of_inject_error outcome
    obtain ⟨_, refused⟩ := covers.exists_pointer (Assignment.mem_leaves found among) fails
    exact refused.symm

theorem literal_of_not_points (covers : refs.Covers fields.leaves)
    (plain : ¬ p.Points fields refs) : p.literal fields refs = .ok (p.shown fields refs) := by
  unfold literal shown
  cases found : fields.find? p.fromField.text with
  | none => rfl
  | some v =>
    have stands : ∀ leaf ∈ v.leaves, refs.replacement
        (fun _ => Result.fail (.unpublishable p.key.text p.fromField.text)) leaf =
          .ok (refs.meaning leaf) := by
      intro leaf within
      rw [Resolutions.meaning_eq, Resolutions.replacement]
      by_cases begins : Reference.isReference leaf = true
      · obtain ⟨resolved, given⟩ := covers leaf (Assignment.mem_leaves found within) begins
        cases resolved with
        | literal w => simp [begins, given, Resolved.shown]
        | pointer pointer => exact absurd ⟨v, found, leaf, within, begins, pointer, given⟩ plain
      · simp [begins]
    refine Resolutions.inject_eq_ok.mpr ⟨fun leaf within => ⟨_, stands leaf within⟩, ?_⟩
    exact Value.substitute_congr fun leaf within => by rw [Resolutions.standing, stands leaf within]

/-- Where all keys are texts, as they are in JSON, so they are in what is published. -/
theorem isTextual_shown (p : Publication) (textual : ∀ field ∈ fields, field.2.IsTextual)
    (literals : ∀ leaf v, refs.find? leaf = some (.literal v) → v.IsTextual) :
    (p.shown fields refs).IsTextual := by
  have meant (text : String) : (refs.meaning text).IsTextual := by
    rw [Resolutions.meaning_eq]
    split
    · cases found : Table.find? refs text with
      | none => exact Eq.refl true
      | some resolved =>
        cases resolved with
        | literal v => exact literals text v found
        | pointer pointer => exact pointer.isProper_field.isTextual
    · exact Eq.refl true
  unfold shown
  cases found : fields.find? p.fromField.text with
  | none => exact Eq.refl true
  | some v => exact Value.isTextual_substitute (textual _ (Table.mem_of_find? found)) meant

theorem isLegible_iff (textual : (p.shown fields refs).IsTextual) :
    p.IsLegible fields refs ↔ (p.sensitive = true → (p.shown fields refs).isWritable = true) :=
  forall_congr' fun _ => and_iff_right textual.hasOrder

theorem isOrderly_iff (textual : (p.shown fields refs).IsTextual) :
    p.IsOrderly fields refs ↔ p.IsLegible fields refs :=
  ⟨IsOrderly.legible, fun legible => ⟨textual.hasOrder, legible⟩⟩

/-- The failure stops the publishing: it is one of writing and, where all keys are texts, that of an
integer that is too long. -/
def Stops (publications : List Publication) (fields : Assignment) (refs : Resolutions)
    (failure : Failure) : Prop :=
  Json.Hindrance failure ∧
    ((∀ p ∈ publications, (p.shown fields refs).IsTextual) → failure = .tooLong)

/-- The entry on one of the two sides, if there is a value and it belongs there. -/
def entry {α : Type} (sensitive : Bool) (form : Value → α) (fields : Assignment)
    (refs : Resolutions) (p : Publication) : Option (String × α) :=
  if p.sensitive = sensitive ∧ p.shown fields refs ≠ .null then
    some (p.key.text, form (p.shown fields refs))
  else none

section
variable {α : Type} {sensitive : Bool} {form : Value → α} {publications : List Publication}

theorem entry_eq_some {key : String} {a : α} :
    p.entry sensitive form fields refs = some (key, a) ↔ p.key.text = key ∧
      p.sensitive = sensitive ∧ p.shown fields refs ≠ .null ∧ a = form (p.shown fields refs) := by
  simp only [entry, Option.ite_none_right_eq_some, Option.some.injEq, Prod.mk.injEq]
  constructor
  · rintro ⟨⟨side, given⟩, rfl, rfl⟩
    exact ⟨rfl, side, given, rfl⟩
  · rintro ⟨rfl, side, given, rfl⟩
    exact ⟨⟨side, given⟩, rfl, rfl⟩

variable (distinct : (publications.map (·.key.text)).Nodup)
include distinct

theorem nodup_entries :
    (Table.keys (publications.filterMap (entry sensitive form fields refs))).Nodup :=
  Table.nodup_keys_filterMap distinct fun _ _ made => (entry_eq_some.mp made).1.symm

theorem find?_entries {key : String} {a : α} :
    Table.find? (publications.filterMap (entry sensitive form fields refs)) key = some a ↔
      ∃ p ∈ publications, p.key.text = key ∧ p.sensitive = sensitive ∧
        p.shown fields refs ≠ .null ∧ a = form (p.shown fields refs) := by
  rw [Table.find?_eq_some_iff (nodup_entries distinct)]
  simp only [List.mem_filterMap, entry_eq_some]

end

theorem secretText_eq {v : Value} (ordered : v.hasOrder = true) (writable : v.isWritable = true) :
    secretText v = .ok (secret v) := by
  have written : v.canonical? = .ok (Json.canonical v) :=
    Value.canonical?_eq_ok.mpr ⟨ordered, writable, rfl⟩
  cases v with
  | scalar s =>
    cases s with
    | str _ => rfl
    | _ => exact written
  | list _ | map _ => exact written

theorem exists_stop {v : Value} (unwritten : ¬ (v.hasOrder = true ∧ v.isWritable = true)) :
    ∃ failure, secretText v = .error failure ∧ Json.Hindrance failure ∧
      (v.IsTextual → failure = .tooLong) := by
  have noText : ∀ text, v ≠ .str text := fun text same => unwritten (same ▸ ⟨rfl, rfl⟩)
  have same : secretText v = v.canonical? := by
    unfold secretText
    split
    · rename_i text
      exact absurd rfl (noText text)
    · rfl
  rw [same]
  cases written : v.canonical? with
  | ok text =>
    obtain ⟨ordered, writable, -⟩ := Value.canonical?_eq_ok.mp written
    exact absurd ⟨ordered, writable⟩ unwritten
  | error failure =>
    refine ⟨failure, rfl, v.failsOnly_canonical? failure written, fun textual => ?_⟩
    rw [textual.canonical?_eq] at written
    split at written
    · cases written
    · exact (Except.error.inj written).symm

end Publication

theorem Value.hasOrder_ofTable {t : Table String Value} :
    (Value.ofTable t).hasOrder = true ↔ ∀ entry ∈ t, entry.2.hasOrder = true := by
  have texts : sameKind (Table.keys (ofTable t).entries) = true := by
    refine sameKind_iff.mpr (.inr ⟨.text, fun key member => ?_⟩)
    obtain ⟨k, rfl⟩ := eq_str_of_isText (Table.isText_keyed t key member)
    rfl
  refine everyMap_map.trans ((and_iff_right texts).trans ?_)
  exact List.forall_mem_map

open Publication (entry secret secretText_eq exists_stop nodup_entries Stops)

namespace Published
variable {fields : Assignment} {refs : Resolutions}

theorem add_eq {p : Publication} (covers : refs.Covers fields.leaves)
    (plain : ¬ p.Points fields refs) (legible : p.IsLegible fields refs) (done : Published) :
    add fields refs done p = .ok {
      outputs := done.outputs.putAll (p.entry false id fields refs).toList
      connection := done.connection.putAll (p.entry true secret fields refs).toList } := by
  rw [add, Publication.literal_of_not_points covers plain, Result.ok_bind]
  by_cases null : p.shown fields refs = .null
  · simp [null, entry, Table.putAll]
  · cases side : p.sensitive with
    | false => simp [null, side, entry, Table.putAll]
    | true =>
      obtain ⟨ordered, writable⟩ := legible side
      simp [null, side, secretText_eq ordered writable, entry, Table.putAll]

theorem add_of_not_legible {p : Publication} (covers : refs.Covers fields.leaves)
    (plain : ¬ p.Points fields refs) (illegible : ¬ p.IsLegible fields refs) :
    ∃ failure, Json.Hindrance failure ∧ ((p.shown fields refs).IsTextual → failure = .tooLong) ∧
      ∀ done, add fields refs done p = .error failure := by
  obtain ⟨side, unwritten⟩ := Classical.not_imp.mp illegible
  have given : p.shown fields refs ≠ .null := fun null => unwritten (null ▸ ⟨rfl, rfl⟩)
  obtain ⟨failure, stops, hindrance, long⟩ := exists_stop unwritten
  refine ⟨failure, hindrance, long, fun done => ?_⟩
  rw [add, Publication.literal_of_not_points covers plain, Result.ok_bind, if_neg given, if_pos side,
    stops]
  rfl

theorem foldlM_eq {publications : List Publication} (covers : refs.Covers fields.leaves)
    (plain : ∀ p ∈ publications, ¬ p.Points fields refs)
    (legible : ∀ p ∈ publications, p.IsLegible fields refs) (done : Published) :
    publications.foldlM (add fields refs) done = .ok {
      outputs := done.outputs.putAll (publications.filterMap (entry false id fields refs))
      connection :=
        done.connection.putAll (publications.filterMap (entry true secret fields refs)) } := by
  induction publications generalizing done with
  | nil => rfl
  | cons p rest ih =>
    obtain ⟨first, plain⟩ := List.forall_mem_cons.mp plain
    obtain ⟨own, legible⟩ := List.forall_mem_cons.mp legible
    rw [List.foldlM_cons, add_eq covers first own, Result.ok_bind, ih plain legible]
    have both {α : Type} (t : Table String α) (f : Publication → Option (String × α)) :
        (t.putAll (f p).toList).putAll (rest.filterMap f) = t.putAll ((p :: rest).filterMap f) := by
      cases made : f p <;> simp [made, Table.putAll]
    exact congrArg Except.ok (congrArg₂ Published.mk (both done.outputs _) (both done.connection _))

theorem foldlM_of_not_legible {publications : List Publication} (covers : refs.Covers fields.leaves)
    (plain : ∀ p ∈ publications, ¬ p.Points fields refs)
    (illegible : ¬ ∀ p ∈ publications, p.IsLegible fields refs) (done : Published) :
    ∃ failure, Stops publications fields refs failure ∧
      publications.foldlM (add fields refs) done = .error failure := by
  induction publications generalizing done with
  | nil => exact absurd (List.forall_mem_nil _) illegible
  | cons p rest ih =>
    obtain ⟨first, plain⟩ := List.forall_mem_cons.mp plain
    rw [List.foldlM_cons]
    by_cases own : p.IsLegible fields refs
    · have later : ¬ ∀ p ∈ rest, p.IsLegible fields refs := fun legible =>
        illegible (List.forall_mem_cons.mpr ⟨own, legible⟩)
      rw [add_eq covers first own, Result.ok_bind]
      obtain ⟨failure, ⟨hindrance, long⟩, fails⟩ := ih plain later _
      exact ⟨failure, ⟨hindrance, fun textual => long (List.forall_mem_cons.mp textual).2⟩, fails⟩
    · obtain ⟨failure, hindrance, long, fails⟩ := add_of_not_legible covers first own
      rw [fails]
      exact ⟨failure, ⟨hindrance, fun textual => long (textual p List.mem_cons_self)⟩, rfl⟩

/-- What the publications come to together. -/
def ofAll (publications : List Publication) (fields : Assignment) (refs : Resolutions) :
    Published where
  outputs := publications.filterMap (entry false id fields refs)
  connection := publications.filterMap (entry true secret fields refs)

theorem hasOrder_outputs_ofAll {publications : List Publication} :
    (Value.ofTable (ofAll publications fields refs).outputs).hasOrder = true ↔
      ∀ p ∈ publications, p.sensitive = false → (p.shown fields refs).hasOrder = true := by
  rw [Value.hasOrder_ofTable]
  constructor
  · intro each p among side
    by_cases null : p.shown fields refs = .null
    · rw [null]
      rfl
    · have made : entry false id fields refs p = some (p.key.text, p.shown fields refs) :=
        Publication.entry_eq_some.mpr ⟨rfl, side, null, rfl⟩
      exact each _ (List.mem_filterMap.mpr ⟨p, among, made⟩)
  · intro each shown member
    obtain ⟨p, among, made⟩ := List.mem_filterMap.mp member
    obtain ⟨-, side, -, same⟩ := Publication.entry_eq_some.mp made
    rw [same]
    exact each p among side

/-- No publication writes over what another has written. -/
theorem foldlM_eq_ofAll {publications : List Publication}
    (distinct : (publications.map (·.key.text)).Nodup) (covers : refs.Covers fields.leaves)
    (plain : ∀ p ∈ publications, ¬ p.Points fields refs)
    (legible : ∀ p ∈ publications, p.IsLegible fields refs) :
    publications.foldlM (add fields refs) {} = .ok (ofAll publications fields refs) := by
  rw [foldlM_eq covers plain legible]
  exact congrArg Except.ok (congrArg₂ Published.mk (Table.ofList_of_nodup (nodup_entries distinct))
    (Table.ofList_of_nodup (nodup_entries distinct)))

end Published

namespace Instance
variable {i : Instance} {c : Composition} {fields : Assignment} {refs : Resolutions} {r : Record}

/-- A pointer is met before anything that comes after it, and no literal is in its way. -/
theorem record_of_points {earlier later : List Publication} {p : Publication}
    (covers : refs.Covers fields.leaves) (split : c.publish = earlier ++ p :: later)
    (before : ∀ q ∈ earlier, ¬ q.Points fields refs)
    (legible : ∀ q ∈ earlier, q.IsLegible fields refs) (points : p.Points fields refs) :
    i.record c fields refs = Result.fail (.unpublishable p.key.text p.fromField.text) := by
  rw [record, split, List.foldlM_append, Published.foldlM_eq covers before legible, Result.ok_bind,
    List.foldlM_cons, Published.add, Publication.literal_of_points covers points]
  rfl

theorem record_of_not_points (valid : c.Valid) (covers : refs.Covers fields.leaves)
    (orderly : ∀ p ∈ c.publish, p.IsOrderly fields refs)
    (plain : ∀ p ∈ c.publish, ¬ p.Points fields refs) : i.record c fields refs = .ok {
      kind := i.kind
      ns := i.ns.text
      name := i.name.text
      outputs := byKey ((Published.ofAll c.publish fields refs).outputs.mapValues Value.sortKeys)
      connection := ⟨connectionSecretName i.name.text,
        byKey (Published.ofAll c.publish fields refs).connection⟩
      resources := Sorting.texts c.templateNames } := by
  have order := Published.hasOrder_outputs_ofAll.mpr fun p among _ => (orderly p among).order
  have legible : ∀ p ∈ c.publish, p.IsLegible fields refs := fun p among => (orderly p among).legible
  rw [record, Published.foldlM_eq_ofAll valid.distinct covers plain legible, Result.ok_bind,
    sortedOutputs, if_pos order, Result.ok_bind]

/-- What cannot be put in order or be written is met when it is written, if it is sensitive, and else
when the outputs are put in order. -/
theorem record_of_not_orderly (valid : c.Valid) (covers : refs.Covers fields.leaves)
    (plain : ∀ p ∈ c.publish, ¬ p.Points fields refs)
    (disorderly : ¬ ∀ p ∈ c.publish, p.IsOrderly fields refs) :
    ∃ failure, Stops c.publish fields refs failure ∧ i.record c fields refs = .error failure := by
  by_cases legible : ∀ p ∈ c.publish, p.IsLegible fields refs
  · have disorder : ¬ (Value.ofTable (Published.ofAll c.publish fields refs).outputs).hasOrder =
        true := by
      intro order
      refine disorderly fun p among => ⟨?_, legible p among⟩
      cases side : p.sensitive with
      | true => exact (legible p among side).1
      | false => exact Published.hasOrder_outputs_ofAll.mp order p among side
    refine ⟨.illTyped, ⟨.illTyped, fun textual => ?_⟩, ?_⟩
    · exact absurd (fun p among => ⟨(textual p among).hasOrder, legible p among⟩) disorderly
    · rw [record, Published.foldlM_eq_ofAll valid.distinct covers plain legible, Result.ok_bind,
        sortedOutputs, if_neg disorder]
      rfl
  · obtain ⟨failure, stops, fails⟩ := Published.foldlM_of_not_legible covers plain legible {}
    refine ⟨failure, stops, ?_⟩
    rw [record, fails]
    rfl

end Instance

/-- The record holds each value that is published once and on its side, and nothing else. -/
structure Record.Holds (r : Record) (c : Composition) (fields : Assignment) (refs : Resolutions) :
    Prop where
  outputsApart : r.outputs.keys.Nodup
  dataApart : r.connection.data.keys.Nodup
  sidesApart : r.outputs.keys.Disjoint r.connection.data.keys
  keys : ∀ key, key ∈ r.outputs.keys ∨ key ∈ r.connection.data.keys ↔
    ∃ p ∈ c.publish, p.key.text = key ∧ p.shown fields refs ≠ .null
  outputs : ∀ key v, r.outputs.find? key = some v ↔ ∃ p ∈ c.publish, p.key.text = key ∧
    p.sensitive = false ∧ p.shown fields refs ≠ .null ∧ v = (p.shown fields refs).sortKeys
  data : ∀ key text, r.connection.data.find? key = some text ↔ ∃ p ∈ c.publish, p.key.text = key ∧
    p.sensitive = true ∧ p.shown fields refs ≠ .null ∧
      text = Publication.secret (p.shown fields refs)
  resources : r.resources.Pairwise (· < ·) ∧ r.resources.Perm c.templateNames

/-- The secret of the connection shows the record's own data, and lies where the instance does. -/
structure Record.Shows (r : Record) (i : Instance) (manifest : Value) : Prop where
  data : manifest.lookup "stringData" = .ofLabels r.connection.data
  name : (manifest.lookup "metadata").lookup "name" = .str r.connection.name
  ns : (manifest.lookup "metadata").lookup "namespace" = .str i.ns.text

theorem Sorting.pairwise_texts {items : List String} (distinct : items.Nodup) :
    (texts items).Pairwise (· < ·) := by
  have sorted : (texts items).Pairwise fun a b => decide (a ≤ b) = true := by
    refine sort_pairwise (fun a b => ?_) (fun a b c => ?_) items
    · simpa only [decide_eq_true_eq] using String.le_total a b
    · simpa only [decide_eq_true_eq] using String.le_trans
  have apart : (texts items).Nodup := (sort_perm _ items).nodup_iff.mpr distinct
  refine sorted.imp₂ (fun a b before other => ?_) apart
  by_contra notBefore
  exact other (String.le_antisymm (of_decide_eq_true before) (String.not_lt.mp notBefore))

/-- Labels that stand in order stay as they are. -/
theorem Value.sortKeys_ofLabels {labels : Table String String}
    (sorted : labels.Pairwise fun a b => decide (a.1 ≤ b.1) = true) :
    (ofLabels labels).sortKeys = ofLabels labels := by
  have own : sortKeysEntries (ofLabels labels).entries = (ofLabels labels).entries := by
    simp [sortKeysEntries_eq, ofLabels, ofTable, entries, Table.mapValues, sortKeys]
  have order : (ofLabels labels).entries.Pairwise fun a b => a.1.le b.1 = true := by
    simpa [ofLabels, ofTable, entries, Table.mapValues, List.pairwise_map, Key.le] using sorted
  have step : (ofLabels labels).sortKeys =
    .map (Sorting.sort (fun a b => a.1.le b.1) (sortKeysEntries (ofLabels labels).entries)) := rfl
  rw [step, own, Sorting.sort_eq_self order]
  rfl

theorem Record.holds_ofAll {r : Record} {c : Composition} {fields : Assignment} {refs : Resolutions}
    (valid : c.Valid)
    (outputs : r.outputs =
      byKey ((Published.ofAll c.publish fields refs).outputs.mapValues Value.sortKeys))
    (data : r.connection.data = byKey (Published.ofAll c.publish fields refs).connection)
    (resources : r.resources = Sorting.texts c.templateNames) : r.Holds c fields refs := by
  have opened (key : String) (v : Value) : r.outputs.find? key = some v ↔
      ∃ p ∈ c.publish, p.key.text = key ∧ p.sensitive = false ∧ p.shown fields refs ≠ .null ∧
        v = (p.shown fields refs).sortKeys := by
    rw [outputs, find?_byKey, Table.find?_mapValues, Option.map_eq_some_iff]
    simp only [Published.ofAll, Publication.find?_entries valid.distinct]
    constructor
    · rintro ⟨_, ⟨p, member, own, side, given, rfl⟩, rfl⟩
      exact ⟨p, member, own, side, given, rfl⟩
    · rintro ⟨p, member, own, side, given, rfl⟩
      exact ⟨_, ⟨p, member, own, side, given, rfl⟩, rfl⟩
  have closed (key text : String) : r.connection.data.find? key = some text ↔
      ∃ p ∈ c.publish, p.key.text = key ∧ p.sensitive = true ∧ p.shown fields refs ≠ .null ∧
        text = Publication.secret (p.shown fields refs) := by
    rw [data, find?_byKey]
    exact Publication.find?_entries valid.distinct
  refine ⟨?_, ?_, fun key inOutputs inData => ?_, fun key => ?_, opened, closed, ?_, ?_⟩
  · rw [outputs]
    refine nodup_keys_byKey ?_
    rw [Table.keys_mapValues]
    exact nodup_entries valid.distinct
  · rw [data]
    exact nodup_keys_byKey (nodup_entries valid.distinct)
  · obtain ⟨v, found⟩ := Table.mem_keys_iff.mp inOutputs
    obtain ⟨text, found'⟩ := Table.mem_keys_iff.mp inData
    obtain ⟨p, member, own, isOpen, -⟩ := (opened key v).mp found
    obtain ⟨q, member', own', isClosed, -⟩ := (closed key text).mp found'
    cases List.inj_on_of_nodup_map valid.distinct member member' (own.trans own'.symm)
    simp [isOpen] at isClosed
  · simp only [Table.mem_keys_iff, opened, closed]
    constructor
    · rintro (⟨_, p, member, own, -, given, -⟩ | ⟨_, p, member, own, -, given, -⟩) <;>
        exact ⟨p, member, own, given⟩
    · rintro ⟨p, member, own, given⟩
      cases side : p.sensitive with
      | false => exact .inl ⟨_, p, member, own, side, given, rfl⟩
      | true => exact .inr ⟨_, p, member, own, side, given, rfl⟩
  · rw [resources]
    exact Sorting.pairwise_texts valid.nodup_templateNames
  · rw [resources]
    exact Sorting.sort_perm _ _

/-- The record is refused for the first publication whose field has a pointer in it, if what is
sensitive before it can be written. Without a pointer it is made, and holds what is published, unless
something that is published cannot be put in order or, where it is sensitive, be written. Of values
with texts for keys, as those of JSON, there is only one that cannot: a sensitive one with an integer
that is too long. -/
theorem Instance.record_exact {i : Instance} {c : Composition} {fields : Assignment}
    {refs : Resolutions} (valid : c.Valid) (covers : refs.Covers fields.leaves) :
    (∀ earlier p later, c.publish = earlier ++ p :: later →
      (∀ q ∈ earlier, ¬ q.Points fields refs) → (∀ q ∈ earlier, q.IsLegible fields refs) →
        p.Points fields refs →
          i.record c fields refs = Result.fail (.unpublishable p.key.text p.fromField.text)) ∧
    ((∀ p ∈ c.publish, ¬ p.Points fields refs) →
      ((∀ p ∈ c.publish, p.IsOrderly fields refs) → ∃ r, i.record c fields refs = .ok r ∧
        r.Holds c fields refs ∧ ∀ manager, r.Shows i (r.connectionManifest manager)) ∧
      (¬ (∀ p ∈ c.publish, p.IsOrderly fields refs) → ∃ failure,
        Stops c.publish fields refs failure ∧ i.record c fields refs = .error failure)) ∧
    ∀ p : Publication, (p.shown fields refs).IsTextual →
      (p.IsOrderly fields refs ↔ p.IsLegible fields refs) ∧
      (p.IsLegible fields refs ↔
        (p.sensitive = true → (p.shown fields refs).isWritable = true)) := by
  refine ⟨fun earlier p later split before legible points =>
    record_of_points covers split before legible points, fun plain =>
      ⟨fun orderly => ?_, record_of_not_orderly valid covers plain⟩, fun p textual =>
      ⟨Publication.isOrderly_iff textual, Publication.isLegible_iff textual⟩⟩
  refine ⟨_, record_of_not_points valid covers orderly plain, Record.holds_ofAll valid rfl rfl rfl,
    fun manager => ⟨?_, Record.manifest_name _ manager, Record.manifest_namespace _ manager⟩⟩
  rw [Record.manifest_lookup]
  exact Value.sortKeys_ofLabels (pairwise_byKey _)

/-- Two fields are published, the second of them in the connection. -/
def Composition.ofPorts : Composition where
  kind := "App"
  resources := [{
    name := ⟨"main", Eq.refl true⟩
    kind := "ConfigMap"
    patches := [
      { field := ⟨"ports", by decide⟩, place := ⟨"data.ports", by decide⟩ },
      { field := ⟨"notes", by decide⟩, place := ⟨"data.notes", by decide⟩ }] }]
  publish := [
    { key := ⟨"ports", by decide⟩, fromField := ⟨"ports", by decide⟩ },
    { key := ⟨"notes", by decide⟩, fromField := ⟨"notes", by decide⟩, sensitive := true }]

theorem Composition.valid_ofPorts : Composition.ofPorts.Valid :=
  ⟨by decide +kernel, List.cons_ne_nil _ _⟩

/-- The record is made where the port is a literal, and is refused where it is a pointer. -/
theorem Instance.record_exact_ofPorts :
    let i : Instance := { kind := "App", name := .web, ns := .team }
    let fields : Assignment := [
      ("ports", .map [("https", .int 443), ("http", .list [.str "outputs/web/port"])]),
      ("notes", .list [.str "a", .null])]
    let refs (resolved : Resolved) : Resolutions := [("outputs/web/port", resolved)]
    (∃ r, i.record .ofPorts fields (refs (.literal (.int 80))) = .ok r ∧
      r.Holds .ofPorts fields (refs (.literal (.int 80))) ∧
      r.outputs.find? "ports" = some (.map [("http", .list [.int 80]), ("https", .int 443)]) ∧
      r.connection.data.find? "notes" = some "[\"a\",null]") ∧
    i.record .ofPorts fields (refs (.pointer ⟨"web-conn", some "port", .secret⟩)) =
      Result.fail (.unpublishable "ports" "ports") := by
  intro i fields refs
  have covers (resolved : Resolved) : (refs resolved).Covers fields.leaves := by
    intro leaf within begins
    have within : leaf ∈ ["outputs/web/port", "a"] := within
    rcases List.mem_pair.mp within with rfl | rfl
    · exact ⟨resolved, rfl⟩
    · exact absurd begins (by decide)
  have textual : ∀ field ∈ fields, field.2.IsTextual := by
    intro field member
    rcases List.mem_pair.mp member with rfl | rfl <;> exact Eq.refl true
  have shown (resolved : Resolved) (ofLiteral : ∀ v, resolved = .literal v → v.IsTextual)
      (p : Publication) : (p.shown fields (refs resolved)).IsTextual := by
    refine p.isTextual_shown textual fun leaf v found => ?_
    cases List.mem_singleton.mp (Table.mem_of_find? found)
    exact ofLiteral v rfl
  constructor
  · have plain : ∀ p ∈ Composition.ofPorts.publish,
        ¬ p.Points fields (refs (.literal (.int 80))) := by
      rintro p - ⟨v, -, leaf, -, -, pointer, resolved⟩
      cases List.mem_singleton.mp (Table.mem_of_find? resolved)
    have literal : ∀ v, Resolved.literal (.int 80) = .literal v → v.IsTextual := by
      rintro v ⟨⟩
      exact Eq.refl true
    have exact := record_exact (i := i) Composition.valid_ofPorts (covers (.literal (.int 80)))
    have orderly : ∀ p ∈ Composition.ofPorts.publish,
        p.IsOrderly fields (refs (.literal (.int 80))) := by
      intro p among
      obtain ⟨ordered, legible⟩ := exact.2.2 p (shown _ literal p)
      refine ordered.mpr (legible.mpr fun sensitive => ?_)
      rcases List.mem_pair.mp among with rfl | rfl
      · cases sensitive
      · decide +kernel
    obtain ⟨r, recorded, holds, -⟩ := (exact.2.1 plain).1 orderly
    refine ⟨r, recorded, holds, (holds.outputs _ _).mpr ?_, (holds.data _ _).mpr ?_⟩
    · exact ⟨_, .head _, rfl, rfl, by decide +kernel, by decide +kernel⟩
    · exact ⟨_, .tail _ (.head _), rfl, rfl, by decide +kernel, by decide +kernel⟩
  · refine (record_exact Composition.valid_ofPorts (covers _)).1 [] _ _ rfl
      (List.forall_mem_nil _) (List.forall_mem_nil _) ?_
    exact ⟨_, rfl, "outputs/web/port", by decide +kernel, by decide, _, rfl⟩

/-- An integer of 5001 digits has no text that could be hidden, so that no record is made. -/
theorem Instance.record_ofDigits :
    let i : Instance := { kind := "App", name := .web, ns := .team }
    let fields : Assignment := [("notes", .int (Nat.pow 10 5000))]
    Composition.ofPorts.Valid ∧ Resolutions.Covers [] fields.leaves ∧
      (∀ field ∈ fields, field.2.IsTextual) ∧
      (∀ p ∈ Composition.ofPorts.publish, ¬ p.Points fields []) ∧
      i.record .ofPorts fields [] = .error .tooLong := by
  intro i fields
  refine ⟨Composition.valid_ofPorts, fun leaf absent => absurd absent List.not_mem_nil,
    fun field member => ?_, ?_, by decide +kernel⟩
  · rw [List.mem_singleton.mp member]
    exact Eq.refl true
  · rintro p - ⟨v, -, leaf, -, -, pointer, resolved⟩
    cases resolved

end WorkloadConfig
