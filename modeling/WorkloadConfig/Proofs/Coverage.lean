import WorkloadConfig.Proofs.Order.Reading
import WorkloadConfig.Proofs.Publishing
import WorkloadConfig.Proofs.References
import WorkloadConfig.Proofs.Sharing

namespace WorkloadConfig

/-- The leaves of the field values. -/
def Assignment.leaves (fields : Assignment) : List String :=
  (fields.map (·.2)).flatMap Value.leaves

/-- There is a resolution for each of the leaves that begins like a reference. -/
def Resolutions.Covers (refs : Resolutions) (leaves : List String) : Prop :=
  ∀ leaf ∈ leaves, Reference.isReference leaf = true → ∃ v, Table.find? refs leaf = some v

theorem Assignment.mem_leaves {fields : Assignment} {path : String} {v : Value} {leaf : String}
    (found : Table.find? fields path = some v) (within : leaf ∈ v.leaves) : leaf ∈ fields.leaves :=
  List.mem_flatMap.mpr ⟨v, List.mem_map.mpr ⟨_, Table.mem_of_find? found, rfl⟩, within⟩

theorem Reference.exists_of_leaf {fields : Assignment} {references : List Reference}
    (collected : collect (fields.map (·.2)) = .ok references) {leaf : String}
    (within : leaf ∈ fields.leaves) (begins : isReference leaf = true) :
    ∃ reference ∈ references, reference.text = leaf := by
  obtain ⟨new, parses⟩ := exists_collect_iff.mp ⟨_, collected⟩ leaf within
  obtain ⟨reference, rfl⟩ := exists_of_isReference begins parses
  exact ⟨reference, (mem_collect collected reference).mpr ⟨leaf, within, parses⟩,
    text_of_parse parses⟩

namespace Resolver

theorem gather_eq_ok {outcomes : List (String × Result Resolved)} {refs : Resolutions} :
    gather outcomes = .ok refs ↔
      Table.Aligned (fun outcome resolved => outcome = .ok resolved) outcomes refs := by
  induction outcomes generalizing refs with
  | nil => cases refs <;> simp [gather, Table.Aligned]
  | cons entry rest ih =>
    obtain ⟨text, outcome⟩ := entry
    simp only [gather, Result.bind_eq_ok, Except.ok.injEq, ih]
    constructor
    · rintro ⟨resolved, comes, others, all, rfl⟩
      exact .cons ⟨rfl, comes⟩ all
    · intro aligned
      obtain ⟨⟨_, resolved⟩, others, ⟨same, comes⟩, all, rfl⟩ :=
        List.forall₂_cons_left_iff.mp aligned
      cases same
      exact ⟨resolved, comes, others, all, rfl⟩

variable {σ : Type} [TargetLookup σ]

theorem keys_outcomes (r : Resolver) (references : List Reference) (l : Lookups σ) :
    (r.outcomes references l).1.map (·.1) = references.map Reference.text := by
  induction references generalizing l with
  | nil => rfl
  | cons reference rest ih => exact congrArg (reference.text :: ·) (ih _)

/-- Whatever is resolved in the course of one run is found under its text. -/
theorem keys_resolveAll {r : Resolver} {references : List Reference} {l : Lookups σ}
    {refs : Resolutions} (resolved : (r.resolveAll references l).1 = .ok refs) :
    refs.keys = references.eraseDups.map Reference.text := by
  rw [← (gather_eq_ok.mp resolved).keys_eq]
  exact r.keys_outcomes _ l

/-- Collecting and resolving leaves out no leaf that begins like a reference. -/
theorem covers_of_resolveAll {r : Resolver} {fields : Assignment} {references : List Reference}
    {l : Lookups σ} {refs : Resolutions}
    (collected : Reference.collect (fields.map (·.2)) = .ok references)
    (resolved : (r.resolveAll references l).1 = .ok refs) : refs.Covers fields.leaves := by
  intro leaf within begins
  obtain ⟨reference, member, rfl⟩ := Reference.exists_of_leaf collected within begins
  rw [← Table.mem_keys_iff, keys_resolveAll resolved]
  exact List.mem_map_of_mem (List.mem_eraseDups.mpr member)

end Resolver

/-- Only a pointer stands in the way of replacing a leaf. -/
theorem Resolutions.Covers.exists_pointer {refs : Resolutions} {leaves : List String}
    (covers : refs.Covers leaves) {onPointer : Pointer → Result Value} {leaf : String}
    {failure : Failure} (member : leaf ∈ leaves)
    (fails : refs.replacement onPointer leaf = .error failure) :
    ∃ pointer, onPointer pointer = .error failure := by
  unfold replacement at fails
  split at fails
  · rename_i begins
    obtain ⟨resolved, found⟩ := covers leaf member begins
    rw [found] at fails
    cases resolved with
    | literal value => cases fails
    | pointer pointer => exact ⟨pointer, fails⟩
  · cases fails

variable {i : Instance} {c : Composition} {manager : String} {t : Template} {fields : Assignment}
  {refs : Resolutions}

/-- A template is filled whatever its skeleton and however its patches lie over each other. -/
theorem Template.filled_of_covers (covers : refs.Covers fields.leaves) (t : Template) :
    ∃ v, t.filled fields refs = .ok v := by
  refine ⟨_, filled_of_replaces fun writing written leaf within => ?_⟩
  obtain ⟨patch, -, ofField⟩ := List.mem_filterMap.mp written
  obtain ⟨v, found, rfl⟩ := Option.map_eq_some_iff.mp ofField
  cases replaced : refs.replacement (fun pointer => .ok pointer.field) leaf with
  | ok v => exact ⟨v, rfl⟩
  | error failure =>
    obtain ⟨_, never⟩ := covers.exists_pointer (Assignment.mem_leaves found within) replaced
    cases never

namespace Value
variable (v : Value)

theorem failsOnly_canonical? : v.canonical?.FailsOnly Json.Hindrance :=
  fun _ fails => Json.Style.hindrance_of_text? fails

theorem failsOnly_sorted? : v.sorted?.FailsOnly Json.Hindrance := by
  unfold sorted?
  split
  · exact .ok _
  · exact .error .illTyped

theorem failsOnly_spread : v.spread.FailsOnly Json.Hindrance := by
  unfold spread
  split
  · exact .ok _
  · split
    · exact .ok _
    · exact .error .illTyped

end Value

namespace Instance

theorem failsOnly_metadata (i : Instance) (manager : String) (t : Template) (v : Value) :
    (i.metadata manager t v).FailsOnly Json.Hindrance := by
  unfold metadata
  refine .bind v.failsOnly_canonical? fun text _ => ?_
  refine .bind (Value.failsOnly_spread _) fun labels _ => ?_
  exact .bind (Value.failsOnly_spread _) fun annotations _ => .ok _

theorem failsOnly_resource (covers : refs.Covers fields.leaves) :
    (i.resource manager fields refs t).FailsOnly Json.Hindrance := by
  obtain ⟨v, filled⟩ := t.filled_of_covers covers
  unfold resource
  rw [filled, Result.ok_bind]
  exact .bind (i.failsOnly_metadata manager t v) fun _ _ => Value.failsOnly_sorted? _

theorem failsOnly_resources (covers : refs.Covers fields.leaves) :
    (i.resources c manager fields refs).FailsOnly Json.Hindrance :=
  .mapM fun _ _ => failsOnly_resource covers

end Instance

/-- Failures of publishing: a value cannot be written, or there is no value but a pointer. -/
inductive Publication.Refusal : Failure → Prop
  | unwritten {failure : Failure} : Json.Hindrance failure → Refusal failure
  | pointer (key field : String) : Refusal (.resolution (.unpublishable key field))

theorem Publication.failsOnly_literal (p : Publication) (covers : refs.Covers fields.leaves) :
    (p.literal fields refs).FailsOnly Refusal := by
  unfold literal
  split
  · exact .ok _
  · rename_i v found
    intro failure fails
    obtain ⟨leaf, within, fails⟩ := Resolutions.exists_leaf_of_inject_error fails
    obtain ⟨_, refused⟩ := covers.exists_pointer (Assignment.mem_leaves found within) fails
    cases refused
    exact .pointer _ _

theorem Publication.failsOnly_secretText (v : Value) : (secretText v).FailsOnly Refusal := by
  unfold secretText
  split
  · exact .ok _
  · exact fun failure fails => .unwritten (v.failsOnly_canonical? failure fails)

theorem Published.failsOnly_add (covers : refs.Covers fields.leaves) (done : Published)
    (p : Publication) : (add fields refs done p).FailsOnly Publication.Refusal := by
  refine .bind (p.failsOnly_literal covers) fun v _ => ?_
  split
  · exact .ok _
  · split
    · exact .bind (Publication.failsOnly_secretText v) fun _ _ => .ok _
    · exact .ok _

theorem Instance.failsOnly_record (covers : refs.Covers fields.leaves) :
    (i.record c fields refs).FailsOnly Publication.Refusal := by
  refine .bind (.foldlM (Published.failsOnly_add covers) _ _) fun published _ => ?_
  refine .bind ?_ fun outputs _ => .ok _
  unfold sortedOutputs
  split
  · exact .ok _
  · exact .error (.unwritten .illTyped)

/-- Once the references among field values are collected and resolved, every skeleton is filled, and
neither resources nor record come upon a reference that nothing was resolved for: whatever the
fields, the skeletons, and the places of the patches, as long as no map stands at two places of a
skeleton or a field value. -/
theorem Instance.never_unresolved {σ : Type} [TargetLookup σ] (i : Instance) {d : Design}
    (manager : String) {r : Resolver} {l : Lookups σ} {fields : Table String Linked}
    {references : List Reference} {refs : Resolutions} (unshared : d.IsUnshared)
    (own : ∀ field ∈ fields, field.2.IsUnshared)
    (collected : Reference.collect (fields.map (·.2.value)) = .ok references)
    (resolved : (r.resolveAll references l).1 = .ok refs) :
    (∀ b ∈ d.blueprints, ∃ v, b.filled fields refs = .ok v) ∧
      (∀ text, i.resourcesOf d manager fields refs ≠ .error (.unresolved text)) ∧
      ∀ text,
        i.record d.composition (fields.mapValues Linked.value) refs ≠ .error (.unresolved text) := by
  have values : (fields.mapValues Linked.value).map (·.2) = fields.map (·.2.value) := by
    rw [Table.mapValues, List.map_map]
    rfl
  rw [← values] at collected
  have covers := Resolver.covers_of_resolveAll collected resolved
  refine ⟨fun b member => ?_, fun text fails => ?_, fun text fails => ?_⟩
  · obtain ⟨v, filled⟩ := b.template.filled_of_covers covers
    rw [← (Blueprint.filled_eq refs (unshared b member) own).1, Result.map_eq_ok] at filled
    obtain ⟨linked, fills, -⟩ := filled
    exact ⟨linked, fills⟩
  · rw [resourcesOf_eq i manager refs unshared own] at fails
    cases failsOnly_resources covers _ fails
  · obtain ⟨⟨⟩⟩ := failsOnly_record covers _ fails

/-- A design that writes a port into the database that it writes, over a skeleton of its own with a text
like a reference in it. -/
def Design.ofOverlap : Design where
  kind := "App"
  blueprints := [{
    name := ⟨"main", Eq.refl true⟩
    kind := "Deployment"
    base := [("spec", .map 0 [("db", .str "outputs/none/x"), ("note", .str "secrets/none/x")])]
    patches := [
      { field := ⟨"db", Eq.refl true⟩, place := ⟨"spec.db", Eq.refl true⟩ },
      { field := ⟨"port", Eq.refl true⟩, place := ⟨"spec.db.port", Eq.refl true⟩ }] }]
  publish := [⟨⟨"port", Eq.refl true⟩, ⟨"port", Eq.refl true⟩, true⟩]

/-- A store with the one record of a database with the outputs, and its password. -/
def MemoryStore.ofOutputs (outputs : Table String Value) : MemoryStore where
  records := [(("team", "db"), {
    kind := "App"
    ns := "team"
    name := "db"
    outputs
    connection := ⟨"db-conn", [("password", "secret")]⟩ })]

/-- References in the items of a list within the database, one of them twice, and another that is
written over the part of it. -/
theorem Instance.never_unresolved_ofOverlap :
    let fields : Table String Linked := [
      ("db", .map 0 [
        ("ports", .list [.str "outputs/db/port", .map 1 [("again", .str "outputs/db/port")]]),
        ("port", .str "connections/db/password")]),
      ("port", .str "team::outputs/db/port")]
    let references : List Reference := [
      .output none "db" "port", .connection "db" "password", .output (some "team") "db" "port"]
    let refs : Resolutions := [
      ("outputs/db/port", .literal (.int 5432)),
      ("connections/db/password", .pointer ⟨"db-conn", some "password", .secret⟩),
      ("team::outputs/db/port", .literal (.int 5432))]
    let l : Lookups MemoryStore := {
      store := .ofOutputs [("port", .int 5432)], cache := { timeout := .ofInt 1 } }
    let web : Instance := {
      kind := "App", name := ⟨"web", by decide, by decide⟩, ns := ⟨"team", by decide, by decide⟩ }
    Design.ofOverlap.IsUnshared ∧ (∀ field ∈ fields, field.2.IsUnshared) ∧
      Reference.collect (fields.map (·.2.value)) = .ok references ∧
      ((Resolver.mk "team" {}).resolveAll references l).1 = .ok refs ∧
      (∀ b ∈ Design.ofOverlap.blueprints, ∃ v, b.filled fields refs = .ok v) ∧
      (∀ text, web.resourcesOf .ofOverlap "kresolve" fields refs ≠ .error (.unresolved text)) ∧
      ∀ text, web.record Design.ofOverlap.composition (fields.mapValues Linked.value) refs ≠
        .error (.unresolved text) := by
  intro fields references refs l web
  have unshared : Design.ofOverlap.IsUnshared := by decide
  have own : ∀ field ∈ fields, field.2.IsUnshared := by decide
  have collected : Reference.collect (fields.map (·.2.value)) = .ok references := by
    decide +kernel
  have resolved : ((Resolver.mk "team" {}).resolveAll references l).1 = .ok refs := by
    decide +kernel
  exact ⟨unshared, own, collected, resolved,
    never_unresolved web "kresolve" unshared own collected resolved⟩

/-- An output that looks like a reference is written into a map, and is looked through once more where
the map stands a second time. -/
theorem Instance.unresolved_ofShared :
    let d := Design.ofShared [
      { field := ⟨"host", Eq.refl true⟩, place := ⟨"a.x", Eq.refl true⟩ },
      { field := ⟨"note", Eq.refl true⟩, place := ⟨"b.x", Eq.refl true⟩ }]
    let fields : Table String Linked :=
      [("host", .str "outputs/db/host"), ("note", .str "outputs/db/note")]
    let references : List Reference := [.output none "db" "host", .output none "db" "note"]
    let refs : Resolutions := [
      ("outputs/db/host", .literal (.str "db")),
      ("outputs/db/note", .literal (.str "outputs/other/host"))]
    let l : Lookups MemoryStore := {
      store := .ofOutputs [("host", .str "db"), ("note", .str "outputs/other/host")]
      cache := { timeout := .ofInt 1 } }
    let web : Instance := {
      kind := "App", name := ⟨"web", by decide, by decide⟩, ns := ⟨"team", by decide, by decide⟩ }
    d.composition.Valid ∧ Reference.collect (fields.map (·.2.value)) = .ok references ∧
      ((Resolver.mk "team" {}).resolveAll references l).1 = .ok refs ∧
      web.resourcesOf d "kresolve" fields refs = .error (.unresolved "outputs/other/host") := by
  refine ⟨⟨by decide +kernel, List.cons_ne_nil _ _⟩, ?_, ?_, ?_⟩ <;> decide +kernel

end WorkloadConfig
