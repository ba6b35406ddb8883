import WorkloadConfig.Proofs.Designs
import WorkloadConfig.Proofs.Directories
import WorkloadConfig.Proofs.Recording

namespace WorkloadConfig

/-- The secret that carries the connection of a record, its keys in order. -/
def Record.connectionSecret (r : Record) (manager : String) : Value :=
  .map [
    ("apiVersion", .str "v1"),
    ("kind", .str "Secret"),
    ("metadata", .map [
      ("labels", .map [
        ("app.kubernetes.io/managed-by", .str manager),
        ("kresolve.io/instance", .str r.name)]),
      ("name", .str r.connection.name),
      ("namespace", .str r.ns)]),
    ("stringData", .ofLabels r.connection.data),
    ("type", .str "Opaque")]

/-- The manifest of a record whose data stand in order is spelled out by its secret. -/
theorem Record.connectionManifest_eq {r : Record} (manager : String)
    (sorted : r.connection.data.Pairwise fun a b => decide (a.1 ≤ b.1) = true) :
    r.connectionManifest manager = r.connectionSecret manager := by
  have data := Value.sortKeys_ofLabels sorted
  rw [connectionManifest, connectionSecret]
  conv_rhs => rw [← data]
  rfl

namespace Published
variable {fields : Assignment} {refs : Resolutions} {done after : Published}

theorem nodup_connection_add {p : Publication} (added : add fields refs done p = .ok after)
    (distinct : done.connection.keys.Nodup) : after.connection.keys.Nodup := by
  simp only [add, Result.bind_eq_ok] at added
  obtain ⟨v, -, added⟩ := added
  split at added
  · cases added
    exact distinct
  split at added
  · obtain ⟨text, -, added⟩ := Result.bind_eq_ok.mp added
    cases added
    exact Table.nodup_keys_put distinct _ _
  · cases added
    exact distinct

theorem nodup_connection {publications : List Publication}
    (folded : publications.foldlM (add fields refs) done = .ok after)
    (distinct : done.connection.keys.Nodup) : after.connection.keys.Nodup := by
  induction publications generalizing done with
  | nil =>
    cases folded
    exact distinct
  | cons p rest ih =>
    rw [List.foldlM_cons] at folded
    obtain ⟨next, added, folded⟩ := Result.bind_eq_ok.mp folded
    exact ih folded (nodup_connection_add added distinct)

end Published

namespace Instance.Records
variable {i : Instance} {r : Record} (records : i.Records r)
include records

theorem sorted_data : r.connection.data.Pairwise fun a b => decide (a.1 ≤ b.1) = true := by
  obtain ⟨_, _, _, recorded⟩ := records
  obtain ⟨published, -, rfl⟩ := record_eq_ok recorded
  exact pairwise_byKey _

theorem nodup_data : r.connection.data.keys.Nodup := by
  obtain ⟨_, _, _, recorded⟩ := records
  obtain ⟨published, folded, rfl⟩ := record_eq_ok recorded
  exact nodup_keys_byKey (Published.nodup_connection folded List.nodup_nil)

end Instance.Records

namespace DirectoryStore
variable {limits : Json.Limits}

/-- Every document is as it was, whatever texts name it. -/
def Kept (s after : DirectoryStore limits) : Prop :=
  ∀ ns name, s.Leaves after ns name

/-- The document of the record, as it is written at the moment, stands under the name. What JSON holds of
the outputs is read back with the rest of the record, as long as its floats come back from their texts and
the document is within the limits of the reader. -/
structure Stands (s : DirectoryStore limits) (ns name now : String) (r : Record) : Prop where
  document : ∃ text, r.document now = .ok text ∧ s.tree.read (s.documentAt ns name) = .ok text
  outputs : ∃ outputs, (Value.ofTable r.outputs).asJson = .ok (.ofTable outputs) ∧
    ((∀ x ∈ (Value.ofTable outputs).floats, Json.ReadsBack x) → Record.Fits limits { r with outputs } →
      Moment.textFlaw? now = none →
      ∃ back, s.read ns name = .ok (some back) ∧ Record.Reordered { r with outputs } back)

/-- The record stands under the instance's name, one generation after the record of the document before
it, and every document that has another place is as it was, so all those under other labels are. -/
structure Replaced (s : DirectoryStore limits) (i : Instance) (r : Record)
    (after : DirectoryStore limits) : Prop where
  own : ∃ held : Option Record,
    (s.document? i.ns.text i.name.text).map (Record.ofDocument limits) = held.map .ok ∧
    after.Stands i.ns.text i.name.text s.now { r with
      generation := match held with
        | some old => old.generation + 1
        | none => 1 }
  others : ∀ ns name, (s.documentAt ns name).place? ≠ (s.documentAt i.ns.text i.name.text).place? →
    s.Leaves after ns name
  labels : ∀ ns name : DnsLabel, (ns.text, name.text) ≠ (i.ns.text, i.name.text) →
    s.Leaves after ns.text name.text

theorem stands_of_document {s : DirectoryStore limits} {ns name now text : String} {r : Record}
    (distinct : r.connection.data.keys.Nodup) (written : r.document now = .ok text)
    (holds : s.tree.read (s.documentAt ns name) = .ok text) : s.Stands ns name now r := by
  obtain ⟨outputs, asJson⟩ := Record.exists_outputs_of_document written
  refine ⟨⟨text, written, holds⟩, outputs, asJson, fun reads fits moment => ?_⟩
  have json := Value.isJson_of_asJson asJson reads
  have storable : ({ r with outputs } : Record).IsStorable := ⟨json, distinct⟩
  obtain ⟨back, parsed, same⟩ := Record.ofDocument_document storable fits moment
    ((Record.document_of_asJson asJson json now).trans written)
  exact ⟨back, read_eq_some.mpr ⟨text, holds, parsed⟩, same⟩

theorem replaced_publish {s after : DirectoryStore limits} {i : Instance} {r stored : Record}
    (records : i.Records r) (published : s.publish r = (.ok stored, after)) :
    s.Replaced i r after := by
  obtain ⟨atNs, atName⟩ := records.address
  obtain ⟨⟨held, text, before, rfl, written, holds⟩, others⟩ := publish_ok published
  rw [← documentAt_of_publish published] at holds
  rw [atNs, atName] at before holds others
  exact ⟨⟨held, before, stands_of_document records.nodup_data written holds⟩, others,
    fun ns name other => publish_ok_other atNs atName published other⟩

end DirectoryStore

/-- A pass over documents in a directory is all or nothing, however its resources are made. -/
theorem Engine.settles_directory {make : Maker} (renders : make.Renders) (e : Engine)
    (around : Surroundings) (i : Instance) {limits : Json.Limits} (s : DirectoryStore limits) :
    e.SettlesBy make around i s s.Kept (s.Replaced i)
      ((e.passBy make around i s).1, (e.passBy make around i s).2.store) := by
  refine settles_of_stays renders (· = s) rfl (fun plan => e.kind_lookUp s.shows around i plan rfl)
    ?_ ?_ ?_
  · rintro _ rfl ns name
    exact ⟨rfl, fun _ reads => reads⟩
  · rintro _ r failure after rfl published
    exact DirectoryStore.publish_error published
  · rintro _ r stored after rfl records published
    exact DirectoryStore.replaced_publish records published

theorem Engine.registered_of_planned {e : Engine} {around : Surroundings} {i : Instance} {plan : Plan}
    (planned : e.planned around i = .ok plan) : e.registry.get i.kind = .ok plan.composition := by
  obtain ⟨⟨c, config⟩, loaded, made⟩ := Result.bind_eq_ok.mp planned
  obtain ⟨_, registered, rest⟩ := Result.bind_eq_ok.mp loaded
  obtain ⟨config', -, same⟩ := Result.bind_eq_ok.mp rest
  cases same
  rw [registered, plan_composition made]

namespace Deployment
variable {σ : Type}

/-- The work of a pass in which nothing is in the way: each blueprint of the design that is registered
for the instance's kind has made a resource, in their order. -/
structure Does [TargetLookup σ] (d : Deployment) (around : Surroundings) (i : Instance) (s : σ)
    (design : Design) (work : Work) : Prop where
  registered : d.designs.find? i.kind = some design
  planned : d.engine.planned around i = .ok work.plan
  found : (d.engine.lookUp around i s work.plan).1 = .ok work.refs
  generated : List.Forall₂ (fun b v => i.resourceOf d.settings.fieldManager
    (work.plan.fields.mapValues .plain) work.refs b = .ok v) design.blueprints work.generated
  recorded : i.record design.composition work.plan.fields work.refs = .ok work.record

/-- The pass completes with all resources and has replaced the record, or it fails in the last stage that
it entered and what was kept still is, or something outside the domain escapes and it still is. -/
def Settles [TargetLookup σ] (d : Deployment) (around : Surroundings) (i : Instance) (s : σ)
    (kept : σ → Prop) (replaced : Record → σ → Prop) : Result Outcome × σ → Prop
  | (.ok o, after) =>
    (∃ design work, d.Does around i s design work ∧
      o.Complete (work.generated ++ [work.record.connectionSecret d.settings.fieldManager]) ∧
      replaced work.record after) ∨
    (∃ stage, d.engine.LastEnteredBy (d.maker i) around i s stage ∧ o.Failed stage ∧ kept after)
  | (.error failure, after) => (∀ cause, failure ≠ .resolution cause) ∧ kept after

variable {d : Deployment} {around : Surroundings} {i : Instance} {s : σ}

theorem renders_maker (d : Deployment) (i : Instance) : (d.maker i).Renders := by
  intro c r generated made v member
  unfold maker at made
  split at made
  · obtain ⟨b, -, comes⟩ := exists_of_forall₂ (mapM_eq_ok.mp made).flip member
    exact Instance.resourceOf_renders comes
  · exact d.engine.renders_maker i c r generated made v member

theorem exists_does [TargetLookup σ] {work : Work}
    (does : d.engine.DoesBy (d.maker i) around i s work) : ∃ design, d.Does around i s design work := by
  have registered := Engine.registered_of_planned does.planned
  obtain ⟨design, atKind, composition⟩ : ∃ design, d.designs.find? i.kind = some design ∧
      design.composition = work.plan.composition := by
    have found := Registry.get_eq_ok.mp registered
    rwa [engine, Designs.registry, Table.find?_mapValues, Option.map_eq_some_iff] at found
  have made := does.made
  simp only [maker, atKind] at made
  exact ⟨design, atKind, does.planned, does.found, mapM_eq_ok.mp made,
    composition ▸ does.recorded⟩

theorem settles_of_settlesBy [TargetLookup σ] {kept : σ → Prop} {replaced : Record → σ → Prop}
    {ends : Result Outcome × σ}
    (settles : d.engine.SettlesBy (d.maker i) around i s kept replaced ends) :
    d.Settles around i s kept replaced ends := by
  obtain ⟨failure | o, after⟩ := ends
  · exact settles
  refine settles.imp_left ?_
  rintro ⟨work, does, complete, replaced⟩
  obtain ⟨design, does'⟩ := exists_does does
  have records : i.Records work.record := ⟨_, _, _, does.recorded⟩
  rw [Work.resources, Record.connectionManifest_eq _ records.sorted_data] at complete
  exact ⟨design, work, does', complete, replaced⟩

/-- Where nothing is looked up, the record is made of the field values alone. -/
theorem Does.record_eq [TargetLookup σ] {design : Design} {work : Work} {fields : Assignment}
    {r : Record} (does : d.Does around i s design work)
    (planned : (fun plan => (plan.fields, plan.references)) <$> d.engine.planned around i =
      .ok (fields, []))
    (recorded : i.record design.composition fields [] = .ok r) : work.record = r := by
  obtain ⟨plan, isPlan, parts⟩ := Result.map_eq_ok.mp planned
  cases Except.ok.inj (isPlan.symm.trans does.planned)
  obtain ⟨ofFields, nothing⟩ := Prod.mk.inj parts
  have found := does.found
  rw [Engine.lookUp, nothing] at found
  have refs : work.refs = [] := (Except.ok.inj found).symm
  have other := does.recorded
  rw [ofFields, refs, recorded] at other
  exact (Except.ok.inj other).symm

theorem Settles.exists_complete [TargetLookup σ] {kept : σ → Prop} {replaced : Record → σ → Prop}
    {ends : Result Outcome × σ} (settles : d.Settles around i s kept replaced ends)
    (success : ends.1.toOption.any Outcome.success = true) :
    ∃ design work, d.Does around i s design work ∧ replaced work.record ends.2 := by
  obtain ⟨failure | o, after⟩ := ends
  · cases success
  rcases settles with ⟨design, work, does, -, replaced⟩ | ⟨stage, -, failed, -⟩
  · exact ⟨design, work, does, replaced⟩
  · cases failed.not_success.symm.trans success

/-- A pass is all or nothing, whatever surrounds it, over records in memory and over documents in a
directory whatever the limits of their reader. -/
theorem pass_allOrNothing (d : Deployment) (around : Surroundings) (i : Instance) :
    (∀ s : MemoryStore, d.Settles around i s s.Kept (s.Replaced i)
      ((d.pass around i s).1, (d.pass around i s).2.store)) ∧
    ∀ (limits : Json.Limits) (s : DirectoryStore limits), d.Settles around i s s.Kept (s.Replaced i)
      ((d.pass around i s).1, (d.pass around i s).2.store) :=
  ⟨fun s => settles_of_settlesBy (Engine.settles_memory (d.renders_maker i) d.engine around i s),
    fun _ s => settles_of_settlesBy (Engine.settles_directory (d.renders_maker i) d.engine around i s)⟩

/-- The deployment of one composition, which publishes its one field with the default. -/
def ofField (default : Value) : Deployment where
  designs := [("App", {
    kind := "App"
    blueprints := [{
      name := ⟨"main", Eq.refl true⟩
      kind := "Deployment"
      patches := [{
        field := ⟨"url", Eq.refl true⟩
        place := ⟨"spec.url", Eq.refl true⟩
        default }] }]
    publish := [⟨⟨"url", Eq.refl true⟩, ⟨"url", Eq.refl true⟩, false⟩] })]
  settings := {}
  configs := ⟨"base", ["configs"]⟩
  records := ⟨"base", ["outputs"]⟩

/-- The record that the deployment makes of the default. -/
def recordOfField (default : Value) : Record where
  kind := "App"
  ns := "team"
  name := "web"
  outputs := [("url", default)]
  connection := ⟨"web-conn", []⟩
  resources := ["main"]

/-- A directory without files to store records in, at a moment. -/
def emptyDirectory : DirectoryStore {} :=
  (DirectoryStore.ofNothing {}).tell "2024-01-02T03:04:05Z"

theorem exists_complete_ofField [TargetLookup σ] {default : Value} {s : σ} {kept : σ → Prop}
    {replaced : Record → σ → Prop} {ends : Result Outcome × σ}
    (settles : (ofField default).Settles (Turn.ofField .web "").around (Turn.ofField .web "").inst s
      kept replaced ends)
    (success : ends.1.toOption.any Outcome.success = true)
    (planned : (fun plan => (plan.fields, plan.references)) <$> (ofField default).engine.planned
      (Turn.ofField .web "").around (Turn.ofField .web "").inst = .ok ([("url", default)], []))
    (recorded : ∀ design, (ofField default).designs.find? "App" = some design →
      (Turn.ofField .web "").inst.record design.composition [("url", default)] [] =
        .ok (recordOfField default)) :
    ∃ design work, (ofField default).Does (Turn.ofField .web "").around (Turn.ofField .web "").inst s
      design work ∧ work.record = recordOfField default ∧ replaced (recordOfField default) ends.2 := by
  obtain ⟨design, work, does, replaced⟩ := settles.exists_complete success
  have same := does.record_eq planned (recorded design does.registered)
  exact ⟨design, work, does, same, same ▸ replaced⟩

/-- What is shown of the default is read back from an empty directory after the pass. -/
theorem exists_back_ofField {default : Value} {after : DirectoryStore {}} (shown : Value)
    (written : emptyDirectory.Replaced (Turn.ofField .web "").inst (recordOfField default) after)
    (asJson : (Value.ofTable [("url", default)]).asJson = .ok (.ofTable [("url", shown)]))
    (reads : ∀ x ∈ (Value.ofTable [("url", shown)]).floats, Json.ReadsBack x)
    (fits : Record.Fits {} { recordOfField shown with generation := 1 }) :
    ∃ back, after.read "team" "web" = .ok (some back) ∧
      Record.Reordered { recordOfField shown with generation := 1 } back := by
  obtain ⟨held, before, -, outputs, asJson', back⟩ := written.own
  have absent : emptyDirectory.document? "team" "web" = none := by decide +kernel
  have nothing : held.map Except.ok = none := before.symm.trans (congrArg _ absent)
  obtain rfl := Option.map_eq_none_iff.mp nothing
  cases Value.injective_ofTable (Except.ok.inj (asJson'.symm.trans asJson))
  exact back reads fits (by decide +kernel)

theorem pass_allOrNothing_ofField :
    let t := Turn.ofField .web ""
    let d := ofField (.str "u")
    let once := (d.pass t.around t.inst ({} : MemoryStore)).2.store
    let twice := (d.pass t.around t.inst once).2.store
    let files := (d.pass t.around t.inst emptyDirectory).2.store
    once.read "team" "web" = some { recordOfField (.str "u") with generation := 1 } ∧
      twice.read "team" "web" = some { recordOfField (.str "u") with generation := 2 } ∧
      ∃ back, files.read "team" "web" = .ok (some back) ∧
        Record.Reordered { recordOfField (.str "u") with generation := 1 } back := by
  intro t d once twice files
  have planned : (fun plan => (plan.fields, plan.references)) <$> d.engine.planned t.around t.inst =
      .ok ([("url", .str "u")], []) := by decide +kernel
  have recorded : ∀ design, d.designs.find? "App" = some design →
      t.inst.record design.composition [("url", .str "u")] [] = .ok (recordOfField (.str "u")) := by
    rintro design ⟨⟩
    decide +kernel
  obtain ⟨inMemory, inFiles⟩ := pass_allOrNothing d t.around t.inst
  obtain ⟨_, _, -, -, first, -⟩ :=
    exists_complete_ofField (inMemory {}) (by decide +kernel) planned recorded
  obtain ⟨_, _, -, -, second, -⟩ :=
    exists_complete_ofField (inMemory once) (by decide +kernel) planned recorded
  obtain ⟨_, _, -, -, written⟩ :=
    exists_complete_ofField (inFiles {} emptyDirectory) (by decide +kernel) planned recorded
  have own : once.read "team" "web" = some { recordOfField (.str "u") with generation := 1 } := first
  refine ⟨own, ?_, ?_⟩
  · rw [show once.read t.inst.ns.text t.inst.name.text = _ from own] at second
    exact second
  · exact exists_back_ofField (.str "u") written rfl (List.forall_mem_nil _) (by decide +kernel)

/-- A date that is published to a directory is there as a text, while the record made of it holds the
date. -/
theorem read_ne_recorded_ofDate :
    let t := Turn.ofField .web ""
    let day : Value := .scalar (.timestamp ⟨2024, 1, 2, none⟩)
    let d := ofField day
    let files := (d.pass t.around t.inst emptyDirectory).2.store
    (d.pass t.around t.inst emptyDirectory).1.toOption.any Outcome.success = true ∧
      (∃ design work, d.Does t.around t.inst emptyDirectory design work ∧
        work.record = recordOfField day) ∧
      files.read "team" "web" ≠ .ok (some { recordOfField day with generation := 1 }) ∧
      ∃ back, files.read "team" "web" = .ok (some back) ∧
        back.outputs.find? "url" = some (.str "2024-01-02") := by
  intro t day d files
  have planned : (fun plan => (plan.fields, plan.references)) <$> d.engine.planned t.around t.inst =
      .ok ([("url", day)], []) := by decide +kernel
  have recorded : ∀ design, d.designs.find? "App" = some design →
      t.inst.record design.composition [("url", day)] [] = .ok (recordOfField day) := by
    rintro design ⟨⟩
    decide +kernel
  have success : (d.pass t.around t.inst emptyDirectory).1.toOption.any Outcome.success = true := by
    decide +kernel
  have settles := settles_of_settlesBy
    (Engine.settles_directory (d.renders_maker t.inst) d.engine t.around t.inst emptyDirectory)
  obtain ⟨design, work, does, made, written⟩ :=
    exists_complete_ofField settles success planned recorded
  obtain ⟨back, read, same⟩ :=
    exists_back_ofField (.str "2024-01-02") written rfl (List.forall_mem_nil _) (by decide +kernel)
  have shown : back.outputs.find? "url" = some (.str "2024-01-02") := by
    have under : Option.Rel Value.Reordered (some (.str "2024-01-02")) (back.outputs.find? "url") :=
      same.outputs.under "url"
    generalize back.outputs.find? "url" = found at under ⊢
    cases under with
    | some related =>
      cases related
      rfl
  refine ⟨success, ⟨design, work, does, made⟩, fun other => ?_, back, read, shown⟩
  cases Option.some.inj (Except.ok.inj (read.symm.trans other))
  have text : day = .str "2024-01-02" := Option.some.inj shown
  simp [day] at text

end Deployment
end WorkloadConfig
