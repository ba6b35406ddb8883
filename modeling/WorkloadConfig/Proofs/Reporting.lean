import WorkloadConfig.Proofs.Reporting.Stages

namespace WorkloadConfig

/-- A composition of one template whose skeleton has the metadata. -/
def Composition.ofMetadata (metadata : Value) : Composition where
  kind := "App"
  resources := [{
    name := ⟨"main", Eq.refl true⟩
    kind := "Deployment"
    base := [("metadata", metadata)] }]

namespace Turn
variable {t : Turn} {s : MemoryStore}

/-- Whatever references come to in a memory store can be reported. -/
theorem fails_lookUp (t : Turn) (s : MemoryStore) (plan : Plan) :
    (t.engine.lookUp t.around t.inst s plan).1.Fails .reported := by
  rw [lookUp_eq]
  refine Resolver.fails_gather fun entry member => ?_
  obtain ⟨reference, -, rfl⟩ := List.mem_map.mp member
  exact Resolver.fails_resolveBy (fun _ _ => .ok _) reference

/-- The pass comes to an outcome, if only to say what it failed with; nothing escapes from it. -/
def Reports (t : Turn) (s : MemoryStore) : Prop :=
  ∃ o, (t.pass s).1 = .ok o

/-- The compositions, the config records and the instance are as in JSON. -/
structure IsJson (t : Turn) : Prop where
  registry : ∀ kind c, t.engine.registry.find? kind = some c → c.IsJson
  source : ∃ records, t.source = .ofRecords records ∧ ∀ record ∈ records, record.IsProper
  inst : t.inst.IsJson

/-- The config records are fit for loading, should the pass come to it. -/
def IsFit (t : Turn) : Prop :=
  t.cancelled .loadingConfig = false → t.engine.registry.contains t.inst.kind = true →
    ∀ records, t.source.records = .ok records → ConfigLoader.Fit records t.inst.ns.text

/-- The templates are filled with what can be marked, should the pass come to it. -/
def IsMarkable (t : Turn) (s : MemoryStore) : Prop :=
  t.engine.Enters t.around t.inst s .patching → ∀ plan refs,
    t.engine.planned t.around t.inst = .ok plan →
    (t.engine.lookUp t.around t.inst s plan).1 = .ok refs →
    ∀ template ∈ plan.composition.resources, ∀ v, template.filled plan.fields refs = .ok v →
      v.IsMarkable

/-- What the composition hides can be written, should the pass come to publishing. -/
def CanHide (t : Turn) (s : MemoryStore) : Prop :=
  t.engine.Enters t.around t.inst s .publishing → ∀ plan refs,
    t.engine.planned t.around t.inst = .ok plan →
    (t.engine.lookUp t.around t.inst s plan).1 = .ok refs →
    Instance.CanHide plan.composition.publish plan.fields refs

theorem exists_ended_iff {i : Instance} {stage : Phase} {failure : Failure} :
    (∃ o, Engine.ended i stage failure = .ok o) ↔ failure.fate = .reported := by
  cases failure <;> simp [Engine.ended, Failure.fate]

theorem fails_loaded_iff (json : t.IsJson) : (t.engine.loaded t.around t.inst).Fails .reported ↔
    (t.engine.registry.contains t.inst.kind = true →
      ∀ records, t.source.records = .ok records → ConfigLoader.Fit records t.inst.ns.text) := by
  obtain ⟨records, ofRecords, -⟩ := json.source
  unfold Engine.loaded Registry.get Table.contains
  cases registered : t.engine.registry.find? t.inst.kind with
  | none => simp [Result.fail, Result.Fails, Failure.fate]
  | some c =>
    have load := ConfigLoader.fails_load_iff t.engine.settings.lookupTimeout records t.inst.ns.text
    simp only [Result.ok_bind, Result.fails_bind_iff, around, ofRecords, load]
    simp [ConfigSource.ofRecords, Result.Fails]

theorem fails_outset_iff (json : t.IsJson) :
    (t.engine.outset t.around t.inst).2.Fails .reported ↔ t.IsFit := by
  rw [IsFit, ← fails_loaded_iff json]
  have same : t.around.cancelled .loadingConfig = t.cancelled .loadingConfig := rfl
  unfold Engine.outset
  rw [same]
  cases t.cancelled .loadingConfig with
  | true => simp [Result.fail, Result.Fails, Failure.fate]
  | false =>
    cases t.engine.loaded t.around t.inst with
    | error failure => simp [Result.Fails]
    | ok found =>
      simp only [Bool.false_eq_true, if_false, forall_const]
      refine iff_of_true ?_ (.ok _)
      split
      · exact .error rfl
      · exact Engine.fails_plan _ _ _

/-- Patching is entered only with a plan. -/
theorem outset_of_enters (enters : t.engine.Enters t.around t.inst s .patching) :
    ∃ plan, t.engine.outset t.around t.inst = (.resolving, .ok plan) := by
  cases enters with
  | @patching plan refs entered planned found goesOn =>
    cases entered with
    | @resolving loaded entered loads notCancelled =>
      cases entered with
      | loadingConfig begun =>
        rw [Engine.planned_of_loaded loads] at planned
        exact ⟨plan, by simp [Engine.outset, begun, loads, notCancelled, planned]⟩

/-- The plan of a pass over values as in JSON has fields as in JSON. -/
theorem IsJson.plan (json : t.IsJson) {plan : Plan}
    (planned : t.engine.planned t.around t.inst = .ok plan) : plan.Reordered plan := by
  obtain ⟨records, ofRecords, proper⟩ := json.source
  simp only [Engine.planned, Engine.loaded, Registry.get, Result.bind_eq_ok, Result.pure_eq,
    Except.ok.injEq] at planned
  obtain ⟨_, ⟨c, registered, config, loads, rfl⟩, planned⟩ := planned
  have composition : c.Reordered c := by
    split at registered
    · rename_i held
      cases registered
      exact (json.registry _ _ held).reordered
    · cases registered
  simp only [around, ofRecords] at loads
  have loaded := ConfigLoader.reordered_of_load proper loads
  exact (Engine.plan_matches json.inst.reordered composition loaded).self planned

theorem fails_making_iff {plan : Plan} {refs : Resolutions} :
    (t.engine.making t.around t.inst plan refs).2.Fails .reported ↔
      (t.cancelled .patching = false →
        (t.inst.resources plan.composition t.engine.settings.fieldManager plan.fields refs).Fails
          .reported) ∧
      (t.cancelled .patching = false → (∃ generated, t.inst.resources plan.composition
          t.engine.settings.fieldManager plan.fields refs = .ok generated) →
        t.cancelled .publishing = false →
        (t.inst.record plan.composition plan.fields refs).Fails .reported) := by
  have same (phase : Phase) : t.around.cancelled phase = t.cancelled phase := rfl
  rw [Engine.making_eq]
  rw [same, same]
  cases t.cancelled .patching with
  | true => simp [Result.fail, Result.Fails, Failure.fate]
  | false =>
    cases t.inst.resources plan.composition t.engine.settings.fieldManager plan.fields refs with
    | error failure => simp [Result.Fails]
    | ok generated =>
      cases t.cancelled .publishing with
      | true => simp [Result.fail, Result.Fails, Failure.fate]
      | false =>
        cases made : t.inst.record plan.composition plan.fields refs <;>
          simp [Result.Fails, Functor.map, Except.map]

/-- Once its references are resolved, it is only the making of resources and what is to be hidden that
a failure can escape from. -/
theorem reports_iff_of_resolved (json : t.IsJson) (stored : s.IsJson) {stage : Phase} {plan : Plan}
    {refs : Resolutions} (outset : t.engine.outset t.around t.inst = (stage, .ok plan))
    (found : (t.engine.lookUp t.around t.inst s plan).1 = .ok refs) :
    t.Reports s ↔ (t.cancelled .patching = false →
        ∀ template ∈ plan.composition.resources, ∀ v, template.filled plan.fields refs = .ok v →
          v.IsMarkable) ∧
      (t.cancelled .patching = false → (∃ generated, t.inst.resources plan.composition
          t.engine.settings.fieldManager plan.fields refs = .ok generated) →
        t.cancelled .publishing = false →
        Instance.CanHide plan.composition.publish plan.fields refs) := by
  have planned := Engine.planned_of_outset_ok outset
  have same := json.plan planned
  have collected := Engine.collected_of_planned planned
  have covers := Resolver.covers_of_resolveAll collected found
  have refsJson := (lookUp_matches stored.reordered rfl (fun _ => Iff.rfl)
    (Reference.parsed_of_collect collected)).self found
  rw [← Instance.fails_resources_iff t.engine.settings.fieldManager json.inst.reordered
    same.composition same.fields refsJson covers,
    ← Instance.fails_record_iff (i := t.inst) (c := plan.composition) same.fields refsJson covers,
    ← fails_making_iff]
  simp only [Reports, pass_fst, outset, found]
  rcases made : t.engine.making t.around t.inst plan refs with ⟨last, failure | work⟩
  · simp only [exists_ended_iff]
    simp [Result.Fails]
  · obtain ⟨o, completes, -⟩ :=
      Engine.completed_of_making (e := t.engine) (t.engine.renders_maker t.inst) made
    exact iff_of_true ⟨o, completes⟩ (.ok work)

/-- A pass of a web server over a composition of one template with the metadata, in a cluster with the
record. -/
def ofMetadata (metadata record : Value) : Turn :=
  { ofField .web "http://web" with
    engine := { registry := [("App", .ofMetadata metadata)] }
    source := .ofRecords [record] }

theorem isJson_ofMetadata {metadata record : Value} (proper : metadata.IsProper)
    (ofRecord : record.IsProper) : (ofMetadata metadata record).IsJson where
  registry kind c registered := by
    simp only [ofMetadata, Table.find?] at registered
    split at registered
    · cases registered
      refine ⟨fun t member => ?_, fun t member => ?_⟩ <;> rw [List.mem_singleton.mp member]
      · exact Value.isProper_map.mpr ⟨by simp [Table.keys, Key.isText], by simp [Table.keys],
          fun entry within => by rw [List.mem_singleton.mp within]; exact proper⟩
      · exact fun p absent => absurd absent List.not_mem_nil
    · cases registered
  source := ⟨[record], rfl, fun r member => by rw [List.mem_singleton.mp member]; exact ofRecord⟩
  inst := ⟨.nil, rfl⟩

theorem isJson_empty : ({} : MemoryStore).IsJson where
  outputs _ _ _ held := by cases held
  connection _ _ _ held := by cases held

instance (t : Turn) (s : MemoryStore) : Decidable (t.Reports s) :=
  decidable_of_iff ((t.pass s).1.toOption.isSome = true) <| by
    unfold Reports
    cases (t.pass s).1 <;> simp [Except.toOption]

end Turn
end WorkloadConfig
