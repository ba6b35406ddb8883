import WorkloadConfig.Proofs.Order.Resources

namespace WorkloadConfig

/-- Two passes with the same settings and cancellations whose instances, compositions and config
records differ at most in the order of entries, and whose config records may stand in another order
themselves. -/
structure Turn.Reordered (t t' : Turn) : Prop where
  registry : ∀ kind, Option.Rel Composition.Reordered (t.engine.registry.find? kind)
    (t'.engine.registry.find? kind)
  settings : t.engine.settings = t'.engine.settings
  source : ∃ records others, t.source = .ofRecords records ∧ t'.source = .ofRecords others ∧
    Value.Shuffled records others
  cancelled : t.cancelled = t'.cancelled
  inst : t.inst.Reordered t'.inst

/-- No map of two entries stands for a pair in the spec of a record of the instance's project. -/
def Turn.Unambiguous (t : Turn) : Prop :=
  ∀ records, t.source.records = .ok records → ∀ record ∈ records,
    ConfigLoader.IsOfProject t.inst.ns.text record → ConfigRecord.Unambiguous record

/-- Both results come from the same stage. -/
def Staged {α β : Type} (R : α → β → Prop) (x : Phase × Result α) (y : Phase × Result β) : Prop :=
  x.1 = y.1 ∧ Result.Matches R x.2 y.2

namespace Turn
variable {t t' : Turn} {s s' : MemoryStore}

theorem Reordered.cancelled_eq (same : t.Reordered t') (phase : Phase) :
    t.around.cancelled phase = t'.around.cancelled phase :=
  congrFun same.cancelled phase

theorem loaded_matches (same : t.Reordered t') (unambiguous : t.Unambiguous) :
    Result.Matches (fun l l' => l.1.Reordered l'.1 ∧ l.2.Reordered l'.2)
      (t.engine.loaded t.around t.inst) (t'.engine.loaded t'.around t'.inst) := by
  obtain ⟨records, others, ofSource, ofSource', shuffled⟩ := same.source
  have composition : Result.Matches Composition.Reordered (t.engine.registry.get t.inst.kind)
      (t'.engine.registry.get t'.inst.kind) := by
    unfold Registry.get
    rw [same.inst.kind]
    rcases rel_cases (same.registry t'.inst.kind) with ⟨one, two⟩ | ⟨c, d, one, two, related⟩ <;>
      rw [one, two]
    · exact .error rfl
    · exact .ok related
  refine composition.bind fun c d related => ?_
  have config := ConfigLoader.load_matches t'.engine.settings.lookupTimeout t.inst.ns.text shuffled
    fun record among => unambiguous records (by rw [ofSource]; rfl) record among
  simp only [around, ofSource, ofSource', same.settings, ← same.inst.ns]
  exact config.bind fun _ _ loaded => .ok ⟨related, loaded⟩

theorem outset_staged (same : t.Reordered t') (unambiguous : t.Unambiguous) :
    Staged Plan.Reordered (t.engine.outset t.around t.inst)
      (t'.engine.outset t'.around t'.inst) := by
  have loaded := loaded_matches same unambiguous
  unfold Engine.outset
  rw [same.cancelled_eq .loadingConfig, same.cancelled_eq .resolving]
  generalize t.engine.loaded _ t.inst = x, t'.engine.loaded _ t'.inst = y at loaded ⊢
  cases t'.around.cancelled .loadingConfig with
  | true => exact ⟨rfl, .error rfl⟩
  | false =>
    cases loaded with
    | error both => exact ⟨rfl, .error both⟩
    | ok both =>
      cases t'.around.cancelled .resolving with
      | true => exact ⟨rfl, .error rfl⟩
      | false => exact ⟨rfl, Engine.plan_matches same.inst both.1 both.2⟩

/-- The same is made of plans and resolutions that differ in the order of entries. -/
def MakesSame (work work' : Work) : Prop :=
  work.generated = work'.generated ∧ work.record = work'.record ∧ work.record.Reordered work.record

theorem making_staged (same : t.Reordered t') {p p' : Plan} (plan : p.Reordered p')
    {refs refs' : Resolutions} (refsSame : Table.Reordered Resolved.Reordered refs refs')
    (covers : refs.Covers p.fields.leaves) (covers' : refs'.Covers p'.fields.leaves) :
    Staged MakesSame (t.engine.making t.around t.inst p refs)
      (t'.engine.making t'.around t'.inst p' refs') := by
  have resources := Instance.resources_matches t'.engine.settings.fieldManager same.inst
    plan.composition plan.fields refsSame
  have record := Instance.record_matches same.inst plan.composition plan.fields refsSame covers
    covers'
  rw [Engine.making_eq, Engine.making_eq]
  rw [same.cancelled_eq .patching, same.cancelled_eq .publishing, same.settings]
  generalize t.inst.resources _ _ _ _ = x, t'.inst.resources _ _ _ _ = y at resources ⊢
  cases t'.around.cancelled .patching with
  | true => exact ⟨rfl, .error rfl⟩
  | false =>
    cases resources with
    | error both => exact ⟨rfl, .error both⟩
    | ok equal =>
      cases t'.around.cancelled .publishing with
      | true => exact ⟨rfl, .error rfl⟩
      | false => exact ⟨rfl, record.map fun _ _ both => ⟨equal, both⟩⟩

theorem lookUp_reordered (same : t.Reordered t') (stores : s.Reordered s') {p p' : Plan}
    (plan : p.Reordered p')
    (collected : Reference.collect (p.fields.map (·.2)) = .ok p.references) :
    Result.Matches (Table.Reordered Resolved.Reordered) (t.engine.lookUp t.around t.inst s p).1
      (t'.engine.lookUp t'.around t'.inst s' p').1 := by
  have resolvers : t.resolver = t'.resolver := by
    rw [resolver, resolver, same.inst.ns, same.settings]
  exact lookUp_matches stores resolvers plan.references (Reference.parsed_of_collect collected)

/-- Both passes fail in the stage: each reports a cause, or a failure escapes from each. -/
inductive FailAlike (stage : Phase) : Result Outcome → Result Outcome → Prop
  | reported {o o' : Outcome} : o.Failed stage → o'.Failed stage → FailAlike stage (.ok o) (.ok o')
  | escaped {failure failure' : Failure} : FailAlike stage (.error failure) (.error failure')

theorem failAlike_ended (i j : Instance) (stage : Phase) {failure failure' : Failure}
    (both : failure.fate = failure'.fate) :
    FailAlike stage (Engine.ended i stage failure) (Engine.ended j stage failure') := by
  cases failure with
  | resolution cause =>
    cases failure' with
    | resolution cause' =>
      exact .reported (Engine.failed_stopped i stage cause) (Engine.failed_stopped j stage cause')
    | _ => cases both
  | _ =>
    cases failure' with
    | resolution cause' => cases both
    | _ => exact .escaped

theorem completed_eq {i j : Instance} (inst : i.Reordered j) (resources : List Value) :
    Engine.completed i resources = Engine.completed j resources := by
  rw [Engine.completed, Engine.completed, inst.name, inst.ns]

/-- The last stage that the pass over the store enters. -/
def EndsIn (t : Turn) (s : MemoryStore) (stage : Phase) : Prop :=
  t.engine.LastEntered t.around t.inst s stage

/-- Side by side, both passes do the same work and complete with the same outcome, or they fail in
one stage. -/
theorem pass_sideBySide (same : t.Reordered t') (unambiguous : t.Unambiguous)
    (stores : s.Reordered s') :
    (∃ work work' o, t.Does s work ∧ t'.Does s' work' ∧ MakesSame work work' ∧
      (t.pass s).1 = .ok o ∧ (t'.pass s').1 = .ok o ∧ o.success = true) ∨
    ∃ stage, t.EndsIn s stage ∧ t'.EndsIn s' stage ∧
      FailAlike stage (t.pass s).1 (t'.pass s').1 := by
  rw [pass_fst, pass_fst]
  -- Both passes are followed from stage to stage; where the one fails, the other does too.
  have outsets := outset_staged same unambiguous
  rcases outset : t.engine.outset t.around t.inst with ⟨stage, first⟩
  rcases outset' : t'.engine.outset t'.around t'.inst with ⟨stage', first'⟩
  rw [outset, outset'] at outsets
  obtain ⟨rfl, outsets⟩ := outsets
  cases outsets with
  | error both =>
    exact .inr ⟨stage, Engine.last_of_outset_error outset, Engine.last_of_outset_error outset',
      failAlike_ended _ _ _ both⟩
  | @ok p p' plan =>
    have collected := Engine.collected_of_planned (Engine.planned_of_outset_ok outset)
    have collected' := Engine.collected_of_planned (Engine.planned_of_outset_ok outset')
    have founds := lookUp_reordered same stores plan collected
    rcases found : t.engine.lookUp t.around t.inst s p with ⟨second, l⟩
    rcases found' : t'.engine.lookUp t'.around t'.inst s' p' with ⟨second', l'⟩
    rw [found, found'] at founds
    simp only [found, found']
    cases founds with
    | error both =>
      exact .inr ⟨.resolving, Engine.last_of_lookUp_error outset found,
        Engine.last_of_lookUp_error outset' found', failAlike_ended _ _ _ both⟩
    | @ok refs refs' refsSame =>
      have answer : (t.engine.lookUp t.around t.inst s p).1 = .ok refs := by rw [found]
      have answer' : (t'.engine.lookUp t'.around t'.inst s' p').1 = .ok refs' := by rw [found']
      have makings := making_staged same plan refsSame (Resolver.covers_of_resolveAll collected answer)
        (Resolver.covers_of_resolveAll collected' answer')
      rcases made : t.engine.making t.around t.inst p refs with ⟨last, third⟩
      rcases made' : t'.engine.making t'.around t'.inst p' refs' with ⟨last', third'⟩
      rw [made, made'] at makings
      obtain ⟨rfl, makings⟩ := makings
      simp only [made, made']
      cases makings with
      | error both =>
        exact .inr ⟨last, Engine.last_of_making_error outset found made,
          Engine.last_of_making_error outset' found' made', failAlike_ended _ _ _ both⟩
      | @ok work work' makes =>
        obtain ⟨o, completes, complete⟩ :=
          Engine.completed_of_making (e := t.engine) (t.engine.renders_maker t.inst) made
        refine .inl ⟨work, work', o, Engine.does_of_making outset answer made,
          Engine.does_of_making outset' answer' made', makes, completes, ?_, complete.success⟩
        obtain ⟨generated, record, -⟩ := makes
        simp only [← completes, completed_eq same.inst, Work.resources, generated, record,
          same.settings]

theorem FailAlike.not_success {stage : Phase} {x y : Result Outcome} (fails : FailAlike stage x y) :
    (¬ ∃ o, x = .ok o ∧ o.success = true) ∧ ¬ ∃ o, y = .ok o ∧ o.success = true := by
  cases fails with
  | reported failed failed' => simp [failed.not_success, failed'.not_success]
  | escaped => simp

/-- The record that is stored depends on the one before only by its generation. -/
theorem following_eq {held held' : Option Record} (same : Option.Rel Record.Reordered held held')
    (r : Record) : r.following held = r.following held' := by
  rcases rel_cases same with ⟨rfl, rfl⟩ | ⟨a, b, rfl, rfl, related⟩
  · rfl
  · simp only [Record.following, related.generation]

theorem following_reordered {r : Record} (same : r.Reordered r) (held : Option Record) :
    (r.following held).Reordered (r.following held) :=
  { same with generation := rfl }

/-- A record written in both stores, or none, leaves them reorderings of each other. -/
theorem stores_replaced (same : t.Reordered t') (stores : s.Reordered s')
    {after after' : MemoryStore} {r : Record} (proper : r.Reordered r) (replaced : s.Replaced t.inst r after)
    (replaced' : s'.Replaced t'.inst r after') : after.Reordered after' := by
  intro ns name
  by_cases own : (ns, name) = (t.inst.ns.text, t.inst.name.text)
  · cases own
    have there' := replaced'.own
    rw [← same.inst.ns, ← same.inst.name, ← following_eq (stores _ _)] at there'
    rw [replaced.own, there']
    exact .some (following_reordered proper _)
  · have own' : (ns, name) ≠ (t'.inst.ns.text, t'.inst.name.text) := by
      rwa [← same.inst.ns, ← same.inst.name]
    rw [replaced.2 ns name own, replaced'.2 ns name own']
    exact stores ns name

/-- Either both passes complete with the same outcome, or both fail in one stage; the stores that
they leave still differ at most in the order of entries. -/
theorem pass_matches (same : t.Reordered t') (unambiguous : t.Unambiguous)
    (stores : s.Reordered s') :
    (t.pass s).2.Reordered (t'.pass s').2 ∧
      (t.Succeeds s ∧ t'.Succeeds s' ∧ (t'.pass s').1 = (t.pass s).1 ∨
        ¬ t.Succeeds s ∧ ¬ t'.Succeeds s' ∧ ∃ stage, t.EndsIn s stage ∧ t'.EndsIn s' stage ∧
          FailAlike stage (t.pass s).1 (t'.pass s').1) := by
  rcases pass_sideBySide same unambiguous stores with
    ⟨work, work', o, does, does', ⟨-, record, proper⟩, comes, comes', success⟩ |
    ⟨stage, ends, ends', alike⟩
  · have succeeds : t.Succeeds s := ⟨o, comes, success⟩
    have succeeds' : t'.Succeeds s' := ⟨o, comes', success⟩
    refine ⟨?_, .inl ⟨succeeds, succeeds', comes'.trans comes.symm⟩⟩
    rcases t.pass_cases s with ⟨-, done, doesToo, replaced⟩ | ⟨fails, -⟩
    · rcases t'.pass_cases s' with ⟨-, done', doesToo', replaced'⟩ | ⟨fails, -⟩
      · cases doesToo.unique does
        cases doesToo'.unique does'
        rw [← record] at replaced'
        exact stores_replaced same stores proper replaced replaced'
      · exact absurd succeeds' fails
    · exact absurd succeeds fails
  · obtain ⟨fails, fails'⟩ := alike.not_success
    refine ⟨fun ns name => ?_, .inr ⟨fails, fails', stage, ends, ends', alike⟩⟩
    rcases t.pass_cases s with ⟨succeeds, -⟩ | ⟨-, kept⟩
    · exact absurd succeeds fails
    · rcases t'.pass_cases s' with ⟨succeeds, -⟩ | ⟨-, kept'⟩
      · exact absurd succeeds fails'
      · rw [kept, kept']
        exact stores ns name

theorem canonical_eq_of_reordered (stores : s.Reordered s') (ns name : String) :
    (s.read ns name).map Record.canonical = (s'.read ns name).map Record.canonical := by
  rcases rel_cases (stores ns name) with ⟨one, two⟩ | ⟨r, r', one, two, related⟩ <;> rw [one, two]
  exact congrArg some related.canonical_eq

/-- Worlds that differ in the order of entries only cannot be told apart by a pass. It completes in
one if and only if it completes in the other, and then with the same outcome, to the byte; otherwise
both passes fail in the same stage. The records stored afterwards have the same canonical text. -/
theorem pass_reordered (same : t.Reordered t') (unambiguous : t.Unambiguous)
    (stores : s.Reordered s') :
    (t.Succeeds s ↔ t'.Succeeds s') ∧
      (t.Succeeds s → (t'.pass s').1 = (t.pass s).1) ∧
      (¬ t.Succeeds s → ∃ stage, t.EndsIn s stage ∧ t'.EndsIn s' stage ∧
        FailAlike stage (t.pass s).1 (t'.pass s').1) ∧
      ∀ ns name, ((t.pass s).2.read ns name).map Record.canonical =
        ((t'.pass s').2.read ns name).map Record.canonical := by
  obtain ⟨after, course⟩ := pass_matches same unambiguous stores
  refine ⟨?_, ?_, ?_, canonical_eq_of_reordered after⟩ <;>
    rcases course with ⟨succeeds, succeeds', equal⟩ | ⟨fails, fails', ends⟩
  · exact iff_of_true succeeds succeeds'
  · exact iff_of_false fails fails'
  · exact fun _ => equal
  · exact fun succeeds => absurd succeeds fails
  · exact fun fails => absurd succeeds fails
  · exact fun _ => ends

/-- The same holds of runs of passes, one after the other. -/
theorem after_reordered {turns turns' : List Turn}
    (all : List.Forall₂ (fun t t' => t.Reordered t' ∧ t.Unambiguous) turns turns')
    (stores : s.Reordered s') : (after s turns).Reordered (after s' turns') := by
  induction all generalizing s s' with
  | nil => exact stores
  | cons first _ ih => exact ih (pass_matches first.1 first.2 stores).1

def clusterRecord : Value := .map [
  ("metadata", .map [("name", .str "main"), ("labels", .map [("type", .str "cluster")])]),
  ("spec", .map [("environment", .map [("name", .str "main")])])]

/-- The record of the project of a team. -/
def projectRecord (spec : Value) : Value := .map [
  ("metadata", .map [("name", .str "team"),
    ("labels", .map [("type", .str "project"), ("project", .str "team")])]),
  ("spec", spec)]

theorem reordered_projectRecord {spec spec' : Value} (same : spec.Reordered spec') :
    (projectRecord spec).Reordered (projectRecord spec') := by
  have metadata : (Value.map [("name", .str "team"),
      ("labels", .map [("type", .str "project"), ("project", .str "team")])]).IsProper := rfl
  exact (Value.Reordered.empty.put "metadata" (.refl metadata)).put "spec" same

/-- A pass of a web server whose field has the default, with the config records. -/
def ofConfig (default : String) (records : List Value) : Turn :=
  { ofField .web default with source := .ofRecords records }

theorem reordered_ofConfig (default : String) {records others : List Value}
    (shuffled : Value.Shuffled records others) :
    (ofConfig default records).Reordered (ofConfig default others) where
  registry kind := by
    have patch : ∀ p ∈ (Composition.ofField default).patches, p.Reordered p := by
      intro p member
      rw [List.mem_singleton.mp member]
      exact ⟨rfl, rfl, .scalar _, rfl⟩
    have composition : (Composition.ofField default).Reordered (.ofField default) :=
      ⟨rfl, .cons ⟨rfl, rfl, rfl, .nil, List.forall₂_same.mpr patch⟩ .nil, rfl⟩
    simp only [ofConfig, ofField, Table.find?]
    split
    · exact .some composition
    · exact .none
  settings := rfl
  source := ⟨records, others, rfl, rfl, shuffled⟩
  cancelled := rfl
  inst := ⟨rfl, rfl, rfl, rfl, .nil, .nil⟩

/-- A store with the one record of a database and its address. -/
def ofDatabase (address : List (Key × Value)) : MemoryStore where
  records := [(("team", "db"), {
    kind := "App"
    ns := "team"
    name := "db"
    outputs := [("address", .map address)]
    connection := ⟨"db-conn", []⟩ })]

theorem reordered_ofDatabase {address address' : List (Key × Value)}
    (same : (Value.map address).Reordered (.map address')) :
    (ofDatabase address).Reordered (ofDatabase address') := by
  intro ns name
  simp only [MemoryStore.read, ofDatabase, Table.find?]
  split
  · exact .some ⟨rfl, rfl, rfl, Table.Reordered.nil.put "address" same, rfl, .nil, rfl, rfl⟩
  · exact .none

/-- The address of the database, the spec of the project and the config records in two orders. -/
theorem pass_reordered_ofConfig :
    let t := ofConfig "outputs/db/address" [clusterRecord,
      projectRecord (.map [("project", .str "team"), ("overrides", .map [])])]
    let t' := ofConfig "outputs/db/address" [
      projectRecord (.map [("overrides", .map []), ("project", .str "team")]), clusterRecord]
    let s := ofDatabase [("host", .str "db"), ("port", .int 1)]
    let s' := ofDatabase [("port", .int 1), ("host", .str "db")]
    t.Reordered t' ∧ t.Unambiguous ∧ s.Reordered s' ∧ t.Succeeds s ∧ t'.Succeeds s' ∧
      (t'.pass s').1 = (t.pass s).1 := by
  intro t t' s s'
  have project : (projectRecord (.map [("project", .str "team"), ("overrides", .map [])])).Reordered
      (projectRecord (.map [("overrides", .map []), ("project", .str "team")])) :=
    reordered_projectRecord (.of_perm rfl (.swap _ _ _))
  have cluster : clusterRecord.Reordered clusterRecord := .refl rfl
  have same : t.Reordered t' :=
    reordered_ofConfig _ ⟨_, .swap _ _ _, .cons project (.cons cluster .nil)⟩
  have unambiguous : t.Unambiguous := by
    rintro records ⟨⟩ record among - items entries isList
    have maps : ∀ record ∈ [clusterRecord,
        projectRecord (.map [("project", .str "team"), ("overrides", .map [])])],
        (record.lookup "spec").isMap = true := by decide
    have isMap := maps record among
    rw [isList] at isMap
    cases isMap
  have stores : s.Reordered s' := reordered_ofDatabase (.of_perm rfl (.swap _ _ _))
  have succeeds : t.Succeeds s := by decide +kernel
  have both := pass_reordered same unambiguous stores
  exact ⟨same, unambiguous, stores, succeeds, both.1.mp succeeds, both.2.1 succeeds⟩

/-- A map of two entries may stand for a pair in the spec of a project, and its first key is then
the name of a field. -/
theorem not_succeeds_reordered :
    let spec (pair : List (Key × Value)) : Value := .list [.map pair]
    let t := ofConfig "http://db" [clusterRecord,
      projectRecord (spec [("team", .int 2), ("project", .int 1)])]
    let t' := ofConfig "http://db" [clusterRecord,
      projectRecord (spec [("project", .int 1), ("team", .int 2)])]
    t.Reordered t' ∧ ({} : MemoryStore).Reordered {} ∧ ¬ t.Succeeds {} ∧ t'.Succeeds {} := by
  intro spec t t'
  have project : (projectRecord (spec [("team", .int 2), ("project", .int 1)])).Reordered
      (projectRecord (spec [("project", .int 1), ("team", .int 2)])) :=
    reordered_projectRecord (.list (.cons (.of_perm rfl (.swap _ _ _)) .nil))
  have cluster : clusterRecord.Reordered clusterRecord := .refl rfl
  refine ⟨reordered_ofConfig _ ⟨_, .refl _, .cons cluster (.cons project .nil)⟩,
    fun _ _ => .none, ?_⟩
  decide +kernel

end Turn
end WorkloadConfig
