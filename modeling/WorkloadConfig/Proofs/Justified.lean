import WorkloadConfig.Proofs.History
import WorkloadConfig.Proofs.Publishing

namespace WorkloadConfig

namespace Work

/-- The pass published the value under the key for others to read. -/
def Publishes (work : Work) (key : String) (v : Value) : Prop :=
  ∃ p ∈ work.plan.composition.publish, p.key.text = key ∧
    ∃ u, p.Gives work.plan.fields work.refs u ∧ v = u.sortKeys

/-- The last resource of the pass is a secret of the name in the namespace with the key. -/
def Connects (work : Work) (manager ns key name : String) : Prop :=
  ∃ secret, (work.resources manager).getLast? = some secret ∧
    secret.lookup "kind" = .str "Secret" ∧
    (secret.lookup "metadata").lookup "namespace" = .str ns ∧
    (secret.lookup "metadata").lookup "name" = .str name ∧
    ∃ text, (secret.lookup "stringData").lookup (.str key) = .str text

/-- The pass generated a resource of the name from the template. -/
def Generates (work : Work) (template name : String) : Prop :=
  ∃ t v, (t, v) ∈ work.plan.composition.resources.zip work.generated ∧ t.name.text = template ∧
    (v.lookup "metadata").lookup "name" = .str name

end Work

namespace Engine
variable {σ : Type} [TargetLookup σ] {e : Engine} {around : Surroundings} {i : Instance} {s : σ}
variable {work : Work}

theorem Does.valid (does : e.Does around i s work) (valid : e.registry.Valid) :
    work.plan.composition.Valid := by
  obtain ⟨⟨c, config⟩, loaded, plan⟩ := Result.bind_eq_ok.mp does.planned
  obtain ⟨c', atKind, rest⟩ := Result.bind_eq_ok.mp loaded
  obtain ⟨config', -, same⟩ := Result.bind_eq_ok.mp rest
  cases same
  rw [plan_composition plan]
  exact valid i.kind c atKind

theorem Does.find?_outputs (does : e.Does around i s work) (valid : e.registry.Valid) (key : String)
    (v : Value) : work.record.outputs.find? key = some v ↔ work.Publishes key v :=
  Instance.find?_outputs (does.valid valid) does.recorded key v

theorem Does.connects_iff (does : e.Does around i s work) (manager key name : String) :
    work.Connects manager i.ns.text key name ↔
      key ∈ work.record.connection.data.keys ∧ name = work.record.connection.name := by
  have last : (work.resources manager).getLast? = some (work.record.connectionManifest manager) := by
    simp only [Work.resources, List.getLast?_append, List.getLast?_singleton, Option.some_or]
  have atNs := (Instance.record_address does.recorded).1
  constructor
  · rintro ⟨secret, isLast, -, -, ofName, ofKey⟩
    cases Option.some.inj (last.symm.trans isLast)
    rw [Record.manifest_name] at ofName
    refine ⟨(work.record.manifest_stringData manager key).mp ofKey, ?_⟩
    cases ofName
    rfl
  · rintro ⟨held, rfl⟩
    refine ⟨_, last, work.record.manifest_kind manager, ?_, work.record.manifest_name manager,
      (work.record.manifest_stringData manager key).mpr held⟩
    rw [Record.manifest_namespace, atNs]

theorem Does.generates_iff (does : e.Does around i s work) (template name : String) :
    work.Generates template name ↔
      template ∈ work.record.resources ∧ name = i.name.text ++ "-" ++ template := by
  obtain ⟨lengths, made⟩ := List.forall₂_iff_zip.mp does.generated
  rw [Instance.mem_resources does.recorded]
  constructor
  · rintro ⟨t, v, member, rfl, named⟩
    rw [Instance.resource_name (made member)] at named
    refine ⟨⟨t, (List.of_mem_zip member).1, rfl⟩, ?_⟩
    cases named
    rfl
  · rintro ⟨⟨t, member, rfl⟩, rfl⟩
    obtain ⟨index, short, rfl⟩ := List.mem_iff_getElem.mp member
    have within : index < work.generated.length := lengths ▸ short
    have paired : (work.plan.composition.resources[index], work.generated[index]) ∈
        work.plan.composition.resources.zip work.generated :=
      List.mem_iff_getElem.mpr ⟨index, by simpa [lengths] using within, by simp⟩
    exact ⟨_, _, paired, rfl, Instance.resource_name (made paired)⟩

end Engine

namespace Turn
variable {turns : List Turn} {ns name : String}

/-- The namespace that an output reference is answered from: the one it names, else the own one if
the target has succeeded there, else the one to fall back on if it has succeeded there. -/
inductive AnsweredFrom (turns : List Turn) (settings : Settings) (own target : String) :
    Option String → String → Prop
  | named (ns : String) : AnsweredFrom turns settings own target (some ns) ns
  | own : Had turns own target → AnsweredFrom turns settings own target none own
  | fallback : ¬ Had turns own target → settings.fallbackNamespace ≠ "" →
      Had turns settings.fallbackNamespace target →
      AnsweredFrom turns settings own target none settings.fallbackNamespace

/-- What a reference in a namespace is to resolve to after the passes of a run: always something that
the most recent pass for its target made. -/
inductive Justified (turns : List Turn) (settings : Settings) (ns : String) :
    Reference → Resolved → Prop
  | output {explicit target key source t work v} :
      AnsweredFrom turns settings ns target explicit source → Latest source target turns t work →
      work.Publishes key v → Justified turns settings ns (.output explicit target key) (.literal v)
  | connection {target key name t work} : Latest ns target turns t work →
      work.Connects t.engine.settings.fieldManager ns key name →
      Justified turns settings ns (.connection target key) (.pointer ⟨name, some key, .secret⟩)
  | secret {target resource key name t work} : Latest ns target turns t work →
      t.inst.kind = settings.secretsKind → work.Generates resource name →
      Justified turns settings ns (.secret target resource key) (.pointer ⟨name, key, .secret⟩)
  | config {target resource key name t work} : Latest ns target turns t work →
      t.inst.kind = settings.configsKind → work.Generates resource name →
      Justified turns settings ns (.config target resource key) (.pointer ⟨name, key, .config⟩)

/-- The most recent pass is one of the run, for the name, and did the work over some store. -/
theorem Latest.does {t : Turn} {work : Work} (latest : Latest ns name turns t work) :
    t ∈ turns ∧ t.IsFor ns name ∧ ∃ s, t.Does s work := by
  induction latest with
  | now isFor _ does => exact ⟨by simp, isFor, _, does⟩
  | still u _ _ ih => exact ⟨List.mem_append_left _ ih.1, ih.2⟩

theorem view_eq_some {found : Target} : (after {} turns).view ns name = .ok (some found) ↔
    ∃ t work, Latest ns name turns t work ∧ found = .ofRecord work.record := by
  simp only [MemoryStore.view, Except.ok.injEq, Option.map_eq_some_iff]
  constructor
  · rintro ⟨r, holds, rfl⟩
    obtain ⟨t, work, generation, latest, rfl⟩ := latest_of_read holds
    exact ⟨t, work, latest, rfl⟩
  · rintro ⟨t, work, latest, rfl⟩
    obtain ⟨generation, holds⟩ := read_of_latest latest
    exact ⟨_, holds, rfl⟩

theorem had_iff : Had turns ns name ↔ ∃ found, (after {} turns).view ns name = .ok (some found) := by
  simp only [view_eq_some, Had]
  exact ⟨fun ⟨t, work, latest⟩ => ⟨_, t, work, latest, rfl⟩,
    fun ⟨_, t, work, latest, _⟩ => ⟨t, work, latest⟩⟩

theorem not_had_iff : ¬ Had turns ns name ↔ (after {} turns).view ns name = .ok none := by
  rw [had_iff]
  simp only [MemoryStore.view, Except.ok.injEq]
  cases ((after {} turns).read ns name).map Target.ofRecord <;> simp

theorem answeredFrom_iff {settings : Settings} {own target source : String}
    {explicit : Option String} :
    (Resolver.mk own settings).outputNamespace (after {} turns).view target explicit = .ok source ↔
      AnsweredFrom turns settings own target explicit source := by
  cases explicit with
  | some named =>
    constructor
    · intro answer
      cases answer
      exact .named _
    · rintro ⟨⟩
      rfl
  | none =>
    rw [Resolver.outputNamespace_eq_ok, ← had_iff, ← had_iff, ← not_had_iff,
      Resolver.fallback?_eq_some]
    constructor
    · rintro (⟨rfl, had⟩ | ⟨absent, ⟨rfl, given, -⟩, had⟩)
      · exact .own had
      · exact .fallback absent given had
    · intro answered
      cases answered with
      | own had => exact .inl ⟨rfl, had⟩
      | fallback absent given had =>
        refine .inr ⟨absent, ⟨rfl, given, fun same => absent ?_⟩, had⟩
        rwa [show own = settings.fallbackNamespace from same.symm]

theorem Latest.connection_iff {t : Turn} {work : Work} (latest : Latest ns name turns t work)
    (key secret : String) :
    work.Connects t.engine.settings.fieldManager ns key secret ↔
      key ∈ Sorting.texts work.record.connection.data.keys ∧ secret = work.record.connection.name := by
  obtain ⟨-, ⟨atNs, -⟩, s, does⟩ := latest.does
  rw [← atNs, Engine.Does.connects_iff does, mem_texts_iff]

theorem Latest.resources_iff {t : Turn} {work : Work} (latest : Latest ns name turns t work)
    (resource generated : String) : work.Generates resource generated ↔
      resource ∈ work.record.resources ∧ generated = name ++ "-" ++ resource := by
  obtain ⟨-, ⟨-, atName⟩, s, does⟩ := latest.does
  rw [← atName, Engine.Does.generates_iff does]

/-- What an instance shows of its kind and resources is what its most recent pass was and made. -/
theorem Latest.managed_iff {t : Turn} {work : Work} (latest : Latest ns name turns t work)
    (valid : ∀ u ∈ turns, u.engine.registry.Valid) {expected resource : String}
    {source : PointerSource} {key : Option String} {v : Resolved} :
    Resolver.managed expected source name resource key (.ofRecord work.record) = .ok v ↔
      ∃ generated, t.inst.kind = expected ∧ work.Generates resource generated ∧
        v = .pointer ⟨generated, key, source⟩ := by
  obtain ⟨member, -, s, does⟩ := latest.does
  have kind : work.record.kind = t.inst.kind := Instance.record_kind does.recorded
  have given := Instance.resources_ne_nil (Engine.Does.valid does (valid t member)) does.recorded
  have listed : (Target.ofRecord work.record).resources = some work.record.resources := if_neg given
  have ofKind : (Target.ofRecord work.record).kind = t.inst.kind := kind
  unfold Resolver.managed
  by_cases same : t.inst.kind = expected
  · simp only [ofKind, same, if_true, Resolver.checked_eq_ok listed, latest.resources_iff, true_and]
    constructor
    · rintro ⟨held, rfl⟩
      exact ⟨_, ⟨held, rfl⟩, rfl⟩
    · rintro ⟨_, ⟨held, rfl⟩, rfl⟩
      exact ⟨held, rfl⟩
  · simp [ofKind, same, Result.fail]

theorem resolveBy_view_iff (valid : ∀ u ∈ turns, u.engine.registry.Valid) {settings : Settings}
    {reference : Reference} {v : Resolved} :
    (Resolver.mk ns settings).resolveBy (after {} turns).view reference = .ok v ↔
      Justified turns settings ns reference v := by
  rw [Resolver.resolveBy_eq_ok]
  constructor
  · rintro ⟨source, found, answer, finds, shown⟩
    obtain ⟨t, work, latest, rfl⟩ := view_eq_some.mp finds
    cases reference with
    | output explicit target key =>
      obtain ⟨value, holds, rfl⟩ := Resolver.output_eq_ok.mp shown
      obtain ⟨member, -, s, does⟩ := latest.does
      exact .output (answeredFrom_iff.mp answer) latest
        ((Engine.Does.find?_outputs does (valid t member) key value).mp holds)
    | connection target key =>
      cases answer
      obtain ⟨held, rfl⟩ := (Resolver.checked_eq_ok rfl).mp shown
      exact .connection latest ((latest.connection_iff key _).mpr ⟨held, rfl⟩)
    | secret target resource key =>
      cases answer
      obtain ⟨generated, ofKind, generates, rfl⟩ := (latest.managed_iff valid).mp shown
      exact .secret latest ofKind generates
    | config target resource key =>
      cases answer
      obtain ⟨generated, ofKind, generates, rfl⟩ := (latest.managed_iff valid).mp shown
      exact .config latest ofKind generates
  · intro justified
    cases justified with
    | output answered latest publishes =>
      obtain ⟨member, -, s, does⟩ := latest.does
      refine ⟨_, _, answeredFrom_iff.mpr answered, view_eq_some.mpr ⟨_, _, latest, rfl⟩, ?_⟩
      exact Resolver.output_eq_ok.mpr
        ⟨_, (Engine.Does.find?_outputs does (valid _ member) _ _).mpr publishes, rfl⟩
    | connection latest connects =>
      obtain ⟨held, rfl⟩ := (latest.connection_iff _ _).mp connects
      exact ⟨ns, _, rfl, view_eq_some.mpr ⟨_, _, latest, rfl⟩,
        (Resolver.checked_eq_ok rfl).mpr ⟨held, rfl⟩⟩
    | secret latest ofKind generates =>
      exact ⟨ns, _, rfl, view_eq_some.mpr ⟨_, _, latest, rfl⟩,
        (latest.managed_iff valid).mpr ⟨_, ofKind, generates, rfl⟩⟩
    | config latest ofKind generates =>
      exact ⟨ns, _, rfl, view_eq_some.mpr ⟨_, _, latest, rfl⟩,
        (latest.managed_iff valid).mpr ⟨_, ofKind, generates, rfl⟩⟩

/-- The outcomes of all references that the pass resolves by its plan. -/
def outcomes (t : Turn) (s : MemoryStore) (plan : Plan) : List (String × Result Resolved) :=
  (t.resolver.outcomes plan.references.eraseDups (t.engine.lookups t.around s)).1

/-- The pass gets as far as resolving the references of the plan. -/
def Reaches (t : Turn) (plan : Plan) : Prop :=
  t.engine.outset t.around t.inst = (.resolving, .ok plan)

theorem outcomes_eq (t : Turn) (s : MemoryStore) (plan : Plan) :
    t.outcomes s plan =
      plan.references.eraseDups.map fun reference => (reference.text, t.outcome s reference) := by
  rw [outcomes, Resolver.outcomes_eq s.shows _ _ (t.ready s)]
  simp only [outcome_eq]

/-- A pass of a run that reaches the resolving of references resolves each of them if and only if the
passes before it justify that, and then to what they justify. The first that does not resolve ends
the pass. -/
theorem references_justified {before : List Turn} {t : Turn} {plan : Plan}
    (valid : ∀ u ∈ before, u.engine.registry.Valid) (reaches : t.Reaches plan) :
    t.outcomes (after {} before) plan = plan.references.eraseDups.map (fun reference =>
        (reference.text, t.outcome (after {} before) reference)) ∧
      (∀ reference v, t.outcome (after {} before) reference = .ok v ↔
        Justified before t.engine.settings t.inst.ns.text reference v) ∧
      ∀ failure, Resolver.gather (t.outcomes (after {} before) plan) = .error failure →
        (t.pass (after {} before)).1 = Engine.ended t.inst .resolving failure := by
  refine ⟨t.outcomes_eq _ plan, fun reference v => ?_, fun failure unresolved => ?_⟩
  · rw [outcome_eq]
    exact resolveBy_view_iff valid
  · have found : (t.engine.lookUp t.around t.inst (after {} before) plan).1 = .error failure :=
      unresolved
    rw [pass_fst, reaches]
    simp only [found]

theorem valid_ofField (name : DnsLabel) (default : String) :
    (ofField name default).engine.registry.Valid := by
  intro kind c found
  simp only [ofField, Registry.get, Table.find?] at found
  split at found
  · rename_i atKind
    split at atKind
    · cases atKind
      cases found
      exact ⟨rfl, by simp [Composition.ofField]⟩
    · cases atKind
  · cases found

theorem outcome_ofField :
    (ofField ⟨"web", by decide, by decide⟩ "outputs/db/url").outcome
      (after {} [ofField ⟨"db", by decide, by decide⟩ "http://db"]) (.output none "db" "url") =
      .ok (.literal (.str "http://db")) := by
  decide +kernel

theorem references_justified_ofField :
    let db := ofField ⟨"db", by decide, by decide⟩ "http://db"
    let web := ofField ⟨"web", by decide, by decide⟩ "outputs/db/url"
    let plan : Plan := {
      composition := .ofField "outputs/db/url"
      config := ⟨⟨"main", ⟨"main", "", ""⟩, []⟩, none⟩
      fields := [("url", .str "outputs/db/url")]
      references := [.output none "db" "url"] }
    (∀ u ∈ [db], u.engine.registry.Valid) ∧ web.Reaches plan ∧
      Justified [db] web.engine.settings "team" (.output none "db" "url")
        (.literal (.str "http://db")) := by
  intro db web plan
  have valid : ∀ u ∈ [db], u.engine.registry.Valid :=
    fun u member => List.mem_singleton.mp member ▸ valid_ofField _ _
  have reaches : web.Reaches plan := rfl
  exact ⟨valid, reaches, ((references_justified valid reaches).2.1 _ _).mp outcome_ofField⟩

end Turn
end WorkloadConfig
