import WorkloadConfig.Pass
import WorkloadConfig.Proofs.Lookup

namespace WorkloadConfig

/-- The place of a stage among all, by which one comes before another. -/
def Phase.position (phase : Phase) : Nat :=
  Phase.all.idxOf phase

/-- What a pass knows before it looks anything up. -/
structure Plan where
  composition : Composition
  config : LoadedConfig
  fields : Assignment
  references : List Reference

/-- What a pass makes of its plan once the references are resolved. -/
structure Work where
  plan : Plan
  refs : Resolutions
  generated : List Value
  record : Record

/-- All resources of a pass, the connection's secret at the end. -/
def Work.resources (work : Work) (manager : String) : List Value :=
  work.generated ++ [work.record.connectionManifest manager]

theorem Instance.record_address {i : Instance} {c : Composition} {fields : Assignment}
    {refs : Resolutions} {r : Record} (recorded : i.record c fields refs = .ok r) :
    r.ns = i.ns.text ∧ r.name = i.name.text := by
  simp only [record, Result.bind_eq_ok, Except.ok.injEq] at recorded
  obtain ⟨published, -, outputs, -, rfl⟩ := recorded
  exact ⟨rfl, rfl⟩

theorem Registry.get_eq_ok {r : Registry} {kind : String} {c : Composition} :
    r.get kind = .ok c ↔ r.find? kind = some c := by
  unfold get
  cases r.find? kind <;> simp [Result.fail]

namespace Engine
variable {σ : Type}

/-- The composition and the configuration that a pass loads. -/
def loaded (e : Engine) (around : Surroundings) (i : Instance) :
    Result (Composition × LoadedConfig) := do
  let composition ← e.registry.get i.kind
  let loader : ConfigLoader := { timeout := e.settings.lookupTimeout }
  return (composition, ← (loader.load around.source i.ns.text).1)

/-- The plan of a pass over what it has loaded. -/
def plan (i : Instance) (c : Composition) (config : LoadedConfig) : Result Plan := do
  let fields ← (FieldLevels.mk i config.cluster config.project).resolve c.fields
  let fields := fields.mapValues ResolvedField.value
  return ⟨c, config, fields, ← Reference.collect (fields.map (·.2))⟩

/-- The lookups of a pass at their start. -/
def lookups (e : Engine) (around : Surroundings) (s : σ) : Lookups σ where
  store := s
  cache := { timeout := e.settings.lookupTimeout }
  availability := around.availability

/-- The references of a plan, resolved through the cache. -/
def lookUp [TargetLookup σ] (e : Engine) (around : Surroundings) (i : Instance) (s : σ)
    (plan : Plan) : Result Resolutions × Lookups σ :=
  (Resolver.mk i.ns.text e.settings).resolveAll plan.references (e.lookups around s)

/-- Lookups keep a store of its kind. -/
theorem kind_lookUp [TargetLookup σ] {view : Finder Result} {kind : σ → Prop} {s : σ}
    (shows : TargetLookup.Shows view kind) (e : Engine) (around : Surroundings) (i : Instance)
    (plan : Plan) (ofKind : kind s) : kind (e.lookUp around i s plan).2.store := by
  have ready : (e.lookups around s).Ready view kind _ := Lookups.Ready.fresh ofKind rfl
  rw [lookUp, Resolver.resolveAll_eq shows _ _ ready]
  exact (ready.foldl_noting shows _).store

theorem enter_cancelled {around : Surroundings} {phase : Phase}
    (cancelled : around.cancelled phase = true) (p : Progress σ) :
    enter around phase p = (.error (.resolution (.cancelled phase.word)), p) := by
  simp only [enter, cancelled]
  rfl

theorem enter_ok {around : Surroundings} {phase : Phase}
    (goesOn : around.cancelled phase = false) (p : Progress σ) :
    enter around phase p = (.ok (), { p with phase }) := by
  simp only [enter, goesOn]
  rfl

theorem load_apply (e : Engine) (around : Surroundings) (i : Instance) (p : Progress σ) :
    ∃ asked, e.load around i p = (e.loaded around i, { p with asked }) := by
  unfold load loaded
  cases e.registry.get i.kind with
  | error failure => exact ⟨p.asked, rfl⟩
  | ok composition =>
    simp only
    generalize (ConfigLoader.mk e.settings.lookupTimeout [] 0).load around.source i.ns.text = reply
    obtain ⟨outcome, loader⟩ := reply
    refine ⟨p.asked + loader.asked, ?_⟩
    cases outcome <;> rfl

theorem lift_apply {α : Type} (x : Result α) (p : Progress σ) :
    (liftM x : PassM σ α) p = (x, p) := by
  cases x <;> rfl

theorem get_apply (p : Progress σ) : (get : PassM σ (Progress σ)) p = (.ok p, p) := rfl

theorem set_apply (p q : Progress σ) : (set q : PassM σ PUnit) p = (.ok ⟨⟩, q) := rfl

theorem resolve_apply [TargetLookup σ] (e : Engine) (around : Surroundings) (i : Instance)
    (c : Composition) (config : LoadedConfig) (p : Progress σ) :
    e.resolve around i c config p = match plan i c config with
      | .error failure => (.error failure, p)
      | .ok plan =>
        ((fun refs => ⟨plan.fields, refs⟩) <$> (e.lookUp around i p.store plan).1,
          { p with store := (e.lookUp around i p.store plan).2.store }) := by
  unfold resolve plan
  cases (FieldLevels.mk i config.cluster config.project).resolve c.fields with
  | error failure => rfl
  | ok fields =>
    rw [run_bind_ok (lift_apply (.ok fields) p)]
    cases collected : Reference.collect ((fields.mapValues ResolvedField.value).map (·.2)) with
    | error failure =>
      simp only [Result.ok_bind, collected, Result.error_bind]
      rw [run_bind_error (lift_apply (.error failure) p)]
    | ok references =>
      simp only [Result.ok_bind, collected, Result.pure_eq, lookUp, lookups]
      rw [run_bind_ok (lift_apply (.ok references) p), run_bind_ok (get_apply p)]
      generalize (Resolver.mk i.ns.text e.settings).resolveAll references
        (⟨p.store, { timeout := e.settings.lookupTimeout }, around.availability⟩ : Lookups σ) = reply
      obtain ⟨refs, l⟩ := reply
      simp only
      rw [run_bind_ok (set_apply _ _)]
      cases refs <;> rfl

/-- The first part of a pass, up to what it is going to look up: the last stage that is entered, and
the plan or what stands in its way. -/
def outset (e : Engine) (around : Surroundings) (i : Instance) : Phase × Result Plan :=
  if around.cancelled .loadingConfig then (.pending, Result.fail (.cancelled Phase.loadingConfig.word))
  else match e.loaded around i with
    | .error failure => (.loadingConfig, .error failure)
    | .ok (c, config) =>
      if around.cancelled .resolving then
        (.loadingConfig, Result.fail (.cancelled Phase.resolving.word))
      else (.resolving, plan i c config)

/-- The part of a pass between its lookups and the writing of its record. -/
def makingBy (make : Maker) (around : Surroundings) (i : Instance) (plan : Plan) (refs : Resolutions) :
    Phase × Result Work :=
  if around.cancelled .patching then (.resolving, Result.fail (.cancelled Phase.patching.word))
  else match make plan.composition ⟨plan.fields, refs⟩ with
    | .error failure => (.patching, .error failure)
    | .ok generated =>
      if around.cancelled .publishing then
        (.patching, Result.fail (.cancelled Phase.publishing.word))
      else (.publishing, (fun record => ⟨plan, refs, generated, record⟩) <$>
        i.record plan.composition plan.fields refs)

abbrev making (e : Engine) (around : Surroundings) (i : Instance) :
    Plan → Resolutions → Phase × Result Work :=
  makingBy (e.maker i) around i

theorem making_eq (e : Engine) (around : Surroundings) (i : Instance) (plan : Plan)
    (refs : Resolutions) : e.making around i plan refs =
      if around.cancelled .patching then (.resolving, Result.fail (.cancelled Phase.patching.word))
      else match i.resources plan.composition e.settings.fieldManager plan.fields refs with
      | .error failure => (.patching, .error failure)
      | .ok generated =>
        if around.cancelled .publishing then
          (.patching, Result.fail (.cancelled Phase.publishing.word))
        else (.publishing, (fun record => ⟨plan, refs, generated, record⟩) <$>
          i.record plan.composition plan.fields refs) :=
  rfl

/-- The outcome of a pass that a failure ends in the stage. -/
def ended (i : Instance) (stage : Phase) : Failure → Result Outcome
  | .resolution cause => .ok (stopped i stage cause)
  | failure => .error failure

theorem store_apply [OutputStore σ] (r : Record) (p : Progress σ) :
    store r p =
      ((OutputStore.publish p.store r).1, { p with store := (OutputStore.publish p.store r).2 }) := by
  unfold store
  rw [run_bind_ok (get_apply p)]
  simp only
  rw [run_bind_ok (set_apply _ _)]
  cases (OutputStore.publish p.store r).1 <;> rfl

theorem making_apply [OutputStore σ] (make : Maker) (e : Engine) (around : Surroundings)
    (i : Instance) (plan : Plan) (refs : Resolutions) (s : σ) (asked : Nat) :
    (do
      enter around .patching
      let resources ← make plan.composition ⟨plan.fields, refs⟩
      enter around .publishing
      let record ← i.record plan.composition plan.fields refs
      let _ ← store record
      return resources ++ [record.connectionManifest e.settings.fieldManager] :
        PassM σ (List Value)) ⟨s, .resolving, asked⟩ = match makingBy make around i plan refs with
      | (stage, .error failure) => (.error failure, ⟨s, stage, asked⟩)
      | (_, .ok work) => match OutputStore.publish s work.record with
        | (.error failure, s) => (.error failure, ⟨s, .publishing, asked⟩)
        | (.ok _, s) => (.ok (work.resources e.settings.fieldManager), ⟨s, .publishing, asked⟩) := by
  unfold makingBy
  cases atPatching : around.cancelled .patching with
  | true =>
    rw [run_bind_error (enter_cancelled atPatching _)]
    rfl
  | false =>
    rw [run_bind_ok (enter_ok atPatching _)]
    cases make plan.composition ⟨plan.fields, refs⟩ with
    | error failure =>
      rw [run_bind_error (lift_apply (.error failure) _)]
      rfl
    | ok generated =>
      rw [run_bind_ok (lift_apply (.ok generated) _)]
      cases atPublishing : around.cancelled .publishing with
      | true =>
        rw [run_bind_error (enter_cancelled atPublishing _)]
        rfl
      | false =>
        rw [run_bind_ok (enter_ok atPublishing _)]
        cases i.record plan.composition plan.fields refs with
        | error failure =>
          rw [run_bind_error (lift_apply (.error failure) _)]
          rfl
        | ok record =>
          rw [run_bind_ok (lift_apply (.ok record) _)]
          have written := store_apply record (⟨s, .publishing, asked⟩ : Progress σ)
          simp only [Bool.false_eq_true, if_false, Functor.map, Except.map]
          cases reply : OutputStore.publish s record with
          | mk outcome after =>
            rw [reply] at written
            cases outcome with
            | error failure => rw [run_bind_error written]
            | ok stored =>
              rw [run_bind_ok written]
              rfl

theorem plan_composition {i : Instance} {c : Composition} {config : LoadedConfig} {p : Plan}
    (planned : plan i c config = .ok p) : p.composition = c := by
  simp only [plan, Result.bind_eq_ok, Result.pure_eq, Except.ok.injEq] at planned
  obtain ⟨fields, _, references, _, rfl⟩ := planned
  rfl

/-- A pass is its first part, the lookups, the making of resources and record, and the writing. -/
theorem stagesBy_eq [OutputStore σ] (make : Maker) (e : Engine) (around : Surroundings) (i : Instance)
    (s : σ) : ∃ asked, e.stagesBy make around i { store := s } = match e.outset around i with
      | (stage, .error failure) => (.error failure, ⟨s, stage, asked⟩)
      | (_, .ok plan) => match e.lookUp around i s plan with
        | (.error failure, l) => (.error failure, ⟨l.store, .resolving, asked⟩)
        | (.ok refs, l) => match makingBy make around i plan refs with
          | (stage, .error failure) => (.error failure, ⟨l.store, stage, asked⟩)
          | (_, .ok work) => match OutputStore.publish l.store work.record with
            | (.error failure, s') => (.error failure, ⟨s', .publishing, asked⟩)
            | (.ok _, s') => (.ok (work.resources e.settings.fieldManager), ⟨s', .publishing, asked⟩) := by
  unfold stagesBy outset
  cases atLoading : around.cancelled .loadingConfig with
  | true =>
    refine ⟨0, ?_⟩
    rw [run_bind_error (enter_cancelled atLoading _)]
    rfl
  | false =>
    obtain ⟨asked, load⟩ := e.load_apply around i (⟨s, .loadingConfig, 0⟩ : Progress σ)
    refine ⟨asked, ?_⟩
    rw [run_bind_ok (enter_ok atLoading _)]
    cases loaded : e.loaded around i with
    | error failure =>
      rw [loaded] at load
      rw [run_bind_error load]
      rfl
    | ok found =>
      obtain ⟨c, config⟩ := found
      rw [loaded] at load
      rw [run_bind_ok load]
      simp only
      cases atResolving : around.cancelled .resolving with
      | true =>
        rw [run_bind_error (enter_cancelled atResolving _)]
        rfl
      | false =>
        rw [run_bind_ok (enter_ok atResolving _)]
        have resolve := e.resolve_apply around i c config (⟨s, .resolving, asked⟩ : Progress σ)
        cases planned : plan i c config with
        | error failure =>
          rw [planned] at resolve
          rw [run_bind_error resolve]
          rfl
        | ok plan =>
          rw [planned] at resolve
          simp only [Bool.false_eq_true, if_false]
          cases reply : e.lookUp around i s plan with
          | mk outcome l =>
            simp only [reply] at resolve
            cases outcome with
            | error failure => rw [run_bind_error resolve]
            | ok refs =>
              rw [run_bind_ok resolve]
              have making := e.making_apply make around i plan refs l.store asked
              rw [plan_composition planned] at making
              exact making

/-- A pass with the store that it leaves: its first part decides without the store what is looked up,
and what it finds decides all the rest but for the writing of the record. -/
theorem passBy_eq [OutputStore σ] (make : Maker) (e : Engine) (around : Surroundings) (i : Instance)
    (s : σ) : ((e.passBy make around i s).1, (e.passBy make around i s).2.store) =
      match e.outset around i with
      | (stage, .error failure) => (ended i stage failure, s)
      | (_, .ok plan) => match e.lookUp around i s plan with
        | (.error failure, l) => (ended i .resolving failure, l.store)
        | (.ok refs, l) => match makingBy make around i plan refs with
          | (stage, .error failure) => (ended i stage failure, l.store)
          | (_, .ok work) => match OutputStore.publish l.store work.record with
            | (.error failure, s) => (ended i .publishing failure, s)
            | (.ok _, s) => (completed i (work.resources e.settings.fieldManager), s) := by
  obtain ⟨asked, stages⟩ := e.stagesBy_eq make around i s
  have stopped_eq (failure : Failure) (p : Progress σ)
      (run : e.stagesBy make around i { store := s } = (.error failure, p)) :
      ((e.passBy make around i s).1, (e.passBy make around i s).2.store) =
        (ended i p.phase failure, p.store) := by
    unfold passBy
    rw [run]
    cases failure <;> rfl
  rcases outset : e.outset around i with ⟨stage, failure | plan⟩
  · rw [outset] at stages
    exact stopped_eq failure _ stages
  rcases found : e.lookUp around i s plan with ⟨failure | refs, l⟩
  · simp only [outset, found] at stages
    simpa only [found] using stopped_eq failure _ stages
  rcases made : makingBy make around i plan refs with ⟨stage, failure | work⟩
  · simp only [outset, found, made] at stages
    simpa only [found, made] using stopped_eq failure _ stages
  rcases written : OutputStore.publish l.store work.record with ⟨failure | stored, after⟩
  · simp only [outset, found, made, written] at stages
    simpa only [found, made, written] using stopped_eq failure _ stages
  · simp only [outset, found, made, written] at stages
    simp only [passBy, stages, found, made, written]

theorem pass_eq [OutputStore σ] (e : Engine) (around : Surroundings) (i : Instance) (s : σ) :
    ((e.pass around i s).1, (e.pass around i s).2.store) = match e.outset around i with
      | (stage, .error failure) => (ended i stage failure, s)
      | (_, .ok plan) => match e.lookUp around i s plan with
        | (.error failure, l) => (ended i .resolving failure, l.store)
        | (.ok refs, l) => match e.making around i plan refs with
          | (stage, .error failure) => (ended i stage failure, l.store)
          | (_, .ok work) => match OutputStore.publish l.store work.record with
            | (.error failure, s) => (ended i .publishing failure, s)
            | (.ok _, s) => (completed i (work.resources e.settings.fieldManager), s) :=
  e.passBy_eq (e.maker i) around i s

/-- All of a pass but the writing of its record: the last stage that is entered, the work or what
stands in its way, and the store after the lookups. -/
def prepareBy [TargetLookup σ] (make : Maker) (e : Engine) (around : Surroundings) (i : Instance)
    (s : σ) : Phase × Result Work × σ :=
  match e.outset around i with
  | (stage, .error failure) => (stage, .error failure, s)
  | (_, .ok plan) => match e.lookUp around i s plan with
    | (.error failure, l) => (.resolving, .error failure, l.store)
    | (.ok refs, l) =>
      let (stage, outcome) := makingBy make around i plan refs
      (stage, outcome, l.store)

abbrev prepare [TargetLookup σ] (e : Engine) (around : Surroundings) (i : Instance) :
    σ → Phase × Result Work × σ :=
  e.prepareBy (e.maker i) around i

theorem passBy_prepare [OutputStore σ] (make : Maker) (e : Engine) (around : Surroundings)
    (i : Instance) (s : σ) : ((e.passBy make around i s).1, (e.passBy make around i s).2.store) =
      match e.prepareBy make around i s with
      | (stage, .error failure, s) => (ended i stage failure, s)
      | (_, .ok work, s) => match OutputStore.publish s work.record with
        | (.error failure, s) => (ended i .publishing failure, s)
        | (.ok _, s) => (completed i (work.resources e.settings.fieldManager), s) := by
  rw [passBy_eq, prepareBy]
  rcases e.outset around i with ⟨stage, failure | plan⟩
  · rfl
  simp only
  rcases e.lookUp around i s plan with ⟨failure | refs, l⟩
  · rfl
  simp only
  rcases makingBy make around i plan refs with ⟨stage, failure | work⟩ <;> rfl

theorem pass_prepare [OutputStore σ] (e : Engine) (around : Surroundings) (i : Instance) (s : σ) :
    ((e.pass around i s).1, (e.pass around i s).2.store) = match e.prepare around i s with
      | (stage, .error failure, s) => (ended i stage failure, s)
      | (_, .ok work, s) => match OutputStore.publish s work.record with
        | (.error failure, s) => (ended i .publishing failure, s)
        | (.ok _, s) => (completed i (work.resources e.settings.fieldManager), s) :=
  e.passBy_prepare (e.maker i) around i s

/-- The plan of a pass over what it loads. -/
def planned (e : Engine) (around : Surroundings) (i : Instance) : Result Plan := do
  let (c, config) ← e.loaded around i
  plan i c config

variable {σ : Type} [TargetLookup σ]

/-- The stages that a pass enters: each one after those before it have gone well, and only if the
pass is not found cancelled. -/
inductive EntersBy (make : Maker) (e : Engine) (around : Surroundings) (i : Instance) (s : σ) :
    Phase → Prop
  | pending : EntersBy make e around i s .pending
  | loadingConfig : around.cancelled .loadingConfig = false → EntersBy make e around i s .loadingConfig
  | resolving {loaded} : EntersBy make e around i s .loadingConfig →
      e.loaded around i = .ok loaded → around.cancelled .resolving = false →
      EntersBy make e around i s .resolving
  | patching {plan refs} : EntersBy make e around i s .resolving →
      e.planned around i = .ok plan → (e.lookUp around i s plan).1 = .ok refs →
      around.cancelled .patching = false → EntersBy make e around i s .patching
  | publishing {plan refs generated} : EntersBy make e around i s .patching →
      e.planned around i = .ok plan → (e.lookUp around i s plan).1 = .ok refs →
      make plan.composition ⟨plan.fields, refs⟩ = .ok generated →
      around.cancelled .publishing = false → EntersBy make e around i s .publishing

/-- The stage is entered and no later one. -/
def LastEnteredBy (make : Maker) (e : Engine) (around : Surroundings) (i : Instance) (s : σ)
    (stage : Phase) : Prop :=
  e.EntersBy make around i s stage ∧
    ∀ later, e.EntersBy make around i s later → later.position ≤ stage.position

abbrev Enters (e : Engine) (around : Surroundings) (i : Instance) : σ → Phase → Prop :=
  e.EntersBy (e.maker i) around i

abbrev LastEntered (e : Engine) (around : Surroundings) (i : Instance) : σ → Phase → Prop :=
  e.LastEnteredBy (e.maker i) around i

variable {make : Maker} {e : Engine} {around : Surroundings} {i : Instance} {s : σ}

/-- Whatever comes before a stage that is entered is entered too. -/
theorem EntersBy.earlier {stage before : Phase} (entered : e.EntersBy make around i s stage)
    (order : before.position ≤ stage.position) : e.EntersBy make around i s before := by
  induction entered with
  | pending =>
    have same : before = .pending := by revert order; cases before <;> decide
    exact same ▸ .pending
  | loadingConfig goesOn =>
    have split : before = .loadingConfig ∨ before = .pending := by
      revert order; cases before <;> decide
    rcases split with rfl | rfl
    · exact .loadingConfig goesOn
    · exact .pending
  | resolving entered loaded goesOn ih =>
    have split : before = .resolving ∨ before.position ≤ Phase.loadingConfig.position := by
      revert order; cases before <;> decide
    rcases split with rfl | order
    · exact .resolving entered loaded goesOn
    · exact ih order
  | patching entered planned found goesOn ih =>
    have split : before = .patching ∨ before.position ≤ Phase.resolving.position := by
      revert order; cases before <;> decide
    rcases split with rfl | order
    · exact .patching entered planned found goesOn
    · exact ih order
  | publishing entered planned found made goesOn ih =>
    have split : before = .publishing ∨ before.position ≤ Phase.patching.position := by
      revert order; cases before <;> decide
    rcases split with rfl | order
    · exact .publishing entered planned found made goesOn
    · exact ih order

theorem EntersBy.last {stage : Phase} (next : Phase) (entered : e.EntersBy make around i s stage)
    (adjacent : next.position = stage.position + 1) (ends : ¬ e.EntersBy make around i s next) :
    e.LastEnteredBy make around i s stage := by
  refine ⟨entered, fun later enters => ?_⟩
  rcases Nat.lt_or_ge stage.position later.position with after | within
  · exact absurd (enters.earlier (by omega)) ends
  · exact within

theorem planned_of_loaded {c : Composition} {config : LoadedConfig}
    (loaded : e.loaded around i = .ok (c, config)) :
    e.planned around i = Engine.plan i c config := by
  rw [planned, loaded, Result.ok_bind]

/-- What the first part of a pass comes to in each stage. -/
inductive Begins (e : Engine) (around : Surroundings) (i : Instance) : Phase × Result Plan → Prop
  | pending {failure} : around.cancelled .loadingConfig = true →
      Begins e around i (.pending, .error failure)
  | loadingConfig {failure} : around.cancelled .loadingConfig = false →
      (∀ loaded, e.loaded around i = .ok loaded → around.cancelled .resolving = true) →
      Begins e around i (.loadingConfig, .error failure)
  | resolving {loaded outcome} : around.cancelled .loadingConfig = false →
      e.loaded around i = .ok loaded → around.cancelled .resolving = false →
      e.planned around i = outcome → Begins e around i (.resolving, outcome)

theorem begins_outset (e : Engine) (around : Surroundings) (i : Instance) :
    e.Begins around i (e.outset around i) := by
  unfold outset
  cases atLoading : around.cancelled .loadingConfig with
  | true => exact .pending atLoading
  | false =>
    simp only [Bool.false_eq_true, if_false]
    cases loaded : e.loaded around i with
    | error failure => exact .loadingConfig atLoading fun _ other => by simp [loaded] at other
    | ok found =>
      cases atResolving : around.cancelled .resolving with
      | true => exact .loadingConfig atLoading fun _ _ => atResolving
      | false => exact .resolving atLoading loaded atResolving (planned_of_loaded loaded)

/-- A first part that fails names the last stage entered. -/
theorem last_of_outset_error {stage : Phase} {failure : Failure}
    (outset : e.outset around i = (stage, .error failure)) : e.LastEnteredBy make around i s stage := by
  have begins := outset ▸ e.begins_outset around i
  cases begins with
  | pending cancelled =>
    refine EntersBy.pending.last .loadingConfig rfl fun enters => ?_
    cases enters with
    | loadingConfig goesOn => simp [cancelled] at goesOn
  | loadingConfig goesOn stopped =>
    refine (EntersBy.loadingConfig goesOn).last .resolving rfl fun enters => ?_
    cases enters with
    | resolving _ loaded goesOn' => simp [stopped _ loaded] at goesOn'
  | resolving goesOn loaded goesOn' failed =>
    have entered : e.EntersBy make around i s .resolving := .resolving (.loadingConfig goesOn) loaded goesOn'
    refine entered.last .patching rfl fun enters => ?_
    cases enters with
    | patching _ planned => simp [failed] at planned

theorem planned_of_outset_ok {stage : Phase} {plan : Plan}
    (outset : e.outset around i = (stage, .ok plan)) : e.planned around i = .ok plan := by
  have begins := outset ▸ e.begins_outset around i
  cases begins with
  | resolving _ _ _ planned => exact planned

/-- A first part that succeeds enters the resolving. -/
theorem enters_of_outset_ok {stage : Phase} {plan : Plan}
    (outset : e.outset around i = (stage, .ok plan)) : e.EntersBy make around i s .resolving := by
  have begins := outset ▸ e.begins_outset around i
  cases begins with
  | resolving goesOn loaded goesOn' _ => exact .resolving (.loadingConfig goesOn) loaded goesOn'

theorem last_of_lookUp_error {stage : Phase} {plan : Plan} {failure : Failure} {l : Lookups σ}
    (outset : e.outset around i = (stage, .ok plan))
    (found : e.lookUp around i s plan = (.error failure, l)) :
    e.LastEnteredBy make around i s .resolving := by
  have planned := planned_of_outset_ok outset
  have entered : e.EntersBy make around i s .resolving := enters_of_outset_ok outset
  refine entered.last .patching rfl fun enters => ?_
  cases enters with
  | patching _ planned' found' =>
    cases Except.ok.inj (planned.symm.trans planned')
    simp [found] at found'

/-- What the making of a plan comes to in each stage. -/
inductive Makes (make : Maker) (around : Surroundings) (i : Instance) (plan : Plan)
    (refs : Resolutions) : Phase × Result Work → Prop
  | resolving {failure} : around.cancelled .patching = true →
      Makes make around i plan refs (.resolving, .error failure)
  | patching {failure} : around.cancelled .patching = false →
      (∀ generated,
        make plan.composition ⟨plan.fields, refs⟩ = .ok generated →
          around.cancelled .publishing = true) →
      Makes make around i plan refs (.patching, .error failure)
  | publishing {generated outcome} : around.cancelled .patching = false →
      make plan.composition ⟨plan.fields, refs⟩ = .ok generated →
      around.cancelled .publishing = false →
      Work.mk plan refs generated <$> i.record plan.composition plan.fields refs = outcome →
      Makes make around i plan refs (.publishing, outcome)

theorem makes_making (make : Maker) (around : Surroundings) (i : Instance) (plan : Plan)
    (refs : Resolutions) : Makes make around i plan refs (makingBy make around i plan refs) := by
  unfold makingBy
  cases atPatching : around.cancelled .patching with
  | true => exact .resolving atPatching
  | false =>
    simp only [Bool.false_eq_true, if_false]
    cases resources : make plan.composition ⟨plan.fields, refs⟩ with
    | error failure => exact .patching atPatching fun _ other => by simp [resources] at other
    | ok generated =>
      cases atPublishing : around.cancelled .publishing with
      | true => exact .patching atPatching fun _ _ => atPublishing
      | false => exact .publishing atPatching resources atPublishing rfl

theorem last_of_making_error {stage last : Phase} {plan : Plan} {refs : Resolutions}
    {failure : Failure} {l : Lookups σ} (outset : e.outset around i = (stage, .ok plan))
    (found : e.lookUp around i s plan = (.ok refs, l))
    (made : makingBy make around i plan refs = (last, .error failure)) :
    e.LastEnteredBy make around i s last := by
  have planned := planned_of_outset_ok outset
  have entered : e.EntersBy make around i s .resolving := enters_of_outset_ok outset
  have answer : (e.lookUp around i s plan).1 = .ok refs := by rw [found]
  have makes := made ▸ makes_making make around i plan refs
  cases makes with
  | resolving cancelled =>
    refine entered.last .patching rfl fun enters => ?_
    cases enters with
    | patching _ _ _ goesOn => simp [cancelled] at goesOn
  | patching goesOn stopped =>
    refine (EntersBy.patching entered planned answer goesOn).last .publishing rfl fun enters => ?_
    cases enters with
    | publishing _ planned' answer' resources goesOn' =>
      cases Except.ok.inj (planned.symm.trans planned')
      cases Except.ok.inj (answer.symm.trans answer')
      simp [stopped _ resources] at goesOn'
  | publishing goesOn resources goesOn' =>
    have patching := EntersBy.patching entered planned answer goesOn
    refine (EntersBy.publishing patching planned answer resources goesOn').last .complete rfl
      fun enters => ?_
    cases enters

theorem making_ok {last : Phase} {plan : Plan} {refs : Resolutions} {work : Work}
    (made : makingBy make around i plan refs = (last, .ok work)) :
    around.cancelled .patching = false ∧ around.cancelled .publishing = false ∧
      work.plan = plan ∧ work.refs = refs ∧
      make plan.composition ⟨plan.fields, refs⟩ = .ok work.generated ∧
      i.record plan.composition plan.fields refs = .ok work.record := by
  have makes := made ▸ makes_making make around i plan refs
  cases makes with
  | publishing goesOn resources goesOn' making =>
    obtain ⟨record, recorded, rfl⟩ := Result.map_eq_ok.mp making
    exact ⟨goesOn, goesOn', rfl, rfl, resources, recorded⟩

/-- What is made is made in the publishing. -/
theorem last_of_making_ok {stage last : Phase} {plan : Plan} {refs : Resolutions} {work : Work}
    {l : Lookups σ} (outset : e.outset around i = (stage, .ok plan))
    (found : e.lookUp around i s plan = (.ok refs, l))
    (made : makingBy make around i plan refs = (last, .ok work)) :
    e.LastEnteredBy make around i s .publishing := by
  have planned := planned_of_outset_ok outset
  have entered : e.EntersBy make around i s .resolving := enters_of_outset_ok outset
  have answer : (e.lookUp around i s plan).1 = .ok refs := by rw [found]
  obtain ⟨atPatching, atPublishing, -, -, resources, -⟩ := making_ok made
  have patching := EntersBy.patching entered planned answer atPatching
  refine (EntersBy.publishing patching planned answer resources atPublishing).last .complete rfl
    fun enters => ?_
  cases enters

/-- Work is prepared by the parts of a pass one after the other. -/
theorem prepare_ok {after : σ} {last : Phase} {work : Work}
    (prepared : e.prepareBy make around i s = (last, .ok work, after)) :
    ∃ stage plan refs l, e.outset around i = (stage, .ok plan) ∧
      e.lookUp around i s plan = (.ok refs, l) ∧
      makingBy make around i plan refs = (last, .ok work) ∧ after = l.store := by
  unfold prepareBy at prepared
  rcases outset : e.outset around i with ⟨stage, failure | plan⟩
  · rw [outset] at prepared
    cases prepared
  rcases found : e.lookUp around i s plan with ⟨failure | refs, l⟩
  · simp only [outset, found] at prepared
    cases prepared
  rcases made : makingBy make around i plan refs with ⟨stage', outcome⟩
  simp only [outset, found, made] at prepared
  cases prepared
  exact ⟨stage, plan, refs, l, rfl, found, made, rfl⟩

theorem last_of_prepare_ok {after : σ} {last : Phase} {work : Work}
    (prepared : e.prepareBy make around i s = (last, .ok work, after)) :
    e.LastEnteredBy make around i s .publishing := by
  obtain ⟨_, _, _, _, outset, found, made, -⟩ := prepare_ok prepared
  exact last_of_making_ok outset found made

/-- What stands in the way of the work is found in the last stage that is entered. -/
theorem last_of_prepare_error {after : σ} {last : Phase} {failure : Failure}
    (prepared : e.prepareBy make around i s = (last, .error failure, after)) :
    e.LastEnteredBy make around i s last := by
  unfold prepareBy at prepared
  rcases outset : e.outset around i with ⟨stage, failure | plan⟩
  · rw [outset] at prepared
    cases prepared
    exact last_of_outset_error outset
  rcases found : e.lookUp around i s plan with ⟨failure | refs, l⟩
  · simp only [outset, found] at prepared
    cases prepared
    exact last_of_lookUp_error outset found
  rcases made : makingBy make around i plan refs with ⟨stage', outcome⟩
  simp only [outset, found, made] at prepared
  cases prepared
  exact last_of_making_error outset found made

/-- Lookups are all that has been done to the store. -/
theorem kind_prepare (make : Maker) {kind : σ → Prop} (ofKind : kind s)
    (stays : ∀ plan, kind (e.lookUp around i s plan).2.store) : kind (e.prepareBy make around i s).2.2 := by
  unfold prepareBy
  rcases e.outset around i with ⟨stage, failure | plan⟩
  · exact ofKind
  have stays := stays plan
  simp only
  rcases found : e.lookUp around i s plan with ⟨failure | refs, l⟩ <;> rw [found] at stays <;>
    exact stays

end Engine
end WorkloadConfig
