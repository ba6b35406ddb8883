import WorkloadConfig.Proofs.Rendering
import WorkloadConfig.Proofs.Stages
import WorkloadConfig.Store.Memory

namespace WorkloadConfig

/-- The outcome of a pass that went all the way and made the resources. -/
structure Outcome.Complete (o : Outcome) (made : List Value) : Prop where
  phase : o.phase = .complete
  published : o.published = true
  resources : o.resources = made
  rendered : o.rendered = Json.canonical (.list made)
  condition : ∃ ready, o.conditions = [ready] ∧ ready.type = "Ready" ∧ ready.status = "True"
  failedStage : o.failedStage = none

/-- The outcome of a pass that was stopped in the stage. -/
structure Outcome.Failed (o : Outcome) (stage : Phase) : Prop where
  phase : o.phase = .failed
  published : o.published = false
  resources : o.resources = []
  rendered : o.rendered = ""
  condition : ∃ unready, o.conditions = [unready] ∧ unready.type = "Ready" ∧
    unready.status = "False" ∧ o.errorCode? = some unready.reason
  failedStage : o.failedStage = some stage

theorem Outcome.Complete.success {o : Outcome} {made : List Value} (complete : o.Complete made) :
    o.success = true := by
  simp [Outcome.success, complete.phase]

theorem Outcome.Failed.not_success {o : Outcome} {stage : Phase} (failed : o.Failed stage) :
    o.success = false := by
  simp [Outcome.success, failed.phase]

/-- The record is one that the instance publishes. -/
def Instance.Records (i : Instance) (r : Record) : Prop :=
  ∃ c fields refs, i.record c fields refs = .ok r

theorem Instance.Records.address {i : Instance} {r : Record} (records : i.Records r) :
    r.ns = i.ns.text ∧ r.name = i.name.text := by
  obtain ⟨c, fields, refs, recorded⟩ := records
  exact record_address recorded

namespace Engine

/-- The work of a pass in which nothing is in the way. -/
structure Does {σ : Type} [TargetLookup σ] (e : Engine) (around : Surroundings) (i : Instance)
    (s : σ) (work : Work) : Prop where
  planned : e.planned around i = .ok work.plan
  found : (e.lookUp around i s work.plan).1 = .ok work.refs
  generated : List.Forall₂
    (fun t v => i.resource e.settings.fieldManager work.plan.fields work.refs t = .ok v)
    work.plan.composition.resources work.generated
  recorded : i.record work.plan.composition work.plan.fields work.refs = .ok work.record

/-- The work of a pass whose resources are made in the given way. -/
structure DoesBy {σ : Type} [TargetLookup σ] (make : Maker) (e : Engine) (around : Surroundings)
    (i : Instance) (s : σ) (work : Work) : Prop where
  planned : e.planned around i = .ok work.plan
  found : (e.lookUp around i s work.plan).1 = .ok work.refs
  made : make work.plan.composition ⟨work.plan.fields, work.refs⟩ = .ok work.generated
  recorded : i.record work.plan.composition work.plan.fields work.refs = .ok work.record

variable {σ : Type}

theorem DoesBy.does [TargetLookup σ] {e : Engine} {around : Surroundings} {i : Instance} {s : σ}
    {work : Work} (does : e.DoesBy (e.maker i) around i s work) : e.Does around i s work :=
  ⟨does.planned, does.found, mapM_eq_ok.mp does.made, does.recorded⟩

/-- Whatever is made has canonical text. -/
def Maker.Renders (make : Maker) : Prop :=
  ∀ c r generated, make c r = .ok generated → ∀ v ∈ generated, v.hasOrder = true ∧ v.isWritable = true

theorem renders_maker (e : Engine) (i : Instance) : (e.maker i).Renders := by
  intro c r generated made v member
  obtain ⟨t, -, comes⟩ := exists_of_forall₂ (mapM_eq_ok.mp made).flip member
  exact Instance.resource_renders comes

/-- The pass completes and the record has been replaced, or it fails in the last stage that it
entered and what was kept still is, or something outside the domain escapes and it still is. -/
def SettlesBy [TargetLookup σ] (make : Maker) (e : Engine) (around : Surroundings) (i : Instance)
    (s : σ) (kept : σ → Prop) (replaced : Record → σ → Prop) : Result Outcome × σ → Prop
  | (.ok o, after) =>
    (∃ work, e.DoesBy make around i s work ∧ o.Complete (work.resources e.settings.fieldManager) ∧
      replaced work.record after) ∨
    (∃ stage, e.LastEnteredBy make around i s stage ∧ o.Failed stage ∧ kept after)
  | (.error failure, after) => (∀ cause, failure ≠ .resolution cause) ∧ kept after

theorem failed_stopped (i : Instance) (stage : Phase) (cause : Cause) :
    (stopped i stage cause).Failed stage :=
  ⟨rfl, rfl, rfl, rfl, ⟨_, rfl, rfl, rfl, rfl⟩, rfl⟩

/-- What a failure ends is not complete. -/
theorem not_success_ended {i : Instance} {stage : Phase} {failure : Failure} {o : Outcome}
    (ends : ended i stage failure = .ok o) : o.success = false := by
  cases failure with
  | resolution cause =>
    cases ends
    exact (failed_stopped i stage cause).not_success
  | _ => cases ends

variable {make : Maker} {e : Engine} {around : Surroundings} {i : Instance} {s after : σ}
variable {kept : σ → Prop} {replaced : Record → σ → Prop}

theorem settles_ended [TargetLookup σ] {stage : Phase} (last : e.LastEnteredBy make around i s stage)
    (failure : Failure) (stays : kept after) :
    e.SettlesBy make around i s kept replaced (ended i stage failure, after) := by
  cases failure with
  | resolution cause => exact .inr ⟨stage, last, failed_stopped i stage cause, stays⟩
  | _ => exact ⟨by simp, stays⟩

/-- Once the record is written the pass completes: what was made can be rendered. -/
theorem completed_of_making {plan : Plan} {refs : Resolutions} {last : Phase} {work : Work}
    (renders : make.Renders) (made : makingBy make around i plan refs = (last, .ok work)) :
    ∃ o, completed i (work.resources e.settings.fieldManager) = .ok o ∧
      o.Complete (work.resources e.settings.fieldManager) := by
  obtain ⟨-, -, -, -, generated, -⟩ := making_ok made
  have rendered := render_resources work.record e.settings.fieldManager (renders _ _ _ generated)
  simp only [completed, Work.resources, rendered, Result.ok_bind]
  exact ⟨_, rfl, rfl, rfl, rfl, rfl, ⟨_, rfl, rfl, rfl⟩, rfl⟩

theorem doesBy_of_making [TargetLookup σ] {stage last : Phase} {plan : Plan} {refs : Resolutions}
    {work : Work} (outset : e.outset around i = (stage, .ok plan))
    (found : (e.lookUp around i s plan).1 = .ok refs)
    (made : makingBy make around i plan refs = (last, .ok work)) : e.DoesBy make around i s work := by
  obtain ⟨-, -, rfl, rfl, generated, recorded⟩ := making_ok made
  exact ⟨planned_of_outset_ok outset, found, generated, recorded⟩

theorem does_of_making [TargetLookup σ] {stage last : Phase} {plan : Plan} {refs : Resolutions}
    {work : Work} (outset : e.outset around i = (stage, .ok plan))
    (found : (e.lookUp around i s plan).1 = .ok refs)
    (made : e.making around i plan refs = (last, .ok work)) : e.Does around i s work :=
  (doesBy_of_making outset found made).does

theorem doesBy_of_prepare [TargetLookup σ] {last : Phase} {work : Work} (renders : make.Renders)
    (prepared : e.prepareBy make around i s = (last, .ok work, after)) :
    e.DoesBy make around i s work ∧ ∃ o, completed i (work.resources e.settings.fieldManager) = .ok o ∧
      o.Complete (work.resources e.settings.fieldManager) := by
  obtain ⟨_, _, _, _, outset, found, made, -⟩ := prepare_ok prepared
  exact ⟨doesBy_of_making outset (congrArg Prod.fst found) made, completed_of_making renders made⟩

variable [OutputStore σ]

/-- A pass over any store is all or nothing if its publications are, for every kind that the store is
of and that lookups leave it of. -/
theorem settles_of_stays (renders : make.Renders) (kind : σ → Prop) (ofKind : kind s)
    (stays : ∀ plan, kind (e.lookUp around i s plan).2.store) (keeps : ∀ s', kind s' → kept s')
    (fails : ∀ s' r failure after, kind s' →
      OutputStore.publish s' r = (.error failure, after) → kept after)
    (publishes : ∀ s' r stored after, kind s' → i.Records r →
      OutputStore.publish s' r = (.ok stored, after) → replaced r after) :
    e.SettlesBy make around i s kept replaced
      ((e.passBy make around i s).1, (e.passBy make around i s).2.store) := by
  rw [passBy_prepare]
  have stays := kind_prepare make ofKind stays
  rcases prepared : e.prepareBy make around i s with ⟨last, failure | work, before⟩ <;>
    rw [prepared] at stays
  · exact settles_ended (last_of_prepare_error prepared) failure (keeps _ stays)
  obtain ⟨does, o, completes, complete⟩ := doesBy_of_prepare renders prepared
  -- Nothing has written to the store so far, and nothing can fail after this has.
  rcases written : OutputStore.publish before work.record with ⟨failure | stored, after⟩
  · simp only [written]
    exact settles_ended (last_of_prepare_ok prepared) failure (fails _ _ _ _ stays written)
  · simp only [written, completes]
    exact .inl ⟨work, does, complete, publishes _ _ _ _ stays ⟨_, _, _, does.recorded⟩ written⟩

/-- Whatever store a pass succeeds over, nothing was in the way of its work. -/
theorem exists_does {o : Outcome} (ends : (e.pass around i s).1 = .ok o)
    (success : o.success = true) :
    ∃ work, e.Does around i s work ∧ o.Complete (work.resources e.settings.fieldManager) := by
  have settles : e.SettlesBy (e.maker i) around i s (fun _ => True) (fun _ _ => True)
      ((e.pass around i s).1, (e.pass around i s).2.store) :=
    settles_of_stays (e.renders_maker i) (fun _ => True) trivial (by simp) (by simp) (by simp) (by simp)
  rw [ends] at settles
  rcases settles with ⟨work, does, complete, -⟩ | ⟨stage, -, failed, -⟩
  · exact ⟨work, does.does, complete⟩
  · simp [failed.not_success] at success

end Engine

/-- Every record is as it was. -/
def MemoryStore.Kept (s after : MemoryStore) : Prop :=
  ∀ ns name, after.read ns name = s.read ns name

/-- The record stands under the instance's name, one generation after the one before it, and every
other record is as it was. -/
def MemoryStore.Replaced (s : MemoryStore) (i : Instance) (r : Record) (after : MemoryStore) : Prop :=
  after.read i.ns.text i.name.text = some { r with
    generation := match s.read i.ns.text i.name.text with
      | some old => old.generation + 1
      | none => 1 } ∧
    ∀ ns name, (ns, name) ≠ (i.ns.text, i.name.text) → after.read ns name = s.read ns name

theorem MemoryStore.Replaced.own {s after : MemoryStore} {i : Instance} {r : Record}
    (replaced : s.Replaced i r after) : after.read i.ns.text i.name.text =
      some (r.following (s.read i.ns.text i.name.text)) :=
  replaced.1

theorem MemoryStore.replaced_publish {s before : MemoryStore} {i : Instance} {r : Record}
    (same : before.records = s.records) (recorded : i.Records r) :
    s.Replaced i r (before.publish r).2 := by
  obtain ⟨atNs, atName⟩ := recorded.address
  rw [Replaced, ← atNs, ← atName]
  simp only [publish, read, same]
  exact ⟨Table.find?_put_self _ _ _, fun ns name other => Table.find?_put_of_ne _ _ other⟩

/-- A pass over records in memory is all or nothing, however its resources are made. -/
theorem Engine.settles_memory {make : Maker} (renders : make.Renders) (e : Engine)
    (around : Surroundings) (i : Instance) (s : MemoryStore) :
    e.SettlesBy make around i s s.Kept (s.Replaced i)
      ((e.passBy make around i s).1, (e.passBy make around i s).2.store) := by
  refine settles_of_stays renders (·.records = s.records) rfl
    (fun plan => e.kind_lookUp s.shows around i plan rfl) ?_ ?_ ?_
  · intro before same ns name
    simp only [MemoryStore.read, same]
  · intro before r failure after _ published
    cases published
  · intro before r stored after same recorded published
    cases published
    exact MemoryStore.replaced_publish same recorded

end WorkloadConfig
