import WorkloadConfig.Proofs.History

namespace WorkloadConfig

namespace Resolver
variable {r : Resolver} {find find' : Finder Result} {reference : Reference}

theorem namespaceOf_congr
    (agree : ∀ key ∈ r.needs find reference, find' key.1 key.2 = find key.1 key.2) :
    r.namespaceOf find' reference = r.namespaceOf find reference := by
  cases reference with
  | output explicit target key =>
    cases explicit with
    | some ns => rfl
    | none =>
      simp only [needs, List.forall_mem_cons] at agree
      obtain ⟨own, behind⟩ := agree
      simp only [namespaceOf, outputNamespace, fallbackNamespace, Finder.exists, own]
      cases here : find r.ns target with
      | error failure => rfl
      | ok found =>
        cases found with
        | some found => rfl
        | none =>
          cases other : r.fallback? with
          | none => rfl
          | some fallback =>
            have there : find' fallback target = find fallback target :=
              behind (fallback, target) (by simp [here, other])
            simp only [there]
  | connection | secret | config => rfl

/-- The target of a reference is looked for under one of the names that it needs. -/
theorem mem_needs_of_namespaceOf {ns : String} (source : r.namespaceOf find reference = .ok ns) :
    (ns, reference.target) ∈ r.needs find reference := by
  cases reference with
  | output explicit target key =>
    cases explicit with
    | some named =>
      cases source
      exact List.mem_singleton.mpr rfl
    | none =>
      obtain ⟨names, -, needed, -⟩ := needs_of_outputNamespace key source
      rw [needed]
      exact List.mem_concat_self
  | connection | secret | config =>
    cases source
    exact List.mem_singleton.mpr rfl

theorem target_of_mem_needs {key : String × String} (needed : key ∈ r.needs find reference) :
    key.2 = reference.target := by
  cases reference with
  | output explicit target _ =>
    cases explicit with
    | some ns => exact congrArg Prod.snd (List.mem_singleton.mp needed)
    | none =>
      rcases List.mem_cons.mp needed with rfl | behind
      · rfl
      · split at behind
        · obtain ⟨fallback, -, rfl⟩ := List.mem_map.mp behind
          rfl
        · cases behind
  | connection | secret | config => exact congrArg Prod.snd (List.mem_singleton.mp needed)

/-- What a reference stands for depends on nothing but the names that it needs. -/
theorem resolveBy_congr
    (agree : ∀ key ∈ r.needs find reference, find' key.1 key.2 = find key.1 key.2) :
    r.resolveBy find' reference = r.resolveBy find reference := by
  rw [resolveBy_eq, resolveBy_eq, namespaceOf_congr agree]
  cases source : r.namespaceOf find reference with
  | error failure => rfl
  | ok ns =>
    have there := agree _ (mem_needs_of_namespaceOf source)
    simp only [Result.ok_bind, Finder.require, there]

end Resolver

namespace Turn
variable {t : Turn} {s : MemoryStore}

/-- The reference is to the instance of the pass itself, in no other namespace than its own. -/
def RefersBack (t : Turn) (reference : Reference) : Prop :=
  reference.target = t.inst.name.text ∧
    ∀ ns target key, reference = .output (some ns) target key → ns = t.inst.ns.text

theorem not_mem_needs {reference : Reference} (away : ¬ t.RefersBack reference)
    (find : Finder Result) :
    (t.inst.ns.text, t.inst.name.text) ∉ t.resolver.needs find reference := by
  intro needed
  refine away ⟨(Resolver.target_of_mem_needs needed).symm, ?_⟩
  rintro ns target key rfl
  exact (congrArg Prod.fst (List.mem_singleton.mp needed)).symm

/-- Whatever does not refer to the instance of a pass stands for the same after the pass. -/
theorem outcome_of_replaced {after : MemoryStore} {record : Record} {reference : Reference}
    (replaced : s.Replaced t.inst record after) (away : ¬ t.RefersBack reference) :
    t.outcome after reference = t.outcome s reference := by
  rw [outcome_eq, outcome_eq]
  refine Resolver.resolveBy_congr fun key needed => ?_
  have other : key ≠ (t.inst.ns.text, t.inst.name.text) := by
    rintro rfl
    exact not_mem_needs away s.view needed
  simp only [MemoryStore.view, replaced.2 key.1 key.2 other]

/-- Every reference of the plan stands for the same in both stores. -/
theorem lookUp_congr {s' : MemoryStore} {plan : Plan}
    (same : ∀ reference ∈ plan.references, t.outcome s' reference = t.outcome s reference) :
    (t.engine.lookUp t.around t.inst s' plan).1 = (t.engine.lookUp t.around t.inst s plan).1 := by
  simp only [outcome_eq] at same
  rw [lookUp_eq, lookUp_eq]
  refine congrArg Resolver.gather (List.map_congr_left fun reference distinct => ?_)
  rw [same reference (List.mem_eraseDups.mp distinct)]

/-- The references of the pass back to its own instance stand for the same over the store that it
leaves as over the one that it met. -/
def Steady (t : Turn) (s : MemoryStore) : Prop :=
  ∀ plan, t.engine.planned t.around t.inst = .ok plan → ∀ reference ∈ plan.references,
    t.RefersBack reference → t.outcome (t.pass s).2 reference = t.outcome s reference

/-- A pass that succeeded, made once more over the store that it left, succeeds again with the same
outcome, and stores the same record one generation later, if the references back to its own
instance still stand for the same. -/
theorem pass_again (succeeds : t.Succeeds s) (steady : t.Steady s) :
    t.Succeeds (t.pass s).2 ∧ (t.pass (t.pass s).2).1 = (t.pass s).1 ∧
      ∃ record, (t.pass s).2.read t.inst.ns.text t.inst.name.text = some record ∧
        (t.pass (t.pass s).2).2.read t.inst.ns.text t.inst.name.text =
          some { record with generation := record.generation + 1 } := by
  rcases t.pass_cases s with ⟨-, work, does, replaced⟩ | ⟨fails, -⟩
  · have found : ∀ plan, t.engine.planned t.around t.inst = .ok plan →
        (t.engine.lookUp t.around t.inst (t.pass s).2 plan).1 =
          (t.engine.lookUp t.around t.inst s plan).1 := by
      intro plan planned
      refine lookUp_congr fun reference member => ?_
      by_cases back : t.RefersBack reference
      · exact steady plan planned reference member back
      · exact outcome_of_replaced replaced back
    have outcome : (t.pass (t.pass s).2).1 = (t.pass s).1 := by
      rw [pass_fst, pass_fst]
      rcases outset : t.engine.outset t.around t.inst with ⟨stage, failure | plan⟩
      · rfl
      · simp only [found plan (Engine.planned_of_outset_ok outset)]
    have again : t.Succeeds (t.pass s).2 := by simpa only [Succeeds, outcome] using succeeds
    rcases t.pass_cases (t.pass s).2 with ⟨-, work', does', replaced'⟩ | ⟨fails, -⟩
    · have does'' : t.Does (t.pass s).2 work :=
        ⟨does.planned, (found _ does.planned).trans does.found, does.generated, does.recorded⟩
      cases does'.unique does''
      refine ⟨again, outcome, _, replaced.own, ?_⟩
      rw [replaced'.own, replaced.own]
      rfl
    · exact absurd again fails
  · exact absurd succeeds fails

/-- A store with the one record of a web server and its address. -/
def ofAddress (ns : String) : MemoryStore where
  records := [((ns, "web"), {
    kind := "App"
    ns
    name := "web"
    outputs := [("url", .str "http://web")]
    connection := ⟨"web-conn", []⟩ })]

/-- An instance that publishes the output of its own that its field refers to. -/
theorem pass_again_ofField :
    let web := ofField ⟨"web", by decide, by decide⟩ "outputs/web/url"
    web.Succeeds (ofAddress "team") ∧ web.Steady (ofAddress "team") ∧
      web.Succeeds (web.pass (ofAddress "team")).2 := by
  intro web
  have succeeds : web.Succeeds (ofAddress "team") := by decide +kernel
  have steady : web.Steady (ofAddress "team") := by
    intro plan planned reference member _
    have references : (web.engine.planned web.around web.inst).toOption.map Plan.references =
      some [.output none "web" "url"] := rfl
    rw [planned] at references
    have listed : plan.references = [.output none "web" "url"] := Option.some.inj references
    rw [listed, List.mem_singleton] at member
    rw [member]
    decide +kernel
  exact ⟨succeeds, steady, (pass_again succeeds steady).1⟩

/-- Before it has a record, an instance that publishes nothing may find the output of its own that
its field refers to in the namespace to fall back on, and no longer once it has one. -/
theorem not_succeeds_again :
    let web : Turn := { ofField ⟨"web", by decide, by decide⟩ "outputs/web/url" with
      engine := {
        registry := [("App", { Composition.ofField "outputs/web/url" with publish := [] })] } }
    web.Succeeds (ofAddress "platform") ∧ ¬ web.Succeeds (web.pass (ofAddress "platform")).2 := by
  decide +kernel

end Turn
end WorkloadConfig
