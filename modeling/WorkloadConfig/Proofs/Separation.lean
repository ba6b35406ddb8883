import WorkloadConfig.Proofs.Identities

namespace WorkloadConfig

theorem append_cons_eq_iff {α : Type} {a b s t : List α} {c : α} (apart : a ≠ b) :
    a ++ c :: s = b ++ c :: t ↔
      (∃ rest, b = a ++ c :: rest ∧ s = rest ++ c :: t) ∨
        ∃ rest, a = b ++ c :: rest ∧ t = rest ++ c :: s := by
  constructor
  · intro joined
    rcases List.append_eq_append_iff.mp joined with ⟨more, rfl, split⟩ | ⟨more, rfl, split⟩
    · cases more with
      | nil => simp at apart
      | cons first rest =>
        obtain ⟨rfl, rfl⟩ := List.cons.inj split
        exact .inl ⟨rest, rfl, rfl⟩
    · cases more with
      | nil => simp at apart
      | cons first rest =>
        obtain ⟨rfl, rfl⟩ := List.cons.inj split
        exact .inr ⟨rest, rfl, rfl⟩
  · rintro (⟨rest, rfl, rfl⟩ | ⟨rest, rfl, rfl⟩) <;> simp

/-- Joined by a hyphen, different names come to the same only if one goes on behind the other. -/
theorem joined_eq_iff {a b s t : String} (apart : a ≠ b) :
    a ++ "-" ++ s = b ++ "-" ++ t ↔
      (∃ rest, b = a ++ "-" ++ rest ∧ s = rest ++ "-" ++ t) ∨
        ∃ rest, a = b ++ "-" ++ rest ∧ t = rest ++ "-" ++ s := by
  have texts : Function.Surjective String.toList := fun list => ⟨.ofList list, String.toList_ofList⟩
  have lists := append_cons_eq_iff (s := s.toList) (t := t.toList) (c := '-')
    fun same => apart (String.toList_inj.mp same)
  rw [texts.exists, texts.exists] at lists
  simpa [← String.toList_inj] using lists

/-- What stands behind the name of an instance in the names of its resources. -/
def Composition.ownNames (c : Composition) : List String :=
  c.templateNames ++ [Template.secretName]

/-- The name of the first instance goes on to that of the second, and a template of the first has the
rest of it before a name that a resource of the second has of its own. -/
def Instance.Shadows (i : Instance) (c : Composition) (j : Instance) (d : Composition) : Prop :=
  ∃ rest, j.name.text = i.name.text ++ "-" ++ rest ∧
    ∃ own ∈ d.ownNames, rest ++ "-" ++ own ∈ c.templateNames

/-- A pointer that a reference to a secret or config of the instance stands for, wherever the
instance is found as the pass published it. -/
inductive Work.Pointed (work : Work) : Pointer → Prop
  | secret {r : Resolver} {find : Finder Result} {held resource key p} : r.ns = work.record.ns →
      find r.ns work.record.name = .ok (some (.ofRecord (work.record.following held))) →
      r.resolveBy find (.secret work.record.name resource key) = .ok (.pointer p) → work.Pointed p
  | config {r : Resolver} {find : Finder Result} {held resource key p} : r.ns = work.record.ns →
      find r.ns work.record.name = .ok (some (.ofRecord (work.record.following held))) →
      r.resolveBy find (.config work.record.name resource key) = .ok (.pointer p) → work.Pointed p

theorem Resolver.shown_of_resolveBy {r : Resolver} {find : Finder Result} {reference : Reference}
    {ns : String} {found : Target} {v : Resolved} (source : r.namespaceOf find reference = .ok ns)
    (finds : find ns reference.target = .ok (some found))
    (resolves : r.resolveBy find reference = .ok v) : r.shown reference found = .ok v := by
  obtain ⟨_, _, source', finds', shown⟩ := resolveBy_eq_ok.mp resolves
  cases Except.ok.inj (source.symm.trans source')
  cases Except.ok.inj (finds.symm.trans finds')
  exact shown

namespace Engine.Does
variable {σ : Type} [TargetLookup σ] {e : Engine} {around : Surroundings} {i : Instance} {s : σ}
  {work : Work}

/-- The names of all resources of the pass, the secret at the end. -/
theorem names_resources (does : e.Does around i s work) (manager : String) :
    (work.resources manager).map (·.identity.name) =
      work.plan.composition.ownNames.map fun own => Value.str (i.name.text ++ "-" ++ own) := by
  rw [Work.resources, Composition.ownNames, List.map_append, List.map_append, does.names_generated]
  simp [does.identity_secret]

theorem mem_of_managed (does : e.Does around i s work) (valid : work.plan.composition.Valid)
    {expected resource : String} {source : PointerSource} {key : Option String} {p : Pointer}
    {held : Option Record}
    (managed : Resolver.managed expected source work.record.name resource key
      (.ofRecord (work.record.following held)) = .ok (.pointer p)) :
    resource ∈ work.plan.composition.templateNames ∧ p.resource = i.name.text ++ "-" ++ resource := by
  have listed : (Target.ofRecord (work.record.following held)).resources =
      some work.record.resources := if_neg (Instance.resources_ne_nil valid does.recorded)
  unfold Resolver.managed at managed
  split at managed
  · obtain ⟨member, same⟩ := (Resolver.checked_eq_ok listed).mp managed
    cases same
    rw [(Instance.record_address does.recorded).2]
    exact ⟨List.mem_map.mpr ((Instance.mem_resources does.recorded resource).mp member), rfl⟩
  · cases managed

/-- Pointers to the instance carry names that its templates have given. -/
theorem exists_of_pointed (does : e.Does around i s work) (valid : work.plan.composition.Valid)
    {p : Pointer} (pointed : work.Pointed p) :
    ∃ own ∈ work.plan.composition.templateNames, p.resource = i.name.text ++ "-" ++ own := by
  cases pointed with
  | secret atNs finds resolves =>
    exact ⟨_, does.mem_of_managed valid (Resolver.shown_of_resolveBy rfl finds resolves)⟩
  | config atNs finds resolves =>
    exact ⟨_, does.mem_of_managed valid (Resolver.shown_of_resolveBy rfl finds resolves)⟩

end Engine.Does

theorem DnsLabel.ne_text {a b : DnsLabel} (apart : a ≠ b) : a.text ≠ b.text := by
  cases a
  cases b
  simpa using apart

namespace Instance
variable {i j : Instance} {c d : Composition}

theorem mem_templateNames_of_hyphen {rest own : String}
    (member : rest ++ "-" ++ own ∈ c.ownNames) : rest ++ "-" ++ own ∈ c.templateNames := by
  rcases List.mem_append.mp member with ofTemplate | ofSecret
  · exact ofTemplate
  · have hyphen : '-' ∈ (rest ++ "-" ++ own).toList := by simp
    rw [List.mem_singleton.mp ofSecret] at hyphen
    exact absurd hyphen (by decide)

/-- Two instances have a name of a resource in common exactly if one of them shadows the other. -/
theorem shadows_iff (names : i.name ≠ j.name) :
    (∃ a ∈ c.ownNames, ∃ b ∈ d.ownNames, i.name.text ++ "-" ++ a = j.name.text ++ "-" ++ b) ↔
      i.Shadows c j d ∨ j.Shadows d i c := by
  simp only [joined_eq_iff (DnsLabel.ne_text names)]
  constructor
  · rintro ⟨a, ofC, b, ofD, ⟨rest, longer, rfl⟩ | ⟨rest, longer, rfl⟩⟩
    · exact .inl ⟨rest, longer, b, ofD, mem_templateNames_of_hyphen ofC⟩
    · exact .inr ⟨rest, longer, a, ofC, mem_templateNames_of_hyphen ofD⟩
  · rintro (⟨rest, longer, own, ofD, ofC⟩ | ⟨rest, longer, own, ofC, ofD⟩)
    · exact ⟨_, List.mem_append_left _ ofC, own, ofD, .inl ⟨rest, longer, rfl⟩⟩
    · exact ⟨own, ofC, _, List.mem_append_left _ ofD, .inr ⟨rest, longer, rfl⟩⟩

end Instance
namespace Engine
variable {σ τ : Type} [OutputStore σ] [OutputStore τ] {e e' : Engine} {around around' : Surroundings}
  {i j : Instance} {s : σ} {s' : τ} {c d : Composition} {o o' : Outcome}

/-- A completed pass gives the names of its instance's composition, and each of them. -/
theorem exists_named_iff (registered : e.registry.get i.kind = .ok c)
    (ends : (e.pass around i s).1 = .ok o) (success : o.success = true) (name : Value) :
    (∃ v ∈ o.resources, v.identity.name = name) ↔
      ∃ own ∈ c.ownNames, .str (i.name.text ++ "-" ++ own) = name := by
  obtain ⟨work, does, complete⟩ := exists_does ends success
  cases does.composition registered
  rw [complete.resources, ← List.mem_map, ← List.mem_map (f := fun own => Value.str _),
    ← does.names_resources]

/-- Pointers to an instance that shadows no other and is shadowed by none carry no name that the
other gives. -/
theorem ne_of_pointed (registered : e.registry.get i.kind = .ok c) (valid : c.Valid) {work : Work}
    {p : Pointer} (does : e.Does around i s work) (pointed : work.Pointed p)
    (apart : ∀ a ∈ c.ownNames, ∀ b ∈ d.ownNames,
      i.name.text ++ "-" ++ a ≠ j.name.text ++ "-" ++ b)
    (registered' : e'.registry.get j.kind = .ok d) (ends' : (e'.pass around' j s').1 = .ok o')
    (success' : o'.success = true) : ∀ w ∈ o'.resources, w.identity.name ≠ .str p.resource := by
  intro w member same
  obtain ⟨b, ofD, named⟩ :=
    (exists_named_iff registered' ends' success' _).mp ⟨w, member, same⟩
  cases does.composition registered
  obtain ⟨a, ofC, pointsAt⟩ := does.exists_of_pointed valid pointed
  refine apart a (List.mem_append_left _ ofC) b ofD (pointsAt.symm.trans ?_)
  simpa using named.symm

/-- Completed passes of two instances generate resources of one name exactly if one of the instances
shadows the other. Otherwise no resource of the one is taken for a resource of the other, and no
pointer to the one carries the name of a resource of the other. -/
theorem instances_apart (names : i.name ≠ j.name)
    (registered : e.registry.get i.kind = .ok c) (valid : c.Valid)
    (ends : (e.pass around i s).1 = .ok o) (success : o.success = true)
    (registered' : e'.registry.get j.kind = .ok d) (valid' : d.Valid)
    (ends' : (e'.pass around' j s').1 = .ok o') (success' : o'.success = true) :
    ((∃ v ∈ o.resources, ∃ w ∈ o'.resources, v.identity.name = w.identity.name) ↔
      i.Shadows c j d ∨ j.Shadows d i c) ∧
    (¬ (i.Shadows c j d ∨ j.Shadows d i c) →
      (∀ v ∈ o.resources, ∀ w ∈ o'.resources, v.identity ≠ w.identity) ∧
      (∀ work p, e.Does around i s work → work.Pointed p →
        ∀ w ∈ o'.resources, w.identity.name ≠ .str p.resource) ∧
      ∀ work p, e'.Does around' j s' work → work.Pointed p →
        ∀ v ∈ o.resources, v.identity.name ≠ .str p.resource) := by
  have named := exists_named_iff registered ends success
  have named' := exists_named_iff registered' ends' success'
  have common : (∃ v ∈ o.resources, ∃ w ∈ o'.resources, v.identity.name = w.identity.name) ↔
      i.Shadows c j d ∨ j.Shadows d i c := by
    rw [← Instance.shadows_iff names]
    constructor
    · rintro ⟨v, ofOne, w, ofOther, same⟩
      obtain ⟨a, ofC, isA⟩ := (named _).mp ⟨v, ofOne, rfl⟩
      obtain ⟨b, ofD, isB⟩ := (named' _).mp ⟨w, ofOther, rfl⟩
      exact ⟨a, ofC, b, ofD, by simpa using isA.trans (same.trans isB.symm)⟩
    · rintro ⟨a, ofC, b, ofD, same⟩
      obtain ⟨v, ofOne, isA⟩ := (named _).mpr ⟨a, ofC, rfl⟩
      obtain ⟨w, ofOther, isB⟩ := (named' _).mpr ⟨b, ofD, rfl⟩
      exact ⟨v, ofOne, w, ofOther, by rw [isA, isB, same]⟩
  refine ⟨common, fun unshadowed => ?_⟩
  have apart : ∀ a ∈ c.ownNames, ∀ b ∈ d.ownNames,
      i.name.text ++ "-" ++ a ≠ j.name.text ++ "-" ++ b := fun a ofC b ofD same =>
    unshadowed ((Instance.shadows_iff names).mp ⟨a, ofC, b, ofD, same⟩)
  refine ⟨fun v ofOne w ofOther same => ?_, fun work p does pointed => ?_,
    fun work p does pointed => ?_⟩
  · exact unshadowed (common.mp ⟨v, ofOne, w, ofOther, congrArg Identity.name same⟩)
  · exact ne_of_pointed registered valid does pointed apart registered' ends' success'
  · exact ne_of_pointed registered' valid' does pointed
      (fun b ofD a ofC => (apart a ofC b ofD).symm) registered ends success

end Engine
namespace Turn

/-- The name of one goes on to that of the other, but its template goes on to none of the other's. -/
theorem instances_apart_ofTemplates :
    let web := ofTemplates ⟨"web", by decide, by decide⟩ [(⟨"api-db", by decide⟩, "Secret")]
    let api := ofTemplates ⟨"web-api", by decide, by decide⟩ [(⟨"main", by decide⟩, "Secret")]
    web.inst.name ≠ api.inst.name ∧ ∃ o o', (web.pass {}).1 = .ok o ∧ o.success = true ∧
      (api.pass {}).1 = .ok o' ∧ o'.success = true ∧
      ∀ v ∈ o.resources, ∀ w ∈ o'.resources, v.identity ≠ w.identity := by
  intro web api
  let c := Composition.ofTemplates [(⟨"api-db", by decide⟩, "Secret")]
  let d := Composition.ofTemplates [(⟨"main", by decide⟩, "Secret")]
  have valid : c.Valid := ⟨rfl, List.cons_ne_nil _ _⟩
  have valid' : d.Valid := ⟨rfl, List.cons_ne_nil _ _⟩
  have names : web.inst.name ≠ api.inst.name := by decide
  have unshadowed : ¬ (web.inst.Shadows c api.inst d ∨ api.inst.Shadows d web.inst c) := by
    rintro (⟨rest, longer, own, ofD, ofC⟩ | ⟨rest, longer, -⟩)
    · have split : "web-api" = "web" ++ "-" ++ "api" := rfl
      cases (String.append_right_inj _).mp (split.symm.trans longer)
      exact (by decide : ∀ own ∈ d.ownNames, "api" ++ "-" ++ own ∉ c.templateNames) own ofD ofC
    · have split : "web-api" = "web" ++ "-api" := rfl
      have lengths : "web".length = ("web" ++ "-api" ++ "-" ++ rest).length :=
        split ▸ congrArg String.length longer
      have behind : "-api".length = 4 := rfl
      simp only [String.length_append, behind] at lengths
      omega
  obtain ⟨o, ends, success⟩ : web.Succeeds {} := by decide +kernel
  obtain ⟨o', ends', success'⟩ : api.Succeeds {} := by decide +kernel
  have apart := (Engine.instances_apart names rfl valid ends success rfl valid' ends' success').2
  exact ⟨names, o, o', ends, success, ends', success', (apart unshadowed).1⟩

/-- What one instance calls after a template the other has in its own name. -/
theorem not_instances_apart :
    let web := ofTemplates ⟨"web", by decide, by decide⟩ [(⟨"api-db", by decide⟩, "Secret")]
    let api := ofTemplates ⟨"web-api", by decide, by decide⟩ [(⟨"db", by decide⟩, "Secret")]
    web.inst.ns = api.inst.ns ∧ web.inst.name ≠ api.inst.name ∧
      ∃ o o', (web.pass {}).1 = .ok o ∧ o.success = true ∧
        (api.pass {}).1 = .ok o' ∧ o'.success = true ∧
        ∃ v ∈ o.resources, ∃ w ∈ o'.resources, v.identity = w.identity := by
  intro web api
  have taken : (web.pass {}).1.toOption.any (fun o => (api.pass {}).1.toOption.any fun o' =>
      o.success && o'.success && decide (∃ v ∈ o.resources, ∃ w ∈ o'.resources,
        v.identity = w.identity)) = true := by decide +kernel
  obtain ⟨o, ends, within⟩ := Result.exists_ok_of_any taken
  obtain ⟨o', ends', holds⟩ := Result.exists_ok_of_any within
  obtain ⟨both, same⟩ := Bool.and_eq_true_iff.mp holds
  obtain ⟨success, success'⟩ := Bool.and_eq_true_iff.mp both
  exact ⟨rfl, by decide, o, o', ends, success, ends', success', of_decide_eq_true same⟩

end Turn
end WorkloadConfig
