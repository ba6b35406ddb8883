import WorkloadConfig.Proofs.History

namespace WorkloadConfig

namespace MemoryStore
variable {s s' : MemoryStore} {ns : String}

/-- The same names have records in the namespace, with the same outputs. -/
def OutputsAgree (s s' : MemoryStore) (ns : String) : Prop :=
  ∀ name, (s'.read ns name).map Record.outputs = (s.read ns name).map Record.outputs

theorem exists_view (s : MemoryStore) (ns name : String) :
    Finder.exists s.view ns name = .ok (s.read ns name).isSome := by
  rw [← Option.isSome_map (f := Target.ofRecord)]
  rfl

theorem OutputsAgree.exists_eq (agree : s.OutputsAgree s' ns) (name : String) :
    Finder.exists s'.view ns name = Finder.exists s.view ns name := by
  have same := congrArg Option.isSome (agree name)
  simp only [Option.isSome_map] at same
  rw [exists_view, exists_view, same]

/-- An output depends on the outputs of its target only. -/
theorem OutputsAgree.output_eq (agree : s.OutputsAgree s' ns) (target key : String) :
    (Finder.require s'.view ns target >>= Resolver.output target key) =
      (Finder.require s.view ns target >>= Resolver.output target key) := by
  have same := agree target
  simp only [Finder.require, view]
  cases one : s.read ns target with
  | none =>
    cases two : s'.read ns target with
    | none => rfl
    | some r' => simp [one, two] at same
  | some r =>
    cases two : s'.read ns target with
    | none => simp [one, two] at same
    | some r' =>
      simp only [one, two, Option.map_some, Option.some.injEq] at same
      simp only [Option.map_some, Result.ok_bind, Result.pure_eq, Resolver.output, Target.ofRecord,
        same]

end MemoryStore

namespace Resolver
variable {r : Resolver} {s s' : MemoryStore}

theorem require_eq (own : ∀ name, s'.view r.ns name = s.view r.ns name) (name : String) :
    Finder.require s'.view r.ns name = Finder.require s.view r.ns name := by
  simp only [Finder.require, own]

/-- An output without a namespace of its own depends on what the own namespace shows and on the
outputs of the one to fall back on. -/
theorem resolveBy_output (own : ∀ name, s'.view r.ns name = s.view r.ns name)
    (fallback : ∀ ns, r.fallback? = some ns → s.OutputsAgree s' ns) (target key : String) :
    r.resolveBy s'.view (.output none target key) = r.resolveBy s.view (.output none target key) := by
  have here : Finder.exists s'.view r.ns target = Finder.exists s.view r.ns target := by
    simp only [Finder.exists, own]
  simp only [resolveBy_eq, namespaceOf, outputNamespace, here, MemoryStore.exists_view,
    Result.ok_bind]
  cases (s.read r.ns target).isSome with
  | true => simp only [if_true, Result.pure_eq, Result.ok_bind, Reference.target, require_eq own]
  | false =>
    simp only [Bool.false_eq_true, if_false, fallbackNamespace]
    cases other : r.fallback? with
    | none => rfl
    | some ns =>
      have agree := fallback ns other
      have there := agree.exists_eq target
      simp only [MemoryStore.exists_view, Except.ok.injEq] at there
      simp only [MemoryStore.exists_view, there, Result.ok_bind]
      cases (s.read ns target).isSome with
      | true => exact agree.output_eq target key
      | false => rfl

/-- Connections, secrets and configs are looked for in the own namespace only. -/
theorem resolveBy_own (own : ∀ name, s'.view r.ns name = s.view r.ns name) {reference : Reference}
    (notOutput : ∀ ns target key, reference ≠ .output ns target key) :
    r.resolveBy s'.view reference = r.resolveBy s.view reference := by
  cases reference with
  | output ns target key => exact absurd rfl (notOutput ns target key)
  | connection target key =>
    simp only [resolveBy_eq, namespaceOf, Result.pure_eq, Result.ok_bind, require_eq own]
  | secret target resource key =>
    simp only [resolveBy_eq, namespaceOf, Result.pure_eq, Result.ok_bind, require_eq own]
  | config target resource key =>
    simp only [resolveBy_eq, namespaceOf, Result.pure_eq, Result.ok_bind, require_eq own]

/-- What resolves to a pointer is shown by a record of the own namespace. -/
theorem record_of_pointer {reference : Reference} {pointer : Pointer}
    (resolves : r.resolveBy s.view reference = .ok (.pointer pointer)) :
    ∃ record, s.read r.ns reference.target = some record ∧
      r.shown reference (.ofRecord record) = .ok (.pointer pointer) := by
  obtain ⟨ns, found, answer, finds, shown⟩ := resolveBy_eq_ok.mp resolves
  have own : ns = r.ns := by
    cases reference with
    | output explicit target key =>
      obtain ⟨_, -, literal⟩ := output_eq_ok.mp shown
      cases literal
    | connection | secret | config => exact (Except.ok.inj answer).symm
  subst own
  obtain ⟨record, holds, rfl⟩ := Option.map_eq_some_iff.mp (Except.ok.inj finds)
  exact ⟨record, holds, shown⟩

theorem mem_of_gather {outcomes : List (String × Result Resolved)} {refs : Resolutions}
    (gathered : gather outcomes = .ok refs) {text : String} {v : Resolved}
    (member : (text, v) ∈ refs) : (text, .ok v) ∈ outcomes := by
  induction outcomes generalizing refs with
  | nil =>
    cases gathered
    cases member
  | cons first rest ih =>
    simp only [gather, Result.bind_eq_ok] at gathered
    obtain ⟨resolved, comes, others, gathers, same⟩ := gathered
    cases same
    rcases List.mem_cons.mp member with own | later
    · cases own
      rw [← comes]
      exact List.mem_cons_self
    · exact List.mem_cons_of_mem _ (ih gathers later)

end Resolver

namespace Turn
variable {t : Turn} {s s' : MemoryStore}

/-- An output reference among the merged values of the pass names the namespace. -/
def Names (t : Turn) (ns : String) : Prop :=
  ∃ plan target key, t.engine.planned t.around t.inst = .ok plan ∧
    .output (some ns) target key ∈ plan.references

/-- The stores show the same of every record in the namespace of the pass, and have the same outputs
in the namespace to fall back on and in those that the references name. -/
structure Agree (t : Turn) (s s' : MemoryStore) : Prop where
  own : ∀ name, s'.view t.inst.ns.text name = s.view t.inst.ns.text name
  fallback : t.engine.settings.fallbackNamespace ≠ "" →
    s.OutputsAgree s' t.engine.settings.fallbackNamespace
  named : ∀ ns, t.Names ns → s.OutputsAgree s' ns

theorem Agree.outcome_eq (agree : t.Agree s s') {plan : Plan} {reference : Reference}
    (planned : t.engine.planned t.around t.inst = .ok plan) (member : reference ∈ plan.references) :
    t.outcome s' reference = t.outcome s reference := by
  rw [Turn.outcome_eq, Turn.outcome_eq]
  cases reference with
  | output explicit target key =>
    cases explicit with
    | some ns =>
      simp only [Resolver.resolveBy_eq, Resolver.namespaceOf, Resolver.outputNamespace,
        Result.pure_eq, Result.ok_bind]
      exact (agree.named ns ⟨plan, target, key, planned, member⟩).output_eq target key
    | none =>
      refine Resolver.resolveBy_output agree.own (fun ns other => ?_) target key
      obtain ⟨rfl, given, -⟩ := Resolver.fallback?_eq_some.mp other
      exact agree.fallback given
  | connection | secret | config =>
    exact Resolver.resolveBy_own agree.own fun _ _ _ other => by cases other

theorem Agree.fst_eq (agree : t.Agree s s') : (t.pass s').1 = (t.pass s).1 := by
  rw [pass_fst, pass_fst]
  rcases outset : t.engine.outset t.around t.inst with ⟨stage, failure | plan⟩
  · rfl
  have planned := Engine.planned_of_outset_ok outset
  have same : (plan.references.eraseDups.map fun reference =>
        (reference.text, t.resolver.resolveBy s'.view reference)) =
      plan.references.eraseDups.map fun reference =>
        (reference.text, t.resolver.resolveBy s.view reference) := by
    refine List.map_congr_left fun reference member => ?_
    have outcome := agree.outcome_eq planned (List.mem_eraseDups.mp member)
    rw [Turn.outcome_eq, Turn.outcome_eq] at outcome
    rw [outcome]
  simp only [lookUp_eq, same]

/-- A pass has the same outcome over stores that agree on what it may see. Whatever is no output is
looked for in the own namespace only, and a record there shows every pointer. -/
theorem pass_isolated (t : Turn) (s s' : MemoryStore) :
    (t.Agree s s' → (t.pass s').1 = (t.pass s).1) ∧
      ((∀ name, s'.view t.inst.ns.text name = s.view t.inst.ns.text name) →
        ∀ reference : Reference, (∀ ns target key, reference ≠ .output ns target key) →
          t.outcome s' reference = t.outcome s reference) ∧
      ∀ plan refs text pointer, (t.engine.lookUp t.around t.inst s plan).1 = .ok refs →
        (text, .pointer pointer) ∈ refs →
          ∃ reference ∈ plan.references, reference.text = text ∧
            ∃ record, s.read t.inst.ns.text reference.target = some record ∧
              t.resolver.shown reference (.ofRecord record) = .ok (.pointer pointer) := by
  refine ⟨fun agree => agree.fst_eq, fun own reference notOutput => ?_, ?_⟩
  · rw [Turn.outcome_eq, Turn.outcome_eq]
    exact Resolver.resolveBy_own own notOutput
  · intro plan refs text pointer found member
    rw [lookUp_eq] at found
    obtain ⟨reference, distinct, same⟩ := List.mem_map.mp (Resolver.mem_of_gather found member)
    obtain ⟨rfl, resolves⟩ := Prod.mk.inj same
    exact ⟨reference, List.mem_eraseDups.mp distinct, rfl, Resolver.record_of_pointer resolves⟩

/-- A store with the one record of a database of the kind in another namespace. -/
def ofKind (kind : String) : MemoryStore where
  records := [(("other", "db"), {
    kind
    ns := "other"
    name := "db"
    outputs := [("url", .str "http://db")]
    connection := ⟨kind, []⟩ })]

theorem agree_ofKind (t : Turn) (inTeam : t.inst.ns.text = "team") (kind other : String) :
    t.Agree (ofKind kind) (ofKind other) := by
  have outputs (ns : String) : (ofKind kind).OutputsAgree (ofKind other) ns := by
    intro name
    simp only [MemoryStore.read, ofKind, Table.find?]
    split <;> rfl
  refine ⟨fun name => ?_, fun _ => outputs _, fun ns _ => outputs ns⟩
  simp [inTeam, MemoryStore.view, MemoryStore.read, ofKind, Table.find?]

theorem pass_isolated_ofKind :
    let web := ofField ⟨"web", by decide, by decide⟩ "other::outputs/db/url"
    web.Names "other" ∧ web.Agree (ofKind "First") (ofKind "Second") ∧
      (ofKind "First").records ≠ (ofKind "Second").records ∧
      (web.pass (ofKind "Second")).1 = (web.pass (ofKind "First")).1 := by
  intro web
  let plan : Plan := {
    composition := .ofField "other::outputs/db/url"
    config := ⟨⟨"main", ⟨"main", "", ""⟩, []⟩, none⟩
    fields := [("url", .str "other::outputs/db/url")]
    references := [.output (some "other") "db" "url"] }
  have names : web.Names "other" := ⟨plan, "db", "url", rfl, List.mem_singleton.mpr rfl⟩
  have agree := agree_ofKind web rfl "First" "Second"
  exact ⟨names, agree, by decide, (pass_isolated web _ _).1 agree⟩

end Turn
end WorkloadConfig
