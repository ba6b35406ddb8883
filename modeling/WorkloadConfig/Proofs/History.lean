import Mathlib.Data.List.Induction
import WorkloadConfig.Proofs.AllOrNothing

namespace WorkloadConfig

/-- A composition of one template with one field, which is published as well. -/
def Composition.ofField (default : String) : Composition where
  kind := "App"
  resources := [{
    name := ⟨"main", by decide⟩
    kind := "Deployment"
    patches := [{
      field := ⟨"url", by decide⟩
      place := ⟨"spec.url", by decide⟩
      default := .str default }] }]
  publish := [⟨⟨"url", by decide⟩, ⟨"url", by decide⟩, false⟩]

/-- The name and the namespace of the instances that examples are about. -/
def DnsLabel.web : DnsLabel := ⟨"web", by decide, by decide⟩

def DnsLabel.team : DnsLabel := ⟨"team", by decide, by decide⟩

/-- One pass of a run. Each may have an engine, a config source and cancellations of its own. -/
structure Turn where
  engine : Engine
  source : ConfigSource
  cancelled : Phase → Bool := fun _ => false
  inst : Instance

namespace Turn

def around (t : Turn) : Surroundings where
  source := t.source
  cancelled := t.cancelled

/-- The outcome of the pass over a store, and the store that it leaves. -/
def pass (t : Turn) (s : MemoryStore) : Result Outcome × MemoryStore :=
  ((t.engine.pass t.around t.inst s).1, (t.engine.pass t.around t.inst s).2.store)

/-- The store after the passes, one after the other. -/
def after (s : MemoryStore) (turns : List Turn) : MemoryStore :=
  turns.foldl (fun s t => (t.pass s).2) s

theorem after_concat (s : MemoryStore) (turns : List Turn) (t : Turn) :
    after s (turns ++ [t]) = (t.pass (after s turns)).2 := by
  simp only [after, List.foldl_append, List.foldl_cons, List.foldl_nil]

def resolver (t : Turn) : Resolver where
  ns := t.inst.ns.text
  settings := t.engine.settings

theorem ready (t : Turn) (s : MemoryStore) :
    (t.engine.lookups t.around s).Ready s.view (·.records = s.records) s.view :=
  ⟨rfl, rfl, fun _ _ _ held => by cases held⟩

/-- What a reference comes to in the pass over the store. -/
def outcome (t : Turn) (s : MemoryStore) (reference : Reference) : Result Resolved :=
  (t.resolver.resolve reference (t.engine.lookups t.around s)).1

theorem outcome_eq (t : Turn) (s : MemoryStore) (reference : Reference) :
    t.outcome s reference = t.resolver.resolveBy s.view reference := by
  rw [outcome, Resolver.comes_resolve s.shows _ reference _ (t.ready s)]

/-- The lookups of a pass come to what the references stand for in the view of the store, and note
the names that this needs. -/
theorem lookUp_eq (t : Turn) (s : MemoryStore) (plan : Plan) :
    t.engine.lookUp t.around t.inst s plan =
      (Resolver.gather (plan.references.eraseDups.map fun reference =>
          (reference.text, t.resolver.resolveBy s.view reference)),
        (plan.references.eraseDups.flatMap (t.resolver.needs s.view)).foldl Lookups.noting
          (t.engine.lookups t.around s)) :=
  Resolver.resolveAll_eq s.shows t.resolver plan.references (t.ready s)

/-- The outcome depends on the store only by what its lookups come to. -/
theorem pass_fst (t : Turn) (s : MemoryStore) :
    (t.pass s).1 = match t.engine.outset t.around t.inst with
      | (stage, .error failure) => Engine.ended t.inst stage failure
      | (_, .ok plan) => match (t.engine.lookUp t.around t.inst s plan).1 with
        | .error failure => Engine.ended t.inst .resolving failure
        | .ok refs => match t.engine.making t.around t.inst plan refs with
          | (stage, .error failure) => Engine.ended t.inst stage failure
          | (_, .ok work) =>
            Engine.completed t.inst (work.resources t.engine.settings.fieldManager) := by
  have pass := congrArg Prod.fst (t.engine.pass_eq t.around t.inst s)
  refine pass.trans ?_
  rcases t.engine.outset t.around t.inst with ⟨stage, failure | plan⟩
  · rfl
  simp only
  rcases t.engine.lookUp t.around t.inst s plan with ⟨failure | refs, l⟩
  · rfl
  simp only
  rcases t.engine.making t.around t.inst plan refs with ⟨stage, failure | work⟩ <;> rfl

/-- Only lookups are counted, not the writing of a record. -/
theorem pass_lookups (t : Turn) (s : MemoryStore) :
    (t.pass s).2.lookups = match t.engine.outset t.around t.inst with
      | (_, .error _) => s.lookups
      | (_, .ok plan) => (t.engine.lookUp t.around t.inst s plan).2.store.lookups := by
  have pass := congrArg Prod.snd (t.engine.pass_eq t.around t.inst s)
  refine (congrArg MemoryStore.lookups pass).trans ?_
  rcases t.engine.outset t.around t.inst with ⟨stage, failure | plan⟩
  · rfl
  simp only
  rcases t.engine.lookUp t.around t.inst s plan with ⟨failure | refs, l⟩
  · rfl
  simp only
  rcases t.engine.making t.around t.inst plan refs with ⟨stage, failure | work⟩ <;> rfl

def Succeeds (t : Turn) (s : MemoryStore) : Prop :=
  ∃ o, (t.pass s).1 = .ok o ∧ o.success = true

instance (t : Turn) (s : MemoryStore) : Decidable (t.Succeeds s) :=
  decidable_of_iff ((t.pass s).1.toOption.any Outcome.success = true) <| by
    unfold Succeeds
    cases (t.pass s).1 <;> simp [Except.toOption]

def Does (t : Turn) (s : MemoryStore) (work : Work) : Prop :=
  t.engine.Does t.around t.inst s work

def IsFor (t : Turn) (ns name : String) : Prop :=
  t.inst.ns.text = ns ∧ t.inst.name.text = name

variable {t : Turn} {s : MemoryStore} {work : Work} {ns name : String}

theorem pass_cases (t : Turn) (s : MemoryStore) :
    (t.Succeeds s ∧ ∃ work, t.Does s work ∧ s.Replaced t.inst work.record (t.pass s).2) ∨
      ¬ t.Succeeds s ∧ s.Kept (t.pass s).2 := by
  have settles := Engine.settles_memory (t.engine.renders_maker t.inst) t.engine t.around t.inst s
  cases outcome : (t.pass s).1 with
  | error failure =>
    refine .inr ⟨fun ⟨o, succeeds, _⟩ => by simp [outcome] at succeeds, ?_⟩
    have outcome' : (t.engine.passBy (t.engine.maker t.inst) t.around t.inst s).1 = .error failure :=
      outcome
    rw [outcome'] at settles
    exact settles.2
  | ok o =>
    have outcome' : (t.engine.passBy (t.engine.maker t.inst) t.around t.inst s).1 = .ok o := outcome
    rw [outcome'] at settles
    rcases settles with ⟨work, does, complete, replaced⟩ | ⟨stage, -, failed, kept⟩
    · exact .inl ⟨⟨o, outcome, complete.success⟩, work, does.does, replaced⟩
    · refine .inr ⟨?_, kept⟩
      rintro ⟨o', outcome', success⟩
      cases Except.ok.inj (outcome.symm.trans outcome')
      simp [failed.not_success] at success

/-- What a pass makes of a store is determined. -/
theorem Does.unique {other : Work} (one : t.Does s work) (two : t.Does s other) : work = other := by
  obtain ⟨plan, refs, generated, record⟩ := work
  obtain ⟨plan', refs', generated', record'⟩ := other
  cases Except.ok.inj (one.planned.symm.trans two.planned)
  cases Except.ok.inj (one.found.symm.trans two.found)
  cases Except.ok.inj (one.recorded.symm.trans two.recorded)
  have same := (mapM_eq_ok.mpr one.generated).symm.trans (mapM_eq_ok.mpr two.generated)
  cases Except.ok.inj same
  rfl

/-- The turn is the most recent of the run that succeeded for the name, and this is its work. -/
inductive Latest (ns name : String) : List Turn → Turn → Work → Prop
  | now {turns t work} : t.IsFor ns name → t.Succeeds (after {} turns) →
      t.Does (after {} turns) work → Latest ns name (turns ++ [t]) t work
  | still {turns t work} (u : Turn) : Latest ns name turns t work →
      ¬ (u.IsFor ns name ∧ u.Succeeds (after {} turns)) → Latest ns name (turns ++ [u]) t work

/-- The name has had a pass that succeeded. -/
def Had (turns : List Turn) (ns name : String) : Prop :=
  ∃ t work, Latest ns name turns t work

theorem read_replaced {after : MemoryStore} {r : Record} (replaced : s.Replaced t.inst r after)
    (isFor : t.IsFor ns name) : after.read ns name = some (r.following (s.read ns name)) := by
  obtain ⟨rfl, rfl⟩ := isFor
  exact replaced.own

theorem read_replaced_other {after : MemoryStore} {r : Record} (replaced : s.Replaced t.inst r after)
    (other : ¬ t.IsFor ns name) : after.read ns name = s.read ns name := by
  refine replaced.2 ns name fun same => other ?_
  exact ⟨(Prod.mk.inj same).1.symm, (Prod.mk.inj same).2.symm⟩

/-- A record in the store is that of the most recent pass for its name, with a generation. -/
theorem latest_of_read {turns : List Turn} {r : Record} (holds : (after {} turns).read ns name = some r) :
    ∃ t work generation, Latest ns name turns t work ∧ r = { work.record with generation } := by
  induction turns using List.reverseRecOn with
  | nil => simp [after, MemoryStore.read, Table.find?] at holds
  | append_singleton turns u ih =>
    rw [after_concat] at holds
    rcases u.pass_cases (after {} turns) with ⟨succeeds, work, does, replaced⟩ | ⟨fails, kept⟩
    · by_cases isFor : u.IsFor ns name
      · rw [read_replaced replaced isFor] at holds
        exact ⟨u, work, _, .now isFor succeeds does, (Option.some.inj holds).symm⟩
      · rw [read_replaced_other replaced isFor] at holds
        obtain ⟨t, work', generation, latest, same⟩ := ih holds
        exact ⟨t, work', generation, .still u latest fun both => isFor both.1, same⟩
    · rw [kept] at holds
      obtain ⟨t, work', generation, latest, same⟩ := ih holds
      exact ⟨t, work', generation, .still u latest fun both => fails both.2, same⟩

/-- The record of the most recent pass for a name is in the store. -/
theorem read_of_latest {turns : List Turn} (latest : Latest ns name turns t work) :
    ∃ generation, (after {} turns).read ns name = some { work.record with generation } := by
  induction latest with
  | @now turns t work isFor succeeds does =>
    rw [after_concat]
    rcases t.pass_cases (after {} turns) with ⟨-, work', does', replaced⟩ | ⟨fails, -⟩
    · rw [read_replaced replaced isFor, does.unique does']
      exact ⟨_, rfl⟩
    · exact absurd succeeds fails
  | @still turns t work u latest other ih =>
    rw [after_concat]
    rcases u.pass_cases (after {} turns) with ⟨succeeds, work', -, replaced⟩ | ⟨-, kept⟩
    · rw [read_replaced_other replaced fun isFor => other ⟨isFor, succeeds⟩]
      exact ih
    · rw [kept]
      exact ih

/-- There is but one most recent pass. -/
theorem Latest.unique {turns : List Turn} {u : Turn} {other : Work}
    (one : Latest ns name turns t work) (two : Latest ns name turns u other) :
    t = u ∧ work = other := by
  induction one with
  | @now turns t work isFor succeeds does =>
    generalize run : turns ++ [t] = all at two
    cases two with
    | @now turns' t' work' isFor' succeeds' does' =>
      obtain ⟨rfl, same⟩ := List.append_inj' run rfl
      cases same
      exact ⟨rfl, does.unique does'⟩
    | @still turns' t' work' u' latest absent =>
      obtain ⟨rfl, same⟩ := List.append_inj' run rfl
      cases same
      exact absurd ⟨isFor, succeeds⟩ absent
  | @still turns t work v latest absent ih =>
    generalize run : turns ++ [v] = all at two
    cases two with
    | @now turns' t' work' isFor succeeds does =>
      obtain ⟨rfl, same⟩ := List.append_inj' run rfl
      cases same
      exact absurd ⟨isFor, succeeds⟩ absent
    | @still turns' t' work' u' latest' absent' =>
      obtain ⟨rfl, same⟩ := List.append_inj' run rfl
      exact ih latest'

/-- A name has had a pass that succeeded if one of the run did so over the store that it met. -/
theorem had_iff_succeeded {turns : List Turn} : Had turns ns name ↔
    ∃ earlier t later, turns = earlier ++ t :: later ∧ t.IsFor ns name ∧
      t.Succeeds (after {} earlier) := by
  constructor
  · rintro ⟨t, work, latest⟩
    induction latest with
    | @now turns t work isFor succeeds _ => exact ⟨turns, t, [], rfl, isFor, succeeds⟩
    | still u _ _ ih =>
      obtain ⟨earlier, t, later, rfl, isFor, succeeds⟩ := ih
      exact ⟨earlier, t, later ++ [u], by simp, isFor, succeeds⟩
  · rintro ⟨earlier, t, later, rfl, isFor, succeeds⟩
    induction later using List.reverseRecOn with
    | nil =>
      rcases t.pass_cases (after {} earlier) with ⟨-, work, does, -⟩ | ⟨fails, -⟩
      · exact ⟨t, work, .now isFor succeeds does⟩
      · exact absurd succeeds fails
    | append_singleton later u ih =>
      obtain ⟨t', work, latest⟩ := ih
      rw [← List.cons_append, ← List.append_assoc]
      by_cases again : u.IsFor ns name ∧ u.Succeeds (after {} (earlier ++ t :: later))
      · rcases u.pass_cases (after {} (earlier ++ t :: later)) with ⟨-, work', does, -⟩ | ⟨fails, -⟩
        · exact ⟨u, work', .now again.1 again.2 does⟩
        · exact absurd again.2 fails
      · exact ⟨t', work, .still u latest again⟩

/-- A pass of an instance of a composition of one field, in a cluster that sets no values. -/
def ofField (name : DnsLabel) (default : String) : Turn where
  engine := { registry := [("App", .ofField default)] }
  source := .ofRecords [.map [
    ("metadata", .map [("name", .str "main"), ("labels", .map [("type", .str "cluster")])]),
    ("spec", .map [("environment", .map [("name", .str "main")])])]]
  inst := { kind := "App", name, ns := .team }

end Turn
end WorkloadConfig
