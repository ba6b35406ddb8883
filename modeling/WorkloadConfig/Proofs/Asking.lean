import WorkloadConfig.Proofs.Independence
import WorkloadConfig.Proofs.Order.Declarations
import WorkloadConfig.Proofs.Precedence
import WorkloadConfig.Proofs.Reporting.Stages

namespace WorkloadConfig

namespace Resolver

/-- The name has to be looked up for the reference: that of its target in the namespace that it
speaks of, and for an output without a namespace that is missing there the name in the one to fall
back on. -/
inductive Needs (r : Resolver) (s : MemoryStore) : Reference → String × String → Prop
  | named (ns target key : String) : Needs r s (.output (some ns) target key) (ns, target)
  | output (target key : String) : Needs r s (.output none target key) (r.ns, target)
  | fallback {target : String} (key : String) : s.read r.ns target = none →
      r.settings.fallbackNamespace ≠ "" → r.settings.fallbackNamespace ≠ r.ns →
      Needs r s (.output none target key) (r.settings.fallbackNamespace, target)
  | connection (target key : String) : Needs r s (.connection target key) (r.ns, target)
  | secret (target resource : String) (key : Option String) :
      Needs r s (.secret target resource key) (r.ns, target)
  | config (target resource : String) (key : Option String) :
      Needs r s (.config target resource key) (r.ns, target)

theorem mem_needs_iff {r : Resolver} {s : MemoryStore} {reference : Reference}
    {name : String × String} : name ∈ r.needs s.view reference ↔ r.Needs s reference name := by
  constructor
  · intro needed
    cases reference with
    | output explicit target key =>
      cases explicit with
      | some ns =>
        obtain rfl := List.mem_singleton.mp needed
        exact .named ns target key
      | none =>
        rcases List.mem_cons.mp needed with rfl | behind
        · exact .output target key
        cases found : s.read r.ns target with
        | some record => simp [MemoryStore.view, found] at behind
        | none =>
          simp only [MemoryStore.view, found, Option.map_none, List.mem_map,
            Option.mem_toList] at behind
          obtain ⟨ns, isFallback, rfl⟩ := behind
          obtain ⟨rfl, given, other⟩ := fallback?_eq_some.mp isFallback
          exact .fallback key found given other
    | connection target key =>
      obtain rfl := List.mem_singleton.mp needed
      exact .connection target key
    | secret target resource key =>
      obtain rfl := List.mem_singleton.mp needed
      exact .secret target resource key
    | config target resource key =>
      obtain rfl := List.mem_singleton.mp needed
      exact .config target resource key
  · intro needed
    cases needed with
    | named | output | connection | secret | config => exact List.mem_cons_self
    | fallback key missing given other =>
      have isFallback : r.fallback? = some r.settings.fallbackNamespace :=
        fallback?_eq_some.mpr ⟨rfl, given, other⟩
      simp [needs, MemoryStore.view, missing, isFallback]

end Resolver

namespace Lookups
variable {l : Lookups MemoryStore} {names others : List (String × String)}

/-- What is known after the names were noted is what was known before, and the names. -/
theorem mem_keys_foldl_noting (answers : l.availability = .answering) {key : String × String} :
    key ∈ Table.keys (names.foldl noting l).cache.entries ↔
      key ∈ Table.keys l.cache.entries ∨ key ∈ names := by
  induction names generalizing l with
  | nil => simp
  | cons first rest ih =>
    rw [List.foldl_cons]
    cases held : l.cache.entries.find? first with
    | some found =>
      have known : first ∈ Table.keys l.cache.entries := Table.mem_keys_iff.mpr ⟨found, held⟩
      rw [noting_of_held held, ih answers, List.mem_cons]
      refine ⟨Or.imp_right .inr, ?_⟩
      rintro (old | rfl | later)
      · exact .inl old
      · exact .inl known
      · exact .inr later
    | none =>
      obtain ⟨found, asked⟩ := noting_of_absent answers held
      rw [ih (l := l.noting first) (by rw [asked]; exact answers), asked]
      simp only [Table.mem_keys_put, List.mem_cons, or_assoc, or_left_comm]

/-- No name is known twice, and as many more names are known as lookups have gone out. -/
theorem balance_foldl_noting (names : List (String × String)) (answers : l.availability = .answering)
    (distinct : (Table.keys l.cache.entries).Nodup) :
    (Table.keys (names.foldl noting l).cache.entries).Nodup ∧
      (names.foldl noting l).cache.external + l.cache.entries.length =
        l.cache.external + (names.foldl noting l).cache.entries.length := by
  induction names generalizing l with
  | nil => exact ⟨distinct, rfl⟩
  | cons first rest ih =>
    rw [List.foldl_cons]
    cases held : l.cache.entries.find? first with
    | some found =>
      rw [noting_of_held held]
      exact ih answers distinct
    | none =>
      obtain ⟨found, asked⟩ := noting_of_absent answers held
      have next : (Table.keys (l.noting first).cache.entries).Nodup := by
        rw [asked]
        exact Table.nodup_keys_put distinct first found
      obtain ⟨distinct', balance⟩ := ih (l := l.noting first) (by rw [asked]; exact answers) next
      have longer : (l.noting first).cache.entries.length = l.cache.entries.length + 1 := by
        rw [asked]
        simp only [Table.put_of_absent found held, List.length_append, List.length_singleton]
      have external : (l.noting first).cache.external = l.cache.external + 1 := by rw [asked]
      exact ⟨distinct', by omega⟩

/-- Every name has been looked up as often, as many names are known, and as many lookups have gone
out. -/
structure SameCounts (l l' : Lookups MemoryStore) : Prop where
  lookups : ∀ key, l'.store.lookups.find? key = l.store.lookups.find? key
  known : l'.cache.entries.length = l.cache.entries.length
  external : l'.cache.external = l.cache.external

theorem sameCounts_of_mem_iff (answers : l.availability = .answering)
    (distinct : (Table.keys l.cache.entries).Nodup) (same : ∀ key, key ∈ others ↔ key ∈ names) :
    SameCounts (names.foldl noting l) (others.foldl noting l) := by
  obtain ⟨distinctNames, balance⟩ := balance_foldl_noting names answers distinct
  obtain ⟨distinctOthers, balance'⟩ := balance_foldl_noting others answers distinct
  -- Which names are known does not depend on the order, and so neither does how many there are.
  have perm : (Table.keys (others.foldl noting l).cache.entries).Perm
      (Table.keys (names.foldl noting l).cache.entries) := by
    refine (List.perm_ext_iff_of_nodup distinctOthers distinctNames).mpr fun key => ?_
    rw [mem_keys_foldl_noting answers, mem_keys_foldl_noting answers, same]
  have known := perm.length_eq
  simp only [Table.keys, List.length_map] at known
  refine ⟨fun key => ?_, known, by omega⟩
  simp only [find?_lookups_foldl_noting answers, same]

end Lookups

namespace Resolver
variable {references order : List Reference}

/-- References that share what they have looked up come to the same in every order: each to what it
comes to alone, with every name looked up as often, and as many names known in the end. The outcomes
are gathered in the order of the references. -/
theorem outcomes_perm (r : Resolver) (s : MemoryStore) (timeout : Binary64)
    (perm : order.Perm references.eraseDups) :
    let l : Lookups MemoryStore := { store := s, cache := { timeout } }
    let alone reference := (reference.text, (r.resolve reference l).1)
    (r.outcomes order l).1 = order.map alone ∧
      (r.resolveAll references l).1 = gather (references.eraseDups.map alone) ∧
      Lookups.SameCounts (r.resolveAll references l).2 (r.outcomes order l).2 := by
  intro l alone
  have ready : l.Ready s.view (·.records = s.records) s.view :=
    ⟨rfl, rfl, fun _ _ _ held => by cases held⟩
  have alone_eq : alone = fun reference => (reference.text, r.resolveBy s.view reference) := by
    funext reference
    simp only [alone, comes_resolve s.shows r reference l ready]
  have run := outcomes_eq s.shows r order ready
  have whole := resolveAll_eq s.shows r references ready
  rw [run, whole, alone_eq]
  refine ⟨rfl, rfl, Lookups.sameCounts_of_mem_iff rfl .nil fun key => ?_⟩
  exact (perm.flatMap_right _).mem_iff

end Resolver

namespace Turn
variable {t : Turn} {s : MemoryStore} {c : Composition} {config : LoadedConfig}

def levels (t : Turn) (config : LoadedConfig) : FieldLevels where
  inst := t.inst
  cluster := config.cluster
  project := config.project

/-- No level gives a value to a field that is required. -/
def Lacks (t : Turn) (c : Composition) (config : LoadedConfig) : Prop :=
  ∃ d ∈ c.fields, ∃ p : FieldPath, d.path = p.text ∧ d.required = true ∧
    (t.levels config).givers d p = []

/-- The text is a leaf of the merged value of a declared field. -/
def HasLeaf (t : Turn) (c : Composition) (config : LoadedConfig) (leaf : String) : Prop :=
  ∃ d ∈ c.fields, ∃ field, (t.levels config).resolveField d = .ok (some field) ∧
    leaf ∈ field.value.leaves

/-- A leaf is a malformed reference, or one into another namespace where none may be. -/
def Misspells (t : Turn) (c : Composition) (config : LoadedConfig) : Prop :=
  ∃ leaf, t.HasLeaf c config leaf ∧ ∃ failure, Reference.parse leaf = .error failure

/-- A reference among the leaves needs the name. -/
def Needs (t : Turn) (s : MemoryStore) (c : Composition) (config : LoadedConfig)
    (name : String × String) : Prop :=
  ∃ leaf, t.HasLeaf c config leaf ∧ ∃ reference, Reference.parse leaf = .ok (some reference) ∧
    t.resolver.Needs s reference name

/-- The merged values of the declared fields, by their paths. -/
def merged (t : Turn) (c : Composition) (config : LoadedConfig) : Table String Value :=
  ((t.levels config).valued c.fields).mapValues ResolvedField.value

theorem mem_leaves_merged {leaf : String} :
    leaf ∈ ((t.merged c config).map (·.2)).flatMap Value.leaves ↔ t.HasLeaf c config leaf := by
  have found_iff (d : Declaration) (field : ResolvedField) :
      (t.levels config).found? d = some field ↔
        (t.levels config).resolveField d = .ok (some field) := by
    unfold FieldLevels.found?
    cases (t.levels config).resolveField d <;> simp [Except.toOption]
  simp only [merged, Table.mapValues, List.map_map, List.mem_flatMap, List.mem_map,
    FieldLevels.valued, List.mem_filterMap, Option.map_eq_some_iff, found_iff, Function.comp_apply]
  constructor
  · rintro ⟨_, ⟨_, ⟨d, declared, field, resolved, rfl⟩, rfl⟩, within⟩
    exact ⟨d, declared, field, resolved, within⟩
  · rintro ⟨d, declared, field, resolved, within⟩
    exact ⟨_, ⟨_, ⟨d, declared, field, resolved, rfl⟩, rfl⟩, within⟩

theorem resolve_fields_iff (t : Turn) (c : Composition) (config : LoadedConfig) :
    (∀ d ∈ c.fields, ∃ field, (t.levels config).resolveField d = .ok field) ↔ ¬ t.Lacks c config := by
  constructor
  · rintro all ⟨d, declared, p, path, required, none⟩
    obtain ⟨field, resolved⟩ := all d declared
    rw [FieldLevels.resolveField_eq path, if_pos none, if_pos required] at resolved
    cases resolved
  · intro complete d declared
    obtain ⟨p, path⟩ := c.exists_path declared
    rw [FieldLevels.resolveField_eq path]
    split
    · rename_i none
      split
      · rename_i required
        exact absurd ⟨d, declared, p, path, required, none⟩ complete
      · exact ⟨_, rfl⟩
    · exact ⟨_, rfl⟩

theorem plan_eq_ok {plan : Plan} : Engine.plan t.inst c config = .ok plan ↔
    ¬ t.Lacks c config ∧ ∃ references,
      Reference.collect ((t.merged c config).map (·.2)) = .ok references ∧
      plan = ⟨c, config, t.merged c config, references⟩ := by
  have levels : FieldLevels.mk t.inst config.cluster config.project = t.levels config := rfl
  simp only [Engine.plan, levels, Result.bind_eq_ok, FieldLevels.resolve_eq_ok c.nodup_fields,
    resolve_fields_iff, Result.pure_eq, Except.ok.injEq, and_assoc]
  constructor
  · rintro ⟨_, complete, rfl, references, collected, rfl⟩
    exact ⟨complete, references, collected, rfl⟩
  · rintro ⟨complete, references, collected, rfl⟩
    exact ⟨_, complete, rfl, references, collected, rfl⟩

/-- A pass has no plan if a value is missing or a leaf is no proper reference. Otherwise the references
of its plan are those among the leaves. -/
theorem plan_cases (t : Turn) (c : Composition) (config : LoadedConfig) :
    (t.Lacks c config ∨ t.Misspells c config) ∧
      (∃ failure, Engine.plan t.inst c config = .error failure) ∨
    ¬ (t.Lacks c config ∨ t.Misspells c config) ∧
      ∃ plan, Engine.plan t.inst c config = .ok plan ∧ ∀ reference, reference ∈ plan.references ↔
        ∃ leaf, t.HasLeaf c config leaf ∧ Reference.parse leaf = .ok (some reference) := by
  cases planned : Engine.plan t.inst c config with
  | ok plan =>
    obtain ⟨complete, references, collected, rfl⟩ := plan_eq_ok.mp planned
    refine .inr ⟨?_, _, rfl, fun reference => ?_⟩
    · rintro (lacks | ⟨leaf, within, failure, misspelled⟩)
      · exact complete lacks
      · have each := Reference.exists_collect_iff.mp ⟨references, collected⟩
        obtain ⟨new, parses⟩ := each leaf (mem_leaves_merged.mpr within)
        cases parses.symm.trans misspelled
    · simp only [Reference.mem_collect collected, mem_leaves_merged]
  | error failure =>
    refine .inl ⟨by_contra fun proper => ?_, failure, rfl⟩
    obtain ⟨complete, spelled⟩ := not_or.mp proper
    obtain ⟨references, collected⟩ :
        ∃ references, Reference.collect ((t.merged c config).map (·.2)) = .ok references := by
      refine Reference.exists_collect_iff.mpr fun leaf within => ?_
      cases parses : Reference.parse leaf with
      | ok new => exact ⟨new, rfl⟩
      | error failure => exact absurd ⟨leaf, mem_leaves_merged.mp within, failure, parses⟩ spelled
    cases planned.symm.trans (plan_eq_ok.mpr ⟨complete, references, collected, rfl⟩)

theorem outset_of_resolving (enters : t.engine.Enters t.around t.inst s .resolving)
    (loaded : t.engine.loaded t.around t.inst = .ok (c, config)) :
    t.engine.outset t.around t.inst = (.resolving, Engine.plan t.inst c config) := by
  cases enters with
  | resolving entered _ atResolving =>
    cases entered with
    | loadingConfig atLoading =>
      simp only [Engine.outset, atLoading, loaded, atResolving, Bool.false_eq_true, if_false]

/-- Without a flaw, the names that a pass asks for are those that references among the leaves need. -/
theorem mem_asks_iff (enters : t.engine.Enters t.around t.inst s .resolving)
    (loaded : t.engine.loaded t.around t.inst = .ok (c, config))
    (proper : ¬ (t.Lacks c config ∨ t.Misspells c config)) {name : String × String} :
    name ∈ t.asks s ↔ t.Needs s c config name := by
  obtain ⟨-, plan, planned, among⟩ := (t.plan_cases c config).resolve_left fun other => proper other.1
  rw [asks, outset_of_resolving enters loaded, planned]
  simp only [List.mem_flatMap, List.mem_eraseDups, Resolver.mem_needs_iff, among]
  constructor
  · rintro ⟨reference, ⟨leaf, within, parses⟩, needed⟩
    exact ⟨leaf, within, reference, parses, needed⟩
  · rintro ⟨leaf, within, reference, parses, needed⟩
    exact ⟨reference, ⟨leaf, within, parses⟩, needed⟩

/-- Where a pass enters the stage of resolving with what it has loaded, it looks nothing up if a value
is missing or a leaf is no proper reference. Otherwise it looks up once each name that a reference
among the leaves needs, and no other. In whatever order references are resolved, each comes to what it
comes to alone, the names are looked up as often, and the cache has come to hold and to ask as many. -/
theorem asks_what_is_needed :
    (∀ (t : Turn) (s : MemoryStore) (c : Composition) (config : LoadedConfig),
      t.engine.Enters t.around t.inst s .resolving →
      t.engine.loaded t.around t.inst = .ok (c, config) →
      (t.Lacks c config ∨ t.Misspells c config → (t.pass s).2.lookups = s.lookups) ∧
      (¬ (t.Lacks c config ∨ t.Misspells c config) → ∀ name,
        (t.Needs s c config name →
          (t.pass s).2.lookups.find? name = some ((s.lookups.find? name).getD 0 + 1)) ∧
        (¬ t.Needs s c config name →
          (t.pass s).2.lookups.find? name = s.lookups.find? name))) ∧
    ∀ (r : Resolver) (store : MemoryStore) (timeout : Binary64) (references order : List Reference),
      order.Perm references.eraseDups →
      let l : Lookups MemoryStore := { store, cache := { timeout } }
      let alone reference := (reference.text, (r.resolve reference l).1)
      (r.outcomes order l).1 = order.map alone ∧
        (r.resolveAll references l).1 = Resolver.gather (references.eraseDups.map alone) ∧
        Lookups.SameCounts (r.resolveAll references l).2 (r.outcomes order l).2 := by
  refine ⟨fun t s c config enters loaded => ⟨fun flawed => ?_, fun proper name => ?_⟩,
    fun r store timeout _ _ => r.outcomes_perm store timeout⟩
  · obtain ⟨-, failure, fails⟩ := (t.plan_cases c config).resolve_right fun other => other.1 flawed
    rw [pass_lookups, outset_of_resolving enters loaded, fails]
  · rw [find?_lookups_pass, ← mem_asks_iff enters loaded proper]
    exact ⟨fun needed => if_pos needed, fun unneeded => if_neg unneeded⟩

/-- An output that only the namespace to fall back on has is asked for in both, and three references
that share what they look up may as well be resolved from the last to the first. -/
theorem asks_what_is_needed_ofField :
    let t := ofField ⟨"api", by decide, by decide⟩ "outputs/web/url"
    let s := ofAddress "platform"
    let references : List Reference :=
      [.output none "web" "url", .output (some "platform") "web" "url", .secret "web" "tls" none]
    let l : Lookups MemoryStore := { store := s, cache := { timeout := .ofInt 5 } }
    t.engine.Enters t.around t.inst s .resolving ∧
      (t.pass s).2.lookups.find? ("team", "web") = some 1 ∧
      (t.pass s).2.lookups.find? ("platform", "web") = some 1 ∧
      (t.pass s).2.lookups.find? ("team", "api") = none ∧
      references.reverse.Perm references.eraseDups ∧
      Lookups.SameCounts (t.resolver.resolveAll references l).2
        (t.resolver.outcomes references.reverse l).2 := by
  intro t s references l
  have planned : (t.engine.outset t.around t.inst).2.toOption.isSome = true := by decide +kernel
  rcases outset : t.engine.outset t.around t.inst with ⟨stage, failure | plan⟩
  · rw [outset] at planned
    cases planned
  have enters : t.engine.Enters t.around t.inst s .resolving := Engine.enters_of_outset_ok outset
  obtain ⟨⟨c, config⟩, loaded⟩ : ∃ loaded, t.engine.loaded t.around t.inst = .ok loaded := by
    cases enters with
    | resolving _ loaded _ => exact ⟨_, loaded⟩
  have proper : ¬ (t.Lacks c config ∨ t.Misspells c config) := by
    intro flawed
    obtain ⟨-, failure, fails⟩ := (t.plan_cases c config).resolve_right fun other => other.1 flawed
    rw [outset_of_resolving enters loaded, fails] at outset
    cases outset
  have asked (name : String × String) : name ∈ t.asks s ↔ t.Needs s c config name :=
    mem_asks_iff enters loaded proper
  obtain ⟨passes, orders⟩ := asks_what_is_needed
  have counts := (passes t s c config enters loaded).2 proper
  have perm : references.reverse.Perm references.eraseDups := List.reverse_perm references
  exact ⟨enters, (counts _).1 ((asked _).mp (by decide +kernel)),
    (counts _).1 ((asked _).mp (by decide +kernel)),
    (counts _).2 (mt (asked _).mpr (by decide +kernel)), perm,
    (orders t.resolver s _ _ _ perm).2.2⟩

end Turn
end WorkloadConfig
