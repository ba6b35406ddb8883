import WorkloadConfig.Resolution
import WorkloadConfig.Store.Memory

namespace WorkloadConfig

theorem run_bind_ok {τ α β : Type} {m : ExceptT Failure (StateM τ) α}
    {f : α → ExceptT Failure (StateM τ) β} {before after : τ} {a : α}
    (run : m before = (.ok a, after)) : (m >>= f) before = f a after := by
  simp only [bind, ExceptT.bind, ExceptT.mk, ExceptT.bindCont, StateT.bind, run]

theorem run_bind_error {τ α β : Type} {m : ExceptT Failure (StateM τ) α}
    {f : α → ExceptT Failure (StateM τ) β} {before after : τ} {failure : Failure}
    (run : m before = (.error failure, after)) : (m >>= f) before = (.error failure, after) := by
  simp only [bind, ExceptT.bind, ExceptT.mk, ExceptT.bindCont, StateT.bind, run]
  rfl

/-- Stores of the kind answer every lookup as the view does, and stay of the kind. -/
structure TargetLookup.Shows {σ : Type} [TargetLookup σ] (view : Finder Result)
    (kind : σ → Prop) : Prop where
  answer : ∀ s ns name, kind s → (TargetLookup.get s ns name).1 = view ns name
  stays : ∀ s ns name, kind s → kind (TargetLookup.get s ns name).2

/-- What a memory store shows of its records. -/
def MemoryStore.view (s : MemoryStore) : Finder Result := fun ns name =>
  .ok ((s.read ns name).map Target.ofRecord)

/-- Counting lookups changes nothing that a memory store shows. -/
theorem MemoryStore.shows (s : MemoryStore) :
    TargetLookup.Shows s.view fun s' : MemoryStore => s'.records = s.records := by
  constructor
  · intro s' ns name same
    simp only [TargetLookup.get, MemoryStore.get, MemoryStore.view, MemoryStore.read, same]
  · intro s' ns name same
    exact same

namespace Lookups
variable {σ : Type} [TargetLookup σ]

/-- Finds what the view shows, as long as the store that shows it answers. -/
def finding (l : Lookups σ) (view : Finder Result) : Finder Result := fun ns name =>
  l.availability.bounded l.cache.timeout ("instance " ++ ns ++ "/" ++ name) (view ns name)

/-- The state after a name was looked up. -/
def noting (l : Lookups σ) (key : String × String) : Lookups σ :=
  (get key.1 key.2 l).2

/-- The store is of the kind, and the cache holds nothing but what would be found again. -/
structure Ready (view : Finder Result) (kind : σ → Prop) (find : Finder Result)
    (l : Lookups σ) : Prop where
  store : kind l.store
  finds : l.finding view = find
  cached : ∀ ns name found, l.cache.entries.find? (ns, name) = some found →
    find ns name = .ok found

omit [TargetLookup σ] in
theorem Ready.fresh {view : Finder Result} {kind : σ → Prop} {l : Lookups σ} (ofKind : kind l.store)
    (empty : l.cache.entries = []) : l.Ready view kind (l.finding view) := by
  refine ⟨ofKind, rfl, ?_⟩
  intro ns name found held
  simp [empty, Table.find?] at held

theorem held_of_get {l : Lookups σ} {ns name : String} {found : Option Target}
    (answer : (get ns name l).1 = .ok found) :
    (get ns name l).2.cache.entries.find? (ns, name) = some found := by
  unfold get at answer ⊢
  cases held : l.cache.entries.find? (ns, name) with
  | some old =>
    simp only [held] at answer ⊢
    rw [Except.ok.inj answer]
  | none =>
    simp only [held, ask] at answer ⊢
    split at answer
    · cases answer
    · split at answer
      · cases answer
      · rename_i new store reply
        rw [Except.ok.inj answer]
        exact Table.find?_put_self _ _ _

variable {view : Finder Result} {kind : σ → Prop} {find : Finder Result} {l : Lookups σ}

/-- A lookup answers what is found, and the cache goes on to hold nothing else. -/
theorem Ready.get (shows : TargetLookup.Shows view kind) (ready : l.Ready view kind find)
    (ns name : String) :
    Lookups.get ns name l = (find ns name, l.noting (ns, name)) ∧
      (l.noting (ns, name)).Ready view kind find := by
  have answer := shows.answer l.store ns name ready.store
  have stays := shows.stays l.store ns name ready.store
  have finds := congrFun (congrFun ready.finds ns) name
  simp only [finding, Availability.bounded] at finds
  unfold noting Lookups.get
  cases held : l.cache.entries.find? (ns, name) with
  | some found => exact ⟨by rw [ready.cached ns name found held], ready⟩
  | none =>
    simp only [ask]
    cases obstacle : l.availability.obstacle? l.cache.timeout ("instance " ++ ns ++ "/" ++ name) with
    | some failure =>
      simp only [obstacle] at finds
      exact ⟨by rw [← finds], ready⟩
    | none =>
      simp only [obstacle] at finds
      generalize TargetLookup.get l.store ns name = reply at answer stays ⊢
      obtain ⟨result, store⟩ := reply
      simp only at answer stays
      subst answer
      rw [← finds]
      cases shown : view ns name with
      | error failure => exact ⟨rfl, stays, ready.finds, ready.cached⟩
      | ok found =>
        refine ⟨rfl, stays, ready.finds, ?_⟩
        intro ns' name' found' held'
        by_cases same : (ns', name') = (ns, name)
        · cases same
          rw [Table.find?_put_self] at held'
          rw [← finds, shown, Option.some.inj held']
        · rw [Table.find?_put_of_ne _ _ same] at held'
          exact ready.cached ns' name' found' held'

theorem Ready.noting (shows : TargetLookup.Shows view kind) (ready : l.Ready view kind find)
    (key : String × String) : (l.noting key).Ready view kind find :=
  (ready.get shows key.1 key.2).2

/-- What was found once is found again without asking. -/
theorem Ready.noting_again (shows : TargetLookup.Shows view kind) (ready : l.Ready view kind find)
    {ns name : String} {found : Option Target} (finds : find ns name = .ok found) :
    (l.noting (ns, name)).noting (ns, name) = l.noting (ns, name) := by
  have answer : (Lookups.get ns name l).1 = .ok found := by rw [(ready.get shows ns name).1, finds]
  have held := held_of_get answer
  simp only [Lookups.noting]
  generalize (Lookups.get ns name l).2 = after at held ⊢
  simp only [Lookups.get, held]

/-- From every state that is ready the run comes to the result, and it notes the names. -/
def Comes {α : Type} (view : Finder Result) (kind : σ → Prop) (find : Finder Result)
    (m : LookupM σ α) (result : Result α) (names : List (String × String)) : Prop :=
  ∀ l : Lookups σ, l.Ready view kind find → m l = (result, names.foldl Lookups.noting l)

theorem Ready.foldl_noting (shows : TargetLookup.Shows view kind) (ready : l.Ready view kind find)
    (names : List (String × String)) : (names.foldl Lookups.noting l).Ready view kind find := by
  induction names generalizing l with
  | nil => exact ready
  | cons key rest ih => exact ih (ready.noting shows key)

namespace Comes
variable {α β : Type} {m : LookupM σ α} {f : α → LookupM σ β}

theorem bind (shows : TargetLookup.Shows view kind) {a : α} {result : Result β}
    {names more : List (String × String)} (first : Comes view kind find m (.ok a) names)
    (next : Comes view kind find (f a) result more) :
    Comes view kind find (m >>= f) result (names ++ more) := by
  intro l ready
  rw [run_bind_ok (first l ready), next _ (ready.foldl_noting shows names), List.foldl_append]

theorem stop {failure : Failure} {names : List (String × String)}
    (first : Comes view kind find m (.error failure) names) :
    Comes view kind find (m >>= f) (.error failure) names :=
  fun l ready => run_bind_error (first l ready)

/-- What follows without looking anything up decides on the result alone. -/
theorem decided {result : Result α} {decide : α → Result β} {names : List (String × String)}
    (first : Comes view kind find m result names) (next : ∀ a l, f a l = (decide a, l)) :
    Comes view kind find (m >>= f) (result >>= decide) names := by
  intro l ready
  cases result with
  | error failure => exact run_bind_error (first l ready)
  | ok a => rw [run_bind_ok (first l ready), next]; rfl

/-- To look up at the end once more what was found there leaves no trace. -/
theorem again (shows : TargetLookup.Shows view kind) {result : Result α}
    {names : List (String × String)} {ns name : String} {found : Option Target}
    (finds : find ns name = .ok found)
    (run : Comes view kind find m result ((names ++ [(ns, name)]) ++ [(ns, name)])) :
    Comes view kind find m result (names ++ [(ns, name)]) := by
  intro l ready
  rw [run l ready]
  simp only [List.foldl_append, List.foldl_cons, List.foldl_nil]
  rw [(ready.foldl_noting shows names).noting_again shows finds]

end Comes

theorem comes_finder (shows : TargetLookup.Shows view kind) (ns name : String) :
    Comes view kind find (finder ns name) (find ns name) [(ns, name)] :=
  fun _ ready => (ready.get shows ns name).1

theorem comes_exists (shows : TargetLookup.Shows view kind) (ns name : String) :
    Comes view kind find (finder.exists ns name) (find.exists ns name) [(ns, name)] :=
  (comes_finder shows ns name).decided fun _ _ => rfl

theorem comes_require (shows : TargetLookup.Shows view kind) (ns name : String) :
    Comes view kind find (finder.require ns name) (find.require ns name) [(ns, name)] := by
  refine (comes_finder shows ns name).decided fun found _ => ?_
  cases found <;> rfl

end Lookups

namespace Resolver
variable {σ : Type} [TargetLookup σ]

/-- The names that resolving a reference needs: the one it speaks of, and for an output without a
namespace of its own that is missing there also the one to fall back on. -/
def needs (r : Resolver) (find : Finder Result) : Reference → List (String × String)
  | .output (some ns) target _ => [(ns, target)]
  | .output none target _ =>
    (r.ns, target) :: match find r.ns target with
      | .ok none => r.fallback?.toList.map (·, target)
      | _ => []
  | .connection target _ | .secret target _ _ | .config target _ _ => [(r.ns, target)]

variable {view : Finder Result} {kind : σ → Prop} {find : Finder Result}

omit [TargetLookup σ] in
theorem ofExcept_apply {α : Type} (result : Result α) (l : Lookups σ) :
    (MonadExcept.ofExcept result : LookupM σ α) l = (result, l) := by
  cases result <;> rfl

theorem ofExcept_result {α : Type} (result : Result α) :
    (MonadExcept.ofExcept result : Result α) = result := by
  cases result <;> rfl

/-- From the namespace on, a reference is resolved by looking up its target there. -/
theorem comes_shown (shows : TargetLookup.Shows view kind) (r : Resolver) (reference : Reference)
    (ns : String) :
    Lookups.Comes view kind find
      (do MonadExcept.ofExcept (r.shown reference (← Lookups.finder.require ns reference.target)))
      (find.require ns reference.target >>= r.shown reference) [(ns, reference.target)] :=
  (Lookups.comes_require shows ns reference.target).decided fun _ _ => ofExcept_apply _ _

theorem resolveBy_eq (r : Resolver) (find : Finder Result) (reference : Reference) :
    r.resolveBy find reference = (do
      let ns ← r.namespaceOf find reference
      find.require ns reference.target >>= r.shown reference) := by
  simp only [resolveBy, ofExcept_result]

theorem comes_fallbackNamespace (shows : TargetLookup.Shows view kind) (r : Resolver)
    (target : String) :
    Lookups.Comes view kind find (r.fallbackNamespace Lookups.finder target)
      (r.fallbackNamespace find target) (r.fallback?.toList.map (·, target)) := by
  unfold fallbackNamespace
  cases r.fallback? with
  | none => exact fun _ _ => rfl
  | some fallback =>
    refine (Lookups.comes_exists shows fallback target).decided fun there _ => ?_
    cases there <;> rfl

theorem comes_outputNamespace (shows : TargetLookup.Shows view kind) (r : Resolver)
    (target key : String) :
    Lookups.Comes view kind find (r.outputNamespace Lookups.finder target none)
      (r.outputNamespace find target none) (r.needs find (.output none target key)) := by
  have own : Lookups.Comes view kind find _ _ _ := Lookups.comes_exists shows r.ns target
  simp only [outputNamespace, Finder.exists, needs] at own ⊢
  cases here : find r.ns target with
  | error failure =>
    rw [here] at own
    exact own.stop
  | ok found =>
    rw [here] at own
    cases found with
    | some found => exact own.bind shows fun _ _ => rfl
    | none => exact own.bind shows (comes_fallbackNamespace shows r target)

theorem require_eq_ok {ns name : String} {found : Target} :
    find.require ns name = .ok found ↔ find ns name = .ok (some found) := by
  simp only [Finder.require, Result.bind_eq_ok]
  constructor
  · rintro ⟨answer, finds, present⟩
    cases answer with
    | none => cases present
    | some target =>
      cases present
      exact finds
  · intro finds
    exact ⟨some found, finds, rfl⟩

theorem resolveBy_eq_ok {r : Resolver} {reference : Reference} {v : Resolved} :
    r.resolveBy find reference = .ok v ↔ ∃ ns found, r.namespaceOf find reference = .ok ns ∧
      find ns reference.target = .ok (some found) ∧ r.shown reference found = .ok v := by
  simp only [resolveBy_eq, Result.bind_eq_ok, require_eq_ok, exists_and_left]

theorem output_eq_ok {target key : String} {found : Target} {v : Resolved} :
    output target key found = .ok v ↔
      ∃ value, found.outputs.find? key = some value ∧ v = .literal value := by
  unfold output
  cases found.outputs.find? key <;> simp [Result.fail, eq_comm]

theorem checked_eq_ok {target name : String} {listed : Option (List String)} {names : List String}
    {resolved v : Resolved} (lists : listed = some names) :
    checked target name listed resolved = .ok v ↔ name ∈ names ∧ v = resolved := by
  simp only [checked, lists, List.contains_iff_mem]
  split
  · rename_i member
    simp [member, eq_comm]
  · rename_i absent
    simp [absent, Result.fail]

theorem fallback?_eq_some {r : Resolver} {ns : String} :
    r.fallback? = some ns ↔
      ns = r.settings.fallbackNamespace ∧ ns ≠ "" ∧ ns ≠ r.ns := by
  simp only [fallback?, Bool.and_eq_true, decide_eq_true_eq, Option.ite_none_right_eq_some,
    Option.some.injEq]
  constructor
  · rintro ⟨⟨given, other⟩, rfl⟩
    exact ⟨rfl, given, other⟩
  · rintro ⟨rfl, given, other⟩
    exact ⟨⟨given, other⟩, rfl⟩

theorem fallbackNamespace_eq_ok {r : Resolver} {target ns : String} :
    r.fallbackNamespace find target = .ok ns ↔
      r.fallback? = some ns ∧ ∃ found, find ns target = .ok (some found) := by
  unfold fallbackNamespace
  cases r.fallback? with
  | none => simp
  | some fallback =>
    simp only [Finder.exists, Result.bind_eq_ok, Result.pure_eq, Option.some.injEq,
      Except.ok.injEq]
    constructor
    · rintro ⟨_, ⟨found, finds, rfl⟩, answer⟩
      cases found with
      | none => simp at answer
      | some found =>
        simp only [Option.isSome_some, if_true, Except.ok.injEq] at answer
        subst answer
        exact ⟨rfl, found, finds⟩
    · rintro ⟨rfl, found, finds⟩
      exact ⟨true, ⟨_, finds, rfl⟩, rfl⟩

theorem outputNamespace_eq_ok {r : Resolver} {target ns : String} :
    r.outputNamespace find target none = .ok ns ↔
      (ns = r.ns ∧ ∃ found, find r.ns target = .ok (some found)) ∨
      find r.ns target = .ok none ∧ r.fallback? = some ns ∧
        ∃ found, find ns target = .ok (some found) := by
  simp only [outputNamespace, Finder.exists]
  cases here : find r.ns target with
  | error failure => simp
  | ok found =>
    cases found with
    | some found => simp [eq_comm]
    | none => simp [fallbackNamespace_eq_ok]

/-- The namespace that an output comes from was the last to be looked into. -/
theorem needs_of_outputNamespace {r : Resolver} (key : String) {target ns : String}
    (source : r.outputNamespace find target none = .ok ns) :
    ∃ names found, r.needs find (.output none target key) = names ++ [(ns, target)] ∧
      find ns target = .ok (some found) := by
  rcases outputNamespace_eq_ok.mp source with ⟨rfl, found, here⟩ | ⟨here, fallback, found, there⟩
  · exact ⟨[], found, by simp [needs, here], here⟩
  · exact ⟨[(r.ns, target)], found, by simp [needs, here, fallback], there⟩

/-- Resolving through the cache comes to what resolving directly among the instances that are found
comes to. -/
theorem comes_resolve (shows : TargetLookup.Shows view kind) (r : Resolver) (reference : Reference) :
    Lookups.Comes view kind find (r.resolve reference) (r.resolveBy find reference)
      (r.needs find reference) := by
  rw [resolveBy_eq]
  cases reference with
  | output explicit target key =>
    cases explicit with
    | some ns => exact comes_shown shows r (.output (some ns) target key) ns
    | none =>
      have first : Lookups.Comes view kind find _ _ _ := comes_outputNamespace shows r target key
      cases source : r.outputNamespace find target none with
      | error failure =>
        rw [source] at first
        simp only [namespaceOf, source, Result.error_bind]
        exact first.stop
      | ok ns =>
        rw [source] at first
        obtain ⟨names, found, needed, finds⟩ := needs_of_outputNamespace key source
        have last : Lookups.Comes view kind find _ _ _ :=
          comes_shown shows r (.output none target key) ns
        have whole : Lookups.Comes view kind find (r.resolve (.output none target key)) _ _ :=
          first.bind shows last
        rw [needed] at whole ⊢
        simp only [namespaceOf, source, Result.ok_bind]
        -- The cache holds by now what the namespace that was asked last has shown.
        exact whole.again shows finds
  | connection target key => exact comes_shown shows r (.connection target key) r.ns
  | secret target resource key => exact comes_shown shows r (.secret target resource key) r.ns
  | config target resource key => exact comes_shown shows r (.config target resource key) r.ns

theorem outcomes_eq (shows : TargetLookup.Shows view kind) (r : Resolver)
    (references : List Reference) {l : Lookups σ} (ready : l.Ready view kind find) :
    r.outcomes references l =
      (references.map fun reference => (reference.text, r.resolveBy find reference),
        (references.flatMap (r.needs find)).foldl Lookups.noting l) := by
  induction references generalizing l with
  | nil => rfl
  | cons reference rest ih =>
    have first := comes_resolve shows r reference l ready
    have others := ih (ready.foldl_noting shows (r.needs find reference))
    simp only [outcomes, bind, StateT.bind, ExceptT.run, first, others]
    simp only [List.map_cons, List.flatMap_cons, List.foldl_append]
    rfl

/-- All references together: each comes to what it stands for among the instances that are found,
and the names that they need have been noted. -/
theorem resolveAll_eq (shows : TargetLookup.Shows view kind) (r : Resolver)
    (references : List Reference) {l : Lookups σ} (ready : l.Ready view kind find) :
    r.resolveAll references l =
      (gather (references.eraseDups.map fun reference =>
          (reference.text, r.resolveBy find reference)),
        (references.eraseDups.flatMap (r.needs find)).foldl Lookups.noting l) := by
  simp only [resolveAll, outcomes_eq shows r references.eraseDups ready]

end Resolver
end WorkloadConfig
