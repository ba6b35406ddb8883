import WorkloadConfig.Proofs.Idempotence

namespace WorkloadConfig

namespace Resolver
variable {r : Resolver} {find find' : Finder Result} {reference : Reference}

/-- The names under which the target of a reference may be looked for, whatever is found: in the
namespace that an output names, else in the resolver's own and, for an output, in the one to fall
back on. -/
def reaches (r : Resolver) : Reference → List (String × String)
  | .output (some ns) target _ => [(ns, target)]
  | .output none target _ => (r.ns, target) :: r.fallback?.toList.map (·, target)
  | .connection target _ | .secret target _ _ | .config target _ _ => [(r.ns, target)]

theorem mem_reaches_of_mem_needs {key : String × String} (needed : key ∈ r.needs find reference) :
    key ∈ r.reaches reference := by
  cases reference with
  | output explicit target _ =>
    cases explicit with
    | some ns => exact needed
    | none =>
      rcases List.mem_cons.mp needed with rfl | behind
      · exact List.mem_cons_self
      · split at behind
        · exact List.mem_cons_of_mem _ behind
        · cases behind
  | connection | secret | config => exact needed

theorem needs_congr
    (agree : ∀ key ∈ r.reaches reference, find' key.1 key.2 = find key.1 key.2) :
    r.needs find' reference = r.needs find reference := by
  cases reference with
  | output explicit target _ =>
    cases explicit with
    | some ns => rfl
    | none => simp only [needs, agree _ List.mem_cons_self]
  | connection | secret | config => rfl

end Resolver

/-- Each name has the same record and has been looked up as often, though the names may have come in
another order. -/
structure MemoryStore.Same (s s' : MemoryStore) : Prop where
  records : ∀ ns name, s'.read ns name = s.read ns name
  lookups : ∀ key, s'.lookups.find? key = s.lookups.find? key

namespace MemoryStore.Same
variable {s s' s'' : MemoryStore}

theorem refl (s : MemoryStore) : s.Same s :=
  ⟨fun _ _ => rfl, fun _ => rfl⟩

theorem trans (first : s.Same s') (next : s'.Same s'') : s.Same s'' :=
  ⟨fun ns name => (next.records ns name).trans (first.records ns name),
    fun key => (next.lookups key).trans (first.lookups key)⟩

end MemoryStore.Same

namespace Lookups

theorem noting_of_held {l : Lookups MemoryStore} {key : String × String} {found : Option Target}
    (held : l.cache.entries.find? key = some found) : l.noting key = l := by
  simp only [noting, get, held]

/-- A name that is not known yet is counted once more, and known from then on. -/
theorem noting_of_absent {l : Lookups MemoryStore} {key : String × String}
    (answers : l.availability = .answering) (absent : l.cache.entries.find? key = none) :
    ∃ found, l.noting key = { l with
      store := l.store.counted key.1 key.2
      cache := { l.cache with
        entries := l.cache.entries.put key found
        external := l.cache.external + 1 } } := by
  refine ⟨(l.store.read key.1 key.2).map Target.ofRecord, ?_⟩
  simp only [noting, get, absent, ask, answers, Availability.obstacle?]
  rfl

/-- A store that answers has counted each name once more that was noted and not known before. -/
theorem find?_lookups_foldl_noting {l : Lookups MemoryStore} (answers : l.availability = .answering)
    (names : List (String × String)) (key : String × String) :
    (names.foldl noting l).store.lookups.find? key =
      if key ∈ names ∧ l.cache.entries.find? key = none then
        some ((l.store.lookups.find? key).getD 0 + 1)
      else l.store.lookups.find? key := by
  induction names generalizing l with
  | nil => simp
  | cons first rest ih =>
    rw [List.foldl_cons]
    cases held : l.cache.entries.find? first with
    | some found =>
      rw [noting_of_held held, ih answers]
      by_cases isFirst : key = first
      · simp [isFirst, held]
      · simp [isFirst]
    | none =>
      obtain ⟨found, asked⟩ := noting_of_absent answers held
      rw [ih (l := l.noting first) (by rw [asked]; exact answers), asked]
      by_cases isFirst : key = first
      · simp [isFirst, Table.find?_put_self, held, MemoryStore.counted]
      · simp [Table.find?_put_of_ne _ _ isFirst, isFirst, MemoryStore.counted]

end Lookups

namespace Turn
variable {t a b : Turn} {s s' : MemoryStore} {ns name : String}

/-- The name of the instance that the pass is for. -/
def key (t : Turn) : String × String :=
  (t.inst.ns.text, t.inst.name.text)

/-- The names that the pass looks up in the store. -/
def asks (t : Turn) (s : MemoryStore) : List (String × String) :=
  match (t.engine.outset t.around t.inst).2 with
  | .error _ => []
  | .ok plan => plan.references.eraseDups.flatMap (t.resolver.needs s.view)

/-- A pass counts each name that it asks for once. -/
theorem find?_lookups_pass (t : Turn) (s : MemoryStore) (key : String × String) :
    (t.pass s).2.lookups.find? key =
      if key ∈ t.asks s then some ((s.lookups.find? key).getD 0 + 1) else s.lookups.find? key := by
  rw [pass_lookups, asks]
  rcases t.engine.outset t.around t.inst with ⟨stage, failure | plan⟩
  · simp
  simp only
  rw [lookUp_eq, Lookups.find?_lookups_foldl_noting (l := t.engine.lookups t.around s) rfl]
  simp [Engine.lookups, Table.find?]

/-- No reference of the pass may be followed to the name. -/
def Avoids (t : Turn) (key : String × String) : Prop :=
  ∀ plan, t.engine.planned t.around t.inst = .ok plan → ∀ reference ∈ plan.references,
    key ∉ t.resolver.reaches reference

instance (t : Turn) (key : String × String) : Decidable (t.Avoids key) :=
  decidable_of_iff (∀ plan ∈ (t.engine.planned t.around t.inst).toOption,
      ∀ reference ∈ plan.references, key ∉ t.resolver.reaches reference) <| by
    unfold Avoids
    cases t.engine.planned t.around t.inst <;> simp [Except.toOption]

/-- The stores have the same record under each name that the pass does not avoid. -/
def Indifferent (t : Turn) (s s' : MemoryStore) : Prop :=
  ∀ key, ¬ t.Avoids key → s'.read key.1 key.2 = s.read key.1 key.2

/-- What a reference of the pass reaches is shown the same by stores that agree for it. -/
theorem Indifferent.view (indifferent : t.Indifferent s s') {plan : Plan} {reference : Reference}
    (planned : t.engine.planned t.around t.inst = .ok plan)
    (member : reference ∈ plan.references) :
    ∀ key ∈ t.resolver.reaches reference, s'.view key.1 key.2 = s.view key.1 key.2 := by
  intro key reached
  have same := indifferent key fun avoids => avoids plan planned reference member reached
  simp only [MemoryStore.view, same]

theorem Indifferent.lookUp (indifferent : t.Indifferent s s') {plan : Plan}
    (planned : t.engine.planned t.around t.inst = .ok plan) :
    (t.engine.lookUp t.around t.inst s' plan).1 = (t.engine.lookUp t.around t.inst s plan).1 := by
  refine lookUp_congr fun reference member => ?_
  rw [outcome_eq, outcome_eq]
  exact Resolver.resolveBy_congr fun key needed =>
    indifferent.view planned member key (Resolver.mem_reaches_of_mem_needs needed)

theorem Indifferent.asks (indifferent : t.Indifferent s s') : t.asks s' = t.asks s := by
  unfold Turn.asks
  rcases outset : t.engine.outset t.around t.inst with ⟨stage, failure | plan⟩
  · rfl
  have planned := Engine.planned_of_outset_ok outset
  refine List.flatMap_congr fun reference distinct => ?_
  exact Resolver.needs_congr (indifferent.view planned (List.mem_eraseDups.mp distinct))

/-- Over stores that agree for a pass it has the same outcome. -/
theorem Indifferent.fst (indifferent : t.Indifferent s s') : (t.pass s').1 = (t.pass s).1 := by
  rw [pass_fst, pass_fst]
  rcases outset : t.engine.outset t.around t.inst with ⟨stage, failure | plan⟩
  · rfl
  simp only [indifferent.lookUp (Engine.planned_of_outset_ok outset)]

theorem Indifferent.succeeds (indifferent : t.Indifferent s s') : t.Succeeds s' ↔ t.Succeeds s := by
  simp only [Succeeds, indifferent.fst]

theorem Indifferent.does {work : Work} (indifferent : t.Indifferent s s') (does : t.Does s work) :
    t.Does s' work :=
  ⟨does.planned, (indifferent.lookUp does.planned).trans does.found, does.generated, does.recorded⟩

/-- Only the record of its own instance is written by a pass. -/
theorem read_pass (t : Turn) (s : MemoryStore) (other : (ns, name) ≠ t.key) :
    (t.pass s).2.read ns name = s.read ns name := by
  rcases t.pass_cases s with ⟨-, work, -, replaced⟩ | ⟨-, kept⟩
  · exact replaced.2 ns name other
  · exact kept ns name

/-- A record that is the same in stores that agree for a pass is the same after it. -/
theorem Indifferent.read (indifferent : t.Indifferent s s')
    (same : s'.read ns name = s.read ns name) :
    (t.pass s').2.read ns name = (t.pass s).2.read ns name := by
  by_cases own : (ns, name) = t.key
  · obtain ⟨rfl, rfl⟩ := Prod.mk.inj own
    rcases t.pass_cases s with ⟨succeeds, work, does, replaced⟩ | ⟨fails, kept⟩ <;>
      rcases t.pass_cases s' with ⟨succeeds', work', does', replaced'⟩ | ⟨fails', kept'⟩
    · rw [replaced.own, replaced'.own, same, (indifferent.does does).unique does']
    · exact absurd (indifferent.succeeds.mpr succeeds) fails'
    · exact absurd (indifferent.succeeds.mp succeeds') fails
    · rw [kept, kept', same]
  · rw [read_pass t s own, read_pass t s' own, same]

/-- A name that was looked up as often before a pass in stores that agree for it was so after. -/
theorem Indifferent.lookups (indifferent : t.Indifferent s s') {key : String × String}
    (same : s'.lookups.find? key = s.lookups.find? key) :
    (t.pass s').2.lookups.find? key = (t.pass s).2.lookups.find? key := by
  rw [find?_lookups_pass, find?_lookups_pass, indifferent.asks, same]

theorem indifferent_of_same (same : s.Same s') : t.Indifferent s s' :=
  fun key _ => same.records key.1 key.2

theorem same_pass (t : Turn) (same : s.Same s') : (t.pass s).2.Same (t.pass s').2 where
  records ns name := (indifferent_of_same same).read (same.records ns name)
  lookups key := (indifferent_of_same same).lookups (same.lookups key)

theorem same_after (same : s.Same s') (turns : List Turn) :
    (after s turns).Same (after s' turns) := by
  induction turns generalizing s s' with
  | nil => exact same
  | cons t rest ih => exact ih (t.same_pass same)

/-- The passes are for different instances, and neither may follow a reference to that of the
other. -/
structure Independent (a b : Turn) : Prop where
  apart : a.key ≠ b.key
  avoids : a.Avoids b.key
  avoided : b.Avoids a.key

theorem Independent.symm (independent : a.Independent b) : b.Independent a :=
  ⟨independent.apart.symm, independent.avoided, independent.avoids⟩

/-- A pass is indifferent to what an independent one makes of the store. -/
theorem Independent.indifferent (independent : a.Independent b) (s : MemoryStore) :
    a.Indifferent s (b.pass s).2 := by
  intro key reached
  refine read_pass b s fun own => reached ?_
  have avoids := independent.avoids
  rwa [← own] at avoids

/-- Two independent passes leave the same store in either order. -/
theorem Independent.same (independent : a.Independent b) (s : MemoryStore) :
    (b.pass (a.pass s).2).2.Same (a.pass (b.pass s).2).2 where
  records ns name := by
    by_cases isLeft : (ns, name) = a.key
    · have isRight : (ns, name) ≠ b.key := isLeft ▸ independent.apart
      rw [read_pass b _ isRight]
      exact (independent.indifferent s).read (read_pass b s isRight)
    · rw [read_pass a _ isLeft]
      exact ((independent.symm.indifferent s).read (read_pass a s isLeft)).symm
  lookups key := by
    simp only [find?_lookups_pass, (independent.indifferent s).asks,
      (independent.symm.indifferent s).asks]
    split <;> split <;> rfl

/-- Two passes for different instances, neither of which can reach the other's, come to the same in
either order: each has the outcome that it has without the other, be it a failure or an escape, and
the records with their generations and the counts of lookups are the same in the end. -/
theorem pass_comm (independent : a.Independent b) (s : MemoryStore) :
    (a.pass (b.pass s).2).1 = (a.pass s).1 ∧ (b.pass (a.pass s).2).1 = (b.pass s).1 ∧
      (b.pass (a.pass s).2).2.Same (a.pass (b.pass s).2).2 :=
  ⟨(independent.indifferent s).fst, (independent.symm.indifferent s).fst, independent.same s⟩

/-- Two instances whose fields refer to the same third one. -/
theorem pass_comm_ofField :
    let api := ofField ⟨"api", by decide, by decide⟩ "outputs/web/url"
    let db := ofField ⟨"db", by decide, by decide⟩ "outputs/web/url"
    let s := ofAddress "team"
    api.Independent db ∧ api.Succeeds s ∧ db.Succeeds s ∧
      (api.pass (db.pass s).2).1 = (api.pass s).1 ∧ (db.pass (api.pass s).2).1 = (db.pass s).1 ∧
      (db.pass (api.pass s).2).2.Same (api.pass (db.pass s).2).2 := by
  intro api db s
  have independent : api.Independent db :=
    ⟨by decide, by decide +kernel, by decide +kernel⟩
  exact ⟨independent, by decide +kernel, by decide +kernel, pass_comm independent s⟩

/-- After a run of passes that are independent of it, a pass has the outcome that it has at once. -/
theorem fst_after {turns : List Turn} (independent : ∀ u ∈ turns, t.Independent u) :
    (t.pass (after s turns)).1 = (t.pass s).1 := by
  induction turns generalizing s with
  | nil => rfl
  | cons u rest ih =>
    obtain ⟨first, others⟩ := List.forall_mem_cons.mp independent
    exact (ih others).trans (first.indifferent s).fst

/-- A run of passes that are independent of each other leaves the same store in every order. -/
theorem after_perm {turns others : List Turn} (perm : turns.Perm others)
    (independent : turns.Pairwise Independent) (s : MemoryStore) :
    (after s turns).Same (after s others) := by
  induction perm generalizing s with
  | nil => exact .refl s
  | cons t _ ih => exact ih independent.tail (t.pass s).2
  | swap a b rest =>
    have first := (List.pairwise_cons.mp independent).1 a List.mem_cons_self
    exact same_after (first.same s) rest
  | trans one _ ih ih' =>
    have other := one.pairwise independent fun first => first.symm
    exact (ih independent s).trans (ih' other s)

end Turn
end WorkloadConfig
