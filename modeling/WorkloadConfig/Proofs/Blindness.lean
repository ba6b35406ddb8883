import WorkloadConfig.Proofs.History

namespace WorkloadConfig

/-- The records differ at most in the values within their connections. -/
structure Record.Alike (r r' : Record) : Prop where
  rest : r' = { r with connection := ⟨r.connection.name, r'.connection.data⟩ }
  keys : r.connection.data.keys.Perm r'.connection.data.keys

theorem Record.Alike.refl (r : Record) : r.Alike r :=
  ⟨rfl, .refl _⟩

/-- The stores have counted the same lookups and differ at most in the values within the connections
of their records. -/
structure MemoryStore.Alike (s s' : MemoryStore) : Prop where
  records : ∀ ns name, Option.Rel Record.Alike (s.read ns name) (s'.read ns name)
  lookups : s'.lookups = s.lookups

variable {s s' : MemoryStore}

theorem Target.ofRecord_alike {r r' : Record} (alike : r.Alike r') :
    Target.ofRecord r' = Target.ofRecord r := by
  rw [alike.rest]
  simp only [ofRecord, Sorting.texts_eq_of_perm alike.keys]

theorem Target.map_alike {held held' : Option Record} (alike : Option.Rel Record.Alike held held') :
    held'.map Target.ofRecord = held.map Target.ofRecord := by
  cases alike with
  | some records => exact congrArg some (ofRecord_alike records)
  | none => rfl

/-- What the stores show is the same. -/
theorem MemoryStore.Alike.view (alike : s.Alike s') : s'.view = s.view := by
  funext ns name
  exact congrArg Except.ok (Target.map_alike (alike.records ns name))

namespace Lookups

/-- Two states of lookups that neither what was found nor what was counted tells apart. -/
structure Level (l l' : Lookups MemoryStore) : Prop where
  view : l'.store.view = l.store.view
  lookups : l'.store.lookups = l.store.lookups
  cache : l'.cache = l.cache
  availability : l'.availability = l.availability

variable {l l' : Lookups MemoryStore}

theorem Level.noting (level : Level l l') (key : String × String) :
    Level (l.noting key) (l'.noting key) := by
  obtain ⟨view, lookups, cache, availability⟩ := level
  have shown := congrFun (congrFun view key.1) key.2
  simp only [MemoryStore.view, Except.ok.injEq] at shown
  unfold Lookups.noting Lookups.get ask
  rw [cache, availability]
  cases l.cache.entries.find? (key.1, key.2) with
  | some found => exact ⟨view, lookups, cache, availability⟩
  | none =>
    simp only
    cases l.availability.obstacle? l.cache.timeout ("instance " ++ key.1 ++ "/" ++ key.2) with
    | some failure => exact ⟨view, lookups, cache, availability⟩
    | none =>
      simp only [TargetLookup.get, MemoryStore.get, shown]
      refine ⟨view, ?_, rfl, rfl⟩
      simp only [MemoryStore.counted, lookups]

theorem Level.foldl_noting (level : Level l l') (names : List (String × String)) :
    Level (names.foldl Lookups.noting l) (names.foldl Lookups.noting l') := by
  induction names generalizing l l' with
  | nil => exact level
  | cons key rest ih => exact ih (level.noting key)

end Lookups

namespace Turn
variable {t : Turn} {work : Work}

theorem lookUp_level (t : Turn) (alike : s.Alike s') (plan : Plan) :
    (t.engine.lookUp t.around t.inst s' plan).1 = (t.engine.lookUp t.around t.inst s plan).1 ∧
      Lookups.Level (t.engine.lookUp t.around t.inst s plan).2
        (t.engine.lookUp t.around t.inst s' plan).2 := by
  have start : Lookups.Level (t.engine.lookups t.around s) (t.engine.lookups t.around s') :=
    ⟨alike.view, alike.lookups, rfl, rfl⟩
  rw [lookUp_eq, lookUp_eq, alike.view]
  exact ⟨rfl, start.foldl_noting _⟩

theorem fst_alike (t : Turn) (alike : s.Alike s') : (t.pass s').1 = (t.pass s).1 := by
  simp only [pass_fst, (t.lookUp_level alike _).1]

theorem lookups_alike (t : Turn) (alike : s.Alike s') :
    (t.pass s').2.lookups = (t.pass s).2.lookups := by
  rw [pass_lookups, pass_lookups]
  split
  · exact alike.lookups
  · exact (t.lookUp_level alike _).2.lookups

theorem succeeds_alike (alike : s.Alike s') : t.Succeeds s' ↔ t.Succeeds s := by
  simp only [Succeeds, t.fst_alike alike]

theorem Does.alike (alike : s.Alike s') (does : t.Does s work) : t.Does s' work :=
  ⟨does.planned, (t.lookUp_level alike _).1.trans does.found, does.generated, does.recorded⟩

theorem following_alike {held held' : Option Record} (alike : Option.Rel Record.Alike held held')
    (r : Record) : r.following held' = r.following held := by
  cases alike with
  | some records =>
    have generation := congrArg Record.generation records.rest
    simp only at generation
    simp only [Record.following, generation]
  | none => rfl

/-- A pass over alike stores replaces the record by the same one in both, or keeps both. -/
theorem pass_cases_alike (t : Turn) (alike : s.Alike s') :
    (∃ r, s.Replaced t.inst r (t.pass s).2 ∧ s'.Replaced t.inst r (t.pass s').2) ∨
      ¬ t.Succeeds s ∧ s.Kept (t.pass s).2 ∧ s'.Kept (t.pass s').2 := by
  rcases t.pass_cases s with ⟨succeeds, work, does, replaced⟩ | ⟨fails, kept⟩
  · rcases t.pass_cases s' with ⟨-, work', does', replaced'⟩ | ⟨fails', -⟩
    · cases (does.alike alike).unique does'
      exact .inl ⟨work.record, replaced, replaced'⟩
    · exact absurd ((succeeds_alike alike).mpr succeeds) fails'
  · rcases t.pass_cases s' with ⟨succeeds', -⟩ | ⟨-, kept'⟩
    · exact absurd ((succeeds_alike alike).mp succeeds') fails
    · exact .inr ⟨fails, kept, kept'⟩

theorem read_replaced_alike (alike : s.Alike s') {after after' : MemoryStore} {r : Record}
    (replaced : s.Replaced t.inst r after) (replaced' : s'.Replaced t.inst r after') :
    after'.read t.inst.ns.text t.inst.name.text = after.read t.inst.ns.text t.inst.name.text := by
  rw [replaced.own, replaced'.own, following_alike (alike.records _ _)]

/-- A pass leaves stores alike that were, and the record that it writes the same in both. -/
theorem pass_alike (t : Turn) (alike : s.Alike s') :
    (t.pass s).2.Alike (t.pass s').2 ∧
      (t.Succeeds s → (t.pass s').2.read t.inst.ns.text t.inst.name.text =
        (t.pass s).2.read t.inst.ns.text t.inst.name.text) := by
  rcases t.pass_cases_alike alike with ⟨r, replaced, replaced'⟩ | ⟨fails, kept, kept'⟩
  · have same := read_replaced_alike alike replaced replaced'
    refine ⟨⟨fun ns name => ?_, t.lookups_alike alike⟩, fun _ => same⟩
    by_cases isOwn : (ns, name) = (t.inst.ns.text, t.inst.name.text)
    · cases isOwn
      rw [same, replaced.own]
      exact .some (.refl _)
    · rw [replaced.2 ns name isOwn, replaced'.2 ns name isOwn]
      exact alike.records ns name
  · refine ⟨⟨fun ns name => ?_, t.lookups_alike alike⟩, fun succeeds => absurd succeeds fails⟩
    rw [kept, kept']
    exact alike.records ns name

theorem after_alike (alike : s.Alike s') (turns : List Turn) :
    (after s turns).Alike (after s' turns) := by
  induction turns generalizing s s' with
  | nil => exact alike
  | cons t rest ih => exact ih (t.pass_alike alike).1

/-- A record that is the same in both stores stays so. -/
theorem pass_same (t : Turn) (alike : s.Alike s') {ns name : String}
    (same : s'.read ns name = s.read ns name) :
    (t.pass s').2.read ns name = (t.pass s).2.read ns name := by
  rcases t.pass_cases_alike alike with ⟨r, replaced, replaced'⟩ | ⟨-, kept, kept'⟩
  · by_cases isOwn : (ns, name) = (t.inst.ns.text, t.inst.name.text)
    · cases isOwn
      exact read_replaced_alike alike replaced replaced'
    · rw [replaced.2 ns name isOwn, replaced'.2 ns name isOwn, same]
  · rw [kept, kept', same]

/-- A pass of the run over the store has written the record of the name. -/
def Rewritten (s : MemoryStore) (turns : List Turn) (ns name : String) : Prop :=
  ∃ earlier t later, turns = earlier ++ t :: later ∧ t.IsFor ns name ∧ t.Succeeds (after s earlier)

theorem read_rewritten (alike : s.Alike s') {turns : List Turn} {ns name : String}
    (rewritten : Rewritten s turns ns name) :
    (after s' turns).read ns name = (after s turns).read ns name := by
  obtain ⟨earlier, t, later, rfl, ⟨rfl, rfl⟩, succeeds⟩ := rewritten
  -- Whatever the stores still differ in, the record is the same and stays so in later passes.
  induction later using List.reverseRecOn with
  | nil =>
    rw [after_concat, after_concat]
    exact (t.pass_alike (after_alike alike earlier)).2 succeeds
  | append_singleton later u ih =>
    rw [← List.cons_append, ← List.append_assoc, after_concat, after_concat]
    exact u.pass_same (after_alike alike _) ih

/-- No run of passes tells stores apart that differ in the values within connections only: each pass
has the same outcome and counts the same lookups, and the stores differ in the end at most in values
within connections of records that the run did not write. -/
theorem run_blind (alike : s.Alike s') (turns : List Turn) :
    (∀ earlier t later, turns = earlier ++ t :: later →
      (t.pass (after s' earlier)).1 = (t.pass (after s earlier)).1 ∧
        (t.pass (after s' earlier)).2.lookups = (t.pass (after s earlier)).2.lookups) ∧
      (after s turns).Alike (after s' turns) ∧
      ∀ ns name, Rewritten s turns ns name →
        (after s' turns).read ns name = (after s turns).read ns name := by
  refine ⟨?_, after_alike alike turns, fun ns name => read_rewritten alike⟩
  rintro earlier t later rfl
  have met := after_alike alike earlier
  exact ⟨t.fst_alike met, t.lookups_alike met⟩

/-- A store with the one record of a database and its password. -/
def ofPassword (password : String) : MemoryStore where
  records := [(("team", "db"), {
    kind := "App"
    ns := "team"
    name := "db"
    connection := ⟨"db-conn", [("password", password)]⟩ })]

theorem alike_ofPassword (password other : String) :
    (ofPassword password).Alike (ofPassword other) := by
  refine ⟨fun ns name => ?_, rfl⟩
  simp only [MemoryStore.read, ofPassword, Table.find?]
  split
  · exact .some ⟨rfl, .refl _⟩
  · exact .none

theorem run_blind_ofPassword :
    let web := ofField ⟨"web", by decide, by decide⟩ "connections/db/password"
    (ofPassword "first").Alike (ofPassword "second") ∧
      (ofPassword "first").records ≠ (ofPassword "second").records ∧
      (web.pass (ofPassword "second")).1 = (web.pass (ofPassword "first")).1 := by
  intro web
  have alike := alike_ofPassword "first" "second"
  exact ⟨alike, by decide, ((run_blind alike [web]).1 [] web [] rfl).1⟩

end Turn
end WorkloadConfig
