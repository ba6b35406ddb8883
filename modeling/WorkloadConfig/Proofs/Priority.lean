import WorkloadConfig.Proofs.Order.Reading
import WorkloadConfig.Settings

namespace WorkloadConfig

namespace Table
variable {κ α : Type} [DecidableEq κ]

theorem find?_filterMap (f : κ → Option α) (names : List κ) (key : κ) :
    find? (names.filterMap fun name => (f name).map (name, ·)) key =
      if key ∈ names then f key else none := by
  induction names with
  | nil => rfl
  | cons name rest ih =>
    by_cases same : name = key
    · subst same
      cases given : f name with
      | none => simp [given, ih]
      | some a => simp [given, find?]
    · cases given : f name with
      | none => simp [given, ih, Ne.symm same]
      | some a => simp [given, find?, same, ih, Ne.symm same]

end Table

inductive Setting where
  | lookupTimeout
  | fallbackNamespace
  | secretsKind
  | configsKind
  | maxWorkers
  | fieldManager

namespace Setting

def all : List Setting :=
  [lookupTimeout, fallbackNamespace, secretsKind, configsKind, maxWorkers, fieldManager]

def name : Setting → String
  | lookupTimeout => "lookup_timeout"
  | fallbackNamespace => "fallback_namespace"
  | secretsKind => "secrets_kind"
  | configsKind => "configs_kind"
  | maxWorkers => "max_workers"
  | fieldManager => "field_manager"

abbrev Content : Setting → Type
  | lookupTimeout => Binary64
  | maxWorkers => Int
  | fallbackNamespace | secretsKind | configsKind | fieldManager => String

def of (s : Settings) : (k : Setting) → k.Content
  | lookupTimeout => s.lookupTimeout
  | fallbackNamespace => s.fallbackNamespace
  | secretsKind => s.secretsKind
  | configsKind => s.configsKind
  | maxWorkers => s.maxWorkers
  | fieldManager => s.fieldManager

def reader : (k : Setting) → Schema.Reader k.Content
  | lookupTimeout => Settings.positive
  | maxWorkers => Settings.atLeastOne
  | fallbackNamespace | secretsKind | configsKind | fieldManager => Schema.text

/-- What the setting is read as, given a value or none. -/
def outcome (k : Setting) : Option Value → Checked k.Content
  | none => .valid (k.of Settings.defaults)
  | some v => k.reader v

def Admits (k : Setting) (found : Option Value) : Prop :=
  ∃ a, k.outcome found = .valid a

/-- The faults of all settings, in the order of the settings. -/
def faults (found : Setting → Option Value) : List Fault :=
  all.flatMap fun k => ((k.outcome (found k)).under (.key k.name)).faults

theorem name_mem (k : Setting) : k.name ∈ Settings.names := by
  cases k <;> decide

end Setting

theorem Checked.faults_seq {α β : Type} (f : Checked (α → β)) (a : Checked α) :
    (f <*> a).faults = f.faults ++ a.faults := by
  cases f <;> cases a <;> simp [Seq.seq, Checked.both, Checked.faults]

theorem Checked.faults_map {α β : Type} (f : α → β) (a : Checked α) :
    (f <$> a).faults = a.faults := by
  cases a <;> simp [Functor.map, Checked.both, Checked.faults]

namespace Settings
variable {given : Table String Value}

theorem read_eq (distinct : given.keys.Nodup) :
    let part (k : Setting) := (k.outcome (given.find? k.name)).under (.key k.name)
    read given = Settings.mk <$> part .lookupTimeout <*> part .fallbackNamespace <*>
      part .secretsKind <*> part .configsKind <*> part .maxWorkers <*> part .fieldManager := by
  intro part
  have each (k : Setting) :
      Schema.fieldOr (Value.ofTable given).entries k.name (k.of defaults) k.reader = part k := by
    have found : Schema.member? (Value.ofTable given).entries k.name = given.find? k.name :=
      (Schema.member?_eq (Table.nodup_keys_keyed.mpr distinct) k.name).trans
        (Table.find?_keyed given k.name)
    unfold Schema.fieldOr
    simp only [found, part]
    cases given.find? k.name <;> rfl
  simp only [← each]
  rfl

theorem read_exact (distinct : given.keys.Nodup) :
    ((∀ k : Setting, k.Admits (given.find? k.name)) → ∃ s, read given = .valid s ∧
      ∀ k : Setting, k.outcome (given.find? k.name) = .valid (k.of s)) ∧
    (¬ (∀ k : Setting, k.Admits (given.find? k.name)) →
      read given = .faulty (Setting.faults fun k => given.find? k.name)) := by
  have parts := read_eq distinct
  constructor
  · intro admitted
    choose a taken using admitted
    refine ⟨⟨a .lookupTimeout, a .fallbackNamespace, a .secretsKind, a .configsKind, a .maxWorkers,
      a .fieldManager⟩, ?_, fun k => by cases k <;> exact taken _⟩
    simp only [parts, taken]
    rfl
  · intro refused
    cases found : read given with
    | valid s =>
      refine absurd (fun k => ?_) refused
      rw [parts] at found
      obtain ⟨_, _, five, sixth, -⟩ := Checked.seq_eq_valid.mp found
      obtain ⟨_, _, four, fifth, -⟩ := Checked.seq_eq_valid.mp five
      obtain ⟨_, _, three, fourth, -⟩ := Checked.seq_eq_valid.mp four
      obtain ⟨_, _, two, third, -⟩ := Checked.seq_eq_valid.mp three
      obtain ⟨_, _, one, second, -⟩ := Checked.seq_eq_valid.mp two
      obtain ⟨_, first, -⟩ := Checked.map_eq_valid.mp one
      cases k
      · exact ⟨_, Checked.under_eq_valid.mp first⟩
      · exact ⟨_, Checked.under_eq_valid.mp second⟩
      · exact ⟨_, Checked.under_eq_valid.mp third⟩
      · exact ⟨_, Checked.under_eq_valid.mp fourth⟩
      · exact ⟨_, Checked.under_eq_valid.mp fifth⟩
      · exact ⟨_, Checked.under_eq_valid.mp sixth⟩
    | faulty faults =>
      have all : (read given).faults = Setting.faults fun k => given.find? k.name := by
        rw [parts]
        simp [Checked.faults_seq, Checked.faults_map, Setting.faults, Setting.all]
      rw [← all, found]
      rfl

variable {overrides : Table String Value} {env : Table String String}
  {bound : Table String (Option String)}

/-- An argument other than null. -/
def override? (overrides : Table String Value) (name : String) : Option Value :=
  (Table.find? overrides name).filter (· ≠ .null)

/-- The variable in its own spelling, or else the binding. -/
def spelled? (env : Table String String) (bound : Table String (Option String)) (name : String) :
    Option String :=
  (env.find? (variableFor name)).or (bound.find? (variableFor name)).join

/-- The value a setting is taken from: an argument, the variable in its own spelling, the binding,
or the variable in whatever spelling. -/
def taken? (overrides : Table String Value) (env : Table String String)
    (bound : Table String (Option String)) (name : String) : Option Value :=
  (override? overrides name).or (((spelled? env bound name).or (fromEnvironment? env name)).map .str)

/-- The value that stands highest: an argument, the variable however it is spelled, the binding. -/
def highest? (overrides : Table String Value) (env : Table String String)
    (bound : Table String (Option String)) (name : String) : Option Value :=
  (override? overrides name).or
    (((fromEnvironment? env name).or (bound.find? (variableFor name)).join).map .str)

theorem chosen?_eq (name : String) : chosen? overrides env bound name =
    (override? overrides name).or ((spelled? env bound name).map .str) := by
  unfold chosen? override?
  split
  · rename_i null
    rw [null]
    rfl
  · rename_i absent
    rw [absent]
    rfl
  · rename_i v notNull present
    have given : v ≠ .null := fun null => notNull null
    simp [present, Option.filter, given]

/-- A variable in its own spelling is one in some spelling. -/
theorem exists_fromEnvironment {name x : String} (found : env.find? (variableFor name) = some x) :
    ∃ y, fromEnvironment? env name = some y := by
  have there := Table.mem_of_find? found
  cases last : fromEnvironment? env name with
  | some y => exact ⟨y, rfl⟩
  | none =>
    simp only [fromEnvironment?, Option.map_eq_none_iff, List.find?_eq_none] at last
    exact absurd (decide_eq_true rfl) (last _ (List.mem_reverse.mpr there))

theorem taken?_eq_highest?_iff (name : String) :
    taken? overrides env bound name = highest? overrides env bound name ↔
      (∃ v, override? overrides name = some v) ∨
        ∀ x y, fromEnvironment? env name = some x → spelled? env bound name = some y → x = y := by
  unfold taken? highest?
  cases override? overrides name with
  | some v => simp
  | none =>
    cases last : fromEnvironment? env name with
    | none =>
      -- In no spelling at all, so not in its own either.
      have own : env.find? (variableFor name) = none := by
        by_contra found
        obtain ⟨x, found⟩ := Option.ne_none_iff_exists'.mp found
        obtain ⟨y, given⟩ := exists_fromEnvironment found
        cases given.symm.trans last
      simp [spelled?, own]
    | some x => cases spelled? env bound name <;> simp [eq_comm]

/-- What each setting is read from in the end. -/
def takenAll (overrides : Table String Value) (env : Table String String)
    (bound : Table String (Option String)) : Table String Value :=
  names.filterMap fun name => (taken? overrides env bound name).map (name, ·)

theorem ofArguments_chosen :
    ofArguments env (names.filterMap fun name => (chosen? overrides env bound name).map (name, ·)) =
      (read (takenAll overrides env bound)).report title := by
  unfold ofArguments takenAll
  refine congrArg (fun given => (read given).report title) ?_
  refine List.filterMap_congr fun name member => ?_
  rw [Table.find?_filterMap, if_pos member, chosen?_eq, Option.or_assoc, ← Option.map_or, taken?]

theorem load_eq (known : ∀ name ∈ overrides.keys, name ∈ names) :
    load overrides env bound = match read (takenAll overrides env bound) with
      | .valid s => .ok s
      | .faulty faults => Result.fail (.config (.invalidSettings ⟨title, faults⟩)) := by
  have noDirectory : overrides.contains directoryArgument = false := by
    cases there : Table.find? overrides directoryArgument with
    | none => simp [Table.contains, there]
    | some v =>
      have member : directoryArgument ∈ names :=
        known _ (List.mem_map_of_mem (Table.mem_of_find? there))
      exact absurd member (by decide)
  have noStrangers : overrides.keys.filter (!names.contains ·) = [] := by
    simpa using known
  have entered : checkNames overrides = .ok () := by simp [checkNames, noDirectory]
  unfold load
  rw [entered]
  simp only [noStrangers, ofArguments_chosen, Result.ok_bind]
  cases read (takenAll overrides env bound) <;> rfl

/-- The settings are loaded if each value can be read, and otherwise the faults of all are reported.
The value is the one that stands highest, unless the environment has the variable in a spelling of
its own and the text of that is not what the upper-case name has there or else in the bindings. -/
theorem load_exact (known : ∀ name ∈ overrides.keys, name ∈ names) :
    let found (k : Setting) := taken? overrides env bound k.name
    ((∀ k : Setting, k.Admits (found k)) → ∃ s, load overrides env bound = .ok s ∧
      ∀ k : Setting, k.outcome (found k) = .valid (k.of s)) ∧
    (¬ (∀ k : Setting, k.Admits (found k)) → load overrides env bound =
      Result.fail (.config (.invalidSettings ⟨title, Setting.faults found⟩))) ∧
    ∀ k : Setting, found k = highest? overrides env bound k.name ↔
      (∃ v, override? overrides k.name = some v) ∨ ∀ x y,
        fromEnvironment? env k.name = some x → spelled? env bound k.name = some y → x = y := by
  intro found
  have distinct : (takenAll overrides env bound).keys.Nodup := by
    have names : (names.map id).Nodup := by decide
    refine Table.nodup_keys_filterMap names fun name entry given => ?_
    obtain ⟨v, -, rfl⟩ := Option.map_eq_some_iff.mp given
    rfl
  have own (k : Setting) : (takenAll overrides env bound).find? k.name = found k := by
    rw [takenAll, Table.find?_filterMap, if_pos k.name_mem]
  obtain ⟨accepted, refused⟩ := read_exact distinct
  simp only [own] at accepted refused
  rw [load_eq known]
  refine ⟨fun admitted => ?_, fun not => ?_, fun k => taken?_eq_highest?_iff k.name⟩
  · obtain ⟨s, reads, each⟩ := accepted admitted
    exact ⟨s, by rw [reads], each⟩
  · rw [refused not]

/-- In lower case the variable of a setting is its name after the prefix. -/
theorem lowered_variableFor (k : Setting) :
    lowered (variableFor k.name) = "kresolve_" ++ k.name := by
  have upper : variableFor k.name = match k with
      | .lookupTimeout => "KRESOLVE_LOOKUP_TIMEOUT"
      | .fallbackNamespace => "KRESOLVE_FALLBACK_NAMESPACE"
      | .secretsKind => "KRESOLVE_SECRETS_KIND"
      | .configsKind => "KRESOLVE_CONFIGS_KIND"
      | .maxWorkers => "KRESOLVE_MAX_WORKERS"
      | .fieldManager => "KRESOLVE_FIELD_MANAGER" := by
    cases k <;> decide +kernel
  rw [upper]
  cases k <;> decide +kernel

/-- A null argument, a variable in lower case, and a binding of another setting. -/
theorem load_exact_ofPlaces :
    let overrides : Table String Value := [("field_manager", .str "me"), ("max_workers", .null)]
    let env : Table String String := [("kresolve_max_workers", "6")]
    let bound : Table String (Option String) := [("KRESOLVE_SECRETS_KIND", some "Vault")]
    ∃ s, load overrides env bound = .ok s ∧
      (∀ k : Setting, k.outcome (highest? overrides env bound k.name) = .valid (k.of s)) ∧
      s.fieldManager = "me" ∧ s.maxWorkers = 6 ∧ s.secretsKind = "Vault" := by
  intro overrides env bound
  obtain ⟨accepted, -, highest⟩ := @load_exact overrides env bound (by decide)
  have inEnvironment (k : Setting) : fromEnvironment? env k.name = match k with
      | .maxWorkers => some "6"
      | _ => none := by
    rw [fromEnvironment?, lowered_variableFor]
    cases k <;> decide +kernel
  have inOwnSpelling (k : Setting) : spelled? env bound k.name = match k with
      | .secretsKind => some "Vault"
      | _ => none := by
    cases k <;> decide +kernel
  have overridden (k : Setting) : override? overrides k.name = match k with
      | .fieldManager => some (.str "me")
      | _ => none := by
    cases k <;> rfl
  have found (k : Setting) : taken? overrides env bound k.name = match k with
      | .secretsKind => some (.str "Vault")
      | .maxWorkers => some (.str "6")
      | .fieldManager => some (.str "me")
      | _ => none := by
    rw [taken?, overridden, inOwnSpelling, inEnvironment]
    cases k <;> rfl
  have admitted (k : Setting) : k.Admits (taken? overrides env bound k.name) := by
    rw [found]
    cases k <;> exact ⟨_, rfl⟩
  have top (k : Setting) :
      taken? overrides env bound k.name = highest? overrides env bound k.name := by
    refine (highest k).mpr (.inr fun x y given own => ?_)
    rw [inEnvironment] at given
    rw [inOwnSpelling] at own
    cases k with
    | maxWorkers => cases own
    | _ => cases given
  obtain ⟨s, loads, each⟩ := accepted admitted
  refine ⟨s, loads, fun k => top k ▸ each k, ?_⟩
  simp only [found] at each
  exact ⟨(Checked.valid.inj (each .fieldManager)).symm, (Checked.valid.inj (each .maxWorkers)).symm,
    (Checked.valid.inj (each .secretsKind)).symm⟩

/-- The variable in lower case stands above the binding, which is taken nonetheless. -/
theorem load_ne_highest :
    let env : Table String String := [("kresolve_max_workers", "6")]
    let bound : Table String (Option String) := [("KRESOLVE_MAX_WORKERS", some "8")]
    highest? [] env bound Setting.maxWorkers.name = some (.str "6") ∧
      Setting.maxWorkers.outcome (some (.str "6")) = .valid 6 ∧
      load [] env bound = .ok { maxWorkers := 8 } := by
  intro env bound
  have inEnvironment : fromEnvironment? env Setting.maxWorkers.name = some "6" := by
    rw [fromEnvironment?, lowered_variableFor]
    decide +kernel
  refine ⟨?_, rfl, by decide +kernel⟩
  rw [highest?, inEnvironment]
  rfl

end Settings
end WorkloadConfig
