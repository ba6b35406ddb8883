import WorkloadConfig.Proofs.Coverage
import WorkloadConfig.Proofs.History
import WorkloadConfig.Proofs.Order.Fields

namespace WorkloadConfig

/-- Outputs and the data of the connection differ at most in the order of their entries. -/
structure Record.Reordered (r r' : Record) : Prop where
  kind : r.kind = r'.kind
  ns : r.ns = r'.ns
  name : r.name = r'.name
  outputs : Table.Reordered Value.Reordered r.outputs r'.outputs
  connection : r.connection.name = r'.connection.name
  data : Table.Reordered (· = ·) r.connection.data r'.connection.data
  resources : r.resources = r'.resources
  generation : r.generation = r'.generation

/-- The canonical text of all that is stored of a record but the moment of its writing. -/
def Record.canonical (r : Record) : String :=
  Json.canonical (Value.ofTable r.toValue)

theorem Record.Reordered.canonical_eq {r r' : Record} (same : r.Reordered r') :
    r.canonical = r'.canonical := by
  have outputs := Value.reordered_ofTable same.outputs
  have data := Value.reordered_ofLabels same.data
  have name : (Value.str r'.connection.name).Reordered (.str r'.connection.name) := .scalar _
  have connection := (Value.Reordered.empty.put "name" name).put "data" data
  have resources : (Value.list (r'.resources.map .str)).Reordered (.list (r'.resources.map .str)) :=
    .list (List.forall₂_same.mpr fun v member => by
      obtain ⟨text, -, rfl⟩ := List.mem_map.mp member
      exact .scalar _)
  have parts : Table.Aligned Value.Reordered r.toValue r'.toValue := by
    unfold Record.toValue Record.address
    rw [same.kind, same.ns, same.name, same.connection, same.resources, same.generation]
    exact .cons ⟨rfl, .scalar _⟩ (.cons ⟨rfl, .scalar _⟩ (.cons ⟨rfl, .scalar _⟩
      (.cons ⟨rfl, outputs⟩ (.cons ⟨rfl, connection⟩ (.cons ⟨rfl, resources⟩
        (.cons ⟨rfl, .scalar _⟩ (.cons ⟨rfl, .scalar _⟩ .nil)))))))
  have distinct : r.toValue.keys.Nodup := by
    simp [Record.toValue, Table.keys]
  exact (Value.reordered_ofTable (parts.reordered distinct)).canonical_eq

/-- The stores hold reorderings of each other's records. -/
def MemoryStore.Reordered (s s' : MemoryStore) : Prop :=
  ∀ ns name, Option.Rel Record.Reordered (s.read ns name) (s'.read ns name)

/-- Outputs differ at most in the order of their entries. -/
structure Target.Reordered (a b : Target) : Prop where
  kind : a.kind = b.kind
  outputs : Table.Reordered Value.Reordered a.outputs b.outputs
  connectionSecret : a.connectionSecret = b.connectionSecret
  connectionKeys : a.connectionKeys = b.connectionKeys
  resources : a.resources = b.resources

inductive Resolved.Reordered : Resolved → Resolved → Prop
  | literal {v w : Value} : v.Reordered w → Reordered (.literal v) (.literal w)
  | pointer (p : Pointer) : Reordered (.pointer p) (.pointer p)

theorem Record.Reordered.target {r r' : Record} (same : r.Reordered r') :
    (Target.ofRecord r).Reordered (Target.ofRecord r') where
  kind := same.kind
  outputs := same.outputs
  connectionSecret := same.connection
  connectionKeys := congrArg some (Sorting.texts_eq_of_perm same.data.keys_perm)
  resources := by simp only [Target.ofRecord, same.resources]

/-- The finders find reorderings of each other's targets. -/
def Finder.Matches (find find' : Finder Result) : Prop :=
  ∀ ns name, Result.Matches (Option.Rel Target.Reordered) (find ns name) (find' ns name)

theorem MemoryStore.Reordered.view {s s' : MemoryStore} (same : s.Reordered s') :
    Finder.Matches s.view s'.view := by
  intro ns name
  unfold MemoryStore.view
  rcases rel_cases (same ns name) with ⟨one, two⟩ | ⟨a, b, one, two, related⟩ <;> rw [one, two]
  · exact .ok .none
  · exact .ok (.some related.target)

namespace Finder
variable {find find' : Finder Result}

theorem exists_matches (same : find.Matches find') (ns name : String) :
    Result.Matches (· = ·) (find.exists ns name) (find'.exists ns name) := by
  refine (same ns name).bind fun found found' related => .ok ?_
  rcases rel_cases related with ⟨rfl, rfl⟩ | ⟨a, b, rfl, rfl, -⟩ <;> rfl

theorem require_matches (same : find.Matches find') (ns name : String) :
    Result.Matches Target.Reordered (find.require ns name) (find'.require ns name) := by
  refine (same ns name).bind fun found found' related => ?_
  rcases rel_cases related with ⟨rfl, rfl⟩ | ⟨a, b, rfl, rfl, both⟩
  · exact .error rfl
  · exact .ok both

end Finder

namespace Resolver
variable {r : Resolver} {find find' : Finder Result}

theorem namespaceOf_matches (same : find.Matches find') (reference : Reference) :
    Result.Matches (· = ·) (r.namespaceOf find reference) (r.namespaceOf find' reference) := by
  cases reference with
  | output explicit target key =>
    cases explicit with
    | some ns => exact .ok rfl
    | none =>
      refine (Finder.exists_matches same r.ns target).bind ?_
      rintro here _ rfl
      split
      · exact .ok rfl
      · unfold fallbackNamespace
        split
        · refine (Finder.exists_matches same _ target).bind ?_
          rintro there _ rfl
          exact .of_eq rfl
        · exact .error rfl
  | connection | secret | config => exact .ok rfl

theorem checked_matches (target name : String) (listed : Option (List String)) (pointer : Pointer) :
    Result.Matches Resolved.Reordered (checked target name listed (.pointer pointer))
      (checked target name listed (.pointer pointer)) := by
  unfold checked
  split
  · split
    · exact .ok (.pointer pointer)
    · exact .error rfl
  · exact .ok (.pointer pointer)

theorem managed_matches {a b : Target} (same : a.Reordered b) (expected : String)
    (source : PointerSource) (target resource : String) (key : Option String) :
    Result.Matches Resolved.Reordered (managed expected source target resource key a)
      (managed expected source target resource key b) := by
  simp only [managed, same.kind, same.resources]
  split
  · exact checked_matches _ _ _ _
  · exact .error rfl

theorem shown_matches {a b : Target} (same : a.Reordered b) (reference : Reference) :
    Result.Matches Resolved.Reordered (r.shown reference a) (r.shown reference b) := by
  cases reference with
  | output _ target key =>
    simp only [shown, output]
    rcases rel_cases (same.outputs.under key) with ⟨one, two⟩ | ⟨v, w, one, two, related⟩ <;>
      rw [one, two]
    · exact .error rfl
    · exact .ok (.literal related)
  | connection target key =>
    simp only [shown, connection, same.connectionKeys, same.connectionSecret]
    exact checked_matches _ _ _ _
  | secret target resource key => exact managed_matches same _ _ _ _ _
  | config target resource key => exact managed_matches same _ _ _ _ _

theorem resolveBy_matches (same : find.Matches find') (reference : Reference) :
    Result.Matches Resolved.Reordered (r.resolveBy find reference)
      (r.resolveBy find' reference) := by
  rw [resolveBy_eq, resolveBy_eq]
  refine (namespaceOf_matches same reference).bind ?_
  rintro ns _ rfl
  exact (Finder.require_matches same ns reference.target).bind fun _ _ target =>
    shown_matches target reference

theorem fails_gather {outcomes : List (String × Result Resolved)}
    (each : ∀ entry ∈ outcomes, entry.2.Fails .reported) : (gather outcomes).Fails .reported := by
  induction outcomes with
  | nil => exact .ok _
  | cons entry rest ih =>
    obtain ⟨first, later⟩ := List.forall_mem_cons.mp each
    exact .bind first fun _ _ => .bind (ih later) fun _ _ => .ok _

theorem fails_checked (target name : String) (listed : Option (List String)) (resolved : Resolved) :
    (checked target name listed resolved).Fails .reported := by
  unfold checked
  split
  · split
    · exact .ok _
    · exact .error rfl
  · exact .ok _

theorem fails_managed (expected : String) (source : PointerSource) (target resource : String)
    (key : Option String) (found : Target) :
    (managed expected source target resource key found).Fails .reported := by
  unfold managed
  split
  · exact fails_checked _ _ _ _
  · exact .error rfl

theorem fails_shown (reference : Reference) (found : Target) :
    (r.shown reference found).Fails .reported := by
  cases reference with
  | output _ target key =>
    simp only [shown, output]
    split
    · exact .ok _
    · exact .error rfl
  | connection target key => exact fails_checked _ _ _ _
  | secret target resource key => exact fails_managed _ _ _ _ _ _
  | config target resource key => exact fails_managed _ _ _ _ _ _

theorem fails_namespaceOf (answers : ∀ ns name, (find ns name).Fails .reported)
    (reference : Reference) : (r.namespaceOf find reference).Fails .reported := by
  have there (ns name : String) : (find.exists ns name).Fails .reported :=
    .bind (answers ns name) fun _ _ => .ok _
  cases reference with
  | output explicit target key =>
    cases explicit with
    | some ns => exact .ok _
    | none =>
      refine .bind (there _ _) fun here _ => ?_
      split
      · exact .ok _
      · unfold fallbackNamespace
        split
        · refine .bind (there _ _) fun behind _ => ?_
          split
          · exact .ok _
          · exact .error rfl
        · exact .error rfl
  | connection | secret | config => exact .ok _

/-- As long as every name is answered, all that resolving can end in is reported. -/
theorem fails_resolveBy (answers : ∀ ns name, (find ns name).Fails .reported)
    (reference : Reference) : (r.resolveBy find reference).Fails .reported := by
  have required (ns name : String) : (find.require ns name).Fails .reported := by
    refine .bind (answers ns name) fun found _ => ?_
    cases found
    · exact .error rfl
    · exact .ok _
  rw [resolveBy_eq]
  exact .bind (fails_namespaceOf answers reference) fun ns _ =>
    .bind (required ns _) fun found _ => fails_shown reference found

/-- What can be gathered can be gathered in another order. -/
theorem exists_gather {R : Resolved → Resolved → Prop}
    {outcomes others : Table String (Result Resolved)} {refs : Resolutions}
    (same : Table.Reordered (fun x y => ∀ a, x = .ok a → ∃ b, y = .ok b ∧ R a b) outcomes others)
    (gathered : gather outcomes = .ok refs) :
    ∃ refs', gather others = .ok refs' ∧ Table.Reordered R refs refs' := by
  have aligned := gather_eq_ok.mp gathered
  obtain ⟨refs', aligned'⟩ := Table.Aligned.exists_of_reordered same aligned
    fun x y related ⟨a, comes⟩ => (related a comes).imp fun _ => And.left
  refine ⟨refs', gather_eq_ok.mpr aligned', Table.Aligned.reordered_of_reordered same aligned
    aligned' fun x y a b related comes comes' => ?_⟩
  obtain ⟨b', comes'', holds⟩ := related a comes
  cases Except.ok.inj (comes'.symm.trans comes'')
  exact holds

/-- Outcomes that match each other are gathered alike. -/
theorem gather_matches {outcomes others : Table String (Result Resolved)}
    (same : Table.Reordered (Result.Matches Resolved.Reordered) outcomes others)
    (fails : ∀ entry ∈ outcomes, entry.2.Fails .reported)
    (fails' : ∀ entry ∈ others, entry.2.Fails .reported) :
    Result.Matches (Table.Reordered Resolved.Reordered) (gather outcomes) (gather others) := by
  refine .intro (fun refs gathered => ?_) (fun refs gathered => ?_) (fails_gather fails)
    (fails_gather fails')
  · exact exists_gather (same.imp_mem fun _ _ _ related _ => related.exists_ok) gathered
  · exact (exists_gather (same.flip.imp_mem fun _ _ _ related _ => related.flip.exists_ok)
      gathered).imp fun _ => And.left

end Resolver

theorem Engine.collected_of_planned {e : Engine} {around : Surroundings} {i : Instance} {p : Plan}
    (planned : e.planned around i = .ok p) :
    Reference.collect (p.fields.map (·.2)) = .ok p.references := by
  simp only [Engine.planned, Engine.plan, Result.bind_eq_ok] at planned
  obtain ⟨_, -, fields, -, references, collected, same⟩ := planned
  cases same
  exact collected

namespace Reference
variable {values : List Value} {references : List Reference}

theorem eraseDups_perm {references' : List Reference}
    (same : ∀ reference, reference ∈ references ↔ reference ∈ references') :
    references.eraseDups.Perm references'.eraseDups := by
  refine (List.perm_ext_iff_of_nodup (nodup_eraseDups _) (nodup_eraseDups _)).mpr ?_
  intro reference
  rw [List.mem_eraseDups, List.mem_eraseDups, same]

theorem parsed_of_collect (collected : collect values = .ok references) : Parsed references := by
  intro reference member
  obtain ⟨leaf, -, parses⟩ := (mem_collect collected reference).mp member
  rw [text_of_parse parses, parses]

/-- No two references are written as one text. -/
theorem Parsed.nodup_texts (parsed : Parsed references) :
    (references.eraseDups.map text).Nodup := by
  refine (nodup_eraseDups references).map_on fun a inA b inB same => ?_
  have ofA := parsed a (List.mem_eraseDups.mp inA)
  have ofB := parsed b (List.mem_eraseDups.mp inB)
  rw [same, ofB] at ofA
  simpa using ofA.symm

end Reference

namespace Turn
variable {t t' : Turn} {s s' : MemoryStore} {p p' : Plan}

/-- The references of plans that have the same ones come to the same up to order. -/
theorem lookUp_matches (stores : s.Reordered s') (resolvers : t.resolver = t'.resolver)
    (references : ∀ reference, reference ∈ p.references ↔ reference ∈ p'.references)
    (parsed : Reference.Parsed p.references) :
    Result.Matches (Table.Reordered Resolved.Reordered) (t.engine.lookUp t.around t.inst s p).1
      (t'.engine.lookUp t'.around t'.inst s' p').1 := by
  rw [lookUp_eq, lookUp_eq, resolvers]
  have perm := Reference.eraseDups_perm references
  have reported (s : MemoryStore) (references : List Reference) : ∀ entry ∈
      references.map fun reference => (reference.text, t'.resolver.resolveBy s.view reference),
      entry.2.Fails .reported :=
    List.forall_mem_map.mpr fun reference _ =>
      Resolver.fails_resolveBy (fun _ _ => .ok _) reference
  exact Resolver.gather_matches (Table.Reordered.of_items perm parsed.nodup_texts fun reference _ =>
    Resolver.resolveBy_matches stores.view reference) (reported s _) (reported s' _)

end Turn
end WorkloadConfig
