import WorkloadConfig.Proofs.Cleanliness
import WorkloadConfig.Proofs.Sharing

namespace WorkloadConfig

namespace Value
variable {f : String → Value} {covered : List String → Bool}

/-- No text above the path that lies at a covered position stands for a map with entries. -/
def Unobstructed (v : Value) (f : String → Value) (covered : List String → Bool)
    (path : List String) : Prop :=
  ∀ above text, above <+: path → above ≠ path → covered above = true →
    v.get? above = some (.str text) → (f text).entries = []

theorem get?_of_lookup {v : Value} {k text : String} {path : List String}
    (found : (v.lookup (.str k)).get? path = some (.str text)) :
    v.get? (k :: path) = some (.str text) := by
  rw [get?_cons]
  unfold lookup at found
  cases here : Table.find? v.entries (.str k) with
  | none => cases path <;> simp [here, get?] at found
  | some part => simpa [here] using found

theorem Unobstructed.lookup {v : Value} {k : String} {path : List String}
    (free : v.Unobstructed f covered (k :: path)) :
    (v.lookup (.str k)).Unobstructed f (fun other => covered (k :: other)) path := by
  intro above text before apart isCovered found
  exact free (k :: above) text (by simpa using before) (by simpa using apart) isCovered
    (get?_of_lookup found)

/-- A text that stands for no entries is as good as a value without any. -/
theorem entries_substitute {v : Value} (free : ∀ text, v = .str text → (f text).entries = []) :
    (v.substitute f).entries = substituteEntries f v.entries := by
  cases v with
  | scalar s =>
    cases s with
    | str text => exact free text rfl
    | _ => rfl
  | list _ | map _ => rfl

theorem lookup_substitute {v : Value} (free : ∀ text, v = .str text → (f text).entries = [])
    (key : Key) : (v.substitute f).lookup key = (v.lookup key).substitute f := by
  rw [lookup, entries_substitute free, find?_substituteEntries, lookup]
  cases Table.find? v.entries key <;> rfl

theorem substitute_set {v : Value} {path : List String} (new : Value)
    (free : v.Unobstructed f (fun _ => true) path) :
    (v.set path new).substitute f = (v.substitute f).set path (new.substitute f) := by
  induction path generalizing v with
  | nil => rfl
  | cons k path ih =>
    have here : ∀ text, v = .str text → (f text).entries = [] := by
      rintro text rfl
      exact free [] text List.nil_prefix (by simp) rfl rfl
    rw [set_cons, set_cons, substitute, substituteEntries_put, ih free.lookup,
      entries_substitute here, lookup_substitute here]

/-- To write and then substitute where the path is covered as well comes to substituting first and
writing what the new value turns into. -/
theorem substituteWhere_set {v : Value} {path : List String} (new : Value)
    (closed : ∀ position rest, covered position = true → covered (position ++ rest) = true)
    (free : v.Unobstructed f covered path) :
    (v.set path new).substituteWhere f (fun other => path.isPrefixOf other || covered other) =
      (v.substituteWhere f covered).set path (new.substitute f) := by
  induction path generalizing v covered with
  | nil => exact substituteWhere_of_covered _ rfl
  | cons k path ih =>
    cases here : covered [] with
    | true =>
      have everywhere : v.Unobstructed f (fun _ => true) (k :: path) :=
        fun above text before apart _ => free above text before apart (closed [] above here)
      rw [substituteWhere_of_covered _ (by simp [here]), substituteWhere_of_covered _ here,
        substitute_set new everywhere]
    | false =>
      have agree : ∀ other, other.head? ≠ some k →
          ((k :: path).isPrefixOf other || covered other) = covered other := fun other head => by
        rw [isPrefixOf_cons_eq_false head, Bool.false_or]
      have under := ih (v := v.lookup (.str k)) (fun position rest => closed (k :: position) rest)
        free.lookup
      rw [set_cons, set_cons, substituteWhere, if_neg (by simp [here]),
        substituteEntriesWhere_put _ agree, entries_substituteWhere v here,
        lookup_substituteWhere v k here, ← under]
      simp

/-- Every writing is made where no text that was written before it, and stands for a map with
entries, is in the way. -/
def Unhindered (v : Value) (f : String → Value) (writings : List (FieldPath × Value)) : Prop :=
  ∀ earlier place new later, writings = earlier ++ (place, new) :: later →
    (v.written earlier).Unobstructed f (FieldPath.covering (earlier.map (·.1))) place.segments

/-- The writings of the substituted values. -/
def substituted (f : String → Value) (writings : List (FieldPath × Value)) :
    List (FieldPath × Value) :=
  writings.map fun writing => (writing.1, writing.2.substitute f)

/-- To substitute at and below all places that were written to comes to writing the substituted
values. -/
theorem substituteWhere_written {v : Value} {writings : List (FieldPath × Value)}
    (free : v.Unhindered f writings) :
    (v.written writings).substituteWhere f (FieldPath.covering (writings.map (·.1))) =
      v.written (substituted f writings) := by
  induction writings using List.reverseRecOn with
  | nil => exact substituteWhere_of_none v fun _ => rfl
  | append_singleton writings writing ih =>
    obtain ⟨place, new⟩ := writing
    have before : v.Unhindered f writings := fun earlier q u later split =>
      free earlier q u (later ++ [(place, new)]) (by simp [split])
    have closed : ∀ position rest, FieldPath.covering (writings.map (·.1)) position = true →
        FieldPath.covering (writings.map (·.1)) (position ++ rest) = true := by
      intro position rest isCovered
      obtain ⟨q, member, above⟩ := FieldPath.covering_iff.mp isCovered
      exact FieldPath.covering_iff.mpr ⟨q, member, above.trans (List.prefix_append _ _)⟩
    have covers : FieldPath.covering ((writings ++ [(place, new)]).map (·.1)) =
        fun other => place.segments.isPrefixOf other ||
          FieldPath.covering (writings.map (·.1)) other := by
      funext other
      simp [FieldPath.covering, Bool.or_comm]
    have last := free writings place new [] rfl
    have split : substituted f (writings ++ [(place, new)]) =
        substituted f writings ++ [(place, new.substitute f)] := List.map_append
    rw [covers, written_concat, substituteWhere_set new closed last, ih before, split,
      written_concat]

end Value

/-- The field values with each reference among them replaced by what it stands for. -/
def Assignment.injected (fields : Assignment) (refs : Resolutions) : Result Assignment :=
  fields.mapM fun field => Prod.mk field.1 <$> refs.injectFields field.2

theorem Assignment.eq_of_injected {fields fields' : Assignment} {refs : Resolutions}
    (injected : fields.injected refs = .ok fields') :
    (∀ field ∈ fields, refs.Replaces (fun pointer => .ok pointer.field) field.2.leaves) ∧
      fields' = Table.mapValues fields (Value.substitute refs.meaning) := by
  refine (Result.mapM_eq_ok_iff fun field _ new => ?_).mp injected
  exact Result.map_eq_ok_iff fun _ => Resolutions.inject_eq_ok

namespace Resolutions

/-- Whatever is no reference stands for itself. -/
theorem meaning_of_not_reference (refs : Resolutions) {text : String}
    (notReference : Reference.isReference text = false) : refs.meaning text = .str text := by
  simp only [meaning, standing, replacement, notReference, Bool.false_eq_true, if_false]

/-- Without resolutions no text stands for a map. -/
theorem entries_meaning_nil (text : String) : (meaning [] text).entries = [] := by
  cases begins : Reference.isReference text with
  | true => simp [meaning, standing, replacement, begins, Table.find?, Value.entries]
  | false => simp [meaning_of_not_reference [] begins, Value.entries]

end Resolutions

namespace Template
variable {t : Template} {fields fields' : Assignment} {refs : Resolutions}

/-- No field value is written below a reference that a field value before it holds and that stands
for a map with entries. -/
def Unhindered (t : Template) (fields : Assignment) (refs : Resolutions) : Prop :=
  t.skeleton.Unhindered refs.meaning (t.present fields)

/-- It is enough that no patch writes below the place of one before it. -/
theorem unhindered_of_pairwise
    (apart : (t.places fields).Pairwise fun earlier later => ¬ earlier.above later = true) :
    t.Unhindered fields refs := by
  intro earlier place new later split above text before strict isCovered _
  obtain ⟨p, member, outer⟩ := FieldPath.covering_iff.mp isCovered
  rw [places, split, List.map_append, List.map_cons, List.pairwise_append] at apart
  refine absurd (FieldPath.above_iff.mpr ⟨outer.trans before, ?_⟩)
    (apart.2.2 p member place List.mem_cons_self)
  rintro rfl
  exact strict (before.eq_of_length_le outer.length_le)

theorem present_mapValues (t : Template) (fields : Assignment) (f : String → Value) :
    t.present (Table.mapValues fields (Value.substitute f)) =
      Value.substituted f (t.present fields) := by
  simp only [present, Value.substituted, List.map_filterMap, Table.find?_mapValues, Option.map_map]
  rfl

theorem mem_of_present {place : FieldPath} {v : Value} (member : (place, v) ∈ t.present fields) :
    ∃ path, (path, v) ∈ fields := by
  obtain ⟨patch, -, found⟩ := List.mem_filterMap.mp member
  obtain ⟨u, holds, same⟩ := Option.map_eq_some_iff.mp found
  cases same
  exact ⟨_, Table.mem_of_find? holds⟩

/-- A template is filled by writing what the field values turn into. -/
theorem filled_of_unhindered (replaces : ∀ field ∈ fields,
      refs.Replaces (fun pointer => .ok pointer.field) field.2.leaves)
    (free : t.Unhindered fields refs) :
    t.filled fields refs =
      .ok (t.skeleton.written (Value.substituted refs.meaning (t.present fields))) := by
  rw [filled_of_replaces, patched_eq, places, Value.substituteWhere_written free]
  intro writing member
  obtain ⟨path, held⟩ := mem_of_present member
  exact replaces _ held

/-- Field values without references are written as they are. -/
theorem filled_of_clean (clean : ∀ field ∈ fields, field.2.Clean) :
    t.filled fields [] = .ok (t.skeleton.written (t.present fields)) := by
  have same : Value.substituted (Resolutions.meaning []) (t.present fields) = t.present fields := by
    refine (List.map_congr_left fun writing member => ?_).trans (List.map_id _)
    obtain ⟨path, held⟩ := mem_of_present member
    have asWritten : writing.2.substitute (Resolutions.meaning []) = writing.2.substitute .str :=
      Value.substitute_congr fun leaf within =>
        Resolutions.meaning_of_not_reference [] (clean _ held leaf within)
    rw [asWritten, Value.substitute_str, id]
  rw [filled_of_unhindered, same]
  · intro field member leaf within
    exact ⟨_, if_neg (by simp [clean field member leaf within])⟩
  · intro earlier place new later split above text before apart isCovered found
    exact Resolutions.entries_meaning_nil text

/-- A template is filled with the same whether references stand for values or the values stand there
themselves. -/
theorem filled_injected (clean : refs.Clean)
    (injected : Assignment.injected fields refs = .ok fields') (free : t.Unhindered fields refs) :
    t.filled fields' [] = t.filled fields refs := by
  obtain ⟨replaces, rfl⟩ := Assignment.eq_of_injected injected
  rw [filled_of_unhindered replaces free, filled_of_clean, present_mapValues]
  intro field member leaf within
  obtain ⟨old, -, rfl⟩ := List.mem_map.mp member
  obtain ⟨text, -, within⟩ := Value.mem_leaves_substitute.mp within
  exact clean.meaning text leaf within

end Template

theorem Instance.resources_eq_of_injected (i : Instance) (c : Composition) (manager : String)
    {fields fields' : Assignment} {refs : Resolutions} (clean : refs.Clean)
    (injected : Assignment.injected fields refs = .ok fields')
    (free : ∀ t ∈ c.resources, t.Unhindered fields refs) :
    i.resources c manager fields' [] = i.resources c manager fields refs := by
  refine mapM_congr fun t member => ?_
  simp only [resource, Template.filled_injected clean injected (free t member)]

/-- An instance has the same resources whether its field values refer to values or hold them
themselves, and fails in the same way where it fails, provided that no map stands at two places of a
skeleton or a field value, and that no value is written below a reference that stands for a map with
entries. -/
theorem Instance.resources_injected (i : Instance) {d : Design} (manager : String)
    {fields fields' : Table String Linked} {refs : Resolutions} (unshared : d.IsUnshared)
    (own : ∀ field ∈ fields, field.2.IsUnshared) (own' : ∀ field ∈ fields', field.2.IsUnshared)
    (clean : refs.Clean)
    (injected : Assignment.injected (fields.mapValues Linked.value) refs =
      .ok (fields'.mapValues Linked.value))
    (free : ∀ t ∈ d.composition.resources, t.Unhindered (fields.mapValues Linked.value) refs) :
    i.resourcesOf d manager fields' [] = i.resourcesOf d manager fields refs := by
  rw [resourcesOf_eq i manager [] unshared own', resourcesOf_eq i manager refs unshared own]
  exact i.resources_eq_of_injected d.composition manager clean injected free

/-- A design of one template with the patches. -/
def Design.ofPatches (patches : List Patch) : Design where
  kind := "App"
  blueprints := [{ name := ⟨"main", Eq.refl true⟩, kind := "Deployment", patches }]

/-- Patches that write a database and a port into it. -/
def Patch.ofDatabase : Patch where
  field := ⟨"db", by decide⟩
  place := ⟨"spec.db", by decide⟩

def Patch.ofPort : Patch where
  field := ⟨"port", by decide⟩
  place := ⟨"spec.db.port", by decide⟩

namespace Instance

def ofWeb : Instance where
  kind := "App"
  name := .web
  ns := .team

def database : Value := .map [("host", .str "db")]

theorem clean_database :
    Resolutions.Clean [("outputs/db/all", .literal database)] := by
  intro entry member
  rw [List.mem_singleton.mp member]
  exact (by decide : ∀ leaf ∈ database.leaves, Reference.isReference leaf = false)

/-- The database is written over the port, so nothing of what it stands for is written into. -/
theorem resources_injected_ofPatches :
    let d := Design.ofPatches [.ofPort, .ofDatabase]
    let refs : Resolutions := [("outputs/db/all", .literal database)]
    let fields : Table String Linked := [("db", .str "outputs/db/all"), ("port", .int 1)]
    let fields' : Table String Linked := [("db", .plain database), ("port", .int 1)]
    d.IsUnshared ∧ (∀ field ∈ fields, field.2.IsUnshared) ∧
      (∀ field ∈ fields', field.2.IsUnshared) ∧ refs.Clean ∧
      Assignment.injected (fields.mapValues Linked.value) refs =
        .ok (fields'.mapValues Linked.value) ∧
      (∀ t ∈ d.composition.resources, t.Unhindered (fields.mapValues Linked.value) refs) ∧
      ofWeb.resourcesOf d "kresolve" fields' [] = ofWeb.resourcesOf d "kresolve" fields refs := by
  intro d refs fields fields'
  have unshared : d.IsUnshared := by decide
  have own : ∀ field ∈ fields, field.2.IsUnshared := by decide
  have own' : ∀ field ∈ fields', field.2.IsUnshared := by decide
  have injected : Assignment.injected (fields.mapValues Linked.value) refs =
      .ok (fields'.mapValues Linked.value) := rfl
  have free : ∀ t ∈ d.composition.resources,
      t.Unhindered (fields.mapValues Linked.value) refs := by
    intro t member
    rw [List.mem_singleton.mp member]
    exact Template.unhindered_of_pairwise (by decide)
  exact ⟨unshared, own, own', clean_database, injected, free,
    resources_injected ofWeb "kresolve" unshared own own' clean_database injected free⟩

/-- What resources hold under the key. -/
def parts (key : Key) (made : Result (List Value)) : Option (List Value) :=
  made.toOption.map (List.map fun v => v.lookup key)

/-- Written into the database afterwards, the port takes the place of a reference to it, but stands
beside the host where the database itself was written. Where a map stands at two places, the same comes
about although no patch writes below the place of another. -/
theorem resources_ne_injected :
    let refs : Resolutions := [("outputs/db/all", .literal database)]
    let fields : Table String Linked := [("db", .str "outputs/db/all"), ("port", .int 1)]
    let fields' : Table String Linked := [("db", .plain database), ("port", .int 1)]
    let d := Design.ofPatches [.ofDatabase, .ofPort]
    let shared := Design.ofShared [
      { field := ⟨"port", by decide⟩, place := ⟨"a.db.port", by decide⟩ },
      { field := ⟨"db", by decide⟩, place := ⟨"b.db", by decide⟩ }]
    refs.Clean ∧ Assignment.injected (fields.mapValues Linked.value) refs =
        .ok (fields'.mapValues Linked.value) ∧
      (d.composition.Valid ∧ d.IsUnshared ∧
        parts "spec" (ofWeb.resourcesOf d "kresolve" fields refs) =
          some [Value.map [("db", Value.map [("port", .int 1)])]] ∧
        parts "spec" (ofWeb.resourcesOf d "kresolve" fields' []) =
          some [Value.map [("db", Value.map [("host", .str "db"), ("port", .int 1)])]]) ∧
      shared.composition.Valid ∧
        (∀ t ∈ shared.composition.resources, t.Unhindered (fields.mapValues Linked.value) refs) ∧
        parts "b" (ofWeb.resourcesOf shared "kresolve" fields refs) =
          some [Value.map [("db", Value.map [("port", .null)])]] ∧
        parts "b" (ofWeb.resourcesOf shared "kresolve" fields' []) =
          some [Value.map [("db", Value.map [("host", .str "db"), ("port", .null)])]] := by
  intro refs fields fields' d shared
  have free : ∀ t ∈ shared.composition.resources,
      t.Unhindered (fields.mapValues Linked.value) refs := by
    intro t member
    rw [List.mem_singleton.mp member]
    exact Template.unhindered_of_pairwise (by decide)
  refine ⟨clean_database, rfl, ⟨⟨by decide +kernel, List.cons_ne_nil _ _⟩, by decide, ?_⟩,
    ⟨by decide +kernel, List.cons_ne_nil _ _⟩, free, ?_⟩
  · decide +kernel
  · decide +kernel

end Instance
end WorkloadConfig
