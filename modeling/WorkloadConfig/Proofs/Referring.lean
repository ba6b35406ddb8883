import WorkloadConfig.Proofs.Documents
import WorkloadConfig.Proofs.Grammar
import WorkloadConfig.Proofs.Identities

namespace WorkloadConfig

namespace Reference
variable {s t ns rest : String}

/-- A pair of colons does not begin in a text that has none. -/
theorem exists_of_pair {s t before behind : List Char} (plain : ':' ∉ s)
    (pair : s ++ t = before ++ ':' :: ':' :: behind) : ∃ between, before = s ++ between := by
  rcases List.append_eq_append_iff.mp pair with ⟨between, same, -⟩ | ⟨between, same, rest⟩
  · exact ⟨between, same⟩
  · cases between with
    | nil => exact ⟨[], by simpa using same.symm⟩
    | cons c between =>
      obtain ⟨rfl, -⟩ := List.cons.inj rest
      exact absurd (by simp [same]) plain

theorem isUnqualified_append (plain : ':' ∉ s.toList) (whole : IsUnqualified t) :
    IsUnqualified (s ++ t) := by
  intro before behind pair
  rw [← String.toList_inj, toList_pair, String.toList_append] at pair
  obtain ⟨between, same⟩ := exists_of_pair plain pair
  rw [same, List.append_assoc, List.append_cancel_left_eq] at pair
  refine whole (.ofList between) behind ?_
  rw [← String.toList_inj, toList_pair, String.toList_ofList, pair]

theorem isUnqualified_empty : IsUnqualified "" := by
  intro before behind pair
  rw [← String.toList_inj, toList_pair] at pair
  simp at pair

theorem isUnqualified_of_not_mem (plain : ':' ∉ s.toList) : IsUnqualified s := by
  simpa using isUnqualified_append plain isUnqualified_empty

theorem isQualified_of_not_mem (plain : ':' ∉ ns.toList) :
    IsQualified (ns ++ "::" ++ rest) ns rest := by
  refine ⟨rfl, fun before behind pair => ?_⟩
  rw [← String.toList_inj, toList_pair, toList_pair] at pair
  obtain ⟨between, same⟩ := exists_of_pair plain pair
  rw [← String.length_toList, ← String.length_toList, same, List.length_append]
  exact Nat.le_add_right _ _

end Reference

open Reference (IsSegment IsUnqualified IsWritten keySuffix)

/-- A segment that a text with a pair of colons cannot be made of. -/
structure IsPublishable (name : String) : Prop where
  segment : IsSegment name
  noColon : ':' ∉ name.toList

theorem isPublishable_of_isLabel {name : String} (valid : isLabel name.toList = true) :
    IsPublishable name := by
  refine ⟨⟨?_, ?_⟩, ?_⟩
  · rintro rfl
    simp [isLabel] at valid
  · exact not_mem_of_isLabel valid (by decide) (by decide)
  · exact not_mem_of_isLabel valid (by decide) (by decide)

theorem OutputKey.isPublishable (key : OutputKey) : IsPublishable key.text := by
  have valid := key.valid
  simp only [Bool.and_eq_true, decide_eq_true_eq, List.all_eq_true] at valid
  have outside (c : Char) (noKey : isKeyChar c = false) : c ∉ key.text.toList := fun member => by
    simp [valid.2 c member] at noKey
  exact ⟨⟨fun empty => valid.1 (by simp [empty]), outside '/' (by decide)⟩,
    outside ':' (by decide)⟩

namespace Published
variable {fields : Assignment} {refs : Resolutions} {done after : Published}

/-- The keys that values are published under so far, whether they are shown or not. -/
def keys (done : Published) : List String :=
  done.outputs.keys ++ done.connection.keys

theorem mem_keys_add {p : Publication} (added : add fields refs done p = .ok after) {key : String}
    (member : key ∈ after.keys) : key = p.key.text ∨ key ∈ done.keys := by
  simp only [add, Result.bind_eq_ok] at added
  obtain ⟨v, -, added⟩ := added
  split at added
  · cases added
    exact .inr member
  split at added
  · obtain ⟨text, -, added⟩ := Result.bind_eq_ok.mp added
    cases added
    simp only [keys, List.mem_append, Table.mem_keys_put] at member ⊢
    tauto
  · cases added
    simp only [keys, List.mem_append, Table.mem_keys_put] at member ⊢
    tauto

theorem mem_keys_foldlM {publications : List Publication}
    (folded : publications.foldlM (add fields refs) done = .ok after) {key : String}
    (member : key ∈ after.keys) :
    (∃ p ∈ publications, p.key.text = key) ∨ key ∈ done.keys := by
  induction publications generalizing done with
  | nil =>
    cases folded
    exact .inr member
  | cons p rest ih =>
    rw [List.foldlM_cons] at folded
    obtain ⟨next, added, folded⟩ := Result.bind_eq_ok.mp folded
    rcases ih folded with ⟨q, later, same⟩ | earlier
    · exact .inl ⟨q, List.mem_cons_of_mem _ later, same⟩
    · rcases mem_keys_add added earlier with rfl | before
      · exact .inl ⟨p, List.mem_cons_self, rfl⟩
      · exact .inr before

end Published

/-- Whatever a record holds is held under the key of a publication. -/
theorem Instance.isPublishable_key {i : Instance} {c : Composition} {fields : Assignment}
    {refs : Resolutions} {r : Record} (recorded : i.record c fields refs = .ok r) {key : String}
    (member : key ∈ r.outputs.keys ∨ key ∈ r.connection.data.keys) : IsPublishable key := by
  obtain ⟨published, folded, rfl⟩ := record_eq_ok recorded
  have held : key ∈ published.keys := by
    rw [Published.keys, List.mem_append, Table.mem_keys_iff, Table.mem_keys_iff]
    refine member.imp (fun output => ?_) fun secret => ?_
    · obtain ⟨v, found⟩ := Table.mem_keys_iff.mp output
      rw [find?_byKey, Table.find?_mapValues] at found
      obtain ⟨u, found, -⟩ := Option.map_eq_some_iff.mp found
      exact ⟨u, found⟩
    · obtain ⟨text, found⟩ := Table.mem_keys_iff.mp secret
      rw [find?_byKey] at found
      exact ⟨text, found⟩
  rcases Published.mem_keys_foldlM folded held with ⟨p, -, rfl⟩ | none
  · exact p.key.isPublishable
  · cases none

namespace Reference
variable {ns name key : String} (ofName : IsPublishable name)
include ofName

theorem isWritten_qualified (ofNs : IsPublishable ns) (ofKey : IsPublishable key) :
    IsWritten (ns ++ "::outputs/" ++ name ++ "/" ++ key) (.output (some ns) name key) := by
  have joined : ns ++ "::outputs/" ++ name ++ "/" ++ key =
      ns ++ "::" ++ ("outputs/" ++ name ++ "/" ++ key) := by
    rw [← String.toList_inj]
    simp
  rw [joined]
  exact ⟨isQualified_of_not_mem ofNs.noColon, ofNs.segment.1, ofName.segment, ofKey.segment⟩

theorem isWritten_output (ofKey : IsPublishable key) :
    IsWritten ("outputs/" ++ name ++ "/" ++ key) (.output none name key) :=
  ⟨rfl, isUnqualified_of_not_mem (by simp [ofName.noColon, ofKey.noColon]), ofName.segment,
    ofKey.segment⟩

theorem isWritten_connection (ofKey : IsPublishable key) :
    IsWritten ("connections/" ++ name ++ "/" ++ key) (.connection name key) :=
  ⟨rfl, isUnqualified_of_not_mem (by simp [ofName.noColon, ofKey.noColon]), ofName.segment,
    ofKey.segment⟩

variable {resource : String} (ofResource : IsPublishable resource) {key : Option String}
  (plain : ∀ text, key = some text → IsSegment text ∧ IsUnqualified text)
include ofResource plain

omit plain in
theorem isUnqualified_managed (word : String) (ofWord : ':' ∉ word.toList)
    (plain : ∀ text, key = some text → IsUnqualified text) :
    IsUnqualified (word ++ name ++ "/" ++ resource ++ keySuffix key) := by
  have before : ':' ∉ (word ++ name ++ "/" ++ resource).toList := by
    simp [ofWord, ofName.noColon, ofResource.noColon]
  refine isUnqualified_append before ?_
  cases key with
  | none => exact isUnqualified_empty
  | some text => exact isUnqualified_append (by decide) (plain text rfl)

theorem isWritten_secret : IsWritten ("secrets/" ++ name ++ "/" ++ resource ++ keySuffix key)
    (.secret name resource key) :=
  ⟨rfl, isUnqualified_managed ofName ofResource "secrets/" (by decide)
    fun text given => (plain text given).2, ofName.segment, ofResource.segment,
    fun text given => (plain text given).1⟩

theorem isWritten_config : IsWritten ("configs/" ++ name ++ "/" ++ resource ++ keySuffix key)
    (.config name resource key) :=
  ⟨rfl, isUnqualified_managed ofName ofResource "configs/" (by decide)
    fun text given => (plain text given).2, ofName.segment, ofResource.segment,
    fun text given => (plain text given).1⟩

end Reference

/-- The record is one that the instance can have published by the composition. -/
structure Record.IsOf (r : Record) (i : Instance) (c : Composition) : Prop where
  keys : ∀ key, key ∈ r.outputs.keys ∨ key ∈ r.connection.data.keys → IsPublishable key
  secret : r.connection.name = i.name.text ++ "-conn"
  resources : ∀ t ∈ c.resources, t.name.text ∈ r.resources

namespace Record.IsOf
variable {r : Record} {i : Instance} {c : Composition} (isOf : r.IsOf i c)
include isOf

theorem output {key : String} {v : Value} (found : r.outputs.find? key = some v) :
    IsPublishable key ∧ Resolver.output i.name.text key (.ofRecord r) = .ok (.literal v) :=
  ⟨isOf.keys key (.inl (Table.mem_keys_iff.mpr ⟨v, found⟩)),
    Resolver.output_eq_ok.mpr ⟨v, found, rfl⟩⟩

theorem connection {key : String} (held : key ∈ r.connection.data.keys) :
    IsPublishable key ∧ Resolver.connection i.name.text key (.ofRecord r) =
      .ok (.pointer ⟨i.name.text ++ "-conn", some key, .secret⟩) := by
  refine ⟨isOf.keys key (.inr held), (Resolver.checked_eq_ok rfl).mpr ⟨mem_texts_iff.mpr held, ?_⟩⟩
  rw [← isOf.secret]
  rfl

theorem managed {t : Template} (member : t ∈ c.resources) (key : Option String)
    (source : PointerSource) {expected : String} (ofKind : r.kind = expected) :
    Resolver.managed expected source i.name.text t.name.text key (.ofRecord r) =
      .ok (.pointer ⟨i.name.text ++ "-" ++ t.name.text, key, source⟩) := by
  have listed : (Target.ofRecord r).resources = some r.resources :=
    if_neg (List.ne_nil_of_mem (isOf.resources t member))
  rw [Resolver.managed, if_pos (show (Target.ofRecord r).kind = expected from ofKind)]
  exact (Resolver.checked_eq_ok listed).mpr ⟨isOf.resources t member, rfl⟩

end Record.IsOf

namespace Turn
variable {t u : Turn} {s later : MemoryStore} {r : Record}

theorem isOf_of_stored {c : Composition} (registered : t.engine.registry.get t.inst.kind = .ok c)
    (succeeds : t.Succeeds s)
    (stored : (t.pass s).2.read t.inst.ns.text t.inst.name.text = some r) : r.IsOf t.inst c := by
  rcases t.pass_cases s with ⟨-, work, does, replaced⟩ | ⟨fails, -⟩
  · rw [read_replaced replaced ⟨rfl, rfl⟩, Option.some.injEq] at stored
    subst stored
    have recorded := does.recorded
    rw [Engine.Does.composition does registered] at recorded
    have listed (template : Template) (member : template ∈ c.resources) :=
      (Instance.mem_resources recorded template.name.text).mpr ⟨template, member, rfl⟩
    exact ⟨fun key member => Instance.isPublishable_key recorded member,
      does.record_connection, listed⟩
  · exact absurd succeeds fails

/-- In a pass over the store the text is a reference, and the reference resolves so. -/
def Resolves (u : Turn) (s : MemoryStore) (text : String) (reference : Reference) (v : Resolved) :
    Prop :=
  Reference.parse text = .ok (some reference) ∧ u.outcome s reference = .ok v

theorem Resolves.intro {text : String} {reference : Reference} {v : Resolved} {ns : String}
    (written : IsWritten text reference)
    (asks : u.resolver.namespaceOf later.view reference = .ok ns)
    (kept : later.read ns reference.target = some r)
    (shown : u.resolver.shown reference (.ofRecord r) = .ok v) :
    u.Resolves later text reference v := by
  refine ⟨Reference.parse_of_isWritten written, ?_⟩
  rw [outcome_eq, Resolver.resolveBy_eq_ok]
  exact ⟨ns, _, asks, by rw [MemoryStore.view, kept]; rfl, shown⟩

/-- What an instance has published can be referred to by text, as long as its record is kept: from
every namespace each of its outputs, and from its own also each key of its connection and, if it is
of the kind for it, each of its templates as a secret or config. -/
theorem published_resolves {c : Composition} (u : Turn)
    (registered : t.engine.registry.get t.inst.kind = .ok c) (succeeds : t.Succeeds s)
    (stored : (t.pass s).2.read t.inst.ns.text t.inst.name.text = some r)
    (kept : later.read t.inst.ns.text t.inst.name.text = some r) :
    let ns := t.inst.ns.text
    let name := t.inst.name.text
    (∀ key v, r.outputs.find? key = some v →
      u.Resolves later (ns ++ "::outputs/" ++ name ++ "/" ++ key) (.output (some ns) name key)
        (.literal v)) ∧
    (u.inst.ns = t.inst.ns →
      (∀ key v, r.outputs.find? key = some v →
        u.Resolves later ("outputs/" ++ name ++ "/" ++ key) (.output none name key) (.literal v)) ∧
      (∀ key ∈ r.connection.data.keys,
        u.Resolves later ("connections/" ++ name ++ "/" ++ key) (.connection name key)
          (.pointer ⟨name ++ "-conn", some key, .secret⟩)) ∧
      ∀ template ∈ c.resources, ∀ key : Option String,
        (∀ text, key = some text → IsSegment text ∧ IsUnqualified text) →
        (r.kind = u.engine.settings.secretsKind →
          u.Resolves later
            ("secrets/" ++ name ++ "/" ++ template.name.text ++ keySuffix key)
            (.secret name template.name.text key)
            (.pointer ⟨name ++ "-" ++ template.name.text, key, .secret⟩)) ∧
        (r.kind = u.engine.settings.configsKind →
          u.Resolves later
            ("configs/" ++ name ++ "/" ++ template.name.text ++ keySuffix key)
            (.config name template.name.text key)
            (.pointer ⟨name ++ "-" ++ template.name.text, key, .config⟩))) := by
  intro ns name
  have ofNs : IsPublishable ns := isPublishable_of_isLabel t.inst.ns.valid
  have ofName : IsPublishable name := isPublishable_of_isLabel t.inst.name.valid
  have isOf := isOf_of_stored registered succeeds stored
  refine ⟨fun key v found => ?_, fun atNs => ?_⟩
  · obtain ⟨ofKey, shown⟩ := isOf.output found
    exact .intro (Reference.isWritten_qualified ofName ofNs ofKey) rfl kept shown
  have own : u.resolver.ns = ns := congrArg DnsLabel.text atNs
  have here : u.resolver.outputNamespace later.view name none = .ok ns := by
    refine Resolver.outputNamespace_eq_ok.mpr (.inl ⟨own.symm, .ofRecord r, ?_⟩)
    rw [own, MemoryStore.view, kept]
    rfl
  have asks := congrArg (Except.ok (ε := Failure)) own
  refine ⟨fun key v found => ?_, fun key held => ?_, fun template member key plain => ?_⟩
  · obtain ⟨ofKey, shown⟩ := isOf.output found
    exact .intro (Reference.isWritten_output ofName ofKey) here kept shown
  · obtain ⟨ofKey, shown⟩ := isOf.connection held
    exact .intro (Reference.isWritten_connection ofName ofKey) asks kept shown
  · have ofTemplate := isPublishable_of_isLabel template.name.valid
    refine ⟨fun ofKind => ?_, fun ofKind => ?_⟩
    · exact .intro (Reference.isWritten_secret ofName ofTemplate plain) asks kept
        (isOf.managed member key .secret ofKind)
    · exact .intro (Reference.isWritten_config ofName ofTemplate plain) asks kept
        (isOf.managed member key .config ofKind)

/-- The record that a web server leaves which shows its address under a key of two points, and keeps
it under another. -/
def ofPoints : Turn where
  engine := {
    registry := [("App", { Composition.ofField "http://web" with
      publish := [⟨⟨"..", Eq.refl true⟩, ⟨"url", Eq.refl true⟩, false⟩,
        ⟨⟨"a.b", Eq.refl true⟩, ⟨"url", Eq.refl true⟩, true⟩] })] }
  source := (ofField .web "").source
  inst := { kind := "App", name := .web, ns := .team }

theorem published_resolves_ofPoints :
    let u : Turn := { ofField ⟨"site", by decide, by decide⟩ "" with
      engine := { registry := [], settings := { secretsKind := "App" } } }
    let r : Record := {
      kind := "App"
      ns := "team"
      name := "web"
      outputs := [("..", .str "http://web")]
      connection := ⟨"web-conn", [("a.b", "http://web")]⟩
      resources := ["main"]
      generation := 1 }
    let later := after {} [ofPoints, u]
    ofPoints.Succeeds {} ∧ (ofPoints.pass {}).2.read "team" "web" = some r ∧
      later.read "team" "web" = some r ∧
      u.Resolves later "team::outputs/web/.." (.output (some "team") "web" "..")
        (.literal (.str "http://web")) ∧
      u.Resolves later "outputs/web/.." (.output none "web" "..") (.literal (.str "http://web")) ∧
      u.Resolves later "connections/web/a.b" (.connection "web" "a.b")
        (.pointer ⟨"web-conn", some "a.b", .secret⟩) ∧
      u.Resolves later "secrets/web/main/:" (.secret "web" "main" (some ":"))
        (.pointer ⟨"web-main", some ":", .secret⟩) := by
  intro u r later
  have succeeds : ofPoints.Succeeds {} := by decide +kernel
  have stored : (ofPoints.pass {}).2.read "team" "web" = some r := by decide +kernel
  have kept : later.read "team" "web" = some r := by decide +kernel
  have colon : ∀ text, some ":" = some text → IsSegment text ∧ IsUnqualified text := by
    rintro _ ⟨⟩
    exact ⟨⟨by decide, by decide⟩, Reference.isUnqualified_iff.mpr rfl⟩
  obtain ⟨output, own⟩ := published_resolves u rfl succeeds stored kept
  obtain ⟨ownOutput, connection, managed⟩ := own rfl
  refine ⟨succeeds, stored, kept, ?_, ?_, ?_, ?_⟩
  · exact output ".." (.str "http://web") rfl
  · exact ownOutput ".." (.str "http://web") rfl
  · exact connection "a.b" (by decide)
  · exact (managed _ (List.mem_singleton.mpr rfl) (some ":") colon).1 rfl

end Turn
end WorkloadConfig
