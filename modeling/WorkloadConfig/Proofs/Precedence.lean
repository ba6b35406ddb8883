import WorkloadConfig.Fields
import WorkloadConfig.Proofs.History
import WorkloadConfig.Proofs.Layering

namespace WorkloadConfig
namespace Value

/-- What a walk along the keys ends at. -/
def along? : Value → List Key → Option Value
  | v, [] => some v
  | v, key :: rest => (v.under? key).bind fun w => w.along? rest

/-- Something that is no map is met on the walk, at its end or before. -/
def Settles (v : Value) (walk : List Key) : Prop :=
  ∃ part w, part <+: walk ∧ v.along? part = some w ∧ w.isMap = false

/-- The walk ends at a map. -/
def Maps (v : Value) (walk : List Key) : Prop :=
  ∃ entries, v.along? walk = some (.map entries)

def Speaks (v : Value) (walk : List Key) : Prop :=
  v.Settles walk ∨ v.Maps walk

/-- What is found at the end of the walk is as the value has it there. -/
structure Governs (v : Value) (walk : List Key) (found : Option Value) : Prop where
  map : v.Maps walk → ∃ entries, found = some (.map entries)
  given : ∀ w, v.along? walk = some w → w.isMap = false → w ≠ .null → found = some w
  removed : v.along? walk = some .null → found = none
  cut : ∀ part, part <+: walk → part ≠ walk → v.Settles part → found = none

/-- The highest of the values that speaks, the last one, governs what is found, and nothing is found
where none speaks. -/
structure Decided (values : List Value) (walk : List Key) (found : Option Value) : Prop where
  nothing : (∀ v ∈ values, ¬ v.Speaks walk) → found = none
  highest : ∀ lower v higher, values = lower ++ v :: higher → v.Speaks walk →
    (∀ w ∈ higher, ¬ w.Speaks walk) → v.Governs walk found

variable {v w base upper : Value} {walk : List Key} {key : Key} {found : Option Value}

theorem settles_nil : v.Settles [] ↔ v.isMap = false := by
  constructor
  · rintro ⟨part, w, start, met, noMap⟩
    rw [List.prefix_nil.mp start, along?, Option.some.injEq] at met
    exact met ▸ noMap
  · exact fun noMap => ⟨[], v, List.nil_prefix, rfl, noMap⟩

theorem settles_cons : v.Settles (key :: walk) ↔
    v.isMap = false ∨ ∃ w, v.under? key = some w ∧ w.Settles walk := by
  constructor
  · rintro ⟨part, w, start, met, noMap⟩
    cases part with
    | nil => exact .inl (settles_nil.mp ⟨[], w, List.nil_prefix, met, noMap⟩)
    | cons first part =>
      obtain ⟨rfl, later⟩ := List.cons_prefix_cons.mp start
      obtain ⟨u, under, met⟩ := Option.bind_eq_some_iff.mp met
      exact .inr ⟨u, under, part, w, later, met, noMap⟩
  · rintro (noMap | ⟨u, under, part, w, start, met, noMap⟩)
    · exact ⟨[], v, List.nil_prefix, rfl, noMap⟩
    · refine ⟨key :: part, w, List.cons_prefix_cons.mpr ⟨rfl, start⟩, ?_, noMap⟩
      exact Option.bind_eq_some_iff.mpr ⟨u, under, met⟩

theorem speaks_nil (v : Value) : v.Speaks [] := by
  cases v with
  | map entries => exact .inr ⟨entries, rfl⟩
  | scalar _ | list _ => exact .inl (settles_nil.mpr rfl)

theorem maps_cons : v.Maps (key :: walk) ↔ ∃ w, v.under? key = some w ∧ w.Maps walk := by
  constructor
  · rintro ⟨entries, met⟩
    obtain ⟨w, under, met⟩ := Option.bind_eq_some_iff.mp met
    exact ⟨w, under, entries, met⟩
  · rintro ⟨w, under, entries, met⟩
    exact ⟨entries, Option.bind_eq_some_iff.mpr ⟨w, under, met⟩⟩

theorem speaks_cons : v.Speaks (key :: walk) ↔
    v.isMap = false ∨ ∃ w, v.under? key = some w ∧ w.Speaks walk := by
  simp only [Speaks, settles_cons, maps_cons, and_or_left, exists_or, or_assoc]

theorem along?_of_under? (under : v.under? key = some w) : v.along? (key :: walk) = w.along? walk := by
  rw [along?, under, Option.bind_some]

theorem settles_null (walk : List Key) : Settles .null walk :=
  ⟨[], .null, List.nil_prefix, rfl, rfl⟩

/-- A value has nothing to say of what is below it where it is silent. -/
theorem along?_merge_of_not_speaks (apart : base.KeysApart) (apart' : upper.KeysApart)
    (silent : ¬ upper.Speaks walk) : (base.merge upper).along? walk = base.along? walk := by
  induction walk generalizing base upper with
  | nil => exact absurd (speaks_nil upper) silent
  | cons key walk ih =>
    obtain ⟨isMap, silentUnder⟩ := not_or.mp (mt speaks_cons.mpr silent)
    cases upper with
    | scalar _ | list _ => exact absurd rfl isMap
    | map entries =>
      rw [along?, along?, under?_merge apart apart']
      cases under : (Value.map entries).under? key with
      | none => rfl
      | some w =>
        have silent : ¬ w.Speaks walk := fun speaks => silentUnder ⟨w, under, speaks⟩
        have given : w ≠ .null := by
          rintro rfl
          exact silent (.inl (settles_null walk))
        simp only [if_neg given, Option.bind_some]
        cases lower : base.under? key with
        | some old => exact ih (apart.under? lower) (apart'.under? under) silent
        | none =>
          -- What is laid over nothing is laid over null, at which every longer walk ends too.
          rw [Option.getD_none, ih keysApart_null (apart'.under? under) silent]
          cases walk with
          | nil => exact absurd (speaks_nil w) silent
          | cons _ _ => rfl

theorem governs_none (nothing : ∀ w, v.along? walk = some w → w = .null) : v.Governs walk none where
  map := fun ⟨_, met⟩ => nomatch nothing _ met
  given w met _ notNull := absurd (nothing w met) notNull
  removed _ := rfl
  cut _ _ _ _ := rfl

/-- What is under the key governs the rest of the walk. -/
theorem Governs.cons (under : v.under? key = some w) (governs : w.Governs walk found) :
    v.Governs (key :: walk) found where
  map maps := by
    obtain ⟨u, under', maps⟩ := maps_cons.mp maps
    obtain rfl := Option.some.inj (under.symm.trans under')
    exact governs.map maps
  given u met := governs.given u (along?_of_under? under ▸ met)
  removed met := governs.removed (along?_of_under? under ▸ met)
  cut part start differs settles := by
    have isMap : ¬ v.isMap = false := by
      cases v with
      | map _ => exact Bool.noConfusion
      | scalar _ | list _ => cases under
    cases part with
    | nil => exact absurd (settles_nil.mp settles) isMap
    | cons first part =>
      obtain ⟨rfl, later⟩ := List.cons_prefix_cons.mp start
      obtain ⟨u, under', settles⟩ := (settles_cons.mp settles).resolve_left isMap
      obtain rfl := Option.some.inj (under.symm.trans under')
      exact governs.cut part later (fun same => differs (same ▸ rfl)) settles

theorem governs_nil (base : Value) (given : upper ≠ .null) :
    upper.Governs [] (some (base.merge upper)) where
  map := by
    rintro ⟨entries, met⟩
    obtain rfl := Option.some.inj met
    cases base <;> exact ⟨_, rfl⟩
  given w met noMap _ := by
    obtain rfl := Option.some.inj met
    cases upper with
    | map _ => cases noMap
    | scalar _ | list _ => rfl
  removed met := absurd (Option.some.inj met) given
  cut part start differs _ := absurd (List.prefix_nil.mp start) differs

/-- Where a value speaks, it governs what comes of laying it over another. -/
theorem governs_along?_merge (apart : base.KeysApart) (apart' : upper.KeysApart)
    (given : upper ≠ .null) (speaks : upper.Speaks walk) :
    upper.Governs walk ((base.merge upper).along? walk) := by
  induction walk generalizing base upper with
  | nil => exact governs_nil base given
  | cons key walk ih =>
    cases upper with
    | scalar _ | list _ => exact governs_none fun _ met => nomatch met
    | map entries =>
      obtain ⟨w, under, speaks⟩ := (speaks_cons.mp speaks).resolve_left Bool.noConfusion
      refine .cons under ?_
      rw [along?, under?_merge apart apart', under]
      by_cases null : w = .null
      · subst null
        refine governs_none fun w met => ?_
        cases walk with
        | nil => exact (Option.some.inj met).symm
        | cons _ _ => cases met
      · simp only [if_neg null, Option.bind_some]
        refine ih ?_ (apart'.under? under) null speaks
        cases lower : base.under? key with
        | none => exact keysApart_null
        | some old => exact apart.under? lower

theorem keysApart_foldl {values : List Value} (apart : ∀ v ∈ values, v.KeysApart)
    (start : base.KeysApart) : (values.foldl merge base).KeysApart := by
  induction values generalizing base with
  | nil => exact start
  | cons v rest ih =>
    obtain ⟨first, later⟩ := List.forall_mem_cons.mp apart
    exact ih later (start.merge first)

theorem cut_of_concat {α : Type} {lower higher init : List α} {a last : α}
    (same : init ++ [last] = lower ++ a :: higher) :
    a = last ∧ higher = [] ∨ ∃ rest, higher = rest ++ [last] ∧ init = lower ++ a :: rest := by
  rcases List.eq_nil_or_concat higher with rfl | ⟨rest, b, rfl⟩
  · obtain ⟨-, equal⟩ := List.append_inj' same rfl
    exact .inl ⟨(List.cons.inj equal).1.symm, rfl⟩
  · have same : init ++ [last] = (lower ++ a :: rest) ++ [b] := by simpa using same
    obtain ⟨begins, equal⟩ := List.append_inj' same rfl
    obtain rfl := (List.cons.inj equal).1
    exact .inr ⟨rest, List.concat_eq_append, begins⟩

/-- One value after the other is laid over those before it, and the highest that speaks decides. -/
theorem decided_along?_foldl {values : List Value} (apart : ∀ v ∈ values, v.KeysApart)
    (given : ∀ v ∈ values, v ≠ .null) (any : values ≠ [] ∨ walk ≠ []) :
    Decided values walk ((values.foldl merge .null).along? walk) := by
  -- From the highest value down: if it speaks it decides alone, and if not it may be left out.
  induction values using List.reverseRecOn with
  | nil =>
    refine ⟨fun _ => ?_, fun lower v higher same => by simp at same⟩
    cases walk with
    | nil => exact absurd rfl (any.resolve_left fun other => other rfl)
    | cons _ _ => rfl
  | append_singleton init v ih =>
    simp only [List.forall_mem_append, List.forall_mem_singleton] at apart given
    rw [List.foldl_append, List.foldl_cons, List.foldl_nil]
    have lower := keysApart_foldl apart.1 keysApart_null
    by_cases speaks : v.Speaks walk
    · refine ⟨fun silent => absurd speaks (silent v (by simp)), fun low u higher same _ silent => ?_⟩
      rcases cut_of_concat same with ⟨rfl, -⟩ | ⟨rest, rfl, -⟩
      · exact governs_along?_merge lower apart.2 given.2 speaks
      · exact absurd speaks (silent v (by simp))
    · have isDown : walk ≠ [] := by
        rintro rfl
        exact speaks (speaks_nil v)
      have decided := ih apart.1 given.1 (.inr isDown)
      rw [along?_merge_of_not_speaks lower apart.2 speaks]
      refine ⟨fun silent => decided.nothing fun w member => silent w (by simp [member]),
        fun low u higher same speaksAt silent => ?_⟩
      rcases cut_of_concat same with ⟨rfl, -⟩ | ⟨rest, rfl, begins⟩
      · exact absurd speaksAt speaks
      · exact decided.highest low u rest begins speaksAt fun w member => silent w (by simp [member])

theorem isAbsent_eq_false_iff :
    v.isAbsent = false ↔ v ≠ .null ∧ v ≠ .str "" ∧ v ≠ .list [] ∧ v ≠ .map [] := by
  cases v with
  | scalar s => cases s <;> simp [isAbsent]
  | list _ | map _ => simp [isAbsent]

end Value

namespace Level

def lowestFirst : List Level :=
  [composition, cluster, spec, project]

/-- The value counts: it is not null, and in the spec no empty text, list or map either. -/
def Gives (level : Level) (v : Value) : Prop :=
  v ≠ .null ∧ (level = spec → v ≠ .str "" ∧ v ≠ .list [] ∧ v ≠ .map [])

instance (level : Level) (v : Value) : Decidable (level.Gives v) :=
  inferInstanceAs (Decidable (_ ∧ _))

theorem gives_iff {level : Level} {v : Value} : level.Gives v ↔ level.passesOver v = false := by
  cases level <;> simp [passesOver, Gives, Value.isAbsent_eq_false_iff]

end Level

namespace FieldLevels
variable {levels : FieldLevels} {d : Declaration} {p : FieldPath}

/-- What each level says of the field at the path. -/
def said (levels : FieldLevels) (d : Declaration) (p : FieldPath) : Level → Value
  | .composition => d.default
  | .cluster => levels.cluster.defaultFor levels.inst.kind d.path
  | .spec => levels.inst.specValue p
  | .project => levels.project.elim .null fun project =>
    project.overrideFor levels.inst.name.text d.path

/-- The levels that give the field a value, the lowest first. -/
def givers (levels : FieldLevels) (d : Declaration) (p : FieldPath) : List Level :=
  Level.lowestFirst.filter fun level => level.Gives (levels.said d p level)

theorem candidates_eq (path : d.path = p.text) :
    levels.candidates d = .ok (Level.lowestFirst.map fun level => (level, levels.said d p level)) := by
  rw [candidates, path, FieldPath.ofText?_text]
  refine congrArg Except.ok ?_
  simp only [Level.lowestFirst, List.map_cons, List.map_nil, said, path]
  cases levels.project <;> rfl

theorem giving_eq : giving (Level.lowestFirst.map fun level => (level, levels.said d p level)) =
    (levels.givers d p).map fun level => (level, levels.said d p level) := by
  rw [giving, givers, List.filter_map]
  congr 1
  refine List.filter_congr fun level _ => ?_
  rw [Bool.eq_iff_iff, decide_eq_true_iff, Level.gives_iff]
  simp only [Function.comp_apply, Bool.not_eq_true']

theorem layered_eq (given : List (Level × Value)) :
    layered given = (given.map (·.2)).foldl Value.merge .null :=
  List.foldl_map.symm

theorem resolveField_eq (path : d.path = p.text) : levels.resolveField d =
    if levels.givers d p = [] then
      if d.required then Result.fail (.missingValue d.path) else .ok none
    else .ok (some ⟨d.path, ((levels.givers d p).map (levels.said d p)).foldl Value.merge .null,
      levels.givers d p⟩) := by
  rw [resolveField, candidates_eq path]
  simp only [Bind.bind, Except.bind, giving_eq, layered_eq, List.map_eq_nil_iff, List.map_map]
  simp only [Function.comp_def, List.map_id']

/-- A field has a value exactly if some level gives one, and the levels that do are its sources. Of
the value at every walk the highest level decides that speaks there. -/
theorem resolveField_decided (path : d.path = p.text)
    (apart : ∀ level, (levels.said d p level).KeysApart) :
    (levels.givers d p = [] → levels.resolveField d =
      if d.required then Result.fail (.missingValue d.path) else .ok none) ∧
    (levels.givers d p ≠ [] → ∃ value,
      levels.resolveField d = .ok (some ⟨d.path, value, levels.givers d p⟩) ∧
      ∀ walk, Value.Decided ((levels.givers d p).map (levels.said d p)) walk
        (value.along? walk)) := by
  rw [resolveField_eq path]
  refine ⟨fun none => if_pos none, fun any => ⟨_, if_neg any, fun walk => ?_⟩⟩
  refine Value.decided_along?_foldl ?_ ?_ (.inl (mt List.map_eq_nil_iff.mp any))
  · rw [List.forall_mem_map]
    exact fun level _ => apart level
  · rw [List.forall_mem_map]
    intro level member
    exact (of_decide_eq_true (List.mem_filter.mp member).2).1

/-- What is removed at one level comes back at a higher one, a map takes the place of a text and a text
that of the map, and all four levels are sources. -/
theorem resolveField_decided_four_levels :
    let lowest : Value := .map [("a", .map [("x", .int 1), ("y", .int 2)]), ("b", .str "text"),
      ("c", .list [.int 1])]
    let second : Value := .map [("a", .map [("x", .null)]), ("b", .map [("p", .int 1)])]
    let third : Value := .map [("a", .map [("x", .int 5)]), ("c", .null)]
    let highest : Value := .map [("b", .str "again"), ("d", .map [("n", .null)])]
    let levels : FieldLevels := ⟨⟨"Web", .web, .team, none, [], [("config", third)]⟩,
      ⟨"cluster", ⟨"test", "", ""⟩, [("Web", [("config", second)])]⟩,
      some ⟨"project", "team", [("web", [("config", highest)])]⟩⟩
    let d : Declaration := ⟨"config", lowest, true⟩
    let p : FieldPath := ⟨"config", by decide⟩
    let result : Value := .map [("a", .map [("y", .int 2), ("x", .int 5)]), ("b", .str "again"),
      ("d", .map [])]
    levels.givers d p = [.composition, .cluster, .spec, .project] ∧
      levels.resolveField d = .ok (some ⟨"config", result, [.composition, .cluster, .spec, .project]⟩) ∧
      ∀ walk, Value.Decided [lowest, second, third, highest] walk (result.along? walk) := by
  intro lowest second third highest levels d p result
  have all : levels.givers d p = [.composition, .cluster, .spec, .project] := by decide
  have values : [.composition, .cluster, .spec, .project].map (levels.said d p) =
    [lowest, second, third, highest] := by decide
  have merged : [lowest, second, third, highest].foldl Value.merge .null = result := by decide
  have resolved : levels.resolveField d = _ := resolveField_eq (p := p) rfl
  rw [all, values, merged, if_neg (List.cons_ne_nil _ _)] at resolved
  have apart : ∀ level, (levels.said d p level).KeysApart := by
    intro level
    cases level <;> decide
  obtain ⟨value, same, decided⟩ := (resolveField_decided rfl apart).2 (all ▸ List.cons_ne_nil _ _)
  rw [all, values] at decided
  have equal : value = result := by
    rw [resolved, Except.ok.injEq, Option.some.injEq, ResolvedField.mk.injEq] at same
    exact same.2.1.symm
  exact ⟨all, resolved, equal ▸ decided⟩

end FieldLevels
end WorkloadConfig
