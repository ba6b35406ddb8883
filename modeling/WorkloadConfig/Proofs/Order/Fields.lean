import WorkloadConfig.Proofs.Order.Loading
import WorkloadConfig.Proofs.Order.Merging
import WorkloadConfig.Proofs.References
import WorkloadConfig.Proofs.Stages

namespace WorkloadConfig

/-- The defaults are reorderings of each other, and all else is the same. -/
structure Patch.Reordered (p q : Patch) : Prop where
  field : p.field = q.field
  place : p.place = q.place
  default : p.default.Reordered q.default
  required : p.required = q.required

/-- Skeletons and defaults differ at most in the order of their entries. -/
structure Template.Reordered (t u : Template) : Prop where
  name : t.name = u.name
  apiVersion : t.apiVersion = u.apiVersion
  kind : t.kind = u.kind
  base : Table.Reordered Value.Reordered t.base u.base
  patches : List.Forall₂ Patch.Reordered t.patches u.patches

structure Composition.Reordered (c d : Composition) : Prop where
  kind : c.kind = d.kind
  resources : List.Forall₂ Template.Reordered c.resources d.resources
  publish : c.publish = d.publish

/-- Labels and spec differ at most in the order of their entries. -/
structure Instance.Reordered (i j : Instance) : Prop where
  kind : i.kind = j.kind
  name : i.name = j.name
  ns : i.ns = j.ns
  uid : i.uid = j.uid
  labels : Table.Reordered (· = ·) i.labels j.labels
  spec : Table.Reordered Value.Reordered i.spec j.spec

structure Declaration.Reordered (d e : Declaration) : Prop where
  path : d.path = e.path
  default : d.default.Reordered e.default
  required : d.required = e.required

structure ResolvedField.Reordered (f g : ResolvedField) : Prop where
  path : f.path = g.path
  value : f.value.Reordered g.value
  sources : f.sources = g.sources

namespace Composition
variable {c d : Composition}

theorem Reordered.patches (same : c.Reordered d) :
    List.Forall₂ Patch.Reordered c.patches d.patches := by
  unfold Composition.patches
  refine List.rel_flatMap same.resources fun t u related => related.patches

theorem declare_aligned {t u : Table String Declaration}
    (same : Table.Aligned Declaration.Reordered t u) {p q : Patch} (patch : p.Reordered q) :
    Table.Aligned Declaration.Reordered (declare t p) (declare u q) := by
  have old := rel_getD (same.under q.field.text)
    (⟨rfl, .scalar _, rfl⟩ : Declaration.Reordered ⟨q.field.text, .null, false⟩ _)
  unfold declare
  simp only [patch.field, patch.default.null_iff]
  refine same.put _ ⟨rfl, ?_, ?_⟩
  · split
    · exact old.default
    · exact patch.default
  · simp only [old.required, patch.required]

/-- The fields are declared in one order. -/
theorem Reordered.fields (same : c.Reordered d) :
    List.Forall₂ Declaration.Reordered c.fields d.fields := by
  have declared : Table.Aligned Declaration.Reordered (c.patches.foldl declare [])
      (d.patches.foldl declare []) := by
    have step : Relator.LiftFun (Table.Aligned Declaration.Reordered)
        (Relator.LiftFun Patch.Reordered (Table.Aligned Declaration.Reordered)) declare declare :=
      fun _ _ same _ _ patch => declare_aligned same patch
    exact List.rel_foldl step .nil same.patches
  exact List.rel_map (fun _ _ both => both.2) declared

end Composition

theorem Value.reordered_ofTable {t u : Table String Value}
    (same : Table.Reordered Value.Reordered t u) :
    (Value.ofTable t).Reordered (Value.ofTable u) :=
  .ofTable (Table.isText_keyed t) (Table.reordered_keyed.mpr same)

theorem Value.reordered_ofLabels {t u : Table String String} (same : Table.Reordered (· = ·) t u) :
    (Value.ofLabels t).Reordered (Value.ofLabels u) :=
  Value.reordered_ofTable (same.mapValues fun a _ equal => equal ▸ .scalar (.str a))

theorem Level.passesOver_eq (level : Level) {v w : Value} (same : v.Reordered w) :
    level.passesOver v = level.passesOver w := by
  cases level <;> simp only [passesOver, same.null_iff, same.isAbsent_eq]

/-- The levels are given by instances and configurations that differ at most in the order of
entries. -/
structure FieldLevels.Reordered (l l' : FieldLevels) : Prop where
  inst : l.inst.Reordered l'.inst
  cluster : l.cluster.Reordered l'.cluster
  project : Option.Rel ProjectConfig.Reordered l.project l'.project

namespace FieldLevels
variable {l l' : FieldLevels} {d e : Declaration}

theorem candidates_matches (same : l.Reordered l') (declared : d.Reordered e) :
    Result.Matches (Table.Aligned Value.Reordered) (l.candidates d) (l'.candidates e) := by
  unfold candidates
  rw [declared.path]
  split
  · exact .error rfl
  · rename_i path _
    have cluster : (l.cluster.defaultFor l.inst.kind e.path).Reordered
        (l'.cluster.defaultFor l'.inst.kind e.path) := by
      rw [same.inst.kind]
      exact same.cluster.defaults.valueFor _ _
    have spec := (Value.reordered_ofTable same.inst.spec).valueAt path
    refine .ok (.cons ⟨rfl, declared.default⟩ (.cons ⟨rfl, cluster⟩ (.cons ⟨rfl, spec⟩
      (.cons ⟨rfl, ?_⟩ .nil))))
    rw [same.inst.name]
    rcases rel_cases same.project with ⟨one, two⟩ | ⟨a, b, one, two, related⟩ <;> rw [one, two]
    · exact .scalar _
    · exact related.overrides.valueFor _ _

theorem giving_aligned {candidates candidates' : List (Level × Value)}
    (same : Table.Aligned Value.Reordered candidates candidates') :
    Table.Aligned Value.Reordered (giving candidates) (giving candidates') := by
  refine List.rel_filter (fun entry other both => ?_) same
  simp only [both.1, Level.passesOver_eq _ both.2]

theorem layered_reordered {given given' : List (Level × Value)}
    (same : Table.Aligned Value.Reordered given given') :
    (layered given).Reordered (layered given') :=
  List.rel_foldl (fun _ _ below _ _ both => below.merge both.2) (.scalar _) same

theorem resolveField_matches (same : l.Reordered l') (declared : d.Reordered e) :
    Result.Matches (Option.Rel ResolvedField.Reordered) (l.resolveField d) (l'.resolveField e) := by
  refine (candidates_matches same declared).bind fun candidates candidates' aligned => ?_
  have given := giving_aligned aligned
  simp only [forall₂_nil_iff given, declared.required, declared.path]
  split
  · split
    · exact .error rfl
    · exact .ok .none
  · exact .ok (.some ⟨rfl, layered_reordered given, given.keys_eq⟩)

/-- The fields have values in one order. -/
theorem resolve_matches (same : l.Reordered l') {declarations others : List Declaration}
    (declared : List.Forall₂ Declaration.Reordered declarations others) :
    Result.Matches (Table.Aligned ResolvedField.Reordered) (l.resolve declarations)
      (l'.resolve others) := by
  refine Result.Matches.foldlM declared (fun d e t u related fields => ?_) .nil
  refine (resolveField_matches same related).bind fun field field' resolved => ?_
  rcases rel_cases resolved with ⟨rfl, rfl⟩ | ⟨a, b, rfl, rfl, both⟩
  · exact .ok fields
  · rw [related.path]
    exact .ok (fields.put _ both)

end FieldLevels

namespace Reference

theorem fails_segments (raw : String) (path : List Char) (least most : Nat) :
    (segments raw path least most).Fails .reported := by
  unfold segments
  simp only
  split
  · exact .error rfl
  · split
    · exact .error rfl
    · exact .ok _

theorem fails_parse (raw : String) : (parse raw).Fails .reported := by
  unfold parse
  simp only
  split
  · exact .ok _
  · split
    · exact .error rfl
    · split
      · exact .error rfl
      · exact .bind (fails_segments raw _ _ _) fun _ _ => .ok _

theorem fails_collect (values : List Value) : (collect values).Fails .reported := by
  refine .foldlM (fun found leaf => ?_) _ _
  unfold collectLeaf
  split
  · exact .ok _
  · refine .bind (fails_parse leaf) fun new _ => ?_
    cases new <;> exact .ok _

/-- Values that have the same leaves have the same references, if perhaps in another order. -/
theorem collect_matches_of_leaves {values others : List Value}
    (leaves : ∀ leaf, leaf ∈ values.flatMap Value.leaves ↔ leaf ∈ others.flatMap Value.leaves) :
    Result.Matches (fun references references' => ∀ reference,
        reference ∈ references ↔ reference ∈ references') (collect values) (collect others) := by
  refine .intro (fun references collected => ?_) (fun references collected => ?_)
    (fails_collect values) (fails_collect others)
  · obtain ⟨references', collected'⟩ := exists_collect_iff.mpr fun leaf within =>
      exists_collect_iff.mp ⟨references, collected⟩ leaf ((leaves leaf).mpr within)
    refine ⟨references', collected', fun reference => ?_⟩
    simp only [mem_collect collected, mem_collect collected', leaves]
  · exact exists_collect_iff.mpr fun leaf within =>
      exists_collect_iff.mp ⟨references, collected⟩ leaf ((leaves leaf).mp within)

theorem collect_matches {values others : List Value}
    (all : List.Forall₂ Value.Reordered values others) :
    Result.Matches (fun references references' => ∀ reference,
        reference ∈ references ↔ reference ∈ references') (collect values) (collect others) :=
  collect_matches_of_leaves fun _ =>
    mem_flatMap_iff_of_forall₂ (all.imp fun _ _ related => related.mem_leaves_iff)

end Reference

/-- The same fields in one order with values that are reorderings of each other, and the same
references. -/
structure Plan.Reordered (p q : Plan) : Prop where
  composition : p.composition.Reordered q.composition
  fields : Table.Aligned Value.Reordered p.fields q.fields
  references : ∀ reference, reference ∈ p.references ↔ reference ∈ q.references

namespace Engine
variable {i j : Instance}

theorem plan_matches {c d : Composition} {l l' : LoadedConfig} (inst : i.Reordered j)
    (composition : c.Reordered d) (config : l.Reordered l') :
    Result.Matches Plan.Reordered (plan i c l) (plan j d l') := by
  have levels : (FieldLevels.mk i l.cluster l.project).Reordered
      (FieldLevels.mk j l'.cluster l'.project) := ⟨inst, config.cluster, config.project⟩
  refine (FieldLevels.resolve_matches levels composition.fields).bind fun t u resolved => ?_
  have fields := resolved.mapValues (f := ResolvedField.value) (g := ResolvedField.value)
    fun _ _ related => related.value
  refine (Reference.collect_matches (List.rel_map (fun _ _ both => both.2) fields)).bind
    fun _ _ references => .ok ⟨composition, fields, references⟩

end Engine
end WorkloadConfig
