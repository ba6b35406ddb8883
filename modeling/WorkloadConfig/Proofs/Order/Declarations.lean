import WorkloadConfig.Proofs.Agreement
import WorkloadConfig.Proofs.Identities
import WorkloadConfig.Proofs.Order.Fields

namespace WorkloadConfig

/-- The compositions have the same templates, perhaps in another order. -/
structure Composition.Permuted (c d : Composition) : Prop where
  kind : c.kind = d.kind
  description : c.description = d.description
  resources : c.resources.Perm d.resources
  publish : c.publish = d.publish

/-- If the patches read one field and both have a default for it, the defaults are related. -/
def Patch.Accords (R : Value → Value → Prop) (p q : Patch) : Prop :=
  p.field = q.field → p.default ≠ .null → q.default ≠ .null → R p.default q.default

/-- All defaults that a field has are related to each other. -/
def Composition.Unequivocal (R : Value → Value → Prop) (c : Composition) : Prop :=
  ∀ p ∈ c.patches, ∀ q ∈ c.patches, p.Accords R q

namespace Composition
variable {c d : Composition}

namespace Permuted

theorem symm (same : c.Permuted d) : d.Permuted c :=
  ⟨same.kind.symm, same.description.symm, same.resources.symm, same.publish.symm⟩

theorem patches (same : c.Permuted d) : c.patches.Perm d.patches :=
  same.resources.flatMap_right _

theorem templateNames (same : c.Permuted d) : c.templateNames.Perm d.templateNames :=
  same.resources.map _

theorem unequivocal (same : c.Permuted d) {R : Value → Value → Prop} (accord : c.Unequivocal R) :
    d.Unequivocal R :=
  fun p inP q inQ => accord p (same.patches.mem_iff.mpr inP) q (same.patches.mem_iff.mpr inQ)

end Permuted

/-- The default of the patch agrees with the one last given for its field. -/
def Fits (seen : Table FieldPath Value) (p : Patch) : Prop :=
  p.default ≠ .null → ∀ v, seen.find? p.field = some v → v.agrees p.default = true

theorem checkDefaults_cons {seen : Table FieldPath Value} {p : Patch} {rest : List Patch} :
    checkDefaults seen (p :: rest) = .ok () ↔ Fits seen p ∧
      checkDefaults (if p.default = .null then seen else seen.put p.field p.default) rest = .ok () := by
  rw [checkDefaults, Fits]
  split
  · rename_i null
    simp [null]
  · rename_i given
    have passes : (seen.find? p.field).any (!·.agrees p.default) = true ↔
        ¬ ∀ v, seen.find? p.field = some v → v.agrees p.default = true := by
      cases seen.find? p.field <;> simp
    simp only [passes, given, not_false_eq_true, ne_eq, true_imp_iff]
    split
    · rename_i conflict
      simp [conflict]
    · rename_i agree
      exact (and_iff_right (not_not.mp agree)).symm

/-- A default that agrees with the one that it takes the place of also agrees with what that one
agrees with. -/
theorem fits_put_iff {seen : Table FieldPath Value} {p q : Patch} (apart : p.default.KeysApart)
    (apart' : q.default.KeysApart) (given : p.default ≠ .null) (first : Fits seen p) :
    Fits (seen.put p.field p.default) q ↔ Fits seen q ∧ p.Accords (fun v w => v.agrees w = true) q := by
  unfold Fits Patch.Accords
  by_cases same : q.field = p.field
  · rw [same, Table.find?_put_self]
    constructor
    · intro agree
      refine ⟨fun given' v found => ?_, fun _ _ given' => agree given' _ rfl⟩
      exact Value.agrees_trans apart apart' (first given v found) (agree given' _ rfl)
    · rintro ⟨-, accord⟩ given' _ ⟨⟩
      exact accord rfl given given'
  · rw [Table.find?_put_of_ne _ _ same]
    exact ⟨fun agree => ⟨agree, fun other => absurd other.symm same⟩, And.left⟩

/-- The check compares each default only with the one before it, but so all of them agree. -/
theorem checkDefaults_eq_ok {seen : Table FieldPath Value} {patches : List Patch}
    (apart : ∀ p ∈ patches, p.default.KeysApart) :
    checkDefaults seen patches = .ok () ↔ (∀ p ∈ patches, Fits seen p) ∧
      patches.Pairwise (Patch.Accords fun v w => v.agrees w = true) := by
  induction patches generalizing seen with
  | nil => simp [checkDefaults]
  | cons p rest ih =>
    obtain ⟨ofFirst, later⟩ := List.forall_mem_cons.mp apart
    rw [checkDefaults_cons, ih later, List.forall_mem_cons, List.pairwise_cons, and_assoc]
    refine and_congr_right fun first => ?_
    rw [← and_assoc]
    refine and_congr_left fun _ => ?_
    split
    · rename_i null
      refine (and_iff_left fun q _ _ given => absurd null given).symm
    · rename_i given
      rw [← forall₂_and]
      exact forall₂_congr fun q member => fits_put_iff ofFirst (later q member) given first

/-- Agreeing both ways, two defaults may be compared in either order. -/
theorem pairwise_both_ways {patches : List Patch} (apart : ∀ p ∈ patches, p.default.KeysApart)
    (agree : patches.Pairwise (Patch.Accords fun v w => v.agrees w = true)) :
    patches.Pairwise (Patch.Accords fun v w => v.agrees w = true ∧ w.agrees v = true) :=
  agree.imp_of_mem fun inP inQ accord sameField given given' =>
    have agrees := accord sameField given given'
    ⟨agrees, Value.agrees_symm (apart _ inP) (apart _ inQ) agrees⟩

/-- Publications are checked only against the set of declared fields. -/
theorem checkPublications_congr {declared declared' : List FieldPath}
    (same : ∀ field, field ∈ declared ↔ field ∈ declared') (seen : List String)
    (publications : List Publication) :
    checkPublications declared seen publications = checkPublications declared' seen publications := by
  induction publications generalizing seen with
  | nil => rfl
  | cons p rest ih => simp only [checkPublications, List.contains_eq_mem, same, ih]

/-- In whatever order its templates stand, a valid composition stays valid. -/
theorem Permuted.valid (same : c.Permuted d) (apart : ∀ p ∈ c.patches, p.default.KeysApart)
    (valid : c.Valid) : d.Valid := by
  have perm := same.patches
  have apart' : ∀ p ∈ d.patches, p.default.KeysApart := fun p member =>
    apart p (perm.mem_iff.mpr member)
  obtain ⟨names, defaults, publications⟩ := check_eq_ok.mp valid.checked
  have templates : d.resources ≠ [] := fun none =>
    valid.templates (List.perm_nil.mp (none ▸ same.resources))
  refine ⟨check_eq_ok.mpr ⟨?_, ?_, ?_⟩, templates⟩
  · rw [repeatedNames_eq_nil] at names ⊢
    exact same.templateNames.nodup_iff.mp names
  · obtain ⟨-, agree⟩ := (checkDefaults_eq_ok apart).mp defaults
    refine (checkDefaults_eq_ok apart').mpr ⟨fun _ _ _ _ found => (nomatch found), ?_⟩
    -- In another order a default may stand before one that it stood behind.
    have turned := (perm.pairwise_iff fun accord sameField given given' =>
      (accord sameField.symm given' given).symm).mp (pairwise_both_ways apart agree)
    exact turned.imp fun accord sameField given given' => (accord sameField given given').1
  · rw [← same.publish, ← publications]
    exact checkPublications_congr (fun field => (perm.map _).mem_iff.symm) _ _

end Composition

/-- The declaration with what a further patch says of its field. -/
def Declaration.extend (d : Declaration) (p : Patch) : Declaration where
  path := p.field.text
  default := if p.default = .null then d.default else p.default
  required := d.required || p.required

theorem FieldPath.text_inj {p q : FieldPath} : p.text = q.text ↔ p = q := by
  cases p
  cases q
  simp

theorem Declaration.extend_comm (d : Declaration) {p q : Patch} (same : p.field = q.field)
    (accord : p.Accords (· = ·) q) : (d.extend p).extend q = (d.extend q).extend p := by
  have equal := accord same
  simp only [extend, same, Bool.or_assoc, Bool.or_comm p.required, mk.injEq, true_and, and_true]
  split <;> split <;> simp_all

namespace Composition
variable {c d : Composition} {t u : Table String Declaration}

theorem find?_declare (t : Table String Declaration) (p : Patch) (path : String) :
    (declare t p).find? path = if path = p.field.text then
      some (((t.find? path).getD ⟨path, .null, false⟩).extend p) else t.find? path := by
  have put : declare t p = t.put p.field.text
      (((t.find? p.field.text).getD ⟨p.field.text, .null, false⟩).extend p) := rfl
  by_cases own : path = p.field.text
  · rw [put, own, Table.find?_put_self, if_pos rfl]
  · rw [put, Table.find?_put_of_ne _ _ own, if_neg own]

theorem nodup_keys_declare (distinct : t.keys.Nodup) (p : Patch) : (declare t p).keys.Nodup :=
  Table.nodup_keys_put distinct _ _

theorem declare_reordered (same : Table.Reordered (· = ·) t u) (p : Patch) :
    Table.Reordered (· = ·) (declare t p) (declare u p) := by
  refine .of_find?_eq (nodup_keys_declare same.distinct p) (nodup_keys_declare same.distinct' p) ?_
  intro path
  rw [find?_declare, find?_declare, same.find?_eq]

theorem declare_comm (distinct : t.keys.Nodup) {p q : Patch} (accord : p.Accords (· = ·) q) :
    Table.Reordered (· = ·) (declare (declare t p) q) (declare (declare t q) p) := by
  refine .of_find?_eq (nodup_keys_declare (nodup_keys_declare distinct p) q)
    (nodup_keys_declare (nodup_keys_declare distinct q) p) fun path => ?_
  simp only [find?_declare]
  by_cases same : p.field = q.field
  · rw [same]
    split
    · simp only [Option.getD_some]
      rw [Declaration.extend_comm _ same accord]
    · rfl
  · have apart : p.field.text ≠ q.field.text := mt FieldPath.text_inj.mp same
    split
    · rename_i own
      simp [own, apart.symm]
    · rfl

theorem foldl_declare_reordered {patches others : List Patch} (perm : patches.Perm others)
    (accord : ∀ p ∈ patches, ∀ q ∈ patches, p.Accords (· = ·) q)
    (same : Table.Reordered (· = ·) t u) :
    Table.Reordered (· = ·) (patches.foldl declare t) (others.foldl declare u) := by
  induction perm generalizing t u with
  | nil => exact same
  | cons p _ ih =>
    refine ih (fun q inQ r inR => ?_) (declare_reordered same p)
    exact accord q (List.mem_cons_of_mem p inQ) r (List.mem_cons_of_mem p inR)
  | swap p q rest =>
    have first := declare_reordered (declare_reordered same q) p
    have swapped := declare_comm same.distinct' (accord q List.mem_cons_self p
      (List.mem_cons_of_mem q List.mem_cons_self))
    exact List.foldl_rel (first.trans swapped) fun r _ _ _ same => declare_reordered same r
  | trans perm _ ih ih' =>
    have still := fun p inP q inQ => accord p (perm.mem_iff.mpr inP) q (perm.mem_iff.mpr inQ)
    exact (ih accord same).trans (ih' still (.of_find?_eq same.distinct' same.distinct' fun _ => rfl))

/-- Each field is declared once. -/
theorem nodup_fields (c : Composition) : (c.fields.map Declaration.path).Nodup := by
  let Own (t : Table String Declaration) : Prop :=
    t.keys.Nodup ∧ ∀ entry ∈ t, entry.2.path = entry.1
  have declared : Own (c.patches.foldl declare []) := by
    refine List.foldlRecOn _ _ ⟨.nil, nofun⟩ fun t ⟨distinct, own⟩ p _ => ?_
    refine ⟨nodup_keys_declare distinct p, fun entry member => ?_⟩
    rcases Table.mem_put member with rfl | old
    · rfl
    · exact own entry old
  have paths : c.fields.map Declaration.path = (c.patches.foldl declare []).keys := by
    rw [fields, List.map_map]
    exact List.map_congr_left declared.2
  exact paths ▸ declared.1

/-- The same fields are declared, if perhaps in another order. -/
theorem Permuted.fields_perm (same : c.Permuted d) (accord : c.Unequivocal (· = ·)) :
    c.fields.Perm d.fields :=
  (foldl_declare_reordered same.patches accord .nil).perm.map _

end Composition

namespace FieldLevels
variable {levels : FieldLevels} {declarations others : List Declaration}
  {t u : Table String ResolvedField}

/-- The value of a field, none where it has none or fails to have one. -/
def found? (levels : FieldLevels) (d : Declaration) : Option ResolvedField :=
  (levels.resolveField d).toOption.join

/-- The values of the fields, by their paths. -/
def valued (levels : FieldLevels) (declarations : List Declaration) : Table String ResolvedField :=
  declarations.filterMap fun d => (levels.found? d).map (Prod.mk d.path)

theorem valued_cons {d : Declaration} {field : Option ResolvedField}
    (resolved : levels.resolveField d = .ok field) (rest : List Declaration) :
    levels.valued (d :: rest) = (field.map (Prod.mk d.path)).toList ++ levels.valued rest := by
  have found : levels.found? d = field := by rw [found?, resolved]; rfl
  rw [valued, List.filterMap_cons, found]
  cases field <;> rfl

theorem keys_valued (levels : FieldLevels) (declarations : List Declaration) :
    (levels.valued declarations).keys.Sublist (declarations.map Declaration.path) := by
  induction declarations with
  | nil => exact .slnil
  | cons d rest ih =>
    unfold valued at ih ⊢
    rw [List.filterMap_cons]
    cases levels.found? d with
    | none => exact ih.cons _
    | some field => exact ih.cons_cons _

theorem foldlM_resolve (distinct : (t.keys ++ declarations.map Declaration.path).Nodup) :
    declarations.foldlM (fun fields d => do
      match ← levels.resolveField d with
      | some field => .ok (fields.put d.path field)
      | none => .ok fields) t = .ok u ↔
    (∀ d ∈ declarations, ∃ field, levels.resolveField d = .ok field) ∧
      u = t ++ levels.valued declarations := by
  induction declarations generalizing t with
  | nil => simp [valued, eq_comm]
  | cons d rest ih =>
    rw [List.map_cons] at distinct
    have without : (t.keys ++ rest.map Declaration.path).Nodup :=
      distinct.sublist ((List.Sublist.refl _).append (List.sublist_cons_self _ _))
    rw [List.foldlM_cons, List.forall_mem_cons]
    cases resolved : levels.resolveField d with
    | error failure => simp
    | ok field =>
      rw [valued_cons resolved]
      cases field with
      | none => simpa using ih without
      | some field =>
        have absent : t.find? d.path = none := by
          rw [Table.find?_eq_none_iff]
          exact fun there => (List.nodup_append.mp distinct).2.2 _ there _ List.mem_cons_self rfl
        have next : ((t ++ [(d.path, field)]).keys ++ rest.map Declaration.path).Nodup := by
          simpa [Table.keys] using distinct
        simpa [Table.put_of_absent field absent] using ih next

theorem resolve_eq_ok (distinct : (declarations.map Declaration.path).Nodup) :
    levels.resolve declarations = .ok u ↔
      (∀ d ∈ declarations, ∃ field, levels.resolveField d = .ok field) ∧
        u = levels.valued declarations :=
  foldlM_resolve distinct

/-- Fields that are declared in another order have the same values. -/
theorem exists_resolve (perm : declarations.Perm others)
    (distinct : (declarations.map Declaration.path).Nodup)
    (resolved : levels.resolve declarations = .ok t) :
    ∃ u, levels.resolve others = .ok u ∧ Table.Reordered (· = ·) t u := by
  have distinct' := (perm.map Declaration.path).nodup_iff.mp distinct
  obtain ⟨each, rfl⟩ := (resolve_eq_ok distinct).mp resolved
  refine ⟨_, (resolve_eq_ok distinct').mpr ⟨fun d member => each d (perm.mem_iff.mpr member), rfl⟩, ?_⟩
  exact .of_perm (distinct.sublist (keys_valued levels declarations)) (perm.filterMap _)
    fun _ _ => rfl

end FieldLevels

/-- The plans have the same values and references, if perhaps in another order, for compositions that
have the same templates. -/
structure Plan.Permuted (p q : Plan) : Prop where
  composition : p.composition.Permuted q.composition
  fields : Table.Reordered (· = ·) p.fields q.fields
  references : ∀ reference, reference ∈ p.references ↔ reference ∈ q.references

/-- What can be planned with a composition can be planned with its templates in another order. -/
theorem Engine.exists_plan {i : Instance} {c d : Composition} {config : LoadedConfig} {p : Plan}
    (same : c.Permuted d) (accord : c.Unequivocal (· = ·)) (planned : plan i c config = .ok p) :
    ∃ q, plan i d config = .ok q ∧ p.Permuted q := by
  obtain ⟨t, resolved, rest⟩ := Result.bind_eq_ok.mp planned
  obtain ⟨references, collected, made⟩ := Result.bind_eq_ok.mp rest
  cases made
  obtain ⟨u, resolved', values⟩ :=
    FieldLevels.exists_resolve (same.fields_perm accord) c.nodup_fields resolved
  have fields : Table.Reordered (· = ·) (t.mapValues ResolvedField.value)
      (u.mapValues ResolvedField.value) := values.mapValues fun _ _ equal => congrArg _ equal
  have leaves (leaf : String) :=
    ((fields.perm.map Prod.snd).flatMap_right Value.leaves).mem_iff (a := leaf)
  obtain ⟨references', collected', found⟩ :=
    (Reference.collect_matches_of_leaves leaves).exists_ok collected
  refine ⟨⟨d, config, u.mapValues ResolvedField.value, references'⟩, ?_, same, fields, found⟩
  exact Result.bind_eq_ok.mpr ⟨u, resolved', Result.bind_eq_ok.mpr ⟨references', collected', rfl⟩⟩

end WorkloadConfig
