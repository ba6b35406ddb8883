import WorkloadConfig.Proofs.Order.Lookups

namespace WorkloadConfig

theorem Pointer.isProper_field (p : Pointer) : p.field.IsProper := by
  obtain ⟨resource, key, source⟩ := p
  cases source <;> cases key <;> rfl

namespace Resolutions
variable {refs refs' : Resolutions} {onPointer onPointer' : Pointer → Result Value}
  {v w : Value} {fate : Fate}

theorem replacement_matches (same : Table.Reordered Resolved.Reordered refs refs')
    (pointers : ∀ p, Result.Matches Value.Reordered (onPointer p) (onPointer' p)) (text : String) :
    Result.Matches Value.Reordered (refs.replacement onPointer text)
      (refs'.replacement onPointer' text) := by
  unfold replacement
  split
  · rcases rel_cases (same.under text) with ⟨one, two⟩ | ⟨a, b, one, two, related⟩ <;> rw [one, two]
    · exact .error rfl
    · cases related with
      | literal both => exact .ok both
      | pointer p => exact pointers p
  · exact .ok (.scalar _)

theorem standing_reordered (same : Table.Reordered Resolved.Reordered refs refs')
    (pointers : ∀ p, Result.Matches Value.Reordered (onPointer p) (onPointer' p)) (text : String) :
    (refs.standing onPointer text).Reordered (refs'.standing onPointer' text) := by
  have replaced := replacement_matches same pointers text
  unfold standing
  generalize refs.replacement onPointer text = x, refs'.replacement onPointer' text = y at replaced
  cases replaced with
  | ok both => exact both
  | error _ => exact .scalar _

theorem fails_inject (fails : ∀ leaf ∈ v.leaves, (refs.replacement onPointer leaf).Fails fate) :
    (refs.inject onPointer v).Fails fate := by
  intro failure failed
  obtain ⟨leaf, within, failed⟩ := exists_leaf_of_inject_error failed
  exact fails leaf within failure failed

/-- References are replaced alike in reorderings of each other, provided that whatever the leaves
can fail with is of one fate. -/
theorem inject_matches (refsSame : Table.Reordered Resolved.Reordered refs refs')
    (pointers : ∀ p, Result.Matches Value.Reordered (onPointer p) (onPointer' p))
    (same : v.Reordered w)
    (fails : ∀ leaf ∈ v.leaves, (refs.replacement onPointer leaf).Fails fate)
    (fails' : ∀ leaf ∈ w.leaves, (refs'.replacement onPointer' leaf).Fails fate) :
    Result.Matches Value.Reordered (refs.inject onPointer v) (refs'.inject onPointer' w) := by
  have replaces (leaf : String) := (replacement_matches refsSame pointers leaf).exists_iff
  -- Which leaf fails first depends on the order, so the failures are only known to share a fate.
  refine .intro (fun a injected => ?_) (fun b injected => ?_) (fails_inject fails)
    (fails_inject fails')
  · obtain ⟨all, rfl⟩ := inject_eq_ok.mp injected
    refine ⟨_, inject_eq_ok.mpr ⟨fun leaf within => ?_, rfl⟩,
      same.substitute (standing_reordered refsSame pointers)⟩
    exact (replaces leaf).mp (all leaf (same.mem_leaves_iff.mpr within))
  · obtain ⟨all, -⟩ := inject_eq_ok.mp injected
    refine ⟨_, inject_eq_ok.mpr ⟨fun leaf within => ?_, rfl⟩⟩
    exact (replaces leaf).mpr (all leaf (same.mem_leaves_iff.mp within))

theorem injectFields_matches (refsSame : Table.Reordered Resolved.Reordered refs refs')
    (same : v.Reordered w) :
    Result.Matches Value.Reordered (refs.injectFields v) (refs'.injectFields w) := by
  have fails (refs : Resolutions) (leaf : String) :
      (refs.replacement (fun pointer => .ok pointer.field) leaf).Fails .escaping := by
    unfold replacement
    split
    · split
      · exact .ok _
      · exact .ok _
      · exact .error rfl
    · exact .ok _
  exact inject_matches refsSame (fun p => .ok (.refl p.isProper_field)) same
    (fun leaf _ => fails refs leaf) (fun leaf _ => fails refs' leaf)

end Resolutions

namespace Template
variable {t u : Template} {fields fields' : Assignment} {refs refs' : Resolutions}

theorem Reordered.skeleton (same : t.Reordered u) : t.skeleton.Reordered u.skeleton := by
  unfold Template.skeleton
  rw [same.apiVersion, same.kind]
  exact ((Value.reordered_ofTable same.base).entries.put _ (.scalar _)).put _ (.scalar _)

theorem Reordered.present (same : t.Reordered u)
    (fieldsSame : Table.Aligned Value.Reordered fields fields') :
    Table.Aligned Value.Reordered (t.present fields) (u.present fields') := by
  refine List.rel_filterMap (fun p q patch => ?_) same.patches
  rw [patch.field, patch.place]
  rcases rel_cases (fieldsSame.under q.field.text) with ⟨one, two⟩ | ⟨a, b, one, two, related⟩ <;>
    rw [one, two]
  · exact .none
  · exact .some ⟨rfl, related⟩

theorem written_reordered {v w : Value} (same : v.Reordered w)
    {writings others : List (FieldPath × Value)}
    (all : Table.Aligned Value.Reordered writings others) :
    (v.written writings).Reordered (w.written others) := by
  refine List.rel_foldl (fun v w same writing other both => ?_) same all
  rw [both.1]
  exact same.set _ both.2

theorem Reordered.filled (same : t.Reordered u)
    (fieldsSame : Table.Aligned Value.Reordered fields fields')
    (refsSame : Table.Reordered Resolved.Reordered refs refs') :
    Result.Matches Value.Reordered (t.filled fields refs) (u.filled fields' refs') := by
  have present := same.present fieldsSame
  have places : (t.present fields).map (·.1) = (u.present fields').map (·.1) := present.keys_eq
  have patched : (t.patched fields).Reordered (u.patched fields') :=
    written_reordered same.skeleton present
  unfold Template.filled
  rw [places]
  refine Result.Matches.foldlM_same _ (fun p v w both => ?_) patched
  refine (Resolutions.injectFields_matches refsSame (both.valueAt p)).bind fun _ _ new => .ok ?_
  exact both.set _ new

end Template

namespace Value
variable {v w : Value}

theorem spread_matches (same : v.Reordered w) :
    Result.Matches (fun t u => (Value.map t).Reordered (.map u)) v.spread w.spread := by
  unfold spread
  rw [same.isGiven_eq]
  split
  · exact .ok .empty
  · cases same with
    | scalar _ => exact .error rfl
    | list _ => exact .error rfl
    | map texts distinct distinct' under => exact .ok (.map texts distinct distinct' under)

end Value

namespace Instance
variable {i j : Instance} {t u : Template} {v w : Value}

theorem isProper_owner (i : Instance) : i.owner.IsProper := by
  unfold owner ownerUid
  split
  · split <;> rfl
  · rfl

theorem Reordered.owner_eq (same : i.Reordered j) : i.owner = j.owner := by
  simp only [owner, ownerUid, same.kind, same.name, same.uid]

theorem metadata_matches (manager : String) (inst : i.Reordered j) (template : t.Reordered u)
    (same : v.Reordered w) :
    Result.Matches Value.Reordered (i.metadata manager t v) (j.metadata manager u w) := by
  have ofName : i.resourceName t = j.resourceName u := by
    rw [resourceName, resourceName, inst.name, template.name]
  have reserved : i.reservedLabels manager = j.reservedLabels manager := by
    rw [reservedLabels, reservedLabels, inst.name, inst.kind]
  have own := (same.lookup (.str "metadata")).entries
  have stamp : (Value.map [("name", .str (j.resourceName u)),
      ("namespace", .str j.ns.text)]).IsProper := rfl
  have named := own.putAll (.refl stamp)
  have marks : (Value.map (j.reservedLabels manager)).IsProper := rfl
  unfold metadata
  rw [same.canonical?_eq, ofName, inst.ns, reserved, inst.owner_eq]
  refine Result.Matches.bind (.of_eq rfl) ?_
  rintro text _ rfl
  refine (Value.spread_matches (named.lookup (.str "labels"))).bind fun labels labels' spread => ?_
  have labelled := ((Value.Reordered.empty.putAll spread).putAll
    (Value.reordered_ofLabels inst.labels).entries).putAll (.refl marks)
  refine (Value.spread_matches (named.lookup (.str "annotations"))).bind fun _ _ annotations => ?_
  have annotated := annotations.put digestAnnotation (.scalar (.str (Digest.ofText text)))
  have owners : (Value.list [j.owner]).Reordered (.list [j.owner]) :=
    .list (.cons (.refl j.isProper_owner) .nil)
  exact .ok (named.putAll (((Value.Reordered.empty.put "labels" labelled).put "annotations"
    annotated).put "ownerReferences" owners))

theorem resource_matches (manager : String) (inst : i.Reordered j) (template : t.Reordered u)
    {fields fields' : Assignment} {refs refs' : Resolutions}
    (fieldsSame : Table.Aligned Value.Reordered fields fields')
    (refsSame : Table.Reordered Resolved.Reordered refs refs') :
    Result.Matches (· = ·) (i.resource manager fields refs t)
      (j.resource manager fields' refs' u) := by
  refine (template.filled fieldsSame refsSame).bind fun v w filled => ?_
  refine (metadata_matches manager inst template filled).bind fun m m' metadata => ?_
  exact .of_eq (filled.entries.put "metadata" metadata).sorted?_eq

/-- Instances and compositions that differ in the order of entries have the same resources. -/
theorem resources_matches (manager : String) (inst : i.Reordered j) {c d : Composition}
    (composition : c.Reordered d) {fields fields' : Assignment} {refs refs' : Resolutions}
    (fieldsSame : Table.Aligned Value.Reordered fields fields')
    (refsSame : Table.Reordered Resolved.Reordered refs refs') :
    Result.Matches (· = ·) (i.resources c manager fields refs)
      (j.resources d manager fields' refs') := by
  have all := Result.Matches.mapM (composition.resources.imp fun _ _ template =>
    resource_matches manager inst template fieldsSame refsSame)
  exact all.mono fun _ _ equal => List.forall₂_eq_eq_eq ▸ equal

end Instance

section
variable {fields fields' : Assignment} {refs refs' : Resolutions}

theorem Resolutions.Covers.fails {leaves : List String} (covers : refs.Covers leaves) {fate : Fate}
    {onPointer : Pointer → Result Value} (pointers : ∀ p, (onPointer p).Fails fate) {leaf : String}
    (member : leaf ∈ leaves) : (refs.replacement onPointer leaf).Fails fate := by
  intro failure fails
  obtain ⟨p, fails⟩ := covers.exists_pointer member fails
  exact pointers p failure fails

theorem Publication.secretText_matches {v w : Value} (same : v.Reordered w) :
    Result.Matches (· = ·) (secretText v) (secretText w) := by
  have canonical := same.canonical?_eq
  cases same with
  | scalar _ => exact .of_eq rfl
  | list _ => exact .of_eq canonical
  | map => exact .of_eq canonical

/-- What stands for the published field is the same up to order. Every reference within it has been
resolved, so only a pointer stands in the way. -/
theorem Publication.literal_matches (p : Publication)
    (fieldsSame : Table.Aligned Value.Reordered fields fields')
    (refsSame : Table.Reordered Resolved.Reordered refs refs') (covers : refs.Covers fields.leaves)
    (covers' : refs'.Covers fields'.leaves) :
    Result.Matches Value.Reordered (p.literal fields refs) (p.literal fields' refs') := by
  unfold literal
  rcases rel_cases (fieldsSame.under p.fromField.text) with ⟨one, two⟩ | ⟨v, w, one, two, same⟩
  · rw [one, two]
    exact .ok (.scalar _)
  · rw [one, two]
    exact Resolutions.inject_matches refsSame (fun _ => .error rfl) same
      (fun leaf within => covers.fails (fun _ => .error rfl) (Assignment.mem_leaves one within))
      fun leaf within => covers'.fails (fun _ => .error rfl) (Assignment.mem_leaves two within)

/-- The outputs are the same up to order, and the connection is the same. -/
structure Published.Reordered (done done' : Published) : Prop where
  outputs : Table.Reordered Value.Reordered done.outputs done'.outputs
  connection : done.connection = done'.connection
  distinct : done.connection.keys.Nodup

theorem Published.add_matches (fieldsSame : Table.Aligned Value.Reordered fields fields')
    (refsSame : Table.Reordered Resolved.Reordered refs refs') (covers : refs.Covers fields.leaves)
    (covers' : refs'.Covers fields'.leaves) {done done' : Published} (same : done.Reordered done')
    (p : Publication) :
    Result.Matches Published.Reordered (add fields refs done p) (add fields' refs' done' p) := by
  refine (p.literal_matches fieldsSame refsSame covers covers').bind fun v w value => ?_
  simp only [value.null_iff]
  split
  · exact .ok same
  · split
    · refine (Publication.secretText_matches value).bind ?_
      rintro text _ rfl
      exact .ok ⟨same.outputs, by rw [same.connection], Table.nodup_keys_put same.distinct _ _⟩
    · exact .ok ⟨same.outputs.put _ value, same.connection, same.distinct⟩

theorem nodup_keys_byKey {α : Type} {t : Table String α} (distinct : t.keys.Nodup) :
    (byKey t).keys.Nodup :=
  ((Sorting.sort_perm _ t).map Prod.fst).nodup_iff.mpr distinct

/-- Once they are in order, the outputs are the same, with keys that are distinct texts. -/
theorem sortedOutputs_matches {outputs outputs' : Table String Value}
    (same : Table.Reordered Value.Reordered outputs outputs') :
    Result.Matches (fun sorted sorted' => sorted = sorted' ∧
        Table.Reordered Value.Reordered sorted sorted)
      (sortedOutputs outputs) (sortedOutputs outputs') := by
  have perm := same.perm_mapValues fun _ _ related => related.sortKeys_eq
  have distinct : (outputs.mapValues Value.sortKeys).keys.Nodup := by
    rw [Table.keys_mapValues]
    exact same.distinct
  unfold sortedOutputs
  rw [(Value.reordered_ofTable same).hasOrder_eq, byKey_eq_of_perm distinct perm]
  split
  · rw [← byKey_eq_of_perm distinct perm]
    refine .ok ⟨rfl, .of_perm (nodup_keys_byKey distinct) (.refl _) fun entry member => ?_⟩
    obtain ⟨old, within, rfl⟩ := List.mem_map.mp ((Sorting.sort_perm _ _).mem_iff.mp member)
    obtain ⟨w, -, related⟩ := same.exists_of_mem within
    exact .refl (Value.isProper_sortKeys.mpr related.isProper)
  · exact .error rfl

theorem Composition.Reordered.templateNames_eq {c d : Composition} (same : c.Reordered d) :
    c.templateNames = d.templateNames := by
  exact map_eq_of_forall₂ (same.resources.imp fun _ _ related => congrArg Label.text related.name)

/-- Instances and compositions that differ in the order of entries have the same record, with keys
that are distinct texts. -/
theorem Instance.record_matches {i j : Instance} (inst : i.Reordered j) {c d : Composition}
    (composition : c.Reordered d) (fieldsSame : Table.Aligned Value.Reordered fields fields')
    (refsSame : Table.Reordered Resolved.Reordered refs refs') (covers : refs.Covers fields.leaves)
    (covers' : refs'.Covers fields'.leaves) :
    Result.Matches (fun r r' => r = r' ∧ r.Reordered r) (i.record c fields refs)
      (j.record d fields' refs') := by
  have published : Result.Matches Published.Reordered
      (c.publish.foldlM (Published.add fields refs) {})
      (d.publish.foldlM (Published.add fields' refs') {}) := by
    rw [composition.publish]
    exact Result.Matches.foldlM_same _ (fun p done done' same =>
      Published.add_matches fieldsSame refsSame covers covers' same p) ⟨.nil, rfl, .nil⟩
  refine published.bind fun done done' same => ?_
  refine (sortedOutputs_matches same.outputs).bind ?_
  rintro outputs _ ⟨rfl, sorted⟩
  rw [inst.kind, inst.ns, inst.name, ← same.connection, composition.templateNames_eq]
  have data := Table.Reordered.of_perm (R := (· = ·)) (nodup_keys_byKey same.distinct) (.refl _)
    fun _ _ => rfl
  exact .ok ⟨rfl, rfl, rfl, rfl, sorted, rfl, data, rfl, rfl⟩

end
end WorkloadConfig
