import WorkloadConfig.Proofs.Documents
import WorkloadConfig.Proofs.Isolation
import WorkloadConfig.Proofs.Patching
import WorkloadConfig.Proofs.Publishing
import WorkloadConfig.Proofs.References

namespace WorkloadConfig

namespace Value

/-- No text leaf begins like a reference. -/
def Clean (v : Value) : Prop :=
  ∀ leaf ∈ v.leaves, Reference.isReference leaf = false

theorem mem_leaves_sortKeys {v : Value} {leaf : String} :
    leaf ∈ v.sortKeys.leaves ↔ leaf ∈ v.leaves := by
  induction v using Value.induction with
  | scalar _ => rfl
  | list items ih =>
    simp only [sortKeys, leaves, mem_leavesOfItems, sortKeysItems_eq, List.mem_map,
      exists_exists_and_eq_and]
    exact exists_congr fun v => and_congr_right (ih v)
  | map entries ih =>
    simp only [sortKeys, leaves, mem_leavesOfEntries, (Sorting.sort_perm _ _).mem_iff,
      sortKeysEntries_eq, Table.mapValues, List.mem_map, exists_exists_and_eq_and]
    exact exists_congr fun entry => and_congr_right (ih entry)

theorem Clean.sortKeys {v : Value} (clean : v.Clean) : v.sortKeys.Clean :=
  fun leaf within => clean leaf (mem_leaves_sortKeys.mp within)

theorem clean_null : Value.null.Clean :=
  fun _ within => absurd within List.not_mem_nil

theorem clean_str {text : String} :
    (Value.str text).Clean ↔ Reference.isReference text = false := by
  simp [Clean, leaves]

end Value

/-- No text that the reference stands for begins like a reference itself. -/
def Resolved.Clean : Resolved → Prop
  | .literal v => v.Clean
  | .pointer p => p.field.Clean

theorem Pointer.clean_field {p : Pointer} (name : Reference.isReference p.resource = false)
    (key : ∀ key, p.key = some key → Reference.isReference key = false) : p.field.Clean := by
  obtain ⟨resource, _ | word, _ | _⟩ := p <;>
    simp_all [Value.Clean, field, Pointer.name, Value.leaves, Value.leavesOfEntries]

/-- No text that a reference to the record can stand for begins like a reference. -/
structure Record.Clean (r : Record) : Prop where
  outputs : ∀ entry ∈ r.outputs, entry.2.Clean
  connection : Reference.isReference r.connection.name = false

def MemoryStore.Clean (s : MemoryStore) : Prop :=
  ∀ ns name r, s.read ns name = some r → r.Clean

namespace Resolver
variable {r : Resolver} {s : MemoryStore} {reference : Reference} {v : Resolved}

/-- A check refuses or changes nothing. -/
theorem eq_of_checked {target name : String} {listed : Option (List String)} {resolved : Resolved}
    (passes : checked target name listed resolved = .ok v) : v = resolved := by
  cases listed with
  | none => exact (Except.ok.inj passes).symm
  | some names => exact ((checked_eq_ok rfl).mp passes).2

theorem clean_managed {expected target resource : String} {source : PointerSource}
    {key : Option String} {found : Target}
    (plain : ∀ name ∈ target :: resource :: key.toList, '/' ∉ name.toList)
    (shown : managed expected source target resource key found = .ok v) : v.Clean := by
  simp only [List.forall_mem_cons, Option.mem_toList] at plain
  obtain ⟨ofTarget, ofResource, ofKey⟩ := plain
  unfold managed at shown
  split at shown
  · cases eq_of_checked shown
    refine Pointer.clean_field (Reference.isReference_eq_false ?_) fun word same =>
      Reference.isReference_eq_false (ofKey word same)
    simp [ofTarget, ofResource]
  · cases shown

/-- A clean record shows nothing that begins like a reference. -/
theorem clean_shown {record : Record} (clean : record.Clean) (plain : reference.IsPlain)
    (shown : r.shown reference (.ofRecord record) = .ok v) : v.Clean := by
  cases reference with
  | output ns target key =>
    obtain ⟨value, found, rfl⟩ := output_eq_ok.mp shown
    exact clean.outputs _ (Table.mem_of_find? found)
  | connection target key =>
    have checks : checked target key (Target.ofRecord record).connectionKeys
        (.pointer ⟨record.connection.name, some key, .secret⟩) = .ok v := shown
    cases eq_of_checked checks
    refine Pointer.clean_field clean.connection fun word same => ?_
    cases same
    exact Reference.isReference_eq_false (plain key (by simp [Reference.names]))
  | secret target resource key => exact clean_managed plain shown
  | config target resource key => exact clean_managed plain shown

theorem clean_resolveBy (clean : s.Clean) (plain : reference.IsPlain)
    (resolves : r.resolveBy s.view reference = .ok v) : v.Clean := by
  obtain ⟨ns, found, -, finds, shown⟩ := resolveBy_eq_ok.mp resolves
  obtain ⟨record, holds, rfl⟩ := Option.map_eq_some_iff.mp (Except.ok.inj finds)
  exact clean_shown (clean _ _ record holds) plain shown

end Resolver

namespace Resolutions
variable {refs : Resolutions} {onPointer : Pointer → Result Value}

/-- No text that one of the references stands for begins like a reference. -/
def Clean (refs : Resolutions) : Prop :=
  ∀ entry ∈ refs, entry.2.Clean

/-- What stands for a leaf is clean, whether the leaf is a reference or not. -/
theorem Clean.standing (clean : refs.Clean)
    (asField : ∀ pointer v, onPointer pointer = .ok v → v = pointer.field) (text : String) :
    (refs.standing onPointer text).Clean := by
  unfold Resolutions.standing
  split
  · rename_i v replaces
    unfold replacement at replaces
    split at replaces
    · split at replaces
      · rename_i found
        cases replaces
        exact clean _ (Table.mem_of_find? found)
      · rename_i pointer found
        cases asField _ _ replaces
        exact clean _ (Table.mem_of_find? found)
      · cases replaces
    · rename_i notReference
      cases replaces
      exact Value.clean_str.mpr (by simpa using notReference)
  · exact Value.clean_null

theorem Clean.meaning (clean : refs.Clean) (text : String) : (refs.meaning text).Clean :=
  clean.standing (fun _ _ same => (Except.ok.inj same).symm) text

end Resolutions

/-- The value of a publication consists of what its leaves stand for. -/
theorem Publication.clean_literal {p : Publication} {fields : Assignment} {refs : Resolutions}
    {v : Value} (clean : refs.Clean) (literal : p.literal fields refs = .ok v) : v.Clean := by
  unfold Publication.literal at literal
  split at literal
  · cases literal
    exact Value.clean_null
  · obtain ⟨-, rfl⟩ := Resolutions.inject_eq_ok.mp literal
    intro leaf within
    obtain ⟨text, -, within⟩ := Value.mem_leaves_substitute.mp within
    exact clean.standing (fun _ _ refused => by cases refused) text leaf within

namespace Published
variable {fields : Assignment} {refs : Resolutions} {done after : Published}

theorem clean_add {p : Publication} (clean : refs.Clean)
    (added : add fields refs done p = .ok after)
    (before : ∀ entry ∈ done.outputs, entry.2.Clean) : ∀ entry ∈ after.outputs, entry.2.Clean := by
  simp only [add, Result.bind_eq_ok] at added
  obtain ⟨v, literal, added⟩ := added
  split at added
  · cases added
    exact before
  split at added
  · obtain ⟨text, -, added⟩ := Result.bind_eq_ok.mp added
    cases added
    exact before
  · cases added
    intro entry member
    rcases Table.mem_put member with rfl | old
    · exact Publication.clean_literal clean literal
    · exact before entry old

theorem clean_foldlM {publications : List Publication} (clean : refs.Clean)
    (folded : publications.foldlM (add fields refs) done = .ok after)
    (before : ∀ entry ∈ done.outputs, entry.2.Clean) : ∀ entry ∈ after.outputs, entry.2.Clean := by
  induction publications generalizing done with
  | nil =>
    cases folded
    exact before
  | cons p rest ih =>
    rw [List.foldlM_cons] at folded
    obtain ⟨next, added, folded⟩ := Result.bind_eq_ok.mp folded
    exact ih folded (clean_add clean added before)

end Published

theorem Instance.clean_record {i : Instance} {c : Composition} {fields : Assignment}
    {refs : Resolutions} {r : Record} (clean : refs.Clean)
    (recorded : i.record c fields refs = .ok r) : r.Clean := by
  obtain ⟨published, folded, rfl⟩ := record_eq_ok recorded
  refine ⟨fun entry member => ?_, Reference.isReference_eq_false ?_⟩
  · obtain ⟨output, held, rfl⟩ := List.mem_map.mp ((Sorting.sort_perm _ _).mem_iff.mp member)
    exact (Published.clean_foldlM clean folded (by simp) output held).sortKeys
  · have noSlash := i.name.not_mem_of_outside (c := '/') (by decide) (by decide)
    simp [connectionSecretName, noSlash]

/-- At and below the patched places of what a template is filled with there is nothing but what
leaves stand for. -/
theorem Template.clean_filled {t : Template} {fields : Assignment} {refs : Resolutions} {v : Value}
    (clean : refs.Clean) (filled : t.filled fields refs = .ok v) :
    ∀ place ∈ t.places fields, ∀ part, v.get? place.segments = some part → part.Clean := by
  obtain ⟨-, rfl⟩ := filled_eq_ok.mp filled
  intro place member part found leaf within
  have covered : FieldPath.covering (t.places fields) place.segments = true :=
    FieldPath.covering_iff.mpr ⟨place, member, List.prefix_refl _⟩
  obtain ⟨text, within⟩ := Value.mem_leaves_substituteWhere found covered within
  exact clean.meaning text leaf within

namespace Turn
variable {t : Turn} {s : MemoryStore} {work : Work}

/-- The references of a plan are written with names in which there is no slash. -/
theorem isPlain_of_planned {plan : Plan} (planned : t.engine.planned t.around t.inst = .ok plan)
    {reference : Reference} (member : reference ∈ plan.references) : reference.IsPlain := by
  simp only [Engine.planned, Engine.plan, Result.bind_eq_ok] at planned
  obtain ⟨⟨c, config⟩, -, fields, -, references, collected, same⟩ := planned
  cases same
  obtain ⟨leaf, parses⟩ := Reference.exists_parse_of_collect collected member
  exact Reference.isPlain_of_parse parses

theorem Does.clean_refs (clean : s.Clean) (does : t.Does s work) : work.refs.Clean := by
  have found := does.found
  rw [lookUp_eq] at found
  intro entry member
  obtain ⟨reference, distinct, same⟩ := List.mem_map.mp (Resolver.mem_of_gather found member)
  obtain ⟨-, resolves⟩ := Prod.mk.inj same
  have plain := isPlain_of_planned does.planned (List.mem_eraseDups.mp distinct)
  exact Resolver.clean_resolveBy clean plain resolves

/-- The pass fills all of its templates, and no text leaf at or below a patched place of what it
fills them with begins like a reference. -/
def FillsClean (t : Turn) (s : MemoryStore) : Prop :=
  ∃ work, t.Does s work ∧ ∀ template ∈ work.plan.composition.resources,
    ∃ v, template.filled work.plan.fields work.refs = .ok v ∧
      ∀ place ∈ template.places work.plan.fields, ∀ part,
        v.get? place.segments = some part → part.Clean

theorem Does.fillsClean (clean : s.Clean) (does : t.Does s work) : t.FillsClean s := by
  refine ⟨work, does, fun template member => ?_⟩
  obtain ⟨resource, -, made⟩ := exists_of_forall₂ does.generated member
  simp only [Instance.resource, Result.bind_eq_ok] at made
  obtain ⟨v, filled, -⟩ := made
  exact ⟨v, filled, Template.clean_filled (does.clean_refs clean) filled⟩

/-- A pass keeps a clean store clean. -/
theorem pass_clean (t : Turn) (clean : s.Clean) : (t.pass s).2.Clean := by
  intro ns name r holds
  rcases t.pass_cases s with ⟨-, work, does, replaced⟩ | ⟨-, kept⟩
  · by_cases isFor : t.IsFor ns name
    · rw [read_replaced replaced isFor] at holds
      cases holds
      have written := Instance.clean_record (does.clean_refs clean) does.recorded
      exact ⟨written.outputs, written.connection⟩
    · rw [read_replaced_other replaced isFor] at holds
      exact clean ns name r holds
  · rw [kept] at holds
    exact clean ns name r holds

theorem after_clean (clean : s.Clean) (turns : List Turn) : (after s turns).Clean := by
  induction turns generalizing s with
  | nil => exact clean
  | cons t rest ih => exact ih (t.pass_clean clean)

/-- A run over a clean store has it clean after each of its passes, and no pass of it that succeeds
leaves a text that begins like a reference at or below a patched place of a resource. -/
theorem run_clean (clean : s.Clean) (turns : List Turn) :
    (after s turns).Clean ∧ ∀ earlier t later, turns = earlier ++ t :: later →
      (t.pass (after s earlier)).2.Clean ∧
        (t.Succeeds (after s earlier) → t.FillsClean (after s earlier)) := by
  refine ⟨after_clean clean turns, ?_⟩
  rintro earlier t later rfl
  have met := after_clean clean earlier
  refine ⟨t.pass_clean met, fun succeeds => ?_⟩
  rcases t.pass_cases (after s earlier) with ⟨-, work, does, -⟩ | ⟨fails, -⟩
  · exact does.fillsClean met
  · exact absurd succeeds fails

theorem clean_empty : ({} : MemoryStore).Clean :=
  fun _ _ _ holds => by cases holds

theorem run_clean_ofField :
    let db := ofField ⟨"db", by decide, by decide⟩ "http://db"
    let web := ofField ⟨"web", by decide, by decide⟩ "outputs/db/url"
    ({} : MemoryStore).Clean ∧ (after {} [db, web]).Clean ∧ web.FillsClean (after {} [db]) := by
  intro db web
  have run := run_clean clean_empty [db, web]
  have succeeds : web.Succeeds (after {} [db]) := by decide +kernel
  exact ⟨clean_empty, run.1, (run.2 [db] web [] rfl).2 succeeds⟩

end Turn
end WorkloadConfig
