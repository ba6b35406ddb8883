import WorkloadConfig.Proofs.Documents
import WorkloadConfig.Proofs.Order.Declarations
import WorkloadConfig.Proofs.Order.Passes

namespace WorkloadConfig

namespace Resolutions
variable {refs refs' : Resolutions}

theorem replacement_congr (same : ∀ text, refs.find? text = refs'.find? text)
    (onPointer : Pointer → Result Value) :
    refs.replacement onPointer = refs'.replacement onPointer := by
  funext text
  rw [replacement, replacement, same]

/-- Replacing references depends on nothing but what each of them is resolved to. -/
theorem inject_congr (same : ∀ text, refs.find? text = refs'.find? text)
    (onPointer : Pointer → Result Value) (v : Value) :
    refs.inject onPointer v = refs'.inject onPointer v := by
  have replaced := replacement_congr same onPointer
  induction v using Value.induction with
  | scalar s =>
    cases s with
    | str text => rw [inject, inject, replaced]
    | _ => rfl
  | list items ih => rw [inject, inject, injectItems_eq, injectItems_eq, mapM_congr ih]
  | map entries ih =>
    rw [inject, inject, injectEntries_eq, injectEntries_eq,
      mapM_congr fun entry member => congrArg (Prod.mk entry.1 <$> ·) (ih entry member)]

end Resolutions

/-- What is made of some items, one by one, is made of them in any order. -/
theorem Result.exists_map_of_mapM {α β : Type} [Inhabited β] {f : α → Result β} {items : List α}
    {results : List β} (comes : items.mapM f = .ok results) :
    ∃ g, results = items.map g ∧
      ∀ others, items.Perm others → others.mapM f = .ok (others.map g) := by
  let g (a : α) : β := (f a).toOption.getD default
  have each (items : List α) : ∀ a ∈ items, ∀ b, f a = .ok b ↔ (∃ b, f a = .ok b) ∧ b = g a := by
    intro a _ b
    unfold g
    cases f a <;> simp [Except.toOption, eq_comm]
  obtain ⟨all, made⟩ := (Result.mapM_eq_ok_iff (each items)).mp comes
  refine ⟨g, made, fun others perm => (Result.mapM_eq_ok_iff (each others)).mpr ⟨?_, rfl⟩⟩
  exact fun a member => all a (perm.mem_iff.mpr member)

section
variable {fields fields' : Assignment} {refs refs' : Resolutions}

theorem Template.filled_congr (t : Template) (values : ∀ path, fields.find? path = fields'.find? path)
    (resolved : ∀ text, refs.find? text = refs'.find? text) :
    t.filled fields refs = t.filled fields' refs' := by
  have present : t.present fields = t.present fields' := by simp only [Template.present, values]
  have inject : injectAt refs = injectAt refs' := by
    funext v path
    rw [injectAt, injectAt, Resolutions.injectFields, Resolutions.injectFields,
      Resolutions.inject_congr resolved]
  rw [filled, filled, patched, patched, present, inject]

theorem Instance.resource_congr (i : Instance) (manager : String)
    (values : ∀ path, fields.find? path = fields'.find? path)
    (resolved : ∀ text, refs.find? text = refs'.find? text) :
    i.resource manager fields refs = i.resource manager fields' refs' := by
  funext t
  rw [resource, resource, t.filled_congr values resolved]

theorem Published.add_congr (values : ∀ path, fields.find? path = fields'.find? path)
    (resolved : ∀ text, refs.find? text = refs'.find? text) :
    add fields refs = add fields' refs' := by
  funext done p
  simp only [add, Publication.literal, values, Resolutions.inject_congr resolved]

theorem Instance.record_congr (i : Instance) {c d : Composition} (same : c.Permuted d)
    (values : ∀ path, fields.find? path = fields'.find? path)
    (resolved : ∀ text, refs.find? text = refs'.find? text) :
    i.record c fields refs = i.record d fields' refs' := by
  rw [record, record, same.publish, Published.add_congr values resolved,
    Sorting.texts_eq_of_perm same.templateNames]

end

/-- The engines agree in all but the order of the templates of the composition for the instance. -/
structure Engine.Permuted (e e' : Engine) (i : Instance) (c d : Composition) : Prop where
  settings : e.settings = e'.settings
  registered : e.registry.get i.kind = .ok c
  registered' : e'.registry.get i.kind = .ok d
  templates : c.Permuted d

/-- Each template has made the same resource in both works, and the record is the same. -/
structure Work.Permuted (work work' : Work) : Prop where
  made : ∃ made : Template → Value,
    work.generated = work.plan.composition.resources.map made ∧
      work'.generated = work'.plan.composition.resources.map made
  record : work.record = work'.record

namespace Engine
variable {σ : Type} {e e' : Engine} {around : Surroundings} {i : Instance} {c d : Composition}

theorem Permuted.symm (same : e.Permuted e' i c d) : e'.Permuted e i d c :=
  ⟨same.settings.symm, same.registered', same.registered, same.templates.symm⟩

theorem loaded_eq (registered : e.registry.get i.kind = .ok c) :
    e.loaded around i = Prod.mk c <$>
      (ConfigLoader.load { timeout := e.settings.lookupTimeout } around.source i.ns.text).1 := by
  rw [loaded, registered]
  rfl

/-- As far as nothing is looked up, the pass gets as far in one order as in the other. -/
theorem Permuted.exists_outset (same : e.Permuted e' i c d) (accord : c.Unequivocal (· = ·))
    {stage : Phase} {p : Plan} (outset : e.outset around i = (stage, .ok p)) :
    ∃ q, e'.outset around i = (stage, .ok q) ∧ p.Permuted q := by
  unfold Engine.outset at outset ⊢
  rw [loaded_eq same.registered, same.settings] at outset
  rw [loaded_eq same.registered']
  generalize (ConfigLoader.load _ around.source i.ns.text).1 = loaded at outset ⊢
  split at outset
  · cases outset
  · rename_i goesOn
    rw [if_neg goesOn]
    cases loaded with
    | error failure => cases outset
    | ok config =>
      simp only [Functor.map, Except.map] at outset ⊢
      split at outset
      · cases outset
      · rename_i goesOn'
        rw [if_neg goesOn']
        obtain ⟨rfl, planned⟩ := Prod.mk.inj outset
        obtain ⟨q, planned', permuted⟩ := exists_plan same.templates accord planned
        exact ⟨q, by rw [planned'], permuted⟩

/-- The references come to the same in whatever order they are looked up. -/
theorem Permuted.exists_lookUp [TargetLookup σ] {view : Finder Result} {kind : σ → Prop} {s : σ}
    (shows : TargetLookup.Shows view kind) (ofKind : kind s) (same : e.Permuted e' i c d)
    {p q : Plan} (plans : p.Permuted q) (parsed : Reference.Parsed p.references)
    {refs : Resolutions} (found : (e.lookUp around i s p).1 = .ok refs) :
    ∃ refs', (e'.lookUp around i s q).1 = .ok refs' ∧ Table.Reordered (· = ·) refs refs' := by
  have ready : (e.lookups around s).Ready view kind _ := Lookups.Ready.fresh ofKind rfl
  have lookups : e'.lookups around s = e.lookups around s := by
    rw [Engine.lookups, Engine.lookups, same.settings]
  rw [lookUp, Resolver.resolveAll_eq shows _ _ ready] at found
  rw [lookUp, lookups, ← same.settings, Resolver.resolveAll_eq shows _ _ ready]
  have outcomes := Table.Reordered.of_items (R := (· = ·))
    (f := (Resolver.mk i.ns.text e.settings).resolveBy ((e.lookups around s).finding view))
    (Reference.eraseDups_perm plans.references) parsed.nodup_texts fun _ _ => rfl
  exact Resolver.exists_gather (outcomes.imp_mem fun _ _ _ equal a comes =>
    ⟨a, equal ▸ comes, rfl⟩) found

/-- Everything is made in one order if it is made in the other. -/
theorem Permuted.exists_making (same : e.Permuted e' i c d) {p q : Plan} (plans : p.Permuted q)
    {refs refs' : Resolutions} (resolved : Table.Reordered (· = ·) refs refs') {last : Phase}
    {work : Work} (making : e.making around i p refs = (last, .ok work)) :
    ∃ work', e'.making around i q refs' = (last, .ok work') ∧ work.Permuted work' := by
  obtain ⟨atPatching, atPublishing, rfl, rfl, made, recorded⟩ := making_ok making
  have generated : i.resources work.plan.composition e.settings.fieldManager work.plan.fields
      work.refs = .ok work.generated := made
  have values := plans.fields.find?_eq
  have recorded' := (i.record_congr plans.composition values resolved.find?_eq).symm.trans recorded
  obtain ⟨made, each, inOrder⟩ := Result.exists_map_of_mapM generated
  have generated' : i.resources q.composition e'.settings.fieldManager q.fields refs' =
      .ok (q.composition.resources.map made) := by
    rw [Instance.resources, ← same.settings, ← i.resource_congr _ values resolved.find?_eq]
    exact inOrder _ plans.composition.resources
  refine ⟨⟨q, refs', q.composition.resources.map made, work.record⟩, ?_, ⟨made, each, rfl⟩, rfl⟩
  have published := congrArg Prod.fst making
  rw [Engine.making_eq] at published ⊢
  rw [atPatching, atPublishing, generated] at published
  rw [atPatching, atPublishing, generated', recorded']
  exact congrArg₂ Prod.mk published rfl

/-- Up to the writing of the record, the pass gets as far in one order as in the other. -/
theorem Permuted.exists_prepare [TargetLookup σ] {view : Finder Result} {kind : σ → Prop} {s : σ}
    (shows : TargetLookup.Shows view kind) (ofKind : kind s) (same : e.Permuted e' i c d)
    (accord : c.Unequivocal (· = ·)) {last : Phase} {work : Work} {after : σ}
    (prepared : e.prepare around i s = (last, .ok work, after)) :
    ∃ work' after', e'.prepare around i s = (last, .ok work', after') ∧ work.Permuted work' := by
  obtain ⟨stage, plan, refs, l, outset, found, making, rfl⟩ := prepare_ok prepared
  obtain ⟨q, outset', plans⟩ := same.exists_outset accord outset
  have planned := planned_of_outset_ok outset
  have parsed := Reference.parsed_of_collect (collected_of_planned planned)
  obtain ⟨refs', found', resolved⟩ :=
    same.exists_lookUp shows ofKind plans parsed (congrArg Prod.fst found)
  obtain ⟨work', making', permuted⟩ := same.exists_making plans resolved making
  rcases reply : e'.lookUp around i s q with ⟨outcome, l'⟩
  rw [reply] at found'
  cases found'
  exact ⟨work', l'.store, by simp only [prepareBy, outset', reply, making'], permuted⟩

end Engine

/-- Both outcomes are complete, each template has made the same resource in both, and the secret at
the end is the same; or neither is complete. -/
inductive Composition.SameMade (c d : Composition) : Result Outcome → Result Outcome → Prop
  | complete {o o' : Outcome} (made : Template → Value) (secret : Value) : o.success = true →
      o'.success = true → o.resources = c.resources.map made ++ [secret] →
      o'.resources = d.resources.map made ++ [secret] → SameMade c d (.ok o) (.ok o')
  | incomplete {x y : Result Outcome} : (∀ o, x = .ok o → o.success = false) →
      (∀ o, y = .ok o → o.success = false) → SameMade c d x y

theorem Composition.SameMade.of_ended {c d : Composition} {i : Instance} {stage stage' : Phase}
    {failure failure' : Failure} :
    c.SameMade d (Engine.ended i stage failure) (Engine.ended i stage' failure') :=
  .incomplete (fun _ => Engine.not_success_ended) fun _ => Engine.not_success_ended

namespace Engine
variable {σ : Type} {e e' : Engine} {around : Surroundings} {i : Instance} {c d : Composition}

/-- Passes over a store of any kind that keeps the same records alike come to the same in both
orders. -/
theorem Permuted.pass_alike [OutputStore σ] {view : Finder Result} {kind : σ → Prop} {s : σ}
    (shows : TargetLookup.Shows view kind) (ofKind : kind s) (same : e.Permuted e' i c d)
    (accord : c.Unequivocal (· = ·)) (alike : σ → σ → Prop)
    (keeps : ∀ a b, kind a → kind b → alike a b)
    (publishes : ∀ a b r, kind a → kind b →
      (OutputStore.publish a r).1.isOk = (OutputStore.publish b r).1.isOk ∧
        alike (OutputStore.publish a r).2 (OutputStore.publish b r).2) :
    c.SameMade d (e.pass around i s).1 (e'.pass around i s).1 ∧
      alike (e.pass around i s).2.store (e'.pass around i s).2.store := by
  suffices whole : ∀ x y, x = ((e.pass around i s).1, (e.pass around i s).2.store) →
      y = ((e'.pass around i s).1, (e'.pass around i s).2.store) →
      c.SameMade d x.1 y.1 ∧ alike x.2 y.2 from whole _ _ rfl rfl
  intro x y ofX ofY
  rw [pass_prepare] at ofX ofY
  have stays : kind (e.prepare around i s).2.2 :=
    kind_prepare (e.maker i) ofKind fun plan => e.kind_lookUp shows around i plan ofKind
  have stays' : kind (e'.prepare around i s).2.2 :=
    kind_prepare (e'.maker i) ofKind fun plan => e'.kind_lookUp shows around i plan ofKind
  rcases prepared : e.prepare around i s with ⟨last, failure | work, after⟩ <;>
    rcases prepared' : e'.prepare around i s with ⟨last', failure' | work', after'⟩ <;>
    rw [prepared] at ofX stays <;> rw [prepared'] at ofY stays'
  · subst ofX ofY
    exact ⟨.of_ended, keeps _ _ stays stays'⟩
  · obtain ⟨_, _, other, -⟩ :=
      same.symm.exists_prepare shows ofKind (same.templates.unequivocal accord) prepared'
    cases prepared.symm.trans other
  · obtain ⟨_, _, other, -⟩ := same.exists_prepare shows ofKind accord prepared
    cases prepared'.symm.trans other
  · obtain ⟨_, _, other, permuted⟩ := same.exists_prepare shows ofKind accord prepared
    cases prepared'.symm.trans other
    obtain ⟨does, o, completes, complete⟩ := doesBy_of_prepare (e.renders_maker i) prepared
    obtain ⟨does', o', completes', complete'⟩ := doesBy_of_prepare (e'.renders_maker i) prepared'
    simp only [completes, completes', ← permuted.record] at ofX ofY
    -- The one record is written to stores that keep the same, so it is written to both or to none.
    obtain ⟨both, alike⟩ := publishes after after' work.record stays stays'
    rcases written : OutputStore.publish after work.record with ⟨failure | stored, held⟩ <;>
      rcases written' : OutputStore.publish after' work.record with ⟨failure' | stored', held'⟩ <;>
      simp only [written, written'] at ofX ofY both alike
    · subst ofX ofY
      exact ⟨.of_ended, alike⟩
    · cases both
    · cases both
    · subst ofX ofY
      obtain ⟨made, generated, generated'⟩ := permuted.made
      rw [does.does.composition same.registered] at generated
      rw [does'.does.composition same.registered'] at generated'
      refine ⟨.complete made (work.record.connectionManifest e.settings.fieldManager)
        complete.success complete'.success ?_ ?_, alike⟩
      · rw [complete.resources, Work.resources, generated]
      · rw [complete'.resources, Work.resources, generated', permuted.record, same.settings]

theorem Permuted.pass_memory (same : e.Permuted e' i c d) (accord : c.Unequivocal (· = ·))
    (around : Surroundings) (s : MemoryStore) :
    c.SameMade d (e.pass around i s).1 (e'.pass around i s).1 ∧
      (e.pass around i s).2.store.records = (e'.pass around i s).2.store.records := by
  refine same.pass_alike s.shows rfl accord (fun a b => a.records = b.records) ?_ ?_
  · exact fun a b ofA ofB => ofA.trans ofB.symm
  · intro a b r ofA ofB
    simp only [OutputStore.publish, MemoryStore.publish, MemoryStore.read, ofA, ofB, and_self]

theorem Permuted.pass_directory (same : e.Permuted e' i c d) (accord : c.Unequivocal (· = ·))
    (around : Surroundings) (s : DirectoryStore) :
    c.SameMade d (e.pass around i s).1 (e'.pass around i s).1 ∧
      (e.pass around i s).2.store = (e'.pass around i s).2.store := by
  refine same.pass_alike s.shows rfl accord (· = ·) ?_ ?_
  · exact fun a b ofA ofB => ofA.trans ofB.symm
  · rintro a b r rfl rfl
    exact ⟨rfl, rfl⟩

end Engine

/-- The patch with the value for its field in the place of its default, if it has one. -/
def Patch.settle (f : FieldPath → Value) (p : Patch) : Patch :=
  { p with default := if p.default = .null then .null else f p.field }

def Template.settle (f : FieldPath → Value) (t : Template) : Template :=
  { t with patches := t.patches.map (Patch.settle f) }

namespace Composition
variable {c d : Composition} {f : FieldPath → Value}

def settle (f : FieldPath → Value) (c : Composition) : Composition :=
  { c with resources := c.resources.map (Template.settle f) }

theorem patches_settle : (c.settle f).patches = c.patches.map (Patch.settle f) := by
  simp only [patches, settle, List.flatMap_map, List.map_flatMap]
  rfl

theorem Permuted.settle (same : c.Permuted d) : (c.settle f).Permuted (d.settle f) :=
  ⟨same.kind, same.description, same.resources.map _, same.publish⟩

/-- In the end a field has one default. -/
theorem unequivocal_settle : (c.settle f).Unequivocal (· = ·) := by
  intro p inP q inQ same given given'
  rw [patches_settle, List.mem_map] at inP inQ
  obtain ⟨p, -, rfl⟩ := inP
  obtain ⟨q, -, rfl⟩ := inQ
  simp only [Patch.settle] at same given given' ⊢
  rw [if_neg fun null => given (if_pos null), if_neg fun null => given' (if_pos null), same]

theorem reordered_settle (proper : c.Reordered c)
    (related : ∀ p ∈ c.patches, p.default ≠ .null → p.default.Reordered (f p.field)) :
    c.Reordered (c.settle f) := by
  refine ⟨rfl, List.forall₂_map_right_iff.mpr (List.forall₂_same.mpr fun t member => ?_), rfl⟩
  have ofTemplate := List.forall₂_same.mp proper.resources t member
  refine ⟨rfl, rfl, rfl, ofTemplate.base, ?_⟩
  refine List.forall₂_map_right_iff.mpr (List.forall₂_same.mpr fun p within => ⟨rfl, rfl, ?_, rfl⟩)
  by_cases given : p.default = .null
  · simp only [Patch.settle, given, if_true]
    exact .scalar _
  · simp only [Patch.settle, given, if_false]
    exact related p (List.mem_flatMap.mpr ⟨t, member, within⟩) given

/-- One of the defaults of each field, to which all of them are related. -/
theorem Unequivocal.exists_default {R : Value → Value → Prop} (accord : c.Unequivocal R) :
    ∃ f : FieldPath → Value, ∀ p ∈ c.patches, p.default ≠ .null → R p.default (f p.field) := by
  let own (field : FieldPath) (q : Patch) : Bool := q.field = field && q.default ≠ .null
  refine ⟨fun field => ((c.patches.find? (own field)).map Patch.default).getD .null, ?_⟩
  intro p member given
  cases found : c.patches.find? (own p.field) with
  | none => exact absurd (List.find?_eq_none.mp found p member) (by simp [own, given])
  | some q =>
    have isOwn := List.find?_some found
    simp only [own, Bool.and_eq_true, decide_eq_true_eq] at isOwn
    simp only [found, Option.map_some, Option.getD_some]
    exact accord p member q (List.mem_of_find?_eq_some found) isOwn.1.symm given isOwn.2

end Composition

namespace Turn
variable {t t' : Turn} {c d : Composition}

/-- The pass with another composition for the kind of its instance. -/
def withComposition (t : Turn) (c : Composition) : Turn :=
  { t with engine := { t.engine with registry := t.engine.registry.put t.inst.kind c } }

theorem reordered_withComposition (proper : t.Reordered t)
    (registered : t.engine.registry.get t.inst.kind = .ok c) (same : c.Reordered d) :
    t.Reordered (t.withComposition d) := by
  refine ⟨fun kind => ?_, rfl, proper.source, rfl, proper.inst⟩
  by_cases own : kind = t.inst.kind
  · rw [own, withComposition, Table.find?_put_self, Registry.get_eq_ok.mp registered]
    exact .some same
  · rw [withComposition, Table.find?_put_of_ne _ _ own]
    exact proper.registry kind

theorem withComposition_registered (t : Turn) (c : Composition) :
    (t.withComposition c).engine.registry.get t.inst.kind = .ok c :=
  Registry.get_eq_ok.mpr (Table.find?_put_self _ _ _)

theorem Reordered.composition (proper : t.Reordered t)
    (registered : t.engine.registry.get t.inst.kind = .ok c) : c.Reordered c := by
  rcases rel_cases (proper.registry t.inst.kind) with ⟨none, -⟩ | ⟨a, b, one, two, related⟩
  · rw [Registry.get_eq_ok.mp registered] at none
    cases none
  · rw [Registry.get_eq_ok.mp registered] at one two
    cases one
    cases two
    exact related

/-- What is made the same of settled compositions is made the same of passes that come to that. -/
theorem sameMade_of_settled {u u' : Turn} {s : MemoryStore} {f : FieldPath → Value}
    (first : t.Succeeds s ∧ u.Succeeds s ∧ (u.pass s).1 = (t.pass s).1 ∨
      ¬ t.Succeeds s ∧ ¬ u.Succeeds s)
    (second : t'.Succeeds s ∧ u'.Succeeds s ∧ (u'.pass s).1 = (t'.pass s).1 ∨
      ¬ t'.Succeeds s ∧ ¬ u'.Succeeds s)
    (same : (c.settle f).SameMade (d.settle f) (u.pass s).1 (u'.pass s).1) :
    c.SameMade d (t.pass s).1 (t'.pass s).1 := by
  unfold Succeeds at first second
  generalize (u.pass s).1 = x, (u'.pass s).1 = y at first second same
  cases same with
  | @complete o o' made secret success success' resources resources' =>
    rcases first with ⟨-, -, outcome⟩ | ⟨-, fails⟩
    · rcases second with ⟨-, -, outcome'⟩ | ⟨-, fails⟩
      · rw [← outcome, ← outcome']
        refine .complete (made ∘ Template.settle f) secret success success' ?_ ?_
        · rw [resources, Composition.settle, List.map_map]
        · rw [resources', Composition.settle, List.map_map]
      · exact absurd ⟨o', rfl, success'⟩ fails
    · exact absurd ⟨o, rfl, success⟩ fails
  | incomplete incomplete incomplete' =>
    rcases first with ⟨-, ⟨o, rfl, success⟩, -⟩ | ⟨fails, -⟩
    · simp [incomplete o rfl] at success
    · rcases second with ⟨-, ⟨o, rfl, success⟩, -⟩ | ⟨fails', -⟩
      · simp [incomplete' o rfl] at success
      · exact .incomplete (fun o comes => Bool.eq_false_iff.mpr fun success => fails ⟨o, comes, success⟩)
          fun o comes => Bool.eq_false_iff.mpr fun success => fails' ⟨o, comes, success⟩

/-- In worlds of JSON values it is enough that the defaults of a field are the same up to the order
of their keys. -/
theorem pass_settled {e : Engine} (same : t.engine.Permuted e t.inst c d)
    (accord : c.Unequivocal Value.Reordered) (proper : t.Reordered t)
    (proper' : Turn.Reordered { t with engine := e } { t with engine := e })
    (unambiguous : t.Unambiguous) {s : MemoryStore} (records : s.Reordered s) :
    c.SameMade d (t.pass s).1 (Turn.pass { t with engine := e } s).1 ∧
      ∀ ns name, ((t.pass s).2.read ns name).map Record.canonical =
        ((Turn.pass { t with engine := e } s).2.read ns name).map Record.canonical := by
  obtain ⟨f, chosen⟩ := accord.exists_default
  have first := pass_matches (reordered_withComposition proper same.registered
    (Composition.reordered_settle (proper.composition same.registered) chosen)) unambiguous records
  have second := pass_matches (reordered_withComposition proper' same.registered'
    (Composition.reordered_settle (proper'.composition same.registered')
      fun p member => chosen p (same.templates.patches.mem_iff.mpr member))) unambiguous records
  have middle : (t.withComposition (c.settle f)).engine.Permuted
      (Turn.withComposition { t with engine := e } (d.settle f)).engine t.inst (c.settle f)
      (d.settle f) :=
    ⟨same.settings, withComposition_registered _ _, withComposition_registered _ _,
      same.templates.settle⟩
  obtain ⟨made, stored⟩ := middle.pass_memory Composition.unequivocal_settle t.around s
  refine ⟨sameMade_of_settled (first.2.imp_right fun ⟨fails, fails', _⟩ => ⟨fails, fails'⟩)
    (second.2.imp_right fun ⟨fails, fails', _⟩ => ⟨fails, fails'⟩) made, fun ns name => ?_⟩
  rw [canonical_eq_of_reordered first.1, canonical_eq_of_reordered second.1]
  exact congrArg (fun records => (Table.find? records (ns, name)).map Record.canonical) stored

end Turn

/-- With its templates in another order a valid composition is valid. If the defaults of each field
are equal, a pass completes in the one order if and only if it completes in the other, each template
makes the same resource, and the same is stored, whatever store it is. In worlds of JSON values the
defaults may differ in the order of their keys as well. -/
theorem Engine.pass_permuted {e e' : Engine} {i : Instance} {c d : Composition}
    (same : e.Permuted e' i c d) (apart : ∀ p ∈ c.patches, p.default.KeysApart) (valid : c.Valid) :
    d.Valid ∧
    (c.Unequivocal (· = ·) → ∀ around : Surroundings,
      (∀ s : MemoryStore, c.SameMade d (e.pass around i s).1 (e'.pass around i s).1 ∧
        (e.pass around i s).2.store.records = (e'.pass around i s).2.store.records) ∧
      ∀ s : DirectoryStore, c.SameMade d (e.pass around i s).1 (e'.pass around i s).1 ∧
        (e.pass around i s).2.store = (e'.pass around i s).2.store) ∧
    (c.Unequivocal Value.Reordered → ∀ t : Turn, t.engine = e → t.inst = i → t.Reordered t →
      Turn.Reordered { t with engine := e' } { t with engine := e' } → t.Unambiguous →
      ∀ s : MemoryStore, s.Reordered s →
        c.SameMade d (t.pass s).1 (Turn.pass { t with engine := e' } s).1 ∧
        ∀ ns name, ((t.pass s).2.read ns name).map Record.canonical =
          ((Turn.pass { t with engine := e' } s).2.read ns name).map Record.canonical) := by
  refine ⟨same.templates.valid apart valid, fun accord around => ?_, ?_⟩
  · exact ⟨same.pass_memory accord around, same.pass_directory accord around⟩
  · rintro accord t rfl rfl proper proper' unambiguous s records
    exact Turn.pass_settled same accord proper proper' unambiguous records

/-- A composition of templates that write one field, each with its own default for it. -/
def Composition.ofDefaults (templates : List (Label × Value)) : Composition where
  kind := "App"
  resources := templates.map fun (name, default) => {
    name
    kind := "Deployment"
    patches := [{
      field := ⟨"replicas", by decide⟩
      place := ⟨"spec.replicas", by decide⟩
      default }] }
  publish := [⟨⟨"replicas", by decide⟩, ⟨"replicas", by decide⟩, false⟩]

theorem Composition.unequivocal_ofDefaults {templates : List (Label × Value)}
    {R : Value → Value → Prop} (related : ∀ a ∈ templates, ∀ b ∈ templates, R a.2 b.2) :
    (ofDefaults templates).Unequivocal R := by
  have own {p : Patch} (member : p ∈ (ofDefaults templates).patches) :
      ∃ entry ∈ templates, p.default = entry.2 := by
    obtain ⟨t, ofTemplate, within⟩ := List.mem_flatMap.mp member
    obtain ⟨entry, among, rfl⟩ := List.mem_map.mp ofTemplate
    exact ⟨entry, among, by rw [List.mem_singleton.mp within]⟩
  intro p inP q inQ _ _ _
  obtain ⟨a, inA, ofP⟩ := own inP
  obtain ⟨b, inB, ofQ⟩ := own inQ
  exact ofP ▸ ofQ ▸ related a inA b inB

namespace Turn
variable {templates others : List (Label × Value)}

/-- A pass of an instance of a composition of defaults, in a cluster that sets no values. -/
def ofDefaults (templates : List (Label × Value)) : Turn where
  engine := { registry := [("App", .ofDefaults templates)] }
  source := .ofRecords [clusterRecord]
  inst := { kind := "App", name := .web, ns := .team }

theorem permuted_ofDefaults (perm : templates.Perm others) :
    (ofDefaults templates).engine.Permuted (ofDefaults others).engine (ofDefaults templates).inst
      (.ofDefaults templates) (.ofDefaults others) :=
  ⟨rfl, rfl, rfl, rfl, rfl, perm.map _, rfl⟩

theorem reordered_ofDefaults (proper : ∀ entry ∈ templates, entry.2.IsProper) :
    (ofDefaults templates).Reordered (ofDefaults templates) where
  registry kind := by
    have composition : (Composition.ofDefaults templates).Reordered (.ofDefaults templates) := by
      refine ⟨rfl, List.forall₂_same.mpr (List.forall_mem_map.mpr fun entry member => ?_), rfl⟩
      exact ⟨rfl, rfl, rfl, .nil, .cons ⟨rfl, rfl, .refl (proper entry member), rfl⟩ .nil⟩
    simp only [ofDefaults, Table.find?]
    split
    · exact .some composition
    · exact .none
  settings := rfl
  source := ⟨_, _, rfl, rfl, _, .refl _, .cons (.refl rfl) .nil⟩
  cancelled := rfl
  inst := ⟨rfl, rfl, rfl, rfl, .nil, .nil⟩

theorem unambiguous_ofDefaults (templates : List (Label × Value)) :
    (ofDefaults templates).Unambiguous := by
  rintro records ⟨⟩ record among - items entries isList
  rw [List.mem_singleton.mp among] at isList
  cases isList

end Turn

/-- Defaults that are one number, and defaults that are one map but for the order of its keys. -/
theorem Engine.pass_permuted_ofDefaults :
    let templates (v w : Value) : List (Label × Value) :=
      [(⟨"api", by decide⟩, v), (⟨"worker", by decide⟩, w)]
    let Same (v w : Value) : Prop :=
      (Turn.ofDefaults (templates v w)).Succeeds {} ∧
        (Composition.ofDefaults (templates v w).reverse).Valid ∧
        (Composition.ofDefaults (templates v w)).SameMade (.ofDefaults (templates v w).reverse)
          ((Turn.ofDefaults (templates v w)).pass {}).1
          ((Turn.ofDefaults (templates v w).reverse).pass {}).1
    Same (.int 2) (.int 2) ∧
      Same (.map [("min", .int 1), ("max", .int 3)]) (.map [("max", .int 3), ("min", .int 1)]) := by
  intro templates Same
  have permuted (v w : Value) := Turn.permuted_ofDefaults (templates v w).reverse_perm.symm
  constructor
  · have valid : (Composition.ofDefaults (templates (.int 2) (.int 2))).Valid :=
      ⟨rfl, List.cons_ne_nil _ _⟩
    have both := Engine.pass_permuted (permuted (.int 2) (.int 2)) (by decide +kernel) valid
    have accord : (Composition.ofDefaults (templates (.int 2) (.int 2))).Unequivocal (· = ·) :=
      Composition.unequivocal_ofDefaults (by decide +kernel)
    exact ⟨by decide +kernel, both.1, (both.2.1 accord _).1 {} |>.1⟩
  · let v : Value := .map [("min", .int 1), ("max", .int 3)]
    let w : Value := .map [("max", .int 3), ("min", .int 1)]
    have turned : v.Reordered w := .of_perm rfl (.swap _ _ _)
    have back : w.Reordered v := .of_perm rfl (.swap _ _ _)
    have valid : (Composition.ofDefaults (templates v w)).Valid := ⟨rfl, List.cons_ne_nil _ _⟩
    have both := Engine.pass_permuted (permuted v w) (by decide +kernel) valid
    have accord : (Composition.ofDefaults (templates v w)).Unequivocal Value.Reordered := by
      refine Composition.unequivocal_ofDefaults ?_
      simp only [templates, List.forall_mem_cons]
      have ends (x : Value) : ∀ entry ∈ ([] : List (Label × Value)), x.Reordered entry.2 :=
        List.forall_mem_nil _
      exact ⟨⟨.refl rfl, turned, ends v⟩, ⟨back, .refl rfl, ends w⟩, List.forall_mem_nil _⟩
    have proper : ∀ entry ∈ templates v w, entry.2.IsProper := by
      simp only [templates, List.forall_mem_cons]
      exact ⟨rfl, rfl, List.forall_mem_nil _⟩
    have proper' := Turn.reordered_ofDefaults fun entry member =>
      proper entry (List.mem_reverse.mp member)
    exact ⟨by decide +kernel, both.1, (both.2.2 accord (Turn.ofDefaults (templates v w)) rfl rfl
      (Turn.reordered_ofDefaults proper) proper' (Turn.unambiguous_ofDefaults _) {}
      fun _ _ => .none).1⟩

/-- An integer and the float of its value agree as defaults. Whichever template stands last, its
default is what all of them write. -/
theorem Engine.not_perm_resources :
    let templates : List (Label × Value) :=
      [(⟨"api", by decide⟩, .int 1), (⟨"worker", by decide⟩, .float (.ofInt 1))]
    let t := Turn.ofDefaults templates
    let t' := Turn.ofDefaults templates.reverse
    t.engine.Permuted t'.engine t.inst (.ofDefaults templates) (.ofDefaults templates.reverse) ∧
      (Composition.ofDefaults templates).Valid ∧ (Composition.ofDefaults templates.reverse).Valid ∧
      ∃ o o', (t.pass {}).1 = .ok o ∧ o.success = true ∧ (t'.pass {}).1 = .ok o' ∧ o'.success = true ∧
        ¬ (o.resources.map Json.canonical).Perm (o'.resources.map Json.canonical) := by
  intro templates t t'
  have valid : (Composition.ofDefaults templates).Valid := ⟨rfl, List.cons_ne_nil _ _⟩
  have valid' : (Composition.ofDefaults templates.reverse).Valid := ⟨rfl, List.cons_ne_nil _ _⟩
  have differ : (t.pass {}).1.toOption.any (fun o => (t'.pass {}).1.toOption.any fun o' =>
      o.success && o'.success && decide (¬ (o.resources.map Json.canonical).Perm
        (o'.resources.map Json.canonical))) = true := by decide +kernel
  obtain ⟨o, ends, within⟩ := Result.exists_ok_of_any differ
  obtain ⟨o', ends', holds⟩ := Result.exists_ok_of_any within
  obtain ⟨both, apart⟩ := Bool.and_eq_true_iff.mp holds
  obtain ⟨success, success'⟩ := Bool.and_eq_true_iff.mp both
  exact ⟨Turn.permuted_ofDefaults templates.reverse_perm.symm, valid, valid', o, o', ends, success,
    ends', success', of_decide_eq_true apart⟩

end WorkloadConfig
