import Mathlib.Data.List.Forall2
import Mathlib.Data.List.ReduceOption
import WorkloadConfig.Proofs.Grammar
import WorkloadConfig.Proofs.Substitution

namespace WorkloadConfig

/-- What is found first in lists put together is found first in the first list that has it. -/
theorem findSome?_eq_of_flatMap {α β γ : Type} {f : α → Option β} {parts : γ → List α}
    {first : γ → Option β} {items : List γ}
    (each : ∀ c ∈ items, first c = (parts c).findSome? f) :
    items.findSome? first = (items.flatMap parts).findSome? f := by
  induction items with
  | nil => rfl
  | cons c rest ih =>
    obtain ⟨here, behind⟩ := List.forall_mem_cons.mp each
    rw [List.findSome?_cons, List.flatMap_cons, List.findSome?_append, ih behind, here]
    cases (parts c).findSome? f <;> rfl

namespace Result
variable {α β : Type} {f : α → Result β}

def failure? : Result α → Option Failure
  | .ok _ => none
  | .error failure => some failure

theorem failure?_eq_some {x : Result α} {failure : Failure} :
    x.failure? = some failure ↔ x = .error failure := by
  cases x <;> simp [failure?]

theorem failure?_eq_none {x : Result α} : x.failure? = none ↔ ∃ a, x = .ok a := by
  cases x <;> simp [failure?]

theorem failure?_map (g : α → β) (x : Result α) : (g <$> x).failure? = x.failure? := by
  cases x <;> rfl

/-- A run over items fails as the first of them that fails. -/
theorem failure?_mapM (f : α → Result β) (items : List α) :
    (items.mapM f).failure? = items.findSome? fun a => (f a).failure? := by
  induction items with
  | nil => rfl
  | cons a rest ih =>
    rw [List.mapM_cons, List.findSome?_cons, ← ih]
    cases f a with
    | error failure => rfl
    | ok b => exact failure?_map (b :: ·) (rest.mapM f)

theorem mapM_eq_ok_iff_forall₂ {items : List α} {results : List β} :
    items.mapM f = .ok results ↔ List.Forall₂ (fun a b => f a = .ok b) items results := by
  induction items generalizing results with
  | nil => simp [eq_comm]
  | cons a rest ih =>
    simp only [List.mapM_cons, bind_eq_ok, pure_eq, Except.ok.injEq, ih]
    constructor
    · rintro ⟨b, here, others, behind, rfl⟩
      exact .cons here behind
    · intro both
      cases both with
      | cons here behind => exact ⟨_, here, _, behind, rfl⟩

end Result

namespace Reference
variable {found : List Reference}

/-- What counts as a reference is parsed as one or refused. -/
theorem isReference_iff_parse (leaf : String) :
    isReference leaf = true ↔ parse leaf ≠ .ok none := by
  constructor
  · intro begins literal
    obtain ⟨reference, same⟩ := exists_of_isReference begins literal
    cases same
  · intro noLiteral
    by_contra plain
    exact noLiteral (parse_of_not_begins (by simpa only [isReference_iff, not_exists] using plain))

theorem collectLeaf_of_parse {leaf : String} {new : Option Reference} (parsed : Parsed found)
    (parses : parse leaf = .ok new) :
    collectLeaf found leaf = .ok (found ++ new.toList.filter (· ∉ found)) :=
  (collectLeaf_eq_ok parsed).mpr ⟨new, parses, rfl⟩

theorem collectLeaf_eq_error {leaf : String} {failure : Failure} (parsed : Parsed found)
    (fails : parse leaf = .error failure) : collectLeaf found leaf = .error failure := by
  have unseen : ¬ found.any (·.text = leaf) = true := by
    intro seen
    obtain ⟨reference, member, same⟩ := List.any_eq_true.mp seen
    cases fails.symm.trans (of_decide_eq_true same ▸ parsed reference member)
  rw [collectLeaf, if_neg unseen, fails, Result.error_bind]

/-- Collecting on from what has been found is parsing all leaves and keeping what is new. -/
theorem foldlM_collectLeaf_eq (parsed : Parsed found) (leaves : List String) :
    leaves.foldlM collectLeaf found =
      (fun news => found ++ (news.reduceOption.filter (· ∉ found)).eraseDups) <$>
        leaves.mapM parse := by
  induction leaves generalizing found with
  | nil => simp
  | cons leaf rest ih =>
    rw [List.foldlM_cons, List.mapM_cons]
    cases parses : parse leaf with
    | error failure => rw [collectLeaf_eq_error parsed parses]; rfl
    | ok new =>
      have step := collectLeaf_of_parse parsed parses
      rw [step, Result.ok_bind, Result.ok_bind, ih (parsed.of_collectLeaf step)]
      cases rest.mapM parse with
      | error failure => rfl
      | ok news =>
        refine congrArg Except.ok ?_
        cases new with
        | none => simp
        | some reference =>
          by_cases old : reference ∈ found
          · simp [old]
          · have others : news.reduceOption.filter (· ∉ found ++ [reference]) =
                (news.reduceOption.filter (· ∉ found)).filter (!· == reference) := by
              rw [List.filter_filter]
              exact List.filter_congr fun x _ => by simp [beq_eq_decide, Bool.and_comm]
            simp only [Option.toList_some, List.filter_cons, List.filter_nil, old, not_false_eq_true,
              decide_true, if_true, List.reduceOption_cons_of_some, List.eraseDups_cons, others,
              List.append_assoc, List.singleton_append]

theorem collect_eq (values : List Value) : collect values =
    (fun news => news.reduceOption.eraseDups) <$> (values.flatMap Value.leaves).mapM parse := by
  rw [collect, foldlM_collectLeaf_eq fun _ none => absurd none List.not_mem_nil]
  simp

end Reference

namespace Value

theorem leavesOfEntries_eq (entries : List (Key × Value)) :
    leavesOfEntries entries = entries.flatMap (·.2.leaves) := by
  induction entries with
  | nil => rfl
  | cons entry rest ih => rw [leavesOfEntries, List.flatMap_cons, ih]

/-- The second value is the first with something in the place of each text leaf that may stand there.
Lists are as long as before, maps have the same keys in the same order, other scalars are kept. -/
inductive Filled (stands : String → Value → Prop) : Value → Value → Prop
  | leaf {text : String} {v : Value} : stands text v → Filled stands (.str text) v
  | scalar {s : Scalar} : (∀ text, s ≠ .str text) → Filled stands (.scalar s) (.scalar s)
  | list {items others : List Value} : List.Forall₂ (Filled stands) items others →
      Filled stands (.list items) (.list others)
  | map {entries others : List (Key × Value)} : Table.keys entries = Table.keys others →
      List.Forall₂ (Filled stands) (entries.map (·.2)) (others.map (·.2)) →
      Filled stands (.map entries) (.map others)

theorem forall₂_entries_iff {R : Value → Value → Prop} {entries others : List (Key × Value)} :
    List.Forall₂ (fun entry other => entry.1 = other.1 ∧ R entry.2 other.2) entries others ↔
      Table.keys entries = Table.keys others ∧
        List.Forall₂ R (entries.map (·.2)) (others.map (·.2)) := by
  induction entries generalizing others with
  | nil => cases others <;> simp [Table.keys]
  | cons entry rest ih =>
    cases others with
    | nil => simp [Table.keys]
    | cons other others =>
      simp only [List.forall₂_cons, ih, Table.keys, List.map_cons, List.cons.injEq]
      exact ⟨fun ⟨⟨key, here⟩, keys, behind⟩ => ⟨⟨key, keys⟩, here, behind⟩,
        fun ⟨⟨key, keys⟩, here, behind⟩ => ⟨⟨key, here⟩, keys, behind⟩⟩

namespace Filled
variable {stands : String → Value → Prop} {w : Value}

theorem list_iff {items : List Value} : Filled stands (.list items) w ↔
    ∃ others, List.Forall₂ (Filled stands) items others ∧ .list others = w := by
  constructor
  · intro filled
    cases filled with
    | list parts => exact ⟨_, parts, rfl⟩
  · rintro ⟨others, parts, rfl⟩
    exact .list parts

theorem map_iff {entries : List (Key × Value)} : Filled stands (.map entries) w ↔
    ∃ others, List.Forall₂ (fun entry other => entry.1 = other.1 ∧ Filled stands entry.2 other.2)
      entries others ∧ .map others = w := by
  simp only [forall₂_entries_iff]
  constructor
  · intro filled
    cases filled with
    | map keys parts => exact ⟨_, ⟨keys, parts⟩, rfl⟩
  · rintro ⟨others, ⟨keys, parts⟩, rfl⟩
    exact .map keys parts

end Filled
end Value

/-- Of the items only those in the list have to be related alike. -/
theorem forall₂_congr_of_mem {α β : Type} {R S : α → β → Prop} {items : List α} {others : List β}
    (same : ∀ a ∈ items, ∀ b, R a b ↔ S a b) :
    List.Forall₂ R items others ↔ List.Forall₂ S items others := by
  induction items generalizing others with
  | nil => cases others <;> simp
  | cons a rest ih =>
    obtain ⟨here, behind⟩ := List.forall_mem_cons.mp same
    cases others with
    | nil => simp
    | cons b others => rw [List.forall₂_cons, List.forall₂_cons, here b, ih behind]

namespace Resolutions
variable {refs : Resolutions} {onPointer : Pointer → Result Value}

/-- What is in the place of a text leaf in the end: its literal, the field of its pointer, or the text
itself if it is no reference. -/
inductive Stands (refs : Resolutions) (text : String) : Value → Prop
  | itself : Reference.isReference text = false → Stands refs text (.str text)
  | literal {v : Value} : Reference.isReference text = true →
      Table.find? refs text = some (.literal v) → Stands refs text v
  | pointer {p : Pointer} : Reference.isReference text = true →
      Table.find? refs text = some (.pointer p) → Stands refs text p.field

/-- The text is a reference that is not resolved. -/
def lacks (refs : Resolutions) (text : String) : Bool :=
  Reference.isReference text && !Table.contains refs text

theorem failure?_replacement (text : String) :
    (refs.replacement (fun p => .ok p.field) text).failure? =
      if refs.lacks text then some (.unresolved text) else none := by
  unfold replacement lacks Table.contains
  cases Reference.isReference text with
  | false => rfl
  | true =>
    cases Table.find? refs text with
    | none => rfl
    | some resolved => cases resolved <;> rfl

theorem replacement_eq_ok_iff_stands {text : String} {w : Value} :
    refs.replacement (fun p => .ok p.field) text = .ok w ↔ refs.Stands text w := by
  unfold replacement
  constructor
  · intro replaced
    split at replaced
    · rename_i isReference
      split at replaced <;> cases replaced
      · exact .literal isReference ‹_›
      · exact .pointer isReference ‹_›
    · rename_i plain
      cases replaced
      exact .itself (Bool.eq_false_iff.mpr plain)
  · rintro (plain | ⟨isReference, resolved⟩ | ⟨isReference, resolved⟩)
    · simp [plain]
    · simp [isReference, resolved]
    · simp [isReference, resolved]

/-- Replacing fails as the first leaf in depth-first order that nothing can be put in the place of. -/
theorem failure?_inject (v : Value) : (refs.inject onPointer v).failure? =
    v.leaves.findSome? fun leaf => (refs.replacement onPointer leaf).failure? := by
  induction v using Value.induction with
  | scalar s => cases s <;> simp [inject, Value.leaves, Result.failure?]
  | list items ih =>
    rw [inject, Result.failure?_map, injectItems_eq, Result.failure?_mapM, Value.leaves,
      Value.leavesOfItems_eq]
    exact findSome?_eq_of_flatMap ih
  | map entries ih =>
    rw [inject, Result.failure?_map, injectEntries_eq, Result.failure?_mapM, Value.leaves,
      Value.leavesOfEntries_eq]
    exact findSome?_eq_of_flatMap fun entry member =>
      (Result.failure?_map _ _).trans (ih entry member)

theorem findSome?_failure?_replacement (leaves : List String) :
    (leaves.findSome? fun leaf => (refs.replacement (fun p => .ok p.field) leaf).failure?) =
      (leaves.find? refs.lacks).map .unresolved := by
  induction leaves with
  | nil => rfl
  | cons leaf rest ih =>
    rw [List.findSome?_cons, List.find?_cons, failure?_replacement, ih]
    cases refs.lacks leaf <;> rfl

theorem injectFields_eq_error {v : Value} {failure : Failure} :
    refs.injectFields v = .error failure ↔
      ∃ leaf, v.leaves.find? refs.lacks = some leaf ∧ failure = .unresolved leaf := by
  rw [← Result.failure?_eq_some, injectFields, failure?_inject, findSome?_failure?_replacement,
    Option.map_eq_some_iff]
  simp only [eq_comm]

theorem exists_injectFields_iff {v : Value} :
    (∃ w, refs.injectFields v = .ok w) ↔ ∀ leaf ∈ v.leaves, refs.lacks leaf = false := by
  rw [← Result.failure?_eq_none, injectFields, failure?_inject, findSome?_failure?_replacement,
    Option.map_eq_none_iff, List.find?_eq_none]
  simp only [Bool.not_eq_true]

theorem injectFields_eq_ok {v w : Value} :
    refs.injectFields v = .ok w ↔ v.Filled refs.Stands w := by
  unfold injectFields
  induction v using Value.induction generalizing w with
  | scalar s =>
    by_cases text : ∃ text, s = .str text
    · obtain ⟨text, rfl⟩ := text
      refine replacement_eq_ok_iff_stands.trans ⟨.leaf, fun filled => ?_⟩
      cases filled with
      | leaf stands => exact stands
      | scalar noText => exact absurd rfl (noText text)
    · have noText : ∀ text, s ≠ .str text := not_exists.mp text
      have kept : refs.inject (fun p => .ok p.field) (.scalar s) = .ok (.scalar s) := by
        cases s <;> first | rfl | exact absurd rfl (noText _)
      rw [kept]
      refine ⟨fun same => Except.ok.inj same ▸ .scalar noText, fun filled => ?_⟩
      cases filled with
      | leaf => exact absurd rfl (noText _)
      | scalar => rfl
  | list items ih =>
    rw [inject, injectItems_eq, Result.map_eq_ok, Value.Filled.list_iff]
    refine exists_congr fun others => and_congr_left fun _ => ?_
    rw [Result.mapM_eq_ok_iff_forall₂]
    exact forall₂_congr_of_mem fun v member _ => ih v member
  | map entries ih =>
    rw [inject, injectEntries_eq, Result.map_eq_ok, Value.Filled.map_iff]
    refine exists_congr fun others => and_congr_left fun _ => ?_
    rw [Result.mapM_eq_ok_iff_forall₂]
    refine forall₂_congr_of_mem fun entry member other => ?_
    rw [Result.map_eq_ok]
    constructor
    · rintro ⟨w, replaced, rfl⟩
      exact ⟨rfl, (ih entry member).mp replaced⟩
    · rintro ⟨key, filled⟩
      exact ⟨other.2, (ih entry member).mpr filled, by rw [key]⟩

/-- All values that references were collected from can be replaced in just if what was found is
resolved. -/
theorem injectable_iff_of_collect {values : List Value} {found : List Reference}
    (collected : Reference.collect values = .ok found) :
    (∀ v ∈ values, ∃ w, refs.injectFields v = .ok w) ↔
      ∀ reference ∈ found, Table.contains refs reference.text = true := by
  simp only [exists_injectFields_iff]
  constructor
  · intro all reference member
    obtain ⟨leaf, within, parses⟩ := (Reference.mem_collect collected reference).mp member
    obtain ⟨v, inValues, within⟩ := List.mem_flatMap.mp within
    have isReference := (Reference.isReference_iff_parse leaf).mpr (by simp [parses])
    rw [Reference.text_of_parse parses]
    simpa [lacks, isReference] using all v inValues leaf within
  · intro resolved v inValues leaf within
    by_contra lacking
    obtain ⟨isReference, missing⟩ := Bool.and_eq_true_iff.mp (Bool.not_eq_false _ ▸ lacking)
    have leaves : leaf ∈ values.flatMap Value.leaves := List.mem_flatMap.mpr ⟨v, inValues, within⟩
    obtain ⟨new, parses⟩ := Reference.exists_collect_iff.mp ⟨found, collected⟩ leaf leaves
    obtain ⟨reference, rfl⟩ := Reference.exists_of_isReference isReference parses
    have held := resolved reference
      ((Reference.mem_collect collected reference).mpr ⟨leaf, leaves, parses⟩)
    rw [Reference.text_of_parse parses] at held
    simp [held] at missing

/-- Collecting fails with the first leaf in depth-first order that is malformed, and otherwise finds the
references among the leaves in the order of their first mention, each once. Replacing fails with the
first leaf that is an unresolved reference, and otherwise keeps the shape of the value and fills the
leaves that are references. Both take for references what is not parsed as a literal, so the values
that were collected from can all be replaced in if and only if what was found is resolved. -/
theorem collect_and_inject (values : List Value) (refs : Resolutions) :
    (∀ failure, Reference.collect values = .error failure ↔
      ((values.flatMap Value.leaves).findSome? fun leaf => (Reference.parse leaf).failure?) =
        some failure) ∧
    (∀ found, Reference.collect values = .ok found ↔ ∃ parsed,
      List.Forall₂ (fun leaf new => Reference.parse leaf = .ok new)
        (values.flatMap Value.leaves) parsed ∧ found = parsed.reduceOption.eraseDups) ∧
    (∀ v failure, refs.injectFields v = .error failure ↔
      ∃ leaf, v.leaves.find? refs.lacks = some leaf ∧ failure = .unresolved leaf) ∧
    (∀ v w, refs.injectFields v = .ok w ↔ v.Filled refs.Stands w) ∧
    (∀ leaf, Reference.isReference leaf = true ↔ Reference.parse leaf ≠ .ok none) ∧
    (∀ found, Reference.collect values = .ok found →
      ((∀ v ∈ values, ∃ w, refs.injectFields v = .ok w) ↔
        ∀ reference ∈ found, Table.contains refs reference.text = true)) := by
  refine ⟨fun failure => ?_, fun found => ?_, fun v failure => injectFields_eq_error,
    fun v w => injectFields_eq_ok, Reference.isReference_iff_parse,
    fun found => injectable_iff_of_collect⟩
  · rw [← Result.failure?_eq_some, Reference.collect_eq, Result.failure?_map, Result.failure?_mapM]
  · simp only [Reference.collect_eq, Result.map_eq_ok, Result.mapM_eq_ok_iff_forall₂,
      eq_comm (b := found)]

/-- One reference stands twice in the values and a key looks like one; the pointer is not looked
through. -/
theorem collect_and_inject_ofNested :
    let v : Value := .map [("list", .list [.str "outputs/db/host", .str "plain", .int 1]),
      ("deep", .map [("outputs/x/y", .null), ("tls", .str "secrets/vault/tls/crt"),
        ("again", .str "outputs/db/host")])]
    let refs : Resolutions := [("secrets/vault/tls/crt", .pointer ⟨"vault-tls", some "crt", .secret⟩),
      ("outputs/db/host", .literal (.str "outputs/none/here"))]
    let found := [Reference.output none "db" "host", .secret "vault" "tls" (some "crt")]
    let w : Value := .map [("list", .list [.str "outputs/none/here", .str "plain", .int 1]),
      ("deep", .map [("outputs/x/y", .null),
        ("tls", .map [("secretKeyRef", .map [("name", .str "vault-tls"), ("key", .str "crt")])]),
        ("again", .str "outputs/none/here")])]
    Reference.collect [v] = .ok found ∧ v.Filled refs.Stands w ∧
      ∀ reference ∈ found, Table.contains refs reference.text = true := by
  intro v refs found w
  have collected : Reference.collect [v] = .ok found := by decide +kernel
  have injected : refs.injectFields v = .ok w := by decide +kernel
  obtain ⟨-, -, -, replaced, -, both⟩ := collect_and_inject [v] refs
  refine ⟨collected, (replaced v w).mp injected, (both found collected).mp ?_⟩
  exact List.forall_mem_singleton.mpr ⟨w, injected⟩

end Resolutions
end WorkloadConfig
