import Mathlib.Data.List.Induction
import WorkloadConfig.Proofs.Substitution
import WorkloadConfig.Resource

namespace WorkloadConfig

/-- Sifting out repetitions leaves none. -/
theorem nodup_eraseDups {α : Type} [DecidableEq α] (items : List α) : items.eraseDups.Nodup := by
  match items with
  | [] => simp
  | first :: rest =>
    rw [List.eraseDups_cons, List.nodup_cons]
    refine ⟨fun again => ?_, nodup_eraseDups _⟩
    simpa using List.mem_eraseDups.mp again
termination_by items.length
decreasing_by exact Nat.lt_succ_of_le (List.length_filter_le _ _)

namespace FieldPath
variable {paths : List FieldPath} {p q : FieldPath}

/-- A path is known by its segments. -/
theorem eq_of_segments (same : p.segments = q.segments) : p = q := by
  have split := (List.map_inj_right fun _ _ => String.ofList_injective).mp same
  have joined (r : FieldPath) : ['.'].intercalate (r.text.toList.splitOn '.') = r.text.toList :=
    List.intercalate_splitOn '.'
  have text : p.text = q.text := by rw [← String.toList_inj, ← joined p, split, joined q]
  cases p
  cases q
  simpa using text

theorem above_iff : p.above q = true ↔ p.segments <+: q.segments ∧ p ≠ q := by
  simp only [above, Bool.and_eq_true, List.isPrefixOf_iff_prefix, decide_eq_true_eq]
  refine and_congr_right fun _ => not_congr ⟨eq_of_segments, ?_⟩
  rintro rfl
  rfl

theorem mem_outermost : p ∈ outermost paths ↔ p ∈ paths ∧ ∀ q ∈ paths, ¬ q.above p = true := by
  simp [outermost, List.mem_eraseDups, List.mem_filter]

/-- Neither of the two paths leads through the other. -/
def Apart (p q : FieldPath) : Prop :=
  ¬ p.segments <+: q.segments ∧ ¬ q.segments <+: p.segments

theorem pairwise_outermost : (outermost paths).Pairwise Apart := by
  refine (nodup_eraseDups _).imp_of_mem fun {p q} ofP ofQ apart => ?_
  obtain ⟨pMember, pTop⟩ := mem_outermost.mp ofP
  obtain ⟨qMember, qTop⟩ := mem_outermost.mp ofQ
  exact ⟨fun before => qTop p pMember (above_iff.mpr ⟨before, apart⟩),
    fun before => pTop q qMember (above_iff.mpr ⟨before, apart.symm⟩)⟩

/-- Every path has an outermost one at or above it. -/
theorem exists_outermost {p : FieldPath} (member : p ∈ paths) :
    ∃ q ∈ outermost paths, q.segments <+: p.segments := by
  by_cases top : p ∈ outermost paths
  · exact ⟨p, top, List.prefix_refl _⟩
  · rw [mem_outermost] at top
    simp only [member, true_and, not_forall, not_not] at top
    obtain ⟨q, other, above⟩ := top
    obtain ⟨before, apart⟩ := above_iff.mp above
    have shorter : q.segments.length < p.segments.length := Nat.lt_of_le_of_ne before.length_le
      fun same => apart (eq_of_segments (before.eq_of_length same))
    obtain ⟨r, outer, reaches⟩ := exists_outermost other
    exact ⟨r, outer, reaches.trans before⟩
termination_by p.segments.length

/-- Whether a position lies at or below one of the paths. -/
def covering (paths : List FieldPath) (position : List String) : Bool :=
  paths.any (·.segments.isPrefixOf position)

theorem covering_iff {position : List String} :
    covering paths position = true ↔ ∃ p ∈ paths, p.segments <+: position := by
  simp [covering, List.any_eq_true, List.isPrefixOf_iff_prefix]

theorem covering_cons (p : FieldPath) (paths : List FieldPath) :
    covering (p :: paths) =
      fun position => p.segments.isPrefixOf position || covering paths position := rfl

theorem covering_outermost (paths : List FieldPath) :
    covering (outermost paths) = covering paths := by
  funext position
  rw [Bool.eq_iff_iff, covering_iff, covering_iff]
  constructor
  · rintro ⟨p, outer, before⟩
    exact ⟨p, (mem_outermost.mp outer).1, before⟩
  · rintro ⟨p, member, before⟩
    obtain ⟨q, outer, above⟩ := exists_outermost member
    exact ⟨q, outer, above.trans before⟩

/-- Nothing above or below a path is covered by paths that lie apart from it. -/
theorem covering_of_apart {p : FieldPath} (apart : ∀ q ∈ paths, p.Apart q) {other : List String}
    (comparable : p.segments <+: other ∨ other <+: p.segments) : covering paths other = false := by
  rw [Bool.eq_false_iff, ne_eq, covering_iff]
  rintro ⟨q, member, before⟩
  obtain ⟨notBelow, notAbove⟩ := apart q member
  rcases comparable with below | above
  · rcases List.prefix_or_prefix_of_prefix below before with first | first
    · exact notBelow first
    · exact notAbove first
  · exact notAbove (before.trans above)

end FieldPath

namespace Value
variable {f : String → Value} {covered : List String → Bool}

theorem substituteWhere_of_none (v : Value) (notCovered : ∀ path, covered path = false) :
    v.substituteWhere f covered = v := by
  induction v using Value.induction generalizing covered with
  | scalar _ | list _ => exact if_neg (by simp [notCovered])
  | map entries ih =>
    rw [substituteWhere, if_neg (by simp [notCovered])]
    congr 1
    induction entries generalizing covered with
    | nil => rfl
    | cons entry rest others =>
      obtain ⟨key, v⟩ := entry
      obtain ⟨first, later⟩ := List.forall_mem_cons.mp ih
      rcases key.text_or_not with ⟨k, rfl⟩ | noText
      · rw [substituteEntriesWhere, first fun path => notCovered (k :: path),
          others later fun path => by simp only [notCovered, Bool.and_false]]
      · rw [substituteEntriesWhere_skip noText, others later notCovered]

/-- What is covered under the other keys does not depend on the entry that is written. -/
theorem substituteEntriesWhere_put {others : List String → Bool} {k : String} (v : Value)
    (agree : ∀ path, path.head? ≠ some k → covered path = others path)
    (entries : List (Key × Value)) :
    substituteEntriesWhere f covered (Table.put entries (.str k) v) =
      Table.put (substituteEntriesWhere f others entries) (.str k)
        (v.substituteWhere f fun path => covered (k :: path)) := by
  induction entries generalizing covered others with
  | nil => rfl
  | cons entry rest ih =>
    obtain ⟨key, u⟩ := entry
    rcases key.text_or_not with ⟨l, rfl⟩ | noText
    · by_cases same : l = k
      · subst same
        have behind : (fun path : List String => decide (path.head? ≠ some l) && covered path) =
            fun path => decide (path.head? ≠ some l) && others path := by
          funext path
          by_cases head : path.head? = some l <;> simp [head, agree]
        simp only [Table.put, if_true, substituteEntriesWhere, behind]
      · have apart : Key.str l ≠ .str k := by simpa using same
        have under : (fun path => covered (l :: path)) = fun path => others (l :: path) :=
          funext fun path => agree _ (by simpa using same)
        have behind : ∀ path : List String, path.head? ≠ some k →
            (decide (path.head? ≠ some l) && covered path) =
              (decide (path.head? ≠ some l) && others path) :=
          fun path head => by rw [agree path head]
        simp only [Table.put, if_neg apart, substituteEntriesWhere, under, ih behind]
        simp [Ne.symm same]
    · simp only [Table.put, if_neg (noText k), substituteEntriesWhere_skip noText, ih agree]

theorem isPrefixOf_cons_eq_false {k : String} {path other : List String}
    (head : other.head? ≠ some k) : (k :: path).isPrefixOf other = false := by
  cases other with
  | nil => rfl
  | cons l other =>
    have differ : k ≠ l := fun same => head (by rw [List.head?_cons, same])
    simp [List.isPrefixOf, differ]

/-- To substitute in the part at a path first covers the path as well, as long as nothing is covered
along it. -/
theorem substituteWhere_set_self {v part : Value} {path : List String}
    (found : v.get? path = some part)
    (apart : ∀ other, path <+: other ∨ other <+: path → covered other = false) :
    (v.set path (part.substitute f)).substituteWhere f covered =
      v.substituteWhere f fun other => path.isPrefixOf other || covered other := by
  induction path generalizing v covered with
  | nil =>
    cases found
    refine Eq.trans ?_ (substituteWhere_of_covered _ rfl).symm
    exact substituteWhere_of_none _ fun other => apart other (.inl List.nil_prefix)
  | cons k path ih =>
    have notHere : covered [] = false := apart [] (.inr List.nil_prefix)
    rw [get?_cons, Option.bind_eq_some_iff] at found
    obtain ⟨child, atKey, found⟩ := found
    have under : ∀ other, path <+: other ∨ other <+: path → covered (k :: other) = false :=
      fun other comparable => apart (k :: other) (by simpa using comparable)
    have isMap : v = .map v.entries := by
      cases v with
      | map entries => rfl
      | scalar _ | list _ => cases atKey
    have agree : ∀ other, other.head? ≠ some k →
        covered other = ((k :: path).isPrefixOf other || covered other) := fun other head => by
      rw [isPrefixOf_cons_eq_false head, Bool.false_or]
    have kept : Table.find? (substituteEntriesWhere f
        (fun other => (k :: path).isPrefixOf other || covered other) v.entries) (.str k) =
          some (child.substituteWhere f
            fun other => path.isPrefixOf other || covered (k :: other)) := by
      rw [find?_substituteEntriesWhere, atKey, Option.map_some]
      simp
    rw [isMap, set_cons, lookup, entries, atKey, Option.getD_some, substituteWhere, substituteWhere,
      if_neg (by simp [notHere]), if_neg (by simp [notHere]), substituteEntriesWhere_put _ agree,
      ih found under, Table.put_of_find? kept]

/-- The value with each of the writings made in turn. -/
def written (v : Value) (writings : List (FieldPath × Value)) : Value :=
  writings.foldl (fun v writing => v.set writing.1.segments writing.2) v

theorem written_concat (v : Value) (writings : List (FieldPath × Value)) (p : FieldPath)
    (new : Value) :
    v.written (writings ++ [(p, new)]) = (v.written writings).set p.segments new := by
  simp only [written, List.foldl_append, List.foldl_cons, List.foldl_nil]

/-- What is written at an outermost place stays there whatever is written at the others. -/
theorem exists_get?_written {v : Value} {writings : List (FieldPath × Value)} {p : FieldPath}
    (member : p ∈ writings.map (·.1)) (top : ∀ q ∈ writings.map (·.1), ¬ q.above p = true) :
    ∃ part, (v.written writings).get? p.segments = some part := by
  induction writings using List.reverseRecOn with
  | nil => cases member
  | append_singleton writings writing ih =>
    obtain ⟨q, new⟩ := writing
    simp only [List.map_append, List.map_cons, List.map_nil, List.mem_append, List.mem_singleton,
      or_imp, forall_and, forall_eq] at member top
    rw [written_concat]
    by_cases before : q.segments <+: p.segments
    · have same : q = p := not_not.mp fun apart => top.2 (FieldPath.above_iff.mpr ⟨before, apart⟩)
      exact ⟨new, by rw [same, get?_set]⟩
    by_cases behind : p.segments <+: q.segments
    · obtain ⟨rest, split⟩ := behind
      exact ⟨_, by rw [← split, get?_set_above]⟩
    · rw [get?_set_apart _ _ before behind]
      exact ih (member.resolve_right fun same => before (same ▸ List.prefix_refl _)) top.1

/-- At and below the places that were written to there are only leaves that were written. -/
theorem mem_leaves_written {v part : Value} {writings : List (FieldPath × Value)} {p : FieldPath}
    {leaf : String} (member : p ∈ writings.map (·.1))
    (found : (v.written writings).get? p.segments = some part) (within : leaf ∈ part.leaves) :
    ∃ writing ∈ writings, leaf ∈ writing.2.leaves := by
  induction writings using List.reverseRecOn generalizing part with
  | nil => cases member
  | append_singleton writings writing ih =>
    obtain ⟨q, new⟩ := writing
    have last : (q, new) ∈ writings ++ [(q, new)] := List.mem_concat_self
    have keep : (∃ writing ∈ writings, leaf ∈ writing.2.leaves) →
        ∃ writing ∈ writings ++ [(q, new)], leaf ∈ writing.2.leaves := fun ⟨writing, old, within⟩ =>
      ⟨writing, List.mem_append_left _ old, within⟩
    simp only [List.map_append, List.map_cons, List.map_nil, List.mem_append,
      List.mem_singleton] at member
    rw [written_concat] at found
    by_cases before : q.segments <+: p.segments
    · obtain ⟨rest, split⟩ := before
      rw [← split, get?_set_append] at found
      exact ⟨_, last, mem_leaves_of_get? found within⟩
    have old : p ∈ writings.map (·.1) :=
      member.resolve_right fun same => before (same ▸ List.prefix_refl _)
    by_cases behind : p.segments <+: q.segments
    · obtain ⟨rest, split⟩ := behind
      rw [← split, get?_set_above, Option.some.injEq] at found
      subst found
      rcases mem_leaves_of_set within with inOld | inNew
      · cases there : (v.written writings).get? p.segments with
        | none => simp [there, leaves] at inOld
        | some part =>
          rw [there] at inOld
          exact keep (ih old there inOld)
      · exact ⟨_, last, inNew⟩
    · rw [get?_set_apart _ _ before behind] at found
      exact keep (ih old found within)

end Value

/-- What a text leaf of a resource stands for. -/
def Resolutions.meaning (refs : Resolutions) : String → Value :=
  refs.standing fun pointer => .ok pointer.field

namespace Template
variable {t : Template} {fields : Assignment} {refs : Resolutions}

/-- Replacing the references at places apart from each other comes to one substitution. -/
theorem foldlM_injectAt {paths : List FieldPath} {v w : Value}
    (apart : paths.Pairwise FieldPath.Apart)
    (present : ∀ p ∈ paths, ∃ part, v.get? p.segments = some part) :
    paths.foldlM (injectAt refs) v = .ok w ↔
      (∀ p ∈ paths, ∀ part, v.get? p.segments = some part →
        refs.Replaces (fun pointer => .ok pointer.field) part.leaves) ∧
      w = v.substituteWhere refs.meaning (FieldPath.covering paths) := by
  induction paths generalizing v with
  | nil =>
    have untouched : v.substituteWhere refs.meaning (FieldPath.covering []) = v :=
      Value.substituteWhere_of_none v fun _ => rfl
    simp [untouched, eq_comm]
  | cons p rest ih =>
    obtain ⟨others, apart⟩ := List.pairwise_cons.mp apart
    obtain ⟨⟨part, found⟩, present⟩ := List.forall_mem_cons.mp present
    have kept (new : Value) (q : FieldPath) (member : q ∈ rest) :
        (v.set p.segments new).get? q.segments = v.get? q.segments :=
      Value.get?_set_apart v new (others q member).1 (others q member).2
    have next (new : Value) := ih (v := v.set p.segments new) apart fun q member => by
      rw [kept new q member]
      exact present q member
    have step (new : Value) :
        (∀ q ∈ rest, ∀ part, (v.set p.segments new).get? q.segments = some part →
          refs.Replaces (fun pointer => .ok pointer.field) part.leaves) ↔
        ∀ q ∈ rest, ∀ part, v.get? q.segments = some part →
          refs.Replaces (fun pointer => .ok pointer.field) part.leaves := by
      refine forall₂_congr fun q member => ?_
      rw [kept new q member]
    have here : v.valueAt p = part := by rw [Value.valueAt, found, Option.getD_some]
    simp only [List.foldlM_cons, injectAt, here, Resolutions.injectFields, Result.bind_eq_ok,
      Resolutions.inject_eq_ok, Except.ok.injEq, List.forall_mem_cons, found, Option.some.injEq,
      forall_eq', FieldPath.covering_cons]
    rw [← Value.substituteWhere_set_self found fun _ => FieldPath.covering_of_apart others]
    constructor
    · rintro ⟨_, ⟨_, ⟨first, rfl⟩, rfl⟩, run⟩
      obtain ⟨later, rfl⟩ := (next _).mp run
      exact ⟨⟨first, (step _).mp later⟩, rfl⟩
    · rintro ⟨⟨first, later⟩, rfl⟩
      exact ⟨_, ⟨_, ⟨first, rfl⟩, rfl⟩, (next _).mpr ⟨(step _).mpr later, rfl⟩⟩

/-- The places of the patches whose fields have a value. -/
def places (t : Template) (fields : Assignment) : List FieldPath :=
  (t.present fields).map (·.1)

theorem patched_eq (t : Template) (fields : Assignment) :
    t.patched fields = t.skeleton.written (t.present fields) := rfl

/-- At and below the patched places there are only leaves of the field values. -/
theorem mem_leaves_patched {p : FieldPath} {part : Value} {leaf : String}
    (member : p ∈ t.places fields) (found : (t.patched fields).get? p.segments = some part)
    (within : leaf ∈ part.leaves) : ∃ writing ∈ t.present fields, leaf ∈ writing.2.leaves :=
  Value.mem_leaves_written member found within

/-- A resource is filled by writing the field values and then substituting, at and below the patched
places, what each reference stands for. -/
theorem filled_eq_ok {v : Value} : t.filled fields refs = .ok v ↔
    (∀ p ∈ FieldPath.outermost (t.places fields), ∀ part,
      (t.patched fields).get? p.segments = some part →
        refs.Replaces (fun pointer => .ok pointer.field) part.leaves) ∧
    v = (t.patched fields).substituteWhere refs.meaning (FieldPath.covering (t.places fields)) := by
  have present : ∀ p ∈ FieldPath.outermost (t.places fields),
      ∃ part, (t.patched fields).get? p.segments = some part := by
    intro p outer
    obtain ⟨member, top⟩ := FieldPath.mem_outermost.mp outer
    exact Value.exists_get?_written member top
  rw [← FieldPath.covering_outermost]
  exact foldlM_injectAt FieldPath.pairwise_outermost present

/-- A resource is filled if something stands for each leaf of the field values. -/
theorem filled_of_replaces (replaces : ∀ writing ∈ t.present fields,
      refs.Replaces (fun pointer => .ok pointer.field) writing.2.leaves) :
    t.filled fields refs = .ok
      ((t.patched fields).substituteWhere refs.meaning (FieldPath.covering (t.places fields))) := by
  refine filled_eq_ok.mpr ⟨fun p outer part found leaf within => ?_, rfl⟩
  obtain ⟨writing, member, inField⟩ :=
    mem_leaves_patched (FieldPath.mem_outermost.mp outer).1 found within
  exact replaces writing member leaf inField

end Template
end WorkloadConfig
