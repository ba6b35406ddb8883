import WorkloadConfig.Proofs.Lookup
import WorkloadConfig.Reference.Leaves

namespace WorkloadConfig
namespace Reference

theorem remainder_suffix (s : List Char) : remainder s <:+ s := by
  have behind : ∀ {s before rest : List Char},
      splitNamespace s = some (before, rest) → rest <:+ s := by
    intro s
    fun_induction splitNamespace s with
    | case1 rest =>
      rintro _ _ ⟨⟩
      exact (List.suffix_cons _ _).trans (List.suffix_cons _ _)
    | case2 c rest apart ih =>
      intro before behind split
      obtain ⟨⟨_, _⟩, inner, ⟨⟩⟩ := Option.map_eq_some_iff.mp split
      exact (ih inner).trans (List.suffix_cons _ _)
    | case3 => rintro _ _ ⟨⟩
  unfold remainder
  split
  · rename_i split
    exact behind split
  · exact List.suffix_refl _

/-- Whatever begins like a reference has a slash behind the word of its family. -/
theorem isReference_eq_false {text : String} (plain : '/' ∉ text.toList) :
    isReference text = false := by
  rw [Bool.eq_false_iff]
  intro begins
  obtain ⟨family, -, starts⟩ := List.any_eq_true.mp begins
  refine plain ((remainder_suffix _).subset ((List.isPrefixOf_iff_prefix.mp starts).subset ?_))
  exact List.mem_append_right _ (List.mem_singleton.mpr rfl)

/-- The names that a reference is written with behind its family. -/
def names : Reference → List String
  | output _ target key | connection target key => [target, key]
  | secret target resource key | config target resource key => target :: resource :: key.toList

/-- No name of the reference has a slash in it. -/
def IsPlain (reference : Reference) : Prop :=
  ∀ name ∈ reference.names, '/' ∉ name.toList

theorem names_ofSegments {family : Family} {ns : Option String} {parts : List String}
    {reference : Reference} (made : ofSegments family ns parts = some reference) :
    reference.names = parts := by
  unfold ofSegments at made
  split at made
  · cases family <;> cases made <;> rfl
  · cases family <;> cases made <;> rfl
  · cases made

theorem not_mem_of_mem_splitOn {c : Char} {s part : List Char} (member : part ∈ s.splitOn c) :
    c ∉ part := by
  rw [List.splitOn_eq_splitOnP] at member
  induction s generalizing part with
  | nil =>
    rw [List.splitOnP_nil, List.mem_singleton] at member
    exact member ▸ List.not_mem_nil
  | cons first rest ih =>
    obtain ⟨head, others, split⟩ := List.exists_cons_of_ne_nil (List.splitOnP_ne_nil (· == c) rest)
    rw [split] at ih
    rw [List.splitOnP_cons_eq_if_modifyHead, split] at member
    split at member
    · rcases List.mem_cons.mp member with rfl | later
      · exact List.not_mem_nil
      · exact ih later
    · rename_i apart
      rcases List.mem_cons.mp member with rfl | later
      · simp only [List.mem_cons, not_or]
        exact ⟨fun same => apart (by simp [same]), ih List.mem_cons_self⟩
      · exact ih (List.mem_cons_of_mem _ later)

theorem segments_eq_ok {raw : String} {path : List Char} {least most : Nat} {parts : List String}
    (segmented : segments raw path least most = .ok parts) :
    parts = (path.splitOn '/').map String.ofList ∧ least ≤ parts.length ∧ parts.length ≤ most := by
  unfold segments at segmented
  simp only at segmented
  split at segmented
  · cases segmented
  rename_i within
  split at segmented
  · cases segmented
  cases segmented
  simp only [Bool.or_eq_true, decide_eq_true_eq, not_or, Nat.not_lt] at within
  simpa using within

theorem isPlain_of_parse {raw : String} {reference : Reference}
    (parsed : parse raw = .ok (some reference)) : reference.IsPlain := by
  unfold parse at parsed
  simp only at parsed
  split at parsed
  · cases parsed
  · split at parsed
    · cases parsed
    split at parsed
    · cases parsed
    obtain ⟨parts, segmented, made⟩ := Result.bind_eq_ok.mp parsed
    intro name member
    rw [names_ofSegments (Except.ok.inj made), (segments_eq_ok segmented).1, List.mem_map] at member
    obtain ⟨part, member, rfl⟩ := member
    simpa using not_mem_of_mem_splitOn member

theorem eq_of_splitNamespace {s before behind : List Char}
    (split : splitNamespace s = some (before, behind)) : s = before ++ ':' :: ':' :: behind := by
  fun_induction splitNamespace s generalizing before with
  | case1 rest =>
    cases split
    rfl
  | case2 c rest apart ih =>
    obtain ⟨⟨_, _⟩, inner, same⟩ := Option.map_eq_some_iff.mp split
    cases same
    rw [ih inner, List.cons_append]
  | case3 => cases split

theorem splitFamily_eq_some {s path : List Char} {family : Family} :
    splitFamily s = some (family, path) ↔ s = family.word.toList ++ '/' :: path := by
  constructor
  · intro split
    unfold splitFamily at split
    split at split
    · rename_i c rest behind
      obtain ⟨found, isFamily, same⟩ := Option.map_eq_some_iff.mp split
      cases same
      have word : family.word.toList = s.takeWhile (· ≠ '/') := by
        simpa using List.find?_some isFamily
      have slash : c = '/' := by
        have head := List.head?_dropWhile_not (· ≠ '/') s
        rw [behind] at head
        simpa using head
      subst slash
      rw [word, ← behind, List.takeWhile_append_dropWhile]
    · cases split
  · rintro rfl
    have all : family.word.toList.all (· ≠ '/') = true := by cases family <;> rfl
    have plain := List.all_eq_true.mp all
    rw [splitFamily, List.dropWhile_append_of_pos plain, List.takeWhile_append_of_pos plain]
    cases family <;> rfl

theorem text_ofSegments {family : Family} {ns : Option String} {parts : List String}
    {reference : Reference} (made : ofSegments family ns parts = some reference)
    (own : ns.isSome → family = .outputs) :
    reference.text.toList = (ns.elim [] fun ns => ns.toList ++ [':', ':']) ++
      family.word.toList ++ '/' :: ['/'].intercalate (parts.map String.toList) := by
  unfold ofSegments at made
  split at made
  · cases family <;> cases made <;> cases ns <;>
      simp_all [text, keySuffix, Family.word, List.intercalate]
  · cases family <;> cases made <;> cases ns <;>
      simp_all [text, keySuffix, Family.word, List.intercalate]
  · cases made

/-- A reference is written as the text that it was parsed from. -/
theorem text_of_parse {raw : String} {reference : Reference}
    (parsed : parse raw = .ok (some reference)) : reference.text = raw := by
  unfold parse at parsed
  simp only at parsed
  split at parsed
  · cases parsed
  · rename_i family path isSplit
    split at parsed
    · cases parsed
    rename_i own
    split at parsed
    · cases parsed
    obtain ⟨parts, segmented, made⟩ := Result.bind_eq_ok.mp parsed
    have joined : ['/'].intercalate (parts.map String.toList) = path := by
      rw [(segments_eq_ok segmented).1, List.map_map]
      simp [Function.comp_def]
    have isOutput : ((splitNamespace raw.toList).map fun split => String.ofList split.1).isSome →
        family = .outputs := by
      simpa using own
    rw [← String.toList_inj, text_ofSegments (Except.ok.inj made) isOutput, joined]
    rw [splitFamily_eq_some, remainder] at isSplit
    cases inNamespace : splitNamespace raw.toList with
    | none => simpa [inNamespace] using isSplit.symm
    | some split =>
      obtain ⟨before, behind⟩ := split
      simp only [inNamespace] at isSplit
      simp [eq_of_splitNamespace inNamespace, isSplit]

/-- As many segments as the family takes make a reference. -/
theorem exists_ofSegments {family : Family} (ns : Option String) {parts : List String}
    (least : 2 ≤ parts.length) (most : parts.length ≤ mostSegments family) :
    ∃ reference, ofSegments family ns parts = some reference := by
  match parts with
  | [] | [_] => simp at least
  | [a, b] => cases family <;> exact ⟨_, rfl⟩
  | [a, b, c] => cases family <;> first | exact ⟨_, rfl⟩ | simp [mostSegments] at most
  | _ :: _ :: _ :: _ :: _ =>
    have bound : mostSegments family ≤ 3 := by cases family <;> decide
    simp only [List.length_cons] at most
    omega

/-- What begins like a reference is one, or malformed. -/
theorem exists_of_isReference {raw : String} (begins : isReference raw = true)
    {parsed : Option Reference} (parses : parse raw = .ok parsed) :
    ∃ reference, parsed = some reference := by
  obtain ⟨family, -, starts⟩ := List.any_eq_true.mp begins
  obtain ⟨path, split⟩ := List.isPrefixOf_iff_prefix.mp starts
  have isSplit : splitFamily (remainder raw.toList) = some (family, path) :=
    splitFamily_eq_some.mpr (by simp [← split])
  unfold parse at parses
  simp only [isSplit] at parses
  split at parses
  · cases parses
  split at parses
  · cases parses
  obtain ⟨parts, segmented, made⟩ := Result.bind_eq_ok.mp parses
  obtain ⟨-, least, most⟩ := segments_eq_ok segmented
  cases made
  exact exists_ofSegments _ least most

/-- The references have been parsed from their own texts. -/
def Parsed (references : List Reference) : Prop :=
  ∀ reference ∈ references, parse reference.text = .ok (some reference)

theorem collectLeaf_eq_ok {found after : List Reference} {leaf : String} (parsed : Parsed found) :
    collectLeaf found leaf = .ok after ↔ ∃ new, parse leaf = .ok new ∧
      after = found ++ new.toList.filter (· ∉ found) := by
  unfold collectLeaf
  split
  · rename_i seen
    obtain ⟨reference, member, same⟩ := List.any_eq_true.mp seen
    have parses : parse leaf = .ok (some reference) :=
      (of_decide_eq_true same) ▸ parsed reference member
    simp [parses, member, eq_comm]
  · rename_i unseen
    rw [Result.bind_eq_ok]
    refine exists_congr fun new => and_congr_right fun parses => ?_
    cases new with
    | none => simp [eq_comm]
    | some reference =>
      have fresh : reference ∉ found := fun member => unseen (List.any_eq_true.mpr
        ⟨reference, member, decide_eq_true (text_of_parse parses)⟩)
      simp [fresh, eq_comm]

theorem Parsed.of_collectLeaf {found after : List Reference} {leaf : String} (parsed : Parsed found)
    (step : collectLeaf found leaf = .ok after) : Parsed after := by
  obtain ⟨new, parses, rfl⟩ := (collectLeaf_eq_ok parsed).mp step
  intro reference member
  rcases List.mem_append.mp member with old | added
  · exact parsed reference old
  · have isNew := Option.mem_toList.mp (List.mem_filter.mp added).1
    rw [isNew] at parses
    rw [text_of_parse parses, parses]

theorem foldlM_collectLeaf {leaves : List String} {found after : List Reference}
    (parsed : Parsed found) (folded : leaves.foldlM collectLeaf found = .ok after) :
    (∀ leaf ∈ leaves, ∃ new, parse leaf = .ok new) ∧
      ∀ reference, reference ∈ after ↔
        reference ∈ found ∨ ∃ leaf ∈ leaves, parse leaf = .ok (some reference) := by
  induction leaves generalizing found with
  | nil =>
    cases folded
    simp
  | cons leaf rest ih =>
    rw [List.foldlM_cons] at folded
    obtain ⟨next, step, folded⟩ := Result.bind_eq_ok.mp folded
    obtain ⟨all, members⟩ := ih (parsed.of_collectLeaf step) folded
    obtain ⟨new, parses, rfl⟩ := (collectLeaf_eq_ok parsed).mp step
    refine ⟨List.forall_mem_cons.mpr ⟨⟨new, parses⟩, all⟩, fun reference => ?_⟩
    simp only [members, List.mem_append, List.mem_filter, Option.mem_toList, List.mem_cons,
      exists_eq_or_imp, parses, Except.ok.injEq, decide_eq_true_eq, ← or_assoc]
    refine or_congr_left ?_
    by_cases old : reference ∈ found <;> simp [old]

theorem exists_foldlM_collectLeaf {leaves : List String} (found : List Reference)
    (all : ∀ leaf ∈ leaves, ∃ new, parse leaf = .ok new) :
    ∃ after, leaves.foldlM collectLeaf found = .ok after := by
  induction leaves generalizing found with
  | nil => exact ⟨found, rfl⟩
  | cons leaf rest ih =>
    obtain ⟨⟨new, parses⟩, later⟩ := List.forall_mem_cons.mp all
    have step : ∃ next, collectLeaf found leaf = .ok next := by
      unfold collectLeaf
      split
      · exact ⟨_, rfl⟩
      · rw [parses]
        cases new <;> exact ⟨_, rfl⟩
    obtain ⟨next, step⟩ := step
    rw [List.foldlM_cons, step]
    exact ih next later

/-- Collecting goes well if every leaf can be parsed. -/
theorem exists_collect_iff {values : List Value} : (∃ references, collect values = .ok references) ↔
    ∀ leaf ∈ values.flatMap Value.leaves, ∃ new, parse leaf = .ok new := by
  constructor
  · rintro ⟨references, collected⟩
    exact (foldlM_collectLeaf (fun _ none => absurd none List.not_mem_nil) collected).1
  · exact exists_foldlM_collectLeaf []

theorem mem_collect {values : List Value} {references : List Reference}
    (collected : collect values = .ok references) (reference : Reference) :
    reference ∈ references ↔
      ∃ leaf ∈ values.flatMap Value.leaves, parse leaf = .ok (some reference) := by
  rw [(foldlM_collectLeaf (fun _ none => absurd none List.not_mem_nil) collected).2]
  simp only [List.not_mem_nil, false_or]

/-- What is collected from values has been parsed. -/
theorem exists_parse_of_collect {values : List Value} {references : List Reference}
    (collected : collect values = .ok references) {reference : Reference}
    (member : reference ∈ references) : ∃ leaf, parse leaf = .ok (some reference) := by
  obtain ⟨leaf, -, parses⟩ := (mem_collect collected reference).mp member
  exact ⟨leaf, parses⟩

end Reference
end WorkloadConfig
