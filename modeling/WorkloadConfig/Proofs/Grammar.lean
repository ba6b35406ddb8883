import WorkloadConfig.Proofs.References

namespace WorkloadConfig
namespace Reference

/-- A segment of a path: at least one character, and no slash. -/
def IsSegment (name : String) : Prop :=
  name ≠ "" ∧ '/' ∉ name.toList

/-- No pair of colons occurs in the text. -/
def IsUnqualified (s : String) : Prop :=
  ∀ before behind, s ≠ before ++ "::" ++ behind

/-- The first pair of colons in the text is the one between the namespace and the rest. -/
structure IsQualified (s ns rest : String) : Prop where
  divided : s = ns ++ "::" ++ rest
  first : ∀ before behind, s = before ++ "::" ++ behind → ns.length ≤ before.length

/-- The rest of the text behind its namespace, or all of a text that has none. -/
inductive Divides (s : String) : Option String → String → Prop
  | whole : IsUnqualified s → Divides s none s
  | behind {ns rest} : IsQualified s ns rest → Divides s (some ns) rest

/-- What stands between the slashes of the path. -/
structure IsPath (path : String) (parts : List String) : Prop where
  joined : path = "/".intercalate parts
  plain : ∀ part ∈ parts, '/' ∉ part.toList
  some : parts ≠ []

/-- How each reference is written. -/
def IsWritten (s : String) : Reference → Prop
  | output none target key =>
    s = "outputs/" ++ target ++ "/" ++ key ∧ IsUnqualified s ∧ IsSegment target ∧ IsSegment key
  | output (some ns) target key =>
    IsQualified s ns ("outputs/" ++ target ++ "/" ++ key) ∧ ns ≠ "" ∧ IsSegment target ∧
      IsSegment key
  | connection target key =>
    s = "connections/" ++ target ++ "/" ++ key ∧ IsUnqualified s ∧ IsSegment target ∧ IsSegment key
  | secret target resource key =>
    s = "secrets/" ++ target ++ "/" ++ resource ++ keySuffix key ∧ IsUnqualified s ∧
      IsSegment target ∧ IsSegment resource ∧ ∀ name, key = some name → IsSegment name
  | config target resource key =>
    s = "configs/" ++ target ++ "/" ++ resource ++ keySuffix key ∧ IsUnqualified s ∧
      IsSegment target ∧ IsSegment resource ∧ ∀ name, key = some name → IsSegment name

/-- The text begins like a reference of the family, in a namespace if one is given. -/
def Begins (s : String) (ns : Option String) (family : Family) (path : String) : Prop :=
  Divides s ns (family.word ++ "/" ++ path)

/-- Only outputs lie in a namespace, and it has a name. -/
def IsAllowed (ns : Option String) (family : Family) : Prop :=
  ∀ given, ns = some given → family = .outputs ∧ given ≠ ""

/-- Why a text that begins like a reference is none. Only outputs lie in a namespace, and neither
the namespace nor a part of the path is empty. -/
inductive Refuses (s : String) : Cause → Prop
  | foreign {ns family path} : Begins s (some ns) family path → family ≠ .outputs →
      Refuses s (.crossNamespace family.word s)
  | nameless {path} : Begins s (some "") .outputs path →
      Refuses s (.referenceSyntax s .emptyNamespace)
  | count {ns family path parts} : Begins s ns family path →
      IsAllowed ns family → IsPath path parts →
      parts.length < 2 ∨ mostSegments family < parts.length →
      Refuses s (.referenceSyntax s (.segmentCount 2 (mostSegments family) parts.length))
  | empty {ns family path parts} : Begins s ns family path →
      IsAllowed ns family → IsPath path parts →
      2 ≤ parts.length → parts.length ≤ mostSegments family → "" ∈ parts →
      Refuses s (.referenceSyntax s .emptySegment)

section
variable {s before behind : List Char}

theorem ne_of_splitNamespace_none (whole : splitNamespace s = none) (earlier later : List Char) :
    s ≠ earlier ++ ':' :: ':' :: later := by
  fun_induction splitNamespace s generalizing earlier with
  | case1 rest => cases whole
  | case2 c rest apart ih =>
    rw [Option.map_eq_none_iff] at whole
    intro pair
    cases earlier with
    | nil =>
      obtain ⟨rfl, rfl⟩ := List.cons.inj pair
      exact apart later rfl rfl
    | cons d earlier => exact ih whole earlier (List.cons.inj pair).2
  | case3 => simp

/-- There is no pair of colons before the first one. -/
theorem length_le_of_splitNamespace (divided : splitNamespace s = some (before, behind))
    {earlier later : List Char} (pair : s = earlier ++ ':' :: ':' :: later) :
    before.length ≤ earlier.length := by
  fun_induction splitNamespace s generalizing before earlier with
  | case1 rest =>
    cases divided
    exact Nat.zero_le _
  | case2 c rest apart ih =>
    obtain ⟨⟨_, _⟩, inner, same⟩ := Option.map_eq_some_iff.mp divided
    cases same
    cases earlier with
    | nil =>
      obtain ⟨rfl, rfl⟩ := List.cons.inj pair
      exact absurd rfl (apart later rfl)
    | cons d earlier => exact Nat.succ_le_succ (ih inner (List.cons.inj pair).2)
  | case3 => cases divided

end

variable {s ns rest path : String} {family : Family}

theorem toList_pair (before behind : String) :
    (before ++ "::" ++ behind).toList = before.toList ++ ':' :: ':' :: behind.toList := by
  simp

theorem isUnqualified_iff : IsUnqualified s ↔ splitNamespace s.toList = none := by
  constructor
  · intro whole
    cases split : splitNamespace s.toList with
    | none => rfl
    | some divided =>
      obtain ⟨before, behind⟩ := divided
      refine absurd ?_ (whole (.ofList before) (.ofList behind))
      rw [← String.toList_inj, toList_pair, eq_of_splitNamespace split]
      simp
  · rintro split before behind rfl
    exact ne_of_splitNamespace_none split _ _ (toList_pair before behind)

theorem splitNamespace_of_isQualified (qualified : IsQualified s ns rest) :
    splitNamespace s.toList = some (ns.toList, rest.toList) := by
  have here : s.toList = ns.toList ++ ':' :: ':' :: rest.toList := by
    rw [qualified.divided, toList_pair]
  cases split : splitNamespace s.toList with
  | none => exact absurd here (ne_of_splitNamespace_none split _ _)
  | some divided =>
    obtain ⟨before, behind⟩ := divided
    have there := eq_of_splitNamespace split
    -- both pairs of colons are the first one, so they are the same
    have notLater := length_le_of_splitNamespace split here
    have notEarlier := qualified.first (.ofList before) (.ofList behind)
      (by rw [← String.toList_inj, toList_pair, there]; simp)
    rw [String.length_ofList] at notEarlier
    rw [String.length_toList] at notLater
    have same := List.append_inj (there.symm.trans here)
      (by rw [String.length_toList]; exact Nat.le_antisymm notLater notEarlier)
    obtain ⟨rfl, pair⟩ := same
    cases pair
    rfl

theorem exists_divides (s : String) : ∃ ns rest, Divides s ns rest := by
  cases split : splitNamespace s.toList with
  | none => exact ⟨none, s, .whole (isUnqualified_iff.mpr split)⟩
  | some divided =>
    obtain ⟨before, behind⟩ := divided
    refine ⟨some (.ofList before), .ofList behind, .behind ⟨?_, fun earlier later pair => ?_⟩⟩
    · rw [← String.toList_inj, toList_pair, eq_of_splitNamespace split]
      simp
    · have here : s.toList = earlier.toList ++ ':' :: ':' :: later.toList := by
        rw [pair, toList_pair]
      rw [String.length_ofList, ← String.length_toList]
      exact length_le_of_splitNamespace split here

theorem splitNamespace_of_divides {ns : Option String} (divides : Divides s ns rest) :
    splitNamespace s.toList = ns.map fun ns => (ns.toList, rest.toList) := by
  cases divides with
  | whole whole => exact isUnqualified_iff.mp whole
  | behind qualified => exact splitNamespace_of_isQualified qualified

theorem remainder_of_divides {ns : Option String} (divides : Divides s ns rest) :
    remainder s.toList = rest.toList := by
  rw [remainder, splitNamespace_of_divides divides]
  cases divides <;> rfl

theorem Divides.unique {ns ns' : Option String} {rest' : String} (one : Divides s ns rest)
    (two : Divides s ns' rest') : ns = ns' ∧ rest = rest' := by
  have same := (remainder_of_divides one).symm.trans (remainder_of_divides two)
  refine ⟨?_, String.toList_inj.mp same⟩
  have spaces := (splitNamespace_of_divides one).symm.trans (splitNamespace_of_divides two)
  cases ns <;> cases ns' <;> simp_all [String.toList_inj]

theorem splitFamily_of_begins {ns : Option String} (begins : Begins s ns family path) :
    splitFamily (remainder s.toList) = some (family, path.toList) := by
  rw [remainder_of_divides begins, splitFamily_eq_some]
  simp

theorem isReference_iff : isReference s = true ↔ ∃ ns family path, Begins s ns family path := by
  obtain ⟨ns, rest, divides⟩ := exists_divides s
  have families (family : Family) :
      family ∈ [Family.outputs, .connections, .secrets, .configs] := by cases family <;> simp
  rw [isReference, remainder_of_divides divides, List.any_eq_true]
  constructor
  · rintro ⟨family, -, starts⟩
    obtain ⟨path, split⟩ := List.isPrefixOf_iff_prefix.mp starts
    refine ⟨ns, family, .ofList path, ?_⟩
    have same : rest = family.word ++ "/" ++ .ofList path := by
      rw [← String.toList_inj, ← split]
      simp
    rwa [Begins, ← same]
  · rintro ⟨ns', family, path, begins⟩
    obtain ⟨-, rfl⟩ := divides.unique begins
    exact ⟨family, families family, by simp⟩

theorem exists_isPath (path : String) : ∃ parts, IsPath path parts := by
  refine ⟨(path.toList.splitOn '/').map .ofList, ?_, ?_, ?_⟩
  · rw [← String.toList_inj, String.toList_intercalate, List.map_map]
    simp [Function.comp_def]
  · simp only [List.forall_mem_map, String.toList_ofList]
    exact fun part member => not_mem_of_mem_splitOn member
  · simp

theorem splitOn_of_isPath {parts : List String} (isPath : IsPath path parts) :
    path.toList.splitOn '/' = parts.map String.toList := by
  rw [isPath.joined, String.toList_intercalate]
  refine List.splitOn_intercalate '/' ?_ (by simpa using isPath.some)
  simpa using isPath.plain

theorem segments_of_isPath {parts : List String} (isPath : IsPath path parts)
    (least most : Nat) : segments s path.toList least most =
      if parts.length < least ∨ most < parts.length then
        Result.fail (.referenceSyntax s (.segmentCount least most parts.length))
      else if "" ∈ parts then Result.fail (.referenceSyntax s .emptySegment)
      else .ok parts := by
  have empty : (parts.map String.toList).contains [] = decide ("" ∈ parts) := by
    rw [Bool.eq_iff_iff]
    simp
  simp only [segments, splitOn_of_isPath isPath, empty, List.length_map, List.map_map]
  simp [Function.comp_def]

/-- What parsing comes to where the family may lie in the namespace. -/
theorem parse_of_begins {ns : Option String} (begins : Begins s ns family path) : parse s =
    if ns.isSome ∧ family ≠ .outputs then Result.fail (.crossNamespace family.word s)
    else if ns = some "" then Result.fail (.referenceSyntax s .emptyNamespace)
    else segments s path.toList 2 (mostSegments family) >>= fun parts =>
      .ok (ofSegments family ns parts) := by
  have spaces : (splitNamespace s.toList).map (fun split => String.ofList split.1) = ns := by
    rw [splitNamespace_of_divides begins]
    cases ns <;> simp
  have nameless : (splitNamespace s.toList).any (·.1 = []) = decide (ns = some "") := by
    rw [splitNamespace_of_divides begins]
    cases ns <;> simp
  have given : (splitNamespace s.toList).isSome = ns.isSome := by
    rw [splitNamespace_of_divides begins]
    cases ns <;> rfl
  simp only [parse, splitFamily_of_begins begins, spaces, nameless, given, decide_eq_true_eq,
    Bool.and_eq_true]

theorem parse_of_not_begins (literal : ∀ ns family path, ¬ Begins s ns family path) :
    parse s = .ok none := by
  obtain ⟨ns, rest, divides⟩ := exists_divides s
  have unsplit : splitFamily (remainder s.toList) = none := by
    cases split : splitFamily (remainder s.toList) with
    | none => rfl
    | some found =>
      obtain ⟨family, path⟩ := found
      refine absurd ?_ (literal ns family (.ofList path))
      rw [remainder_of_divides divides, splitFamily_eq_some] at split
      have same : rest = family.word ++ "/" ++ .ofList path := by
        rw [← String.toList_inj, split]
        simp
      rwa [Begins, ← same]
  simp only [parse, unsplit]

theorem isAllowed_iff {ns : Option String} :
    IsAllowed ns family ↔ ¬ (ns.isSome ∧ family ≠ .outputs) ∧ ns ≠ some "" := by
  cases ns <;> simp [IsAllowed]

theorem parse_of_isAllowed {ns : Option String} {parts : List String}
    (begins : Begins s ns family path) (allowed : IsAllowed ns family)
    (isPath : IsPath path parts) : parse s =
      if parts.length < 2 ∨ mostSegments family < parts.length then
        Result.fail (.referenceSyntax s (.segmentCount 2 (mostSegments family) parts.length))
      else if "" ∈ parts then Result.fail (.referenceSyntax s .emptySegment)
      else .ok (ofSegments family ns parts) := by
  obtain ⟨own, named⟩ := isAllowed_iff.mp allowed
  rw [parse_of_begins begins, if_neg own, if_neg named, segments_of_isPath isPath]
  split
  · rfl
  · split <;> rfl

theorem parse_of_refuses {cause : Cause} (refuses : Refuses s cause) :
    parse s = Result.fail cause := by
  cases refuses with
  | foreign begins foreign => rw [parse_of_begins begins, if_pos ⟨rfl, foreign⟩]
  | nameless begins => rw [parse_of_begins begins, if_neg (by simp), if_pos rfl]
  | count begins allowed isPath wrong =>
    rw [parse_of_isAllowed begins allowed isPath, if_pos wrong]
  | empty begins allowed isPath least most empty =>
    rw [parse_of_isAllowed begins allowed isPath, if_neg (by omega), if_pos empty]

theorem begins_none : Begins s none family path ↔
    s = family.word ++ "/" ++ path ∧ IsUnqualified s := by
  constructor
  · intro begins
    rw [Begins] at begins
    generalize family.word ++ "/" ++ path = text at begins ⊢
    cases begins with
    | whole whole => exact ⟨rfl, whole⟩
  · rintro ⟨same, whole⟩
    rw [Begins, ← same]
    exact .whole whole

theorem begins_some : Begins s (some ns) family path ↔
    IsQualified s ns (family.word ++ "/" ++ path) := by
  constructor
  · rintro ⟨⟩
    assumption
  · exact .behind

/-- A text is written as the reference if it begins with its family and the path consists of its
names. -/
theorem isWritten_ofSegments {ns : Option String} {parts : List String} {reference : Reference}
    (made : ofSegments family ns parts = some reference) (own : ns.isSome → family = .outputs) :
    IsWritten s reference ↔ Begins s ns family ("/".intercalate parts) ∧ IsAllowed ns family ∧
      ∀ part ∈ parts, IsSegment part := by
  unfold ofSegments at made
  split at made
  · cases family <;> cases made <;> cases ns <;>
      simp_all [IsWritten, begins_none, begins_some, IsAllowed, Family.word, keySuffix,
        ← String.append_assoc, and_assoc]
  · cases family <;> cases made <;> cases ns <;>
      simp_all [IsWritten, begins_none, IsAllowed, Family.word, keySuffix, ← String.append_assoc,
        and_assoc]
  · cases made

theorem exists_parts (reference : Reference) : ∃ family ns parts,
    ofSegments family ns parts = some reference ∧ (ns.isSome → family = .outputs) ∧
      2 ≤ parts.length ∧ parts.length ≤ mostSegments family := by
  cases reference with
  | output ns target key =>
    exact ⟨.outputs, ns, [target, key], rfl, fun _ => rfl, Nat.le_refl 2, Nat.le_refl 2⟩
  | connection target key =>
    exact ⟨.connections, none, [target, key], rfl, by simp, Nat.le_refl 2, Nat.le_refl 2⟩
  | secret target resource key =>
    refine ⟨.secrets, none, target :: resource :: key.toList, ?_⟩
    cases key <;> simp [ofSegments, mostSegments]
  | config target resource key =>
    refine ⟨.configs, none, target :: resource :: key.toList, ?_⟩
    cases key <;> simp [ofSegments, mostSegments]

/-- What the grammar writes is parsed. -/
theorem parse_of_isWritten {reference : Reference} (written : IsWritten s reference) :
    parse s = .ok (some reference) := by
  obtain ⟨family, ns, parts, made, own, least, most⟩ := exists_parts reference
  obtain ⟨begins, allowed, names⟩ := (isWritten_ofSegments made own).mp written
  have some : parts ≠ [] := List.ne_nil_of_length_pos (by omega)
  have isPath : IsPath ("/".intercalate parts) parts :=
    ⟨rfl, fun part member => (names part member).2, some⟩
  rw [parse_of_isAllowed begins allowed isPath, if_neg (by omega),
    if_neg fun empty => (names _ empty).1 rfl, made]

/-- What begins like a reference is written as one, or refused. -/
theorem isWritten_or_refuses {ns : Option String} (begins : Begins s ns family path) :
    (∃ reference, IsWritten s reference) ∨ ∃ cause, Refuses s cause := by
  by_cases foreign : ns.isSome ∧ family ≠ .outputs
  · obtain ⟨given, rfl⟩ := Option.isSome_iff_exists.mp foreign.1
    exact .inr ⟨_, .foreign begins foreign.2⟩
  have own : ns.isSome → family = .outputs := fun given =>
    Decidable.byContradiction fun other => foreign ⟨given, other⟩
  by_cases nameless : ns = some ""
  · subst nameless
    cases own rfl
    exact .inr ⟨_, .nameless begins⟩
  have allowed := isAllowed_iff.mpr ⟨foreign, nameless⟩
  obtain ⟨parts, isPath⟩ := exists_isPath path
  by_cases wrong : parts.length < 2 ∨ mostSegments family < parts.length
  · exact .inr ⟨_, .count begins allowed isPath wrong⟩
  rw [not_or, Nat.not_lt, Nat.not_lt] at wrong
  by_cases empty : "" ∈ parts
  · exact .inr ⟨_, .empty begins allowed isPath wrong.1 wrong.2 empty⟩
  obtain ⟨reference, made⟩ := exists_ofSegments ns wrong.1 wrong.2
  have names : ∀ part ∈ parts, IsSegment part := fun part member =>
    ⟨fun same => empty (same ▸ member), isPath.plain part member⟩
  rw [isPath.joined] at begins
  exact .inl ⟨reference, (isWritten_ofSegments made own).mpr ⟨begins, allowed, names⟩⟩

theorem parse_cases (s : String) :
    (∃ reference, IsWritten s reference ∧ parse s = .ok (some reference)) ∨
      (∃ cause, Refuses s cause ∧ parse s = Result.fail cause) ∨
      (∀ ns family path, ¬ Begins s ns family path) ∧ parse s = .ok none := by
  by_cases begins : ∃ ns family path, Begins s ns family path
  · obtain ⟨ns, family, path, begins⟩ := begins
    rcases isWritten_or_refuses begins with ⟨reference, written⟩ | ⟨cause, refuses⟩
    · exact .inl ⟨reference, written, parse_of_isWritten written⟩
    · exact .inr (.inl ⟨cause, refuses, parse_of_refuses refuses⟩)
  · simp only [not_exists] at begins
    exact .inr (.inr ⟨begins, parse_of_not_begins begins⟩)

/-- A text is parsed as a reference if and only if the grammar writes the reference so. It is
refused for a cause if and only if it begins like a reference and the grammar excludes it for that.
It is a literal if and only if no family with a slash stands behind its first pair of colons, or at
its beginning if it has none; just these texts do not count as references. -/
theorem parse_exact (s : String) :
    (∀ reference, parse s = .ok (some reference) ↔ IsWritten s reference) ∧
    (∀ failure, parse s = .error failure ↔
      ∃ cause, failure = .resolution cause ∧ Refuses s cause) ∧
    (parse s = .ok none ↔ ∀ ns family path, ¬ Begins s ns family path) ∧
    (isReference s = false ↔ ∀ ns family path, ¬ Begins s ns family path) := by
  refine ⟨fun reference => ⟨fun parsed => ?_, parse_of_isWritten⟩,
    fun failure => ⟨fun fails => ?_, ?_⟩, ⟨fun parsed => ?_, parse_of_not_begins⟩, ?_⟩
  · rcases parse_cases s with ⟨other, written, parses⟩ | ⟨cause, -, parses⟩ | ⟨-, parses⟩
    · cases parsed.symm.trans parses
      exact written
    · cases parsed.symm.trans parses
    · cases parsed.symm.trans parses
  · rcases parse_cases s with ⟨other, -, parses⟩ | ⟨cause, refuses, parses⟩ | ⟨-, parses⟩
    · cases fails.symm.trans parses
    · cases fails.symm.trans parses
      exact ⟨cause, rfl, refuses⟩
    · cases fails.symm.trans parses
  · rintro ⟨cause, rfl, refuses⟩
    exact parse_of_refuses refuses
  · rcases parse_cases s with ⟨other, -, parses⟩ | ⟨cause, -, parses⟩ | ⟨literal, -⟩
    · cases parsed.symm.trans parses
    · cases parsed.symm.trans parses
    · exact literal
  · rw [← Bool.not_eq_true, isReference_iff]
    simp only [not_exists]

/-- Of three colons the first two divide the text, so no family stands behind them. -/
example : parse "a:::outputs/x/y" = .ok none := rfl

end Reference
end WorkloadConfig
