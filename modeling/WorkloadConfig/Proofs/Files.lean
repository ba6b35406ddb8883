import WorkloadConfig.FileTree

namespace WorkloadConfig

/-- The place that names lead to from a place as far as they alone tell. -/
def Place.follow (here : Place) : List String → Option Place
  | [] => some here
  | name :: rest =>
    if name = ".." then if here = [] then none else Place.follow here.dropLast rest
    else Place.follow (here ++ [name]) rest

theorem Place.follow_append (here : Place) (names more : List String) :
    Place.follow here (names ++ more) = (Place.follow here names).bind (Place.follow · more) := by
  induction names generalizing here with
  | nil => rfl
  | cons name rest ih =>
    simp only [List.cons_append, follow]
    split
    · split
      · rfl
      · exact ih _
    · exact ih _

theorem Place.follow_of_down (here : Place) {names : List String} (down : ".." ∉ names) :
    Place.follow here names = some (here ++ names) := by
  induction names generalizing here with
  | nil => rw [Place.follow, List.append_nil]
  | cons name rest ih =>
    obtain ⟨first, later⟩ := List.ne_and_not_mem_of_not_mem_cons down
    rw [Place.follow, if_neg first.symm, ih _ later, List.append_assoc, List.singleton_append]

/-- The place of a location inside a tree, if it is in one. -/
def Location.place? (l : Location) : Option Place :=
  if l.base = "" then none else Place.follow [] l.segments

/-- The location of the names below it. -/
def Location.below (l : Location) (names : List String) : Location :=
  ⟨l.base, l.segments ++ names⟩

theorem Location.place?_below_of_down (l : Location) {names : List String} (down : ".." ∉ names) :
    (l.below names).place? = l.place?.map (· ++ names) := by
  by_cases rootless : l.base = ""
  · simp [place?, below, rootless]
  · simp only [place?, below, rootless, if_false, Place.follow_append]
    cases Place.follow [] l.segments with
    | none => rfl
    | some here => exact Place.follow_of_down here down

theorem Location.keep_self (l : Location) : l.keep l.segments.length = l := by
  rw [Location.keep, List.take_length]

namespace FileTree

def text? (t : FileTree) (place : Place) : Option String :=
  match t.node? place with
  | some (.file text) => some text
  | _ => none

/-- Every directory stays one, and texts change at the marked places only. -/
structure Keeps (marked : Place → Prop) (t t' : FileTree) : Prop where
  directories : ∀ place, t.node? place = some .directory → t'.node? place = some .directory
  texts : ∀ place, ¬ marked place → t'.text? place = t.text? place

variable {marked : Place → Prop} {t t' t'' : FileTree} {l : Location} {here place : Place}
variable {text : String}

theorem Keeps.refl (marked : Place → Prop) (t : FileTree) : Keeps marked t t :=
  ⟨fun _ directory => directory, fun _ _ => rfl⟩

theorem Keeps.trans (first : Keeps marked t t') (second : Keeps marked t' t'') :
    Keeps marked t t'' :=
  ⟨fun place directory => second.directories place (first.directories place directory),
    fun place apart => (second.texts place apart).trans (first.texts place apart)⟩

theorem Keeps.mono {more : Place → Prop} (keeps : Keeps marked t t')
    (wider : ∀ place, marked place → more place) : Keeps more t t' :=
  ⟨keeps.directories, fun place apart => keeps.texts place fun inside => apart (wider place inside)⟩

theorem node?_put (t : FileTree) (place other : Place) (node : Node)
    (below : t.node? place ≠ some .directory) :
    ({ t with nodes := t.nodes.put place node } : FileTree).node? other =
      if other = place then some node else t.node? other := by
  have inner : place ≠ [] := by
    rintro rfl
    exact below rfl
  by_cases same : other = place
  · subst same
    simp only [node?, inner, if_false, if_true, Table.find?_put_self]
  · simp only [node?, same, if_false, Table.find?_put_of_ne _ _ same]

theorem text?_eq_some : t.text? place = some text ↔ t.node? place = some (.file text) := by
  unfold text?
  split
  · rename_i found atPlace
    simp [atPlace]
  · rename_i notFile
    constructor
    · intro impossible
      cases impossible
    · intro file
      exact absurd file (notFile text)

theorem walk_follow {names : List String} (walked : t.walk here names = .ok place) :
    Place.follow here names = some place := by
  induction names generalizing here with
  | nil => exact congrArg some (Except.ok.inj walked)
  | cons name rest ih =>
    unfold walk at walked
    unfold Place.follow
    split at walked
    · cases walked
    · cases walked
    · split at walked
      · rename_i up
        rw [if_pos up]
        split at walked
        · cases walked
        · rename_i inner
          rw [if_neg inner]
          exact ih walked
      · rename_i down
        rw [if_neg down]
        split at walked
        · cases walked
        · exact ih walked

theorem placeOf_eq_ok : t.placeOf l = .ok place ↔
    l.hasNul = false ∧ l.length ≤ longestPath ∧ l.base ≠ "" ∧
      t.walk [] l.segments = .ok place := by
  unfold placeOf
  cases l.hasNul with
  | true => simp
  | false =>
    simp only [Bool.false_eq_true, if_false, true_and]
    split
    · rename_i long
      simp only [refuse, reduceCtorEq, false_iff]
      omega
    · rename_i short
      split
      · rename_i rootless
        simp [refuse, rootless]
      · rename_i inTree
        cases t.walk [] l.segments with
        | ok walked =>
          simp only [Except.ok.injEq, inTree, ne_eq, not_false_eq_true, true_and]
          exact ⟨fun same => ⟨by omega, same⟩, fun both => both.2⟩
        | error refusal => simp [refuse]

theorem place?_of_placeOf (there : t.placeOf l = .ok place) : l.place? = some place := by
  obtain ⟨-, -, inTree, walked⟩ := placeOf_eq_ok.mp there
  rw [Location.place?, if_neg inTree, walk_follow walked]

/-- Names that led to a place go on to lead there. -/
theorem Keeps.walk {names : List String} (keeps : Keeps marked t t')
    (walked : t.walk here names = .ok place) : t'.walk here names = .ok place := by
  induction names generalizing here with
  | nil => exact walked
  | cons name rest ih =>
    unfold FileTree.walk at walked ⊢
    split at walked
    · cases walked
    · cases walked
    · rename_i directory
      simp only [keeps.directories here directory]
      split at walked
      · rename_i up
        rw [if_pos up]
        split at walked
        · cases walked
        · rename_i inner
          rw [if_neg inner]
          exact ih walked
      · rename_i down
        rw [if_neg down]
        split at walked
        · cases walked
        · rename_i short
          rw [if_neg short]
          exact ih walked

theorem Keeps.placeOf (keeps : Keeps marked t t') (there : t.placeOf l = .ok place) :
    t'.placeOf l = .ok place := by
  obtain ⟨noNul, short, inTree, walked⟩ := placeOf_eq_ok.mp there
  exact placeOf_eq_ok.mpr ⟨noNul, short, inTree, keeps.walk walked⟩

theorem read_eq_ok : t.read l = .ok text ↔
    ∃ place, t.placeOf l = .ok place ∧ t.text? place = some text := by
  simp only [read, Result.bind_eq_ok, text?_eq_some]
  refine exists_congr fun place => and_congr_right fun _ => ?_
  split
  · rename_i found file
    simp [file]
  · rename_i directory
    simp [refuse, directory]
  · rename_i missing
    simp [refuse, missing]

theorem Keeps.read (keeps : Keeps marked t t') (apart : ∀ place, l.place? = some place → ¬ marked place)
    (before : t.read l = .ok text) : t'.read l = .ok text := by
  obtain ⟨place, there, holds⟩ := read_eq_ok.mp before
  refine read_eq_ok.mpr ⟨place, keeps.placeOf there, ?_⟩
  rw [keeps.texts place (apart place (place?_of_placeOf there)), holds]

/-- Writing a file changes the text at its location only. -/
theorem keeps_write (written : t.write l text = .ok t') :
    Keeps (l.place? = some ·) t t' ∧
      ∃ place, t.placeOf l = .ok place ∧ t'.text? place = some text := by
  simp only [write, Result.bind_eq_ok] at written
  obtain ⟨place, there, written⟩ := written
  split at written
  · cases written
  · rename_i notDirectory
    cases written
    have nodes := fun other => t.node?_put place other (.file text) notDirectory
    refine ⟨⟨fun other directory => ?_, fun other apart => ?_⟩, place, there, ?_⟩
    · rw [nodes other, if_neg, directory]
      rintro rfl
      exact notDirectory directory
    · have elsewhere : other ≠ place := by
        rintro rfl
        exact apart (place?_of_placeOf there)
      simp only [text?, nodes other, elsewhere, if_false]
    · simp only [text?, nodes place, if_true]

theorem keeps_touch (touched : t.touch l = .ok t') :
    Keeps (l.place? = some ·) t t' ∧
      ∃ place, t.placeOf l = .ok place ∧ t'.text? place = some ((t.text? place).getD "") := by
  simp only [touch, Result.bind_eq_ok] at touched
  obtain ⟨place, there, touched⟩ := touched
  split at touched
  · rename_i text file
    cases touched
    have holds := text?_eq_some.mpr file
    exact ⟨.refl _ t, place, there, by rw [holds]; rfl⟩
  · rename_i notFile
    obtain ⟨keeps, place', there', holds⟩ := keeps_write touched
    cases Except.ok.inj (there.symm.trans there')
    have none : t.text? place = none := by
      unfold text?
      split
      · rename_i text file
        exact absurd file (notFile text)
      · rfl
    exact ⟨keeps, place, there, by rw [holds, none]; rfl⟩

theorem keeps_makeDirectory (made : t.makeDirectory l = .ok t') : Keeps (fun _ => False) t t' := by
  unfold makeDirectory at made
  split at made
  · cases made
  · simp only [Result.bind_eq_ok] at made
    obtain ⟨place, -, made⟩ := made
    split at made
    · cases made
    · rename_i taken
      cases made
      have free : t.node? place = none := by simpa using taken
      have nodes := fun other => t.node?_put place other .directory (by simp [free])
      refine ⟨fun other directory => ?_, fun other _ => ?_⟩
      · rw [nodes other]
        split
        · rfl
        · exact directory
      · by_cases same : other = place
        · subst same
          simp only [text?, nodes other, if_true, free]
        · simp only [text?, nodes other, same, if_false]

theorem keeps_settle {outcome : Result FileTree}
    (keeps : ∀ made, outcome = .ok made → Keeps marked t made) :
    Keeps marked t (t.settle l outcome).2 := by
  unfold settle
  split
  · exact keeps _ rfl
  · exact .refl _ t
  · exact .refl _ t

theorem keeps_makeDown (l : Location) (n : Nat) (t : FileTree) :
    Keeps (fun _ => False) t (makeDown l n t).2 := by
  induction n generalizing t with
  | zero => exact keeps_settle fun _ made => keeps_makeDirectory made
  | succ n ih =>
    unfold makeDown
    dsimp only
    split
    · have above := ih t
      split
      · rename_i reached
        rw [reached] at above
        split
        · exact above
        · exact above.trans (keeps_settle fun _ made => keeps_makeDirectory made)
      · exact above
    · exact keeps_settle fun _ made => keeps_makeDirectory made

/-- Making directories changes no file, also when it does not come to an end. -/
theorem keeps_makeDirectories (t : FileTree) (l : Location) :
    Keeps (fun _ => False) t (t.makeDirectories l).2 :=
  keeps_makeDown l l.segments.length t

theorem isDirectory_iff : t.isDirectory l = true ↔
    ∃ place, t.placeOf l = .ok place ∧ t.node? place = some .directory := by
  unfold isDirectory nodeAt?
  cases t.placeOf l <;> simp

/-- Unless it is for want of a parent, a refused directory is settled at once. -/
theorem makeDirectories_of_refused {f : Failure} (refused : t.makeDirectory l = .error f)
    (notMissing : ∀ path, f ≠ .file ⟨.notFound, path⟩) :
    t.makeDirectories l = t.settle l (.error f) := by
  unfold makeDirectories
  generalize length : l.segments.length = n
  have whole : l.keep n = l := length ▸ l.keep_self
  cases n with
  | zero => rw [makeDown, whole, refused]
  | succ n =>
    rw [makeDown, whole, refused]
    split
    · rename_i missing
      exact absurd (Except.error.inj missing) (notMissing _)
    · rfl

/-- A directory that is there is not made again. -/
theorem makeDirectories_of_isDirectory (there : t.isDirectory l = true) :
    t.makeDirectories l = (.ok (), t) := by
  obtain ⟨place, atPlace, directory⟩ := isDirectory_iff.mp there
  have noNul := (placeOf_eq_ok.mp atPlace).1
  have already : t.makeDirectory l = .error (.file ⟨.alreadyThere, l.text⟩) := by
    simp only [makeDirectory, noNul, atPlace, Result.ok_bind, directory]
    rfl
  rw [makeDirectories_of_refused already (by simp), settle, there, if_pos rfl]

/-- A directory that could be made is there. -/
theorem isDirectory_of_settle {l : Location} {t' : FileTree}
    (settled : t.settle l (t.makeDirectory l) = (.ok (), t')) : t'.isDirectory l = true := by
  unfold settle at settled
  split at settled
  · rename_i made
    cases settled
    have keeps := keeps_makeDirectory made
    simp only [makeDirectory] at made
    split at made
    · cases made
    · obtain ⟨place, there, made⟩ := Result.bind_eq_ok.mp made
      split at made
      · cases made
      · rename_i nothing
        cases made
        have free : t.node? place ≠ some .directory := by
          intro directory
          simp [directory] at nothing
        exact isDirectory_iff.mpr ⟨place, keeps.placeOf there, by rw [t.node?_put _ _ _ free, if_pos rfl]⟩
  · obtain ⟨outcome, rfl⟩ := Prod.mk.inj settled
    split at outcome
    · assumption
    · cases outcome
  · cases settled

theorem isDirectory_of_makeDown {n : Nat} (within : n ≤ l.segments.length)
    (made : makeDown l n t = (.ok (), t')) : t'.isDirectory (l.keep n) = true := by
  cases n with
  | zero => exact isDirectory_of_settle made
  | succ n =>
    unfold makeDown at made
    dsimp only at made
    split at made
    · split at made
      · split at made
        · cases made
        · exact isDirectory_of_settle made
      · rename_i notMade
        exact absurd made (notMade () t')
    · exact isDirectory_of_settle made

/-- Directories that could be made are there. -/
theorem isDirectory_of_makeDirectories (made : t.makeDirectories l = (.ok (), t')) :
    t'.isDirectory l = true := by
  rw [← Location.keep_self l]
  exact isDirectory_of_makeDown (Nat.le_refl _) made

theorem keeps_lock (locked : t.lock? place = some t') : Keeps marked t t' := by
  unfold lock? at locked
  split at locked
  · cases locked
  · cases locked
    exact ⟨fun _ directory => directory, fun _ _ => rfl⟩

theorem keeps_unlock (t : FileTree) (place : Place) : Keeps marked t (t.unlock place) :=
  ⟨fun _ directory => directory, fun _ _ => rfl⟩

end FileTree
end WorkloadConfig
