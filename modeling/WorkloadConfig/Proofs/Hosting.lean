import Mathlib.Algebra.GroupWithZero.Nat
import WorkloadConfig.Proofs.Documents

namespace WorkloadConfig

theorem utf8ByteSize_eq_length {text : String} (ascii : ∀ c ∈ text.toList, c.utf8Size = 1) :
    text.utf8ByteSize = text.length := by
  have letters (s : List Char) (ascii : ∀ c ∈ s, c.utf8Size = 1) :
      (String.ofList s).utf8ByteSize = s.length := by
    induction s with
    | nil => rfl
    | cons c rest ih =>
      obtain ⟨first, later⟩ := List.forall_mem_cons.mp ascii
      rw [← List.singleton_append, String.ofList_append, String.utf8ByteSize_append, ih later,
        ← String.singleton_eq_ofList, String.utf8ByteSize_singleton, first, List.length_append]
      rfl
  rw [← String.length_toList, ← letters text.toList ascii, String.ofList_toList]

namespace DnsLabel

theorem utf8Size_eq_one (label : DnsLabel) {c : Char} (member : c ∈ label.text.toList) :
    c.utf8Size = 1 := by
  rw [Char.utf8Size_eq_one_iff]
  rcases isLabelChar_or_hyphen label.valid member with inside | rfl
  · simp only [isLabelChar, Char.isDigit, Bool.or_eq_true, Bool.and_eq_true,
      decide_eq_true_eq] at inside
    rcases inside with ⟨-, letter⟩ | ⟨-, digit⟩
    · exact UInt32.le_trans letter (by decide)
    · exact UInt32.le_trans digit (by decide)
  · decide

theorem utf8ByteSize_le (label : DnsLabel) : label.text.utf8ByteSize ≤ 63 := by
  rw [utf8ByteSize_eq_length fun _ member => label.utf8Size_eq_one member]
  exact label.short

theorem noNul (label : DnsLabel) : label.text.toList.contains '\x00' = false := by
  simpa using label.not_mem_of_outside (c := '\x00') (by decide) (by decide)

end DnsLabel

theorem Location.length_below (l : Location) (names : List String) :
    (l.below names).length = l.length + (names.map (·.utf8ByteSize + 1)).sum := by
  simp only [length, below, List.map_append, ← List.sum_eq_foldl, List.sum_append]
  exact (Nat.add_assoc _ _ _).symm

theorem Location.keep_below (l : Location) (names : List String) {k : Nat}
    (within : k ≤ l.segments.length) : (l.below names).keep k = l.keep k := by
  simp only [Location.keep, Location.below, List.take_append_of_le_length within]

namespace FileTree

theorem walk_append (t : FileTree) (here : Place) (names more : List String) :
    t.walk here (names ++ more) = t.walk here names >>= fun place => t.walk place more := by
  induction names generalizing here with
  | nil => rfl
  | cons name rest ih =>
    simp only [List.cons_append, walk]
    split
    · rfl
    · rfl
    · split
      · split
        · rfl
        · exact ih _
      · split
        · rfl
        · exact ih _

theorem placeOf_below {t : FileTree} {root : Location} {place : Place} {names : List String}
    (there : t.placeOf root = .ok place) (noNul : names.any (·.toList.contains '\x00') = false)
    (short : root.length + (names.map (·.utf8ByteSize + 1)).sum ≤ longestPath) :
    t.placeOf (root.below names) = match t.walk place names with
      | .ok inner => .ok inner
      | .error refusal => refuse refusal (root.below names) := by
  obtain ⟨rootNoNul, -, inTree, walked⟩ := placeOf_eq_ok.mp there
  have clean : (root.below names).hasNul = false := by
    simp only [Location.hasNul, Location.below, List.any_append, noNul, Bool.or_false] at rootNoNul ⊢
    exact rootNoNul
  have within : ¬ longestPath < (root.below names).length := by
    rw [Location.length_below]
    omega
  have inside : (root.below names).base ≠ "" := inTree
  rw [placeOf, clean, if_neg (by decide), if_neg within, if_neg inside]
  simp only [Location.below, walk_append, walked]
  rfl

end FileTree

/-- The endings of the names of the files that a record has: its document, lock and backup. -/
def recordSuffixes : List String := ["", ".lock", ".backup"]

/-- The name of a file in the directory of a namespace for which every path below the root has room. -/
structure FitsBeside (file : String) : Prop where
  clean : file.toList.contains '\x00' = false
  short : file.utf8ByteSize ≤ 80
  notParent : file ≠ ".."

namespace FitsBeside
variable {file : String} (fits : FitsBeside file) (ns : DnsLabel)
include fits

theorem noNul_names : [ns.text, file].any (·.toList.contains '\x00') = false := by
  rw [List.any_cons, List.any_cons, ns.noNul, fits.clean]
  rfl

theorem sum_sizes_le : ([ns.text, file].map (·.utf8ByteSize + 1)).sum ≤ 145 := by
  have size := ns.utf8ByteSize_le
  have fileSize := fits.short
  simp only [List.map_cons, List.map_nil, List.sum_cons, List.sum_nil]
  omega

end FitsBeside

namespace Draw
variable (draw : Draw)

theorem utf8Size_eq_one {c : Char} (member : c ∈ draw.text.toList) : c.utf8Size = 1 := by
  have drawn := List.all_eq_true.mp (Bool.and_eq_true_iff.mp draw.valid).2 c member
  rw [Char.utf8Size_eq_one_iff]
  simp only [isDrawnChar, Bool.or_eq_true, decide_eq_true_eq] at drawn
  rcases drawn with (letter | digit) | rfl
  · exact UInt32.le_trans (of_decide_eq_true (Bool.and_eq_true_iff.mp letter).2) (by decide)
  · exact UInt32.le_trans (of_decide_eq_true (Bool.and_eq_true_iff.mp digit).2) (by decide)
  · decide

theorem utf8ByteSize_eq : draw.text.utf8ByteSize = 8 := by
  rw [utf8ByteSize_eq_length fun _ member => draw.utf8Size_eq_one member]
  simpa using (Bool.and_eq_true_iff.mp draw.valid).1

theorem noNul : draw.text.toList.contains '\x00' = false := by
  rw [List.contains_eq_mem, decide_eq_false_iff_not]
  intro member
  have drawn := List.all_eq_true.mp (Bool.and_eq_true_iff.mp draw.valid).2 _ member
  exact absurd drawn (by decide)

end Draw

namespace DnsLabel
variable (name : DnsLabel)

theorem fits_file {suffix : String} (within : suffix ∈ recordSuffixes) :
    FitsBeside (name.text ++ ".json" ++ suffix) := by
  have endings : ∀ suffix ∈ recordSuffixes, (".json" ++ suffix).toList.contains '\x00' = false ∧
    (".json" ++ suffix).utf8ByteSize ≤ 12 ∧ '/' ∉ (".json" ++ suffix).toList := by decide
  obtain ⟨clean, short, plain⟩ := endings suffix within
  have size := name.utf8ByteSize_le
  rw [String.append_assoc]
  refine ⟨?_, ?_, (name.isName_append _ plain).notParent⟩
  · rw [String.toList_append, List.contains_append, name.noNul, clean]
    rfl
  · rw [String.utf8ByteSize_append]
    omega

/-- Drafts are hidden, files of records are not. -/
theorem file_ne_draft (suffix last : String) (draw : Draw) :
    name.text ++ ".json" ++ suffix ≠ "." ++ last ++ "." ++ draw.text := by
  intro same
  have starts := name.head?_ne_dot (".json" ++ suffix)
  rw [← String.append_assoc, same] at starts
  exact starts (by simp)

theorem fits_draft (draw : Draw) :
    FitsBeside ("." ++ (name.text ++ ".json" ++ "") ++ "." ++ draw.text) := by
  have fits : FitsBeside (name.text ++ ".json" ++ "") := name.fits_file (by decide)
  have size := name.utf8ByteSize_le
  refine ⟨?_, ?_, fun same => ?_⟩
  · simp only [String.toList_append, List.contains_append, draw.noNul, name.noNul]
    rfl
  · simp only [String.utf8ByteSize_append, draw.utf8ByteSize_eq]
    have ending : ".".utf8ByteSize + ".json".utf8ByteSize + "".utf8ByteSize + ".".utf8ByteSize = 7 := rfl
    omega
  · have length := Location.length_draft (name.text ++ ".json" ++ "") draw
    rw [same, show "..".length = 2 from rfl] at length
    omega

end DnsLabel

/-- What may stand below the root: directories of namespaces, and in them files of records. -/
inductive Stored : List String → Node → Prop
  | directory (ns : DnsLabel) : Stored [ns.text] .directory
  | file (ns name : DnsLabel) {suffix : String} (text : String) : suffix ∈ recordSuffixes →
      Stored [ns.text, name.text ++ ".json" ++ suffix] (.file text)

theorem Stored.of_single {n : String} {node : Node} (stored : Stored [n] node) :
    ∃ ns : DnsLabel, n = ns.text ∧ node = .directory := by
  generalize names : [n] = parts at stored
  cases stored with
  | directory ns => exact ⟨ns, (List.cons.inj names).1, rfl⟩
  | file => simp at names

theorem Stored.of_pair {n file : String} {node : Node} (stored : Stored [n, file] node) :
    ∃ ns name : DnsLabel, ∃ suffix ∈ recordSuffixes, ∃ text, n = ns.text ∧
      file = name.text ++ ".json" ++ suffix ∧ node = .file text := by
  generalize names : [n, file] = parts at stored
  cases stored with
  | directory => simp at names
  | file ns name text within =>
    simp only [List.cons.injEq, and_true] at names
    exact ⟨ns, name, _, within, text, names.1, names.2, rfl⟩

namespace FileTree
variable {t t' : FileTree} {root : Location} {place : Place}

theorem makeDown_below (names : List String) {n : Nat} (within : n ≤ root.segments.length) :
    makeDown (root.below names) n t = makeDown root n t := by
  induction n generalizing t with
  | zero => simp only [makeDown, Location.keep_below root names within]
  | succ n ih => simp only [makeDown, Location.keep_below root names within, ih (by omega)]

/-- A directory below another is made after the other where it cannot be made at once. -/
theorem makeDirectories_below (name : String) : t.makeDirectories (root.below [name]) =
    match t.makeDirectory (root.below [name]) with
    | .error (.file ⟨.notFound, _⟩) => match t.makeDirectories root with
      | (.ok _, t) => match t.makeDirectory (root.below [name]) with
        | .error (.file ⟨.notFound, path⟩) => (.error (.file ⟨.notFound, path⟩), t)
        | outcome => t.settle (root.below [name]) outcome
      | failed => failed
    | outcome => t.settle (root.below [name]) outcome := by
  have length : (root.below [name]).segments.length = root.segments.length + 1 := by
    simp [Location.below]
  have whole := (root.below [name]).keep_self
  rw [length] at whole
  have above : makeDown (root.below [name]) root.segments.length t = t.makeDirectories root :=
    makeDown_below [name] (Nat.le_refl _)
  rw [makeDirectories, length, makeDown, whole]
  exact above ▸ rfl

/-- The root is a directory, nothing but what belongs to records stands below it, and no path to
their files is too long. -/
structure Hosts (t : FileTree) (root : Location) (place : Place) : Prop where
  there : t.placeOf root = .ok place
  directory : t.node? place = some .directory
  short : root.length + 150 ≤ longestPath
  stored : ∀ names node, names ≠ [] → t.node? (place ++ names) = some node → Stored names node
  parents : ∀ ns file, t.node? (place ++ [ns, file]) ≠ none →
    t.node? (place ++ [ns]) = some .directory

/-- The directory of the namespace is there as well. -/
structure HostsIn (t : FileTree) (root : Location) (place : Place) (ns : DnsLabel) : Prop
    extends t.Hosts root place where
  opened : t.node? (place ++ [ns.text]) = some .directory

namespace Hosts
variable (hosts : t.Hosts root place) (ns name : DnsLabel) {suffix : String}
include hosts

/-- Where a namespace could have its directory, there is it or nothing. -/
theorem node?_ns : t.node? (place ++ [ns.text]) = none ∨
    t.node? (place ++ [ns.text]) = some .directory := by
  cases node : t.node? (place ++ [ns.text]) with
  | none => exact .inl rfl
  | some node' =>
    obtain ⟨-, -, rfl⟩ := (hosts.stored [ns.text] node' (by simp) node).of_single
    exact .inr rfl

theorem node?_file (file : String) : t.node? (place ++ [ns.text, file]) ≠ some .directory := by
  intro directory
  obtain ⟨_, _, _, _, _, _, _, same⟩ :=
    (hosts.stored [ns.text, file] .directory (by simp) directory).of_pair
  cases same

theorem placeOf_ns : t.placeOf (root.below [ns.text]) = .ok (place ++ [ns.text]) := by
  have size := ns.utf8ByteSize_le
  have short := hosts.short
  have fits : ¬ longestName < ns.text.utf8ByteSize := by
    unfold longestName
    omega
  rw [placeOf_below hosts.there (by simpa using ns.noNul) (by simp; omega)]
  simp only [walk, hosts.directory, ns.isName.notParent, if_false, fits]

theorem placeOf_beside {file : String} (fits : FitsBeside file) :
    t.placeOf (root.below [ns.text, file]) = match t.node? (place ++ [ns.text]) with
      | some _ => .ok (place ++ [ns.text, file])
      | none => refuse .notFound (root.below [ns.text, file]) := by
  have nsFits : ¬ longestName < ns.text.utf8ByteSize := by
    have size := ns.utf8ByteSize_le
    unfold longestName
    omega
  have fileFits : ¬ longestName < file.utf8ByteSize := by
    have size := fits.short
    unfold longestName
    omega
  have sizes := fits.sum_sizes_le ns
  have short := hosts.short
  rw [placeOf_below hosts.there (fits.noNul_names ns) (by omega)]
  simp only [walk, hosts.directory, ns.isName.notParent, if_false, nsFits]
  rcases hosts.node?_ns ns with missing | opened
  · simp only [missing]
  · simp only [opened, fits.notParent, fileFits, if_false, List.append_assoc, List.cons_append,
      List.nil_append]

/-- No draft is among what is stored. -/
theorem node?_draft (draw : Draw) :
    t.node? (place ++ [ns.text, "." ++ (name.text ++ ".json" ++ "") ++ "." ++ draw.text]) = none := by
  refine Option.eq_none_iff_forall_ne_some.mpr fun node found => ?_
  obtain ⟨_, name', suffix, -, _, -, same, -⟩ := (hosts.stored _ node (by simp) found).of_pair
  exact name'.file_ne_draft suffix _ draw same.symm

/-- A tree with the same nodes hosts the same. -/
theorem of_node?_eq (same : ∀ other, t'.node? other = t.node? other) : t'.Hosts root place := by
  have keeps : Keeps (fun _ => True) t t' :=
    ⟨fun other directory => (same other).trans directory, fun _ apart => absurd trivial apart⟩
  refine ⟨keeps.placeOf hosts.there, (same place).trans hosts.directory, hosts.short, ?_, ?_⟩
  · intro names node given found
    exact hosts.stored names node given ((same _).symm.trans found)
  · intro ns file found
    rw [same] at found ⊢
    exact hosts.parents ns file found

/-- What belongs to records may be put where there is no directory. -/
theorem put {names : List String} {node : Node} (stored : Stored names node)
    (free : t.node? (place ++ names) ≠ some .directory)
    (parent : ∀ ns file, names = [ns, file] → t.node? (place ++ [ns]) = some .directory) :
    ({ t with nodes := t.nodes.put (place ++ names) node } : FileTree).Hosts root place := by
  have nodes := fun other => t.node?_put (place ++ names) other node free
  have keeps : Keeps (fun _ => True) t { t with nodes := t.nodes.put (place ++ names) node } := by
    refine ⟨fun other directory => ?_, fun _ apart => absurd trivial apart⟩
    rw [nodes other, if_neg, directory]
    rintro rfl
    exact free directory
  refine ⟨keeps.placeOf hosts.there, keeps.directories place hosts.directory, hosts.short, ?_, ?_⟩
  · intro others node' given found
    rw [nodes] at found
    split at found
    · rename_i same
      cases List.append_cancel_left same
      cases found
      exact stored
    · exact hosts.stored others node' given found
  · intro ns file found
    refine keeps.directories _ ?_
    rw [nodes] at found
    split at found
    · rename_i same
      exact parent ns file (List.append_cancel_left same).symm
    · exact hosts.parents ns file found

/-- The directory of a namespace is made if it is not there. -/
theorem makeDirectory : ∃ t', t'.HostsIn root place ns ∧ t'.locked = t.locked ∧
    (t.makeDirectory (root.below [ns.text]) = .ok t' ∨
      t' = t ∧ t.makeDirectory (root.below [ns.text]) = refuse .alreadyThere (root.below [ns.text])) := by
  have there := hosts.placeOf_ns ns
  have noNul : (root.below [ns.text]).hasNul = false := (placeOf_eq_ok.mp there).1
  rcases hosts.node?_ns ns with missing | opened
  · have free : t.node? (place ++ [ns.text]) ≠ some .directory := by simp [missing]
    refine ⟨{ t with nodes := t.nodes.put (place ++ [ns.text]) .directory },
      ⟨hosts.put (.directory ns) free (by simp), ?_⟩, rfl, .inl ?_⟩
    · rw [t.node?_put _ _ _ free, if_pos rfl]
    · simp only [FileTree.makeDirectory, noNul, there, Result.ok_bind, missing]
      rfl
  · refine ⟨t, ⟨hosts, opened⟩, rfl, .inr ⟨rfl, ?_⟩⟩
    simp only [FileTree.makeDirectory, noNul, there, Result.ok_bind, opened]
    rfl

theorem makeDirectories : ∃ t', t.makeDirectories (root.below [ns.text]) = (.ok (), t') ∧
    t'.HostsIn root place ns ∧ t'.locked = t.locked := by
  obtain ⟨t', inMade, locked, made | ⟨rfl, already⟩⟩ := hosts.makeDirectory ns
  · refine ⟨t', ?_, inMade, locked⟩
    rw [makeDirectories_below, made]
    rfl
  · have there : t'.isDirectory (root.below [ns.text]) = true :=
      isDirectory_iff.mpr ⟨_, hosts.placeOf_ns ns, inMade.opened⟩
    exact ⟨t', makeDirectories_of_isDirectory there, inMade, locked⟩

end Hosts

namespace HostsIn
variable {ns : DnsLabel} (hosts : t.HostsIn root place ns) (name : DnsLabel) {suffix : String}
variable (within : suffix ∈ recordSuffixes)
include hosts within

theorem placeOf_file : t.placeOf (root.below [ns.text, name.text ++ ".json" ++ suffix]) =
    .ok (place ++ [ns.text, name.text ++ ".json" ++ suffix]) := by
  rw [hosts.toHosts.placeOf_beside ns (name.fits_file within), hosts.opened]

theorem write (text : String) :
    ∃ t', t.write (root.below [ns.text, name.text ++ ".json" ++ suffix]) text = .ok t' ∧
      t'.HostsIn root place ns ∧ t'.locked = t.locked := by
  have free := hosts.node?_file ns (name.text ++ ".json" ++ suffix)
  have nodes := t.node?_put (place ++ [ns.text, name.text ++ ".json" ++ suffix])
    (place ++ [ns.text]) (.file text) free
  refine ⟨{ t with
    nodes := t.nodes.put (place ++ [ns.text, name.text ++ ".json" ++ suffix]) (.file text) },
    ?_, ⟨?_, ?_⟩, rfl⟩
  · simp only [FileTree.write, hosts.placeOf_file name within, Result.ok_bind]
  · refine hosts.toHosts.put (.file ns name text within) free ?_
    rintro _ _ ⟨⟩
    exact hosts.opened
  · rw [nodes, if_neg (by simp), hosts.opened]

theorem touch : ∃ t', t.touch (root.below [ns.text, name.text ++ ".json" ++ suffix]) = .ok t' ∧
    t'.HostsIn root place ns ∧ t'.locked = t.locked := by
  simp only [FileTree.touch, hosts.placeOf_file name within, Result.ok_bind]
  split
  · exact ⟨t, rfl, hosts, rfl⟩
  · exact hosts.write name within ""

end HostsIn

/-- The text of a file of a record, where it has one. -/
theorem Hosts.read_eq (hosts : t.Hosts root place) (ns name : DnsLabel) {suffix : String}
    (within : suffix ∈ recordSuffixes) :
    t.read (root.below [ns.text, name.text ++ ".json" ++ suffix]) =
      match t.text? (place ++ [ns.text, name.text ++ ".json" ++ suffix]) with
      | some text => .ok text
      | none => refuse .notFound (root.below [ns.text, name.text ++ ".json" ++ suffix]) := by
  have there := hosts.placeOf_beside ns (name.fits_file within)
  have notDirectory := hosts.node?_file ns (name.text ++ ".json" ++ suffix)
  rcases hosts.node?_ns ns with missing | opened
  · have nothing : t.node? (place ++ [ns.text, name.text ++ ".json" ++ suffix]) = none :=
      Decidable.byContradiction fun some => by simpa [missing] using hosts.parents _ _ some
    rw [missing] at there
    simp only [read, there, text?, nothing]
    rfl
  · rw [opened] at there
    simp only [read, there, text?, Result.ok_bind]
    split
    · rename_i text file
      simp only [file]
    · rename_i directory
      exact absurd directory notDirectory
    · rename_i nothing
      simp only [nothing]

theorem isDirectory_of_refused {f : Failure} (refused : t.makeDirectory root = .error f)
    (notMissing : ∀ path, f ≠ .file ⟨.notFound, path⟩)
    (made : (t.makeDirectories root).1 = .ok ()) : t.isDirectory root = true := by
  rw [makeDirectories_of_refused refused notMissing] at made
  unfold settle at made
  split at made
  · rename_i impossible
    cases impossible
  · split at made
    · assumption
    · cases made
  · cases made

theorem placeOf_below_missing {names : List String} {path : String}
    (missing : t.placeOf root = .error (.file ⟨.notFound, path⟩))
    (clean : names.any (·.toList.contains '\x00') = false)
    (short : root.length + (names.map (·.utf8ByteSize + 1)).sum ≤ longestPath) :
    t.placeOf (root.below names) = refuse .notFound (root.below names) := by
  have inside : (root.below names).hasNul = (root.hasNul || names.any (·.toList.contains '\x00')) :=
    List.any_append
  have within : ¬ longestPath < (root.below names).length := by
    rw [Location.length_below]
    omega
  have base : (root.below names).base = root.base := rfl
  have segments : (root.below names).segments = root.segments ++ names := rfl
  unfold placeOf at missing ⊢
  split at missing
  · cases missing
  · rename_i noNul
    rw [inside, clean, Bool.or_false, if_neg noNul, if_neg within, base, segments, walk_append]
    split at missing
    · cases missing
    · split at missing
      · rename_i rootless
        exact if_pos rootless
      · rename_i inTree
        rw [if_neg inTree]
        cases walked : t.walk [] root.segments with
        | ok place => simp [walked] at missing
        | error refusal =>
          simp only [walked, refuse, Except.error.injEq, Failure.file.injEq] at missing
          cases missing
          rfl

/-- Below a directory that is still to be made there is nothing. -/
theorem isDirectory_or_missing (made : (t.makeDirectories root).1 = .ok ()) :
    t.isDirectory root = true ∨ ∀ names, names ≠ [] →
      names.any (·.toList.contains '\x00') = false →
      root.length + (names.map (·.utf8ByteSize + 1)).sum ≤ longestPath →
      t.placeOf (root.below names) = refuse .notFound (root.below names) := by
  cases there : t.placeOf root with
  | ok place =>
    cases node : t.node? place with
    | none =>
      refine .inr fun names given clean short => ?_
      obtain ⟨name, rest, rfl⟩ := List.exists_cons_of_ne_nil given
      rw [placeOf_below there clean short, walk, node]
    | some node' =>
      left
      refine isDirectory_of_refused (f := .file ⟨.alreadyThere, root.text⟩) ?_ (by simp) made
      have noNul := (placeOf_eq_ok.mp there).1
      simp only [makeDirectory, noNul, there, Result.ok_bind, node]
      rfl
  | error f =>
    cases noNul : root.hasNul with
    | true =>
      have refused : t.makeDirectory root = .error (.nulInPath true) := by
        rw [makeDirectory, noNul, if_pos rfl]
      exact .inl (isDirectory_of_refused refused (by simp) made)
    | false =>
      have refused : t.makeDirectory root = .error f := by
        simp only [makeDirectory, noNul, there]
        rfl
      by_cases missing : ∃ path, f = .file ⟨.notFound, path⟩
      · obtain ⟨path, rfl⟩ := missing
        exact .inr fun names _ clean short => placeOf_below_missing there clean short
      · exact .inl (isDirectory_of_refused refused (fun path same => missing ⟨path, same⟩) made)

/-- Making the directory of a namespace makes the root if it is not there. -/
theorem Hosts.makeDirectories_of_made (hosts : t'.Hosts root place) (ns : DnsLabel)
    (made : t.makeDirectories root = (.ok (), t')) :
    t.makeDirectories (root.below [ns.text]) = t'.makeDirectories (root.below [ns.text]) := by
  rcases isDirectory_or_missing (congrArg Prod.fst made) with there | missing
  · rw [makeDirectories_of_isDirectory there] at made
    rw [(Prod.mk.inj made).2]
  · have noNul := (placeOf_eq_ok.mp (hosts.placeOf_ns ns)).1
    have size := ns.utf8ByteSize_le
    have short := hosts.short
    have nowhere := missing [ns.text] (by simp) (by simpa using ns.noNul) (by simp; omega)
    have refused : t.makeDirectory (root.below [ns.text]) = refuse .notFound (root.below [ns.text]) := by
      simp only [FileTree.makeDirectory, noNul, nowhere]
      rfl
    rw [makeDirectories_below, makeDirectories_below, refused, made]
    dsimp only [refuse]
    obtain ⟨t'', -, -, makes | ⟨rfl, already⟩⟩ := hosts.makeDirectory ns
    · rw [makes]
    · rw [already]
      rfl

end FileTree

end WorkloadConfig
