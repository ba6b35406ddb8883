import Mathlib.Data.List.DropRight
import WorkloadConfig.Proofs.Json.Scalars
import WorkloadConfig.Proofs.Order.Values

namespace WorkloadConfig

/-- A value that JSON has a form for, and that comes back from it. -/
inductive Value.IsJson : Value → Prop
  | scalar {s : Scalar} : Json.Holds s → IsJson (.scalar s)
  | list {items : List Value} : (∀ v ∈ items, IsJson v) → IsJson (.list items)
  | map {entries : List (Key × Value)} : (∀ key ∈ Table.keys entries, key.isText = true) →
      (Table.keys entries).Nodup → (∀ entry ∈ entries, IsJson entry.2) → IsJson (.map entries)

namespace Json

theorem skip_skip (s : List Char) : skip (skip s) = skip s :=
  List.dropWhile_idempotent _ s

theorem skip_append {gap : List Char} (blank : ∀ c ∈ gap, isBlank c = true) (s : List Char) :
    skip (gap ++ s) = skip s :=
  List.dropWhile_append_of_pos blank

theorem ends_append {gap : List Char} (blank : ∀ c ∈ gap, isBlank c = true) {rest : List Char}
    (ends : Ends rest) : Ends (gap ++ rest) := by
  cases gap with
  | nil => exact ends
  | cons c _ =>
    rintro _ ⟨⟩
    refine Bool.eq_false_iff.mpr fun ofWord => ?_
    have visible := not_isBlank_of_isWordChar ofWord
    rw [blank c List.mem_cons_self] at visible
    cases visible

theorem ends_cons {c : Char} (outside : isWordChar c = false) (rest : List Char) :
    Ends (c :: rest) := by
  rintro _ ⟨⟩
  exact outside

-- A reader passes over the blanks in front.

theorem value?_skip (fuel : Nat) (s : List Char) : value? fuel (skip s) = value? fuel s := by
  cases fuel with
  | zero => rfl
  | succ fuel => simp only [value?, skip_skip]

theorem items?_skip (fuel : Nat) (s : List Char) : items? fuel (skip s) = items? fuel s := by
  cases fuel with
  | zero => rfl
  | succ fuel => simp only [items?, value?_skip]

theorem members?_skip (fuel : Nat) (s : List Char) : members? fuel (skip s) = members? fuel s := by
  cases fuel with
  | zero => rfl
  | succ fuel => simp only [members?, skip_skip]

section
variable {gap : List Char} (blank : ∀ c ∈ gap, isBlank c = true) (fuel : Nat) (s : List Char)
include blank

theorem value?_append : value? fuel (gap ++ s) = value? fuel s := by
  rw [← value?_skip, skip_append blank, value?_skip]

theorem items?_append : items? fuel (gap ++ s) = items? fuel s := by
  rw [← items?_skip, skip_append blank, items?_skip]

theorem members?_append : members? fuel (gap ++ s) = members? fuel s := by
  rw [← members?_skip, skip_append blank, members?_skip]

end

section
variable {fuel : Nat} {s rest : List Char}

theorem value?_list {items : List Value} (read : items? fuel s = some (items, rest)) :
    value? (fuel + 1) ('[' :: s) = some (.list items, rest) := by
  have closed (r : List Char) : items? fuel (']' :: r) = none := by
    match fuel with
    | 0 => rfl
    | 1 => rfl
    | _ + 2 => rfl
  rw [← items?_skip] at read
  simp only [value?, skip_cons (show isBlank '[' = false by decide)]
  split
  · rename_i closes
    rw [closes, closed] at read
    cases read
  · rw [read]
    rfl

theorem value?_map {entries : List (Key × Value)} (read : members? fuel s = some (entries, rest)) :
    value? (fuel + 1) ('\x7b' :: s) = some (.map entries, rest) := by
  have closed (r : List Char) : members? fuel ('\x7d' :: r) = none := by
    match fuel with
    | 0 => rfl
    | _ + 1 => rfl
  rw [← members?_skip] at read
  simp only [value?, skip_cons (show isBlank '\x7b' = false by decide)]
  split
  · rename_i closes
    rw [closes, closed] at read
    cases read
  · rw [read]
    rfl

end

namespace Style
variable {style : Style}

/-- The signs of the style are set apart from what follows by blanks only. -/
structure IsLegible (style : Style) : Prop where
  colon : ∃ gap, style.colon.toList = ':' :: gap ∧ ∀ c ∈ gap, isBlank c = true
  comma : ∃ gap, style.comma.toList = ',' :: gap ∧ ∀ c ∈ gap, isBlank c = true

theorem isBlank_line (style : Style) (depth : Nat) :
    ∀ c ∈ (style.line depth).toList, isBlank c = true := by
  unfold line
  split
  · rw [String.toList_ofList]
    refine List.forall_mem_cons.mpr ⟨rfl, fun c member => ?_⟩
    cases List.eq_of_mem_replicate member
    rfl
  · simp

/-- The entries in the order that the style writes them in. -/
def inOrder {α : Type} (style : Style) (entries : List (Key × α)) : List (Key × α) :=
  if style.sorted then Sorting.sort (fun a b => a.1.le b.1) entries else entries

/-- The value as the style shows it. -/
def ordered (style : Style) (v : Value) : Value :=
  if style.sorted then v.sortKeys else v

theorem ordered_scalar (style : Style) (s : Scalar) : style.ordered (.scalar s) = .scalar s := by
  unfold ordered
  split <;> rfl

theorem ordered_list (style : Style) (items : List Value) :
    style.ordered (.list items) = .list (items.map style.ordered) := by
  unfold ordered
  split
  · rw [Value.sortKeys, Value.sortKeysItems_eq]
  · simp

theorem inOrder_mapValues {α β : Type} (style : Style) (entries : List (Key × α)) (f : α → β) :
    style.inOrder (Table.mapValues entries f) = Table.mapValues (style.inOrder entries) f := by
  unfold inOrder
  split
  · exact Sorting.sort_map _ _ entries
  · rfl

theorem inOrder_perm {α : Type} (style : Style) (entries : List (Key × α)) :
    (style.inOrder entries).Perm entries := by
  unfold inOrder
  split
  · exact Sorting.sort_perm _ entries
  · exact .refl _

theorem ordered_map (style : Style) (entries : List (Key × Value)) :
    style.ordered (.map entries) =
      .map (Table.mapValues (style.inOrder entries) style.ordered) := by
  rw [← inOrder_mapValues]
  unfold ordered inOrder
  split
  · rw [Value.sortKeys, Value.sortKeysEntries_eq]
  · simp [Table.mapValues]

/-- An entry of a map as it is written. -/
def member (style : Style) (depth : Nat) (entry : Key × Value) : String :=
  Json.key entry.1 ++ style.colon ++ style.write depth entry.2

theorem write_list (style : Style) (depth : Nat) (items : List Value) :
    style.write depth (.list items) =
      style.enclose depth "[" "]" (items.map (style.write (depth + 1))) := by
  rw [write, Value.writeItems_eq]

theorem write_map (style : Style) (depth : Nat) (entries : List (Key × Value)) :
    style.write depth (.map entries) =
      style.enclose depth "\x7b" "\x7d" ((style.inOrder entries).map (style.member (depth + 1))) := by
  have arranged (written : List (Key × String)) : style.arrange written = style.inOrder written := rfl
  rw [write, Value.writeEntries_eq, arranged, inOrder_mapValues, Table.mapValues, List.map_map]
  rfl

/-- What is written of the value is read as the value, wherever it stands. -/
def Reads (style : Style) (v : Value) : Prop :=
  ∀ depth fuel rest, Ends rest → (style.write depth v).length < fuel →
    value? fuel ((style.write depth v).toList ++ rest) = some (style.ordered v, rest)

/-- The parts with a comma and a fresh line between them. -/
def joined (style : Style) (depth : Nat) (parts : List String) : String :=
  (style.comma ++ style.line depth).intercalate parts

theorem joined_cons_cons (style : Style) (depth : Nat) (part other : String) (parts : List String) :
    style.joined depth (part :: other :: parts) =
      part ++ (style.comma ++ style.line depth) ++ style.joined depth (other :: parts) :=
  String.intercalate_cons_cons

section
variable (legible : style.IsLegible) {depth fuel : Nat} {gap rest : List Char}
variable (blank : ∀ c ∈ gap, isBlank c = true)
include legible blank

theorem items?_joined {v : Value} {more : List Value} (reads : ∀ w ∈ v :: more, style.Reads w)
    (enough : (style.joined depth ((v :: more).map (style.write depth))).length + 1 < fuel) :
    items? fuel ((style.joined depth ((v :: more).map (style.write depth))).toList ++
      (gap ++ ']' :: rest)) = some ((v :: more).map style.ordered, rest) := by
  induction more generalizing v fuel with
  | nil =>
    obtain ⟨fuel, rfl⟩ : ∃ n, fuel = n + 1 := ⟨fuel - 1, by omega⟩
    have first := reads v List.mem_cons_self
    have closes : Ends (gap ++ ']' :: rest) := ends_append blank (ends_cons (by decide) rest)
    simp only [joined, List.map_cons, List.map_nil, String.intercalate_singleton] at enough ⊢
    rw [items?, first depth fuel _ closes (by omega)]
    simp only [Option.bind_eq_bind, Option.bind_some, skip_append blank,
      skip_cons (show isBlank ']' = false by decide)]
  | cons w more ih =>
    obtain ⟨fuel, rfl⟩ : ∃ n, fuel = n + 1 := ⟨fuel - 1, by omega⟩
    obtain ⟨first, later⟩ := List.forall_mem_cons.mp reads
    obtain ⟨space, comma, blanks⟩ := legible.comma
    have long : 1 ≤ style.comma.length := by simp [← String.length_toList, comma]
    simp only [List.map_cons, joined_cons_cons, String.length_append] at enough ih ⊢
    simp only [String.toList_append, comma, List.append_assoc, List.cons_append]
    rw [items?, first depth fuel _ (ends_cons (by decide) _) (by omega)]
    have next := @ih fuel w later (by omega)
    simp only [Option.bind_eq_bind, Option.bind_some, skip_cons (show isBlank ',' = false by decide),
      items?_append blanks, items?_append (isBlank_line style depth), next, Option.map_some]

omit blank in
/-- One entry is read up to what stands behind it. -/
theorem members?_member {entry : Key × Value} (isText : entry.1.isText = true)
    (reads : style.Reads entry.2) (ends : Ends rest)
    (enough : (style.member depth entry).length < fuel) :
    members? (fuel + 1) ((style.member depth entry).toList ++ rest) =
      match skip rest with
      | ',' :: r => (members? fuel r).map fun (entries, r) =>
          ((entry.1, style.ordered entry.2) :: entries, r)
      | '\x7d' :: r => some ([(entry.1, style.ordered entry.2)], r)
      | _ => none := by
  obtain ⟨key, v⟩ := entry
  obtain ⟨text, rfl⟩ := Value.eq_str_of_isText isText
  obtain ⟨space, colon, blanks⟩ := legible.colon
  have quoted : Json.key (.str text) = string text := rfl
  simp only [member, quoted, String.length_append] at enough ⊢
  have short : (style.write depth v).length < fuel := by omega
  have value := reads depth fuel rest ends short
  simp only [String.toList_append, toList_string, colon, List.append_assoc, List.cons_append,
    List.nil_append, members?, skip_cons (show isBlank '"' = false by decide),
    skip_cons (show isBlank ':' = false by decide), stringTail?_text, Option.bind_eq_bind,
    Option.bind_some, String.ofList_toList]
  rw [value?_append blanks, value]
  rfl

theorem members?_joined {entry : Key × Value} {more : List (Key × Value)}
    (texts : ∀ other ∈ entry :: more, other.1.isText = true)
    (reads : ∀ other ∈ entry :: more, style.Reads other.2)
    (enough : (style.joined depth ((entry :: more).map (style.member depth))).length + 1 < fuel) :
    members? fuel ((style.joined depth ((entry :: more).map (style.member depth))).toList ++
      (gap ++ '\x7d' :: rest)) = some (Table.mapValues (entry :: more) style.ordered, rest) := by
  induction more generalizing entry fuel with
  | nil =>
    obtain ⟨fuel, rfl⟩ : ∃ n, fuel = n + 1 := ⟨fuel - 1, by omega⟩
    have closes : Ends (gap ++ '\x7d' :: rest) := ends_append blank (ends_cons (by decide) rest)
    simp only [joined, List.map_cons, List.map_nil, String.intercalate_singleton] at enough ⊢
    rw [members?_member legible (texts entry List.mem_cons_self) (reads entry List.mem_cons_self)
      closes (by omega), skip_append blank, skip_cons (by decide)]
    rfl
  | cons other more ih =>
    obtain ⟨fuel, rfl⟩ : ∃ n, fuel = n + 1 := ⟨fuel - 1, by omega⟩
    obtain ⟨isText, texts⟩ := List.forall_mem_cons.mp texts
    obtain ⟨first, later⟩ := List.forall_mem_cons.mp reads
    obtain ⟨space, comma, blanks⟩ := legible.comma
    have long : 1 ≤ style.comma.length := by simp [← String.length_toList, comma]
    simp only [List.map_cons, joined_cons_cons, String.length_append] at enough ih ⊢
    simp only [String.toList_append, comma, List.append_assoc, List.cons_append]
    have next := @ih fuel other texts later (by omega)
    rw [members?_member legible isText first (ends_cons (by decide) _) (by omega)]
    simp only [skip_cons (show isBlank ',' = false by decide), members?_append blanks,
      members?_append (isBlank_line style depth), next, Option.map_some]
    rfl

end

section
variable {left right : String} {l r : Char}
variable (opens : left.toList = [l]) (closes : right.toList = [r])
include opens closes

theorem toList_enclose_nil (style : Style) (depth : Nat) :
    (style.enclose depth left right []).toList = [l, r] := by
  simp [enclose, opens, closes]

theorem toList_enclose (style : Style) (depth : Nat) (part : String) (parts : List String) :
    (style.enclose depth left right (part :: parts)).toList =
      l :: ((style.line (depth + 1)).toList ++ ((style.joined (depth + 1) (part :: parts)).toList ++
        ((style.line depth).toList ++ [r]))) := by
  simp [enclose, joined, opens, closes]

theorem toList_enclose_append (style : Style) (depth : Nat) (part : String) (parts : List String)
    (rest : List Char) :
    (style.enclose depth left right (part :: parts)).toList ++ rest =
      l :: ((style.line (depth + 1)).toList ++ ((style.joined (depth + 1) (part :: parts)).toList ++
        ((style.line depth).toList ++ r :: rest))) := by
  simp [toList_enclose opens closes]

theorem length_enclose (style : Style) (depth : Nat) (part : String) (parts : List String) :
    (style.joined (depth + 1) (part :: parts)).length + 2 ≤
      (style.enclose depth left right (part :: parts)).length := by
  simp only [← String.length_toList, toList_enclose opens closes, List.length_cons,
    List.length_append, List.length_nil]
  omega

end

namespace IsLegible
variable (legible : style.IsLegible)
include legible

theorem reads_list {items : List Value} (reads : ∀ v ∈ items, style.Reads v) :
    style.Reads (.list items) := by
  have opens : "[".toList = ['['] := rfl
  have closes : "]".toList = [']'] := rfl
  rintro depth (_ | fuel) rest - enough
  · cases enough
  rw [ordered_list]
  rw [write_list] at enough ⊢
  cases items with
  | nil =>
    rw [List.map_nil, toList_enclose_nil opens closes]
    rfl
  | cons v more =>
    have longer := length_enclose opens closes style depth (style.write (depth + 1) v)
      (more.map (style.write (depth + 1)))
    rw [List.map_cons] at enough
    rw [List.map_cons, toList_enclose_append opens closes]
    refine value?_list ?_
    rw [items?_append (isBlank_line style (depth + 1))]
    exact items?_joined legible (isBlank_line style depth) reads (by rw [List.map_cons]; omega)

theorem reads_map {entries : List (Key × Value)}
    (texts : ∀ key ∈ Table.keys entries, key.isText = true)
    (reads : ∀ entry ∈ entries, style.Reads entry.2) : style.Reads (.map entries) := by
  have opens : "\x7b".toList = ['\x7b'] := rfl
  have closes : "\x7d".toList = ['\x7d'] := rfl
  have perm := style.inOrder_perm entries
  have isText : ∀ entry ∈ style.inOrder entries, entry.1.isText = true := fun entry member =>
    texts _ (List.mem_map_of_mem (perm.mem_iff.mp member))
  have reads : ∀ entry ∈ style.inOrder entries, style.Reads entry.2 := fun entry member =>
    reads entry (perm.mem_iff.mp member)
  rintro depth (_ | fuel) rest - enough
  · cases enough
  rw [ordered_map]
  rw [write_map] at enough ⊢
  cases arranged : style.inOrder entries with
  | nil =>
    rw [List.map_nil, toList_enclose_nil opens closes]
    rfl
  | cons entry more =>
    rw [arranged] at enough isText reads
    have longer := length_enclose opens closes style depth (style.member (depth + 1) entry)
      (more.map (style.member (depth + 1)))
    rw [List.map_cons] at enough
    rw [List.map_cons, toList_enclose_append opens closes]
    refine value?_map ?_
    rw [members?_append (isBlank_line style (depth + 1))]
    exact members?_joined legible (isBlank_line style depth) isText reads
      (by rw [List.map_cons]; omega)

/-- What a style writes of a value is read as the value, up to where it ends. -/
theorem reads {v : Value} (json : v.IsJson) : style.Reads v := by
  induction json with
  | scalar holds =>
    rintro depth (_ | fuel) rest ends enough
    · cases enough
    · rw [ordered_scalar]
      exact value?_scalar fuel holds ends
  | list _ ih => exact legible.reads_list ih
  | map texts _ _ ih => exact legible.reads_map texts ih

end IsLegible
end Style

/-- A document is read as the value that it was written of, with the keys in order. -/
theorem readEntries?_document {v : Value} (json : v.IsJson) :
    readEntries? (document v) = some v.sortKeys := by
  have legible : Style.document.IsLegible :=
    ⟨⟨[' '], rfl, List.all_eq_true.mp rfl⟩, ⟨[], rfl, List.all_eq_true.mp rfl⟩⟩
  have enough : (Style.document.write 0 v).length < (document v).length + 1 := by
    rw [document, String.length_append]
    omega
  have reads := legible.reads json 0 _ ['\n'] (ends_cons (by decide) []) enough
  rw [readEntries?, document, String.toList_append]
  rw [document] at reads
  rw [show "\n".toList = ['\n'] from rfl, reads]
  rfl

end Json
end WorkloadConfig
