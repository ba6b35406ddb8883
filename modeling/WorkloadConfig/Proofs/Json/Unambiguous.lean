import Mathlib.Data.Set.Function
import WorkloadConfig.Proofs.Agreement
import WorkloadConfig.Proofs.Json.Values
import WorkloadConfig.Proofs.Storing

namespace WorkloadConfig

/-- A scalar that JSON has a form for; its floats are among those given. -/
def Scalar.IsData (floats : Set Binary64) : Scalar → Prop
  | .null | .bool _ | .int _ | .str _ => True
  | .float x => x ∈ floats
  | _ => False

/-- A value that JSON has a form for; its floats are among those given. -/
inductive Value.IsData (floats : Set Binary64) : Value → Prop
  | scalar {s : Scalar} : s.IsData floats → IsData floats (.scalar s)
  | list {items : List Value} : (∀ v ∈ items, IsData floats v) → IsData floats (.list items)
  | map {entries : List (Key × Value)} : (∀ key ∈ Table.keys entries, key.isText = true) →
      (Table.keys entries).Nodup → (∀ entry ∈ entries, IsData floats entry.2) →
      IsData floats (.map entries)

namespace Value
variable {floats : Set Binary64} {v w u : Value}

theorem IsData.isProper (data : v.IsData floats) : v.IsProper := by
  induction data with
  | scalar _ => exact Eq.refl true
  | list _ ih => exact everyMap_list.mpr ih
  | map texts distinct _ ih => exact isProper_map.mpr ⟨texts, distinct, ih⟩

theorem Reordered.trans (first : v.Reordered w) (second : w.Reordered u) : v.Reordered u := by
  induction first using Reordered.induction generalizing u with
  | scalar s => exact second
  | list items others all =>
    cases second with
    | list all' =>
      exact .list (forall₂_trans (fun _ _ _ ⟨_, carried⟩ related => carried related) all all')
  | map t s same table =>
    cases second with
    | map _ _ distinct under =>
      refine .map same.texts same.table.distinct distinct fun key => ?_
      rcases rel_cases (table.under key) with ⟨one, two⟩ | ⟨a, b, one, two, -, carried⟩ <;>
        rcases rel_cases (under key) with ⟨two', three⟩ | ⟨b', c, two', three, related⟩ <;>
        rw [two] at two' <;> cases two' <;> rw [one, three]
      · exact .none
      · exact .some (carried related)

/-- With the keys in order the same, the values are the same up to the order of keys. -/
theorem sortKeys_eq_iff (proper : v.IsProper) (proper' : w.IsProper) :
    v.sortKeys = w.sortKeys ↔ v.Reordered w := by
  refine ⟨fun same => ?_, Reordered.sortKeys_eq⟩
  exact (reordered_sortKeys proper).trans (same ▸ (reordered_sortKeys proper').symm)

end Value

namespace Json

section
variable {word word' rest rest' : List Char}

/-- A word or a number ends where its characters do. -/
theorem word_unambiguous (all : ∀ c ∈ word, isWordChar c = true)
    (all' : ∀ c ∈ word', isWordChar c = true) (ends : Ends rest) (ends' : Ends rest')
    (same : word ++ rest = word' ++ rest') : word = word' ∧ rest = rest' := by
  have words : word = word' := by
    rw [← takeWhile_word all ends, same, takeWhile_word all' ends']
  exact ⟨words, List.append_cancel_left (words ▸ same)⟩

end

theorem string_unambiguous {text text' : String} {rest rest' : List Char}
    (same : (string text).toList ++ rest = (string text').toList ++ rest') :
    text = text' ∧ rest = rest' := by
  have read := value?_string 0 text rest
  rw [same, value?_string] at read
  cases read
  exact ⟨rfl, rfl⟩

-- A float is written with a character that no integer has.

theorem exists_mark_write (layout : Layout) (d : Digits) (pointZero : layout.pointZero = true) :
    ∃ c ∈ layout.write d, c = '.' ∨ c = 'e' := by
  unfold Layout.write
  split
  · exact ⟨'e', by simp, .inr rfl⟩
  split
  · exact ⟨'.', by simp, .inl rfl⟩
  · refine ⟨'.', List.mem_append_right _ ?_, .inl rfl⟩
    split <;> exact List.mem_cons_self

theorem exists_mark_float (x : Binary64) :
    ∃ c ∈ (float x).toList, c.isDigit = false ∧ c ≠ '-' := by
  unfold float
  split
  · exact ⟨'N', by decide, by decide⟩
  split
  · rename_i number finite
    simp only [Binary64.text, number, finite, Bool.false_eq_true, if_false, if_true,
      String.toList_ofList, Layout.number]
    split
    · exact ⟨'.', by simp, by decide, by decide⟩
    · obtain ⟨c, member, mark⟩ := exists_mark_write ⟨-4, 16, true⟩ (Digits.shortest x) rfl
      refine ⟨c, List.mem_append_right _ member, ?_⟩
      rcases mark with rfl | rfl <;> decide
  split
  · exact ⟨'I', by decide, by decide⟩
  · exact ⟨'I', by decide, by decide⟩

theorem isDigit_or_eq_of_mem_integer {n : Int} :
    ∀ c ∈ (toString n).toList, c.isDigit = true ∨ c = '-' := by
  intro c member
  rw [toList_integer, List.mem_append] at member
  rcases member with sign | digit
  · split at sign
    · exact .inr (List.mem_singleton.mp sign)
    · cases sign
  · exact .inl (isDigit_toDigits c digit)

theorem isWordChar_float (x : Binary64) : ∀ c ∈ (float x).toList, isWordChar c = true := by
  unfold float
  split
  · exact List.all_eq_true.mp rfl
  split
  · rename_i finite
    exact fun c member => isWordChar_of_isNumberChar (isNumberChar_text finite c member)
  · split <;> exact List.all_eq_true.mp rfl

variable {floats : Set Binary64}

/-- A scalar that is no text is written as a word or a number. -/
theorem isWordChar_scalar {s : Scalar} (data : s.IsData floats) (noText : ∀ text, s ≠ .str text) :
    ∀ c ∈ (scalar s).toList, isWordChar c = true := by
  cases s with
  | null => exact List.all_eq_true.mp rfl
  | bool b => cases b <;> exact List.all_eq_true.mp rfl
  | int n =>
    intro c member
    rcases isDigit_or_eq_of_mem_integer c member with digit | rfl
    · exact isWordChar_of_isNumberChar (isNumberChar_of_isDigit digit)
    · rfl
  | float x => exact isWordChar_float x
  | str text => exact absurd rfl (noText text)
  | timestamp _ | bytes _ | unordered _ => cases data

theorem exists_word_head {s : Scalar} (data : s.IsData floats) (noText : ∀ text, s ≠ .str text) :
    ∃ c tail, (scalar s).toList = c :: tail ∧ isWordChar c = true := by
  have given : (scalar s).toList ≠ [] := by
    cases s with
    | null => decide
    | bool b => cases b <;> decide
    | int n =>
      show (toString n).toList ≠ []
      rw [toList_integer]
      exact List.append_ne_nil_of_right_ne_nil _ Nat.toDigits_ne_nil
    | float x =>
      obtain ⟨c, member, -⟩ := exists_mark_float x
      exact List.ne_nil_of_mem member
    | str text => exact absurd rfl (noText text)
    | timestamp _ | bytes _ | unordered _ => cases data
  obtain ⟨c, tail, written⟩ := List.exists_cons_of_ne_nil given
  refine ⟨c, tail, written, isWordChar_scalar data noText c ?_⟩
  rw [written]
  exact List.mem_cons_self

theorem float_ne_word {word : String} {c : Char} (within : c ∈ word.toList)
    (noNumber : isNumberChar c = false) (others : word ∉ ["NaN", "Infinity", "-Infinity"])
    (x : Binary64) : float x ≠ word := by
  rintro rfl
  unfold float at within others
  split at within
  · simp_all
  split at within
  · rename_i finite
    exact Bool.noConfusion ((isNumberChar_text finite c within).symm.trans noNumber)
  · split at within <;> simp_all

theorem float_ne_scalar {s : Scalar} (data : s.IsData floats) (noText : ∀ text, s ≠ .str text)
    (noFloat : ∀ x, s ≠ .float x) (x : Binary64) : float x ≠ scalar s := by
  cases s with
  | null => exact float_ne_word (c := 'n') (by decide) (by decide) (by decide) x
  | bool b =>
    cases b with
    | false => exact float_ne_word (c := 'f') (by decide) (by decide) (by decide) x
    | true => exact float_ne_word (c := 't') (by decide) (by decide) (by decide) x
  | int n =>
    intro same
    obtain ⟨c, member, noDigit, noSign⟩ := exists_mark_float x
    rw [same] at member
    rcases isDigit_or_eq_of_mem_integer c member with digit | sign
    · exact Bool.noConfusion (digit.symm.trans noDigit)
    · exact noSign sign
  | float y => exact absurd rfl (noFloat y)
  | str text => exact absurd rfl (noText text)
  | timestamp _ | bytes _ | unordered _ => cases data

theorem holds_of_isData {s : Scalar} (data : s.IsData floats) (noFloat : ∀ x, s ≠ .float x) :
    Holds s := by
  cases s with
  | float x => exact absurd rfl (noFloat x)
  | null | bool _ | int _ | str _ => trivial
  | timestamp _ | bytes _ | unordered _ => cases data

theorem eq_of_scalar_eq (apart : Set.InjOn float floats) {s t : Scalar} (data : s.IsData floats)
    (data' : t.IsData floats) (noText : ∀ text, s ≠ .str text) (noText' : ∀ text, t ≠ .str text)
    (same : scalar s = scalar t) : s = t := by
  by_cases isFloat : ∃ x, s = .float x <;> by_cases isFloat' : ∃ x, t = .float x
  · obtain ⟨x, rfl⟩ := isFloat
    obtain ⟨y, rfl⟩ := isFloat'
    exact congrArg Scalar.float (apart data data' same)
  · obtain ⟨x, rfl⟩ := isFloat
    exact absurd same (float_ne_scalar data' noText' (not_exists.mp isFloat') x)
  · obtain ⟨y, rfl⟩ := isFloat'
    exact absurd same.symm (float_ne_scalar data noText (not_exists.mp isFloat) y)
  · have closed : Ends [] := by simp [Ends]
    have read := value?_scalar 0 (holds_of_isData data (not_exists.mp isFloat)) closed
    rw [same, value?_scalar 0 (holds_of_isData data' (not_exists.mp isFloat')) closed] at read
    cases read
    rfl

/-- Where the texts of the two, each up to its end, begin alike, what they show is the same, and so is
what follows. -/
def Unambiguous {α β : Type} (text : α → String) (shown : α → β) (a b : α) : Prop :=
  ∀ rest rest', Ends rest → Ends rest' →
    (text a).toList ++ rest = (text b).toList ++ rest' → shown a = shown b ∧ rest = rest'

theorem unambiguous_scalar (apart : Set.InjOn float floats) {s t : Scalar} (data : s.IsData floats)
    (data' : t.IsData floats) : Unambiguous scalar id s t := by
  have quoted {text : String} {u : Scalar} (data : u.IsData floats) (noText : ∀ text, u ≠ .str text)
      {rest rest' : List Char} : (string text).toList ++ rest ≠ (scalar u).toList ++ rest' := by
    intro same
    obtain ⟨c, tail, written, ofWord⟩ := exists_word_head data noText
    rw [written, toList_string] at same
    obtain rfl := (List.cons.inj same).1
    exact absurd ofWord (by decide)
  intro rest rest' ends ends' same
  by_cases isText : ∃ text, s = .str text <;> by_cases isText' : ∃ text, t = .str text
  · obtain ⟨text, rfl⟩ := isText
    obtain ⟨text', rfl⟩ := isText'
    exact (string_unambiguous same).imp_left (congrArg Scalar.str)
  · obtain ⟨text, rfl⟩ := isText
    exact absurd same (quoted data' (not_exists.mp isText'))
  · obtain ⟨text, rfl⟩ := isText'
    exact absurd same.symm (quoted data (not_exists.mp isText))
  · have noText := not_exists.mp isText
    have noText' := not_exists.mp isText'
    obtain ⟨words, rests⟩ := word_unambiguous (isWordChar_scalar data noText)
      (isWordChar_scalar data' noText') ends ends' same
    exact ⟨eq_of_scalar_eq apart data data' noText noText' (String.toList_injective words), rests⟩

/-- The form of a value, which shows in the first character of its text. -/
inductive Shape where
  | scalar
  | list
  | map

namespace Shape

def ofChar (c : Char) : Shape :=
  if c = '[' then list else if c = '\x7b' then map else scalar

def ofValue : Value → Shape
  | .scalar _ => scalar
  | .list _ => list
  | .map _ => map

end Shape

namespace Style
variable {style : Style} {α β : Type} {text : α → String} {shown : α → β} {depth : Nat}
variable {gap rest rest' : List Char} {l r : Char} {left right : String}

theorem joined_one (style : Style) (depth : Nat) (part : String) (more : List Char) :
    (style.joined depth [part]).toList ++ more = part.toList ++ more := by
  simp only [joined, String.intercalate_singleton]

theorem joined_more (style : Style) (depth : Nat) (part other : String) (parts : List String)
    (more : List Char) : (style.joined depth (part :: other :: parts)).toList ++ more =
      part.toList ++ (style.comma.toList ++ ((style.line depth).toList ++
        ((style.joined depth (other :: parts)).toList ++ more))) := by
  simp only [joined_cons_cons, String.toList_append, List.append_assoc]

/-- Parts set apart by commas end where the bracket is closed. -/
theorem joined_cancel (legible : style.IsLegible) (blank : ∀ c ∈ gap, isBlank c = true)
    (noComma : r ≠ ',') (outside : isWordChar r = false) {a b : α} {as bs : List α}
    (parts : ∀ x ∈ a :: as, ∀ y ∈ b :: bs, Unambiguous text shown x y)
    (same : (style.joined depth ((a :: as).map text)).toList ++ (gap ++ r :: rest) =
      (style.joined depth ((b :: bs).map text)).toList ++ (gap ++ r :: rest')) :
    (a :: as).map shown = (b :: bs).map shown ∧ rest = rest' := by
  obtain ⟨space, comma, -⟩ := legible.comma
  have closes (rest : List Char) : Ends (gap ++ r :: rest) := ends_append blank (ends_cons outside rest)
  have goesOn (more : List Char) : Ends (',' :: more) := ends_cons (by decide) more
  have apart (rest more : List Char) : gap ++ r :: rest ≠ ',' :: more := by
    intro same
    cases gap with
    | nil => exact noComma (List.cons.inj same).1
    | cons c _ =>
      have visible := blank c List.mem_cons_self
      rw [(List.cons.inj same).1] at visible
      exact absurd visible (by decide)
  have first := parts a List.mem_cons_self b List.mem_cons_self
  -- Of the first parts what follows is the same too, so both lists go on or both are closed.
  induction as generalizing a b bs with
  | nil =>
    cases bs with
    | nil =>
      simp only [List.map_cons, List.map_nil, joined_one] at same ⊢
      obtain ⟨equal, rests⟩ := first _ _ (closes rest) (closes rest') same
      exact ⟨by rw [equal], (List.cons.inj (List.append_cancel_left rests)).2⟩
    | cons b' bs =>
      simp only [List.map_cons, List.map_nil, joined_one, joined_more, comma,
        List.cons_append] at same
      exact absurd (first _ _ (closes rest) (goesOn _) same).2 (apart rest _)
  | cons a' as ih =>
    cases bs with
    | nil =>
      simp only [List.map_cons, List.map_nil, joined_one, joined_more, comma,
        List.cons_append] at same
      exact absurd (first _ _ (goesOn _) (closes rest') same).2.symm (apart rest' _)
    | cons b' bs =>
      have later : ∀ x ∈ a' :: as, ∀ y ∈ b' :: bs, Unambiguous text shown x y :=
        fun x within y within' =>
          parts x (List.mem_cons_of_mem _ within) y (List.mem_cons_of_mem _ within')
      simp only [List.map_cons, joined_more, comma, List.cons_append] at same
      obtain ⟨equal, rests⟩ := first _ _ (goesOn _) (goesOn _) same
      have rests := List.append_cancel_left (List.append_cancel_left (List.cons.inj rests).2)
      obtain ⟨others, closed⟩ := ih later rests (later a' List.mem_cons_self b' List.mem_cons_self)
      exact ⟨congrArg₂ List.cons equal others, closed⟩

/-- The text of the value begins with another character than the given one. -/
def StartsApart (c : Char) (text : String) : Prop :=
  ∃ first tail, text.toList = first :: tail ∧ first ≠ c

/-- Parts follow where no bracket is closed. -/
theorem ne_line_append_joined (visible : isBlank r = false) {part : String}
    (starts : StartsApart r part) (parts : List String) (more : List Char) :
    r :: rest ≠ (style.line depth).toList ++ ((style.joined depth (part :: parts)).toList ++ more) := by
  intro same
  have blank := isBlank_line style depth
  cases line : (style.line depth).toList with
  | nil =>
    obtain ⟨first, tail, begins, apart⟩ := starts
    obtain ⟨later, joins⟩ : ∃ later,
        (style.joined depth (part :: parts)).toList ++ more = first :: later := by
      cases parts with
      | nil => exact ⟨_, by rw [joined_one, begins, List.cons_append]⟩
      | cons other parts => exact ⟨_, by rw [joined_more, begins, List.cons_append]⟩
    rw [line, List.nil_append, joins] at same
    exact apart (List.cons.inj same).1.symm
  | cons c _ =>
    rw [line] at same blank
    rw [(List.cons.inj same).1, blank c List.mem_cons_self] at visible
    cases visible

theorem enclose_cancel (legible : style.IsLegible) (opens : left.toList = [l])
    (closes : right.toList = [r]) (noComma : r ≠ ',') (outside : isWordChar r = false)
    (visible : isBlank r = false) {as bs : List α}
    (parts : ∀ x ∈ as, ∀ y ∈ bs, Unambiguous text shown x y)
    (starts : ∀ x, x ∈ as ∨ x ∈ bs → StartsApart r (text x))
    (same : (style.enclose depth left right (as.map text)).toList ++ rest =
      (style.enclose depth left right (bs.map text)).toList ++ rest') :
    as.map shown = bs.map shown ∧ rest = rest' := by
  cases as with
  | nil =>
    cases bs with
    | nil => exact ⟨rfl, List.append_cancel_left same⟩
    | cons b bs =>
      rw [List.map_nil, toList_enclose_nil opens closes, List.map_cons,
        toList_enclose_append opens closes] at same
      have begins := starts b (.inr List.mem_cons_self)
      exact absurd (List.cons.inj same).2 (ne_line_append_joined visible begins _ _)
  | cons a as =>
    cases bs with
    | nil =>
      rw [List.map_nil, toList_enclose_nil opens closes, List.map_cons,
        toList_enclose_append opens closes] at same
      have begins := starts a (.inl List.mem_cons_self)
      exact absurd (List.cons.inj same).2.symm (ne_line_append_joined visible begins _ _)
    | cons b bs =>
      rw [List.map_cons, toList_enclose_append opens closes, List.map_cons,
        toList_enclose_append opens closes] at same
      exact joined_cancel legible (isBlank_line style depth) noComma outside parts
        (List.append_cancel_left (List.cons.inj same).2)

theorem exists_enclose_head (opens : left.toList = [l]) (closes : right.toList = [r])
    (style : Style) (depth : Nat) (parts : List String) :
    ∃ tail, (style.enclose depth left right parts).toList = l :: tail := by
  cases parts with
  | nil => exact ⟨_, toList_enclose_nil opens closes style depth⟩
  | cons part parts => exact ⟨_, toList_enclose opens closes style depth part parts⟩

variable {floats : Set Binary64} {v w : Value}

/-- The first character of a text shows what form the value has. -/
theorem exists_write_head (style : Style) (data : v.IsData floats) (depth : Nat) : ∃ c tail,
    (style.write depth v).toList = c :: tail ∧ Shape.ofChar c = Shape.ofValue v ∧ c ≠ ']' := by
  cases data with
  | @scalar s ofData =>
    by_cases isText : ∃ text, s = .str text
    · obtain ⟨text, rfl⟩ := isText
      exact ⟨'"', _, toList_string text, rfl, by decide⟩
    · obtain ⟨c, tail, written, ofWord⟩ := exists_word_head ofData (not_exists.mp isText)
      have apart (other : Char) (outside : isWordChar other = false) : c ≠ other := by
        rintro rfl
        exact Bool.noConfusion (ofWord.symm.trans outside)
      refine ⟨c, tail, by rw [write, written], ?_, apart ']' (by decide)⟩
      rw [Shape.ofChar, if_neg (apart '[' (by decide)), if_neg (apart '\x7b' (by decide))]
      rfl
  | list _ =>
    have opens : "[".toList = ['['] := rfl
    have closes : "]".toList = [']'] := rfl
    obtain ⟨tail, written⟩ := exists_enclose_head opens closes style depth _
    exact ⟨'[', tail, by rw [write_list, written], rfl, by decide⟩
  | map _ _ _ =>
    have opens : "\x7b".toList = ['\x7b'] := rfl
    have closes : "\x7d".toList = ['\x7d'] := rfl
    obtain ⟨tail, written⟩ := exists_enclose_head opens closes style depth _
    exact ⟨'\x7b', tail, by rw [write_map, written], rfl, by decide⟩

theorem startsApart_member {entry : Key × Value} (isText : entry.1.isText = true) (noQuote : '"' ≠ r) :
    StartsApart r (style.member depth entry) := by
  obtain ⟨key, v⟩ := entry
  obtain ⟨text, rfl⟩ := Value.eq_str_of_isText isText
  have quoted : Json.key (.str text) = string text := rfl
  rw [StartsApart, member, quoted, String.toList_append, String.toList_append, toList_string]
  exact ⟨'"', _, rfl, noQuote⟩

theorem unambiguous_member {entry other : Key × Value} (isText : entry.1.isText = true)
    (isText' : other.1.isText = true)
    (values : Unambiguous (style.write depth) style.ordered entry.2 other.2) :
    Unambiguous (style.member depth) (fun entry => (entry.1, style.ordered entry.2)) entry other := by
  obtain ⟨key, v⟩ := entry
  obtain ⟨key', w⟩ := other
  obtain ⟨text, rfl⟩ := Value.eq_str_of_isText isText
  obtain ⟨text', rfl⟩ := Value.eq_str_of_isText isText'
  have quoted (text : String) : Json.key (.str text) = string text := rfl
  intro rest rest' ends ends' same
  simp only [member, quoted, String.toList_append, List.append_assoc] at same
  obtain ⟨rfl, later⟩ := string_unambiguous same
  obtain ⟨equal, rests⟩ := values rest rest' ends ends' (List.append_cancel_left later)
  exact ⟨congrArg (Prod.mk _) equal, rests⟩

theorem ofValue_eq (data : v.IsData floats) (data' : w.IsData floats)
    (same : (style.write depth v).toList ++ rest = (style.write depth w).toList ++ rest') :
    Shape.ofValue v = Shape.ofValue w := by
  obtain ⟨c, tail, written, shape, -⟩ := exists_write_head style data depth
  obtain ⟨c', tail', written', shape', -⟩ := exists_write_head style data' depth
  rw [written, written'] at same
  rw [← shape, ← shape', (List.cons.inj same).1]

section
variable (legible : style.IsLegible)
include legible

theorem unambiguous_list {items others : List Value} (each : ∀ v ∈ items, v.IsData floats)
    (each' : ∀ v ∈ others, v.IsData floats)
    (parts : ∀ v ∈ items, ∀ w ∈ others, Unambiguous (style.write (depth + 1)) style.ordered v w) :
    Unambiguous (style.write depth) style.ordered (.list items) (.list others) := by
  have starts : ∀ v, v ∈ items ∨ v ∈ others → StartsApart ']' (style.write (depth + 1) v) := by
    intro v within
    have ofV := within.elim (each v) (each' v)
    obtain ⟨c, tail, written, -, noEnd⟩ := exists_write_head style ofV (depth + 1)
    exact ⟨c, tail, written, noEnd⟩
  intro rest rest' _ _ same
  rw [write_list, write_list] at same
  rw [ordered_list, ordered_list]
  exact (enclose_cancel (r := ']') legible rfl rfl (by decide) (by decide) (by decide) parts starts
    same).imp_left (congrArg Value.list)

theorem unambiguous_map {entries others : List (Key × Value)}
    (texts : ∀ key ∈ Table.keys entries, key.isText = true)
    (texts' : ∀ key ∈ Table.keys others, key.isText = true)
    (parts : ∀ entry ∈ entries, ∀ other ∈ others,
      Unambiguous (style.write (depth + 1)) style.ordered entry.2 other.2) :
    Unambiguous (style.write depth) style.ordered (.map entries) (.map others) := by
  have perm := style.inOrder_perm entries
  have perm' := style.inOrder_perm others
  have isText : ∀ entry ∈ style.inOrder entries, entry.1.isText = true := fun entry within =>
    texts _ (List.mem_map_of_mem (perm.mem_iff.mp within))
  have isText' : ∀ entry ∈ style.inOrder others, entry.1.isText = true := fun entry within =>
    texts' _ (List.mem_map_of_mem (perm'.mem_iff.mp within))
  have starts : ∀ entry, entry ∈ style.inOrder entries ∨ entry ∈ style.inOrder others →
      StartsApart '\x7d' (style.member (depth + 1) entry) := fun entry within =>
    startsApart_member (within.elim (isText entry) (isText' entry)) (by decide)
  have members : ∀ entry ∈ style.inOrder entries, ∀ other ∈ style.inOrder others, Unambiguous
      (style.member (depth + 1)) (fun entry => (entry.1, style.ordered entry.2)) entry other :=
    fun entry within other within' => unambiguous_member (isText entry within) (isText' other within')
      (parts entry (perm.mem_iff.mp within) other (perm'.mem_iff.mp within'))
  intro rest rest' _ _ same
  rw [write_map, write_map] at same
  rw [ordered_map, ordered_map]
  exact (enclose_cancel (r := '\x7d') legible rfl rfl (by decide) (by decide) (by decide) members
    starts same).imp_left (congrArg Value.map)

end

/-- Where the texts of two values begin alike, the values are the same as the style shows them. -/
theorem IsLegible.unambiguous_write (legible : style.IsLegible) (apart : Set.InjOn float floats)
    (data : v.IsData floats) (data' : w.IsData floats) (depth : Nat) :
    Unambiguous (style.write depth) style.ordered v w := by
  induction data generalizing w depth with
  | @scalar s ofData =>
    intro rest rest' ends ends' same
    have shape := ofValue_eq (.scalar ofData) data' same
    cases data' with
    | @scalar t ofData' =>
      rw [ordered_scalar, ordered_scalar]
      exact (unambiguous_scalar apart ofData ofData' rest rest' ends ends' same).imp_left
        (congrArg Value.scalar)
    | list _ | map _ _ _ => cases shape
  | @list items each ih =>
    intro rest rest' ends ends' same
    have shape := ofValue_eq (.list each) data' same
    cases data' with
    | list each' =>
      exact unambiguous_list legible each each' (fun v within w within' =>
        ih v within (each' w within') (depth + 1)) rest rest' ends ends' same
    | scalar _ | map _ _ _ => cases shape
  | @map entries texts distinct each ih =>
    intro rest rest' ends ends' same
    have shape := ofValue_eq (.map texts distinct each) data' same
    cases data' with
    | map texts' _ each' =>
      exact unambiguous_map legible texts texts' (fun entry within other within' =>
        ih entry within (each' other within') (depth + 1)) rest rest' ends ends' same
    | scalar _ | list _ => cases shape

end Style

end Json

/-- The digest among the annotations is that of the canonical text of the resource before. -/
theorem Instance.lookup_digest {i : Instance} {manager : String} {t : Template} {resource m : Value}
    (made : i.metadata manager t resource = .ok m) :
    (m.lookup "annotations").lookup digestAnnotation =
      .str (Digest.ofText (Json.canonical resource)) := by
  simp only [Instance.metadata, Result.bind_eq_ok, Value.canonical?_eq_ok, Except.ok.injEq] at made
  obtain ⟨text, ⟨-, -, rfl⟩, labels, -, annotations, -, rfl⟩ := made
  have apart : Key.str "annotations" ≠ .str "ownerReferences" := by decide
  simp only [Value.lookup, Value.entries, Table.putAll, List.foldl_cons, List.foldl_nil,
    Table.find?_put_of_ne _ _ apart, Table.find?_put_self, Option.getD_some]

namespace Json

/-- Canonical text tells values apart up to the order of their keys, as long as their floats are
written apart. The digest of a resource is made of the canonical text that it had before its metadata,
so it is made of the same text for two resources exactly if they were the same up to that order. -/
theorem canonical_eq_iff {floats : Set Binary64} (apart : Set.InjOn float floats) {v w : Value}
    (data : v.IsData floats) (data' : w.IsData floats) :
    (canonical v = canonical w ↔ v.Reordered w) ∧
      ∀ (i : Instance) (manager : String) (t : Template) (m : Value),
        i.metadata manager t v = .ok m →
          (m.lookup "annotations").lookup digestAnnotation = .str (Digest.ofText (canonical v)) := by
  have legible : Style.canonical.IsLegible :=
    ⟨⟨[], rfl, by simp⟩, ⟨[], rfl, by simp⟩⟩
  have closed : Ends [] := by simp [Ends]
  refine ⟨⟨fun same => ?_, Value.Reordered.canonical_eq⟩, fun i manager t m => i.lookup_digest⟩
  refine (Value.sortKeys_eq_iff data.isProper data'.isProper).mp ?_
  exact (legible.unambiguous_write apart data data' 0 [] [] closed closed
    (congrArg (·.toList ++ []) same)).1

/-- Two floats, escapes, and the keys of two maps in another order. The number one, the float, the
truth value and the text are all written apart. -/
theorem canonical_eq_iff_of_ones :
    let one : Binary64 := ⟨false, 1023, 0⟩
    let half : Binary64 := ⟨false, 1022, 0⟩
    let ones : List Value := [.int 1, .float one, .bool true, .str "1"]
    let v : Value := .map [("a", .list ones), ("é\"", .map [("y", .null), ("x", .float half)])]
    let w : Value := .map [("é\"", .map [("x", .float half), ("y", .null)]), ("a", .list ones)]
    let i : Instance := ⟨"Web", .web, .team, none, [], []⟩
    let t : Template := ⟨⟨"main", by decide⟩, "v1", "ConfigMap", [], []⟩
    Set.InjOn float {one, half} ∧ v.IsData {one, half} ∧ w.IsData {one, half} ∧
      v.Reordered w ∧ canonical v = canonical w ∧ (ones.Pairwise fun a b => canonical a ≠ canonical b) ∧
      ∃ m, i.metadata "kresolve" t v = .ok m ∧
        (m.lookup "annotations").lookup digestAnnotation = .str (Digest.ofText (canonical v)) := by
  intro one half ones v w i t
  have apart : Set.InjOn float {one, half} := Set.injOn_pair.mpr fun same =>
    absurd same (by decide +kernel)
  have ofOnes : (Value.list ones).IsData {one, half} := .list <| by
    simp only [ones, List.forall_mem_cons]
    exact ⟨.scalar trivial, .scalar (.inl rfl), .scalar trivial, .scalar trivial, by simp⟩
  have data : v.IsData {one, half} := .map (by decide) (by decide) <| by
    simp only [List.forall_mem_cons]
    refine ⟨ofOnes, .map (by decide) (by decide) ?_, by simp⟩
    simp only [List.forall_mem_cons]
    exact ⟨.scalar trivial, .scalar (.inr rfl), by simp⟩
  have data' : w.IsData {one, half} := .map (by decide) (by decide) <| by
    simp only [List.forall_mem_cons]
    refine ⟨.map (by decide) (by decide) ?_, ofOnes, by simp⟩
    simp only [List.forall_mem_cons]
    exact ⟨.scalar (.inr rfl), .scalar trivial, by simp⟩
  obtain ⟨iff, digest⟩ := canonical_eq_iff apart data data'
  have same : canonical v = canonical w := by decide +kernel
  have written : v.canonical? = .ok (canonical v) :=
    Value.canonical?_eq_ok.mpr ⟨rfl, by decide +kernel, rfl⟩
  obtain ⟨m, made⟩ : ∃ m, i.metadata "kresolve" t v = .ok m := by
    rw [Instance.metadata, written]
    exact ⟨_, rfl⟩
  exact ⟨apart, data, data', iff.mp same, same, by decide +kernel, m, made, digest i _ t m made⟩

end Json
end WorkloadConfig
