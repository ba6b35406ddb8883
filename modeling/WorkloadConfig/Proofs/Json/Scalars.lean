import Mathlib.Data.List.TakeWhile
import WorkloadConfig.Json.Printer
import WorkloadConfig.Json.Reader

namespace WorkloadConfig.Json

theorem hexValue?_digitChar : ∀ d < 16, hexValue? d.digitChar = some d := by decide

theorem hexNumber?_append (digits : List Char) (c : Char) :
    hexNumber? (digits ++ [c]) =
      (hexNumber? digits).bind fun n => (hexValue? c).map (n * 16 + ·) := by
  simp [hexNumber?, List.foldlM_append]

theorem hexNumber?_toDigits (n : Nat) : hexNumber? (Nat.toDigits 16 n) = some n := by
  induction n using Nat.strongRecOn with
  | ind n ih =>
    rcases Nat.lt_or_ge n 16 with small | large
    · rw [Nat.toDigits_of_lt_base small]
      simp [hexNumber?, hexValue?_digitChar n small]
    · rw [Nat.toDigits_of_base_le (by decide) large, hexNumber?_append, ih (n / 16) (by omega)]
      simp only [Option.bind_some, hexValue?_digitChar (n % 16) (by omega), Option.map_some]
      congr 1
      omega

theorem hexNumber?_hex (width n : Nat) : hexNumber? (Text.hex width n) = some n := by
  have zeros (count : Nat) : hexNumber? (List.replicate count '0') = some 0 := by
    induction count with
    | zero => rfl
    | succ count ih => rw [List.replicate_succ', hexNumber?_append, ih]; rfl
  have digits := hexNumber?_toDigits n
  unfold hexNumber? at zeros digits ⊢
  rw [Text.hex, List.foldlM_append, zeros]
  exact digits

theorem length_hex {n : Nat} (small : n < 0x10000) : (Text.hex 4 n).length = 4 := by
  have short : (Nat.toDigits 16 n).length ≤ 4 :=
    (Nat.length_toDigits_le_iff (by decide) (by decide)).mpr small
  simp only [Text.hex, List.length_append, List.length_replicate]
  omega

/-- What becomes of an escaped unit, whether or not one before it waits to be completed. -/
theorem stringTail?_unit {unit : Nat} (small : unit < 0x10000) (high : Option Nat)
    (rest : List Char) : stringTail? high ('\\' :: 'u' :: (Text.hex 4 unit ++ rest)) =
      match high with
      | some first =>
        if isLowUnit unit then
          (stringTail? none rest).map fun (tail, r) => (joinUnits first unit :: tail, r)
        else none
      | none =>
        if isHighUnit unit then stringTail? (some unit) rest
        else if isLowUnit unit then none
        else (stringTail? none rest).map fun (tail, r) => (Char.ofNat unit :: tail, r) := by
  have number := hexNumber?_hex 4 unit
  have length := length_hex small
  match digits : Text.hex 4 unit, length with
  | [a, b, c, d], _ =>
    rw [digits] at number
    simp only [List.cons_append, List.nil_append, stringTail?, Option.bind_eq_bind]
    rw [number]
    rfl

/-- No character is half of a pair. -/
theorem not_isHighUnit_or_isLowUnit (c : Char) :
    isHighUnit c.toNat = false ∧ isLowUnit c.toNat = false := by
  have valid : c.toNat.isValidChar := c.valid
  rw [Nat.isValidChar] at valid
  simp only [isHighUnit, isLowUnit, Bool.and_eq_false_imp, decide_eq_true_eq,
    decide_eq_false_iff_not]
  omega

section
variable {c : Char} (beyond : 0x10000 ≤ c.toNat)

theorem isLowUnit_second (n : Nat) : isLowUnit (0xdc00 + n % 0x400) = true := by
  simp only [isLowUnit, Bool.and_eq_true, decide_eq_true_eq]
  omega

include beyond

theorem isHighUnit_first : isHighUnit (0xd800 + (c.toNat - 0x10000) / 0x400) = true := by
  have valid : c.toNat.isValidChar := c.valid
  rw [Nat.isValidChar] at valid
  simp only [isHighUnit, Bool.and_eq_true, decide_eq_true_eq]
  omega

theorem joinUnits_units :
    joinUnits (0xd800 + (c.toNat - 0x10000) / 0x400) (0xdc00 + (c.toNat - 0x10000) % 0x400) = c := by
  have code : 0x10000 + (0xd800 + (c.toNat - 0x10000) / 0x400 - 0xd800) * 0x400 +
      (0xdc00 + (c.toNat - 0x10000) % 0x400 - 0xdc00) = c.toNat := by omega
  rw [joinUnits, code, Char.ofNat_toNat]

end

theorem isUnit_of_isHighUnit {unit : Nat} (high : isHighUnit unit = true) : unit < 0x10000 := by
  simp only [isHighUnit, Bool.and_eq_true, decide_eq_true_eq] at high
  omega

theorem isUnit_of_isLowUnit {unit : Nat} (low : isLowUnit unit = true) : unit < 0x10000 := by
  simp only [isLowUnit, Bool.and_eq_true, decide_eq_true_eq] at low
  omega

theorem stringTail?_pair {c : Char} (beyond : 0x10000 ≤ c.toNat) (rest : List Char) :
    stringTail? none ('\\' :: 'u' :: (Text.hex 4 (0xd800 + (c.toNat - 0x10000) / 0x400) ++
      '\\' :: 'u' :: (Text.hex 4 (0xdc00 + (c.toNat - 0x10000) % 0x400) ++ rest))) =
      (stringTail? none rest).map fun (tail, r) => (c :: tail, r) := by
  have high := isHighUnit_first beyond
  have low := isLowUnit_second (c.toNat - 0x10000)
  have first := stringTail?_unit (isUnit_of_isHighUnit high) none
    ('\\' :: 'u' :: (Text.hex 4 (0xdc00 + (c.toNat - 0x10000) % 0x400) ++ rest))
  have second := stringTail?_unit (isUnit_of_isLowUnit low)
    (some (0xd800 + (c.toNat - 0x10000) / 0x400)) rest
  simp only [high, low, if_true, joinUnits_units beyond] at first second
  exact first.trans second

theorem stringTail?_units (c : Char) (rest : List Char) :
    stringTail? none ((units c).flatMap (fun unit => '\\' :: 'u' :: Text.hex 4 unit) ++ rest) =
      (stringTail? none rest).map fun (tail, r) => (c :: tail, r) := by
  -- Said of any two units, so that their digits stay closed to reduction.
  have two (unit other : Nat) :
      [unit, other].flatMap (fun unit => '\\' :: 'u' :: Text.hex 4 unit) ++ rest =
        '\\' :: 'u' :: (Text.hex 4 unit ++ '\\' :: 'u' :: (Text.hex 4 other ++ rest)) := by
    simp only [List.flatMap_cons, List.flatMap_nil, List.append_nil, List.cons_append,
      List.append_assoc]
  by_cases basic : c.toNat < 0x10000
  · obtain ⟨notHigh, notLow⟩ := not_isHighUnit_or_isLowUnit c
    have plain := stringTail?_unit basic none rest
    simp only [notHigh, notLow, Bool.false_eq_true, if_false, Char.ofNat_toNat] at plain
    rw [units, if_pos basic, List.flatMap_singleton]
    exact plain
  · rw [units, if_neg basic, two]
    exact stringTail?_pair (Nat.le_of_not_lt basic) rest

theorem stringTail?_escaped (c : Char) (rest : List Char) :
    stringTail? none (escaped c ++ rest) =
      (stringTail? none rest).map fun (tail, r) => (c :: tail, r) := by
  unfold escaped
  split
  · subst_vars; rfl
  split
  · subst_vars; rfl
  split
  · subst_vars; rfl
  split
  · subst_vars; rfl
  split
  · subst_vars; rfl
  split
  · subst_vars; rfl
  split
  · subst_vars; rfl
  split
  · rename_i quote backslash _ _ _ _ _ printable
    simp only [Bool.and_eq_true, decide_eq_true_eq] at printable
    have low : ¬ c.toNat < 0x20 := by omega
    rw [List.singleton_append, stringTail?]
    · simp [low]
    · exact quote
    · rintro _ _ _ _ _ rfl
      exact fun _ => backslash rfl
    · rintro _ _ rfl
      exact fun _ => backslash rfl
  · exact stringTail?_units c rest

/-- A text comes back from between its quotes. -/
theorem stringTail?_text (text rest : List Char) :
    stringTail? none (text.flatMap escaped ++ '"' :: rest) = some (text, rest) := by
  induction text with
  | nil => rfl
  | cons c text ih => rw [List.flatMap_cons, List.append_assoc, stringTail?_escaped, ih]; rfl

/-- The characters that words and numbers are made of. -/
def isWordChar (c : Char) : Bool :=
  c.isAlpha || isNumberChar c

/-- What comes next does not go on a word or a number. -/
def Ends (rest : List Char) : Prop :=
  ∀ c, rest.head? = some c → isWordChar c = false

section
variable {word rest : List Char}

theorem takeWhile_word (all : ∀ c ∈ word, isWordChar c = true) (ends : Ends rest) :
    (word ++ rest).takeWhile isWordChar = word := by
  have stops : rest.takeWhile isWordChar = [] := by
    cases rest with
    | nil => rfl
    | cons c _ => simp [ends c rfl]
  rw [List.takeWhile_append_of_pos all, stops, List.append_nil]

theorem scalar?_append (all : ∀ c ∈ word, isWordChar c = true) (ends : Ends rest) :
    scalar? (word ++ rest) = ((word? word).or (number? word)).map (·, rest) := by
  have taken : (word ++ rest).takeWhile (fun c => c.isAlpha || isNumberChar c) = word :=
    takeWhile_word all ends
  simp only [scalar?, taken, List.drop_left]

theorem skip_cons {c : Char} (visible : isBlank c = false) (rest : List Char) :
    skip (c :: rest) = c :: rest := by
  simp [skip, visible]

theorem not_isBlank_of_isWordChar {c : Char} (ofWord : isWordChar c = true) :
    isBlank c = false := by
  refine Bool.eq_false_iff.mpr fun blank => ?_
  simp only [isBlank, Bool.or_eq_true, decide_eq_true_eq] at blank
  rcases blank with ((rfl | rfl) | rfl) | rfl <;> exact absurd ofWord (by decide)

/-- A word or a number is read up to where it ends. -/
theorem value?_word (fuel : Nat) (given : word ≠ []) (all : ∀ c ∈ word, isWordChar c = true)
    (ends : Ends rest) : value? (fuel + 1) (word ++ rest) =
      ((word? word).or (number? word)).map (·, rest) := by
  have read := scalar?_append all ends
  obtain ⟨c, more, rfl⟩ := List.exists_cons_of_ne_nil given
  have ofWord := all c List.mem_cons_self
  rw [← read, value?, List.cons_append, skip_cons (not_isBlank_of_isWordChar ofWord)]
  split
  · rename_i same
    cases same
    exact absurd ofWord (by decide)
  · rename_i same
    cases same
    exact absurd ofWord (by decide)
  · rename_i same
    cases same
    exact absurd ofWord (by decide)
  · rfl

end

theorem isWordChar_of_isNumberChar {c : Char} (ofNumber : isNumberChar c = true) :
    isWordChar c = true := by
  rw [isWordChar, ofNumber, Bool.or_true]

theorem isNumberChar_of_isDigit {c : Char} (digit : c.isDigit = true) : isNumberChar c = true := by
  simp only [isNumberChar, digit, Bool.true_or]

theorem word?_number {word : List Char} (all : ∀ c ∈ word, isNumberChar c = true) :
    word? word = none := by
  have apart (text : String) {c : Char} (within : c ∈ text.toList)
      (noNumber : isNumberChar c = false) : word ≠ text.toList := by
    rintro rfl
    exact Bool.noConfusion ((all c within).symm.trans noNumber)
  simp only [word?, apart "null" (c := 'n') (by decide) (by decide),
    apart "true" (c := 't') (by decide) (by decide), apart "false" (c := 'f') (by decide) (by decide),
    apart "NaN" (c := 'N') (by decide) (by decide), apart "Infinity" (c := 'I') (by decide) (by decide),
    apart "-Infinity" (c := 'I') (by decide) (by decide), if_false]

theorem value?_number (fuel : Nat) {number rest : List Char} {v : Value}
    (all : ∀ c ∈ number, isNumberChar c = true) (ends : Ends rest) (reads : number? number = some v) :
    value? (fuel + 1) (number ++ rest) = some (v, rest) := by
  have given : number ≠ [] := by
    rintro rfl
    cases reads
  rw [value?_word fuel given (fun c member => isWordChar_of_isNumberChar (all c member)) ends,
    word?_number all, reads]
  rfl

theorem isDigit_toDigits {n : Nat} : ∀ c ∈ Nat.toDigits 10 n, c.isDigit = true :=
  fun _ member => Nat.isDigit_of_mem_toDigits (by decide) (by decide) member

theorem ofDigits_toDigits (n : Nat) : Literal.ofDigits (Nat.toDigits 10 n) = n := by
  have read : (Nat.toDigits 10 n).foldl (fun n c => 10 * n + (c.toNat - 48)) 0 = n :=
    Nat.ofDigitChars_ten_toDigits
  simpa only [Literal.ofDigits, Literal.digitValue, Nat.mul_comm] using read

theorem head?_toDigits {n : Nat} (positive : n ≠ 0) : (Nat.toDigits 10 n).head? ≠ some '0' := by
  induction n using Nat.strongRecOn with
  | ind n ih =>
    rcases Nat.lt_or_ge n 10 with small | large
    · rw [Nat.toDigits_of_lt_base small]
      have nonzero : ∀ d < 10, d ≠ 0 → d.digitChar ≠ '0' := by decide
      simpa using nonzero n small positive
    · rw [Nat.toDigits_of_base_le (by decide) large, List.head?_append,
        Option.or_of_isSome (by simp [Nat.toDigits_ne_nil])]
      exact ih (n / 10) (by omega) (by omega)

theorem isWhole_toDigits (n : Nat) : Literal.isWhole (Nat.toDigits 10 n) = true := by
  have digits : Literal.isDigits (Nat.toDigits 10 n) = true := by
    simpa [Literal.isDigits, Nat.toDigits_ne_nil] using isDigit_toDigits
  rw [Literal.isWhole, digits, Bool.true_and]
  by_cases zero : n = 0
  · subst zero
    rfl
  · simp [head?_toDigits zero]

theorem number?_whole (n : Nat) (negative : Bool) :
    number? ((if negative then ['-'] else []) ++ Nat.toDigits 10 n) =
      some (.int (if negative then -n else n)) := by
  have all : ∀ c ∈ Nat.toDigits 10 n, c.isDigit = true := isDigit_toDigits
  have whole : (Nat.toDigits 10 n).takeWhile Char.isDigit = Nat.toDigits 10 n :=
    List.takeWhile_eq_self_iff.mpr all
  have behind : (Nat.toDigits 10 n).dropWhile Char.isDigit = [] :=
    List.dropWhile_eq_nil_iff.mpr all
  unfold number?
  cases negative with
  | true =>
    simp only [if_true, List.cons_append, List.nil_append, whole, behind, isWhole_toDigits,
      ofDigits_toDigits, Bool.not_true, Bool.false_eq_true, if_false]
  | false =>
    simp only [Bool.false_eq_true, if_false, List.nil_append]
    split
    · rename_i signed
      exact absurd (all '-' (by simp [signed])) (by decide)
    · simp only [whole, behind, isWhole_toDigits, ofDigits_toDigits, Bool.not_true,
        Bool.false_eq_true, if_false, if_true]

theorem toList_integer (n : Int) : (toString n).toList =
    (if decide (n < 0) then ['-'] else []) ++ Nat.toDigits 10 n.natAbs := by
  rw [Int.toString_eq_repr, Int.repr_eq_if]
  split
  · rename_i positive
    have same : n.toNat = n.natAbs := by omega
    simp [same, positive, Nat.toList_repr]
  · have negative : n < 0 := by omega
    have same : (-n).toNat = n.natAbs := by omega
    simp [same, negative, Nat.toList_repr]

theorem value?_integer (fuel : Nat) (n : Int) {rest : List Char} (ends : Ends rest) :
    value? (fuel + 1) ((toString n).toList ++ rest) = some (.int n, rest) := by
  have number := number?_whole n.natAbs (decide (n < 0))
  have same : (if decide (n < 0) then -(n.natAbs : Int) else n.natAbs) = n := by
    split <;> rename_i sign <;> simp only [decide_eq_true_eq] at sign <;> omega
  rw [same, ← toList_integer] at number
  refine value?_number fuel (fun c member => ?_) ends number
  rw [toList_integer, List.mem_append] at member
  rcases member with sign | digit
  · split at sign
    · cases List.mem_singleton.mp sign
      rfl
    · cases sign
  · exact isNumberChar_of_isDigit (isDigit_toDigits c digit)

-- The text of a float is made of the characters of numbers.

theorem isDigit_dropZeros {digits : List Char} (all : ∀ c ∈ digits, c.isDigit = true) :
    ∀ c ∈ Digits.dropZeros digits, c.isDigit = true := by
  intro c member
  rw [Digits.dropZeros, List.mem_reverse] at member
  exact all c (List.mem_reverse.mp ((List.dropWhile_sublist _).subset member))

theorem isDigit_ofPoint (point : Nat) (step : Int) :
    ∀ c ∈ (Digits.ofPoint point step).digits, c.isDigit = true :=
  isDigit_dropZeros isDigit_toDigits

theorem isDigit_shortest (x : Binary64) : ∀ c ∈ (Digits.shortest x).digits, c.isDigit = true := by
  have rounded (num den places : Nat) :
      ∀ c ∈ (Digits.rounded num den places).digits, c.isDigit = true := isDigit_ofPoint _ _
  have onGrid (places : Nat) (d : Digits) (found : Digits.onGrid? x places = some d) :
      ∀ c ∈ d.digits, c.isDigit = true := by
    unfold Digits.onGrid? at found
    dsimp only at found
    split at found
    · cases found
      exact rounded _ _ _
    split at found
    · cases found
      exact isDigit_ofPoint _ _
    split at found
    · cases found
      exact isDigit_ofPoint _ _
    · cases found
  unfold Digits.shortest
  cases found : (List.range 17).findSome? fun n => Digits.onGrid? x (n + 1) with
  | none => exact rounded _ _ _
  | some d =>
    obtain ⟨n, -, found⟩ := List.exists_of_findSome?_eq_some found
    exact onGrid (n + 1) d found

theorem isNumberChar_zeros (count : Nat) :
    ∀ c ∈ List.replicate count '0', isNumberChar c = true := by
  intro c member
  cases List.eq_of_mem_replicate member
  rfl

theorem isNumberChar_exponent (power : Int) :
    ∀ c ∈ Layout.exponent power, isNumberChar c = true := by
  refine List.forall_mem_cons.mpr ⟨by split <;> rfl, ?_⟩
  exact List.forall_mem_append.mpr
    ⟨isNumberChar_zeros _, fun c digit => isNumberChar_of_isDigit (isDigit_toDigits c digit)⟩

theorem isNumberChar_write (layout : Layout) {d : Digits} (all : ∀ c ∈ d.digits, c.isDigit = true) :
    ∀ c ∈ layout.write d, isNumberChar c = true := by
  have digits : ∀ c ∈ d.digits, isNumberChar c = true :=
    fun c member => isNumberChar_of_isDigit (all c member)
  have head (count : Nat) : ∀ c ∈ d.digits.take count, isNumberChar c = true :=
    fun c member => digits c (List.mem_of_mem_take member)
  have point (count : Nat) : ∀ c ∈ '.' :: d.digits.drop count, isNumberChar c = true :=
    List.forall_mem_cons.mpr ⟨rfl, fun c member => digits c (List.mem_of_mem_drop member)⟩
  unfold Layout.write
  split
  · refine List.forall_mem_append.mpr ⟨List.forall_mem_append.mpr ⟨head 1, ?_⟩,
      List.forall_mem_cons.mpr ⟨rfl, isNumberChar_exponent d.power⟩⟩
    split
    · simp
    · exact point 1
  split
  · exact List.forall_mem_append.mpr ⟨List.forall_mem_cons.mpr ⟨rfl, List.forall_mem_cons.mpr
      ⟨rfl, isNumberChar_zeros _⟩⟩, digits⟩
  · refine List.forall_mem_append.mpr
      ⟨List.forall_mem_append.mpr ⟨head _, isNumberChar_zeros _⟩, ?_⟩
    split
    · split <;> exact List.all_eq_true.mp rfl
    · exact point _

theorem isNaN_of_isFinite {x : Binary64} (finite : x.isFinite = true) : x.isNaN = false := by
  simp only [Binary64.isFinite, decide_eq_true_eq] at finite
  simp only [Binary64.isNaN, Bool.and_eq_false_imp, decide_eq_true_eq]
  omega

theorem isNumberChar_text {x : Binary64} (finite : x.isFinite = true) :
    ∀ c ∈ x.text.toList, isNumberChar c = true := by
  have sign : ∀ c ∈ (if x.negative then ['-'] else []), isNumberChar c = true := by
    split <;> exact List.all_eq_true.mp rfl
  simp only [Binary64.text, isNaN_of_isFinite finite, Bool.false_eq_true, if_false, finite,
    if_true, String.toList_ofList, Layout.number]
  split
  · exact List.forall_mem_append.mpr ⟨sign, List.all_eq_true.mp rfl⟩
  · exact List.forall_mem_append.mpr ⟨sign, isNumberChar_write _ (isDigit_shortest x)⟩

/-- The number is finite and comes back from its own text. -/
structure ReadsBack (x : Binary64) : Prop where
  finite : x.isFinite = true
  reads : read? (float x) = some (.float x)

theorem eq_scalar_of_settled {v : Value} {s : Scalar} (same : settled v = .scalar s) :
    v = .scalar s := by
  cases v with
  | scalar _ => exact same
  | list _ | map _ => simp [settled] at same

namespace ReadsBack
variable {x : Binary64} (comes : ReadsBack x)
include comes

theorem float_eq : float x = x.text := by
  simp only [float, isNaN_of_isFinite comes.finite, comes.finite, Bool.false_eq_true, if_false,
    if_true]

theorem number?_eq : number? x.text.toList = some (.float x) := by
  have all := isNumberChar_text comes.finite
  have reads := comes.reads
  rw [comes.float_eq, read?, readEntries?] at reads
  by_cases given : x.text.toList = []
  · rw [given] at reads
    cases reads
  · have closed : Ends [] := by simp [Ends]
    have alone := value?_word x.text.length given
      (fun c member => isWordChar_of_isNumberChar (all c member)) closed
    rw [word?_number all, Option.none_or, List.append_nil] at alone
    rw [alone] at reads
    cases number : number? x.text.toList with
    | none =>
      rw [number] at reads
      cases reads
    | some v =>
      rw [number] at reads
      exact congrArg some (eq_scalar_of_settled (Option.some.inj reads))

theorem value?_float (fuel : Nat) {rest : List Char} (ends : Ends rest) :
    value? (fuel + 1) ((float x).toList ++ rest) = some (.float x, rest) := by
  rw [comes.float_eq]
  exact value?_number fuel (isNumberChar_text comes.finite) ends comes.number?_eq

end ReadsBack

/-- A scalar that JSON has a form for, and that comes back from it. -/
def Holds : Scalar → Prop
  | .null | .bool _ | .int _ | .str _ => True
  | .float x => ReadsBack x
  | _ => False

theorem toList_string (text : String) :
    (string text).toList = '"' :: (text.toList.flatMap escaped ++ ['"']) := by
  simp [string]

theorem value?_string (fuel : Nat) (text : String) (rest : List Char) :
    value? (fuel + 1) ((string text).toList ++ rest) = some (.str text, rest) := by
  rw [toList_string, List.cons_append, List.append_assoc, value?, skip_cons (by decide)]
  simp only [List.singleton_append, stringTail?_text, Option.map_some, String.ofList_toList]

/-- What is written of a scalar is read as it. -/
theorem value?_scalar (fuel : Nat) {s : Scalar} (holds : Holds s) {rest : List Char}
    (ends : Ends rest) : value? (fuel + 1) ((scalar s).toList ++ rest) = some (.scalar s, rest) := by
  cases s with
  | null => exact value?_word fuel (by decide) (List.all_eq_true.mp (by decide)) ends
  | bool b => cases b <;> exact value?_word fuel (by decide) (List.all_eq_true.mp (by decide)) ends
  | int n => exact value?_integer fuel n ends
  | float x => exact ReadsBack.value?_float holds fuel ends
  | str text => exact value?_string fuel text rest
  | timestamp _ | bytes _ | unordered _ => cases holds

end WorkloadConfig.Json
