namespace WorkloadConfig

/-- A finite map whose entries keep the order in which their keys first came. An entry that was removed
and comes back goes to the end. -/
abbrev Table (κ α : Type) := List (κ × α)

namespace Table
variable {κ α β : Type} [DecidableEq κ]

def find? : Table κ α → κ → Option α
  | [], _ => none
  | (k, a) :: rest, key => if k = key then some a else find? rest key

def contains (t : Table κ α) (key : κ) : Bool :=
  (t.find? key).isSome

/-- Writes in place where the key is present and appends where it is not. -/
def put : Table κ α → κ → α → Table κ α
  | [], key, a => [(key, a)]
  | (k, b) :: rest, key, a => if k = key then (k, a) :: rest else (k, b) :: put rest key a

def erase (t : Table κ α) (key : κ) : Table κ α :=
  t.filter fun entry => entry.1 ≠ key

/-- Writes the entries of the second table over those of the first. -/
def putAll (t : Table κ α) (entries : List (κ × α)) : Table κ α :=
  entries.foldl (fun acc entry => put acc entry.1 entry.2) t

def ofList (entries : List (κ × α)) : Table κ α :=
  putAll [] entries

omit [DecidableEq κ] in
def keys (t : Table κ α) : List κ :=
  t.map (·.1)

omit [DecidableEq κ] in
def mapValues (t : Table κ α) (f : α → β) : Table κ β :=
  t.map fun entry => (entry.1, f entry.2)

theorem find?_put_self (t : Table κ α) (key : κ) (a : α) : (t.put key a).find? key = some a := by
  induction t with
  | nil => simp [put, find?]
  | cons entry rest ih =>
    obtain ⟨k, b⟩ := entry
    by_cases same : k = key <;> simp [put, find?, same, ih]

theorem find?_put_of_ne (t : Table κ α) {key other : κ} (a : α) (apart : other ≠ key) :
    (t.put key a).find? other = t.find? other := by
  induction t with
  | nil => simp [put, find?, apart.symm]
  | cons entry rest ih =>
    obtain ⟨k, b⟩ := entry
    by_cases same : k = key
    · subst same
      simp [put, find?, apart.symm]
    · simp [put, find?, same, ih]

theorem mem_put {t : Table κ α} {key : κ} {a : α} {entry : κ × α} (member : entry ∈ t.put key a) :
    entry = (key, a) ∨ entry ∈ t := by
  induction t with
  | nil => exact .inl (List.mem_singleton.mp member)
  | cons first rest ih =>
    obtain ⟨k, b⟩ := first
    by_cases same : k = key
    · rw [put, if_pos same] at member
      rcases List.mem_cons.mp member with rfl | old
      · exact .inl (by rw [same])
      · exact .inr (List.mem_cons_of_mem _ old)
    · rw [put, if_neg same] at member
      rcases List.mem_cons.mp member with rfl | later
      · exact .inr List.mem_cons_self
      · exact (ih later).imp_right (List.mem_cons_of_mem _)

theorem mem_of_find? {t : Table κ α} {key : κ} {a : α} (found : t.find? key = some a) :
    (key, a) ∈ t := by
  induction t with
  | nil => simp [find?] at found
  | cons first rest ih =>
    obtain ⟨k, b⟩ := first
    by_cases same : k = key
    · rw [find?, if_pos same, Option.some.injEq] at found
      simp [same, found]
    · rw [find?, if_neg same] at found
      exact List.mem_cons_of_mem _ (ih found)

/-- Writing a key a second time forgets the first writing and moves nothing. -/
theorem put_put (t : Table κ α) (key : κ) (a b : α) : (t.put key a).put key b = t.put key b := by
  induction t with
  | nil => simp [put]
  | cons entry rest ih =>
    obtain ⟨k, c⟩ := entry
    by_cases same : k = key <;> simp [put, same, ih]

/-- Writing what is there already changes nothing. -/
theorem put_of_find? {t : Table κ α} {key : κ} {a : α} (found : t.find? key = some a) :
    t.put key a = t := by
  induction t with
  | nil => cases found
  | cons entry rest ih =>
    obtain ⟨k, b⟩ := entry
    by_cases same : k = key
    · simp only [find?, same, if_true, Option.some.injEq] at found
      simp only [put, same, found, if_true]
    · simp only [find?, same, if_false] at found
      simp only [put, same, if_false, ih found]

theorem keys_put (t : Table κ α) (key : κ) (a : α) :
    (t.put key a).keys = if key ∈ t.keys then t.keys else t.keys ++ [key] := by
  induction t with
  | nil => rfl
  | cons entry rest ih =>
    obtain ⟨own, b⟩ := entry
    simp only [keys] at ih
    by_cases same : own = key
    · simp [put, keys, same]
    · simp only [put, keys, same, if_false, List.map_cons, ih, List.mem_cons, Ne.symm same, false_or]
      split <;> simp_all

omit [DecidableEq κ] in
theorem keys_mapValues (t : Table κ α) (f : α → β) : (t.mapValues f).keys = t.keys := by
  simp only [keys, mapValues, List.map_map]
  rfl

theorem find?_mapValues (t : Table κ α) (f : α → β) (key : κ) :
    find? (t.mapValues f) key = (t.find? key).map f := by
  induction t with
  | nil => rfl
  | cons entry rest ih =>
    by_cases same : entry.1 = key
    · simp only [mapValues, List.map_cons, find?, same, if_true, Option.map_some]
    · simp only [mapValues, List.map_cons, find?, same, if_false] at ih ⊢
      exact ih

theorem mapValues_put (t : Table κ α) (key : κ) (a : α) (f : α → β) :
    mapValues (t.put key a) f = (mapValues t f).put key (f a) := by
  induction t with
  | nil => rfl
  | cons entry rest ih =>
    by_cases same : entry.1 = key
    · simp [put, mapValues, same]
    · simp only [put, mapValues, same, if_false, List.map_cons] at ih ⊢
      rw [ih]

omit [DecidableEq κ] in
theorem mapValues_congr {t : Table κ α} {f g : α → β} (same : ∀ entry ∈ t, f entry.2 = g entry.2) :
    mapValues t f = mapValues t g :=
  List.map_congr_left fun entry member => congrArg (Prod.mk entry.1) (same entry member)

omit [DecidableEq κ] in
theorem mapValues_mapValues (t : Table κ α) (f : α → β) {γ : Type} (g : β → γ) :
    mapValues (mapValues t f) g = mapValues t fun a => g (f a) :=
  List.map_map

end Table
end WorkloadConfig
