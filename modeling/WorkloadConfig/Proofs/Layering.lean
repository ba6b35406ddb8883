import WorkloadConfig.Proofs.Agreement
import WorkloadConfig.Proofs.Order.Merging

namespace WorkloadConfig

namespace Key
variable {α : Type} {entries : List (Key × α)} {key other asked : Key} {a : α}

/-- What the entries hold under the key, or under one that agrees with it. -/
def near? (entries : List (Key × α)) (key : Key) : Option α :=
  (entries.find? fun entry => entry.1.agrees key).map (·.2)

/-- No two keys of the entries agree. -/
def Apart (entries : List (Key × α)) : Prop :=
  entries.Pairwise fun a b => ¬ a.1.agrees b.1 = true

theorem agrees_iff_of_agrees (near : key.agrees other = true) :
    asked.agrees key = true ↔ asked.agrees other = true :=
  ⟨fun agree => agrees_trans agree near, fun agree => agrees_trans agree (agrees_symm near)⟩

theorem near?_cons (entry : Key × α) (rest : List (Key × α)) (key : Key) :
    near? (entry :: rest) key = if entry.1.agrees key then some entry.2 else near? rest key := by
  unfold near?
  rw [List.find?_cons]
  cases entry.1.agrees key <;> rfl

theorem near?_eq_none_iff :
    near? entries key = none ↔ ∀ entry ∈ entries, ¬ entry.1.agrees key = true := by
  simp [near?]

theorem mem_of_near? (found : near? entries key = some a) :
    ∃ own, (own, a) ∈ entries ∧ own.agrees key = true := by
  obtain ⟨entry, isFound, rfl⟩ := Option.map_eq_some_iff.mp found
  have agree := List.find?_some isFound
  exact ⟨entry.1, List.mem_of_find?_eq_some isFound, agree⟩

theorem near?_congr (near : key.agrees other = true) : near? entries key = near? entries other := by
  unfold near?
  congr 2
  funext entry
  exact Bool.eq_iff_iff.mpr (agrees_iff_of_agrees near)

theorem alignedWith_cons (entry : Key × α) (rest : List (Key × α)) (key : Key) :
    alignedWith (entry :: rest) key =
      if entry.1.agrees key then entry.1 else alignedWith rest key := by
  unfold alignedWith
  rw [List.find?_cons]
  cases entry.1.agrees key <;> rfl

/-- A key is aligned with one of those that agree with it, and itself if there are none. -/
theorem alignedWith_cases (entries : List (Key × α)) (key : Key) :
    alignedWith entries key = key ∧ near? entries key = none ∨
      (alignedWith entries key).agrees key = true ∧ alignedWith entries key ∈ Table.keys entries := by
  unfold alignedWith near?
  cases found : entries.find? fun entry => entry.1.agrees key with
  | none => exact .inl ⟨rfl, rfl⟩
  | some entry =>
    have agree := List.find?_some found
    exact .inr ⟨agree, List.mem_map_of_mem (List.mem_of_find?_eq_some found)⟩

/-- A key that is aligned with none of those that are there differs from each of them, if it agrees
with anything at all. -/
theorem ne_alignedWith (near : key.agrees asked = true) (apart : ¬ other.agrees key = true) :
    other ≠ alignedWith entries key := by
  rintro rfl
  rcases alignedWith_cases entries key with ⟨same, -⟩ | ⟨agree, -⟩
  · exact apart (same.symm ▸ agrees_trans near (agrees_symm near))
  · exact apart agree

theorem not_agrees_alignedWith (apart : ¬ key.agrees asked = true) :
    ¬ (alignedWith entries key).agrees asked = true := by
  intro agree
  rcases alignedWith_cases entries key with ⟨same, -⟩ | ⟨near, -⟩
  · exact apart (same ▸ agree)
  · exact apart (agrees_trans (agrees_symm near) agree)

theorem find?_alignedWith (near : key.agrees asked = true) :
    Table.find? entries (alignedWith entries key) = near? entries asked := by
  rw [← near?_congr near]
  induction entries with
  | nil => rfl
  | cons entry rest ih =>
    rw [alignedWith_cons, near?_cons]
    split
    · exact if_pos rfl
    · rename_i apart
      rw [Table.find?, if_neg (ne_alignedWith near apart), ih]

theorem near?_put_alignedWith (entries : List (Key × α)) (key asked : Key) (a : α) :
    near? (Table.put entries (alignedWith entries key) a) asked =
      if key.agrees asked then some a else near? entries asked := by
  induction entries with
  | nil => exact near?_cons _ _ _
  | cons entry rest ih =>
    rw [alignedWith_cons]
    by_cases here : entry.1.agrees key = true
    · have same : entry.1.agrees asked = key.agrees asked :=
        Bool.eq_iff_iff.mpr ⟨fun agree => agrees_trans (agrees_symm here) agree, agrees_trans here⟩
      rw [if_pos here, Table.put, if_pos rfl, near?_cons, near?_cons, same]
      split <;> rfl
    rw [if_neg here]
    -- The key goes behind this entry, and what is asked for agrees with one of the two at most.
    by_cases near : key.agrees asked = true
    · have apart : ¬ entry.1.agrees asked = true :=
        fun agree => here (agrees_trans agree (agrees_symm near))
      rw [Table.put, if_neg (ne_alignedWith near here), near?_cons, if_neg apart, ih]
      rw [if_pos near, if_pos near]
    · rw [if_neg near] at ih ⊢
      rw [near?_cons, Table.put]
      split
      · rename_i same
        have apart : ¬ (alignedWith rest key).agrees asked = true := not_agrees_alignedWith near
        rw [near?_cons, same, if_neg apart, if_neg apart]
      · rw [near?_cons, ih]

theorem near?_erase_alignedWith (apart : Apart entries) (key asked : Key) :
    near? (Table.erase entries (alignedWith entries key)) asked =
      if key.agrees asked then none else near? entries asked := by
  split
  · rename_i near
    refine near?_eq_none_iff.mpr fun entry member agree => ?_
    obtain ⟨within, differs⟩ := List.mem_filter.mp member
    have agree : entry.1.agrees key = true := agrees_trans agree (agrees_symm near)
    rcases alignedWith_cases entries key with ⟨-, absent⟩ | ⟨aligned, among⟩
    · exact near?_eq_none_iff.mp absent entry within agree
    · obtain ⟨twin, within', same⟩ := List.mem_map.mp among
      have symmetric : Std.Symm fun a b : Key × α => ¬ a.1.agrees b.1 = true :=
        ⟨fun _ _ differ agree => differ (agrees_symm agree)⟩
      refine apart.forall within within' ?_ (agrees_trans agree (agrees_symm (same ▸ aligned)))
      rintro rfl
      exact of_decide_eq_true differs same
  · rename_i differs
    rw [Table.erase, near?, near?, List.find?_filter]
    congr 2
    funext entry
    cases agree : entry.1.agrees asked with
    | false => simp
    | true =>
      refine decide_eq_true ⟨decide_eq_true ?_, rfl⟩
      rintro same
      exact not_agrees_alignedWith differs (same ▸ agree)

theorem Apart.put (apart : Apart entries) (a : α)
    (sound : near? entries key = none ∨ key ∈ Table.keys entries) :
    Apart (Table.put entries key a) := by
  induction entries with
  | nil => exact List.pairwise_singleton _ _
  | cons entry rest ih =>
    obtain ⟨fresh, others⟩ := List.pairwise_cons.mp apart
    rw [Table.put]
    split
    · exact List.pairwise_cons.mpr ⟨fresh, others⟩
    rename_i differs
    obtain ⟨apartFromKey, within⟩ : ¬ entry.1.agrees key = true ∧
        (near? rest key = none ∨ key ∈ Table.keys rest) := by
      rcases sound with absent | among
      · rw [near?_eq_none_iff] at absent ⊢
        obtain ⟨first, later⟩ := List.forall_mem_cons.mp absent
        exact ⟨first, .inl later⟩
      · have among := (List.mem_cons.mp among).resolve_left (Ne.symm differs)
        obtain ⟨twin, member, rfl⟩ := List.mem_map.mp among
        exact ⟨fresh twin member, .inr among⟩
    refine List.pairwise_cons.mpr ⟨fun other member => ?_, ih others within⟩
    rcases Table.mem_put member with rfl | old
    · exact apartFromKey
    · exact fresh other old

theorem Apart.put_alignedWith (apart : Apart entries) (key : Key) (a : α) :
    Apart (Table.put entries (alignedWith entries key) a) := by
  refine apart.put a ((alignedWith_cases entries key).imp (fun ⟨same, absent⟩ => ?_) And.right)
  rwa [same]

theorem Apart.near?_rest {entry : Key × α} (apart : Apart (entry :: entries))
    (agree : entry.1.agrees key = true) : near? entries key = none :=
  near?_eq_none_iff.mpr fun other member near =>
    (List.pairwise_cons.mp apart).1 other member (agrees_trans agree (agrees_symm near))

theorem Apart.erase (apart : Apart entries) (key : Key) : Apart (Table.erase entries key) :=
  apart.sublist List.filter_sublist

end Key

namespace Value
variable {below upper entries : List (Key × Value)} {v w base : Value} {key asked : Key}

theorem mergeEntries_erase (below : List (Key × Value)) (key : Key) (rest : List (Key × Value)) :
    mergeEntries below ((key, .null) :: rest) =
      mergeEntries (Table.erase below (Key.alignedWith below key)) rest := by
  rw [mergeEntries]

theorem mergeEntries_put (below : List (Key × Value)) (key : Key) (given : v ≠ .null)
    (rest : List (Key × Value)) : mergeEntries below ((key, v) :: rest) =
      mergeEntries (Table.put below (Key.alignedWith below key)
        (v.laidOn (Table.find? below (Key.alignedWith below key)))) rest := by
  rw [mergeEntries]
  · rfl
  · exact given

/-- A merged map has under each key the upper value laid over the lower one; null removes what is
below it. -/
theorem near?_mergeEntries (apart : Key.Apart below) (apart' : Key.Apart upper) (key : Key) :
    Key.near? (mergeEntries below upper) key = match Key.near? upper key with
      | none => Key.near? below key
      | some v => if v = .null then none else some (v.laidOn (Key.near? below key)) := by
  induction upper generalizing below with
  | nil => rfl
  | cons entry rest ih =>
    obtain ⟨own, v⟩ := entry
    obtain ⟨-, others⟩ := List.pairwise_cons.mp apart'
    rw [Key.near?_cons]
    by_cases null : v = .null
    · subst null
      rw [mergeEntries_erase, ih (apart.erase _) others, Key.near?_erase_alignedWith apart]
      by_cases agree : own.agrees key = true
      · simp only [agree, apart'.near?_rest agree, if_true]
      · simp only [agree]
        rfl
    · rw [mergeEntries_put below own null, ih (apart.put_alignedWith _ _) others,
        Key.near?_put_alignedWith]
      by_cases agree : own.agrees key = true
      · simp only [agree, apart'.near?_rest agree, null, if_true, if_false,
          Key.find?_alignedWith agree]
      · simp only [agree]
        rfl

theorem near?_stripNullEntries (apart : Key.Apart entries) (key : Key) :
    Key.near? (stripNullEntries entries) key =
      (Key.near? entries key).bind fun v => if v = .null then none else some v.stripNulls := by
  induction entries with
  | nil => rfl
  | cons entry rest ih =>
    obtain ⟨own, v⟩ := entry
    obtain ⟨-, others⟩ := List.pairwise_cons.mp apart
    rw [Key.near?_cons]
    by_cases null : v = .null
    · subst null
      rw [stripNullEntries, ih others]
      split
      · rename_i agree
        rw [apart.near?_rest agree]
        rfl
      · rfl
    · rw [stripNullEntries_cons own null, Key.near?_cons, ih others]
      split
      · exact (if_neg null).symm
      · rfl

theorem mem_stripNullEntries {entry : Key × Value} (member : entry ∈ stripNullEntries entries) :
    ∃ v, (entry.1, v) ∈ entries ∧ entry.2 = v.stripNulls := by
  induction entries with
  | nil => cases member
  | cons first rest ih =>
    obtain ⟨own, v⟩ := first
    by_cases null : v = .null
    · subst null
      obtain ⟨w, within, same⟩ := ih member
      exact ⟨w, List.mem_cons_of_mem _ within, same⟩
    · rw [stripNullEntries_cons own null] at member
      rcases List.mem_cons.mp member with rfl | later
      · exact ⟨v, List.mem_cons_self, rfl⟩
      · obtain ⟨w, within, same⟩ := ih later
        exact ⟨w, List.mem_cons_of_mem _ within, same⟩

theorem keysApart_null : KeysApart .null :=
  Eq.refl true

/-- What the value, if it is a map, holds under the key or one that agrees with it. -/
def under? (v : Value) (key : Key) : Option Value :=
  Key.near? v.entries key

/-- Over nothing a value is laid as over null. -/
theorem laidOn_eq_merge (v : Value) (old : Option Value) : v.laidOn old = (old.getD .null).merge v := by
  cases old with
  | none => cases v <;> rfl
  | some base => rfl

/-- Under a key that the upper map has not, the merged one has what is below; under one that it has,
the upper value merged over what is below, and nothing if it is null. -/
theorem under?_merge (apart : base.KeysApart) (apart' : (Value.map upper).KeysApart) (key : Key) :
    (base.merge (.map upper)).under? key = match (Value.map upper).under? key with
      | none => base.under? key
      | some v => if v = .null then none else some (((base.under? key).getD .null).merge v) := by
  have onNothing : Key.near? (stripNullEntries upper) key = match Key.near? upper key with
      | none => none
      | some v => if v = .null then none else some (merge .null v) := by
    rw [near?_stripNullEntries (keysApart_map.mp apart').1]
    cases Key.near? upper key with
    | none => rfl
    | some v => exact congrArg (if v = .null then none else some ·) (laidOn_eq_merge v none)
  cases base with
  | map below =>
    refine (near?_mergeEntries (keysApart_map.mp apart).1 (keysApart_map.mp apart').1 key).trans ?_
    simp only [laidOn_eq_merge]
    rfl
  | scalar _ | list _ => exact onNothing

theorem KeysApart.under? (apart : v.KeysApart) (found : v.under? key = some w) : w.KeysApart := by
  cases v with
  | map entries =>
    obtain ⟨own, member, -⟩ := Key.mem_of_near? found
    exact (keysApart_map.mp apart).2 (own, w) member
  | scalar _ | list _ => cases found

theorem KeysApart.stripNulls (apart : v.KeysApart) : v.stripNulls.KeysApart := by
  induction v using Value.induction with
  | scalar _ | list _ => exact apart
  | map entries ih =>
    obtain ⟨keys, values⟩ := keysApart_map.mp apart
    refine keysApart_map.mpr ⟨?_, fun entry member => ?_⟩
    · have apart : (Table.keys entries).Pairwise fun k l => ¬ k.agrees l = true :=
        List.pairwise_map.mpr keys
      exact List.pairwise_map.mp (apart.sublist (keys_stripNullEntries entries))
    · obtain ⟨v, within, same⟩ := mem_stripNullEntries member
      exact same ▸ ih _ within (values _ within)

theorem KeysApart.mergeEntries (apart : (Value.map below).KeysApart)
    (each : ∀ entry ∈ upper, ∀ base : Value, base.KeysApart → (base.merge entry.2).KeysApart) :
    (Value.map (mergeEntries below upper)).KeysApart := by
  induction upper generalizing below with
  | nil => exact apart
  | cons entry rest ih =>
    obtain ⟨key, v⟩ := entry
    obtain ⟨first, later⟩ := List.forall_mem_cons.mp each
    obtain ⟨keys, values⟩ := keysApart_map.mp apart
    by_cases null : v = .null
    · subst null
      rw [mergeEntries_erase]
      refine ih (keysApart_map.mpr ⟨Key.Apart.erase keys _, fun entry member => ?_⟩) later
      exact values entry (List.mem_filter.mp member).1
    · rw [mergeEntries_put below key null]
      refine ih (keysApart_map.mpr ⟨Key.Apart.put_alignedWith keys _ _, fun entry member => ?_⟩) later
      rcases Table.mem_put member with rfl | old
      · rw [laidOn_eq_merge]
        refine first _ ?_
        cases found : Table.find? below (Key.alignedWith below key) with
        | none => exact keysApart_null
        | some old => exact values _ (Table.mem_of_find? found)
      · exact values entry old

theorem KeysApart.merge (apart : base.KeysApart) (apart' : v.KeysApart) :
    (base.merge v).KeysApart := by
  induction v using Value.induction generalizing base with
  | scalar _ | list _ => exact apart'
  | map entries ih =>
    have values := (keysApart_map.mp apart').2
    cases base with
    | map below =>
      exact apart.mergeEntries fun entry member base apart =>
        ih entry member apart (values entry member)
    | scalar _ | list _ => exact apart'.stripNulls

end Value
end WorkloadConfig
