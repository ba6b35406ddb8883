import Mathlib.Data.List.Nodup
import Mathlib.Data.List.Perm.Basic
import WorkloadConfig.Proofs.Publishing
import WorkloadConfig.Proofs.Substitution

namespace WorkloadConfig

theorem rel_cases {α β : Type} {R : α → β → Prop} {x : Option α} {y : Option β}
    (related : Option.Rel R x y) :
    x = none ∧ y = none ∨ ∃ a b, x = some a ∧ y = some b ∧ R a b := by
  cases related with
  | none => exact .inl ⟨rfl, rfl⟩
  | some related => exact .inr ⟨_, _, rfl, rfl, related⟩

theorem rel_getD {α β : Type} {R : α → β → Prop} {x : Option α} {y : Option β}
    (related : Option.Rel R x y) {a : α} {b : β} (defaults : R a b) : R (x.getD a) (y.getD b) := by
  cases related with
  | none => exact defaults
  | some related => exact related

namespace Table
variable {κ α β γ δ : Type} [DecidableEq κ]

/-- The two tables have distinct keys, the same ones, and related values under each of them. -/
structure Reordered (R : α → β → Prop) (t : Table κ α) (u : Table κ β) : Prop where
  distinct : t.keys.Nodup
  distinct' : u.keys.Nodup
  under : ∀ key, Option.Rel R (t.find? key) (u.find? key)

theorem mem_keys_put {t : Table κ α} {key other : κ} {a : α} :
    other ∈ (t.put key a).keys ↔ other = key ∨ other ∈ t.keys := by
  rw [mem_keys_iff, mem_keys_iff]
  by_cases same : other = key
  · subst same
    simp [find?_put_self]
  · simp [find?_put_of_ne t a same, same]

theorem nodup_keys_put {t : Table κ α} (distinct : t.keys.Nodup) (key : κ) (a : α) :
    (t.put key a).keys.Nodup := by
  induction t with
  | nil => simp [put, keys]
  | cons entry rest ih =>
    obtain ⟨fresh, distinct⟩ := List.nodup_cons.mp distinct
    unfold put
    split
    · exact List.nodup_cons.mpr ⟨fresh, distinct⟩
    · rename_i apart
      refine List.nodup_cons.mpr ⟨fun member => ?_, ih distinct⟩
      exact (mem_keys_put.mp member).elim apart fresh

theorem nodup_keys_putAll {t : Table κ α} (distinct : t.keys.Nodup) (entries : List (κ × α)) :
    (t.putAll entries).keys.Nodup := by
  induction entries generalizing t with
  | nil => exact distinct
  | cons entry rest ih => exact ih (nodup_keys_put distinct entry.1 entry.2)

theorem mem_putAll {t : Table κ α} {entries : List (κ × α)} {entry : κ × α}
    (member : entry ∈ t.putAll entries) : entry ∈ t ∨ entry ∈ entries := by
  induction entries generalizing t with
  | nil => exact .inl member
  | cons first rest ih =>
    rcases ih member with old | later
    · rcases mem_put old with rfl | before
      · exact .inr List.mem_cons_self
      · exact .inl before
    · exact .inr (List.mem_cons_of_mem _ later)

theorem find?_eq_none_iff {t : Table κ α} {key : κ} : t.find? key = none ↔ key ∉ t.keys := by
  rw [mem_keys_iff, Option.eq_none_iff_forall_ne_some, not_exists]

theorem find?_eq_some_iff {t : Table κ α} (distinct : t.keys.Nodup) {key : κ} {a : α} :
    t.find? key = some a ↔ (key, a) ∈ t := by
  refine ⟨mem_of_find?, fun member => ?_⟩
  induction t with
  | nil => cases member
  | cons entry rest ih =>
    obtain ⟨fresh, distinct⟩ := List.nodup_cons.mp distinct
    rcases List.mem_cons.mp member with rfl | later
    · exact if_pos rfl
    · have apart : entry.1 ≠ key := by
        rintro rfl
        exact fresh (List.mem_map.mpr ⟨_, later, rfl⟩)
      rw [find?, if_neg apart]
      exact ih distinct later

/-- Of tables with distinct keys, the one written over the other is asked first. -/
theorem find?_putAll {t : Table κ α} {entries : List (κ × α)} (distinct : (keys entries).Nodup)
    (key : κ) : (t.putAll entries).find? key = (find? entries key).or (t.find? key) := by
  induction entries generalizing t with
  | nil => rfl
  | cons entry rest ih =>
    obtain ⟨fresh, distinct⟩ := List.nodup_cons.mp distinct
    have step : (t.putAll (entry :: rest)).find? key =
        (find? rest key).or ((t.put entry.1 entry.2).find? key) := ih distinct
    rw [step, find?]
    split
    · rename_i same
      subst same
      rw [find?_eq_none_iff.mpr fresh, find?_put_self]
      rfl
    · rename_i apart
      rw [find?_put_of_ne _ _ (Ne.symm apart)]

theorem find?_erase (t : Table κ α) (key other : κ) :
    (t.erase key).find? other = if other = key then none else t.find? other := by
  induction t with
  | nil => simp [erase, find?]
  | cons entry rest ih =>
    by_cases same : entry.1 = key
    · by_cases asked : other = key <;> simp_all [erase, find?, eq_comm]
    · by_cases asked : entry.1 = other <;> simp_all [erase, find?]

namespace Reordered
variable {R : α → β → Prop} {t : Table κ α} {u : Table κ β}

theorem nil : Reordered R ([] : Table κ α) ([] : Table κ β) :=
  ⟨.nil, .nil, fun _ => .none⟩

theorem imp_mem {S : α → β → Prop} (same : Reordered R t u)
    (implied : ∀ entry ∈ t, ∀ b, R entry.2 b → S entry.2 b) : Reordered S t u := by
  refine ⟨same.distinct, same.distinct', fun key => ?_⟩
  rcases rel_cases (same.under key) with ⟨one, two⟩ | ⟨a, b, one, two, related⟩ <;> rw [one, two]
  · exact .none
  · exact .some (implied _ (mem_of_find? one) _ related)

theorem mem_keys (same : Reordered R t u) (key : κ) : key ∈ t.keys ↔ key ∈ u.keys := by
  rw [mem_keys_iff, mem_keys_iff]
  rcases rel_cases (same.under key) with ⟨one, two⟩ | ⟨a, b, one, two, -⟩ <;> simp [one, two]

theorem keys_perm (same : Reordered R t u) : t.keys.Perm u.keys :=
  (List.perm_ext_iff_of_nodup same.distinct same.distinct').mpr same.mem_keys

theorem length_eq (same : Reordered R t u) : t.length = u.length := by
  simpa [keys] using same.keys_perm.length_eq

theorem put (same : Reordered R t u) (key : κ) {a : α} {b : β} (related : R a b) :
    Reordered R (t.put key a) (u.put key b) := by
  refine ⟨nodup_keys_put same.distinct key a, nodup_keys_put same.distinct' key b, fun other => ?_⟩
  by_cases own : other = key
  · subst own
    rw [find?_put_self, find?_put_self]
    exact .some related
  · rw [find?_put_of_ne _ _ own, find?_put_of_ne _ _ own]
    exact same.under other

theorem putAll (same : Reordered R t u) {entries : List (κ × α)} {others : List (κ × β)}
    (added : Reordered R entries others) : Reordered R (t.putAll entries) (u.putAll others) := by
  refine ⟨nodup_keys_putAll same.distinct _, nodup_keys_putAll same.distinct' _, fun key => ?_⟩
  rw [find?_putAll added.distinct, find?_putAll added.distinct']
  rcases rel_cases (added.under key) with ⟨one, two⟩ | ⟨a, b, one, two, related⟩ <;> rw [one, two]
  · exact same.under key
  · exact .some related

theorem mapValues (same : Reordered R t u) {S : γ → δ → Prop} {f : α → γ} {g : β → δ}
    (next : ∀ a b, R a b → S (f a) (g b)) : Reordered S (t.mapValues f) (u.mapValues g) := by
  refine ⟨?_, ?_, fun key => ?_⟩
  · rw [keys_mapValues]
    exact same.distinct
  · rw [keys_mapValues]
    exact same.distinct'
  · rw [find?_mapValues, find?_mapValues]
    rcases rel_cases (same.under key) with ⟨one, two⟩ | ⟨a, b, one, two, related⟩ <;> rw [one, two]
    · exact .none
    · exact .some (next _ _ related)

/-- What an entry of the one table holds is related to what the other one holds under its key. -/
theorem exists_of_mem (same : Reordered R t u) {key : κ} {a : α} (member : (key, a) ∈ t) :
    ∃ b, (key, b) ∈ u ∧ R a b := by
  have found := (find?_eq_some_iff same.distinct).mpr member
  rcases rel_cases (same.under key) with ⟨one, -⟩ | ⟨a', b, one, two, related⟩
  · simp [found] at one
  · cases Option.some.inj (found.symm.trans one)
    exact ⟨b, mem_of_find? two, related⟩

theorem flip (same : Reordered R t u) : Reordered (fun b a => R a b) u t := by
  refine ⟨same.distinct', same.distinct, fun key => ?_⟩
  rcases rel_cases (same.under key) with ⟨one, two⟩ | ⟨a, b, one, two, related⟩ <;> rw [one, two]
  · exact .none
  · exact .some related

/-- Entries under distinct keys may stand in any order. -/
theorem of_perm {R : α → α → Prop} {t u : Table κ α} (distinct : t.keys.Nodup) (perm : t.Perm u)
    (reflexive : ∀ entry ∈ t, R entry.2 entry.2) : Reordered R t u := by
  have distinct' : u.keys.Nodup := (perm.map Prod.fst).nodup_iff.mp distinct
  refine ⟨distinct, distinct', fun key => ?_⟩
  cases found : t.find? key with
  | none =>
    have absent : u.find? key = none := by
      rw [find?_eq_none_iff] at found ⊢
      exact fun there => found ((perm.map Prod.fst).mem_iff.mpr there)
    rw [absent]
    exact .none
  | some a =>
    have member := (find?_eq_some_iff distinct).mp found
    rw [(find?_eq_some_iff distinct').mpr (perm.mem_iff.mp member)]
    exact .some (reflexive _ member)

theorem find?_eq {t u : Table κ α} (same : Reordered (· = ·) t u) (key : κ) :
    t.find? key = u.find? key := by
  rcases rel_cases (same.under key) with ⟨one, two⟩ | ⟨a, b, one, two, rfl⟩ <;> rw [one, two]

theorem of_find?_eq {t u : Table κ α} (distinct : t.keys.Nodup) (distinct' : u.keys.Nodup)
    (equal : ∀ key, t.find? key = u.find? key) : Reordered (· = ·) t u := by
  refine ⟨distinct, distinct', fun key => ?_⟩
  rw [equal]
  cases u.find? key with
  | none => exact .none
  | some a => exact .some rfl

theorem trans {t u v : Table κ α} (first : Reordered (· = ·) t u)
    (second : Reordered (· = ·) u v) : Reordered (· = ·) t v :=
  of_find?_eq first.distinct second.distinct' fun key => (first.find?_eq key).trans (second.find?_eq key)

/-- Tables of equal values have the same entries. -/
theorem perm {t u : Table κ α} (same : Reordered (· = ·) t u) : t.Perm u := by
  have nodup {v : Table κ α} (distinct : v.keys.Nodup) : v.Nodup := List.Nodup.of_map _ distinct
  refine (List.perm_ext_iff_of_nodup (nodup same.distinct) (nodup same.distinct')).mpr ?_
  rintro ⟨key, a⟩
  constructor
  · intro member
    obtain ⟨_, other, rfl⟩ := same.exists_of_mem member
    exact other
  · intro member
    obtain ⟨_, other, rfl⟩ := same.flip.exists_of_mem member
    exact other

/-- Tables made of the same items in another order, each item under a key of its own. -/
theorem of_items {items others : List γ} {key : γ → κ} {f : γ → α} {g : γ → β}
    (perm : items.Perm others) (distinct : (items.map key).Nodup)
    (related : ∀ item ∈ items, R (f item) (g item)) :
    Reordered R (items.map fun item => (key item, f item))
      (others.map fun item => (key item, g item)) := by
  have split {δ : Type} (items : List γ) (h : γ → δ) :
      items.map (fun item => (key item, h item)) =
        Table.mapValues (items.map fun item => (key item, item)) h := by
    simp [Table.mapValues]
  have same : Reordered (fun a b => a = b ∧ a ∈ items) (items.map fun item => (key item, item))
      (others.map fun item => (key item, item)) := by
    refine .of_perm (by simpa [keys, Function.comp_def] using distinct) (perm.map _) ?_
    intro entry member
    obtain ⟨item, among, rfl⟩ := List.mem_map.mp member
    exact ⟨rfl, among⟩
  rw [split items f, split others g]
  exact same.mapValues fun a b both => both.1 ▸ related a both.2

/-- Where a function comes to the same on related values, it gives the same entries. -/
theorem perm_mapValues (same : Reordered R t u) {f : α → γ} {g : β → γ}
    (equal : ∀ a b, R a b → f a = g b) : (t.mapValues f).Perm (u.mapValues g) :=
  (same.mapValues equal).perm

end Reordered

/-- The tables have the same keys in the same order, and related values under them. -/
def Aligned {κ : Type} (R : α → β → Prop) (t : Table κ α) (u : Table κ β) : Prop :=
  List.Forall₂ (fun entry other => entry.1 = other.1 ∧ R entry.2 other.2) t u

namespace Aligned
variable {R : α → β → Prop} {t : Table κ α} {u : Table κ β}

omit [DecidableEq κ] in
theorem keys_eq (same : Aligned R t u) : t.keys = u.keys := by
  induction same with
  | nil => rfl
  | cons first _ ih => exact congrArg₂ List.cons first.1 ih

theorem under (same : Aligned R t u) (key : κ) : Option.Rel R (t.find? key) (u.find? key) := by
  induction same with
  | nil => exact .none
  | @cons entry other _ _ first _ ih =>
    rw [find?, find?, first.1]
    split
    · exact .some first.2
    · exact ih

theorem put (same : Aligned R t u) (key : κ) {a : α} {b : β} (related : R a b) :
    Aligned R (t.put key a) (u.put key b) := by
  induction same with
  | nil => exact .cons ⟨rfl, related⟩ .nil
  | @cons entry other _ _ first later ih =>
    rw [Table.put, Table.put, first.1]
    split
    · exact .cons ⟨rfl, related⟩ later
    · exact .cons ⟨rfl, first.2⟩ ih

omit [DecidableEq κ] in
theorem mapValues (same : Aligned R t u) {S : γ → δ → Prop} {f : α → γ} {g : β → δ}
    (next : ∀ a b, R a b → S (f a) (g b)) : Aligned S (t.mapValues f) (u.mapValues g) := by
  induction same with
  | nil => exact .nil
  | cons first _ ih => exact .cons ⟨first.1, next _ _ first.2⟩ ih

theorem reordered (same : Aligned R t u) (distinct : t.keys.Nodup) : Reordered R t u :=
  ⟨distinct, same.keys_eq ▸ distinct, same.under⟩

omit [DecidableEq κ] in
theorem exists_of_mem (same : Aligned R t u) {key : κ} {a : α} (member : (key, a) ∈ t) :
    ∃ b, (key, b) ∈ u ∧ R a b := by
  obtain ⟨⟨_, b⟩, within, rfl, related⟩ := exists_of_forall₂ same member
  exact ⟨b, within, related⟩

omit [DecidableEq κ] in
theorem exists_right (each : ∀ entry ∈ t, ∃ b, R entry.2 b) : ∃ u : Table κ β, Aligned R t u := by
  induction t with
  | nil => exact ⟨[], .nil⟩
  | cons entry rest ih =>
    obtain ⟨⟨b, first⟩, later⟩ := List.forall_mem_cons.mp each
    obtain ⟨u, aligned⟩ := ih later
    exact ⟨(entry.1, b) :: u, .cons ⟨rfl, first⟩ aligned⟩

/-- Where something stands beside each entry of a reordering, something stands beside each entry. -/
theorem exists_of_reordered {P : α → γ → Prop} {Q : β → δ → Prop} {t' : Table κ γ}
    (same : Reordered R t u) (aligned : Aligned P t t')
    (carried : ∀ a b, R a b → (∃ c, P a c) → ∃ d, Q b d) : ∃ u' : Table κ δ, Aligned Q u u' := by
  refine exists_right fun entry member => ?_
  obtain ⟨a, other, related⟩ := same.flip.exists_of_mem member
  obtain ⟨c, -, beside⟩ := aligned.exists_of_mem other
  exact carried a entry.2 related ⟨c, beside⟩

/-- What stands beside reorderings is in the same order as they are. -/
theorem reordered_of_reordered {P : α → γ → Prop} {Q : β → δ → Prop} {S : γ → δ → Prop}
    {t' : Table κ γ} {u' : Table κ δ} (same : Reordered R t u) (first : Aligned P t t')
    (second : Aligned Q u u') (implied : ∀ a b c d, R a b → P a c → Q b d → S c d) :
    Reordered S t' u' := by
  refine ⟨first.keys_eq ▸ same.distinct, second.keys_eq ▸ same.distinct', fun key => ?_⟩
  have beside := first.under key
  have beside' := second.under key
  rcases rel_cases (same.under key) with ⟨one, two⟩ | ⟨a, b, one, two, related⟩ <;>
    rw [one] at beside <;> rw [two] at beside'
  · generalize t'.find? key = c, u'.find? key = d at beside beside' ⊢
    cases beside
    cases beside'
    exact .none
  · generalize t'.find? key = c, u'.find? key = d at beside beside' ⊢
    cases beside with
    | some ofFirst =>
      cases beside' with
      | some ofSecond => exact .some (implied _ _ _ _ related ofFirst ofSecond)

end Aligned

theorem put_of_absent {t : Table κ α} {key : κ} (a : α) (absent : t.find? key = none) :
    t.put key a = t ++ [(key, a)] := by
  induction t with
  | nil => rfl
  | cons entry rest ih =>
    obtain ⟨own, b⟩ := entry
    by_cases same : own = key
    · simp [find?, same] at absent
    · simp only [find?, same, if_false] at absent
      simp only [Table.put, same, if_false, ih absent, List.cons_append]

theorem putAll_of_nodup {t entries : Table κ α} (distinct : (t ++ entries).keys.Nodup) :
    t.putAll entries = t ++ entries := by
  induction entries generalizing t with
  | nil => exact (List.append_nil t).symm
  | cons entry rest ih =>
    have absent : t.find? entry.1 = none := by
      simp only [keys, List.map_append, List.map_cons, List.nodup_append] at distinct
      exact find?_eq_none_iff.mpr fun there => distinct.2.2 _ there _ List.mem_cons_self rfl
    have step : t.putAll (entry :: rest) = (t.put entry.1 entry.2).putAll rest := rfl
    rw [step, put_of_absent _ absent, ih]
    · simp
    · simpa using distinct

theorem ofList_of_nodup {t : Table κ α} (distinct : t.keys.Nodup) : ofList t = t :=
  putAll_of_nodup (t := []) distinct

omit [DecidableEq κ] in
/-- A table made of some of the items, each under the key that it has alone, holds no key twice. -/
theorem nodup_keys_filterMap {items : List γ} {key : γ → κ} {f : γ → Option (κ × α)}
    (distinct : (items.map key).Nodup)
    (own : ∀ item entry, f item = some entry → entry.1 = key item) :
    (keys (items.filterMap f)).Nodup := by
  rw [List.Nodup, List.pairwise_map] at distinct
  rw [keys, List.Nodup, List.pairwise_map, List.pairwise_filterMap]
  refine distinct.imp fun {item other} apart entry made entry' made' => ?_
  rw [own item entry made, own other entry' made']
  exact apart

/-- The entries of a map under the texts. -/
def keyed (t : Table String α) : List (Key × α) :=
  t.map fun entry => (.str entry.1, entry.2)

section
variable {t : Table String α} {u : Table String β} {R : α → β → Prop}

theorem keys_keyed (t : Table String α) : keys t.keyed = t.keys.map .str := by
  simp only [keyed, keys, List.map_map]
  rfl

theorem injective_str : Function.Injective Key.str := fun a b same => by simpa using same

theorem nodup_keys_keyed : (keys t.keyed).Nodup ↔ t.keys.Nodup := by
  rw [keys_keyed]
  exact List.nodup_map_iff injective_str

theorem find?_keyed (t : Table String α) (k : String) : find? t.keyed (.str k) = t.find? k := by
  induction t with
  | nil => rfl
  | cons entry rest ih =>
    by_cases same : entry.1 = k
    · simp [keyed, find?, same]
    · simpa [keyed, find?, same] using ih

theorem exists_keyed {entries : List (Key × α)} (texts : ∀ key ∈ keys entries, key.isText = true) :
    ∃ t : Table String α, entries = t.keyed := by
  induction entries with
  | nil => exact ⟨[], rfl⟩
  | cons entry rest ih =>
    obtain ⟨first, later⟩ := List.forall_mem_cons.mp texts
    obtain ⟨text, isText⟩ := Value.eq_str_of_isText first
    obtain ⟨t, rfl⟩ := ih later
    exact ⟨(text, entry.2) :: t, by simp [keyed, ← isText]⟩

theorem isText_keyed (t : Table String α) : ∀ key ∈ keys t.keyed, key.isText = true := by
  rw [keys_keyed]
  exact List.forall_mem_map.mpr fun _ _ => rfl

theorem reordered_keyed : Reordered R t.keyed u.keyed ↔ Reordered R t u := by
  constructor
  · intro same
    refine ⟨nodup_keys_keyed.mp same.distinct, nodup_keys_keyed.mp same.distinct', fun k => ?_⟩
    rw [← find?_keyed, ← find?_keyed]
    exact same.under (.str k)
  · intro same
    refine ⟨nodup_keys_keyed.mpr same.distinct, nodup_keys_keyed.mpr same.distinct', fun key => ?_⟩
    have absent {γ : Type} (v : Table String γ) (noText : ∀ k, key ≠ .str k) :
        find? v.keyed key = none := by
      refine find?_eq_none_iff.mpr fun there => ?_
      obtain ⟨k, rfl⟩ := Value.eq_str_of_isText (isText_keyed v key there)
      exact noText k rfl
    rcases key.text_or_not with ⟨k, rfl⟩ | noText
    · rw [find?_keyed, find?_keyed]
      exact same.under k
    · rw [absent t noText, absent u noText]
      exact .none

end
end Table

namespace Sorting
variable {α β : Type}

theorem insert_map (le : β → β → Bool) (f : α → β) (a : α) (items : List α) :
    insert le (f a) (items.map f) = (insert (fun a b => le (f a) (f b)) a items).map f := by
  induction items with
  | nil => rfl
  | cons b rest ih =>
    by_cases before : le (f a) (f b) = true
    · simp [insert, before]
    · simp [insert, before, ih]

theorem sort_map (le : β → β → Bool) (f : α → β) (items : List α) :
    sort le (items.map f) = (sort (fun a b => le (f a) (f b)) items).map f := by
  induction items with
  | nil => rfl
  | cons a rest ih =>
    have step : sort le ((a :: rest).map f) = insert le (f a) (sort le (rest.map f)) := rfl
    rw [step, ih, insert_map]
    rfl

end Sorting

theorem pairwise_byKey {α : Type} (t : Table String α) :
    (byKey t).Pairwise fun a b => decide (a.1 ≤ b.1) = true := by
  refine Sorting.sort_pairwise (fun a b => ?_) (fun a b c => ?_) t
  · simpa only [decide_eq_true_eq] using String.le_total a.1 b.1
  · simpa only [decide_eq_true_eq] using String.le_trans

/-- Entries under distinct texts come in one order, wherever they stood. -/
theorem byKey_eq_of_perm {α : Type} {t u : Table String α} (distinct : t.keys.Nodup)
    (perm : t.Perm u) : byKey t = byKey u := by
  refine List.Perm.eq_of_pairwise (fun a b inT inU before behind => ?_)
    (pairwise_byKey t) (pairwise_byKey u)
    ((Sorting.sort_perm _ t).trans (perm.trans (Sorting.sort_perm _ u).symm))
  have member := (Sorting.sort_perm _ t).mem_iff.mp inT
  have other := perm.mem_iff.mpr ((Sorting.sort_perm _ u).mem_iff.mp inU)
  simp only [decide_eq_true_eq] at before behind
  have same := String.le_antisymm before behind
  rw [← Table.find?_eq_some_iff distinct] at member other
  rw [same, other, Option.some.injEq] at member
  exact Prod.ext same member.symm

/-- The same for maps, if all their keys are texts. -/
theorem sort_entries_eq_of_perm {α : Type} {entries others : List (Key × α)}
    (texts : ∀ key ∈ Table.keys entries, key.isText = true) (distinct : (Table.keys entries).Nodup)
    (perm : entries.Perm others) :
    Sorting.sort (fun a b => a.1.le b.1) entries = Sorting.sort (fun a b => a.1.le b.1) others := by
  obtain ⟨t, rfl⟩ := Table.exists_keyed texts
  obtain ⟨u, rfl⟩ := Table.exists_keyed fun key member =>
    texts key ((perm.map Prod.fst).mem_iff.mpr member)
  have injective : Function.Injective fun entry : String × α => (Key.str entry.1, entry.2) := by
    rintro ⟨a, x⟩ ⟨b, y⟩ same
    simpa using same
  unfold Table.keyed at perm ⊢
  rw [Sorting.sort_map, Sorting.sort_map]
  exact congrArg (List.map _) (byKey_eq_of_perm (Table.nodup_keys_keyed.mp distinct)
    ((List.map_perm_map_iff injective).mp perm))

end WorkloadConfig
