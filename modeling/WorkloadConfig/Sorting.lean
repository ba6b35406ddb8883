namespace WorkloadConfig.Sorting
variable {α : Type}

def insert (le : α → α → Bool) (a : α) : List α → List α
  | [] => [a]
  | b :: rest => if le a b then a :: b :: rest else b :: insert le a rest

/-- Sorting by insertion is stable: of two items that the order does not tell apart the earlier one
stays in front. -/
def sort (le : α → α → Bool) (items : List α) : List α :=
  items.foldr (insert le) []

theorem insert_perm (le : α → α → Bool) (a : α) (items : List α) :
    (insert le a items).Perm (a :: items) := by
  induction items with
  | nil => exact .refl _
  | cons b rest ih =>
    by_cases first : le a b
    · simp [insert, first]
    · simpa [insert, first] using (ih.cons b).trans (List.Perm.swap a b rest)

/-- Sorting neither loses nor repeats an item. -/
theorem sort_perm (le : α → α → Bool) (items : List α) : (sort le items).Perm items := by
  induction items with
  | nil => exact .refl _
  | cons a rest ih => exact (insert_perm le a _).trans (ih.cons a)

/-- Items that are in order stay as they are. -/
theorem sort_eq_self {le : α → α → Bool} {items : List α} (sorted : items.Pairwise (le · · = true)) :
    sort le items = items := by
  induction items with
  | nil => rfl
  | cons a rest ih =>
    obtain ⟨first, others⟩ := List.pairwise_cons.mp sorted
    have step : sort le (a :: rest) = insert le a (sort le rest) := rfl
    rw [step, ih others]
    cases rest with
    | nil => rfl
    | cons b later => exact if_pos (first b List.mem_cons_self)

section
variable {le : α → α → Bool} (total : ∀ a b, le a b = true ∨ le b a = true)
variable (transitive : ∀ a b c, le a b = true → le b c = true → le a c = true)
include total transitive

theorem insert_pairwise {a : α} {items : List α} (sorted : items.Pairwise (le · · = true)) :
    (insert le a items).Pairwise (le · · = true) := by
  induction items with
  | nil => exact List.pairwise_singleton _ _
  | cons b rest ih =>
    obtain ⟨first, others⟩ := List.pairwise_cons.mp sorted
    by_cases before : le a b = true
    · simp only [insert, before, if_true, List.pairwise_cons, List.forall_mem_cons]
      exact ⟨⟨trivial, fun c member => transitive a b c before (first c member)⟩, first, others⟩
    · have after := (total a b).resolve_left before
      simp only [insert, before, Bool.false_eq_true, if_false, List.pairwise_cons]
      refine ⟨fun c member => ?_, ih others⟩
      rcases List.mem_cons.mp ((insert_perm le a rest).mem_iff.mp member) with rfl | later
      · exact after
      · exact first c later

theorem sort_pairwise (items : List α) : (sort le items).Pairwise (le · · = true) := by
  induction items with
  | nil => exact .nil
  | cons a rest ih => exact insert_pairwise total transitive ih

/-- An order that tells all items apart sorts them the same way wherever they stood. -/
theorem sort_eq_of_perm (antisymmetric : ∀ a b, le a b = true → le b a = true → a = b)
    {items others : List α} (perm : items.Perm others) : sort le items = sort le others :=
  List.Perm.eq_of_pairwise (fun a b _ _ => antisymmetric a b)
    (sort_pairwise total transitive items) (sort_pairwise total transitive others)
    ((sort_perm le items).trans (perm.trans (sort_perm le others).symm))

end

/-- Texts are ordered by the code points of their characters. -/
def texts (items : List String) : List String :=
  sort (fun a b => decide (a ≤ b)) items

theorem texts_eq_of_perm {items others : List String} (perm : items.Perm others) :
    texts items = texts others := by
  refine sort_eq_of_perm ?_ ?_ ?_ perm
  · intro a b
    simpa only [decide_eq_true_eq] using String.le_total a b
  · intro a b c
    simpa only [decide_eq_true_eq] using String.le_trans
  · intro a b
    simpa only [decide_eq_true_eq] using String.le_antisymm

end WorkloadConfig.Sorting
