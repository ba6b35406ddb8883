import WorkloadConfig.Proofs.Order.Values
import WorkloadConfig.Schema

namespace WorkloadConfig

/-- What becomes of a failure in a pass: the outcome reports it, or it is the rejection of a config
record and turned into a cause to report, or it escapes to the caller. -/
inductive Fate where
  | reported
  | rejected
  | escaping

def Failure.fate : Failure → Fate
  | .resolution _ => .reported
  | .invalid _ => .rejected
  | _ => .escaping

/-- The results are related, or failures of one fate. -/
inductive Result.Matches {α β : Type} (R : α → β → Prop) : Result α → Result β → Prop
  | ok {a b} : R a b → Matches R (.ok a) (.ok b)
  | error {f g : Failure} : f.fate = g.fate → Matches R (.error f) (.error g)

/-- The parts are related, or there are faults in both. -/
inductive Checked.Matches {α β : Type} (R : α → β → Prop) : Checked α → Checked β → Prop
  | valid {a b} : R a b → Matches R (.valid a) (.valid b)
  | faulty {faults others : List Fault} : Matches R (.faulty faults) (.faulty others)

/-- The run ends in no failures but the allowed ones. -/
def Result.FailsOnly {α : Type} (allowed : Failure → Prop) (x : Result α) : Prop :=
  ∀ failure, x = .error failure → allowed failure

namespace Result.FailsOnly
variable {α β : Type} {allowed : Failure → Prop} {x : Result α}

theorem ok (a : α) : FailsOnly allowed (.ok a) :=
  fun _ fails => by cases fails

theorem error {failure : Failure} (holds : allowed failure) :
    FailsOnly allowed (.error failure : Result α) :=
  fun _ fails => by
    cases fails
    exact holds

theorem bind {f : α → Result β} (first : FailsOnly allowed x)
    (next : ∀ a, x = .ok a → FailsOnly allowed (f a)) : FailsOnly allowed (x >>= f) := by
  cases x with
  | error failure => exact error (first failure rfl)
  | ok a => exact next a rfl

theorem map {f : α → β} (fails : FailsOnly allowed x) : FailsOnly allowed (f <$> x) :=
  fun failure failed => fails failure (map_eq_error.mp failed)

theorem mapM {f : α → Result β} {items : List α} (each : ∀ a ∈ items, FailsOnly allowed (f a)) :
    FailsOnly allowed (items.mapM f) := by
  intro failure fails
  obtain ⟨a, member, fails⟩ := exists_of_mapM_error fails
  exact each a member failure fails

theorem foldlM_of_mem {γ : Type} {f : γ → α → Result γ} {items : List α}
    (each : ∀ a ∈ items, ∀ c, FailsOnly allowed (f c a)) (c : γ) :
    FailsOnly allowed (items.foldlM f c) := by
  induction items generalizing c with
  | nil => exact ok c
  | cons item rest ih =>
    obtain ⟨first, others⟩ := List.forall_mem_cons.mp each
    rw [List.foldlM_cons]
    exact bind (first c) fun next _ => ih others next

theorem foldlM {γ : Type} {f : γ → α → Result γ} (each : ∀ c a, FailsOnly allowed (f c a))
    (items : List α) (c : γ) : FailsOnly allowed (items.foldlM f c) :=
  foldlM_of_mem (fun a _ c => each c a) c

end Result.FailsOnly

/-- All failures that the run may end in are of the fate. -/
def Result.Fails {α : Type} (fate : Fate) (x : Result α) : Prop :=
  ∀ failure, x = .error failure → failure.fate = fate

namespace Result.Fails
variable {α β : Type} {fate : Fate} {x : Result α}

theorem ok (a : α) : Fails fate (.ok a) :=
  FailsOnly.ok a

theorem error {failure : Failure} (same : failure.fate = fate) :
    Fails fate (.error failure : Result α) :=
  FailsOnly.error same

theorem bind {f : α → Result β} (first : Fails fate x) (next : ∀ a, x = .ok a → Fails fate (f a)) :
    Fails fate (x >>= f) :=
  FailsOnly.bind first next

theorem foldlM {γ : Type} {f : γ → α → Result γ} (each : ∀ c a, Fails fate (f c a))
    (items : List α) (c : γ) : Fails fate (items.foldlM f c) :=
  FailsOnly.foldlM each items c

end Result.Fails

namespace Result.Matches
variable {α β γ δ : Type} {R : α → β → Prop} {S : γ → δ → Prop} {x : Result α} {y : Result β}

theorem of_eq {x y : Result α} (equal : x = y) : Matches (· = ·) x y := by
  subst equal
  cases x with
  | error failure => exact .error rfl
  | ok a => exact .ok rfl

theorem refl {R : α → α → Prop} {x : Result α} (related : ∀ a, x = .ok a → R a a) : Matches R x x := by
  cases x with
  | error failure => exact .error rfl
  | ok a => exact .ok (related a rfl)

/-- It is enough that what the one comes to is related to what the other comes to, if all their
failures are of one fate. -/
theorem intro {fate : Fate} (forth : ∀ a, x = .ok a → ∃ b, y = .ok b ∧ R a b)
    (back : ∀ b, y = .ok b → ∃ a, x = .ok a) (fails : Fails fate x) (fails' : Fails fate y) :
    Matches R x y := by
  cases x with
  | ok a =>
    obtain ⟨b, rfl, related⟩ := forth a rfl
    exact .ok related
  | error f =>
    cases y with
    | ok b =>
      obtain ⟨a, same⟩ := back b rfl
      cases same
    | error g => exact .error ((fails f rfl).trans (fails' g rfl).symm)

theorem exists_iff (same : Matches R x y) : (∃ a, x = .ok a) ↔ ∃ b, y = .ok b := by
  cases same <;> simp

theorem exists_ok (same : Matches R x y) {a : α} (comes : x = .ok a) : ∃ b, y = .ok b ∧ R a b := by
  subst comes
  cases same with
  | ok related => exact ⟨_, rfl, related⟩

theorem flip (same : Matches R x y) : Matches (fun b a => R a b) y x := by
  cases same with
  | ok related => exact .ok related
  | error both => exact .error both.symm

theorem bind {f : α → Result γ} {g : β → Result δ} (first : Matches R x y)
    (next : ∀ a b, R a b → Matches S (f a) (g b)) : Matches S (x >>= f) (y >>= g) := by
  cases first with
  | ok related => exact next _ _ related
  | error both => exact .error both

theorem map {f : α → γ} {g : β → δ} (first : Matches R x y) (next : ∀ a b, R a b → S (f a) (g b)) :
    Matches S (f <$> x) (g <$> y) := by
  cases first with
  | ok related => exact .ok (next _ _ related)
  | error both => exact .error both

theorem mono {R' : α → β → Prop} (first : Matches R x y) (implied : ∀ a b, R a b → R' a b) :
    Matches R' x y := by
  cases first with
  | ok related => exact .ok (implied _ _ related)
  | error both => exact .error both

theorem trans {T : β → γ → Prop} {z : Result γ} (first : Matches R x y) (second : Matches T y z) :
    Matches (Relation.Comp R T) x z := by
  cases first with
  | ok related =>
    cases second with
    | ok next => exact .ok ⟨_, related, next⟩
  | error both =>
    cases second with
    | error next => exact .error (both.trans next)

/-- What holds of every result of the one holds beside the relation. -/
theorem with_left {P : α → Prop} (first : Matches R x y) (holds : ∀ a, x = .ok a → P a) :
    Matches (fun a b => P a ∧ R a b) x y := by
  cases first with
  | ok related => exact .ok ⟨holds _ rfl, related⟩
  | error both => exact .error both

theorem mapM {f : α → Result γ} {g : β → Result δ} {items : List α} {others : List β}
    (all : List.Forall₂ (fun a b => Matches S (f a) (g b)) items others) :
    Matches (List.Forall₂ S) (items.mapM f) (others.mapM g) := by
  induction all with
  | nil => exact .ok .nil
  | cons first _ ih =>
    rw [List.mapM_cons, List.mapM_cons]
    exact first.bind fun _ _ related => ih.bind fun _ _ rest => .ok (.cons related rest)

theorem foldlM {f : γ → α → Result γ} {g : δ → β → Result δ} {items : List α} {others : List β}
    (all : List.Forall₂ R items others)
    (step : ∀ a b c d, R a b → S c d → Matches S (f c a) (g d b)) {c : γ} {d : δ} (start : S c d) :
    Matches S (items.foldlM f c) (others.foldlM g d) := by
  induction all generalizing c d with
  | nil => exact .ok start
  | cons first _ ih =>
    rw [List.foldlM_cons, List.foldlM_cons]
    exact (step _ _ _ _ first start).bind fun _ _ next => ih next

/-- The same items on both sides. -/
theorem foldlM_same {f : γ → α → Result γ} {g : δ → α → Result δ} (items : List α)
    (step : ∀ a c d, S c d → Matches S (f c a) (g d a)) {c : γ} {d : δ} (start : S c d) :
    Matches S (items.foldlM f c) (items.foldlM g d) := by
  refine foldlM (R := (· = ·)) (List.forall₂_same.mpr fun _ _ => rfl) ?_ start
  rintro a _ c d rfl
  exact step a c d

end Result.Matches

namespace Checked.Matches
variable {α β γ δ : Type} {R : α → β → Prop} {S : γ → δ → Prop} {a : Checked α} {b : Checked β}

theorem of_eq {a b : Checked α} (equal : a = b) : Matches (· = ·) a b := by
  subst equal
  cases a with
  | valid x => exact .valid rfl
  | faulty faults => exact .faulty

theorem exists_iff (same : Matches R a b) : (∃ x, a = .valid x) ↔ ∃ y, b = .valid y := by
  cases same <;> simp

theorem related {x : α} {y : β} (same : Matches R a b) (first : a = .valid x)
    (second : b = .valid y) : R x y := by
  subst first second
  cases same with
  | valid related => exact related

/-- It is enough that what is valid in one is related to what is valid in the other. -/
theorem intro (forth : ∀ x, a = .valid x → ∃ y, b = .valid y ∧ R x y)
    (back : ∀ y, b = .valid y → ∃ x, a = .valid x) : Matches R a b := by
  cases a with
  | valid x =>
    obtain ⟨y, rfl, related⟩ := forth x rfl
    exact .valid related
  | faulty faults =>
    cases b with
    | valid y =>
      obtain ⟨x, same⟩ := back y rfl
      cases same
    | faulty others => exact .faulty

theorem map {f : α → γ} {g : β → δ} (first : Matches R a b) (next : ∀ x y, R x y → S (f x) (g y)) :
    Matches S (f <$> a) (g <$> b) := by
  cases first with
  | valid related => exact .valid (next _ _ related)
  | faulty => exact .faulty

theorem seq {f : Checked (α → γ)} {g : Checked (β → δ)}
    (function : Matches (fun p q => ∀ x y, R x y → S (p x) (q y)) f g) (argument : Matches R a b) :
    Matches S (f <*> a) (g <*> b) := by
  cases function with
  | valid next =>
    cases argument with
    | valid related => exact .valid (next _ _ related)
    | faulty => exact .faulty
  | faulty => cases argument <;> exact .faulty

theorem under (first : Matches R a b) (step : Step) : Matches R (a.under step) (b.under step) := by
  cases first with
  | valid related => exact .valid related
  | faulty => exact .faulty

theorem also {found others : List Fault} (first : Matches R a b) (same : found = [] ↔ others = []) :
    Matches R (a.also found) (b.also others) := by
  cases found with
  | nil =>
    rw [same.mp rfl]
    cases first with
    | valid related => exact .valid related
    | faulty => exact .faulty
  | cons fault rest =>
    cases others with
    | nil => cases same.mpr rfl
    | cons other more => cases first <;> exact .faulty

theorem ofReport (first : Matches R a b) (title : String) :
    Result.Matches R (Result.ofReport (a.report title)) (Result.ofReport (b.report title)) := by
  cases first with
  | valid related => exact .ok related
  | faulty => exact .error rfl

end Checked.Matches

namespace Schema
variable {α β : Type} {R : α → α → Prop} {read : Reader α} {v w : Value} {t u : List (Key × Value)}
variable {origin : Origin}

/-- The reader accepts reorderings of what it accepts, and reads related parts from them. -/
def Respects (R : α → α → Prop) (read : Reader α) : Prop :=
  ∀ v w : Value, v.Reordered w → Checked.Matches R (read v) (read w)

theorem text_respects : Respects (· = ·) text := by
  intro v w same
  cases same with
  | scalar s => exact .of_eq rfl
  | list _ => exact .faulty
  | map => exact .faulty

theorem integer_respects : Respects (· = ·) integer := by
  intro v w same
  cases same with
  | scalar s => exact .of_eq rfl
  | list _ => exact .faulty
  | map => exact .faulty

theorem moment_respects (origin : Origin) : Respects (· = ·) (moment origin) := by
  intro v w same
  cases same with
  | scalar s => exact .of_eq rfl
  | list _ => exact .faulty
  | map => exact .faulty

/-- Of a value with distinct keys nothing is left out, whether it is given or stored. -/
theorem anything_eq (proper : v.IsProper) : anything origin v = .valid v := by
  cases origin with
  | given => rfl
  | stored => exact congrArg Checked.valid (Value.settled_eq proper)

theorem anything_respects (origin : Origin) : Respects Value.Reordered (anything origin) := by
  intro v w same
  rw [anything_eq same.isProper, anything_eq same.isProper']
  exact .valid same

theorem member?_eq (distinct : (Table.keys t).Nodup) (name : String) :
    member? t name = Table.find? t (.str name) := by
  have reversed : (Table.keys t.reverse).Nodup := by
    simpa [Table.keys, List.map_reverse] using distinct
  refine Option.ext fun v => ?_
  rw [member?, Table.find?_eq_some_iff reversed, Table.find?_eq_some_iff distinct, List.mem_reverse]

variable (same : Table.Reordered Value.Reordered t u)
include same

theorem field_matches (respects : Respects R read) (name : String) :
    Checked.Matches R (field t name read) (field u name read) := by
  unfold field
  rw [member?_eq same.distinct, member?_eq same.distinct']
  rcases rel_cases (same.under (.str name)) with ⟨one, two⟩ | ⟨a, b, one, two, related⟩ <;>
    rw [one, two]
  · exact .faulty
  · exact (respects a b related).under _

theorem fieldOr_matches (respects : Respects R read) {default : α} (usual : R default default)
    (name : String) :
    Checked.Matches R (fieldOr t name default read) (fieldOr u name default read) := by
  unfold fieldOr
  rw [member?_eq same.distinct, member?_eq same.distinct']
  rcases rel_cases (same.under (.str name)) with ⟨one, two⟩ | ⟨a, b, one, two, related⟩ <;>
    rw [one, two]
  · exact .valid usual
  · exact (respects a b related).under _

theorem strangers_eq_nil_iff (known : List String) :
    strangers known t = [] ↔ strangers known u = [] := by
  have familiar (items : List (Key × Value)) : strangers known items = [] ↔
      ∀ key ∈ Table.keys items, ∃ text ∈ known, key = .str text := by
    simp only [strangers, List.filterMap_eq_nil_iff, Table.keys, List.forall_mem_map]
    refine forall₂_congr fun entry _ => ?_
    obtain ⟨key, v⟩ := entry
    rcases key with s | parts
    · cases s <;> simp
    · simp
  rw [familiar, familiar]
  exact forall_congr' fun key => by rw [same.mem_keys]

omit same

theorem object_respects {title : String} {fields : List (Key × Value) → Checked α}
    (respects : ∀ t u, Table.Reordered Value.Reordered t u →
      Checked.Matches R (fields t) (fields u)) :
    Respects R (object title origin fields) := by
  intro v w same
  cases same with
  | scalar _ => exact .faulty
  | list _ => exact .faulty
  | map texts distinct distinct' under => exact respects _ _ ⟨distinct, distinct', under⟩

theorem all_eq_valid {γ : Type} {f : γ → Checked α} {items : List γ} {results : List α} :
    Checked.all (items.map f) = .valid results ↔
      List.Forall₂ (fun item result => f item = .valid result) items results := by
  induction items generalizing results with
  | nil => cases results <;> simp [Checked.all]
  | cons item rest ih =>
    simp only [List.map_cons, Checked.all, Checked.seq_eq_valid, Checked.map_eq_valid]
    constructor
    · rintro ⟨_, others, ⟨result, first, rfl⟩, later, rfl⟩
      exact .cons first (ih.mp later)
    · rintro (_ | ⟨first, later⟩)
      exact ⟨_, _, ⟨_, first, rfl⟩, ih.mpr later, rfl⟩

theorem entry_eq_valid {key : Key} {k : String} {a : α} :
    entry read key v = .valid (k, a) ↔ key = .str k ∧ read v = .valid a := by
  unfold entry
  split
  · simp [Checked.map_eq_valid, Checked.under_eq_valid, and_left_comm]
  · rename_i noText
    constructor
    · rintro ⟨⟩
    · rintro ⟨rfl, -⟩
      exact absurd rfl (noText k)

/-- Under each text a table holds what is read from the value there. -/
theorem table_keyed {entries : Table String Value} (distinct : entries.keys.Nodup)
    {result : Table String α} : table origin read (.map entries.keyed) = .valid result ↔
      Table.Aligned (fun v a => read v = .valid a) entries result := by
  have all (results : List (String × α)) :
      Checked.all (entries.keyed.map fun pair => entry read pair.1 pair.2) = .valid results ↔
        Table.Aligned (fun v a => read v = .valid a) entries results := by
    rw [all_eq_valid, Table.keyed, List.forall₂_map_left_iff]
    refine ⟨fun all => all.imp fun entry result read => ?_,
      fun all => all.imp fun entry result read => ?_⟩
    · obtain ⟨same, ofValue⟩ := entry_eq_valid.mp read
      exact ⟨by simpa using same, ofValue⟩
    · exact entry_eq_valid.mpr ⟨congrArg Key.str read.1, read.2⟩
  have listed {results : Table String α}
      (aligned : Table.Aligned (fun v a => read v = .valid a) entries results) :
      Table.ofList results = results :=
    Table.ofList_of_nodup (aligned.keys_eq ▸ distinct)
  simp only [table, Checked.map_eq_valid]
  constructor
  · rintro ⟨results, valid, rfl⟩
    have aligned := (all results).mp valid
    rwa [listed aligned]
  · intro aligned
    exact ⟨result, (all result).mpr aligned, listed aligned⟩

theorem table_respects (origin : Origin) (respects : Respects R read) :
    Respects (Table.Reordered R) (table origin read) := by
  intro v w same
  cases same with
  | scalar _ => exact .faulty
  | list _ => exact .faulty
  | @map t u texts distinct distinct' under =>
    have same : Table.Reordered Value.Reordered t u := ⟨distinct, distinct', under⟩
    obtain ⟨t, rfl⟩ := Table.exists_keyed texts
    obtain ⟨u, rfl⟩ := Table.exists_keyed fun key member =>
      texts key ((same.mem_keys key).mpr member)
    have same := Table.reordered_keyed.mp same
    refine .intro (fun result accepted => ?_) fun result accepted => ?_
    · have aligned := (table_keyed same.distinct).mp accepted
      obtain ⟨result', aligned'⟩ := Table.Aligned.exists_of_reordered same aligned
        fun v w related => (respects v w related).exists_iff.mp
      exact ⟨result', (table_keyed same.distinct').mpr aligned',
        Table.Aligned.reordered_of_reordered same aligned aligned' fun v w _ _ related =>
          (respects v w related).related⟩
    · obtain ⟨result', aligned'⟩ := Table.Aligned.exists_of_reordered same.flip
        ((table_keyed same.distinct').mp accepted)
        fun w v related => (respects v w related).exists_iff.mpr
      exact ⟨result', (table_keyed same.distinct).mpr aligned'⟩

end Schema
end WorkloadConfig
