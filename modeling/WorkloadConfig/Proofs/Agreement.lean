import Mathlib.Data.List.Forall2
import Mathlib.Data.List.Pairwise
import WorkloadConfig.Proofs.Paths
import WorkloadConfig.Proofs.Rendering

namespace WorkloadConfig

/-- What agreement sees of a scalar. -/
inductive Essence where
  | null
  | text (text : String)
  | bytes (data : List UInt8)
  | unordered (text : String)
  | time (reading : Timestamp ⊕ Bool × Int)
  | number (q : Quantity)

namespace Binary64

/-- One number for both zeros. -/
def unsigned (x : Binary64) : Binary64 :=
  if x.isZero then zero false else x

theorem isNaN_of_isZero {x : Binary64} (isZero : x.isZero = true) : x.isNaN = false := by
  simp only [Binary64.isZero, Bool.and_eq_true, decide_eq_true_eq] at isZero
  simp [isNaN, isZero.1]

theorem unsigned_eq_iff {x y : Binary64} :
    x.unsigned = y.unsigned ↔ x = y ∨ x.isZero = true ∧ y.isZero = true := by
  have zeroIsZero : (zero false).isZero = true := rfl
  unfold unsigned
  split <;> split
  · simp_all
  · rename_i isZero notZero
    refine iff_of_false ?_ ?_
    · rintro rfl
      exact notZero zeroIsZero
    · rintro (rfl | both)
      · exact notZero isZero
      · exact notZero both.2
  · rename_i notZero isZero
    refine iff_of_false ?_ ?_
    · rintro rfl
      exact notZero zeroIsZero
    · rintro (rfl | both)
      · exact notZero isZero
      · exact notZero both.1
  · simp_all

theorem same_iff {x y : Binary64} :
    x.same y = true ↔ x.isNaN = false ∧ y.isNaN = false ∧ x.unsigned = y.unsigned := by
  simp only [same, Bool.and_eq_true, Bool.not_eq_true', Bool.or_eq_true, decide_eq_true_eq,
    unsigned_eq_iff]
  refine and_congr_right fun number => ⟨fun equal => ⟨?_, equal⟩, And.right⟩
  rcases equal with rfl | ⟨-, isZero⟩
  · exact number
  · exact isNaN_of_isZero isZero

end Binary64

namespace Quantity

/-- The quantity itself, unless it is no number. -/
def proper? : Quantity → Option Quantity
  | .whole n => some (.whole n)
  | .other x => if x.isNaN then none else some (.other x.unsigned)

theorem agrees_iff {a b : Quantity} :
    a.agrees b = true ↔ a.proper?.isSome = true ∧ a.proper? = b.proper? := by
  cases a with
  | whole n =>
    cases b with
    | whole m => simp [agrees, proper?]
    | other y => cases isNaN : y.isNaN <;> simp [agrees, proper?, isNaN]
  | other x =>
    cases b with
    | whole m => cases isNaN : x.isNaN <;> simp [agrees, proper?, isNaN]
    | other y =>
      cases isNaN : x.isNaN <;> cases isNaN' : y.isNaN <;>
        simp [agrees, proper?, Binary64.same_iff, isNaN, isNaN']

end Quantity

namespace Timestamp

/-- A date, or an instant and whether it was given with an offset. -/
def reading (t : Timestamp) : Timestamp ⊕ Bool × Int :=
  match t.clock with
  | some c => .inr (c.offset.isSome, t.instant c)
  | none => .inl t

theorem agrees_iff {s t : Timestamp} : s.agrees t = true ↔ s.reading = t.reading := by
  unfold agrees reading
  cases s.clock <;> cases t.clock <;> simp

end Timestamp

namespace Scalar

def essence? : Scalar → Option Essence
  | .null => some .null
  | .str text => some (.text text)
  | .bytes data => some (.bytes data)
  | .unordered text => some (.unordered text)
  | .timestamp t => some (.time t.reading)
  | s => (s.quantity?.bind Quantity.proper?).map .number

theorem agrees_iff {a b : Scalar} :
    a.agrees b = true ↔ a.essence?.isSome = true ∧ a.essence? = b.essence? := by
  have number : Function.Injective (Option.map Essence.number) :=
    Option.map_injective fun _ _ => Essence.number.inj
  have apart (e : Essence) (q : Option Quantity) (other : ∀ q, e ≠ .number q) :
      ¬ some e = q.map .number := by
    cases q <;> simp [other]
  cases a <;> cases b <;>
    simp [agrees, essence?, quantity?, Quantity.agrees_iff, Timestamp.agrees_iff, number.eq_iff,
      apart]

theorem agrees_symm {a b : Scalar} (agree : a.agrees b = true) : b.agrees a = true := by
  obtain ⟨some, equal⟩ := agrees_iff.mp agree
  exact agrees_iff.mpr ⟨equal ▸ some, equal.symm⟩

theorem agrees_trans {a b c : Scalar} (first : a.agrees b = true) (second : b.agrees c = true) :
    a.agrees c = true := by
  obtain ⟨some, equal⟩ := agrees_iff.mp first
  exact agrees_iff.mpr ⟨some, equal.trans (agrees_iff.mp second).2⟩

end Scalar

section
variable {α β γ : Type} {as : List α} {bs : List β} {cs : List γ} {R : α → β → Prop}

theorem forall₂_trans {S : β → γ → Prop} {T : α → γ → Prop}
    (trans : ∀ a b c, R a b → S b c → T a c) (first : List.Forall₂ R as bs)
    (second : List.Forall₂ S bs cs) : List.Forall₂ T as cs := by
  induction first generalizing cs with
  | nil =>
    cases second
    exact .nil
  | cons one _ ih =>
    cases second with
    | cons two later => exact .cons (trans _ _ _ one two) (ih later)

theorem forall₂_with {P : α → Prop} {Q : β → Prop} (left : ∀ a ∈ as, P a) (right : ∀ b ∈ bs, Q b)
    (all : List.Forall₂ R as bs) : List.Forall₂ (fun a b => P a ∧ Q b ∧ R a b) as bs := by
  induction all with
  | nil => exact .nil
  | cons related _ ih =>
    obtain ⟨ofFirst, left⟩ := List.forall_mem_cons.mp left
    obtain ⟨ofOther, right⟩ := List.forall_mem_cons.mp right
    exact .cons ⟨ofFirst, ofOther, related⟩ (ih left right)

end

namespace Key

theorem agreesParts_iff {as bs : List Scalar} :
    agreesParts as bs = true ↔ List.Forall₂ (fun a b => a.agrees b = true) as bs := by
  induction as generalizing bs with
  | nil => cases bs <;> simp [agreesParts]
  | cons a as ih => cases bs <;> simp [agreesParts, ih]

theorem agrees_symm {k l : Key} (agree : k.agrees l = true) : l.agrees k = true := by
  cases k <;> cases l <;> try cases agree
  · exact Scalar.agrees_symm agree
  · refine agreesParts_iff.mpr (List.Forall₂.imp ?_ (agreesParts_iff.mp agree).flip)
    exact fun _ _ => Scalar.agrees_symm

theorem agrees_trans {k l m : Key} (first : k.agrees l = true) (second : l.agrees m = true) :
    k.agrees m = true := by
  cases k <;> cases l <;> try cases first
  all_goals cases m <;> try cases second
  · exact Scalar.agrees_trans first second
  · rw [agrees, agreesParts_iff] at *
    exact forall₂_trans (fun a b c => Scalar.agrees_trans (a := a) (b := b) (c := c)) first second

end Key

/-- Under a relation that holds both ways and carries over, items apart from each other find partners
apart from each other. So if there are no more on the other side, all of them are found. -/
theorem exists_partner {α : Type} [DecidableEq α] {near related : α → α → Prop}
    (symmetric : ∀ a b, near a b → near b a) (transitive : ∀ a b c, near a b → near b c → near a c)
    (implied : ∀ a b, related a b → near a b) {items others : List α}
    (apart : items.Pairwise fun a b => ¬ near a b) (length : items.length = others.length)
    (each : ∀ a ∈ items, ∃ b ∈ others, related a b) :
    ∀ b ∈ others, ∃ a ∈ items, related a b := by
  induction items generalizing others with
  | nil => simp [List.length_eq_zero_iff.mp length.symm]
  | cons a rest ih =>
    obtain ⟨fresh, apart⟩ := List.pairwise_cons.mp apart
    obtain ⟨⟨b, member, partner⟩, later⟩ := List.forall_mem_cons.mp each
    have shorter : rest.length = (others.erase b).length := by
      rw [List.length_erase_of_mem member, ← length, List.length_cons, Nat.add_sub_cancel]
    have found := ih apart shorter fun a' within => by
      obtain ⟨b', member', partner'⟩ := later a' within
      refine ⟨b', (List.mem_erase_of_ne ?_).mpr member', partner'⟩
      rintro rfl
      exact fresh a' within
        (transitive _ _ _ (implied _ _ partner) (symmetric _ _ (implied _ _ partner')))
    intro c among
    by_cases same : c = b
    · exact ⟨a, List.mem_cons_self, same ▸ partner⟩
    · obtain ⟨a', within, partner'⟩ := found c ((List.mem_erase_of_ne same).mpr among)
      exact ⟨a', List.mem_cons_of_mem a within, partner'⟩

namespace Value

/-- No two keys of one map within agree. -/
def KeysApart (v : Value) : Prop :=
  v.everyMap (fun keys => decide (keys.Pairwise fun k l => ¬ k.agrees l = true)) = true

instance (v : Value) : Decidable v.KeysApart :=
  inferInstanceAs (Decidable (_ = true))

theorem keysApart_list {items : List Value} : (Value.list items).KeysApart ↔ ∀ v ∈ items, v.KeysApart :=
  everyMap_list

theorem keysApart_map {entries : List (Key × Value)} : (Value.map entries).KeysApart ↔
    (entries.Pairwise fun a b => ¬ a.1.agrees b.1 = true) ∧ ∀ entry ∈ entries, entry.2.KeysApart := by
  simp only [KeysApart, everyMap_map, decide_eq_true_eq, Table.keys, List.pairwise_map]

theorem agreesItems_iff {vs ws : List Value} :
    agreesItems vs ws = true ↔ List.Forall₂ (fun v w => v.agrees w = true) vs ws := by
  induction vs generalizing ws with
  | nil => cases ws <;> simp [agreesItems]
  | cons v vs ih => cases ws <;> simp [agreesItems, ih]

/-- The entries agree as parts of maps. -/
def Partners (a b : Key × Value) : Prop :=
  a.1.agrees b.1 = true ∧ a.2.agrees b.2 = true

/-- Of keys that are apart at most one agrees with a given key. -/
theorem find?_agrees_iff {ws : List (Key × Value)} {key : Key} {b : Key × Value}
    (apart : ws.Pairwise fun a b => ¬ a.1.agrees b.1 = true) :
    ws.find? (fun entry => entry.1.agrees key) = some b ↔ b ∈ ws ∧ b.1.agrees key = true := by
  constructor
  · intro found
    have agree := List.find?_some found
    exact ⟨List.mem_of_find?_eq_some found, agree⟩
  · rintro ⟨member, agree⟩
    cases found : ws.find? (fun entry => entry.1.agrees key) with
    | none => exact absurd agree (List.find?_eq_none.mp found b member)
    | some c =>
      have agree' := List.find?_some found
      have symmetric : Std.Symm fun a b : Key × Value => ¬ a.1.agrees b.1 = true :=
        ⟨fun _ _ differ agree => differ (Key.agrees_symm agree)⟩
      refine congrArg some (by_contra fun other => ?_)
      exact apart.forall (List.mem_of_find?_eq_some found) member other
        (Key.agrees_trans agree' (Key.agrees_symm agree))

theorem agreesEntries_iff {vs ws : List (Key × Value)}
    (apart : ws.Pairwise fun a b => ¬ a.1.agrees b.1 = true) :
    agreesEntries vs ws = true ↔ ∀ a ∈ vs, ∃ b ∈ ws, Partners a b := by
  induction vs with
  | nil => simp [agreesEntries]
  | cons entry rest ih =>
    rw [agreesEntries, Bool.and_eq_true, List.forall_mem_cons]
    refine and_congr ?_ ih
    have found (b : Key × Value) : _ = some b ↔ b ∈ ws ∧ b.1.agrees entry.1 = true :=
      find?_agrees_iff apart
    constructor
    · intro agree
      split at agree
      · rename_i other isFound
        obtain ⟨member, near⟩ := (found other).mp isFound
        exact ⟨other, member, Key.agrees_symm near, agree⟩
      · cases agree
    · rintro ⟨b, member, near, agree⟩
      rw [(found b).mpr ⟨member, Key.agrees_symm near⟩]
      exact agree

theorem agrees_map_iff {vs ws : List (Key × Value)}
    (apart : ws.Pairwise fun a b => ¬ a.1.agrees b.1 = true) :
    (Value.map vs).agrees (.map ws) = true ↔
      vs.length = ws.length ∧ ∀ a ∈ vs, ∃ b ∈ ws, Partners a b := by
  rw [agrees, Bool.and_eq_true, decide_eq_true_eq, agreesEntries_iff apart]

theorem agrees_list_iff {vs ws : List Value} : (Value.list vs).agrees (.list ws) = true ↔
    List.Forall₂ (fun v w => v.agrees w = true) vs ws := by
  rw [agrees, agreesItems_iff]

variable {v w u : Value}

theorem agrees_symm (apart : v.KeysApart) (apart' : w.KeysApart) (agree : v.agrees w = true) :
    w.agrees v = true := by
  induction v using Value.induction generalizing w with
  | scalar s =>
    cases w with
    | scalar _ => exact Scalar.agrees_symm agree
    | list _ | map _ => cases agree
  | list items ih =>
    cases w with
    | list others =>
      rw [keysApart_list] at apart apart'
      rw [agrees_list_iff] at agree ⊢
      have each := fun v member w => ih v member (w := w) (apart v member)
      exact (forall₂_with each apart' agree).flip.imp
        fun w v ⟨back, ofW, agree⟩ => back w ofW agree
    | scalar _ | map _ => cases agree
  | map entries ih =>
    cases w with
    | map others =>
      obtain ⟨keys, values⟩ := keysApart_map.mp apart
      obtain ⟨keys', values'⟩ := keysApart_map.mp apart'
      obtain ⟨length, each⟩ := (agrees_map_iff keys').mp agree
      refine (agrees_map_iff keys).mpr ⟨length.symm, fun b member => ?_⟩
      obtain ⟨a, among, near, agree⟩ := exists_partner
        (fun a b => Key.agrees_symm (k := a.1) (l := b.1))
        (fun a b c => Key.agrees_trans (k := a.1) (l := b.1) (m := c.1)) (fun a b => And.left) keys
        length each b member
      exact ⟨a, among, Key.agrees_symm near, ih a among (values a among) (values' b member) agree⟩
    | scalar _ | list _ => cases agree

theorem agrees_trans (apart : w.KeysApart) (apart' : u.KeysApart) (first : v.agrees w = true)
    (second : w.agrees u = true) : v.agrees u = true := by
  induction v using Value.induction generalizing w u with
  | scalar s =>
    cases w with
    | scalar _ =>
      cases u with
      | scalar _ => exact Scalar.agrees_trans first second
      | list _ | map _ => cases second
    | list _ | map _ => cases first
  | list items ih =>
    cases w with
    | list others =>
      cases u with
      | list more =>
        rw [keysApart_list] at apart apart'
        rw [agrees_list_iff] at first second ⊢
        exact forall₂_trans (fun v w u ⟨carried, ofW, one⟩ ⟨_, ofU, two⟩ => carried w u ofW ofU one two)
          (forall₂_with (fun v member w u => ih v member (w := w) (u := u)) apart first)
          (forall₂_with apart apart' second)
      | scalar _ | map _ => cases second
    | scalar _ | map _ => cases first
  | map entries ih =>
    cases w with
    | map others =>
      cases u with
      | map more =>
        obtain ⟨keys, values⟩ := keysApart_map.mp apart
        obtain ⟨keys', values'⟩ := keysApart_map.mp apart'
        obtain ⟨length, each⟩ := (agrees_map_iff keys).mp first
        obtain ⟨length', each'⟩ := (agrees_map_iff keys').mp second
        refine (agrees_map_iff keys').mpr ⟨length.trans length', fun a member => ?_⟩
        obtain ⟨b, among, near, one⟩ := each a member
        obtain ⟨c, among', near', two⟩ := each' b among
        exact ⟨c, among', Key.agrees_trans near near',
          ih a member (values b among) (values' c among') one two⟩
      | scalar _ | list _ => cases second
    | scalar _ | list _ => cases first

end Value
end WorkloadConfig
