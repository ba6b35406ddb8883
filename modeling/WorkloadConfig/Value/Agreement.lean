import WorkloadConfig.Value.Basic

namespace WorkloadConfig

/-- What a number is apart from its kind: an integer, or a float that is none. -/
inductive Quantity where
  | whole (n : Int)
  | other (x : Binary64)

namespace Quantity

def agrees : Quantity → Quantity → Bool
  | .whole a, .whole b => a = b
  | .other x, .other y => x.same y
  | _, _ => false

/-- Below every finite number, among them, or above. -/
def rank : Quantity → Int
  | .whole _ => 0
  | .other x => if x.isFinite then 0 else if x.negative then -1 else 1

/-- A finite number as a fraction. -/
def fraction : Quantity → Int × Nat
  | .whole n => (n, 1)
  | .other x =>
    let (num, den) := x.ratio
    (if x.negative then -(num : Int) else num, den)

/-- The order of numbers. -/
def le (a b : Quantity) : Bool :=
  if a.rank ≠ b.rank then a.rank < b.rank
  else if a.rank ≠ 0 then true
  else a.fraction.1 * b.fraction.2 ≤ b.fraction.1 * a.fraction.2

end Quantity

namespace Scalar

def quantity? : Scalar → Option Quantity
  | .bool b => some (.whole b.toNat)
  | .int n => some (.whole n)
  | .float x => some (match x.toInt? with | some n => .whole n | none => .other x)
  | _ => none

def agrees : Scalar → Scalar → Bool
  | .null, .null => true
  | .str a, .str b => a = b
  | .timestamp a, .timestamp b => a.agrees b
  | .bytes a, .bytes b => a = b
  | .unordered a, .unordered b => a = b
  | a, b => match a.quantity?, b.quantity? with
    | some a, some b => a.agrees b
    | _, _ => false

end Scalar

namespace Key

def agreesParts : List Scalar → List Scalar → Bool
  | [], [] => true
  | a :: as, b :: bs => a.agrees b && agreesParts as bs
  | _, _ => false

def agrees : Key → Key → Bool
  | .scalar a, .scalar b => a.agrees b
  | .tuple as, .tuple bs => agreesParts as bs
  | _, _ => false

/-- The key as it stands in the map already, if one of its keys agrees with it. -/
def alignedWith {α : Type} (entries : List (Key × α)) (key : Key) : Key :=
  match entries.find? fun entry => entry.1.agrees key with
  | some entry => entry.1
  | none => key

theorem eq_of_agrees_str {key : Key} {text : String} (agree : key.agrees (.str text)) :
    key = .str text := by
  rcases key with s | parts
  · cases s <;> simp_all [agrees, Scalar.agrees, Scalar.quantity?]
  · simp [agrees] at agree

/-- Texts agree with themselves alone. -/
theorem alignedWith_str {α : Type} (entries : List (Key × α)) (text : String) :
    alignedWith entries (.str text) = .str text := by
  unfold alignedWith
  split
  · rename_i entry found
    have agree := List.find?_some found
    exact eq_of_agrees_str agree
  · rfl

/-- Writes the entry under the key that agrees with its own. -/
def putAligned {α : Type} (entries : List (Key × α)) (entry : Key × α) : List (Key × α) :=
  Table.put entries (alignedWith entries entry.1) entry.2

end Key

namespace Value

mutual

def agrees : Value → Value → Bool
  | .scalar a, .scalar b => a.agrees b
  | .list vs, .list ws => agreesItems vs ws
  | .map vs, .map ws => vs.length = ws.length && agreesEntries vs ws
  | _, _ => false

def agreesItems : List Value → List Value → Bool
  | [], [] => true
  | v :: vs, w :: ws => agrees v w && agreesItems vs ws
  | _, _ => false

/-- Every entry has a partner under an agreeing key. -/
def agreesEntries : List (Key × Value) → List (Key × Value) → Bool
  | [], _ => true
  | (k, v) :: rest, ws =>
    (match ws.find? fun entry => entry.1.agrees k with
      | some entry => agrees v entry.2
      | none => false) && agreesEntries rest ws

end

end Value
end WorkloadConfig
