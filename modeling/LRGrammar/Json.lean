import Std.Data.ExtTreeMap

/-!
# LRGrammar.Json

JSON values, as far as their meaning goes.  A number without fraction and
exponent is an integer and keeps all its digits; any other number is a decimal.

* `Json.object` builds an object in its one form, with the keys in order and the
  last value of a repeated key.
-/

namespace LRGrammar

/-- A JSON value. -/
inductive Json where
  | null
  | bool (b : Bool)
  | int (n : Int)
  /-- The number `mantissa * 10 ^ exponent`, written with a fraction or an exponent. -/
  | decimal (mantissa exponent : Int)
  | str (s : String)
  | arr (items : List Json)
  | obj (fields : List (String × Json))
deriving Repr

namespace Json

/-! ## equality -/

mutual

/-- Decide whether two values are equal. -/
def decEq : (a b : Json) → Decidable (a = b)
  | null, b => match b with
    | null => isTrue rfl
    | bool _ | int _ | decimal _ _ | str _ | arr _ | obj _ => isFalse nofun
  | bool x, b => match b with
    | bool y => decidable_of_iff (x = y) (by simp)
    | null | int _ | decimal _ _ | str _ | arr _ | obj _ => isFalse nofun
  | int x, b => match b with
    | int y => decidable_of_iff (x = y) (by simp)
    | null | bool _ | decimal _ _ | str _ | arr _ | obj _ => isFalse nofun
  | decimal m e, b => match b with
    | decimal n f => decidable_of_iff (m = n ∧ e = f) (by simp)
    | null | bool _ | int _ | str _ | arr _ | obj _ => isFalse nofun
  | str x, b => match b with
    | str y => decidable_of_iff (x = y) (by simp)
    | null | bool _ | int _ | decimal _ _ | arr _ | obj _ => isFalse nofun
  | arr xs, b => match b with
    | arr ys => match decEqItems xs ys with
      | isTrue h => isTrue (by rw [h])
      | isFalse h => isFalse (by simpa using h)
    | null | bool _ | int _ | decimal _ _ | str _ | obj _ => isFalse nofun
  | obj xs, b => match b with
    | obj ys => match decEqFields xs ys with
      | isTrue h => isTrue (by rw [h])
      | isFalse h => isFalse (by simpa using h)
    | null | bool _ | int _ | decimal _ _ | str _ | arr _ => isFalse nofun

/-- Decide whether two arrays hold equal items. -/
def decEqItems : (xs ys : List Json) → Decidable (xs = ys)
  | [], [] => isTrue rfl
  | [], _ :: _ | _ :: _, [] => isFalse nofun
  | x :: xs, y :: ys => match decEq x y with
    | isFalse h => isFalse (by simp [h])
    | isTrue h => match decEqItems xs ys with
      | isFalse hs => isFalse (by simp [hs])
      | isTrue hs => isTrue (by rw [h, hs])

/-- Decide whether two objects hold equal fields in the same order. -/
def decEqFields : (xs ys : List (String × Json)) → Decidable (xs = ys)
  | [], [] => isTrue rfl
  | [], _ :: _ | _ :: _, [] => isFalse nofun
  | (k, x) :: xs, (l, y) :: ys => match decEq x y with
    | isFalse h => isFalse (by simp [h])
    | isTrue h => match decEqFields xs ys with
      | isFalse hs => isFalse (by simp [hs])
      | isTrue hs => decidable_of_iff (k = l) (by simp [h, hs])

end

instance : DecidableEq Json := decEq

/-! ## building and taking apart -/

/-- An object with these fields: the keys in order, and of a repeated key the last value. -/
def object (fields : List (String × Json)) : Json :=
  .obj (Std.ExtTreeMap.ofList fields compare).toList

/-- A natural number as a value. -/
def ofNat (n : Nat) : Json := .int n

/-- The words are the integers of 64 bits without a sign. -/
def wordLimit : Nat := UInt64.size

/-- The value is a word. -/
def word? : Json → Option Nat
  | int n => if 0 ≤ n ∧ n < wordLimit then some n.toNat else none
  | _ => none

/-- The value is a string. -/
def string? : Json → Option String
  | str s => some s
  | _ => none

/-- The value is an array all of whose items are read by `item?`. -/
def list? {α : Type} (item? : Json → Option α) : Json → Option (List α)
  | arr items => items.mapM item?
  | _ => none

theorem word?_ofNat {n : Nat} (h : n < wordLimit) : (ofNat n).word? = some n := by
  simp only [ofNat, word?]
  rw [if_pos ⟨by omega, by exact_mod_cast h⟩]
  simp

theorem list?_arr_map {α : Type} {item? : Json → Option α} {toJson : α → Json} {xs : List α}
    (h : ∀ x ∈ xs, item? (toJson x) = some x) : list? item? (.arr (xs.map toJson)) = some xs := by
  simp only [list?]
  induction xs with
  | nil => rfl
  | cons x rest ih =>
      rw [List.map_cons, List.mapM_cons, h x (by simp), ih fun y hy => h y (by simp [hy])]
      rfl

end Json

end LRGrammar
