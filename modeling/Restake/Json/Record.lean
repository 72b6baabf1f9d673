import Restake.Json.Basic

/-!
Records as JSON. A record is an object whose members may stand in any order, or an array of its
fields in order; members that it does not know are passed over, and a field given twice is refused.
A variant of a tagged union is an object with its tag among the members, or an array that starts
with it.
-/
namespace Restake.Json

/-- The value of a field, if it is given at most once. -/
def field? (members : List (String × Json)) (name : String) : Option (Option Json) :=
  match members.filter (·.1 = name) with
  | [] => some none
  | [(_, value)] => some (some value)
  | _ => none

/-- The fields of a record in the order of `names`, each with the value given for it. -/
def fields? (names : List String) : Json → Option (List (Option Json))
  | obj members => names.mapM (field? members)
  | arr items =>
    if items.length ≤ names.length then
      some (items.map some ++ List.replicate (names.length - items.length) none)
    else none
  | _ => none

def required {α : Type} (read : Json → Option α) (given : Option Json) : Option α := given.bind read

def withDefault {α : Type} (otherwise : α) (read : Json → Option α) : Option Json → Option α
  | none => some otherwise
  | some v => read v

/-- The name of a variant, and what is left of a value without its tag. The parts of the value are
looked at even if no field is read from them, so all must have values and nest at most `room`. -/
def tagged? (room : Nat) (tag : String) : Json → Option (String × Json)
  | obj members =>
    match members.filter (·.1 = tag) with
    | [(_, str name)] =>
      let rest := members.filter (·.1 ≠ tag)
      if areMembersPlain room rest then some (name, obj rest) else none
    | _ => none
  | arr (str name :: rest) => if areItemsPlain room rest then some (name, arr rest) else none
  | _ => none

/-- Whether what is left of a variant holds nothing that it should not. -/
def isUnit : Json → Bool
  | arr items => items.isEmpty
  | _ => true

def nat? (limit : Nat) : Json → Option Nat
  | int false n => if n < limit then some n else none
  | _ => none

def bool? : Json → Option Bool
  | bool b => some b
  | _ => none

def str? : Json → Option String
  | str s => some s
  | _ => none

def list? {α : Type} (read : Json → Option α) : Json → Option (List α)
  | arr items => items.mapM read
  | _ => none

def uint32? (v : Json) : Option UInt32 := (v.nat? UInt32.size).map .ofNat

def uint64? (v : Json) : Option UInt64 := (v.nat? UInt64.size).map .ofNat

def ofUInt32 (n : UInt32) : Json := ofNat n.toNat

def ofUInt64 (n : UInt64) : Json := ofNat n.toNat

end Restake.Json
