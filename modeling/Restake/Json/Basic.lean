/-!
JSON values. Numbers are integers here: a literal with a point or an exponent is known to be one,
but its value is not kept. A text that obeys the grammar may still have no value, because of an
escape that is half a surrogate pair or a number too large to approximate; such a part can be
passed over but not read.
-/
namespace Restake

inductive Json where
  | null
  | bool (b : Bool)
  /-- An integer literal; minus zero is not zero. -/
  | int (negative : Bool) (size : Nat)
  | fraction
  | str (s : String)
  | arr (items : List Json)
  | obj (members : List (String × Json))
  | unreadable

namespace Json

instance : Inhabited Json := ⟨null⟩

def ofNat (n : Nat) : Json := int false n

def ofInt (i : Int) : Json := int (i < 0) i.natAbs

def ofOption {α : Type} (f : α → Json) : Option α → Json
  | none => null
  | some a => f a

def ofList {α : Type} (f : α → Json) (as : List α) : Json := arr (as.map f)

mutual

/-- Whether every part has a value and at most `room` arrays and objects stand inside each other. -/
def isPlain (room : Nat) : Json → Bool
  | unreadable => false
  | arr items => match room with
    | 0 => false
    | room + 1 => areItemsPlain room items
  | obj members => match room with
    | 0 => false
    | room + 1 => areMembersPlain room members
  | _ => true

def areItemsPlain (room : Nat) : List Json → Bool
  | [] => true
  | item :: rest => item.isPlain room && areItemsPlain room rest

def areMembersPlain (room : Nat) : List (String × Json) → Bool
  | [] => true
  | (_, value) :: rest => value.isPlain room && areMembersPlain room rest

end

end Json

end Restake
