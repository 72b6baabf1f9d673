/-!
What a text is expected to hold, as far as the way of reading it depends on that. Only lists of
bytes of a fixed length are read in a way of their own, so a shape tells where they stand.
-/
namespace Restake.Json

inductive Shape where
  /-- Any value, read as it stands. -/
  | free
  /-- A list of so many bytes. -/
  | bytes (width : Nat)
  | list (item : Shape)
  | record (fields : List (String × Shape))
deriving Inhabited

namespace Shape

/-- The names of the fields of a record, in order. -/
def names : Shape → List String
  | record fields => fields.map Prod.fst
  | _ => []

/-- The shape of the first item of an array. -/
def head : Shape → Shape
  | list item => item
  | record ((_, field) :: _) => field
  | _ => free

/-- The shape of an array without its first item. -/
def tail : Shape → Shape
  | record (_ :: fields) => record fields
  | bytes (width + 1) => bytes width
  | s => s

/-- The shape of a member of an object. -/
def member (s : Shape) (key : String) : Shape :=
  match s with
  | record fields => ((fields.find? (·.1 = key)).map Prod.snd).getD free
  | _ => free

end Shape

end Restake.Json
