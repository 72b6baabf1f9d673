import Restake.Json.Shape
import Restake.Json.Stray

/-!
From text to a value, one token at a time: the reader keeps the arrays and objects that are open,
what may come next, and the shape that is expected of it. A text is a value if every token was
expected and none is missing; only a list of bytes may end otherwise, once it has them all.
-/
namespace Restake.Json

/-- An array or object that is open, with what it holds so far, newest first. -/
inductive Frame where
  /-- An array, with the shape of what is still to come. -/
  | items (shape : Shape) (done : List Json)
  /-- An object that waits for the value of `key`; without a member list it has no value itself. -/
  | member (shape : Shape) (done : Option (List (String × Json))) (key : Option String)

inductive Reader where
  | value (shape : Shape) (outer : List Frame)
  | itemOrEnd (shape : Shape) (outer : List Frame)
  | afterItem (shape : Shape) (done : List Json) (outer : List Frame)
  | keyOrEnd (shape : Shape) (outer : List Frame)
  | nextKey (shape : Shape) (done : Option (List (String × Json))) (outer : List Frame)
  | colon (shape : Shape) (done : Option (List (String × Json))) (key : Option String)
      (outer : List Frame)
  | afterMember (shape : Shape) (done : Option (List (String × Json))) (outer : List Frame)
  | finished (v : Json)

namespace Reader

/-- Puts a finished value where it belongs. -/
def settle (v : Json) : List Frame → Reader
  | [] => finished v
  | .items shape done :: rest => afterItem shape (v :: done) rest
  | .member shape done key :: rest => afterMember shape (return (← key, v) :: (← done)) rest

def closeObject (done : Option (List (String × Json))) : Json :=
  match done with
  | some members => obj members.reverse
  | none => unreadable

/-- What follows a token that starts a value. -/
def start (shape : Shape) (outer : List Frame) : Token → Option Reader
  | .openArray => some (itemOrEnd shape outer)
  | .openObject => some (keyOrEnd shape outer)
  | .text (some s) => some (settle (str s) outer)
  | .text none => some (settle unreadable outer)
  | .literal v => some (settle v outer)
  | _ => none

def step : Reader → Token → Option Reader
  | value shape outer, t => start shape outer t
  | itemOrEnd _ outer, .closeArray => some (settle (arr []) outer)
  | itemOrEnd shape outer, t => start shape.head (.items shape.tail [] :: outer) t
  | afterItem shape done outer, .comma => some (value shape.head (.items shape.tail done :: outer))
  | afterItem _ done outer, .closeArray => some (settle (arr done.reverse) outer)
  | keyOrEnd _ outer, .closeObject => some (settle (obj []) outer)
  | keyOrEnd shape outer, .text s => some (colon shape (some []) s outer)
  | nextKey shape done outer, .text s => some (colon shape done s outer)
  | colon shape done key outer, .colon =>
    some (value ((key.map shape.member).getD .free) (.member shape done key :: outer))
  | afterMember shape done outer, .comma => some (nextKey shape done outer)
  | afterMember _ done outer, .closeObject => some (settle (closeObject done) outer)
  | _, _ => none

/-- Reads on from a character that is no blank. -/
def advance (r : Reader) (cs : List Char) : Option (Reader × List Char) :=
  match r with
  | afterItem (.bytes 0) done outer =>
    (Stray.close? cs).map fun rest => (settle (arr done.reverse) outer, rest)
  | r => (Token.next cs).bind fun next => (r.step next.1).map (·, next.2)

def result? : Reader → Option Json
  | finished v => some v
  | _ => none

theorem length_advance {r : Reader} {cs : List Char} {next : Reader × List Char}
    (h : r.advance cs = some next) : next.2.length < cs.length := by
  unfold advance at h
  split at h
  · obtain ⟨rest, hrest, rfl⟩ := Option.map_eq_some_iff.1 h
    exact Stray.length_close hrest
  · obtain ⟨token, htoken, h⟩ := Option.bind_eq_some_iff.1 h
    obtain ⟨_, _, rfl⟩ := Option.map_eq_some_iff.1 h
    exact Token.length_next htoken

/-- Reads a text to its end. -/
def run (r : Reader) (cs : List Char) : Option Reader :=
  match cs with
  | [] => some r
  | c :: rest =>
    if Token.isBlank c then r.run rest
    else
      match _ : r.advance (c :: rest) with
      | none => none
      | some (r, after) => r.run after
termination_by cs.length
decreasing_by
  · simp
  · exact length_advance (by assumption)

end Reader

/-- The value that a text holds, read as `shape` has it. -/
def parse? (shape : Shape) (s : String) : Option Json :=
  (Reader.run (.value shape []) s.toList).bind Reader.result?

end Restake.Json
