import Restake.Json.Reader
import Restake.Proofs.Tokens

/-!
The text of a value reads back as the value. Whatever is open around it, the reader comes out of the
text of a part as if the part had been settled at once, so the parts of an array or an object can be
read one after the other. A shape gets in the way only of a list of bytes that is longer than it
should be.
-/
namespace Restake.Json

mutual

/-- Whether all of a value has a text that reads back under a shape. -/
@[simp] def Legible (shape : Shape) : Json → Prop
  | fraction | unreadable => False
  | int _ size => size ≤ 2 ^ 127
  | arr items => AreItemsLegible shape items
  | obj members => AreMembersLegible shape members
  | _ => True

@[simp] def AreItemsLegible (shape : Shape) : List Json → Prop
  | [] => True
  | item :: rest => shape ≠ .bytes 0 ∧ item.Legible shape.head ∧ AreItemsLegible shape.tail rest

@[simp] def AreMembersLegible (shape : Shape) : List (String × Json) → Prop
  | [] => True
  | (key, value) :: rest => value.Legible (shape.member key) ∧ AreMembersLegible shape rest

end

theorem Token.isBlank_of_isSome_next {c : Char} {cs : List Char} (h : (next (c :: cs)).isSome) :
    isBlank c = false := by
  refine Bool.eq_false_iff.2 fun hblank => ?_
  simp only [isBlank, Bool.or_eq_true, decide_eq_true_eq] at hblank
  obtain ((rfl | rfl) | rfl) | rfl := hblank <;> simp [next, Number.read?, Number.digits] at h

theorem stops_itemChars (items : List Json) (rest : List Char) :
    Number.Stops (itemChars items ++ rest) := by
  cases items <;> (rintro c ⟨⟩; decide)

theorem stops_memberChars (members : List (String × Json)) (rest : List Char) :
    Number.Stops (memberChars members ++ rest) := by
  cases members <;> (rintro c ⟨⟩; decide)

namespace Reader

/-- Whether a value of a shape may come next, and the frames that it will be settled in. -/
inductive Awaits : Reader → Shape → List Frame → Prop
  | value (shape : Shape) (outer : List Frame) : Awaits (.value shape outer) shape outer
  | item (shape : Shape) (outer : List Frame) :
    Awaits (.itemOrEnd shape outer) shape.head (.items shape.tail [] :: outer)

theorem Awaits.step_eq {r after : Reader} {shape : Shape} {outer : List Frame} {t : Token}
    (hr : Awaits r shape outer) (h : start shape outer t = some after) : r.step t = some after := by
  cases hr with
  | value => exact h
  | item =>
    cases t with
    | closeArray => cases h
    | _ => exact h

theorem run_of_advance {r after : Reader} {cs rest : List Char} (hnext : (Token.next cs).isSome)
    (h : r.advance cs = some (after, rest)) : r.run cs = after.run rest := by
  cases cs with
  | nil => simp [Token.next, Number.read?, Number.digits] at hnext
  | cons c cs =>
    rw [run, if_neg (by simp [Token.isBlank_of_isSome_next hnext])]
    split
    next hnone => rw [h] at hnone; cases hnone
    next hsome =>
      rw [h] at hsome
      cases hsome
      rfl

/-- The rule for one token; a list that has all its bytes is closed in a way of its own. -/
theorem run_of_next {r after : Reader} {t : Token} {cs rest : List Char}
    (hr : ∀ done outer, r ≠ afterItem (.bytes 0) done outer)
    (hnext : Token.next cs = some (t, rest)) (hstep : r.step t = some after) :
    r.run cs = after.run rest := by
  refine run_of_advance (Option.isSome_of_eq_some hnext) ?_
  unfold advance
  split
  · exact absurd rfl (hr _ _)
  · rw [hnext, Option.bind_some, hstep, Option.map_some]

theorem run_closeArray (shape : Shape) (done : List Json) (outer : List Frame) (rest : List Char) :
    (afterItem shape done outer).run (']' :: rest) = (settle (arr done.reverse) outer).run rest := by
  refine run_of_advance rfl ?_
  unfold advance
  split
  next h => cases h; rfl
  · rfl

theorem run_comma {shape : Shape} (h : shape ≠ .bytes 0) (done : List Json) (outer : List Frame)
    (rest : List Char) :
    (afterItem shape done outer).run (',' :: rest) =
      (value shape.head (.items shape.tail done :: outer)).run rest := by
  refine run_of_next (t := .comma) (fun _ _ heq => ?_) rfl rfl
  cases heq
  exact h rfl

/-- The reader comes out of the text of a value with the value settled. -/
def Passes (v : Json) : Prop :=
  ∀ ⦃r : Reader⦄ ⦃shape : Shape⦄ ⦃outer : List Frame⦄ ⦃rest : List Char⦄, Awaits r shape outer →
    v.Legible shape → Number.Stops rest → r.run (v.chars ++ rest) = (settle v outer).run rest

def ItemsPass (items : List Json) : Prop :=
  ∀ (shape : Shape) (done : List Json) (outer : List Frame) (rest : List Char),
    AreItemsLegible shape items →
      (afterItem shape done outer).run (itemChars items ++ rest) =
        (settle (arr (done.reverse ++ items)) outer).run rest

def MembersPass (members : List (String × Json)) : Prop :=
  ∀ (shape : Shape) (done : List (String × Json)) (outer : List Frame) (rest : List Char),
    AreMembersLegible shape members →
      (afterMember shape (some done) outer).run (memberChars members ++ rest) =
        (settle (obj (done.reverse ++ members)) outer).run rest

theorem Awaits.run_of_next {r after : Reader} {shape : Shape} {outer : List Frame} {t : Token}
    {cs rest : List Char} (hr : Awaits r shape outer) (hnext : Token.next cs = some (t, rest))
    (hstart : start shape outer t = some after) : r.run cs = after.run rest := by
  refine Reader.run_of_next (fun _ _ heq => ?_) hnext (hr.step_eq hstart)
  subst heq
  cases hr

theorem passes_atom {v : Json} (harr : ∀ items, v ≠ arr items) (hobj : ∀ members, v ≠ obj members) :
    Passes v := by
  intro r shape outer rest hr hv hrest
  cases v with
  | null => exact hr.run_of_next (t := .literal null) rfl rfl
  | bool b => cases b <;> exact hr.run_of_next (t := .literal (bool _)) rfl rfl
  | int negative n =>
    have hn : n ≤ 2 ^ 127 := by rwa [Legible] at hv
    exact hr.run_of_next (Token.next_int negative hn hrest) rfl
  | fraction => rw [Legible] at hv; exact hv.elim
  | str s => exact hr.run_of_next (Token.next_quote s rest) rfl
  | arr items => exact absurd rfl (harr items)
  | obj members => exact absurd rfl (hobj members)
  | unreadable => rw [Legible] at hv; exact hv.elim

theorem passes_arr_nil : Passes (arr []) := by
  intro r shape outer rest hr _ _
  calc r.run ('[' :: ']' :: rest)
    _ = (itemOrEnd shape outer).run (']' :: rest) := hr.run_of_next (t := .openArray) rfl rfl
    _ = (settle (arr []) outer).run rest := run_of_next (t := .closeArray) (by simp) rfl rfl

theorem passes_arr_cons {item : Json} {items : List Json} (hitem : Passes item)
    (hitems : ItemsPass items) : Passes (arr (item :: items)) := by
  intro r shape outer rest hr hv _
  simp only [Legible, AreItemsLegible] at hv
  obtain ⟨-, hhead, htail⟩ := hv
  have hopen : r.run ('[' :: (item.chars ++ (itemChars items ++ rest))) =
      (itemOrEnd shape outer).run (item.chars ++ (itemChars items ++ rest)) :=
    hr.run_of_next (t := .openArray) rfl rfl
  rw [chars, List.cons_append, List.append_assoc, hopen,
    hitem (.item shape outer) hhead (stops_itemChars items rest)]
  exact hitems shape.tail [item] outer rest htail

theorem itemsPass_nil : ItemsPass [] := by
  intro shape done outer rest _
  rw [List.append_nil]
  exact run_closeArray shape done outer rest

theorem itemsPass_cons {item : Json} {items : List Json} (hitem : Passes item)
    (hitems : ItemsPass items) : ItemsPass (item :: items) := by
  intro shape done outer rest h
  simp only [AreItemsLegible] at h
  obtain ⟨hroom, hhead, htail⟩ := h
  have hnext := hitems shape.tail (item :: done) outer rest htail
  rw [List.reverse_cons, List.append_assoc, List.singleton_append] at hnext
  rw [itemChars, List.cons_append, List.append_assoc, run_comma hroom,
    hitem (.value _ _) hhead (stops_itemChars items rest)]
  exact hnext

theorem passes_obj_nil : Passes (obj []) := by
  intro r shape outer rest hr _ _
  calc r.run ('{' :: '}' :: rest)
    _ = (keyOrEnd shape outer).run ('}' :: rest) := hr.run_of_next (t := .openObject) rfl rfl
    _ = (settle (obj []) outer).run rest := run_of_next (t := .closeObject) (by simp) rfl rfl

/-- A member and those after it, from its key on: the first of an object as well as a later one. -/
theorem run_member {r : Reader} {shape : Shape} {done : List (String × Json)} {outer : List Frame}
    {key : String} {value : Json} {members : List (String × Json)}
    (hr : ∀ done outer, r ≠ afterItem (.bytes 0) done outer)
    (hkey : r.step (.text (some key)) = some (colon shape (some done) (some key) outer))
    (hvalue : Passes value) (hmembers : MembersPass members)
    (h : AreMembersLegible shape ((key, value) :: members)) (rest : List Char) :
    r.run (quote key ++ ':' :: (value.chars ++ (memberChars members ++ rest))) =
      (settle (obj (done.reverse ++ (key, value) :: members)) outer).run rest := by
  simp only [AreMembersLegible] at h
  obtain ⟨hhead, htail⟩ := h
  have hnext := hmembers shape ((key, value) :: done) outer rest htail
  rw [List.reverse_cons, List.append_assoc, List.singleton_append] at hnext
  have hcolon (cs : List Char) : (colon shape (some done) (some key) outer).run (':' :: cs) =
      (Reader.value (shape.member key) (.member shape (some done) (some key) :: outer)).run cs :=
    run_of_next (t := .colon) (by simp) rfl rfl
  rw [run_of_next hr (Token.next_quote key _) hkey, hcolon,
    hvalue (.value _ _) hhead (stops_memberChars members rest)]
  exact hnext

theorem passes_obj_cons {key : String} {value : Json} {members : List (String × Json)}
    (hvalue : Passes value) (hmembers : MembersPass members) :
    Passes (obj ((key, value) :: members)) := by
  intro r shape outer rest hr hv _
  rw [Legible] at hv
  have hopen (cs : List Char) : r.run ('{' :: cs) = (keyOrEnd shape outer).run cs :=
    hr.run_of_next (t := .openObject) rfl rfl
  rw [chars, List.cons_append, List.append_assoc, List.cons_append, List.append_assoc, hopen]
  exact run_member (r := keyOrEnd shape outer) (by simp) rfl hvalue hmembers hv rest

theorem membersPass_nil : MembersPass [] := by
  intro shape done outer rest _
  rw [List.append_nil]
  exact run_of_next (t := .closeObject) (by simp) rfl rfl

theorem membersPass_cons {key : String} {value : Json} {members : List (String × Json)}
    (hvalue : Passes value) (hmembers : MembersPass members) :
    MembersPass ((key, value) :: members) := by
  intro shape done outer rest h
  have hcomma (cs : List Char) :
      (afterMember shape (some done) outer).run (',' :: cs) = (nextKey shape (some done) outer).run cs :=
    run_of_next (t := .comma) (by simp) rfl rfl
  rw [memberChars, List.cons_append, List.append_assoc, List.cons_append, List.append_assoc, hcomma]
  exact run_member (r := nextKey shape (some done) outer) (by simp) rfl hvalue hmembers h rest

/-- By the recursion of the printer, with the rest of an array or an object as cases of their own. -/
theorem passes (v : Json) : Passes v := by
  refine chars.induct Passes MembersPass ItemsPass passes_arr_nil (fun _ _ => passes_arr_cons)
    passes_obj_nil (fun _ _ _ => passes_obj_cons) (fun v hnil hcons hempty hmember => ?_)
    itemsPass_nil (fun _ _ => itemsPass_cons) membersPass_nil (fun _ _ _ => membersPass_cons) v
  refine passes_atom (fun items heq => ?_) (fun members heq => ?_)
  · cases items with
    | nil => exact hnil heq
    | cons item rest => exact hcons item rest heq
  · cases members with
    | nil => exact hempty heq
    | cons m rest => exact hmember m.1 m.2 rest heq

end Reader

/-- The text of a legible value is read as the value. -/
theorem parse?_compact {shape : Shape} {v : Json} (h : v.Legible shape) :
    parse? shape v.compact = some v := by
  have hstops : Number.Stops [] := fun c hc => by cases hc
  have hrun := Reader.passes v (.value shape []) h hstops
  rw [List.append_nil] at hrun
  rw [parse?, compact, String.toList_ofList, hrun, Reader.run]
  rfl

end Restake.Json
