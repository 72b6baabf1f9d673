import Restake.Json.Record
import Restake.Proofs.Reading

/-!
Lists, words and records come back from the JSON that is written for them: a list item by item, a
record field by field, and a variant by its name once its tag is taken off. A value nests as deep as
it was written, which is what `isPlain` counts.
-/
namespace Restake.Json

attribute [simp] Shape.names Shape.member areMembersPlain str?

/-! ### What has a text that reads back -/

theorem areItemsLegible_list {shape : Shape} {items : List Json}
    (h : ∀ v ∈ items, v.Legible shape) : AreItemsLegible (.list shape) items := by
  induction items with
  | nil => trivial
  | cons item rest ih =>
    rw [AreItemsLegible]
    exact ⟨by simp, h item List.mem_cons_self, ih fun v hv => h v (List.mem_cons_of_mem _ hv)⟩

@[simp] theorem legible_ofList {α : Type} {write : α → Json} {shape : Shape} {as : List α}
    (h : ∀ a, (write a).Legible shape) : (ofList write as).Legible (.list shape) := by
  rw [ofList, Legible]
  refine areItemsLegible_list fun v hv => ?_
  obtain ⟨a, -, rfl⟩ := List.mem_map.1 hv
  exact h a

/-- Read as it stands, a value reads back if it does under any shape. -/
theorem Legible.free {shape : Shape} {v : Json} : v.Legible shape → v.Legible .free := by
  refine Legible.induct (fun shape v => v.Legible shape → v.Legible .free)
    (fun shape members => AreMembersLegible shape members → AreMembersLegible .free members)
    (fun shape items => AreItemsLegible shape items → AreItemsLegible .free items)
    (fun _ h => h) (fun _ h => h) (fun _ _ _ h => h) ?arr ?obj ?atom (fun _ _ => trivial) ?item
    (fun _ _ => trivial) ?member shape v
  case arr =>
    intro shape items ih h
    rw [Legible] at h ⊢
    exact ih h
  case obj =>
    intro shape members ih h
    rw [Legible] at h ⊢
    exact ih h
  case atom =>
    intro v shape _ _ _ harr hobj h
    cases v with
    | arr items => exact absurd rfl (harr items)
    | obj members => exact absurd rfl (hobj members)
    | _ => exact h
  case item =>
    intro shape item rest hitem hrest h
    rw [AreItemsLegible] at h ⊢
    exact ⟨by simp, hitem h.2.1, hrest h.2.2⟩
  case member =>
    intro shape key value rest hvalue hrest h
    rw [AreMembersLegible] at h ⊢
    exact ⟨hvalue h.1, hrest h.2⟩

@[simp] theorem legible_ofList_free {α : Type} {write : α → Json} {as : List α}
    (h : ∀ a, (write a).Legible .free) : (ofList write as).Legible .free :=
  (legible_ofList h).free

@[simp] theorem legible_ofUInt32 (shape : Shape) (n : UInt32) : (ofUInt32 n).Legible shape := by
  have := n.toNat_lt
  rw [ofUInt32, ofNat, Legible]
  omega

@[simp] theorem legible_ofUInt64 (shape : Shape) (n : UInt64) : (ofUInt64 n).Legible shape := by
  have := n.toNat_lt
  rw [ofUInt64, ofNat, Legible]
  omega

/-! ### Room -/

theorem areItemsPlain_of_forall {room : Nat} {items : List Json} (h : ∀ v ∈ items, v.isPlain room) :
    areItemsPlain room items := by
  induction items with
  | nil => rfl
  | cons item rest ih =>
    rw [areItemsPlain, h item List.mem_cons_self, ih fun v hv => h v (List.mem_cons_of_mem _ hv)]
    rfl

@[simp] theorem isPlain_ofList {α : Type} {write : α → Json} {room : Nat} {as : List α}
    (h : ∀ a, (write a).isPlain room) : (ofList write as).isPlain (room + 1) := by
  rw [ofList, isPlain]
  refine areItemsPlain_of_forall fun v hv => ?_
  obtain ⟨a, -, rfl⟩ := List.mem_map.1 hv
  exact h a

@[simp] theorem isPlain_ofUInt32 (room : Nat) (n : UInt32) : (ofUInt32 n).isPlain room := by
  simp [ofUInt32, ofNat, isPlain]

@[simp] theorem isPlain_ofUInt64 (room : Nat) (n : UInt64) : (ofUInt64 n).isPlain room := by
  simp [ofUInt64, ofNat, isPlain]

@[simp] theorem isPlain_str (room : Nat) (s : String) : (str s).isPlain room := by
  simp [isPlain]

@[simp] theorem isPlain_obj (room : Nat) (members : List (String × Json)) :
    (obj members).isPlain (room + 1) = areMembersPlain room members := rfl

/-! ### Records -/

theorem mapM_eq_some_map {α β : Type} {f : α → Option β} {g : α → β} {as : List α}
    (h : ∀ a ∈ as, f a = some (g a)) : as.mapM f = some (as.map g) := by
  induction as with
  | nil => rfl
  | cons a as ih =>
    rw [List.mapM_cons, h a List.mem_cons_self, ih fun b hb => h b (List.mem_cons_of_mem _ hb)]
    rfl

theorem filter_key_eq {members : List (String × Json)} (h : (members.map Prod.fst).Nodup)
    {m : String × Json} (hm : m ∈ members) : members.filter (·.1 = m.1) = [m] := by
  induction members with
  | nil => cases hm
  | cons first rest ih =>
    obtain ⟨hfirst, hrest⟩ := List.nodup_cons.1 h
    obtain rfl | hm := List.mem_cons.1 hm
    · have hnone : rest.filter (·.1 = m.1) = [] := List.filter_eq_nil_iff.2 fun n hn heq =>
        hfirst (List.mem_map.2 ⟨n, hn, of_decide_eq_true heq⟩)
      rw [List.filter_cons_of_pos (by simp), hnone]
    · have hne : first.1 ≠ m.1 := fun heq => hfirst (heq ▸ List.mem_map_of_mem hm)
      rw [List.filter_cons_of_neg (by simpa using hne), ih hrest hm]

/-- A record gives each of its fields what was written for it. -/
@[simp] theorem fields?_obj {members : List (String × Json)} {names : List String}
    (hnames : members.map Prod.fst = names) (h : names.Nodup) :
    (obj members).fields? names = some (members.map fun m => some m.2) := by
  subst hnames
  rw [fields?, List.mapM_map]
  refine mapM_eq_some_map fun m hm => ?_
  simp only [Function.comp, field?, filter_key_eq h hm]

/-- A variant gives its name and its fields, if these have other names than the tag. -/
theorem tagged?_obj {room : Nat} {tag name : String} {fields : List (String × Json)}
    (htag : tag ∉ fields.map Prod.fst) (hplain : areMembersPlain room fields) :
    (obj ((tag, str name) :: fields)).tagged? room tag = some (name, obj fields) := by
  have hne : ∀ m ∈ fields, m.1 ≠ tag := fun m hm heq => htag (heq ▸ List.mem_map_of_mem hm)
  have hnone : fields.filter (·.1 = tag) = [] :=
    List.filter_eq_nil_iff.2 fun m hm heq => hne m hm (of_decide_eq_true heq)
  have hall : fields.filter (·.1 ≠ tag) = fields :=
    List.filter_eq_self.2 fun m hm => decide_eq_true (hne m hm)
  rw [tagged?, List.filter_cons_of_pos (by simp), List.filter_cons_of_neg (by simp), hnone, hall]
  exact if_pos hplain

@[simp] theorem required_some {α : Type} (read : Json → Option α) (v : Json) :
    required read (some v) = read v := rfl

@[simp] theorem withDefault_some {α : Type} (otherwise : α) (read : Json → Option α) (v : Json) :
    withDefault otherwise read (some v) = read v := rfl

@[simp] theorem list?_ofList {α : Type} {read : Json → Option α} {write : α → Json}
    (h : ∀ a, read (write a) = some a) (as : List α) : list? read (ofList write as) = some as := by
  rw [ofList, list?, List.mapM_map]
  exact (mapM_eq_some_map fun a _ => h a).trans (congrArg some (List.map_id as))

@[simp] theorem uint32?_ofUInt32 (n : UInt32) : uint32? (ofUInt32 n) = some n := by
  simp [uint32?, ofUInt32, ofNat, nat?, n.toNat_lt, UInt32.size]

@[simp] theorem uint64?_ofUInt64 (n : UInt64) : uint64? (ofUInt64 n) = some n := by
  simp [uint64?, ofUInt64, ofNat, nat?, n.toNat_lt, UInt64.size]

end Restake.Json
