import Restake.Proofs.Fields
import Restake.Wire.Records
import Restake.Wire.Scenario

/-!
Scenarios, events and the records that calls take and give come back from their texts. For each kind
of value two facts are shown of the JSON that is written for it: its text reads back under the shape
that the kind is read with, and the value is read from it. What stands inside a tagged value must
also be plain, since the reader of a variant looks at all that is left of it before it reads a field.
-/
namespace Restake

open Json (Legible Shape tagged?_obj)

attribute [simp] Bytes.ofJson?_toJson Address.ofJson?_toJson

@[simp] theorem Bytes.legible_toJson (shape : Shape) (bs : Bytes) : bs.toJson.Legible shape := trivial

@[simp] theorem Bytes.isPlain_toJson (room : Nat) (bs : Bytes) : bs.toJson.isPlain room := by
  simp [toJson]

@[simp] theorem Address.legible_toJson (shape : Shape) (a : Address) : a.toJson.Legible shape := trivial

@[simp] theorem Address.isPlain_toJson (room : Nat) (a : Address) : a.toJson.isPlain room := by
  simp [toJson]

namespace OperatorSet

@[simp] theorem legible_toJson (shape : Shape) (s : OperatorSet) : s.toJson.Legible shape := by
  simp [toJson]

@[simp] theorem ofJson?_toJson (s : OperatorSet) : ofJson? s.toJson = some s := by
  simp [ofJson?, toJson, shape]

@[simp] theorem isPlain_toJson (room : Nat) (s : OperatorSet) : s.toJson.isPlain (room + 1) := by
  simp [toJson]

end OperatorSet

namespace CreateSetRequest

theorem legible_toJson (r : CreateSetRequest) : r.toJson.Legible shape := by
  simp [toJson, shape]

@[simp] theorem ofJson?_toJson (r : CreateSetRequest) : ofJson? r.toJson = some r := by
  simp [ofJson?, toJson, shape]

@[simp] theorem isPlain_toJson (room : Nat) (r : CreateSetRequest) : r.toJson.isPlain (room + 2) := by
  simp [toJson]

end CreateSetRequest

theorem change?_ofInt {i : Int} (hlow : -2 ^ 127 ≤ i) (hhigh : i < 2 ^ 127) :
    change? (.ofInt i) = some i := by
  have hword : 1 <<< 127 = 2 ^ 127 := by decide
  rw [Json.ofInt]
  by_cases hneg : i < 0
  · simp only [hneg, decide_true, change?]
    rw [if_pos (by omega)]
    exact congrArg some (by omega)
  · simp only [hneg, decide_false, change?]
    rw [if_pos (by omega)]
    exact congrArg some (by omega)

namespace Allocation

theorem legible_toJson {a : Allocation} (hlow : -2 ^ 127 ≤ a.pending) (hhigh : a.pending < 2 ^ 127) :
    a.toJson.Legible .free := by
  have hpending : a.pending.natAbs ≤ 2 ^ 127 := by omega
  simpa [toJson, Json.ofInt] using hpending

theorem ofJson?_toJson {a : Allocation} (hlow : -2 ^ 127 ≤ a.pending) (hhigh : a.pending < 2 ^ 127) :
    ofJson? a.toJson = some a := by
  simp [ofJson?, toJson, change?_ofInt hlow hhigh]

end Allocation

namespace AllocateRequest

theorem legible_toJson (r : AllocateRequest) : r.toJson.Legible shape := by
  simp [toJson, shape]

@[simp] theorem ofJson?_toJson (r : AllocateRequest) : ofJson? r.toJson = some r := by
  simp [ofJson?, toJson, shape]

@[simp] theorem isPlain_toJson (room : Nat) (r : AllocateRequest) : r.toJson.isPlain (room + 2) := by
  simp [toJson]

end AllocateRequest

namespace RegistrationStatus

theorem legible_toJson (s : RegistrationStatus) : s.toJson.Legible .free := by
  cases s <;> simp [toJson]

theorem ofJson?_toJson (s : RegistrationStatus) : ofJson? s.toJson = some s := by
  cases s with
  | unregistered => rfl
  | registered => rfl
  | deregistered slashableUntil => simp [ofJson?, toJson, tagged?_obj]

end RegistrationStatus

namespace RegisterRequest

theorem legible_toJson (r : RegisterRequest) : r.toJson.Legible shape := by
  simp [toJson, shape]

@[simp] theorem ofJson?_toJson (r : RegisterRequest) : ofJson? r.toJson = some r := by
  simp [ofJson?, toJson, shape]

end RegisterRequest

namespace DeregisterRequest

theorem legible_toJson (r : DeregisterRequest) : r.toJson.Legible shape := by
  simp [toJson, shape]

@[simp] theorem ofJson?_toJson (r : DeregisterRequest) : ofJson? r.toJson = some r := by
  simp [ofJson?, toJson, shape]

end DeregisterRequest

namespace SlashRequest

theorem legible_toJson (r : SlashRequest) : r.toJson.Legible shape := by
  simp [toJson, shape]

theorem ofJson?_toJson (r : SlashRequest) : ofJson? r.toJson = some r := by
  simp [ofJson?, toJson, shape]

end SlashRequest

namespace Event

theorem legible_toJson (e : Event) : e.toJson.Legible .free := by
  cases e <;> simp [toJson, tagged]

theorem ofJson?_toJson (e : Event) : ofJson? e.toJson = some e := by
  cases e with
  | _ =>
    -- The tag chooses the reader of the fields before any of them is looked at.
    rw [ofJson?, toJson, tagged, tagged?_obj (by simp) (by simp), Option.bind_eq_bind,
      Option.bind_some]
    simp [Position.operator, Position.set]

end Event

namespace RegistrarCall

theorem legible_toJson (c : RegistrarCall) : c.toJson.Legible .free := by
  cases c <;> simp [toJson]

theorem ofJson?_toJson (c : RegistrarCall) : ofJson? c.toJson = some c := by
  cases c <;> simp [ofJson?, toJson, tagged?_obj]

end RegistrarCall

namespace Radix

theorem push_digitChar {n d : Nat} (hd : d < 16) :
    push 16 n (Nat.digitChar d) = some (n * 16 + d) := by
  have hdigit : ∀ k < 16, Nat.digitChar k ≠ '_' ∧ Hex.digit? (Nat.digitChar k) = some k := by decide
  obtain ⟨hmark, hvalue⟩ := hdigit d hd
  rw [push, if_neg hmark, hvalue]
  exact if_pos hd

theorem foldlM_push_toDigits (n : Nat) : (Nat.toDigits 16 n).foldlM (push 16) 0 = some n := by
  induction n using Nat.strongRecOn with
  | ind n ih =>
    rw [Nat.toDigits_eq_if (by decide)]
    split
    next hn => simp [push_digitChar hn]
    · rw [List.foldlM_append, ih (n / 16) (by omega)]
      simp [push_digitChar (Nat.mod_lt n (by decide : 0 < 16))]
      omega

theorem read?_renderNat (n : Nat) : read? (Hex.renderNat n) = some n := by
  rw [read?, Hex.renderNat, String.toList_ofList]
  exact foldlM_push_toDigits n

end Radix

namespace Shares

theorem legible_toJson (shape : Shape) (s : Shares) : (toJson s).Legible shape := trivial

theorem ofJson?_toJson (s : Shares) : ofJson? (toJson s) = some s := by
  have hs : s.toNat < 1 <<< 256 := s.isLt
  rw [toJson, ofJson?, ofText?, Radix.read?_renderNat, Option.bind_some, ofNat?, if_pos hs,
    BitVec.ofNat_toNat, BitVec.setWidth_eq]

end Shares

namespace SlashLeg

theorem legible_toJson (l : SlashLeg) : l.toJson.Legible shape := by
  simp [toJson, Shares.legible_toJson]

theorem ofJson?_toJson (l : SlashLeg) : ofJson? l.toJson = some l := by
  simp [ofJson?, toJson, shape, Shares.ofJson?_toJson]

end SlashLeg

namespace SlashOutcome

theorem legible_toJson (o : SlashOutcome) : o.toJson.Legible shape := by
  simp [toJson, shape, SlashLeg.legible_toJson]

theorem ofJson?_toJson (o : SlashOutcome) : ofJson? o.toJson = some o := by
  simp [ofJson?, toJson, shape, SlashLeg.ofJson?_toJson]

end SlashOutcome

namespace Config

theorem legible_toJson (c : Config) : c.toJson.Legible .free := by
  simp [toJson]

theorem ofJson?_toJson (c : Config) : ofJson? c.toJson = some c := by
  simp [ofJson?, toJson]

end Config

namespace Action

theorem legible_toJson (a : Action) : a.toJson.Legible .free := by
  obtain c | g := a
  · cases c <;>
      simp [toJson, fields, (AllocateRequest.legible_toJson _).free,
        (CreateSetRequest.legible_toJson _).free]
  · simp [toJson, fields, Entrypoint.toJson]

/-- The fields of an action stand beside its name, and nest no deeper than an action may. -/
theorem tagged?_toJson (a : Action) : a.toJson.tagged? 123 "type" = some (a.name, .obj a.fields) := by
  refine tagged?_obj ?_ ?_
  · obtain c | g := a
    · cases c <;> simp [fields]
    · simp [fields]
  · obtain c | g := a
    · cases c <;> simp [fields]
    · simp [fields, Entrypoint.toJson]

theorem ofJson?_toJson (a : Action) : ofJson? a.toJson = some a := by
  rw [ofJson?, tagged?_toJson, Option.bind_eq_bind, Option.bind_some]
  obtain c | g := a
  · cases c with
    | deregisterFromOperatorSets r =>
      -- What is left without the tag is the request as it is written on its own.
      have hrest :
          DeregisterRequest.ofJson? (.obj (call (.deregisterFromOperatorSets r)).fields) = some r :=
        DeregisterRequest.ofJson?_toJson r
      simp [name, Call.name, hrest]
    | _ =>
      dsimp only [name, Call.name]
      simp [fields]
  · simp [name, fields, Entrypoint.toJson, Entrypoint.ofInnerJson?, Entrypoint.ofJson?,
      Entrypoint.ofName?_name]

end Action

namespace Step

theorem legible_toJson (s : Step) : s.toJson.Legible shape := by
  simp [toJson, shape, Action.legible_toJson]

theorem ofJson?_toJson (s : Step) : ofJson? s.toJson = some s := by
  simp [ofJson?, toJson, shape, Action.ofJson?_toJson]

end Step

namespace Balance

theorem legible_toJson (b : Balance) : b.toJson.Legible shape := by
  simp [toJson, Shares.legible_toJson]

theorem ofJson?_toJson (b : Balance) : ofJson? b.toJson = some b := by
  simp [ofJson?, toJson, shape, Shares.ofJson?_toJson]

end Balance

namespace OperatorSpec

theorem legible_toJson (o : OperatorSpec) : o.toJson.Legible shape := by
  simp [toJson, shape, Balance.legible_toJson]

theorem ofJson?_toJson (o : OperatorSpec) : ofJson? o.toJson = some o := by
  simp [ofJson?, toJson, shape, Balance.ofJson?_toJson]

end OperatorSpec

namespace Account

theorem legible_toJson (a : Account) : a.toJson.Legible shape := by
  simp [toJson]

theorem ofJson?_toJson (a : Account) : ofJson? a.toJson = some a := by
  simp [ofJson?, toJson, shape]

end Account

namespace Scenario

theorem config?_ofOption (c : Option Config) : config? (.ofOption Config.toJson c) = some c := by
  cases c with
  | none => rfl
  | some c =>
    have hconfig : config? c.toJson = (Config.ofJson? c.toJson).map some := rfl
    rw [Json.ofOption, hconfig, Config.ofJson?_toJson, Option.map_some]

theorem legible_toJson (s : Scenario) : s.toJson.Legible shape := by
  have hconfig : (Json.ofOption Config.toJson s.config).Legible .free := by
    cases s.config with
    | none => trivial
    | some c => exact c.legible_toJson
  simp [toJson, shape, hconfig, OperatorSpec.legible_toJson, Step.legible_toJson,
    Account.legible_toJson]

theorem ofJson?_toJson (s : Scenario) : ofJson? s.toJson = some s := by
  simp [ofJson?, toJson, shape, config?_ofOption, OperatorSpec.ofJson?_toJson, Step.ofJson?_toJson,
    Account.ofJson?_toJson]

end Scenario

/-- Whether a value comes back from the compact text of its JSON. -/
def ReadsBack {α : Type} (shape : Shape) (read : Json → Option α) (write : α → Json) (a : α) : Prop :=
  (Json.parse? shape (write a).compact).bind read = some a

theorem readsBack {α : Type} {shape : Shape} {read : Json → Option α} {write : α → Json} {a : α}
    (hwrite : (write a).Legible shape) (hread : read (write a) = some a) :
    ReadsBack shape read write a := by
  rw [ReadsBack, Json.parse?_compact hwrite, Option.bind_some, hread]

/-- Every value comes back from its text; a pending change does as long as it is a word of 128
bits. -/
theorem written_reads_back :
    (∀ s : Scenario, Scenario.ofText? s.text = some s) ∧
    (∀ e : Event, ReadsBack .free Event.ofJson? Event.toJson e) ∧
    (∀ c : RegistrarCall, ReadsBack .free RegistrarCall.ofJson? RegistrarCall.toJson c) ∧
    (∀ s : RegistrationStatus,
      ReadsBack .free RegistrationStatus.ofJson? RegistrationStatus.toJson s) ∧
    (∀ o : SlashOutcome, ReadsBack SlashOutcome.shape SlashOutcome.ofJson? SlashOutcome.toJson o) ∧
    (∀ a : Allocation, -2 ^ 127 ≤ a.pending → a.pending < 2 ^ 127 →
      ReadsBack .free Allocation.ofJson? Allocation.toJson a) ∧
    (∀ r : AllocateRequest,
      ReadsBack AllocateRequest.shape AllocateRequest.ofJson? AllocateRequest.toJson r) ∧
    (∀ r : CreateSetRequest,
      ReadsBack CreateSetRequest.shape CreateSetRequest.ofJson? CreateSetRequest.toJson r) ∧
    (∀ r : RegisterRequest,
      ReadsBack RegisterRequest.shape RegisterRequest.ofJson? RegisterRequest.toJson r) ∧
    (∀ r : DeregisterRequest,
      ReadsBack DeregisterRequest.shape DeregisterRequest.ofJson? DeregisterRequest.toJson r) ∧
    (∀ r : SlashRequest, ReadsBack SlashRequest.shape SlashRequest.ofJson? SlashRequest.toJson r) ∧
    (∀ c : Config, ReadsBack .free Config.ofJson? Config.toJson c) :=
  ⟨fun s => readsBack s.legible_toJson s.ofJson?_toJson,
    fun e => readsBack e.legible_toJson e.ofJson?_toJson,
    fun c => readsBack c.legible_toJson c.ofJson?_toJson,
    fun s => readsBack s.legible_toJson s.ofJson?_toJson,
    fun o => readsBack o.legible_toJson o.ofJson?_toJson,
    fun _ hlow hhigh => readsBack (Allocation.legible_toJson hlow hhigh)
      (Allocation.ofJson?_toJson hlow hhigh),
    fun r => readsBack r.legible_toJson r.ofJson?_toJson,
    fun r => readsBack r.legible_toJson r.ofJson?_toJson,
    fun r => readsBack r.legible_toJson r.ofJson?_toJson,
    fun r => readsBack r.legible_toJson r.ofJson?_toJson,
    fun r => readsBack r.legible_toJson r.ofJson?_toJson,
    fun c => readsBack c.legible_toJson c.ofJson?_toJson⟩

/-- The least change that is a word of 128 bits has no positive counterpart, and comes back. -/
theorem written_reads_back_least_change :
    (-2 ^ 127 : Int) ≤ -2 ^ 127 ∧ (-2 ^ 127 : Int) < 2 ^ 127 ∧
      ReadsBack .free Allocation.ofJson? Allocation.toJson ⟨wad, -2 ^ 127, 7⟩ := by
  obtain ⟨-, -, -, -, -, hallocation, -⟩ := written_reads_back
  exact ⟨by decide, by decide, hallocation ⟨wad, -2 ^ 127, 7⟩ (by decide) (by decide)⟩

end Restake
