import Restake.Address
import Restake.Magnitude

/-!
Operator sets: each AVS numbers its own. They are ordered by AVS, then by number, and so are the
32 bytes of their keys. The places where capacity, magnitude and membership are counted are
ordered by their parts in the same way.
-/
namespace Restake

theorem eq_of_compareLex {α β γ : Type} [Ord β] [Ord γ] [Std.LawfulEqOrd β] [Std.LawfulEqOrd γ]
    {f : α → β} {g : α → γ} (inj : ∀ a b, f a = f b → g a = g b → a = b) {a b : α}
    (h : compareLex (compareOn f) (compareOn g) a b = .eq) : a = b :=
  have ⟨hf, hg⟩ := compareLex_eq_eq.1 h
  inj a b (Std.LawfulEqOrd.eq_of_compare hf) (Std.LawfulEqOrd.eq_of_compare hg)

structure OperatorSet where
  avs : Address
  id : UInt32
deriving DecidableEq, Inhabited

namespace OperatorSet

instance : Ord OperatorSet := ⟨compareLex (compareOn avs) (compareOn id)⟩

instance : Std.TransOrd OperatorSet :=
  inferInstanceAs (Std.TransCmp (compareLex (compareOn avs) (compareOn id)))

instance : Std.LawfulEqOrd OperatorSet where
  eq_of_compare := eq_of_compareLex fun ⟨_, _⟩ ⟨_, _⟩ => by rintro rfl rfl; rfl

/-- The AVS in the first twenty bytes and the number in the last four. -/
def key (s : OperatorSet) : Bytes :=
  s.avs.bytes ++ (List.replicate 8 0 ++ Bytes.ofNat 4 s.id.toNat)

def label (s : OperatorSet) : String := s.avs.checksummed ++ ":" ++ toString s.id.toNat

def sort (sets : List OperatorSet) : List OperatorSet := sets.mergeSort fun s t => (compare s t).isLE

theorem length_key (s : OperatorSet) : s.key.length = 32 := by simp [key, Address.bytes]

end OperatorSet

/-- One strategy of one operator, where capacity is counted. -/
structure Account where
  operator : Address
  strategy : Address
deriving DecidableEq

instance : Ord Account := ⟨compareLex (compareOn Account.operator) (compareOn Account.strategy)⟩

instance : Std.TransOrd Account :=
  inferInstanceAs (Std.TransCmp (compareLex (compareOn Account.operator) (compareOn Account.strategy)))

instance : Std.LawfulEqOrd Account where
  eq_of_compare := eq_of_compareLex fun ⟨_, _⟩ ⟨_, _⟩ => by rintro rfl rfl; rfl

/-- One operator in one operator set. -/
structure Membership where
  operator : Address
  set : OperatorSet
deriving DecidableEq

instance : Ord Membership := ⟨compareLex (compareOn Membership.operator) (compareOn Membership.set)⟩

instance : Std.TransOrd Membership :=
  inferInstanceAs (Std.TransCmp (compareLex (compareOn Membership.operator) (compareOn Membership.set)))

instance : Std.LawfulEqOrd Membership where
  eq_of_compare := eq_of_compareLex fun ⟨_, _⟩ ⟨_, _⟩ => by rintro rfl rfl; rfl

/-- One strategy of one operator in one operator set, where magnitude is allocated. -/
structure Position where
  membership : Membership
  strategy : Address
deriving DecidableEq

instance : Ord Position := ⟨compareLex (compareOn Position.membership) (compareOn Position.strategy)⟩

instance : Std.TransOrd Position :=
  inferInstanceAs (Std.TransCmp (compareLex (compareOn Position.membership) (compareOn Position.strategy)))

instance : Std.LawfulEqOrd Position where
  eq_of_compare := eq_of_compareLex fun ⟨_, _⟩ ⟨_, _⟩ => by rintro rfl rfl; rfl

namespace Position

def operator (p : Position) : Address := p.membership.operator

def set (p : Position) : OperatorSet := p.membership.set

/-- The account whose capacity the position draws on. -/
def account (p : Position) : Account := ⟨p.operator, p.strategy⟩

end Position

/-- The position of an account in one operator set. -/
def Account.position (a : Account) (s : OperatorSet) : Position := ⟨⟨a.operator, s⟩, a.strategy⟩

/-- A set to be created, with the strategies that it starts with. -/
structure CreateSetRequest where
  id : UInt32
  strategies : List Address
deriving DecidableEq

end Restake
