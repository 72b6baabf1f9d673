import Restake.Proofs.Forecast
import Restake.Proofs.Tenure

/-!
Which batches the calls on operator sets take, and what they leave. Each element of a batch is
checked against what the elements before it have written. This comes to a condition on the batch as
it stands: its elements are distinct, and each could go through by itself. Only the bound on the
strategies of a set is on all of them together.
-/
namespace Restake

open Steps

namespace AddressSet

variable (t : AddressSet) (x : Address) (l : List Address)

theorem union_ofList_nil : t ∪ .ofList ([] : List Address) = t := by
  apply Std.ExtTreeSet.ext_mem
  simp

theorem union_ofList_cons : t ∪ .ofList (x :: l) = t.insert x ∪ .ofList l := by
  apply Std.ExtTreeSet.ext_mem
  intro y
  simp only [Std.ExtTreeSet.mem_union_iff, Std.ExtTreeSet.mem_insert, Std.ExtTreeSet.mem_ofList,
    List.contains_iff_mem, List.mem_cons, Std.LawfulEqCmp.compare_eq_iff_eq, eq_comm (a := x)]
  tauto

theorem diff_ofList_nil : t \ .ofList ([] : List Address) = t := by
  apply Std.ExtTreeSet.ext_mem
  simp

theorem diff_ofList_cons : t \ .ofList (x :: l) = t.erase x \ .ofList l := by
  apply Std.ExtTreeSet.ext_mem
  intro y
  simp only [Std.ExtTreeSet.mem_diff_iff, Std.ExtTreeSet.mem_erase, Std.ExtTreeSet.mem_ofList, ne_eq,
    List.contains_iff_mem, List.mem_cons, Std.LawfulEqCmp.compare_eq_iff_eq, eq_comm (a := x)]
  tauto

/-- A list of strategies can be added one by one to those of a set. -/
structure Takes (t : AddressSet) (bound : ℕ) (l : List Address) : Prop where
  distinct : l.Nodup
  new : ∀ x ∈ l, x ∉ t
  fits : l = [] ∨ (t ∪ .ofList l).size ≤ bound

/-- The bound is met all along where it is met in the end, as the set only grows. -/
theorem takes_cons (bound : ℕ) :
    Takes t bound (x :: l) ↔ (x ∉ t ∧ (t.insert x).size ≤ bound) ∧ Takes (t.insert x) bound l := by
  have hnew (y : Address) : y ∉ t.insert x ↔ x ≠ y ∧ y ∉ t := by
    rw [Std.ExtTreeSet.mem_insert, Std.LawfulEqCmp.compare_eq_iff_eq, not_or]
  constructor
  · rintro ⟨hdistinct, hfresh, hfits⟩
    obtain ⟨hx, hrest⟩ := List.nodup_cons.1 hdistinct
    obtain ⟨hxt, hfresh⟩ := List.forall_mem_cons.1 hfresh
    have hsize : (t.insert x ∪ .ofList l).size ≤ bound := by
      rw [← union_ofList_cons]
      exact hfits.resolve_left (List.cons_ne_nil x l)
    exact ⟨⟨hxt, Std.ExtTreeSet.size_left_le_size_union.trans hsize⟩, hrest,
      fun y hy => (hnew y).2 ⟨fun hxy => hx (hxy ▸ hy), hfresh y hy⟩, .inr hsize⟩
  · rintro ⟨⟨hxt, hsize⟩, hrest, hfresh, hfits⟩
    refine ⟨List.nodup_cons.2 ⟨fun hx => ((hnew x).1 (hfresh x hx)).1 rfl, hrest⟩,
      List.forall_mem_cons.2 ⟨hxt, fun y hy => ((hnew y).1 (hfresh y hy)).2⟩, .inr ?_⟩
    rw [union_ofList_cons]
    rcases hfits with rfl | hfits
    · rwa [union_ofList_nil]
    · exact hfits

/-- An empty set takes just what is distinct and does not outnumber the bound. -/
theorem takes_empty (bound : ℕ) : Takes ∅ bound l ↔ l.Nodup ∧ l.length ≤ bound := by
  have hsize (hdistinct : l.Nodup) : ((∅ : AddressSet) ∪ .ofList l).size = l.length := by
    have hempty : (∅ : AddressSet) ∪ .ofList l = .ofList l := by
      apply Std.ExtTreeSet.ext_mem
      simp
    rw [hempty]
    refine Std.ExtTreeSet.size_ofList (hdistinct.imp fun hne => ?_)
    rwa [Std.LawfulEqCmp.compare_eq_iff_eq]
  constructor
  · rintro ⟨hdistinct, -, hfits⟩
    refine ⟨hdistinct, ?_⟩
    rcases hfits with rfl | hfits
    · exact Nat.zero_le bound
    · rwa [← hsize hdistinct]
  · rintro ⟨hdistinct, hlength⟩
    exact ⟨hdistinct, fun _ _ => Std.ExtTreeSet.not_mem_empty, .inr ((hsize hdistinct).le.trans hlength)⟩

end AddressSet

namespace Books

variable (b : Books)

/-- What goes through only for a set that exists may ask for it first. -/
theorem ends_requireSet_bind {α : Type} {s : OperatorSet} {x : Bookkeeping α}
    {Q : α → Books → Prop} {C : Prop} (hset : C → b.setExists s)
    (h : b.setExists s → Ends (x b) Q fun _ => ¬C) :
    Ends ((requireSet s >>= fun _ => x) b) Q fun _ => ¬C := by
  rw [bind_apply, requireSet_apply]
  by_cases hs : b.setExists s
  · rw [if_pos hs]
    exact h hs
  · rw [if_neg hs]
    exact fun hC => hs (hset hC)

section Memberships

/-- An operator stands alike to distinct sets of one AVS: it is in each of them, or it is in none. -/
structure Stands (b : Books) (operator avs : Address) (ids : List UInt32) (isIn : Bool) : Prop where
  distinct : ids.Nodup
  setsExist : ∀ id ∈ ids, b.setExists ⟨avs, id⟩
  registered : ∀ id ∈ ids, (b.registration ⟨operator, ⟨avs, id⟩⟩).isRegistered = isIn

/-- The operator has another status in sets of one AVS, and all else is as it was. -/
def Marks (b : Books) (operator avs : Address) (ids : List UInt32) (status : RegistrationStatus)
    (b' : Books) : Prop :=
  ∀ m, b'.registration m =
    if m.operator = operator ∧ m.set.avs = avs ∧ m.set.id ∈ ids then status else b.registration m

variable {f : Membership → Bookkeeping Unit} (write : Books → Membership → Books) {isIn : Bool}
  {status : RegistrationStatus}

theorem marks_foldl (operator avs : Address) (ids : List UInt32)
    (hwrite : ∀ b m m', (write b m).registration m' = if m = m' then status else b.registration m') :
    b.Marks operator avs ids status
      (ids.foldl (fun b id => write b ⟨operator, ⟨avs, id⟩⟩) b) := by
  induction ids generalizing b with
  | nil => exact fun m => (if_neg fun h => nomatch h.2.2).symm
  | cons id ids ih =>
    rintro ⟨operator', ⟨avs', id'⟩⟩
    rw [List.foldl_cons, ih, hwrite]
    grind

/-- Steps that turn one way of standing to a set into the other go through all sets to which the
operator stands the first way. -/
theorem ends_memberships (operator avs : Address) (ids : List UInt32)
    (hround : ∀ b m, Ends (f m b)
      (fun _ b' => (b.setExists m.set ∧ (b.registration m).isRegistered = isIn) ∧ b' = write b m)
      fun _ => ¬(b.setExists m.set ∧ (b.registration m).isRegistered = isIn))
    (hsets : ∀ b m, (write b m).setExists = b.setExists)
    (hwrite : ∀ b m m', (write b m).registration m' = if m = m' then status else b.registration m')
    (hstatus : status.isRegistered ≠ isIn) :
    Ends ((ids.forM fun id => f ⟨operator, ⟨avs, id⟩⟩) b)
      (fun _ b' => b.Stands operator avs ids isIn ∧ b.Marks operator avs ids status b')
      fun _ => ¬b.Stands operator avs ids isIn := by
  have hstands : b.Stands operator avs ids isIn ↔ ids.Pairwise (· ≠ ·) ∧ ∀ id ∈ ids,
      b.setExists ⟨avs, id⟩ ∧ (b.registration ⟨operator, ⟨avs, id⟩⟩).isRegistered = isIn :=
    ⟨fun h => ⟨h.distinct, fun id hid => ⟨h.setsExist id hid, h.registered id hid⟩⟩,
      fun h => ⟨h.1, fun id hid => (h.2 id hid).1, fun id hid => (h.2 id hid).2⟩⟩
  have hends := ends_forM_pairwise _ _ (· ≠ ·) (fun b id => hround b ⟨operator, ⟨avs, id⟩⟩)
    (fun b id _ id' => ?_) b ids
  · rw [← hstands] at hends
    refine hends.weaken ?_ fun _ h => h
    rintro _ _ ⟨hcan, rfl⟩
    exact ⟨hcan, marks_foldl b write operator avs ids hwrite⟩
  · -- the write of a round shuts out a second round for the same set
    rw [hsets, hwrite]
    grind

theorem ends_register (operator avs : Address) (ids : List UInt32) :
    Ends ((ids.forM fun id => register ⟨operator, ⟨avs, id⟩⟩) b)
      (fun _ b' => b.Stands operator avs ids false ∧ b.Marks operator avs ids .registered b')
      fun _ => ¬b.Stands operator avs ids false := by
  refine ends_memberships b joined operator avs ids (fun b m => ?_) (fun _ _ => rfl)
    registration_joined nofun
  rw [register_apply]
  by_cases hset : b.setExists m.set
  · cases hin : (b.registration m).isRegistered
    · rw [if_pos hset, if_neg nofun]
      exact ⟨⟨hset, rfl⟩, rfl⟩
    · rw [if_pos hset, if_pos rfl]
      exact fun hcan => nomatch hcan.2
  · rw [if_neg hset]
    exact fun hcan => hset hcan.1

theorem ends_deregister (slashableUntil : BlockNumber) (operator avs : Address)
    (ids : List UInt32) :
    Ends ((ids.forM fun id => deregister slashableUntil ⟨operator, ⟨avs, id⟩⟩) b)
      (fun _ b' => b.Stands operator avs ids true ∧
        b.Marks operator avs ids (.deregistered slashableUntil) b')
      fun _ => ¬b.Stands operator avs ids true := by
  refine ends_memberships b (fun b m => b.departed m slashableUntil) operator avs ids
    (fun b m => ?_) (fun _ _ => rfl) (fun b m m' => b.registration_departed m m' slashableUntil)
    nofun
  rw [deregister_apply]
  by_cases hset : b.setExists m.set
  · cases hin : (b.registration m).isRegistered
    · rw [if_pos hset, if_neg nofun]
      exact fun hcan => nomatch hcan.2
    · rw [if_pos hset, if_pos rfl]
      exact ⟨⟨hset, rfl⟩, rfl⟩
  · rw [if_neg hset]
    exact fun hcan => hset hcan.1

end Memberships

section Strategies

def withStrategies (b : Books) (s : OperatorSet) (strategies : List Address) : Books :=
  strategies.foldl (·.strategyAdded s ·) b

def withoutStrategies (b : Books) (s : OperatorSet) (strategies : List Address) : Books :=
  strategies.foldl (·.strategyRemoved s ·) b

variable {b}

theorem setExists_withStrategies {s : OperatorSet} (h : b.setExists s) (strategies : List Address) :
    (b.withStrategies s strategies).setExists = b.setExists := by
  induction strategies generalizing b with
  | nil => rfl
  | cons x strategies ih =>
    have hadded : (b.strategyAdded s x).setExists = b.setExists := by
      funext t
      rw [setExists_strategyAdded]
      by_cases hst : s = t
      · subst t
        rw [h, Bool.or_true]
      · rw [decide_eq_false hst, Bool.false_or]
    rw [← hadded] at h
    rw [withStrategies, List.foldl_cons]
    exact (ih h).trans hadded

theorem strategiesOf_withStrategies (b : Books) (s t : OperatorSet) (strategies : List Address) :
    (b.withStrategies s strategies).strategiesOf t =
      if s = t then b.strategiesOf s ∪ .ofList strategies else b.strategiesOf t := by
  induction strategies generalizing b with
  | nil =>
    rw [AddressSet.union_ofList_nil]
    split
    · subst t
      rfl
    · rfl
  | cons x strategies ih =>
    refine (ih (b.strategyAdded s x)).trans ?_
    rw [strategiesOf_strategyAdded, strategiesOf_strategyAdded, if_pos rfl,
      AddressSet.union_ofList_cons]
    split <;> rfl

theorem strategiesOf_withoutStrategies (b : Books) (s : OperatorSet) (strategies : List Address) :
    (b.withoutStrategies s strategies).strategiesOf s = b.strategiesOf s \ .ofList strategies := by
  induction strategies generalizing b with
  | nil => exact (AddressSet.diff_ofList_nil _).symm
  | cons x strategies ih =>
    refine (ih (b.strategyRemoved s x)).trans ?_
    rw [strategiesOf_strategyRemoved, if_pos rfl, AddressSet.diff_ofList_cons]

variable (b) (s : OperatorSet) (maxStrategies : UInt64) (strategies : List Address)

/-- A batch of strategies can be added to a set. -/
structure CanAdd : Prop extends (b.strategiesOf s).Takes maxStrategies.toNat strategies where
  setExists : b.setExists s

/-- A batch of strategies can be taken out of a set. -/
structure CanRemove : Prop where
  setExists : b.setExists s
  distinct : strategies.Nodup
  held : ∀ x ∈ strategies, x ∈ b.strategiesOf s

theorem ends_addStrategies :
    Ends (addStrategies s maxStrategies strategies b)
      (fun _ b' => b.CanAdd s maxStrategies strategies ∧ b' = b.withStrategies s strategies)
      fun _ => ¬b.CanAdd s maxStrategies strategies := by
  refine b.ends_requireSet_bind CanAdd.setExists fun hset => ?_
  refine (ends_forM
    (fun b x => x ∉ b.strategiesOf s ∧ ((b.strategiesOf s).insert x).size ≤ maxStrategies.toNat)
    (·.strategyAdded s ·) (fun b l => (b.strategiesOf s).Takes maxStrategies.toNat l)
    (fun b x => ?_) (fun b => ⟨.nil, nofun, .inl rfl⟩) (fun b x l => ?_) b strategies).weaken ?_ ?_
  · rw [addStrategy_apply]
    by_cases hheld : (b.strategiesOf s).contains x
    · rw [if_pos hheld]
      exact fun hcan => hcan.1 hheld
    rw [if_neg hheld]
    by_cases hfull : maxStrategies.toNat < ((b.strategiesOf s).insert x).size
    · rw [if_pos hfull]
      exact fun hcan => Nat.not_le.2 hfull hcan.2
    · rw [if_neg hfull]
      exact ⟨⟨hheld, Nat.not_lt.1 hfull⟩, rfl⟩
  · rw [strategiesOf_strategyAdded, if_pos rfl]
    exact AddressSet.takes_cons _ x l _
  · rintro _ _ ⟨htakes, rfl⟩
    exact ⟨⟨htakes, hset⟩, rfl⟩
  · exact fun _ hrefused hcan => hrefused hcan.toTakes

theorem ends_removeStrategies :
    Ends (removeStrategies s strategies b)
      (fun _ b' => b.CanRemove s strategies ∧ b' = b.withoutStrategies s strategies)
      fun _ => ¬b.CanRemove s strategies := by
  refine b.ends_requireSet_bind CanRemove.setExists fun hset => ?_
  refine (ends_forM_pairwise (fun b x => x ∈ b.strategiesOf s) (·.strategyRemoved s ·) (· ≠ ·)
    (fun b x => ?_) (fun b x _ y => ?_) b strategies).weaken ?_ ?_
  · rw [removeStrategy_apply]
    by_cases hheld : (b.strategiesOf s).contains x
    · rw [if_pos hheld]
      exact ⟨hheld, rfl⟩
    · rw [if_neg hheld]
      exact hheld
  · rw [strategiesOf_strategyRemoved, if_pos rfl, Std.ExtTreeSet.mem_erase, ne_eq,
      Std.LawfulEqCmp.compare_eq_iff_eq]
  · rintro _ _ ⟨⟨hdistinct, hheld⟩, rfl⟩
    exact ⟨⟨hset, hdistinct, hheld⟩, rfl⟩
  · exact fun _ hrefused hcan => hrefused ⟨hcan.distinct, hcan.held⟩

end Strategies

section Creation

/-- What creating a set writes. -/
def createdWith (b : Books) (s : OperatorSet) (strategies : List Address) : Books :=
  (b.created s).withStrategies s strategies

theorem setExists_createdWith (s t : OperatorSet) (strategies : List Address) :
    (b.createdWith s strategies).setExists t ↔ s = t ∨ b.setExists t := by
  have hcreated : (b.created s).setExists s := by
    rw [setExists_created, decide_eq_true rfl, Bool.true_or]
  rw [createdWith, setExists_withStrategies hcreated, setExists_created, Bool.or_eq_true,
    decide_eq_true_eq]

theorem strategiesOf_createdWith (s t : OperatorSet) (strategies : List Address) :
    (b.createdWith s strategies).strategiesOf t =
      if s = t then .ofList strategies else b.strategiesOf t := by
  rw [createdWith, strategiesOf_withStrategies, strategiesOf_created, strategiesOf_created,
    if_pos rfl]
  split
  · apply Std.ExtTreeSet.ext_mem
    simp
  · rfl

theorem createSet_apply (s : OperatorSet) (maxStrategies : UInt64) (strategies : List Address) :
    createSet s maxStrategies strategies b =
      if b.setExists s then .error (.operatorSetAlreadyExists s) b
      else addStrategies s maxStrategies strategies (b.created s) := by
  simp only [createSet, bind_apply, get_apply, if_apply, throw_apply, modify_apply]
  split <;> rfl

theorem ends_createSet (s : OperatorSet) (maxStrategies : UInt64) (strategies : List Address) :
    Ends (createSet s maxStrategies strategies b)
      (fun _ b' => (¬b.setExists s ∧ strategies.Nodup ∧ strategies.length ≤ maxStrategies.toNat) ∧
        b' = b.createdWith s strategies)
      fun _ => ¬(¬b.setExists s ∧ strategies.Nodup ∧ strategies.length ≤ maxStrategies.toNat) := by
  rw [createSet_apply]
  by_cases hset : b.setExists s
  · rw [if_pos hset]
    exact fun hcan => hcan.1 hset
  rw [if_neg hset]
  have hempty : (b.created s).strategiesOf s = ∅ := by rw [strategiesOf_created, if_pos rfl]
  refine ((b.created s).ends_addStrategies s maxStrategies strategies).weaken ?_ ?_
  · rintro _ _ ⟨hcan, rfl⟩
    have htakes := hcan.toTakes
    rw [hempty, AddressSet.takes_empty] at htakes
    exact ⟨⟨hset, htakes⟩, rfl⟩
  · rintro _ hrefused ⟨-, htakes⟩
    rw [← AddressSet.takes_empty, ← hempty] at htakes
    refine hrefused ⟨htakes, ?_⟩
    rw [setExists_created, decide_eq_true rfl, Bool.true_or]

/-- A batch of sets can be created for an AVS. -/
structure CanCreate (avs : Address) (maxStrategies : UInt64) (sets : List CreateSetRequest) :
    Prop where
  distinct : (sets.map CreateSetRequest.id).Nodup
  new : ∀ r ∈ sets, ¬b.setExists ⟨avs, r.id⟩
  strategies : ∀ r ∈ sets, r.strategies.Nodup ∧ r.strategies.length ≤ maxStrategies.toNat

def withSets (avs : Address) (sets : List CreateSetRequest) : Books :=
  sets.foldl (fun b r => b.createdWith ⟨avs, r.id⟩ r.strategies) b

theorem setExists_withSets (avs : Address) (sets : List CreateSetRequest) (s : OperatorSet) :
    (b.withSets avs sets).setExists s ↔
      (s.avs = avs ∧ s.id ∈ sets.map CreateSetRequest.id) ∨ b.setExists s := by
  induction sets generalizing b with
  | nil => simp [withSets]
  | cons r sets ih =>
    refine (ih (b.createdWith ⟨avs, r.id⟩ r.strategies)).trans ?_
    obtain ⟨avs', id⟩ := s
    rw [setExists_createdWith, List.map_cons, List.mem_cons, OperatorSet.mk.injEq]
    grind

theorem strategiesOf_withSets_of_not_mem {avs : Address} {sets : List CreateSetRequest}
    {id : UInt32} (h : id ∉ sets.map CreateSetRequest.id) :
    (b.withSets avs sets).strategiesOf ⟨avs, id⟩ = b.strategiesOf ⟨avs, id⟩ := by
  induction sets generalizing b with
  | nil => rfl
  | cons r sets ih =>
    rw [List.map_cons, List.mem_cons, not_or] at h
    refine (ih (b.createdWith ⟨avs, r.id⟩ r.strategies) h.2).trans ?_
    rw [strategiesOf_createdWith, if_neg]
    rintro ⟨⟩
    exact h.1 rfl

theorem strategiesOf_withSets {avs : Address} {sets : List CreateSetRequest}
    (hdistinct : (sets.map CreateSetRequest.id).Nodup) {r : CreateSetRequest} (hr : r ∈ sets) :
    (b.withSets avs sets).strategiesOf ⟨avs, r.id⟩ = .ofList r.strategies := by
  induction sets generalizing b with
  | nil => cases hr
  | cons r' sets ih =>
    obtain ⟨hid, hrest⟩ := List.nodup_cons.1 hdistinct
    rcases List.mem_cons.1 hr with rfl | hr
    · refine (strategiesOf_withSets_of_not_mem _ hid).trans ?_
      rw [strategiesOf_createdWith, if_pos rfl]
    · exact ih (b.createdWith ⟨avs, r'.id⟩ r'.strategies) hrest hr

theorem ends_createSets (avs : Address) (maxStrategies : UInt64) (sets : List CreateSetRequest) :
    Ends ((sets.forM fun r => createSet ⟨avs, r.id⟩ maxStrategies r.strategies) b)
      (fun _ b' => b.CanCreate avs maxStrategies sets ∧ b' = b.withSets avs sets)
      fun _ => ¬b.CanCreate avs maxStrategies sets := by
  refine (ends_forM_pairwise _ _ (fun r r' => r.id ≠ r'.id)
    (fun b r => b.ends_createSet ⟨avs, r.id⟩ maxStrategies r.strategies) (fun b r _ r' => ?_) b
    sets).weaken ?_ ?_
  · rw [setExists_createdWith, not_or, OperatorSet.mk.injEq, and_assoc]
    simp only [true_and, ne_eq]
  · rintro _ _ ⟨⟨hdistinct, hall⟩, rfl⟩
    exact ⟨⟨List.pairwise_map.2 hdistinct, fun r hr => (hall r hr).1, fun r hr => (hall r hr).2⟩, rfl⟩
  · exact fun _ hrefused hcan => hrefused
      ⟨List.pairwise_map.1 hcan.distinct, fun r hr => ⟨hcan.new r hr, hcan.strategies r hr⟩⟩

end Creation

end Books

namespace Manager

open Books

variable {δ ρ π α : Type} [PermissionController π] {m : Manager δ ρ π} {principal caller : Address}
  {e : Entrypoint}

theorem ends_requireCaller_bind {x : Managing δ ρ π α} {Q : α → Manager δ ρ π → Prop} {C : Prop}
    (hcaller : C → m.mayCall principal caller e)
    (h : m.mayCall principal caller e → Ends (x m) Q fun _ => ¬C) :
    Ends ((requireCaller principal caller e >>= fun _ => x) m) Q fun _ => ¬C := by
  rw [bind_apply, requireCaller, get_bind_apply]
  by_cases hmay : m.mayCall principal caller e
  · rw [if_pos hmay]
    exact h hmay
  · rw [if_neg hmay]
    exact fun hC => hmay (hcaller hC)

/-- The conditions under which an operator is taken out of sets of an AVS. -/
structure MayDeregister (m : Manager δ ρ π) (caller : Address) (r : DeregisterRequest) : Prop
    extends m.books.Stands r.operator r.avs r.ids true where
  caller : m.mayCall r.operator caller .deregisterFromOperatorSets ∨
    m.mayCall r.avs caller .deregisterFromOperatorSets
  later : m.block.toNat + m.config.deallocationDelay.toNat < 2 ^ 32

theorem ends_departure (m : Manager δ ρ π) (caller : Address) (r : DeregisterRequest) :
    Ends (m.departure caller r)
      (fun _ b => m.MayDeregister caller r ∧ m.books.Marks r.operator r.avs r.ids
        (.deregistered (m.block + m.config.deallocationDelay)) b)
      fun _ => ¬m.MayDeregister caller r := by
  unfold departure
  split
  case isFalse hnot => exact fun hmay => hnot hmay.caller
  case isTrue hcaller =>
  unfold removal
  by_cases hlater : m.block.toNat + m.config.deallocationDelay.toNat < 2 ^ 32
  case neg =>
    rw [BlockNumber.after?_of_not_lt hlater]
    exact fun hmay => hlater hmay.later
  rw [BlockNumber.after?_of_lt hlater]
  dsimp only
  have hends := ends_deregister m.books.checkpoint (m.block + m.config.deallocationDelay)
    r.operator r.avs r.ids
  revert hends
  cases (r.ids.forM fun id => deregister (m.block + m.config.deallocationDelay)
      ⟨r.operator, ⟨r.avs, id⟩⟩) m.books.checkpoint with
  | ok u b =>
    rintro ⟨⟨hdistinct, hsets, hin⟩, hregistration⟩
    exact ⟨⟨⟨hdistinct, hsets, hin⟩, hcaller, hlater⟩, hregistration⟩
  | error e b =>
    exact fun hrefused hmay => hrefused ⟨hmay.distinct, hmay.setsExist, hmay.registered⟩

variable [DelegationLedger δ] [SetRegistrar ρ]

/-- A call goes through just where `C` holds, and the books that it leaves then are in `Q`. -/
structure Answers (m : Manager δ ρ π) (caller : Address) (c : Call) (C : Prop) (Q : Books → Prop) :
    Prop where
  goes_through : (∃ answer, (m.attempt (perform caller c)).1 = .ok answer) ↔ C
  leaves : C → Q (m.after (.call caller c)).books

variable {c : Call} {C : Prop} {Q : Books → Prop}

theorem Answers.of_ends {x : Managing δ ρ π Unit}
    (hperform : perform caller c = x >>= fun _ => pure .done)
    (h : Ends (x m) (fun _ m' => C ∧ Q m'.books) fun _ => ¬C) : m.Answers caller c C Q := by
  cases hrun : x m with
  | ok u m' =>
    rw [hrun] at h
    obtain ⟨hC, hQ⟩ := h
    have hattempt : m.attempt (perform caller c) = (.ok .done, m') := by
      refine attempt_of_ok ?_
      rw [hperform, bind_apply, hrun]
      rfl
    have hafter : m.after (.call caller c) = m' := congrArg Prod.snd hattempt
    exact ⟨⟨fun _ => hC, fun _ => ⟨.done, congrArg Prod.fst hattempt⟩⟩, fun _ => hafter ▸ hQ⟩
  | error e m' =>
    rw [hrun] at h
    have hattempt : m.attempt (perform caller c) = (.error e, m') := by
      refine attempt_of_error ?_
      rw [hperform, bind_apply, hrun]
    refine ⟨⟨fun hanswer => ?_, fun hC => absurd hC h⟩, fun hC => absurd hC h⟩
    rw [hattempt] at hanswer
    obtain ⟨answer, hanswer⟩ := hanswer
    cases hanswer

/-- A call that asks for its caller and then does one piece of bookkeeping. -/
theorem Answers.of_onBooks {x : Managing δ ρ π Unit} {step : Bookkeeping Unit}
    (hperform : perform caller c = (requireCaller principal caller e >>= fun _ => x) >>=
      fun _ => pure .done)
    (hx : x m = atomically (onBooks step) m)
    (h : Ends (step m.books.checkpoint) (fun _ b => C ∧ Q b.commit) fun _ => ¬C) :
    m.Answers caller c (m.mayCall principal caller e ∧ C) Q := by
  refine .of_ends hperform (ends_requireCaller_bind And.left fun hmay => ?_)
  rw [hx, atomically, onBooks]
  dsimp only
  revert h
  cases step m.books.checkpoint with
  | ok u b => exact fun h => ⟨⟨hmay, h.1⟩, h.2⟩
  | error e b => exact fun h hC => h hC.2

theorem addStrategies_answers (m : Manager δ ρ π) (caller : Address) (s : OperatorSet)
    (strategies : List Address) :
    m.Answers caller (.addStrategies s.avs s.id strategies)
      (m.mayCall s.avs caller .addStrategiesToOperatorSet ∧
        m.books.CanAdd s m.config.maxSetStrategies strategies)
      fun b => b.strategiesOf s = m.books.strategiesOf s ∪ .ofList strategies := by
  refine .of_onBooks rfl rfl
    ((ends_addStrategies m.books.checkpoint s m.config.maxSetStrategies strategies).weaken ?_ ?_)
  · rintro _ _ ⟨hcan, rfl⟩
    refine ⟨⟨hcan.toTakes, hcan.setExists⟩, ?_⟩
    exact (strategiesOf_withStrategies _ _ _ _).trans (if_pos rfl)
  · exact fun _ hrefused hcan => hrefused ⟨hcan.toTakes, hcan.setExists⟩

theorem removeStrategies_answers (m : Manager δ ρ π) (caller : Address) (s : OperatorSet)
    (strategies : List Address) :
    m.Answers caller (.removeStrategies s.avs s.id strategies)
      (m.mayCall s.avs caller .removeStrategiesFromOperatorSet ∧ m.books.CanRemove s strategies)
      fun b => b.strategiesOf s = m.books.strategiesOf s \ .ofList strategies := by
  refine .of_onBooks rfl rfl
    ((ends_removeStrategies m.books.checkpoint s strategies).weaken ?_ ?_)
  · rintro _ _ ⟨hcan, rfl⟩
    exact ⟨⟨hcan.setExists, hcan.distinct, hcan.held⟩, strategiesOf_withoutStrategies _ _ _⟩
  · exact fun _ hrefused hcan => hrefused ⟨hcan.setExists, hcan.distinct, hcan.held⟩

theorem createOperatorSets_answers (m : Manager δ ρ π) (caller avs : Address)
    (sets : List CreateSetRequest) :
    m.Answers caller (.createOperatorSets avs sets)
      (m.mayCall avs caller .createOperatorSets ∧
        m.books.CanCreate avs m.config.maxSetStrategies sets)
      fun b => (∀ s, b.setExists s ↔
          (s.avs = avs ∧ s.id ∈ sets.map CreateSetRequest.id) ∨ m.books.setExists s) ∧
        ∀ r ∈ sets, b.strategiesOf ⟨avs, r.id⟩ = .ofList r.strategies := by
  refine .of_onBooks rfl rfl
    ((ends_createSets m.books.checkpoint avs m.config.maxSetStrategies sets).weaken ?_ ?_)
  · rintro _ _ ⟨hcan, rfl⟩
    exact ⟨⟨hcan.distinct, hcan.new, hcan.strategies⟩, setExists_withSets _ avs sets,
      fun r hr => strategiesOf_withSets _ hcan.distinct hr⟩
  · exact fun _ hrefused hcan => hrefused ⟨hcan.distinct, hcan.new, hcan.strategies⟩

/-- The conditions under which an operator is registered for sets of an AVS. -/
structure MayRegister (m : Manager δ ρ π) (caller operator : Address) (r : RegisterRequest) : Prop
    extends m.books.Stands operator r.avs r.ids false where
  caller : m.mayCall operator caller .registerForOperatorSets
  known : DelegationLedger.isOperator m.delegation operator
  accepted : ∃ u registrar,
    SetRegistrar.register operator r.avs r.ids r.data m.registrar = .ok u registrar

theorem registerForOperatorSets_answers (m : Manager δ ρ π) (caller operator : Address)
    (r : RegisterRequest) :
    m.Answers caller (.registerForOperatorSets operator r) (m.MayRegister caller operator r)
      (m.books.Marks operator r.avs r.ids .registered) := by
  refine .of_ends rfl (ends_requireCaller_bind MayRegister.caller fun hcaller => ?_)
  rw [bind_apply, requireOperator, get_bind_apply]
  by_cases hknown : DelegationLedger.isOperator m.delegation operator
  case neg =>
    rw [if_neg hknown]
    exact fun hmay => hknown hmay.known
  rw [if_pos hknown, pure_apply]
  dsimp only
  rw [bind_apply, atomically, bind_apply, onBooks]
  have hends := ends_register m.books.checkpoint operator r.avs r.ids
  revert hends
  cases (r.ids.forM fun id => register ⟨operator, ⟨r.avs, id⟩⟩) m.books.checkpoint with
  | error e b =>
    exact fun hrefused hmay => hrefused ⟨hmay.distinct, hmay.setsExist, hmay.registered⟩
  | ok u b =>
    -- the registrar is asked once the whole batch is written
    rintro ⟨⟨hdistinct, hsets, hout⟩, hregistration⟩
    dsimp only
    rw [onRegistrar]
    dsimp only
    cases hasked : SetRegistrar.register operator r.avs r.ids r.data m.registrar with
    | ok u registrar =>
      exact ⟨⟨⟨hdistinct, hsets, hout⟩, hcaller, hknown, u, registrar, hasked⟩, hregistration⟩
    | error cause registrar =>
      intro hmay
      obtain ⟨_, _, haccepted⟩ := hmay.accepted
      rw [hasked] at haccepted
      cases haccepted

theorem deregisterFromOperatorSets_answers (m : Manager δ ρ π) (caller : Address)
    (r : DeregisterRequest) :
    m.Answers caller (.deregisterFromOperatorSets r) (m.MayDeregister caller r)
      (m.books.Marks r.operator r.avs r.ids
        (.deregistered (m.block + m.config.deallocationDelay))) := by
  refine .of_ends (x := deregisterFromOperatorSets caller r) rfl ?_
  rw [deregisterFromOperatorSets_apply]
  have hends := m.ends_departure caller r
  revert hends
  cases m.departure caller r with
  | error e b => exact id
  | ok u b =>
    intro hleft
    obtain ⟨g, tally, hhook, -⟩ := tolerating_apply
      (SetRegistrar.deregister r.operator r.avs r.ids)
      { m with books := b, tally := m.tally.deregistered r.ids.length }
    dsimp only
    rw [hhook]
    exact hleft

/-- The calls on operator sets take just the consistent batches, those whose elements are distinct
and could each go through by themselves, and they carry out the whole of what they take. -/
theorem takes_consistent_batches (m : Manager δ ρ π) (caller : Address) :
    (∀ operator r, m.Answers caller (.registerForOperatorSets operator r)
        (m.MayRegister caller operator r) (m.books.Marks operator r.avs r.ids .registered)) ∧
      (∀ r, m.Answers caller (.deregisterFromOperatorSets r) (m.MayDeregister caller r)
        (m.books.Marks r.operator r.avs r.ids
          (.deregistered (m.block + m.config.deallocationDelay)))) ∧
      (∀ s strategies, m.Answers caller (.addStrategies s.avs s.id strategies)
        (m.mayCall s.avs caller .addStrategiesToOperatorSet ∧
          m.books.CanAdd s m.config.maxSetStrategies strategies)
        fun b => b.strategiesOf s = m.books.strategiesOf s ∪ .ofList strategies) ∧
      (∀ s strategies, m.Answers caller (.removeStrategies s.avs s.id strategies)
        (m.mayCall s.avs caller .removeStrategiesFromOperatorSet ∧ m.books.CanRemove s strategies)
        fun b => b.strategiesOf s = m.books.strategiesOf s \ .ofList strategies) ∧
      ∀ avs sets, m.Answers caller (.createOperatorSets avs sets)
        (m.mayCall avs caller .createOperatorSets ∧
          m.books.CanCreate avs m.config.maxSetStrategies sets)
        fun b => (∀ s, b.setExists s ↔
            (s.avs = avs ∧ s.id ∈ sets.map CreateSetRequest.id) ∨ m.books.setExists s) ∧
          ∀ r ∈ sets, b.strategiesOf ⟨avs, r.id⟩ = .ofList r.strategies :=
  ⟨m.registerForOperatorSets_answers caller, m.deregisterFromOperatorSets_answers caller,
    m.addStrategies_answers caller, m.removeStrategies_answers caller,
    m.createOperatorSets_answers caller⟩

end Manager

end Restake
