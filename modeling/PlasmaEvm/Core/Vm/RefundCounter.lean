import PlasmaEvm.Core.Vm.GasSStore

/-
  The refund counter never goes below zero.  A slot is
  cleared when its committed value is not zero and its
  current value is; net gas metering has added a clear
  refund for each cleared slot, so the counter holds at
  least NetSstoreClearRefund for each (`RefundCovers`). Then
  the SubRefund of a slot filled again never panics.

  Each SSTORE keeps the cover: its gas adds a clear refund
  for the slot it clears and takes one back only from a slot
  that was cleared, and its write changes that one slot.
  The other changes of an instruction clear no slot.  A call
  that fails is reverted to its snapshot, which brings back
  the view and the committed storage of the state it began
  in, and with them the cleared slots and the counter.  So
  every call frame of a transaction runs to its end, over
  any operations, from any state the cover holds in.

  Key definitions include:
    * `Vm.cleared`, `Vm.RefundCovers`, `Vm.opsRefundBound`

  Key statements include:
    * `Vm.mem_cleared_iff`, `Vm.cleared_SetState`
    * `Vm.sstoreStep_covers`, `Vm.RefundCovers.apply`
    * `Vm.interpretOps_covers`, `Vm.interpretOp_covers`
-/

------------------------------------------------------------
-- Cleared Slots
------------------------------------------------------------

namespace PlasmaEvm

namespace Vm

open PlasmaEvm.State

variable {H : Type} [DecidableEq H] [Inhabited H]
variable (db : Database H)

/-
  The slots whose committed value is not zero and whose
  current value is.
-/
def cleared (s : StateDB H) : Set (Address × H) :=
  {slot | s.GetCommittedState db slot.1 slot.2 ≠ zeroHash ∧
    s.GetState db slot.1 slot.2 = zeroHash}

/-
  The refund counter holds a clear refund for each cleared
  slot.
-/
structure RefundCovers (s : StateDB H) : Prop where
  finite : (cleared db s).Finite
  covers : NetSstoreClearRefund.toNat *
    (cleared db s).ncard ≤ s.refund.toNat

variable {db}

/-
  A slot is cleared when the live object at its address,
  without fake storage, has it committed not zero and
  current zero: fake storage is its own committed storage.
-/
theorem mem_cleared_iff
    (s : StateDB H)
    (a : Address)
    (k : H) :
    (a, k) ∈ cleared db s ↔ ∃ ov g f,
      (s.view db).live a = some ov ∧ ov.Storage = some g ∧
      s.committedView db a = some f ∧ f k ≠ zeroHash ∧
        g k = zeroHash := by
  have hLive := StateDB.getStateObject_view db s a
  simp only [cleared, Set.mem_ofPred_eq, StateDB.GetState,
    StateDB.GetCommittedState,
    StateDB.readStateObject]
  cases hObj : s.getStateObject db a with
  | none =>
      rw [hObj, Option.map_none] at hLive
      simp [← hLive]
  | some obj =>
      rw [hObj, Option.map_some] at hLive
      rw [← hLive,
        StateDB.committedView_of_getStateObject db hObj]
      cases hFake : obj.fakeStorage with
      | none =>
          simp [StateObject.view,
            StateObject.committedStorage, hFake]
      | some fake =>
          simp [StateObject.view,
            StateObject.committedStorage,
            StateObject.GetState,
            StateObject.GetCommittedState, hFake]

/-
  The cleared slots are in the view and the committed
  storage.
-/
theorem cleared_of_viewCommitted
    {r s : StateDB H}
    (hView : r.viewCommitted db = s.viewCommitted db) :
    cleared db r = cleared db s := by
  have hObjects : r.view db = s.view db :=
    congrArg Prod.fst hView
  have hCommitted : r.committedView db =
    s.committedView db := congrArg Prod.snd hView
  ext ⟨a, k⟩
  rw [mem_cleared_iff, mem_cleared_iff,
    hObjects, hCommitted]

/-
  A state with the view and committed storage of one the
  cover holds in has it too.
-/
theorem RefundCovers.of_viewCommitted
    {r s : StateDB H}
    (hView : r.viewCommitted db = s.viewCommitted db)
    (hCovers : RefundCovers db s) :
    RefundCovers db r := by
  have hRefund : r.refund = s.refund := congrArg (fun vc =>
    vc.1.refund) hView
  have hCleared := cleared_of_viewCommitted hView
  exact ⟨hCleared ▸ hCovers.finite,
    by rw [hCleared, hRefund]; exact hCovers.covers⟩

/- The getters read the objects only. -/
theorem readStateObject_of_stateObjects
    {s t : StateDB H}
    (hObjects : t.stateObjects = s.stateObjects)
    (addr : Address)
    {α : Type}
    (read : StateObject H → α)
    (zero : α) :
    t.readStateObject db addr read zero =
      s.readStateObject db addr read zero := by
  simp only [StateDB.readStateObject,
    StateDB.getStateObject, StateDB.getDeletedStateObject,
    hObjects]

theorem cleared_of_stateObjects
    {s t : StateDB H}
    (hObjects : t.stateObjects = s.stateObjects) :
    cleared db t = cleared db s := by
  ext ⟨a, k⟩
  simp only [cleared, Set.mem_ofPred_eq, StateDB.GetState,
    StateDB.GetCommittedState,
    readStateObject_of_stateObjects hObjects]

/-
  No live object has a slot cleared: as at the start of a
  transaction, after Finalise.
-/
theorem RefundCovers.of_clean
    {s : StateDB H}
    (hClean : ∀ a k, s.GetState db a k =
      s.GetCommittedState db a k) :
    RefundCovers db s := by
  have hNone : cleared db s = ∅ := by
    ext ⟨a, k⟩
    simp only [cleared, Set.mem_ofPred_eq, hClean,
      Set.mem_empty_iff_false, iff_false, not_and]
    exact fun hNonzero hZero => hNonzero hZero
  exact ⟨by rw [hNone]; exact Set.finite_empty,
    by simp [hNone]⟩

/-
  A new state reads every slot at its committed value: it
  has no live object, and an object loaded from the database
  has no dirty storage.
-/
theorem RefundCovers.New :
    RefundCovers db (StateDB.New : StateDB H) := by
  refine RefundCovers.of_clean fun a k => ?_
  unfold StateDB.GetState StateDB.GetCommittedState
    StateDB.readStateObject StateDB.getStateObject
    StateDB.getDeletedStateObject
  cases db.account a with
  | none => rfl
  | some account => rfl

/-
  Two sets that agree off one point: the second is finite
  with the first, and their counts differ by whether each
  holds the point.
-/
open Classical in
theorem ncard_add_of_agree
    {α : Type}
    {A B : Set α}
    {p : α}
    (hA : A.Finite)
    (hAgree : ∀ x, x ≠ p → (x ∈ B ↔ x ∈ A)) :
    B.Finite ∧ B.ncard + (if p ∈ A
      then 1 else 0) =
        A.ncard + (if p ∈ B then 1 else 0) := by
  have hRest : B \ {p} = A \ {p} := by
    ext x
    simp only [Set.mem_sdiff, Set.mem_singleton_iff]
    exact ⟨fun ⟨hx, hne⟩ => ⟨(hAgree x hne).mp hx, hne⟩,
      fun ⟨hx, hne⟩ => ⟨(hAgree x hne).mpr hx, hne⟩⟩
  have hB : B.Finite := by
    have hInsert : (insert p (A \ {p})).Finite :=
      hA.sdiff.insert p
    refine hInsert.subset fun x hx => ?_
    by_cases hxp : x = p
    · exact Or.inl hxp
    · exact Or.inr (hRest ▸ ⟨hx, hxp⟩)
  have hCount : ∀ {C : Set α}, C.Finite →
    C.ncard = (C \ {p}).ncard + (if p ∈ C
    then 1 else 0) := by
    intro C hC
    split
    · next hp =>
        exact (Set.ncard_sdiff_singleton_add_one hp hC).symm
    · next hp =>
        rw [Set.sdiff_singleton_eq_self hp, Nat.add_zero]
  refine ⟨hB, ?_⟩
  rw [hCount hA, hCount hB, hRest]
  omega

/-
  A change clears no slot when it keeps both reads of a
  slot, or makes its committed value zero.
-/
theorem cleared_subset
    {s t : StateDB H}
    (hReads : ∀ a k, t.GetCommittedState db a k = zeroHash ∨
      (t.GetCommittedState db a k =
        s.GetCommittedState db a k ∧
        t.GetState db a k = s.GetState db a k)) :
    cleared db t ⊆ cleared db s := by
  rintro ⟨a, k⟩ ⟨hCommitted, hCurrent⟩
  rcases hReads a k
    with hZero | ⟨hSameCommitted, hSameCurrent⟩
  · exact absurd hZero hCommitted
  · exact ⟨hSameCommitted ▸ hCommitted,
      hSameCurrent ▸ hCurrent⟩

/-
  Under an empty storage trie, a write changes the cleared
  slots at its own slot only, and clears it only where the
  committed value is not zero and the value written is.
-/
theorem cleared_SetState
    {s : StateDB H}
    (hWF : s.WellFormed)
    (hEmpty : db.EmptyStorage)
    (addr : Address)
    (key value : H) :
    (∀ p, p ≠ (addr, key) → (p ∈ cleared db
      (s.SetState db addr key value) ↔ p ∈ cleared db s)) ∧
      ((addr,
        key) ∈ cleared db (s.SetState db addr key value) →
        clearCount (s.GetCommittedState db addr key)
          value = 1) := by
  constructor
  · rintro ⟨a, k⟩ hOther
    simp only [cleared, Set.mem_ofPred_eq,
      StateDB.GetState_SetState hWF hEmpty,
      StateDB.GetCommittedState_SetState hWF hEmpty]
    by_cases hA : a = addr
    · subst hA
      have hK : k ≠ key := fun hK => hOther (by rw [hK])
      simp [hK]
    · simp [hA]
  · rintro ⟨hCommitted, hCurrent⟩
    simp only [StateDB.GetState_SetState hWF hEmpty,
      and_self, if_true] at hCurrent
    rw [StateDB.GetCommittedState_SetState hWF
      hEmpty] at hCommitted
    split at hCommitted
    · exact absurd hCurrent hCommitted
    · simp [clearCount, hCommitted, hCurrent]

end Vm

end PlasmaEvm

------------------------------------------------------------
-- The Other Changes
------------------------------------------------------------

namespace PlasmaEvm

namespace Vm

open PlasmaEvm.State

variable {H : Type} [DecidableEq H] [Inhabited H]
variable {db : Database H}

/-
  What a change of one object keeps: its place, and both
  reads of every slot.
-/
variable (db) in
structure KeepsSlots
    (change : StateObject H → Journal H →
      StateObject H × Journal H) :
    Prop where
  address : ∀ o j, (change o j).1.address = o.address
  deleted : ∀ o j, (change o j).1.deleted = o.deleted
  state : ∀ o j k,
    (change o j).1.GetState db k = o.GetState db k
  committed : ∀ o j k, (change o j).1.GetCommittedState db k
    = o.GetCommittedState db k

/- A change that sets the balance only keeps the slots. -/
omit [DecidableEq H] [Inhabited H] in
theorem KeepsSlots.of_setBalance
    {change : StateObject H → Journal H →
      StateObject H × Journal H}
    (balance : StateObject H → Int)
    (hFst : ∀ o j,
      (change o j).1 = o.setBalance (balance o)) :
    KeepsSlots db change :=
  ⟨fun o j => by rw [hFst]; rfl, fun o j =>
    by rw [hFst]; rfl, fun o j _ => by rw [hFst]; rfl,
    fun o j _ => by rw [hFst]; rfl⟩

/-
  Under an empty storage trie, a change of one object that
  keeps the slots changes no read of one.
-/
theorem slots_updateObject
    {s : StateDB H}
    (hWF : s.WellFormed)
    (hEmpty : db.EmptyStorage)
    (addr : Address)
    {change : StateObject H → Journal H →
      StateObject H × Journal H}
    (hKeeps : KeepsSlots db change)
    (a : Address)
    (k : H) :
    (s.updateObject db addr change).GetCommittedState db a k
      = s.GetCommittedState db a k ∧
      (s.updateObject db addr change).GetState db a k =
        s.GetState db a k :=
  ⟨StateDB.readStateObject_updateObject_of_keeps hWF addr a
    hKeeps.address hKeeps.deleted
      (fun obj => obj.GetCommittedState db k) zeroHash
        (fun o j => hKeeps.committed o j k)
      ((StateDB.createObject_reads s addr k).2.trans (hEmpty k)),
    StateDB.readStateObject_updateObject_of_keeps hWF addr a
      hKeeps.address hKeeps.deleted
      (fun obj => obj.GetState db k) zeroHash (fun o j =>
        hKeeps.state o j k)
      ((StateDB.createObject_reads s addr k).1.trans (hEmpty k))⟩

theorem slots_of_stateObjects
    {s t : StateDB H}
    (hObjects : t.stateObjects = s.stateObjects)
    (a : Address)
    (k : H) :
    t.GetCommittedState db a k =
      s.GetCommittedState db a k ∧
      t.GetState db a k = s.GetState db a k :=
  ⟨readStateObject_of_stateObjects hObjects a _ _,
    readStateObject_of_stateObjects hObjects a _ _⟩

omit [Inhabited H] in
theorem AddPreimage_stateObjects
    (s : StateDB H)
    (hash : H)
    (preimage : Bytes) :
    (s.AddPreimage hash preimage).stateObjects =
      s.stateObjects := by
  unfold StateDB.AddPreimage
  split <;> rfl

/-
  Under an empty storage trie, every change but SSTORE's
  keeps both reads of a slot, or makes its committed value
  zero: CreateAccount reads a fresh object.
-/
theorem slots_apply
    {s t : StateDB H}
    (hWF : s.WellFormed)
    (hEmpty : db.EmptyStorage)
    {m : Mutation H}
    (hm : bySStore m = false)
    (hApply : m.apply db s = some t)
    (a : Address)
    (k : H) :
    t.GetCommittedState db a k = zeroHash ∨
      (t.GetCommittedState db a k =
        s.GetCommittedState db a k ∧
        t.GetState db a k = s.GetState db a k) := by
  cases m
  case SetState => cases hm
  case SubRefund => cases hm
  all_goals simp only [Mutation.apply, Option.some.injEq] at hApply
  all_goals subst hApply
  case AddBalance addr amount =>
    exact .inr (slots_updateObject hWF hEmpty addr
      (KeepsSlots.of_setBalance _ fun o j =>
        StateObject.AddBalance_fst o amount j) a k)
  case SubBalance addr amount =>
    exact .inr (slots_updateObject hWF hEmpty addr
      (KeepsSlots.of_setBalance _ fun o j =>
        StateObject.SubBalance_fst o amount j) a k)
  case SetBalance addr amount =>
    exact .inr (slots_updateObject hWF hEmpty addr
      (KeepsSlots.of_setBalance _ fun _ _ => rfl) a k)
  case SetNonce addr nonce =>
    exact .inr (slots_updateObject hWF hEmpty addr
      ⟨fun _ _ => rfl, fun _ _ => rfl, fun _ _ _ => rfl,
        fun _ _ _ => rfl⟩ a k)
  case SetCode addr code =>
    exact .inr (slots_updateObject hWF hEmpty addr
      ⟨fun _ _ => rfl, fun _ _ => rfl, fun _ _ _ => rfl,
        fun _ _ _ => rfl⟩ a k)
  case Suicide addr =>
    exact .inr ⟨StateDB.readStateObject_Suicide hWF addr a
      (fun obj => obj.GetCommittedState db k)
      zeroHash fun _ => rfl,
      StateDB.readStateObject_Suicide hWF addr a (fun obj =>
        obj.GetState db k) zeroHash fun _ => rfl⟩
  case CreateAccount addr =>
    have hCommitted : (s.CreateAccount db
      addr).GetCommittedState db a k =
        if a = addr
          then (s.createObject db addr).1.1.GetCommittedState db k
        else s.GetCommittedState db a k :=
      StateDB.readStateObject_CreateAccount s addr a _
        zeroHash fun _ _ => rfl
    have hState : (s.CreateAccount db addr).GetState db a k =
        if a = addr
          then (s.createObject db addr).1.1.GetState db k
            else s.GetState db a k :=
      StateDB.readStateObject_CreateAccount s addr a _
        zeroHash fun _ _ => rfl
    by_cases hA : a = addr
    · rw [if_pos hA] at hCommitted
      exact .inl (hCommitted.trans
        ((StateDB.createObject_reads s addr
        k).2.trans (hEmpty k)))
    · rw [if_neg hA] at hCommitted hState
      exact .inr ⟨hCommitted, hState⟩
  case AddRefund gas =>
    exact .inr (slots_of_stateObjects rfl a k)
  case AddLog log =>
    exact .inr (slots_of_stateObjects rfl a k)
  case AddPreimage hash preimage =>
    exact .inr (slots_of_stateObjects
      (AddPreimage_stateObjects s hash preimage) a k)
  case Snapshot =>
    exact .inr (slots_of_stateObjects rfl a k)

/-
  The refund each change adds: AddRefund its amount, the
  others none.
-/
def refundAdded {H : Type} : Mutation H → Nat
  | .AddRefund gas => gas.toNat
  | _ => 0

theorem refund_updateObject
    (s : StateDB H)
    (addr : Address)
    (change : StateObject H → Journal H →
      StateObject H × Journal H) :
    (s.updateObject db addr change).refund = s.refund := by
  have hFirst : (s.GetOrNewStateObject db addr).2.refund
    = s.refund := by
    unfold StateDB.GetOrNewStateObject
    split <;> rfl
  unfold StateDB.updateObject
  rcases hPair : s.GetOrNewStateObject db addr with ⟨obj, s'⟩
  rw [hPair] at hFirst
  exact hFirst

theorem refund_SetState
    (s : StateDB H)
    (addr : Address)
    (key value : H) :
    (s.SetState db addr key value).refund = s.refund :=
  refund_updateObject s addr _

theorem refund_CreateAccount
    (s : StateDB H)
    (addr : Address) :
    (s.CreateAccount db addr).refund = s.refund := by
  have hFirst : (s.createObject db addr).2.refund =
    s.refund := rfl
  unfold StateDB.CreateAccount
  rcases hCreate : s.createObject db addr
    with ⟨⟨newObj, prev⟩, s'⟩
  rw [hCreate] at hFirst
  cases prev <;> exact hFirst

/-
  Every change but SSTORE's adds to the counter what
  refundAdded says.
-/
theorem refund_apply
    {s t : StateDB H}
    {m : Mutation H}
    (hm : bySStore m = false)
    (hApply : m.apply db s = some t)
    (hRoom : s.refund.toNat + refundAdded m < 2 ^ 64) :
    t.refund.toNat = s.refund.toNat + refundAdded m := by
  cases m
  case SetState => cases hm
  case SubRefund => cases hm
  all_goals simp only [Mutation.apply, Option.some.injEq] at hApply
  all_goals subst hApply
  case AddRefund gas => exact toNat_AddRefund s gas hRoom
  case Suicide addr =>
    unfold StateDB.Suicide
    split <;> rfl
  case CreateAccount addr =>
    exact congrArg UInt64.toNat (refund_CreateAccount s addr)
  case AddPreimage hash preimage =>
    unfold StateDB.AddPreimage
    split <;> rfl
  all_goals first
    | exact congrArg UInt64.toNat (refund_updateObject s _ _)
    | rfl

/- Only SubRefund panics. -/
theorem apply_isSome
    {m : Mutation H}
    (hm : bySStore m = false)
    (s : StateDB H) :
    (m.apply db s).isSome := by
  cases m <;> first | rfl | cases hm

/-
  Every change but SSTORE's keeps the cover where the
  counter does not wrap.
-/
theorem RefundCovers.apply
    (hEmpty : db.EmptyStorage)
    {s t : StateDB H}
    (hWF : s.WellFormed)
    (hCovers : RefundCovers db s)
    {m : Mutation H}
    (hm : bySStore m = false)
    (hApply : m.apply db s = some t)
    (hRoom : s.refund.toNat + refundAdded m < 2 ^ 64) :
    RefundCovers db t := by
  have hSubset : cleared db t ⊆ cleared db s :=
    cleared_subset (slots_apply hWF hEmpty hm hApply)
  have hRefund := refund_apply hm hApply hRoom
  refine ⟨hCovers.finite.subset hSubset, ?_⟩
  calc NetSstoreClearRefund.toNat * (cleared db t).ncard
      ≤ NetSstoreClearRefund.toNat * (cleared db s).ncard :=
        Nat.mul_le_mul_left _ (Set.ncard_le_ncard hSubset
          hCovers.finite)
    _ ≤ s.refund.toNat := hCovers.covers
    _ ≤ t.refund.toNat :=
      by rw [hRefund]; exact Nat.le_add_right _ _

end Vm

end PlasmaEvm

------------------------------------------------------------
-- SSTORE
------------------------------------------------------------

namespace PlasmaEvm

namespace Vm

open PlasmaEvm.State

variable {H : Type} [DecidableEq H] [Inhabited H]
variable {db : Database H}

/-
  A cleared slot holds a clear refund, so the counter has
  one for SubRefund to take back.
-/
theorem RefundCovers.clearRefund_le
    {s : StateDB H}
    (hCovers : RefundCovers db s)
    {a : Address}
    {k : H}
    (hCommitted : s.GetCommittedState db a k ≠ zeroHash)
    (hCurrent : s.GetState db a k = zeroHash) :
    NetSstoreClearRefund ≤ s.refund := by
  have hOne : 1 ≤ (cleared db s).ncard :=
    (Set.ncard_pos hCovers.finite).mpr ⟨(a, k),
      hCommitted, hCurrent⟩
  apply UInt64.le_iff_toNat_le.mpr
  calc NetSstoreClearRefund.toNat
      = NetSstoreClearRefund.toNat * 1 :=
        (Nat.mul_one _).symm
    _ ≤ NetSstoreClearRefund.toNat * (cleared db s).ncard :=
      Nat.mul_le_mul_left _ hOne
    _ ≤ s.refund.toNat := hCovers.covers

/-
  The write of SSTORE after its gas keeps the cover: the
  gas, which changed the counter only, added a clear refund
  for the slot the write clears, over one it took back from
  the slot it fills.
-/
open Classical in
theorem RefundCovers.SetState
    (hEmpty : db.EmptyStorage)
    {s u : StateDB H}
    (hCovers : RefundCovers db s)
    (hWF : u.WellFormed)
    (hObjects : u.stateObjects = s.stateObjects)
    (addr : Address)
    (key value : H)
    (hGas : s.refund.toNat + NetSstoreClearRefund.toNat *
        clearCount (s.GetCommittedState db addr key) value ≤
      u.refund.toNat + NetSstoreClearRefund.toNat *
        clearCount (s.GetCommittedState db addr key)
          (s.GetState db addr key)) :
    RefundCovers db (u.SetState db addr key value) := by
  obtain ⟨hAgree, hAt⟩ := cleared_SetState hWF
    hEmpty addr key value
  rw [cleared_of_stateObjects hObjects] at hAgree
  rw [(slots_of_stateObjects hObjects addr key).1] at hAt
  obtain ⟨hFinite, hCount⟩ := ncard_add_of_agree
    hCovers.finite hAgree
  refine ⟨hFinite, ?_⟩
  have hBefore : (if (addr, key) ∈ cleared db s
    then 1 else 0) =
      clearCount (s.GetCommittedState db addr key)
        (s.GetState db addr key) :=
    if_congr Iff.rfl rfl rfl
  have hAfter : (if (addr, key) ∈ cleared db
    (u.SetState db addr key value) then 1 else 0) ≤
      clearCount (s.GetCommittedState db addr key) value := by
    split
    · next hIn => rw [hAt hIn]
    · exact Nat.zero_le _
  have hCovered := hCovers.covers
  have hClearNat : NetSstoreClearRefund.toNat = 15000 := rfl
  rw [refund_SetState]
  rw [hClearNat] at hGas hCovered ⊢
  omega

/-
  SSTORE keeps the cover where the counter does not wrap:
  its gas does not panic, and adds at most the bound; when
  it stops the frame the cover is left to the revert of the
  caller.
-/
theorem sstoreStep_covers
    (hEmpty : db.EmptyStorage)
    (rules : Rules)
    (gas : UInt64)
    {s : StateDB H}
    (hWF : s.WellFormed)
    (hCovers : RefundCovers db s)
    (addr : Address)
    (loc val : H)
    (hRoom : s.refund.toNat + sstoreRefundBound < 2 ^ 64) :
    ∃ t ok, sstoreStep db rules gas s addr loc val =
      some (t, ok) ∧ Extends db s t ∧
      t.refund.toNat ≤ s.refund.toNat + sstoreRefundBound ∧
        (ok = true → RefundCovers db t) := by
  obtain ⟨cost, u, hGas, hOnly, hCount⟩ :=
    sstoreDynamicGas_spec rules gas hWF addr loc val
    (fun hCommitted hCurrent => hCovers.clearRefund_le
      hCommitted hCurrent) hRoom
  have hStop : ∃ t ok, some (u, false) = some (t, ok) ∧
    Extends db s t ∧
      t.refund.toNat ≤ s.refund.toNat + sstoreRefundBound ∧
        (ok = true → RefundCovers db t) :=
    ⟨u, false, rfl, hOnly.extension, hOnly.le_bound, nofun⟩
  unfold sstoreStep
  rw [hGas, Option.bind_eq_bind, Option.bind_some]
  cases cost with
  | error _ => exact hStop
  | ok cost =>
      dsimp only
      split
      · exact hStop
      · have hWrite : Extends db u (opSstore db u addr loc val) :=
          Extends.apply hOnly.extension.wellFormed
            (show (Mutation.SetState addr loc val).apply db
              u = some _ from rfl)
        refine ⟨_, true, rfl, hOnly.extension.trans hWrite,
          ?_, fun _ => ?_⟩
        · rw [opSstore, refund_SetState]
          exact hOnly.le_bound
        · exact RefundCovers.SetState hEmpty hCovers
            hOnly.extension.wellFormed hOnly.stateObjects
            addr loc val (hCount cost rfl)

end Vm

end PlasmaEvm

------------------------------------------------------------
-- Call Frames
------------------------------------------------------------

namespace PlasmaEvm

namespace Vm

open PlasmaEvm.State

mutual

/-
  The most a frame's operations add to the refund counter.
-/
def opsRefundBound {H : Type} : List (Op H) → Nat
  | [] => 0
  | op :: ops => opRefundBound op + opsRefundBound ops

def opRefundBound {H : Type} : Op H → Nat
  | .SSTORE _ _ _ _ => sstoreRefundBound
  | .change m _ => refundAdded m
  | .call body _ => opsRefundBound body

end

variable {H : Type} [DecidableEq H] [Inhabited H]
variable {db : Database H}

/-
  What a run of operations keeps: it extends the state it
  starts from, adds at most `bound` to the counter, and
  leaves the cover when it ends well.
-/
variable (db) in
structure KeepsCover
    (s t : StateDB H)
    (ok : Bool)
    (bound : Nat) :
    Prop where
  extension : Extends db s t
  le_bound : t.refund.toNat ≤ s.refund.toNat + bound
  covers : ok = true → RefundCovers db t

theorem KeepsCover.trans
    {s t u : StateDB H}
    {ok : Bool}
    {b₁ b₂ : Nat}
    (h₁ : KeepsCover db s t true b₁)
    (h₂ : KeepsCover db t u ok b₂) :
    KeepsCover db s u ok (b₁ + b₂) :=
  ⟨h₁.extension.trans h₂.extension,
    by
      have := h₁.le_bound
      have := h₂.le_bound
      omega, h₂.covers⟩

theorem KeepsCover.mono
    {s t : StateDB H}
    {ok : Bool}
    {b b' : Nat}
    (h : KeepsCover db s t ok b)
    (hb : b ≤ b') :
    KeepsCover db s t ok b' :=
  ⟨h.extension, by have := h.le_bound; omega, h.covers⟩

/-
  A call ends well for its caller, whether it commits or
  reverts.
-/
theorem interpretOp_call_ok
    (rules : Rules)
    {body : List (Op H)}
    {reverted : Bool}
    {s t : StateDB H}
    {ok : Bool}
    (hRun : interpretOp db rules (.call body reverted) s =
      some (t, ok)) :
    ok = true := by
  simp only [interpretOp, Option.bind_eq_bind] at hRun
  rcases hBody : interpretOps db rules body s.Snapshot.2
    with _ | ⟨u, okBody⟩
  · simp [hBody] at hRun
  · simp only [hBody, Option.bind_some] at hRun
    split at hRun
    · exact (congrArg Prod.snd (Option.some.inj hRun)).symm
    · rcases Option.bind_eq_some_iff.mp hRun with ⟨r, -, hR⟩
      exact (congrArg Prod.snd (Option.some.inj hR)).symm

mutual

/-
  A frame's operations run to their end from any state the
  cover holds in, where the counter does not wrap: by
  induction on the operations, through the call frames
  nested in them.
-/
theorem interpretOps_covers
    (hEmpty : db.EmptyStorage)
    (rules : Rules) :
    ∀ (ops : List (Op H)) (s : StateDB H), s.WellFormed →
      RefundCovers db s →
      s.refund.toNat + opsRefundBound ops < 2 ^ 64 →
      ∃ t ok, interpretOps db rules ops s = some (t, ok) ∧
        KeepsCover db s t ok (opsRefundBound ops)
  | [], s, hWF, hCovers, _ =>
      ⟨s, true, rfl, ⟨Extends.refl hWF,
        Nat.le_add_right _ _, fun _ => hCovers⟩⟩
  | op :: ops, s, hWF, hCovers, hRoom => by
      rw [opsRefundBound] at hRoom ⊢
      obtain ⟨t, ok, hRun, hKeep⟩ :=
        interpretOp_covers hEmpty rules op s hWF
        hCovers (by omega)
      cases ok with
      | false =>
          refine ⟨t, false, ?_,
            hKeep.mono (Nat.le_add_right _ _)⟩
          simp only [interpretOps, Option.bind_eq_bind,
            hRun, Option.bind_some]
          rfl
      | true =>
          have hRoomRest : t.refund.toNat +
            opsRefundBound ops < 2 ^ 64 := by
            have := hKeep.le_bound
            omega
          obtain ⟨u, ok', hRest, hKeep'⟩ :=
            interpretOps_covers hEmpty rules ops t
            hKeep.extension.wellFormed
              (hKeep.covers rfl) hRoomRest
          refine ⟨u, ok', ?_, hKeep.trans hKeep'⟩
          simp only [interpretOps, Option.bind_eq_bind,
            hRun, Option.bind_some]
          exact hRest

/-
  One operation runs to its end from any state the cover
  holds in: an SSTORE by its step, another change as a
  mutation, and a call by its body, reverted to the snapshot
  when it fails.
-/
theorem interpretOp_covers
    (hEmpty : db.EmptyStorage)
    (rules : Rules) :
    ∀ (op : Op H) (s : StateDB H), s.WellFormed →
      RefundCovers db s →
      s.refund.toNat + opRefundBound op < 2 ^ 64 →
      ∃ t ok, interpretOp db rules op s = some (t, ok) ∧
        KeepsCover db s t ok (opRefundBound op)
  | .SSTORE addr key value gas, s, hWF, hCovers, hRoom => by
      obtain ⟨t, ok, hStep, hExtends, hLe, hOk⟩ :=
        sstoreStep_covers hEmpty rules gas hWF hCovers addr
          key value hRoom
      exact ⟨t, ok, hStep, hExtends, hLe, hOk⟩
  | .change m hm, s, hWF, hCovers, hRoom => by
      obtain ⟨t, hApply⟩ := Option.isSome_iff_exists.mp
        (apply_isSome hm s)
      refine ⟨t, true, ?_, Extends.apply hWF hApply,
        (refund_apply hm hApply hRoom).le,
        fun _ => RefundCovers.apply hEmpty hWF hCovers
          hm hApply hRoom⟩
      simp only [interpretOp, hApply, Option.map_some]
  | .call body reverted, s, hWF, hCovers, hRoom => by
      have hSnapshot : Mutation.Snapshot.apply db s =
        some s.Snapshot.2 := rfl
      have hSnapshotKeeps : KeepsCover db s s.Snapshot.2 true 0 :=
        ⟨Extends.apply hWF hSnapshot, Nat.le_add_right _ _,
          fun _ => RefundCovers.apply hEmpty hWF hCovers rfl
            hSnapshot (by simp only [refundAdded]; omega)⟩
      obtain ⟨t, ok, hRun, hKeep⟩ :=
        interpretOps_covers hEmpty rules body s.Snapshot.2
        hSnapshotKeeps.extension.wellFormed
          (hSnapshotKeeps.covers rfl) hRoom
      by_cases hCommit : (ok && !reverted) = true
      · have hBody := hSnapshotKeeps.trans hKeep
        rw [Nat.zero_add] at hBody
        refine ⟨t, true, ?_, hBody.extension,
          hBody.le_bound,
          fun _ => hKeep.covers
            (Bool.and_eq_true_iff.mp hCommit).1⟩
        simp only [interpretOp, Option.bind_eq_bind, hRun,
          Option.bind_some, hCommit, if_true]
      · obtain ⟨more, hMore⟩ := hKeep.extension.revisions
        obtain ⟨r, hRevert, hView, hEntries, hRevisions⟩ :=
          StateDB.RevertToSnapshot_restores_committed hWF
            hKeep.extension.reverts
            (show t.validRevisions =
                s.validRevisions ++ ⟨s.nextRevisionId,
                  s.journal.length⟩ :: more by
              rw [hMore]
              simp [StateDB.Snapshot])
        have hRefund : r.refund = s.refund :=
          congrArg (fun vc => vc.1.refund) hView
        refine ⟨r, true, ?_,
          ⟨⟨StateDB.RevertsCommitted.of_view hEntries hView,
            StateDB.WellFormed.RevertToSnapshot
              hKeep.extension.wellFormed hRevert, [],
            by rw [hRevisions, List.append_nil]⟩,
          by rw [hRefund]; exact Nat.le_add_right _ _,
          fun _ =>
            RefundCovers.of_viewCommitted hView hCovers⟩⟩
        simp only [interpretOp, Option.bind_eq_bind, hRun,
          Option.bind_some, hCommit, if_false,
          Bool.false_eq_true, hRevert]

end

/-
  The refund counter never goes below zero.  From a state
  the cover holds in, as it does where every slot holds its
  committed value, a call runs to its end over any
  operations, where the counter does not wrap: SSTOREs under
  any rules, the other changes, and calls nested in it, any
  of which may fail and be reverted.  It leaves the cover
  for the next call.
-/
theorem call_never_panics
    (hEmpty : db.EmptyStorage)
    (rules : Rules)
    {s : StateDB H}
    (hWF : s.WellFormed)
    (hCovers : RefundCovers db s)
    (body : List (Op H))
    (reverted : Bool)
    (hRoom : s.refund.toNat + opsRefundBound body < 2 ^ 64) :
    ∃ t, interpretOp db rules (.call body reverted) s =
      some (t, true) ∧ RefundCovers db t := by
  obtain ⟨t, ok, hRun, hKeep⟩ :=
    interpretOp_covers hEmpty rules
    (.call body reverted) s hWF hCovers hRoom
  have hOk : ok = true := interpretOp_call_ok rules hRun
  subst hOk
  exact ⟨t, hRun, hKeep.covers rfl⟩

/-
  A call on the new state over storedDatabase, under
  Istanbul's rules: slot 1 of account 1 is committed at 9;
  the call clears it, which adds the clear refund, and fills
  it again, which takes the clear refund back with
  SubRefund.
-/
theorem call_never_panics_refill :
    ∃ t,
      interpretOp StateDB.storedDatabase ⟨true, true, true⟩
        (.call [.SSTORE ⟨1⟩ 1 0 30000,
          .SSTORE ⟨1⟩ 1 5 30000]
          false) StateDB.New = some (t, true) ∧
      RefundCovers StateDB.storedDatabase t :=
  call_never_panics (fun _ => rfl) _ StateDB.WellFormed.New
    RefundCovers.New _ _ (by decide)

/-
  The counter after the clearing write, and after the
  refill.
-/
example :
    ((interpretOp StateDB.storedDatabase ⟨true, true, true⟩
        (.call [.SSTORE ⟨1⟩ 1 0 30000] false)
        StateDB.New).map fun r => r.1.refund) = some 15000 ∧
    ((interpretOp StateDB.storedDatabase ⟨true, true, true⟩
        (.call [.SSTORE ⟨1⟩ 1 0 30000,
          .SSTORE ⟨1⟩ 1 5 30000]
          false)
        StateDB.New).map fun r => r.1.refund) = some 0 := by
  decide

end Vm

end PlasmaEvm
