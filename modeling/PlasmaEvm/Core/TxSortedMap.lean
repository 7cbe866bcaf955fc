import Mathlib.Data.List.AList
import PlasmaEvm.Core.TxList
import PlasmaEvm.Data.Heap
import PlasmaEvm.Control.Replay

/-
  The `txSortedMap` of `core/tx_list.go` as the code keeps
  it: a hash map from nonce to transaction, a heap
  (`nonceHeap`, through container/heap) of the stored
  nonces, and a cache of the transactions sorted by nonce,
  nil until `Flatten` fills it and whenever an operation has
  spoilt it.

  The map is an association list whose entries stand in the
  order a `range` over the map visits them.  Go picks that
  order anew for every loop, so a run may reorder the
  entries before any operation (`Op.Reorder`); `Filter`
  ranges twice, and takes its second range in the order of
  its first.  `sort.Sort` is the merge sort: on nonces, and
  on transactions of distinct nonces, every sort gives the
  one sorted list.  Go's index and slice expressions panic
  out of range; every one is checked, and `none` is the
  panic.

  `Inv` is the representation invariant: every transaction
  sits under its own nonce, the heap holds the stored nonces
  once each, and a cache is the stored transactions in nonce
  order.  Every operation keeps it and no operation panics
  from it, and the map refines the nonce-sorted model
  `Core.TxSortedMap`: each operation returns what the
  model's returns (`Filter` in the map's order), and leaves
  a map that refines the model's result.

  Key definitions include:
    * `Indexed.TxSortedMap` and its `Put`, `Forward`,
      `Filter`, `Cap`, `Remove`, `Ready`, `Flatten`
    * `Indexed.TxSortedMap.Inv`,
      `Indexed.TxSortedMap.Refines`
    * `Indexed.Op`, `Indexed.step`

  Key statements include:
    * `Indexed.TxSortedMap.forwardLoop_spec`,
      `Indexed.TxSortedMap.readyLoop_spec`,
      `Indexed.TxSortedMap.capLoop_spec`
    * `Indexed.TxSortedMap.Refines.Put` and its siblings
    * `Indexed.step_refines`, `Indexed.replay_refines`
-/

------------------------------------------------------------
-- The Map and Its Index
------------------------------------------------------------

namespace PlasmaEvm

namespace Core

namespace Indexed

open PlasmaEvm.Types

/-
  map[uint64]*types.Transaction, its entries in the order of
  the next range.
-/
abbrev Items := AList (fun _ : Nat => Transaction)

/-
  txSortedMap: the hash map, the heap of its nonces, and the
  cache of sorted transactions, none for nil.
-/
structure TxSortedMap where
  items : Items
  index : List Nat
  cache : Option (List Transaction)

/- newTxSortedMap(). -/
def newTxSortedMap : TxSortedMap :=
  ⟨∅, [], none⟩

/- The stored transactions, in the order of the entries. -/
def values (items : Items) : List Transaction :=
  items.entries.map Sigma.snd

/- sort.Sort(types.TxByNonce(txs)): ascending nonce. -/
def sortByNonce
    (txs : List Transaction) :
    List Transaction :=
  txs.mergeSort (fun a b => decide (a.nonce ≤ b.nonce))

/- sort.Sort(nonceHeap): ascending. -/
def sortNonces (index : List Nat) : List Nat :=
  index.mergeSort (fun a b => decide (a ≤ b))

namespace TxSortedMap

/- Get(nonce); none is nil. -/
def Get
    (m : TxSortedMap)
    (nonce : Nat) : Option Transaction :=
  m.items.lookup nonce

/- Len(). -/
def Len (m : TxSortedMap) : Nat :=
  m.items.entries.length

/-
  Put(tx): a new nonce is pushed on the heap; the cache is
  dropped.
-/
def Put
    (m : TxSortedMap)
    (tx : Transaction) : TxSortedMap :=
  let nonce := tx.nonce
  let index := if m.items.lookup nonce = none
    then Heap.Push id m.index nonce else m.index
  ⟨m.items.insert nonce tx, index, none⟩

/-
  The loop of Forward: while the heap's least nonce is below
  the threshold, pop it and move its transaction (nil when
  missing) from the map to the removed ones.
-/
def forwardLoop
    (threshold : Nat)
    (items : Items)
    (index : List Nat)
    (removed : List (Option Transaction)) :
    Option (Items × List Nat × List (Option Transaction)) :=
  match index.head? with
  | some root =>
      if root < threshold then
        match hPop : Heap.Pop id index with
        | some (nonce, index') =>
            forwardLoop threshold (items.erase nonce) index'
              (removed ++ [items.lookup nonce])
        | none => none
      else some (items, index, removed)
  | none => some (items, index, removed)
termination_by index.length
decreasing_by
  have hLen := Heap.length_of_Pop hPop
  omega

/-
  Forward(threshold): the transactions below the threshold,
  and a cache shifted at the front by as many;
  m.cache[len(removed):] panics past its end.
-/
def Forward
    (m : TxSortedMap)
    (threshold : Nat) :
    Option (List (Option Transaction) × TxSortedMap) := do
  let (items, index, removed) ← forwardLoop threshold
    m.items m.index []
  let cache ← match m.cache with
    | none => some none
    | some cache =>
        if removed.length ≤ cache.length
          then some (some (cache.drop removed.length)) else none
  pure (removed, ⟨items, index, cache⟩)

/-
  The range of Filter: each entry the filter selects is
  deleted and collected.
-/
def filterLoop
    (filter : Transaction → Bool) :
    List (Σ _ : Nat, Transaction) → Items →
      List Transaction → Items × List Transaction
  | [], items, removed => (items, removed)
  | ⟨nonce, tx⟩ :: rest, items, removed =>
      if filter tx
        then filterLoop filter rest (items.erase nonce)
          (removed ++ [tx])
      else filterLoop filter rest items removed

/-
  Filter(filter): after a removal the heap is rebuilt from
  the nonces left, in the order of a range, and the cache
  dropped.
-/
def Filter
    (m : TxSortedMap)
    (filter : Transaction → Bool) :
    List Transaction × TxSortedMap :=
  let (items, removed) := filterLoop filter
    m.items.entries m.items []
  if removed.length > 0
    then (removed, ⟨items, Heap.Init id items.keys, none⟩)
  else (removed, ⟨items, m.index, m.cache⟩)

/-
  The loop of Cap over the sorted index: for size :=
  len(m.items); size > threshold; size-- the nonce at size -
  1 is dropped; (*m.index)[size-1] panics past the end.
-/
def capLoop
    (threshold : Nat)
    (index : List Nat) :
    Nat → Items → List (Option Transaction) →
      Option (Items × List (Option Transaction))
  | 0, items, drops => some (items, drops)
  | size + 1, items, drops =>
      if size + 1 > threshold then
        match index[size]? with
        | some nonce =>
            capLoop threshold index size (items.erase nonce)
              (drops ++ [items.lookup nonce])
        | none => none
      else some (items, drops)

/-
  Cap(threshold): nothing at or under the limit; otherwise
  the index is sorted, the highest nonces dropped, the index
  cut to the threshold (its capacity taken as its length)
  and heaped again, and the cache cut at the back, which
  panics when it would end before its start.
-/
def Cap
    (m : TxSortedMap)
    (threshold : Nat) :
    Option (List (Option Transaction) × TxSortedMap) :=
  if m.Len ≤ threshold then some ([], m)
  else do
    let index := sortNonces m.index
    let (items,
      drops) ← capLoop threshold index m.Len m.items []
    let index ← if threshold ≤ index.length
      then some (index.take threshold) else none
    let cache ← match m.cache with
      | none => some none
      | some cache =>
          if drops.length ≤ cache.length then
            some (some (cache.take (cache.length - drops.length)))
          else none
    pure (drops, ⟨items, Heap.Init id index, cache⟩)

/-
  Remove(nonce): whether the nonce was stored; its first
  place in the heap is taken out with heap.Remove, and the
  cache dropped.
-/
def Remove
    (m : TxSortedMap)
    (nonce : Nat) : Option (Bool × TxSortedMap) :=
  match m.items.lookup nonce with
  | none => some (false, m)
  | some _ => do
      let i := m.index.idxOf nonce
      let index ← if i < m.index.length
        then (Heap.Remove id m.index i).map Prod.snd
        else some m.index
      pure (true, ⟨m.items.erase nonce, index, none⟩)

/-
  The loop of Ready: while the heap's least nonce is next,
  move its transaction (nil when missing) to the ready ones
  and pop it.
-/
def readyLoop
    (next : Nat)
    (items : Items)
    (index : List Nat)
    (ready : List (Option Transaction)) :
    Option (Items × List Nat × List (Option Transaction)) :=
  match index.head? with
  | some root =>
      if root = next then
        match hPop : Heap.Pop id index with
        | some (_, index') =>
            readyLoop (next + 1) (items.erase next) index'
              (ready ++ [items.lookup next])
        | none => none
      else some (items, index, ready)
  | none => some (items, index, ready)
termination_by index.length
decreasing_by
  have hLen := Heap.length_of_Pop hPop
  omega

/-
  Ready(start): nothing when the heap is empty or its least
  nonce is above start; otherwise the run from the least
  nonce, and the cache dropped.
-/
def Ready
    (m : TxSortedMap)
    (start : Nat) :
    Option (List (Option Transaction) × TxSortedMap) :=
  match m.index.head? with
  | none => some ([], m)
  | some root =>
      if root > start then some ([], m)
      else do
        let (items, index, ready) ← readyLoop root
          m.items m.index []
        pure (ready, ⟨items, index, none⟩)

/-
  ensureCache(): a nil cache is filled with the stored
  transactions, sorted.
-/
def ensureCache (m : TxSortedMap) : TxSortedMap :=
  match m.cache with
  | some _ => m
  | none =>
      { m with cache := some (sortByNonce (values m.items)) }

/- Flatten(): a copy of the cache, filled first. -/
def Flatten
    (m : TxSortedMap) :
    List Transaction × TxSortedMap :=
  let m := m.ensureCache
  (m.cache.getD [], m)

end TxSortedMap

/-
  The operations of a txSortedMap, and the runtime's choice
  of the order of the next range.
-/
inductive Op where
  | Put (tx : Transaction)
  | Forward (threshold : Nat)
  | Filter (filter : Transaction → Bool)
  | Cap (threshold : Nat)
  | Remove (nonce : Nat)
  | Ready (start : Nat)
  | Flatten
  | Reorder (entries : List (Σ _ : Nat, Transaction))

/-
  One operation on the map; none when it panics, or for an
  order that is not one of the entries.
-/
def step
    (m : TxSortedMap) : Op → Option TxSortedMap
  | .Put tx => some (m.Put tx)
  | .Forward threshold => (m.Forward threshold).map Prod.snd
  | .Filter filter => some (m.Filter filter).2
  | .Cap threshold => (m.Cap threshold).map Prod.snd
  | .Remove nonce => (m.Remove nonce).map Prod.snd
  | .Ready start => (m.Ready start).map Prod.snd
  | .Flatten => some m.Flatten.2
  | .Reorder entries =>
      if h : entries.Perm m.items.entries then
        some { m with
          items := ⟨entries, (List.perm_nodupKeys h).mpr
            m.items.nodupKeys⟩ }
      else none

end Indexed

end Core

end PlasmaEvm

------------------------------------------------------------
-- Entries of the Map
------------------------------------------------------------

namespace PlasmaEvm

namespace Core

namespace Indexed

open PlasmaEvm.Types

/-
  Each transaction sits under its own nonce, as Put stores
  it.
-/
def Keyed (items : Items) : Prop :=
  ∀ s ∈ items.entries, s.2.nonce = s.1

section Entries

variable {items : Items}

theorem entries_erase
    (items : Items)
    (k : Nat) :
    (items.erase k).entries = items.entries.filter
      (fun s => s.1 ≠ k) :=
  List.kerase_eq_filter k items.nodupKeys

/-
  A store puts its entry in front of the map without the
  key.
-/
theorem values_insert
    (items : Items)
    (k : Nat)
    (tx : Transaction) :
    values (items.insert k tx) = tx ::
      values (items.erase k) := by
  rw [values, values, AList.entries_insert]
  rfl

theorem Keyed.erase
    (h : Keyed items)
    (k : Nat) :
    Keyed (items.erase k) := by
  intro s hs
  rw [entries_erase] at hs
  exact h s (List.mem_of_mem_filter hs)

theorem Keyed.insert
    (h : Keyed items)
    (tx : Transaction) :
    Keyed (items.insert tx.nonce tx) := by
  intro s hs
  rw [AList.entries_insert] at hs
  rcases List.mem_cons.mp hs with rfl | hOld
  · rfl
  · exact h s ((List.kerase_sublist _ _).subset hOld)

/- Erasing a nonce drops the transaction of that nonce. -/
theorem Keyed.values_erase
    (h : Keyed items)
    (k : Nat) :
    values (items.erase k) = (values items).filter
      (fun tx => tx.nonce ≠ k) := by
  rw [values, values, entries_erase, List.filter_map]
  congr 1
  apply List.filter_congr
  intro s hs
  simp [h s hs]

/- The keys are the nonces of the stored transactions. -/
theorem Keyed.keys_eq
    (h : Keyed items) :
    items.keys = (values items).map (·.nonce) := by
  rw [values, List.map_map]
  apply List.map_congr_left
  intro s hs
  exact (h s hs).symm

theorem Keyed.nodup_nonces
    (h : Keyed items) :
    ((values items).map (·.nonce)).Nodup := by
  rw [← h.keys_eq]
  exact items.keys_nodup

/- A lookup finds the stored transaction of the nonce. -/
theorem Keyed.lookup_eq_some
    (h : Keyed items)
    {k : Nat}
    {tx : Transaction} :
    items.lookup k = some tx ↔ tx ∈ values items ∧
      tx.nonce = k := by
  rw [← Option.mem_def, AList.mem_lookup_iff]
  constructor
  · intro hMem
    exact ⟨List.mem_map.mpr ⟨⟨k, tx⟩, hMem, rfl⟩, h _ hMem⟩
  · rintro ⟨hMem, rfl⟩
    rcases List.mem_map.mp hMem with ⟨⟨k',
      tx'⟩, hEntry, hTx⟩
    have hKey : tx'.nonce = k' := h _ hEntry
    subst hTx
    subst hKey
    exact hEntry

theorem Keyed.lookup_eq_none
    (h : Keyed items)
    {k : Nat} :
    items.lookup k = none ↔ ∀ tx ∈ values items,
      tx.nonce ≠ k := by
  constructor
  · intro hNone tx hMem hNonce
    rw [(h.lookup_eq_some).mpr ⟨hMem, hNonce⟩] at hNone
    cases hNone
  · intro hFresh
    cases hLookup : items.lookup k with
    | none => rfl
    | some tx =>
        rcases (h.lookup_eq_some).mp hLookup
          with ⟨hMem, hNonce⟩
        exact absurd hNonce (hFresh tx hMem)

end Entries

end Indexed

end Core

end PlasmaEvm

------------------------------------------------------------
-- Sorted Transactions
------------------------------------------------------------

namespace PlasmaEvm

namespace Core

namespace Indexed

open PlasmaEvm.Types

/-
  Two nonce-sorted lists of the same transactions are one.
-/
theorem NonceSorted.eq_of_perm
    {a b : List Transaction}
    (ha : NonceSorted a)
    (hb : NonceSorted b)
    (hPerm : a.Perm b) :
    a = b := by
  unfold NonceSorted at ha hb
  exact hPerm.eq_of_pairwise (fun _ _ _ _ hxy hyx =>
    absurd (Nat.lt_trans hxy hyx) (Nat.lt_irrefl _))
    ha hb

/-
  sort.Sort by nonce sorts transactions of distinct nonces
  strictly.
-/
theorem sortByNonce_sorted
    {txs : List Transaction}
    (hNodup : (txs.map (·.nonce)).Nodup) :
    NonceSorted (sortByNonce txs) := by
  have hLe := @List.pairwise_mergeSort _
    (fun a b : Transaction => decide (a.nonce ≤ b.nonce))
    (fun a b c hab hbc =>
      by simp only [decide_eq_true_eq] at *; omega)
    (fun a b =>
      by
        simp only [Bool.or_eq_true, decide_eq_true_eq]
        omega) txs
  have hNe : ((sortByNonce txs).map (·.nonce)).Nodup :=
    ((List.mergeSort_perm txs _).map _).nodup_iff.mpr hNodup
  rw [List.Nodup, List.pairwise_map] at hNe
  exact (hLe.and hNe).imp (fun hab =>
    Nat.lt_of_le_of_ne (of_decide_eq_true hab.1) hab.2)

theorem sortByNonce_perm
    (txs : List Transaction) :
    (sortByNonce txs).Perm txs :=
  List.mergeSort_perm txs _

/-
  sort.Sort on the nonces of a nonce-sorted list gives them
  in its order.
-/
theorem sortNonces_eq
    {index : List Nat}
    {txs : List Transaction}
    (hSorted : NonceSorted txs)
    (hPerm : index.Perm (txs.map (·.nonce))) :
    sortNonces index = txs.map (·.nonce) := by
  have hLe := @List.pairwise_mergeSort _ (fun a b : Nat =>
    decide (a ≤ b))
    (fun a b c hab hbc =>
      by simp only [decide_eq_true_eq] at *; omega)
    (fun a b =>
      by
        simp only [Bool.or_eq_true, decide_eq_true_eq]
        omega) index
  have hTxs : (txs.map (·.nonce)).Pairwise (fun a b =>
    decide (a ≤ b) = true) := by
    rw [List.pairwise_map]
    exact hSorted.imp (fun hab =>
      decide_eq_true (Nat.le_of_lt hab))
  exact ((List.mergeSort_perm index _).trans hPerm).eq_of_pairwise
    (fun a b _ _ hab hba =>
      by
        simp only [decide_eq_true_eq] at hab hba
        omega) hLe hTxs

/-
  Putting a transaction in a sorted list replaces the one of
  its nonce.
-/
theorem putNonce_perm
    (tx : Transaction) :
    ∀ {txs : List Transaction}, NonceSorted txs →
      (TxSortedMap.putNonce tx txs).Perm (tx ::
        txs.filter (fun t => t.nonce ≠ tx.nonce))
  | [], _ => List.Perm.refl _
  | t :: rest, hSorted => by
      rcases List.pairwise_cons.mp hSorted
        with ⟨hHead, hRest⟩
      unfold TxSortedMap.putNonce
      split
      · rename_i hLess
        rw [List.filter_eq_self.mpr]
        intro u hu
        rcases List.mem_cons.mp hu with rfl | hMem
        · simpa using Nat.ne_of_gt hLess
        · simpa using Nat.ne_of_gt (Nat.lt_trans hLess
            (hHead u hMem))
      · split
        · rename_i _ hEq
          rw [List.filter_cons_of_neg
            (by simpa using hEq.symm),
            List.filter_eq_self.mpr]
          intro u hu
          simpa [hEq] using Nat.ne_of_gt (hHead u hu)
        · rename_i hNotLess hNe
          rw [List.filter_cons_of_pos
            (by simpa using Ne.symm hNe)]
          exact ((putNonce_perm tx hRest).cons t).trans
            (List.Perm.swap tx t _)

end Indexed

end Core

end PlasmaEvm

------------------------------------------------------------
-- The Representation Invariant
------------------------------------------------------------

namespace PlasmaEvm

namespace Core

namespace Indexed

open PlasmaEvm.Types

/-
  A map and a heap of its nonces that hold the transactions
  txs: what the loops of Forward, Ready and Cap keep as they
  go.
-/
structure Holds
    (items : Items)
    (index : List Nat)
    (txs : List Transaction) : Prop where
  keyed : Keyed items
  indexed : index.Perm items.keys
  heap : Heap.IsHeap id index
  perm : (values items).Perm txs

namespace TxSortedMap

/-
  The representation invariant: every transaction under its
  own nonce, the heap a heap of the stored nonces, each
  once, and a cache the stored transactions in nonce order.
-/
structure Inv (m : TxSortedMap) : Prop where
  keyed : Keyed m.items
  indexed : m.index.Perm m.items.keys
  heap : Heap.IsHeap id m.index
  cache : ∀ c, m.cache = some c →
    c.Perm (values m.items) ∧ NonceSorted c

/-
  The map holds, in the invariant, the transactions of the
  nonce-sorted model a.
-/
def Refines
    (m : TxSortedMap)
    (a : Core.TxSortedMap) : Prop :=
  Inv m ∧ (values m.items).Perm a.items

theorem Refines.holds
    {m : TxSortedMap}
    {a : Core.TxSortedMap}
    (h : Refines m a) :
    Holds m.items m.index a.items :=
  ⟨h.1.keyed, h.1.indexed, h.1.heap, h.2⟩

/- A cache is the model's list itself. -/
theorem Refines.cache_eq
    {m : TxSortedMap}
    {a : Core.TxSortedMap}
    (h : Refines m a)
    {c : List Transaction}
    (hCache : m.cache = some c) :
    c = a.items := by
  rcases h.1.cache c hCache with ⟨hPerm, hSorted⟩
  exact NonceSorted.eq_of_perm hSorted a.sorted (hPerm.trans h.2)

/-
  A map of the invariant refines the model of its
  transactions sorted.
-/
theorem Inv.refines
    {m : TxSortedMap}
    (h : Inv m) :
    Refines m ⟨sortByNonce (values m.items),
      sortByNonce_sorted h.keyed.nodup_nonces⟩ :=
  ⟨h, (sortByNonce_perm _).symm⟩

theorem refines_newTxSortedMap :
    Refines newTxSortedMap Core.newTxSortedMap := by
  refine ⟨⟨?_, ?_, ?_, ?_⟩, List.Perm.refl _⟩
  · intro s hs
    cases hs
  · exact List.Perm.refl _
  · intro c _ hcn
    exact absurd hcn (Nat.not_lt_zero c)
  · intro c hc
    cases hc

end TxSortedMap

section Holds

variable {items : Items}
variable {index : List Nat}
variable {txs : List Transaction}

theorem Holds.index_perm
    (h : Holds items index txs) :
    index.Perm (txs.map (·.nonce)) := by
  have hIndex := h.indexed
  rw [h.keyed.keys_eq] at hIndex
  exact hIndex.trans (h.perm.map _)

/- A map holding nothing has an empty heap. -/
theorem Holds.index_eq_nil
    (h : Holds items index []) :
    index = [] :=
  List.Perm.eq_nil h.index_perm

/-
  The heap's root is the least stored nonce, that of the
  first sorted transaction.
-/
theorem Holds.head_index
    (h : Holds items index txs)
    (hSorted : NonceSorted txs) :
    index.head? = txs.head?.map (·.nonce) := by
  have hPerm := h.index_perm
  cases txs with
  | nil =>
      rw [List.Perm.eq_nil hPerm]
      rfl
  | cons t rest =>
      cases index with
      | nil => exact absurd hPerm.length_eq (by simp)
      | cons r rs =>
          have hRootLe :=
            Heap.IsHeap.root_le h.heap (x := r) rfl
          have hT : t.nonce ∈ r :: rs :=
            hPerm.mem_iff.mpr (List.mem_map_of_mem
            List.mem_cons_self)
          have hR : r ∈ (t :: rest).map (·.nonce) :=
            hPerm.mem_iff.mp List.mem_cons_self
          rcases List.mem_map.mp hR with ⟨u, hu, hur⟩
          have hLe : r ≤ t.nonce := hRootLe t.nonce hT
          have hGe : t.nonce ≤ r := by
            rcases List.mem_cons.mp hu with rfl | hMem
            · exact Nat.le_of_eq hur
            · exact hur ▸ Nat.le_of_lt
                ((List.pairwise_cons.mp hSorted).1 u hMem)
          rw [Nat.le_antisymm hLe hGe]
          rfl

/-
  In a nonce-sorted list only the last transaction has the
  last nonce.
-/
theorem filter_nonce_ne_last
    {t : Transaction}
    {init : List Transaction}
    (hSorted : NonceSorted (init ++ [t])) :
    (init ++ [t]).filter (fun tx =>
      tx.nonce ≠ t.nonce) = init := by
  have hBelow := (List.pairwise_append.mp hSorted).2.2
  have hInit : init.filter (fun tx =>
    tx.nonce ≠ t.nonce) = init := by
    rw [List.filter_eq_self]
    intro u hu
    simpa using Nat.ne_of_lt (hBelow u hu t List.mem_cons_self)
  rw [List.filter_append, hInit]
  simp

/-
  In a nonce-sorted list only the first transaction has the
  first nonce.
-/
theorem filter_nonce_ne_head
    {t : Transaction}
    {rest : List Transaction}
    (hSorted : NonceSorted (t :: rest)) :
    (t :: rest).filter (fun tx =>
      tx.nonce ≠ t.nonce) = rest := by
  rw [List.filter_cons_of_neg (by simp),
    List.filter_eq_self]
  intro u hu
  simpa using Nat.ne_of_gt ((List.pairwise_cons.mp
    hSorted).1 u hu)

/-
  Popping the root takes the first transaction out: the heap
  left and the map without its nonce hold the rest.
-/
theorem Holds.pop
    {t : Transaction}
    {rest : List Transaction}
    (h : Holds items index (t :: rest))
    (hSorted : NonceSorted (t :: rest)) :
    ∃ index', Heap.Pop id index = some (t.nonce, index') ∧
      items.lookup t.nonce = some t ∧
      Holds (items.erase t.nonce) index' rest := by
  have hHead : index.head? = some t.nonce :=
    h.head_index hSorted
  have hNe : index ≠ [] := by
    intro hNil
    rw [hNil] at hHead
    cases hHead
  rcases Heap.Pop_spec h.heap hNe
    with ⟨x, index', hPop, hx, hPerm, hHeap⟩
  rw [← List.head?_eq_getElem?, hHead] at hx
  cases hx
  have hMem : t ∈ values items :=
    h.perm.mem_iff.mpr List.mem_cons_self
  refine ⟨index', hPop, h.keyed.lookup_eq_some.mpr ⟨hMem,
    rfl⟩, h.keyed.erase _, ?_, hHeap, ?_⟩
  · have hErase := (hPerm.trans h.indexed).erase t.nonce
    rw [List.erase_cons_head] at hErase
    rw [AList.keys_erase]
    exact hErase
  · rw [h.keyed.values_erase, ← filter_nonce_ne_head hSorted]
    exact h.perm.filter _

end Holds

end Indexed

end Core

end PlasmaEvm

------------------------------------------------------------
-- The Loops
------------------------------------------------------------

namespace PlasmaEvm

namespace Core

namespace Indexed

open PlasmaEvm.Types

namespace TxSortedMap

/-
  One turn of a loop that pops the root: it goes on from the
  popped state.
-/
theorem forwardLoop_of_pop
    {threshold : Nat}
    {items : Items}
    {index index' : List Nat}
    {removed : List (Option Transaction)}
    {root : Nat}
    (hHead : index.head? = some root)
    (hBelow : root < threshold)
    (hPop : Heap.Pop id index = some (root, index')) :
    forwardLoop threshold items index removed =
      forwardLoop threshold (items.erase root) index'
        (removed ++ [items.lookup root]) := by
  rw [forwardLoop, hHead]
  simp only [if_pos hBelow]
  split
  · rename_i hPop'
    rw [hPop] at hPop'
    cases hPop'
    rfl
  · rename_i hPop'
    rw [hPop] at hPop'
    cases hPop'

theorem forwardLoop_of_head_none
    {threshold : Nat}
    {items : Items}
    {index : List Nat}
    {removed : List (Option Transaction)}
    (hHead : index.head? = none) :
    forwardLoop threshold items index removed = some (items,
      index, removed) := by
  rw [forwardLoop, hHead]

theorem forwardLoop_of_not_below
    {threshold : Nat}
    {items : Items}
    {index : List Nat}
    {removed : List (Option Transaction)}
    {root : Nat}
    (hHead : index.head? = some root)
    (hAbove : ¬ root < threshold) :
    forwardLoop threshold items index removed = some (items,
      index, removed) := by
  rw [forwardLoop, hHead]
  simp only [if_neg hAbove]

/-
  The loop of Forward takes out exactly the transactions
  below the threshold, lowest nonce first (induction on the
  sorted transactions the map holds: the root is the first
  of them).
-/
theorem forwardLoop_spec
    (threshold : Nat) :
    ∀ {txs : List Transaction} {items : Items} {index : List Nat}
      (removed : List (Option Transaction)),
        NonceSorted txs → Holds items index txs →
        ∃ items' index', forwardLoop threshold items
          index removed =
            some (items', index',
              removed ++ (txs.filter (fun tx =>
              tx.nonce < threshold)).map some) ∧
          Holds items' index' (txs.filter (fun tx =>
            ¬ tx.nonce < threshold))
  | [], items, index, removed, _, h => by
      refine ⟨items, index, ?_, by simpa using h⟩
      rw [forwardLoop_of_head_none (by
        rw [h.index_eq_nil]
        rfl)]
      simp
  | t :: rest, items, index, removed, hSorted, h => by
      have hHead : index.head? = some t.nonce :=
        h.head_index hSorted
      by_cases hBelow : t.nonce < threshold
      · rcases h.pop hSorted with ⟨index', hPop,
          hLookup, hRest⟩
        rcases forwardLoop_spec threshold (removed ++
          [some t]) hSorted.of_cons hRest with
          ⟨items', index'', hLoop, hHolds⟩
        refine ⟨items', index'', ?_, ?_⟩
        · rw [forwardLoop_of_pop hHead hBelow hPop,
            hLookup, hLoop,
            List.filter_cons_of_pos (by simpa using hBelow)]
          simp
        · rw [List.filter_cons_of_neg (by simpa using hBelow)]
          exact hHolds
      · have hFirst := (List.pairwise_cons.mp hSorted).1
        have hNone : (t :: rest).filter (fun tx =>
          tx.nonce < threshold) = [] := by
          rw [List.filter_eq_nil_iff]
          intro u hu
          rcases List.mem_cons.mp hu with rfl | hMem
          · simpa using hBelow
          · have := hFirst u hMem
            simp only [decide_eq_true_eq]
            omega
        have hAll : (t :: rest).filter (fun tx =>
          ¬ tx.nonce < threshold) = t :: rest := by
          rw [List.filter_eq_self]
          intro u hu
          rcases List.mem_cons.mp hu with rfl | hMem
          · simpa using hBelow
          · have := hFirst u hMem
            simp only [decide_eq_true_eq]
            omega
        refine ⟨items, index, ?_, by rw [hAll]; exact h⟩
        rw [forwardLoop_of_not_below hHead hBelow, hNone]
        simp

theorem readyLoop_of_pop
    {next : Nat}
    {items : Items}
    {index index' : List Nat}
    {ready : List (Option Transaction)}
    (hHead : index.head? = some next)
    (hPop : Heap.Pop id index = some (next, index')) :
    readyLoop next items index ready =
      readyLoop (next + 1) (items.erase next) index'
        (ready ++ [items.lookup next]) := by
  rw [readyLoop, hHead]
  simp only
  rw [if_pos trivial]
  split
  · rename_i hPop'
    rw [hPop] at hPop'
    cases hPop'
    rfl
  · rename_i hPop'
    rw [hPop] at hPop'
    cases hPop'

theorem readyLoop_of_head_none
    {next : Nat}
    {items : Items}
    {index : List Nat}
    {ready : List (Option Transaction)}
    (hHead : index.head? = none) :
    readyLoop next items index ready = some (items,
      index, ready) := by
  rw [readyLoop, hHead]

theorem readyLoop_of_ne
    {next : Nat}
    {items : Items}
    {index : List Nat}
    {ready : List (Option Transaction)}
    {root : Nat}
    (hHead : index.head? = some root)
    (hNe : root ≠ next) :
    readyLoop next items index ready = some (items,
      index, ready) := by
  rw [readyLoop, hHead]
  simp only [if_neg hNe]

/-
  The loop of Ready takes out the run of consecutive nonces
  from next (induction on the sorted transactions the map
  holds).
-/
theorem readyLoop_spec :
    ∀ {txs : List Transaction} (next : Nat) {items : Items}
      {index : List Nat}
      (ready : List (Option Transaction)), NonceSorted txs →
        Holds items index txs →
        ∃ items' index', readyLoop next items index ready =
            some (items', index',
              ready ++ (Core.TxSortedMap.consecutiveRun next
              txs).1.map some) ∧
          Holds items' index'
            (Core.TxSortedMap.consecutiveRun next txs).2
  | [], next, items, index, ready, _, h => by
      refine ⟨items, index, ?_, h⟩
      rw [readyLoop_of_head_none (by
        rw [h.index_eq_nil]
        rfl)]
      simp [Core.TxSortedMap.consecutiveRun]
  | t :: rest, next, items, index, ready, hSorted, h => by
      have hHead : index.head? = some t.nonce :=
        h.head_index hSorted
      by_cases hNext : t.nonce = next
      · subst hNext
        rcases h.pop hSorted with ⟨index', hPop,
          hLookup, hRest⟩
        rcases readyLoop_spec (t.nonce + 1) (ready ++
          [some t]) hSorted.of_cons hRest with
          ⟨items', index'', hLoop, hHolds⟩
        refine ⟨items', index'', ?_, ?_⟩
        · rw [readyLoop_of_pop hHead hPop, hLookup, hLoop]
          simp [Core.TxSortedMap.consecutiveRun]
        · simpa [Core.TxSortedMap.consecutiveRun] using hHolds
      · refine ⟨items, index, ?_, ?_⟩
        · rw [readyLoop_of_ne hHead hNext]
          simp [Core.TxSortedMap.consecutiveRun, hNext]
        · simpa [Core.TxSortedMap.consecutiveRun, hNext] using h

/-
  The loop of Cap over the sorted nonces drops the
  transactions from size down to the threshold, the highest
  first (induction on size: the map holds the first size
  transactions).
-/
theorem capLoop_spec
    {threshold : Nat}
    {txs : List Transaction}
    (hSorted : NonceSorted txs) :
    ∀ (size : Nat) {items : Items} (drops : List
      (Option Transaction)),
      threshold ≤ size → size ≤ txs.length → Keyed items →
        (values items).Perm (txs.take size) →
        ∃ items', capLoop threshold (txs.map
          (·.nonce)) size items drops =
            some (items', drops ++
              ((txs.take size).drop threshold).reverse.map some) ∧
          Keyed items' ∧
            (values items').Perm (txs.take threshold)
  | 0, items, drops, hLe, _, hKeyed, hPerm => by
      have hZero : threshold = 0 := by omega
      subst hZero
      exact ⟨items, by simp [capLoop], hKeyed, hPerm⟩
  | size + 1, items, drops, hLe, hLen, hKeyed, hPerm => by
      by_cases hAbove : size + 1 > threshold
      · have hSize : size < txs.length := by omega
        have hTake : txs.take (size + 1) = txs.take size ++
          [txs[size]] := by
          rw [List.take_add_one,
            List.getElem?_eq_getElem hSize]
          rfl
        have hSortedTake : NonceSorted (txs.take size ++
          [txs[size]]) :=
          hTake ▸ hSorted.sublist (List.take_sublist _ _)
        have hMem : txs[size] ∈ values items :=
          hPerm.mem_iff.mpr (hTake ▸ List.mem_append_right _
            (List.mem_singleton_self _))
        have hLookup : items.lookup txs[size].nonce =
          some txs[size] :=
          hKeyed.lookup_eq_some.mpr ⟨hMem, rfl⟩
        have hErase : (values (items.erase
          txs[size].nonce)).Perm (txs.take size) := by
          rw [hKeyed.values_erase, ← filter_nonce_ne_last
            hSortedTake, ← hTake]
          exact hPerm.filter _
        rcases @capLoop_spec threshold txs hSorted size _
          (drops ++ [some txs[size]]) (by omega)
          (by omega) (hKeyed.erase _) hErase
            with ⟨items', hLoop, hKeyed', hPerm'⟩
        refine ⟨items', ?_, hKeyed', hPerm'⟩
        have hIndex : (txs.map (·.nonce))[size]? =
          some txs[size].nonce := by
          rw [List.getElem?_map,
            List.getElem?_eq_getElem hSize]
          rfl
        rw [capLoop, if_pos hAbove, hIndex]
        simp only
        rw [hLookup, hLoop, hTake,
          List.drop_append_of_le_length (by simp; omega)]
        simp
      · have hEq : threshold = size + 1 := by omega
        subst hEq
        refine ⟨items, ?_, hKeyed, hPerm⟩
        rw [capLoop, if_neg hAbove]
        simp

end TxSortedMap

end Indexed

end Core

end PlasmaEvm

------------------------------------------------------------
-- The Operations Refine the Sorted Model
------------------------------------------------------------

namespace PlasmaEvm

namespace Core

namespace Indexed

open PlasmaEvm.Types

namespace TxSortedMap

variable {m : TxSortedMap}
variable {a : Core.TxSortedMap}

/-
  A nonce is stored when a transaction of the model has it.
-/
theorem Refines.lookup_eq_none
    (h : Refines m a)
    (nonce : Nat) :
    m.items.lookup nonce = none ↔ ∀ tx ∈ a.items,
      tx.nonce ≠ nonce := by
  rw [h.1.keyed.lookup_eq_none]
  exact forall_congr' (fun tx => imp_congr_left h.2.mem_iff)

theorem Refines.length_eq
    (h : Refines m a) :
    m.Len = a.items.length := by
  rw [Len, ← List.length_map (f := Sigma.snd)]
  exact h.2.length_eq

/-
  Put stores the transaction in the place of its nonce, as
  the model does.
-/
theorem Refines.Put
    (h : Refines m a)
    (tx : Transaction) :
    Refines (m.Put tx) (a.Put tx) := by
  have hKeys := h.1.indexed
  refine ⟨⟨h.1.keyed.insert tx, ?_, ?_, fun c hc =>
    by cases hc⟩, ?_⟩
  · show (if m.items.lookup tx.nonce = none
      then Heap.Push id m.index tx.nonce else m.index).Perm
      (m.items.insert tx.nonce tx).keys
    rw [AList.keys_insert]
    split
    · rename_i hNew
      have hFresh : tx.nonce ∉ m.items.keys :=
        AList.mem_keys.not.mp (AList.lookup_eq_none.mp hNew)
      rw [List.erase_of_not_mem hFresh]
      exact (Heap.Push_spec h.1.heap tx.nonce).2.trans
        ((hKeys.append_right [tx.nonce]).trans
          (List.perm_append_singleton _ _))
    · rename_i hOld
      have hHeld : tx.nonce ∈ m.items.keys :=
        AList.mem_keys.mp (AList.lookup_isSome.mp
          (Option.isSome_iff_ne_none.mpr hOld))
      exact hKeys.trans (List.perm_cons_erase hHeld)
  · show Heap.IsHeap id
      (if m.items.lookup tx.nonce = none
        then Heap.Push id m.index tx.nonce else m.index)
    split
    · exact (Heap.Push_spec h.1.heap tx.nonce).1
    · exact h.1.heap
  · show (values (m.items.insert tx.nonce tx)).Perm
      (TxSortedMap.putNonce tx a.items)
    rw [values_insert, h.1.keyed.values_erase]
    exact ((h.2.filter _).cons tx).trans
      (putNonce_perm tx a.sorted).symm

/-
  In a nonce-sorted list the nonces below a threshold come
  first.
-/
theorem filter_lt_append
    (threshold : Nat) :
    ∀ {txs : List Transaction}, NonceSorted txs →
      txs.filter (fun tx => tx.nonce < threshold) ++
        txs.filter (fun tx => ¬ tx.nonce < threshold) = txs
  | [], _ => rfl
  | t :: rest, hSorted => by
      by_cases hBelow : t.nonce < threshold
      · rw [List.filter_cons_of_pos (by simpa using hBelow),
          List.filter_cons_of_neg (by simpa using hBelow),
            List.cons_append,
          filter_lt_append threshold hSorted.of_cons]
      · have hAbove : ∀ u ∈ t :: rest,
          ¬ u.nonce < threshold := by
          intro u hu
          rcases List.mem_cons.mp hu with rfl | hMem
          · exact hBelow
          · have := (List.pairwise_cons.mp hSorted).1 u hMem
            omega
        rw [List.filter_eq_nil_iff.mpr (fun u hu =>
          by simpa using hAbove u hu),
          List.filter_eq_self.mpr (fun u hu =>
            by simpa using hAbove u hu), List.nil_append]

/-
  Forward returns the transactions below the threshold in
  nonce order, as the model does, and never cuts the cache
  past its end.
-/
theorem Refines.Forward
    (h : Refines m a)
    (threshold : Nat) :
    ∃ m', m.Forward threshold = some
      ((a.Forward threshold).1.map some, m') ∧
      Refines m' (a.Forward threshold).2 := by
  rcases forwardLoop_spec threshold [] a.sorted h.holds
    with ⟨items', index', hLoop, hHolds⟩
  have hSplit := filter_lt_append threshold a.sorted
  have hKeptSorted : NonceSorted (a.items.filter (fun tx =>
    ¬ tx.nonce < threshold)) :=
    a.sorted.filter _
  cases hCache : m.cache with
  | none =>
      refine ⟨⟨items', index', none⟩, ?_, ⟨⟨hHolds.keyed,
        hHolds.indexed, hHolds.heap,
        fun c hc => by cases hc⟩, hHolds.perm⟩⟩
      simp only [TxSortedMap.Forward, hLoop, hCache,
        Option.bind_eq_bind, Option.bind_some,
        List.nil_append, Core.TxSortedMap.Forward,
          Option.pure_def]
  | some c =>
      have hc := h.cache_eq hCache
      subst hc
      have hDrop : a.items.drop (a.items.filter (fun tx =>
        tx.nonce < threshold)).length =
          a.items.filter (fun tx =>
            ¬ tx.nonce < threshold) := by
        calc a.items.drop (a.items.filter (fun tx =>
          tx.nonce < threshold)).length
            = (a.items.filter (fun tx =>
              tx.nonce < threshold) ++
                a.items.filter (fun tx =>
                  ¬ tx.nonce < threshold)).drop
                (a.items.filter (fun tx =>
                  tx.nonce <
                    threshold)).length := by rw [hSplit]
          _ = a.items.filter (fun tx =>
            ¬ tx.nonce < threshold) := List.drop_left
      have hFits : (a.items.filter (fun tx =>
        tx.nonce < threshold)).length ≤ a.items.length :=
        List.length_filter_le _ _
      refine ⟨⟨items', index', some (a.items.filter
        (fun tx => ¬ tx.nonce < threshold))⟩, ?_,
        ⟨⟨hHolds.keyed, hHolds.indexed, hHolds.heap,
          ?_⟩, hHolds.perm⟩⟩
      · simp only [TxSortedMap.Forward, hLoop, hCache,
          Option.bind_eq_bind, Option.bind_some,
          List.nil_append, Core.TxSortedMap.Forward,
            List.length_map, hFits, if_true, hDrop,
          Option.pure_def]
      · intro c hc
        cases hc
        exact ⟨hHolds.perm.symm, hKeptSorted⟩

/-
  The range of Filter deletes the entries the filter selects
  and collects their transactions in the order of the
  entries (induction on the entries still to visit; those
  visited and kept stand before them in the map).
-/
theorem filterLoop_spec
    (filter : Transaction → Bool) :
    ∀ (rest kept : List (Σ _ : Nat,
      Transaction)) (items : Items) (removed : List Transaction),
      items.entries = kept ++ rest →
        (filterLoop filter rest items removed).1.entries =
            kept ++ rest.filter (fun s => !filter s.2) ∧
          (filterLoop filter rest items removed).2 =
            removed ++ (rest.filter (fun s =>
              filter s.2)).map Sigma.snd
  | [], kept, items, removed, hEntries => by
      simp [filterLoop, hEntries]
  | ⟨nonce, tx⟩ :: rest, kept, items, removed, hEntries =>
      by
      have hNodup := List.nodupKeys_iff_pairwise.mp
        items.nodupKeys
      rw [hEntries, List.pairwise_append,
        List.pairwise_cons] at hNodup
      rcases hNodup with ⟨-, ⟨hRestKeys, -⟩, hKeptKeys⟩
      cases hSel : filter tx with
      | true =>
          have hErase : (items.erase nonce).entries =
            kept ++ rest := by
            rw [entries_erase, hEntries, List.filter_append,
              List.filter_cons_of_neg (by simp)]
            congr 1
            · rw [List.filter_eq_self]
              intro s hs
              simpa using hKeptKeys s hs ⟨nonce,
                tx⟩ List.mem_cons_self
            · rw [List.filter_eq_self]
              intro s hs
              simpa using Ne.symm (hRestKeys s hs)
          rcases filterLoop_spec filter rest kept
            (items.erase nonce) (removed ++ [tx]) hErase with
            ⟨hKept, hRemoved⟩
          simp only [filterLoop, hSel, if_true]
          refine ⟨?_, ?_⟩
          · rw [hKept,
              List.filter_cons_of_neg (by simp [hSel])]
          · rw [hRemoved, List.filter_cons_of_pos
              (by simp [hSel])]
            simp
      | false =>
          rcases filterLoop_spec filter rest (kept ++
            [⟨nonce, tx⟩]) items removed
            (by rw [hEntries]; simp) with ⟨hKept, hRemoved⟩
          simp only [filterLoop, hSel,
            Bool.false_eq_true, if_false]
          refine ⟨?_, ?_⟩
          · rw [hKept,
              List.filter_cons_of_pos (by simp [hSel])]
            simp
          · rw [hRemoved, List.filter_cons_of_neg
              (by simp [hSel])]

/-
  Filter as its range leaves it: the map and the removed
  transactions.
-/
theorem Filter_eq
    (m : TxSortedMap)
    (filter : Transaction → Bool) :
    m.Filter filter =
      let r := filterLoop filter m.items.entries m.items []
      if r.2.length > 0
        then (r.2, ⟨r.1, Heap.Init id r.1.keys, none⟩)
      else (r.2, ⟨r.1, m.index, m.cache⟩) :=
  rfl

/-
  Filter removes the transactions the filter selects, in the
  map's order where the model has them in nonce order, and
  rebuilds a heap of the nonces left.
-/
theorem Refines.Filter
    (h : Refines m a)
    (filter : Transaction → Bool) :
    (m.Filter filter).1.Perm (a.Filter filter).1 ∧
      Refines (m.Filter filter).2 (a.Filter filter).2 := by
  rcases filterLoop_spec filter m.items.entries [] m.items
    [] (by simp) with ⟨hKept, hRemoved⟩
  rw [Filter_eq]
  dsimp only
  generalize filterLoop filter m.items.entries m.items [] =
    r at hKept hRemoved ⊢
  have hRemovedEq : r.2 =
    (values m.items).filter filter := by
    rw [hRemoved, values, List.filter_map]
    rfl
  have hValues : values r.1 = (values m.items).filter
    (fun tx => !filter tx) := by
    rw [values, hKept, values, List.filter_map]
    rfl
  have hKeyed : Keyed r.1 := by
    intro s hs
    rw [hKept] at hs
    exact h.1.keyed s (List.mem_of_mem_filter
      (List.mem_append.mp hs |>.resolve_left (by simp)))
  have hPerm : (values r.1).Perm (a.Filter filter).2.items := by
    rw [hValues]
    exact h.2.filter _
  by_cases hPos : r.2.length > 0
  · rw [if_pos hPos]
    have hInit : Heap.IsHeap id (Heap.Init id r.1.keys) ∧
      (Heap.Init id r.1.keys).Perm r.1.keys :=
      Heap.Init_spec r.1.keys
    exact ⟨hRemovedEq ▸ h.2.filter _, ⟨hKeyed, hInit.2,
      hInit.1, fun c hc => by cases hc⟩, hPerm⟩
  · rw [if_neg hPos]
    have hEmpty : r.2 = [] :=
      List.eq_nil_of_length_eq_zero (by omega)
    have hSame : r.1 = m.items := by
      apply AList.ext
      rw [hKept, List.nil_append, List.filter_eq_self]
      intro s hs
      have hNot : filter s.2 = false := by
        rw [hRemovedEq, List.filter_eq_nil_iff] at hEmpty
        simpa using hEmpty s.2 (List.mem_map_of_mem hs)
      simp [hNot]
    refine ⟨hRemovedEq ▸ h.2.filter _, ?_⟩
    show Refines ⟨r.1, m.index, m.cache⟩ (a.Filter filter).2
    rw [hSame]
    exact ⟨h.1, hSame ▸ hPerm⟩

/-
  Cap drops the highest nonces above the threshold, the
  highest first, as the model does: the sorted heap lists
  the nonces of the model in order, and the cache loses as
  many at its back.
-/
theorem Refines.Cap
    (h : Refines m a)
    (threshold : Nat) :
    ∃ m', m.Cap threshold = some
      ((a.Cap threshold).1.map some, m') ∧
      Refines m' (a.Cap threshold).2 := by
  have hLen := h.length_eq
  by_cases hUnder : a.items.length ≤ threshold
  · refine ⟨m, ?_, ?_⟩
    · simp [TxSortedMap.Cap, hLen, hUnder,
        Core.TxSortedMap.Cap]
    · simpa [Core.TxSortedMap.Cap, hUnder] using h
  · have hSort : sortNonces m.index =
      a.items.map (·.nonce) :=
      sortNonces_eq a.sorted h.holds.index_perm
    have hAll : (values m.items).Perm
      (a.items.take a.items.length) := by
      rw [List.take_length]
      exact h.2
    rcases @capLoop_spec threshold a.items a.sorted
      a.items.length _ [] (by omega) (Nat.le_refl _)
      h.1.keyed hAll with ⟨items', hLoop, hKeyed', hPerm'⟩
    rw [List.take_length, List.nil_append] at hLoop
    have hSlice : threshold ≤
      (a.items.map (·.nonce)).length := by
      rw [List.length_map]
      omega
    have hKeptSorted : NonceSorted
      (a.items.take threshold) :=
      a.sorted.sublist (List.take_sublist _ _)
    have hIndex : (Heap.Init id ((a.items.map
      (·.nonce)).take threshold)).Perm items'.keys := by
      rw [hKeyed'.keys_eq, ← List.map_take]
      exact (Heap.Init_spec _).2.trans (hPerm'.map _).symm
    have hHeap : Heap.IsHeap id (Heap.Init id ((a.items.map
      (·.nonce)).take threshold)) :=
      (Heap.Init_spec _).1
    have hDrops : ((a.items.drop threshold).reverse.map
      some).length ≤ a.items.length := by
      simp
    have hCut : a.items.length -
      ((a.items.drop threshold).reverse.map some).length =
      threshold := by
      simp only [List.length_map, List.length_reverse,
        List.length_drop]
      omega
    cases hCache : m.cache with
    | none =>
        refine ⟨⟨items', Heap.Init id ((a.items.map
          (·.nonce)).take threshold), none⟩, ?_,
          ⟨⟨hKeyed', hIndex, hHeap, fun c hc =>
            by cases hc⟩, ?_⟩⟩
        · simp only [TxSortedMap.Cap, hLen, if_neg hUnder,
            hSort, Option.bind_eq_bind, hLoop,
            Option.bind_some, if_pos hSlice, hCache,
              Option.pure_def, Core.TxSortedMap.Cap]
        · simpa [Core.TxSortedMap.Cap, hUnder] using hPerm'
    | some c =>
        have hc := h.cache_eq hCache
        subst hc
        refine ⟨⟨items', Heap.Init id ((a.items.map
          (·.nonce)).take threshold),
          some (a.items.take threshold)⟩, ?_,
          ⟨⟨hKeyed', hIndex, hHeap, fun c hc => ?_⟩, ?_⟩⟩
        · simp only [TxSortedMap.Cap, hLen, if_neg hUnder,
            hSort, Option.bind_eq_bind, hLoop,
            Option.bind_some, if_pos hSlice, hCache,
              if_pos hDrops, hCut, Option.pure_def,
            Core.TxSortedMap.Cap]
        · cases hc
          exact ⟨hPerm'.symm, hKeptSorted⟩
        · simpa [Core.TxSortedMap.Cap, hUnder] using hPerm'

/-
  Remove deletes the nonce where the model has it, taking it
  out of the heap with heap.Remove at its place.
-/
theorem Refines.Remove
    (h : Refines m a)
    (nonce : Nat) :
    ∃ m', m.Remove nonce = some ((a.Remove nonce).1, m') ∧
      Refines m' (a.Remove nonce).2 := by
  cases hLookup : m.items.lookup nonce with
  | none =>
      have hFresh := (h.lookup_eq_none nonce).mp hLookup
      have hAny : a.items.any (fun tx =>
        tx.nonce == nonce) = false := by
        rw [List.any_eq_false]
        intro tx hMem
        simpa using hFresh tx hMem
      refine ⟨m, ?_, ?_⟩
      · simp [TxSortedMap.Remove, hLookup,
          Core.TxSortedMap.Remove, hAny]
      · simpa [Core.TxSortedMap.Remove, hAny] using h
  | some tx =>
      rcases h.1.keyed.lookup_eq_some.mp hLookup
        with ⟨hMem, hNonce⟩
      have hAny : a.items.any (fun tx =>
        tx.nonce == nonce) = true :=
        List.any_eq_true.mpr ⟨tx, h.2.mem_iff.mp hMem,
          by simp [hNonce]⟩
      have hInIndex : nonce ∈ m.index := by
        rw [h.1.indexed.mem_iff,
          h.1.keyed.keys_eq, ← hNonce]
        exact List.mem_map_of_mem hMem
      have hi : m.index.idxOf nonce < m.index.length :=
        List.idxOf_lt_length_iff.mpr hInIndex
      rcases Heap.Remove_spec h.1.heap hi
        with ⟨x, index', hRemove, hx, hPerm, hHeap⟩
      rw [List.getElem?_idxOf hInIndex] at hx
      cases hx
      have hIndexed : index'.Perm (m.items.erase nonce).keys := by
        have hErase := (hPerm.trans h.1.indexed).erase nonce
        rw [List.erase_cons_head] at hErase
        rw [AList.keys_erase]
        exact hErase
      refine ⟨⟨m.items.erase nonce, index', none⟩, ?_,
        ⟨⟨h.1.keyed.erase _, hIndexed, hHeap, fun c hc =>
          by cases hc⟩, ?_⟩⟩
      · simp [TxSortedMap.Remove, hLookup, hi, hRemove,
          Core.TxSortedMap.Remove, hAny]
      · have hFilter : a.items.filter (fun tx =>
          tx.nonce != nonce) =
            a.items.filter (fun tx => tx.nonce ≠ nonce) :=
          List.filter_congr (fun tx _ =>
            by by_cases hEq : tx.nonce = nonce <;> simp [hEq])
        simp only [Core.TxSortedMap.Remove, hAny,
          if_true, hFilter]
        rw [h.1.keyed.values_erase]
        exact h.2.filter _

/-
  Ready returns the run of consecutive nonces from the least
  one, when that is at most start, as the model does.
-/
theorem Refines.Ready
    (h : Refines m a)
    (start : Nat) :
    ∃ m', m.Ready start = some ((a.Ready start).1.map some,
      m') ∧ Refines m' (a.Ready start).2 := by
  have hHead := h.holds.head_index a.sorted
  rcases a with ⟨_ | ⟨first, rest⟩, hSorted⟩
  · refine ⟨m, ?_, h⟩
    rw [TxSortedMap.Ready, hHead]
    rfl
  · by_cases hStart : start < first.nonce
    · refine ⟨m, ?_, ?_⟩
      · rw [TxSortedMap.Ready, hHead]
        simp [hStart, Core.TxSortedMap.Ready]
      · simpa [Core.TxSortedMap.Ready, hStart] using h
    · rcases readyLoop_spec first.nonce [] hSorted h.holds
        with ⟨items', index', hLoop, hHolds⟩
      refine ⟨⟨items', index', none⟩, ?_,
        ⟨⟨hHolds.keyed, hHolds.indexed, hHolds.heap,
          fun c hc => by cases hc⟩, ?_⟩⟩
      · rw [TxSortedMap.Ready, hHead]
        simp [hStart, hLoop, Core.TxSortedMap.Ready]
      · simpa [Core.TxSortedMap.Ready,
          hStart] using hHolds.perm

/-
  Flatten gives the model's list, and a cache that is that
  list.
-/
theorem Refines.Flatten
    (h : Refines m a) :
    m.Flatten.1 = a.items ∧ Refines m.Flatten.2 a := by
  cases hCache : m.cache with
  | none =>
      have hSorted :=
        sortByNonce_sorted h.1.keyed.nodup_nonces
      have hEq : sortByNonce (values m.items) = a.items :=
        NonceSorted.eq_of_perm hSorted a.sorted
          ((sortByNonce_perm _).trans h.2)
      have hFlat : m.Flatten =
        (sortByNonce (values m.items),
          { m with
            cache :=
              some (sortByNonce (values m.items)) }) := by
        simp [TxSortedMap.Flatten, ensureCache, hCache]
      rw [hFlat]
      refine ⟨hEq, ⟨h.1.keyed, h.1.indexed, h.1.heap,
        fun c hc => ?_⟩, h.2⟩
      cases hc
      exact ⟨sortByNonce_perm _, hSorted⟩
  | some c =>
      have hc := h.cache_eq hCache
      subst hc
      refine ⟨by
        simp [TxSortedMap.Flatten, ensureCache, hCache], ?_⟩
      simpa [TxSortedMap.Flatten, ensureCache,
        hCache] using h

/-
  The runtime's reordering of the entries changes nothing
  the invariant sees.
-/
theorem Refines.reorder
    (h : Refines m a)
    {entries : List (Σ _ : Nat, Transaction)}
    (hPerm : entries.Perm m.items.entries) :
    Refines
      { m with
        items := ⟨entries,
          (List.perm_nodupKeys hPerm).mpr m.items.nodupKeys⟩ }
      a := by
  have hValues : (values ⟨entries,
    (List.perm_nodupKeys hPerm).mpr m.items.nodupKeys⟩).Perm
      (values m.items) :=
    hPerm.map _
  refine ⟨⟨fun s hs => h.1.keyed s (hPerm.mem_iff.mp hs),
    ?_, h.1.heap, fun c hc => ?_⟩,
    hValues.trans h.2⟩
  · exact h.1.indexed.trans (hPerm.map Sigma.fst).symm
  · rcases h.1.cache c hc with ⟨hCachePerm, hSorted⟩
    exact ⟨hCachePerm.trans hValues.symm, hSorted⟩

end TxSortedMap

end Indexed

end Core

end PlasmaEvm

------------------------------------------------------------
-- Runs of Operations
------------------------------------------------------------

namespace PlasmaEvm

namespace Core

namespace Indexed

open PlasmaEvm.Types

variable {m m' : TxSortedMap}
variable {a : Core.TxSortedMap}

/-
  Every step from a map that refines the model leads to one
  that refines the model's step.
-/
theorem step_refines
    (h : TxSortedMap.Refines m a)
    {op : Op}
    (hStep : step m op = some m') :
    ∃ a', TxSortedMap.Refines m' a' := by
  cases op with
  | Put tx =>
      cases hStep
      exact ⟨_, h.Put tx⟩
  | Forward threshold =>
      rcases h.Forward threshold
        with ⟨m'', hForward, hRefines⟩
      simp only [step, hForward, Option.map_some,
        Option.some.injEq] at hStep
      exact ⟨_, hStep ▸ hRefines⟩
  | Filter filter =>
      cases hStep
      exact ⟨_, (h.Filter filter).2⟩
  | Cap threshold =>
      rcases h.Cap threshold with ⟨m'', hCap, hRefines⟩
      simp only [step, hCap, Option.map_some,
        Option.some.injEq] at hStep
      exact ⟨_, hStep ▸ hRefines⟩
  | Remove nonce =>
      rcases h.Remove nonce with ⟨m'', hRemove, hRefines⟩
      simp only [step, hRemove, Option.map_some,
        Option.some.injEq] at hStep
      exact ⟨_, hStep ▸ hRefines⟩
  | Ready start =>
      rcases h.Ready start with ⟨m'', hReady, hRefines⟩
      simp only [step, hReady, Option.map_some,
        Option.some.injEq] at hStep
      exact ⟨_, hStep ▸ hRefines⟩
  | Flatten =>
      cases hStep
      exact ⟨_, h.Flatten.2⟩
  | Reorder entries =>
      simp only [step] at hStep
      split at hStep
      · rename_i hPerm
        cases hStep
        exact ⟨_, h.reorder hPerm⟩
      · cases hStep

/-
  No operation of the map panics from a map that refines the
  model.
-/
theorem step_isSome
    (h : TxSortedMap.Refines m a)
    {op : Op}
    (hOp : ∀ entries, op ≠ .Reorder entries) :
    (step m op).isSome := by
  cases op with
  | Put tx => rfl
  | Forward threshold =>
      rcases h.Forward threshold with ⟨m'', hForward, -⟩
      simp [step, hForward]
  | Filter filter => rfl
  | Cap threshold =>
      rcases h.Cap threshold with ⟨m'', hCap, -⟩
      simp [step, hCap]
  | Remove nonce =>
      rcases h.Remove nonce with ⟨m'', hRemove, -⟩
      simp [step, hRemove]
  | Ready start =>
      rcases h.Ready start with ⟨m'', hReady, -⟩
      simp [step, hReady]
  | Flatten => rfl
  | Reorder entries => exact absurd rfl (hOp entries)

/-
  After every run of operations from newTxSortedMap the map
  refines the sorted model.
-/
theorem replay_refines
    {ops : List Op}
    (hRun : Replay.replay step newTxSortedMap ops = some m) :
    ∃ a, TxSortedMap.Refines m a :=
  @Replay.invariant TxSortedMap Op step (fun m => ∃ a,
    TxSortedMap.Refines m a)
    (fun _ _ _ hInv hStep => by
      rcases hInv with ⟨a, h⟩
      exact step_refines h hStep)
    newTxSortedMap m ops ⟨_,
      TxSortedMap.refines_newTxSortedMap⟩ hRun

/-
  No run of the map's operations panics: from
  newTxSortedMap, every run that reorders no entries is
  taken to its end, as each step is from a map that refines
  the sorted model.
-/
theorem replay_isSome
    (ops : List Op)
    (hOps : ∀ op ∈ ops, ∀ entries, op ≠ .Reorder entries) :
    (Replay.replay step newTxSortedMap ops).isSome :=
  @Replay.isSome_of_forall TxSortedMap Op step
    (fun m => ∃ a, TxSortedMap.Refines m a)
    (fun op => ∀ entries, op ≠ .Reorder entries)
    (fun _ _ _ _ hInv hStep => by
      rcases hInv with ⟨a, h⟩
      exact step_refines h hStep)
    (fun _ _ hOp hInv => by
      rcases hInv with ⟨a, h⟩
      exact step_isSome h hOp)
    newTxSortedMap ops hOps
    ⟨_, TxSortedMap.refines_newTxSortedMap⟩

/-
  The representation invariant after any run, and what
  follows: Flatten gives the stored transactions in nonce
  order, Ready the run from the least nonce, and Cap the
  highest nonces above the threshold, as the sorted model a
  has them.
-/
theorem txSortedMap_invariant
    (ops : List Op)
    (m : TxSortedMap)
    (hRun : Replay.replay step newTxSortedMap ops = some m) :
    m.index.Perm m.items.keys ∧ m.index.Nodup ∧
      Heap.IsHeap id m.index ∧
      (∀ c, m.cache = some c →
        c = sortByNonce (values m.items)) ∧
      ∃ a : Core.TxSortedMap, (values m.items).Perm a.items
        ∧ m.Flatten.1 = a.items ∧
        (∀ start, ∃ m', m.Ready start =
          some ((a.Ready start).1.map some, m')) ∧
        ∀ k, ∃ m',
          m.Cap k = some ((a.Cap k).1.map some, m') := by
  rcases replay_refines hRun with ⟨a, h⟩
  refine ⟨h.1.indexed, h.1.indexed.nodup_iff.mpr
    m.items.keys_nodup, h.1.heap, ?_, a, h.2,
    h.Flatten.1, ?_, ?_⟩
  · intro c hc
    rcases h.1.cache c hc with ⟨hPerm, hSorted⟩
    exact NonceSorted.eq_of_perm hSorted
      (sortByNonce_sorted h.1.keyed.nodup_nonces)
      (hPerm.trans (sortByNonce_perm _).symm)
  · intro start
    rcases h.Ready start with ⟨m', hReady, -⟩
    exact ⟨m', hReady⟩
  · intro k
    rcases h.Cap k with ⟨m', hCap, -⟩
    exact ⟨m', hCap⟩

/-
  Three Puts, a Forward past the first nonce and a Ready
  from nonce 1: every step is taken, and the map they leave
  keeps the invariant.
-/
theorem txSortedMap_invariant_put_forward_ready :
    let ops := [Op.Put ⟨0, 1, 1, none, 0, [], 0, 0, 0⟩,
      .Put ⟨1, 1, 1, none, 0, [], 0, 0, 0⟩,
      .Put ⟨3, 1, 1, none, 0, [], 0, 0, 0⟩,
      .Forward 1, .Ready 1]
    ∃ m, Replay.replay step newTxSortedMap ops = some m ∧
      m.index.Perm m.items.keys ∧ m.index.Nodup ∧
      Heap.IsHeap id m.index ∧
      (∀ c, m.cache = some c →
        c = sortByNonce (values m.items)) ∧
      ∃ a : Core.TxSortedMap,
        (values m.items).Perm a.items ∧
        m.Flatten.1 = a.items ∧
        (∀ start, ∃ m', m.Ready start =
          some ((a.Ready start).1.map some, m')) ∧
        ∀ k, ∃ m', m.Cap k =
          some ((a.Cap k).1.map some, m') := by
  intro ops
  have hOps : ∀ op ∈ ops, ∀ entries,
    op ≠ .Reorder entries := by
    simp [ops]
  obtain ⟨m, hRun⟩ :=
    Option.isSome_iff_exists.mp (replay_isSome ops hOps)
  exact ⟨m, hRun, txSortedMap_invariant ops m hRun⟩

end Indexed

end Core

end PlasmaEvm
