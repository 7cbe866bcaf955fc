import Mathlib.Data.List.AList
import Mathlib.Order.OrderDual
import PlasmaEvm.Core.Types.Transaction
import PlasmaEvm.Data.Heap
import PlasmaEvm.Data.Queues

/-
  `TransactionsByPriceAndNonce` of
  `core/types/transaction.go`: the per-account nonce-sorted
  lists of pending transactions, split into a head for each
  account, kept in a price heap (`TxByPrice`, through
  container/heap), and the rest, kept in a map under the
  account's address.  `Peek` reads the heap's root, `Shift`
  puts the next transaction of the root's account in its
  place, and `Pop` drops the root with the rest of its
  account.

  The map is an association list whose entries stand in the
  order of the constructor's range.  A key the range deletes
  before its round is skipped, as Go's range does; a key it
  adds is not visited, one of the behaviours Go allows.
  Signature recovery is the parameter `recoverPlain` of
  `Sender`; an error of `Sender` is dropped, as the code
  drops it.  Index expressions that panic out of range give
  `none`.

  `Tracks` relates the structure to the queues of `Queues`:
  the heap holds one head for each account whose queue is
  not empty, and the map holds the rest of it.  Construction
  from lists keyed by their sender, `Shift` and `Pop` keep
  it, and `Peek` then gives a best head of the queues.

  Key definitions include:
    * `Types.priceKey`, `Types.senderOf`
    * `Types.TransactionsByPriceAndNonce` and its
      `NewTransactionsByPriceAndNonce`, `Peek`, `Shift`,
      `Pop`
    * `Types.TransactionsByPriceAndNonce.Tracks`

  Key statements include:
    * `Types.TransactionsByPriceAndNonce.tracks_New`
    * `Types.TransactionsByPriceAndNonce.Tracks.shift`,
      `Types.TransactionsByPriceAndNonce.Tracks.pop`
    * `Types.TransactionsByPriceAndNonce.Tracks.Peek_best`,
      `Types.TransactionsByPriceAndNonce.Tracks.Peek_eq_none_iff`
-/

------------------------------------------------------------
-- The Price Heap and the Set
------------------------------------------------------------

namespace PlasmaEvm

namespace Types

/-
  TxByPrice's Less(i, j) is s[i].Price > s[j].Price: the
  heap of container/heap orders the transactions by their
  price reversed.
-/
def priceKey (tx : Transaction) : OrderDual Nat :=
  OrderDual.toDual tx.gasPrice

/-
  `acc, _ := Sender(signer, tx)`: on an error acc is the
  zero address.
-/
def senderOf
    (recoverPlain : Transaction → Option Address)
    (tx : Transaction) : Address :=
  (Sender recoverPlain tx).getD NullAddress

/-
  map[common.Address]Transactions, its entries in the order
  of the range.
-/
abbrev AccountTxs := AList (fun _ : Address =>
    List Transaction)

/-
  The per-account lists after their heads, and the heads in
  the heap order of `TxByPrice`.
-/
structure TransactionsByPriceAndNonce where
  txs : AccountTxs
  heads : List Transaction

namespace TransactionsByPriceAndNonce

variable (recoverPlain : Transaction → Option Address)

/-
  One round of the constructor's range over the key addr,
  with the map as the rounds before it left it: the list's
  head goes to the heads, and the rest goes back under the
  head's sender, whose key replaces addr when the two
  differ.  `accTxs[0]` panics on an empty list.
-/
def newRound :
    AccountTxs × List Transaction → Address →
      Option (AccountTxs × List Transaction)
  | (txs, heads), addr =>
      match txs.lookup addr with
      | none => some (txs, heads)
      | some [] => none
      | some (tx :: rest) =>
          let acc := senderOf recoverPlain tx
          let txs' := txs.insert acc rest
          some (if addr ≠ acc
            then txs'.erase addr else txs', heads ++ [tx])

/-
  NewTransactionsByPriceAndNonce(signer, txs): the range,
  then heap.Init on the heads.
-/
def NewTransactionsByPriceAndNonce
    (txs : AccountTxs) :
    Option TransactionsByPriceAndNonce :=
  (txs.keys.foldlM (newRound recoverPlain) (txs,
    [])).map fun r =>
    ⟨r.1, Heap.Init priceKey r.2⟩

/- Peek(): the heap's root, nil on an empty heap. -/
def Peek
    (t : TransactionsByPriceAndNonce) :
    Option Transaction :=
  t.heads.head?

/-
  Pop(): heap.Pop on the heads; the map keeps the account's
  rest. heap.Pop panics on an empty heap.
-/
def Pop
    (t : TransactionsByPriceAndNonce) :
    Option TransactionsByPriceAndNonce :=
  (Heap.Pop priceKey t.heads).map fun r => ⟨t.txs, r.2⟩

/-
  Shift(): the next transaction of the root's sender
  replaces the root and heap.Fix sifts it, or, with none
  left, heap.Pop drops the root.  `t.heads[0]` panics on an
  empty heap.
-/
def Shift
    (t : TransactionsByPriceAndNonce) :
    Option TransactionsByPriceAndNonce :=
  match t.heads with
  | [] => none
  | head :: _ =>
      let acc := senderOf recoverPlain head
      match t.txs.lookup acc with
      | some (tx :: rest) =>
          some ⟨t.txs.insert acc rest,
            Heap.Fix priceKey (t.heads.set 0 tx) 0⟩
      | _ =>
          (Heap.Pop priceKey t.heads).map fun r => ⟨t.txs, r.2⟩

end TransactionsByPriceAndNonce

end Types

end PlasmaEvm

------------------------------------------------------------
-- The Set Tracks the Queues
------------------------------------------------------------

namespace PlasmaEvm

namespace Types

namespace TransactionsByPriceAndNonce

variable (recoverPlain : Transaction → Option Address)

/-
  The set holds the queues q: one head in the heap for each
  account with a non-empty queue, that queue's first
  transaction, with the rest of the queue in the map under
  the account, and every queued transaction sent by its
  account.
-/
structure Tracks
    (t : TransactionsByPriceAndNonce)
    (q : Address → List Transaction) : Prop where
  heap : Heap.IsHeap priceKey t.heads
  senders : (t.heads.map (senderOf recoverPlain)).Nodup
  head : ∀ h ∈ t.heads, ∃ rest,
    t.txs.lookup (senderOf recoverPlain h) = some rest ∧
      q (senderOf recoverPlain h) = h :: rest
  idle : ∀ a,
    a ∉ t.heads.map (senderOf recoverPlain) → q a = []
  keyed : ∀ a, ∀ tx ∈ q a, senderOf recoverPlain tx = a

variable {recoverPlain}
variable {t : TransactionsByPriceAndNonce}
variable {q : Address → List Transaction}

/-
  The price order of the heap is the gas price, reversed.
-/
theorem priceKey_le_iff
    (a b : Transaction) :
    priceKey a ≤ priceKey b ↔ b.gasPrice ≤ a.gasPrice :=
  Iff.rfl

/-
  An account with a queued transaction has its head in the
  heap.
-/
theorem Tracks.exists_head
    (h : Tracks recoverPlain t q)
    {a : Address}
    {y : Transaction}
    {rest : List Transaction}
    (hq : q a = y :: rest) :
    y ∈ t.heads := by
  have hMem : a ∈ t.heads.map (senderOf recoverPlain) := by
    by_contra hNot
    rw [h.idle a hNot] at hq
    exact List.cons_ne_nil _ _ hq.symm
  rcases List.mem_map.mp hMem with ⟨y', hy', hSender⟩
  rcases h.head y' hy' with ⟨rest', -, hq'⟩
  rw [hSender, hq] at hq'
  rw [(List.cons.inj hq').1]
  exact hy'

/- Peek gives nil exactly when every queue is empty. -/
theorem Tracks.Peek_eq_none_iff
    (h : Tracks recoverPlain t q) :
    t.Peek = none ↔ ∀ a, q a = [] := by
  rw [Peek, List.head?_eq_none_iff]
  constructor
  · intro hNil a
    exact h.idle a (by simp [hNil])
  · intro hEmpty
    cases hHeads : t.heads with
    | nil => rfl
    | cons y ys =>
        rcases h.head y (by simp [hHeads])
          with ⟨rest, -, hq⟩
        rw [hEmpty] at hq
        exact (List.cons_ne_nil _ _ hq.symm).elim

/-
  Peek gives a best head of the queues: the first of its
  sender's queue, and priced no lower than any other
  account's first.
-/
theorem Tracks.Peek_best
    (h : Tracks recoverPlain t q)
    {tx : Transaction}
    (hPeek : t.Peek = some tx) :
    Queues.Best (senderOf recoverPlain)
      Transaction.gasPrice q tx := by
  have hRoot : t.heads[0]? = some tx := by
    rw [← hPeek, Peek, List.head?_eq_getElem?]
  have hMem : tx ∈ t.heads := List.mem_of_getElem? hRoot
  refine ⟨?_, ?_⟩
  · rcases h.head tx hMem with ⟨rest, -, hq⟩
    exact ⟨rest, hq⟩
  · intro a y rest hq
    exact (priceKey_le_iff tx y).mp (h.heap.root_le hRoot y
      (h.exists_head hq))

/-
  Popping the root tx leaves the heads of the other
  accounts, and tx's account with an empty queue.
-/
theorem Tracks.pop_heads
    (h : Tracks recoverPlain t q)
    {tx : Transaction}
    {hs : List Transaction}
    (hHeads : t.heads = tx :: hs) :
    ∃ heads',
      Heap.Pop priceKey t.heads = some (tx, heads') ∧
      Tracks recoverPlain ⟨t.txs,
        heads'⟩ (Queues.advance (senderOf recoverPlain) q
        tx false) := by
  rcases Heap.Pop_spec h.heap (by simp [hHeads])
    with ⟨x, heads', hPop, hRoot, hPerm, hHeap⟩
  have hx : x = tx := by
    rw [hHeads] at hRoot
    exact (Option.some.inj hRoot).symm
  subst hx
  have hSenders : (senderOf recoverPlain x ::
    heads'.map (senderOf recoverPlain)).Nodup := by
    have hMapPerm := hPerm.map (senderOf recoverPlain)
    rw [List.map_cons] at hMapPerm
    exact hMapPerm.nodup_iff.mpr h.senders
  rw [List.nodup_cons] at hSenders
  rcases hSenders with ⟨hFresh, hNodup⟩
  refine ⟨heads', hPop, ⟨hHeap, hNodup, ?_, ?_, ?_⟩⟩
  · intro y hy
    have hNe : senderOf recoverPlain y ≠
      senderOf recoverPlain x := by
      intro hEq
      exact hFresh (hEq ▸ List.mem_map_of_mem hy)
    rcases h.head y (hPerm.subset
      (List.mem_cons_of_mem x hy)) with ⟨rest, hLookup, hq⟩
    exact ⟨rest, hLookup,
      by rw [Queues.advance_of_ne false hNe, hq]⟩
  · intro a ha
    by_cases hA : a = senderOf recoverPlain x
    · rw [hA, Queues.advance_self]
      rfl
    · rw [Queues.advance_of_ne false hA]
      apply h.idle a
      intro hMem
      have hCons := (hPerm.map (senderOf
        recoverPlain)).symm.subset hMem
      rcases List.mem_cons.mp hCons with hEq | hTail
      · exact hA hEq
      · exact ha hTail
  · intro a y hy
    exact h.keyed a y (Queues.mem_advance hy)

/-
  Pop drops the root's account: its queue empties and the
  others stay.
-/
theorem Tracks.pop
    (h : Tracks recoverPlain t q)
    {tx : Transaction}
    (hPeek : t.Peek = some tx) :
    ∃ t', t.Pop = some t' ∧
      Tracks recoverPlain t' (Queues.advance
        (senderOf recoverPlain) q tx false) := by
  rcases List.head?_eq_some_iff.mp hPeek with ⟨hs, hHeads⟩
  rcases h.pop_heads hHeads with ⟨heads', hPop, hTracks⟩
  exact ⟨_, by rw [Pop, hPop]; rfl, hTracks⟩

/-
  Shift takes the root off its account's queue: the next of
  the queue replaces it and heap.Fix restores the heap, or,
  with the queue spent, the root is popped.  When the
  account has nothing left, Shift pops as Pop does;
  otherwise its next transaction takes the root's place, and
  only the root's pairs can be out of order before Fix.
-/
theorem Tracks.shift
    (h : Tracks recoverPlain t q)
    {tx : Transaction}
    (hPeek : t.Peek = some tx) :
    ∃ t', t.Shift recoverPlain = some t' ∧
      Tracks recoverPlain t' (Queues.advance
        (senderOf recoverPlain) q tx true) := by
  rcases List.head?_eq_some_iff.mp hPeek with ⟨hs, hHeads⟩
  rcases h.head tx (by simp [hHeads])
    with ⟨rest, hLookup, hq⟩
  cases rest with
  | nil =>
      rcases h.pop_heads hHeads with ⟨heads', hPop, hTracks⟩
      have hSame : Queues.advance
        (senderOf recoverPlain) q tx true =
          Queues.advance (senderOf recoverPlain) q tx false := by
        simp [Queues.advance, hq]
      refine ⟨_, ?_, hSame ▸ hTracks⟩
      simp only [Shift, hHeads, hLookup]
      rw [← hHeads, hPop]
      rfl
  | cons y rest =>
      have hy : senderOf recoverPlain y =
        senderOf recoverPlain tx :=
        h.keyed _ y (by simp [hq])
      have hSet : t.heads.set 0 y = y :: hs := by
        rw [hHeads]
        rfl
      have hOthers : ∀ n, n ≠ 0 →
        (y :: hs)[n]? = t.heads[n]? := by
        intro n hn
        rw [hHeads]
        cases n with
        | zero => exact absurd rfl hn
        | succ n => rfl
      have hLen : (y :: hs).length = t.heads.length := by
        rw [hHeads]
        rfl
      have hFix : Heap.IsHeap priceKey
        (Heap.Fix priceKey (y :: hs) 0) ∧
          (Heap.Fix priceKey (y :: hs) 0).Perm (y :: hs) :=
            Heap.Fix_spec (by simp)
        (by
          intro c hc hcn hSkip a b ha hb
          have hKept : ¬ (c = 0 ∨
            Heap.parent c = 0) := hSkip
          rw [hOthers _ (fun h0 => hKept (Or.inr h0))] at ha
          rw [hOthers _ (fun h0 => hKept (Or.inl h0))] at hb
          exact h.heap c hc (hLen ▸ hcn) id a b ha hb)
        (fun h0 => absurd h0 (Nat.lt_irrefl 0))
      rcases hFix with ⟨hHeap, hPerm⟩
      have hMapPerm := hPerm.map (senderOf recoverPlain)
      have hConsMap : (y :: hs).map (senderOf recoverPlain) =
          (tx :: hs).map (senderOf recoverPlain) := by
        simp [hy]
      rw [hConsMap, ← hHeads] at hMapPerm
      have hNodup : ((Heap.Fix priceKey (y ::
        hs) 0).map (senderOf recoverPlain)).Nodup :=
        hMapPerm.nodup_iff.mpr h.senders
      have hFresh : senderOf recoverPlain tx ∉ hs.map
        (senderOf recoverPlain) := by
        have hSenders := h.senders
        rw [hHeads, List.map_cons,
          List.nodup_cons] at hSenders
        exact hSenders.1
      refine ⟨⟨t.txs.insert (senderOf recoverPlain tx) rest,
        Heap.Fix priceKey (y :: hs) 0⟩, ?_,
        ⟨hHeap, hNodup, ?_, ?_, ?_⟩⟩
      · simp only [Shift, hHeads, hLookup]
        rw [← hHeads, hSet]
      · intro z hz
        rcases List.mem_cons.mp (hPerm.subset hz) with hzy | hzs
        · subst hzy
          refine ⟨rest, ?_, ?_⟩
          · rw [hy, AList.lookup_insert]
          · rw [hy, Queues.advance_self, hq]
            rfl
        · have hNe : senderOf recoverPlain z ≠
            senderOf recoverPlain tx := by
            intro hEq
            exact hFresh (hEq ▸ List.mem_map_of_mem hzs)
          rcases h.head z (by simp [hHeads, hzs])
            with ⟨rest', hLookup', hq'⟩
          exact ⟨rest',
            by rw [AList.lookup_insert_ne hNe, hLookup'],
            by rw [Queues.advance_of_ne true hNe, hq']⟩
      · intro a ha
        have hA : a ∉ t.heads.map
          (senderOf recoverPlain) := fun hMem =>
          ha (hMapPerm.symm.subset hMem)
        have hNe : a ≠ senderOf recoverPlain tx :=
          fun hEq => hA (by simp [hHeads, hEq])
        rw [Queues.advance_of_ne true hNe]
        exact h.idle a hA
      · intro a z hz
        exact h.keyed a z (Queues.mem_advance hz)

end TransactionsByPriceAndNonce

end Types

end PlasmaEvm

------------------------------------------------------------
-- Construction
------------------------------------------------------------

namespace PlasmaEvm

namespace Types

namespace TransactionsByPriceAndNonce

variable {recoverPlain : Transaction → Option Address}

/-
  The lists the miner hands over: each non-empty, and keyed
  by the sender of its transactions.
-/
def Keyed
    (recoverPlain : Transaction → Option Address)
    (txs : AccountTxs) : Prop :=
  ∀ a l, txs.lookup a = some l → l ≠ [] ∧ ∀ tx ∈ l,
    senderOf recoverPlain tx = a

/-
  The constructor's range over keyed lists: each round takes
  the head of its own key's list and puts the rest back
  under the same key, so the rounds leave the other keys as
  they find them.
-/
theorem foldlM_newRound
    {txs : AccountTxs}
    (hKeyed : Keyed recoverPlain txs) :
    ∀ (todo : List Address) (m : AccountTxs)
      (heads : List Transaction),
      todo.Nodup → (∀ a ∈ todo, a ∈ txs.keys) →
      (∀ a ∈ todo, m.lookup a = txs.lookup a) →
      ∃ m' hs, todo.foldlM (newRound recoverPlain) (m,
        heads) = some (m', heads ++ hs) ∧
        hs.map (senderOf recoverPlain) = todo ∧
        (∀ h ∈ hs, ∃ rest, m'.lookup
          (senderOf recoverPlain h) = some rest ∧
          txs.lookup (senderOf recoverPlain h) =
            some (h :: rest)) ∧
        ∀ a, a ∉ todo → m'.lookup a = m.lookup a := by
  intro todo
  induction todo with
  | nil =>
      intro m heads _ _ _
      exact ⟨m, [], by simp, rfl, by simp, fun _ _ => rfl⟩
  | cons a todo ih =>
      intro m heads hNodup hKeys hSame
      rw [List.nodup_cons] at hNodup
      rcases Option.isSome_iff_exists.mp
        (AList.lookup_isSome.mpr (AList.mem_keys.mpr
          (hKeys a (by simp)))) with ⟨l, hl⟩
      rcases hKeyed a l hl with ⟨hNonempty, hSender⟩
      rcases List.exists_cons_of_ne_nil hNonempty
        with ⟨tx, rest, rfl⟩
      have hTx : senderOf recoverPlain tx = a :=
        hSender tx (by simp)
      have hm : m.lookup a = some (tx :: rest) := by
        rw [hSame a (by simp), hl]
      have hRound : newRound recoverPlain (m, heads) a =
          some (m.insert a rest, heads ++ [tx]) := by
        simp only [newRound, hm, hTx, ne_eq,
          not_true_eq_false, if_false]
      rcases ih (m.insert a rest) (heads ++ [tx]) hNodup.2
          (fun b hb => hKeys b (by simp [hb]))
          (fun b hb => by
            have hNe : b ≠ a := fun hEq =>
              hNodup.1 (hEq ▸ hb)
            rw [AList.lookup_insert_ne hNe,
              hSame b (by simp [hb])]) with
        ⟨m', hs, hFold, hMap, hHeads, hFrame⟩
      refine ⟨m', tx :: hs, ?_, ?_, ?_, ?_⟩
      · rw [List.foldlM_cons, hRound, Option.bind_eq_bind,
          Option.bind_some, hFold]
        simp
      · rw [List.map_cons, hTx, hMap]
      · intro h hh
        rcases List.mem_cons.mp hh with hEq | hMem
        · subst hEq
          refine ⟨rest, ?_, by rw [hTx, hl]⟩
          rw [hTx, hFrame a hNodup.1, AList.lookup_insert]
        · exact hHeads h hMem
      · intro b hb
        have hNe : b ≠ a := fun hEq => hb (by simp [hEq])
        rw [hFrame b (fun hMem =>
          hb (List.mem_cons_of_mem a hMem)),
          AList.lookup_insert_ne hNe]

/-
  On keyed lists the constructor succeeds, and the set it
  builds holds the lists as they are.
-/
theorem tracks_New
    {txs : AccountTxs}
    (hKeyed : Keyed recoverPlain txs) :
    ∃ t, NewTransactionsByPriceAndNonce
      recoverPlain txs = some t ∧
      Tracks recoverPlain t (fun a =>
        (txs.lookup a).getD []) := by
  rcases foldlM_newRound hKeyed txs.keys txs
    [] txs.keys_nodup (fun _ h => h) (fun _ _ => rfl) with
    ⟨m', hs, hFold, hMap, hHeads, -⟩
  have hInit : Heap.IsHeap priceKey
    (Heap.Init priceKey hs) ∧
    (Heap.Init priceKey hs).Perm hs :=
    Heap.Init_spec hs
  rcases hInit with ⟨hHeap, hPerm⟩
  have hMapPerm := hPerm.map (senderOf recoverPlain)
  rw [hMap] at hMapPerm
  refine ⟨_,
    by
      rw [NewTransactionsByPriceAndNonce, hFold]
      rfl, ⟨hHeap, ?_, ?_, ?_, ?_⟩⟩
  · exact hMapPerm.nodup_iff.mpr txs.keys_nodup
  · intro h hh
    rcases hHeads h (hPerm.subset hh)
      with ⟨rest, hLookup, hTxs⟩
    exact ⟨rest, hLookup, by simp [hTxs]⟩
  · intro a ha
    have hNone : txs.lookup a = none :=
      AList.lookup_eq_none.mpr (fun hMem =>
        ha (hMapPerm.symm.subset (AList.mem_keys.mp hMem)))
    simp [hNone]
  · intro a tx htx
    cases hLookup : txs.lookup a with
    | none => simp [hLookup] at htx
    | some l =>
        rw [hLookup] at htx
        exact (hKeyed a l hLookup).2 tx htx

end TransactionsByPriceAndNonce

end Types

end PlasmaEvm
