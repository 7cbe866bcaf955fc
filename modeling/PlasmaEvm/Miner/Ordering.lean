import PlasmaEvm.Core.Types.TxByPrice

/-
  The order in which the miner takes pending transactions:
  the loop of `worker.commitTransactions`
  (`miner/worker.go`) over a `TransactionsByPriceAndNonce`.
  Each round peeks the best head, tries it, and then shifts
  the sender's next transaction in or pops the sender, by
  what the attempt returned.

  What an attempt returns depends on the state the block has
  reached, which is not modelled here: a run is given the
  outcome of each attempt, and the results hold for every
  sequence of them. The loop's other exits, an interrupt and
  a gas pool below `TxGas`, end the sequence.  The loop
  records the transactions it peeks, with whether it shifted
  them.

  The run is a greedy run of `Queues` over the senders'
  lists: every peeked transaction is the next of its
  sender's list and priced no lower than any other sender's
  next, what is taken of one sender is a prefix of its list
  cut at its pop, and the loop runs dry exactly when every
  list is spent or popped.

  Key definitions include:
    * `Miner.Priced.Outcome`,
      `Miner.Priced.commitTransactions`

  Key statements include:
    * `Miner.Priced.commitTransactions_spec`
    * `Miner.Priced.commitTransactions_price_nonce_merge`
-/

------------------------------------------------------------
-- The Loop
------------------------------------------------------------

namespace PlasmaEvm

namespace Miner

namespace Priced

open PlasmaEvm.Types

/-
  What an attempt at the peeked transaction came to: replay
  protected before EIP-155, or the error commitTransaction
  returned (`ok` for nil, `other` for the default case).
-/
inductive Outcome where
  | replayProtected
  | ErrGasLimitReached
  | ErrNonceTooLow
  | ErrNonceTooHigh
  | ok
  | other
  deriving DecidableEq, Repr

/-
  Whether the loop shifts the sender's next transaction in
  after the outcome, or pops the sender (`txs.Shift()`
  against `txs.Pop()` in the switch).
-/
def Outcome.shifts : Outcome → Bool
  | .replayProtected => false
  | .ErrGasLimitReached => false
  | .ErrNonceTooLow => true
  | .ErrNonceTooHigh => false
  | .ok => true
  | .other => true

variable (recoverPlain : Transaction → Option Address)

/-
  The loop of commitTransactions: stop when the outcomes end
  or Peek gives nil, else act on the peeked transaction's
  outcome and go on.  The peeked transactions come back with
  whether each was shifted; a panic of Shift or Pop is
  `none`.
-/
def commitTransactions
    (txs : TransactionsByPriceAndNonce) :
    List Outcome → Option (List (Transaction × Bool) ×
      TransactionsByPriceAndNonce)
  | [] => some ([], txs)
  | outcome :: outcomes =>
      match txs.Peek with
      | none => some ([], txs)
      | some tx =>
          let next := if outcome.shifts
            then txs.Shift recoverPlain else txs.Pop
          match next with
          | none => none
          | some txs' =>
              (commitTransactions txs' outcomes).map
                fun r => ((tx, outcome.shifts) :: r.1, r.2)

end Priced

end Miner

end PlasmaEvm

------------------------------------------------------------
-- The Loop Takes Best Heads
------------------------------------------------------------

namespace PlasmaEvm

namespace Miner

namespace Priced

open PlasmaEvm.Types TransactionsByPriceAndNonce

variable {recoverPlain : Transaction → Option Address}

/-
  From a set that holds the queues q, the loop never panics,
  its peeks form a greedy run of q whose flags are the
  outcomes' Shift or Pop in order, the set it leaves holds
  what the run leaves of q, and it stops early only when
  Peek gives nil.
-/
theorem commitTransactions_spec
    (outcomes : List Outcome) :
    ∀ {txs : TransactionsByPriceAndNonce}
      {q : Address → List Transaction},
      Tracks recoverPlain txs q →
      ∃ run txs',
        commitTransactions recoverPlain txs outcomes =
          some (run, txs') ∧
        run.map Prod.snd <+: outcomes.map Outcome.shifts ∧
        Queues.GreedyRun (senderOf recoverPlain)
          Transaction.gasPrice q run ∧
        Tracks recoverPlain txs'
          (Queues.remaining (senderOf recoverPlain) q run) ∧
        (run.length = outcomes.length ∨
          txs'.Peek = none) := by
  induction outcomes with
  | nil =>
      intro txs q h
      exact ⟨[], txs, rfl, List.nil_prefix, trivial, h,
        Or.inl rfl⟩
  | cons outcome outcomes ih =>
      intro txs q h
      cases hPeek : txs.Peek with
      | none =>
          refine ⟨[], txs, ?_, List.nil_prefix, trivial, h,
            Or.inr hPeek⟩
          simp only [commitTransactions, hPeek]
      | some tx =>
          have hNext : ∃ txs₁,
              (if outcome.shifts then txs.Shift recoverPlain
                else txs.Pop) = some txs₁ ∧
              Tracks recoverPlain txs₁
                (Queues.advance (senderOf recoverPlain) q tx
                  outcome.shifts) := by
            cases outcome.shifts with
            | true => simpa using h.shift hPeek
            | false => simpa using h.pop hPeek
          rcases hNext with ⟨txs₁, hStep, hTracks⟩
          rcases ih hTracks with
            ⟨run, txs', hLoop, hFlags,
              hGreedy, hLeft, hStop⟩
          refine ⟨(tx, outcome.shifts) :: run, txs', ?_,
            List.cons_prefix_cons.mpr ⟨rfl, hFlags⟩,
            ⟨h.Peek_best hPeek, hGreedy⟩, hLeft, ?_⟩
          · simp only [commitTransactions,
              hPeek, hStep, hLoop,
              Option.map_some]
          · rcases hStop with hLen | hNone
            · exact Or.inl (by simp [hLen])
            · exact Or.inr hNone

/-
  The miner's order over lists keyed by their sender, for
  every sequence of outcomes.  The loop never panics.  It
  peeks once for each outcome it reads, and shifts or pops
  by that outcome; it stops before the outcomes end only
  when Peek gives nil. What it peeks of a sender is a prefix
  of that sender's list in which only the last can have been
  popped.  Each peek is the next of its sender's list and
  priced no lower than any sender's next.  Peek gives nil at
  the end exactly when every sender's list was peeked whole
  or popped.
-/
theorem commitTransactions_price_nonce_merge
    (txs : AccountTxs)
    (hKeyed : Keyed recoverPlain txs)
    (outcomes : List Outcome) :
    ∃ set run set',
      NewTransactionsByPriceAndNonce recoverPlain txs =
        some set ∧
      commitTransactions recoverPlain set outcomes =
        some (run, set') ∧
      run.map Prod.snd <+: outcomes.map Outcome.shifts ∧
      (run.length = outcomes.length ∨ set'.Peek = none) ∧
      (∀ a,
        (Queues.takes (senderOf recoverPlain) run a).map
            Prod.fst <+: (txs.lookup a).getD [] ∧
        ∀ e ∈ (Queues.takes (senderOf recoverPlain) run
            a).dropLast, e.2 = true) ∧
      (∀ k (hk : k < run.length),
        Queues.Best (senderOf recoverPlain)
          Transaction.gasPrice
          (Queues.remaining (senderOf recoverPlain)
            (fun a => (txs.lookup a).getD []) (run.take k))
          run[k].1) ∧
      (set'.Peek = none ↔
        ∀ a,
          (Queues.takes (senderOf recoverPlain) run a).map
              Prod.fst = (txs.lookup a).getD [] ∨
          ∃ e ∈ Queues.takes (senderOf recoverPlain) run a,
            e.2 = false) := by
  rcases tracks_New hKeyed with ⟨set, hNew, hTracks⟩
  rcases commitTransactions_spec outcomes hTracks with
    ⟨run, set', hLoop, hFlags, hGreedy, hLeft, hStop⟩
  refine ⟨set, run, set', hNew, hLoop, hFlags, hStop,
    fun a => ⟨hGreedy.taken_prefix_queue a,
      hGreedy.shifted_of_mem_dropLast a⟩,
    hGreedy.best_getElem, ?_⟩
  rw [hLeft.Peek_eq_none_iff]
  exact forall_congr' hGreedy.remaining_eq_nil_iff

/-
  Two senders, 1 and 2, whose transactions carry their
  sender in the gas field: sender 1 sends at prices 5 and
  then 1, sender 2 at price 3.
-/
def signedBy (sender nonce price : Nat) : Transaction :=
  { nonce := nonce, gasPrice := price, gas := sender,
    recipient := none, value := 0, payload := [],
    v := 27, r := 1, s := 1 }

def gasSender (tx : Transaction) : Option Address :=
  some ⟨tx.gas⟩

def twoSenders : AccountTxs :=
  ⟨[⟨⟨1⟩, [signedBy 1 0 5, signedBy 1 1 1]⟩,
    ⟨⟨2⟩, [signedBy 2 0 3]⟩],
    by simp [List.NodupKeys]⟩

/-
  Over the two senders, the attempt at sender 1's first
  transaction fails with a nonce too high, so the loop pops
  sender 1 and never peeks its second; it then takes sender
  2's transaction and runs dry before the third outcome.
-/
theorem commitTransactions_price_nonce_merge_pop_first :
    Keyed gasSender twoSenders ∧
    ∃ set run set',
      NewTransactionsByPriceAndNonce gasSender twoSenders =
        some set ∧
      commitTransactions gasSender set
          [.ErrNonceTooHigh, .ok, .ok] = some (run, set') ∧
      run.map Prod.snd <+:
        [Outcome.ErrNonceTooHigh, .ok, .ok].map
          Outcome.shifts ∧
      (run.length = 3 ∨ set'.Peek = none) ∧
      (∀ a,
        (Queues.takes (senderOf gasSender) run a).map
            Prod.fst <+: (twoSenders.lookup a).getD [] ∧
        ∀ e ∈ (Queues.takes (senderOf gasSender) run
            a).dropLast, e.2 = true) ∧
      (∀ k (hk : k < run.length),
        Queues.Best (senderOf gasSender)
          Transaction.gasPrice
          (Queues.remaining (senderOf gasSender)
            (fun a => (twoSenders.lookup a).getD [])
            (run.take k))
          run[k].1) ∧
      (set'.Peek = none ↔
        ∀ a,
          (Queues.takes (senderOf gasSender) run a).map
              Prod.fst = (twoSenders.lookup a).getD [] ∨
          ∃ e ∈ Queues.takes (senderOf gasSender) run a,
            e.2 = false) := by
  have hKeyed : Keyed gasSender twoSenders := by
    intro a l hl
    have hMem := AList.mem_lookup_iff.mp hl
    simp only [twoSenders, List.mem_cons, List.not_mem_nil,
      or_false] at hMem
    rcases hMem with h | h <;> cases h <;> decide
  exact ⟨hKeyed, commitTransactions_price_nonce_merge
    twoSenders hKeyed [.ErrNonceTooHigh, .ok, .ok]⟩

example :
    ((NewTransactionsByPriceAndNonce gasSender
        twoSenders).bind fun set =>
      commitTransactions gasSender set
        [.ErrNonceTooHigh, .ok, .ok]).map Prod.fst =
      some [(signedBy 1 0 5, false),
        (signedBy 2 0 3, true)] := by
  decide +kernel

end Priced

end Miner

end PlasmaEvm
