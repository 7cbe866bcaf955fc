import PlasmaEvm.Core.Types.Receipt
import PlasmaEvm.Tx.Manager
import PlasmaEvm.Data.Forall2

/-
  Challenges of invalid exits by the operator, from
  `pls/rootchain_manager.go`.  `runDetector` looks at every
  request block the operator mines and records each failed
  request transaction of the block, with a Merkle proof of
  its receipt, under the fork number the root chain reports
  and the block number.  `handleBlockFinalized` takes the
  records of a finalized request block and sends one
  `challengeExit` transaction for each, at the nonce
  `NonceAt` answers.

  What the root chain and the account manager answer during
  a call are arguments.  The ABI encoding of the
  `challengeExit` call is a parameter `Pack`, whose proof
  argument is the list of 32-byte proof elements the code
  concatenates.

  Every record carries the index, the receipt and a proof
  that `checkMembership` accepts against the receipt root,
  and the handler sends one transaction per record, in
  order.  The nonce, however, is read anew for each
  transaction from `NonceAt(latest)`, which counts only
  mined transactions: the transactions of one handler all
  carry the same nonce.

  Key statements include:
    * `detectInvalidExits_records`
    * `challengeLoop_payloads`, `challengeLoop_nonce`
    * `challenges_carry_proofs`
    * `challenges_share_nonce`
-/

------------------------------------------------------------
-- Detecting Invalid Exits
------------------------------------------------------------

namespace PlasmaEvm

namespace Pls

open PlasmaEvm.Types

/- `params.SubmitBlockGasPrice`: 1 gwei. -/
def SubmitBlockGasPrice : Nat := 1000000000

/- `params.SubmitBlockGasLimit`. -/
def SubmitBlockGasLimit : Nat := 4000000

/-
  `invalidExit`: a failed request transaction of a request
  block.
-/
structure InvalidExit (H : Type) where
  forkNumber : Nat
  blockNumber : Nat
  receipt : Receipt
  index : Nat
  proof : List H

variable {H : Type}
variable (keccak : Keccak H)
variable (GetRlp : Receipt → Bytes)

/-
  The loop of `runDetector` over the receipts of a request
  block: a record for each failed receipt, with the proof
  `GetMerkleProof(receipts, i)`.
-/
def detectInvalidExits
    (forkNumber blockNumber : Nat)
    (receipts : List Receipt) : List (InvalidExit H) :=
  (List.range receipts.length).filterMap fun i =>
    match receipts[i]? with
    | some receipt =>
        if receipt.Status = ReceiptStatusFailed then
          some
            { forkNumber := forkNumber
              blockNumber := blockNumber
              receipt := receipt
              index := i
              proof := (GetMerkleProof keccak
                (receipts.map GetRlp) i).getD [] }
        else none
    | none => none

/-
  One event of `runDetector`: a block the operator mined,
  its receipts and the answer of `CurrentFork`.  The records
  of a request block replace those under its fork and
  number; a failed query skips the block.
-/
def runDetectorStep
    (invalidExits : Nat → Nat → List (InvalidExit H))
    (isRequest : Bool)
    (blockNumber : Nat)
    (receipts : List Receipt)
    (currentFork : Except Unit Nat) :
    Nat → Nat → List (InvalidExit H) :=
  if isRequest then
    match currentFork with
    | .error () => invalidExits
    | .ok forkNumber =>
        Function.update invalidExits forkNumber
          (Function.update (invalidExits forkNumber) blockNumber
            (detectInvalidExits keccak GetRlp forkNumber
              blockNumber receipts))
  else invalidExits

/-
  The indices of the failed receipts of a block, in order.
-/
def failedIndices (receipts : List Receipt) : List Nat :=
  (List.range receipts.length).filter fun i =>
    match receipts[i]? with
    | some receipt =>
        decide (receipt.Status = ReceiptStatusFailed)
    | none => false

/-
  The records are those of the failed receipts, in order:
  each holds its index, its receipt and the proof of it.
-/
theorem detectInvalidExits_records
    (forkNumber blockNumber : Nat)
    (receipts : List Receipt) :
    List.Forall₂
      (fun exit i =>
        exit.forkNumber = forkNumber ∧
          exit.blockNumber = blockNumber ∧
          exit.index = i ∧
            receipts[i]? = some exit.receipt ∧
          exit.receipt.Status = ReceiptStatusFailed ∧
          exit.proof = (GetMerkleProof keccak
            (receipts.map GetRlp) i).getD [])
      (detectInvalidExits keccak GetRlp forkNumber
        blockNumber receipts)
      (failedIndices receipts) := by
  apply List.forall₂_filterMap_filter
  · intro i _ hFailed
    cases hReceipt : receipts[i]? with
    | none => simp [hReceipt] at hFailed
    | some receipt =>
        simp only [hReceipt, decide_eq_true_eq] at hFailed
        dsimp only
        rw [if_pos hFailed]
        exact ⟨_, rfl, rfl, rfl, rfl, rfl, hFailed, rfl⟩
  · intro i _ hKept
    cases hReceipt : receipts[i]? with
    | none => rfl
    | some receipt =>
        simp only [hReceipt,
          decide_eq_false_iff_not] at hKept
        simp [hKept]

end Pls

end PlasmaEvm

------------------------------------------------------------
-- Challenging Them
------------------------------------------------------------

namespace PlasmaEvm

namespace Pls

open PlasmaEvm.Types

open PlasmaEvm.Tx (Keystore)

/- The arguments of the `challengeExit` call. -/
structure ChallengeExit (H : Type) where
  forkNumber : Nat
  blockNumber : Nat
  index : Nat
  receipt : Bytes
  proof : List H

/-
  What the account manager and the root chain answer during
  `handleBlockFinalized`: the challenger's wallet, whether
  the finalized block is a request block, and `NonceAt` at
  each call of the loop.
-/
structure FinalizedAnswers where
  Find : Except Unit Keystore
  GetBlock : Except Unit Bool
  NonceAt : Nat → Except Unit Nat

variable {H : Type}
variable (GetRlp : Receipt → Bytes)
variable (Pack : ChallengeExit H → Bytes)
variable (RootChainContract : Address)

/-
  The signed `challengeExit` transaction of one record, for
  the finalized fork and block.
-/
def challengeTx
    (w : Keystore)
    (nonce forkNumber blockNumber : Nat)
    (exit : InvalidExit H) : Transaction :=
  w.SignTx
    { nonce := nonce
      gasPrice := SubmitBlockGasPrice
      gas := SubmitBlockGasLimit
      recipient := some RootChainContract
      value := 0
      payload :=
        Pack ⟨forkNumber, blockNumber, exit.index,
          GetRlp exit.receipt, exit.proof⟩
      v := 0
      r := 0
      s := 0 }

/-
  The loop of `handleBlockFinalized` from its `i`-th record:
  `NonceAt` is asked again for every record, and a failed
  query leaves the nonce zero.  The transactions are those
  handed to `SendTransaction`.
-/
def challengeLoop
    (w : Keystore)
    (NonceAt : Nat → Except Unit Nat)
    (forkNumber blockNumber : Nat) :
    Nat → List (InvalidExit H) → List Transaction
  | _, [] => []
  | i, exit :: rest =>
      let nonce :=
        match NonceAt i with
        | .ok nonce => nonce
        | .error () => 0
      challengeTx GetRlp Pack RootChainContract w nonce
        forkNumber blockNumber exit ::
        challengeLoop w NonceAt forkNumber
          blockNumber (i + 1) rest

/-
  `handleBlockFinalized(ev)`: the challenges sent for the
  records of the finalized block, when it is a request
  block.
-/
def handleBlockFinalized
    (invalidExits : Nat → Nat → List (InvalidExit H))
    (answers : FinalizedAnswers)
    (forkNumber blockNumber : Nat) :
    Except Unit (List Transaction) := do
  let w ← answers.Find
  let isRequest ← answers.GetBlock
  if isRequest then
    return challengeLoop GetRlp Pack RootChainContract w
      answers.NonceAt
      forkNumber blockNumber 0 (invalidExits
        forkNumber blockNumber)
  else
    return []

/-
  Each challenge carries the data of its record, in order.
-/
theorem challengeLoop_payloads
    (w : Keystore)
    (NonceAt : Nat → Except Unit Nat)
    (forkNumber blockNumber i : Nat)
    (exits : List (InvalidExit H)) :
    List.Forall₂
      (fun tx exit =>
        tx.payload =
          Pack ⟨forkNumber, blockNumber, exit.index,
            GetRlp exit.receipt,
            exit.proof⟩)
      (challengeLoop GetRlp Pack RootChainContract w
        NonceAt forkNumber
        blockNumber i exits)
      exits := by
  induction exits generalizing i with
  | nil => exact List.Forall₂.nil
  | cons exit rest ih =>
      apply List.Forall₂.cons
      · simp [challengeTx]
      · exact ih (i + 1)

/-
  When every `NonceAt` of the loop answers `nonce`, every
  challenge carries it.
-/
theorem challengeLoop_nonce
    (w : Keystore)
    {NonceAt : Nat → Except Unit Nat}
    {nonce : Nat}
    (hNonce : ∀ i, NonceAt i = .ok nonce)
    (forkNumber blockNumber i : Nat)
    (exits : List (InvalidExit H)) :
    ∀ tx ∈ challengeLoop GetRlp Pack RootChainContract w
      NonceAt forkNumber
        blockNumber i exits,
      tx.nonce = nonce := by
  induction exits generalizing i with
  | nil =>
      intro tx hMem
      cases hMem
  | cons exit rest ih =>
      intro tx hMem
      rcases List.mem_cons.mp hMem with hHead | hTail
      · rw [hHead]
        simp [challengeTx, hNonce i]
      · exact ih (i + 1) tx hTail

theorem challengeLoop_length
    (w : Keystore)
    (NonceAt : Nat → Except Unit Nat)
    (forkNumber blockNumber i : Nat)
    (exits : List (InvalidExit H)) :
    (challengeLoop GetRlp Pack RootChainContract w
      NonceAt forkNumber
      blockNumber i exits).length = exits.length :=
  (challengeLoop_payloads GetRlp Pack RootChainContract w NonceAt
    forkNumber blockNumber i exits).length_eq

/-
  With the wallet found and a request block, the handler
  sends the loop's challenges for the block's records.
-/
theorem handleBlockFinalized_eq
    (invalidExits : Nat → Nat → List (InvalidExit H))
    {answers : FinalizedAnswers}
    {w : Keystore}
    (hFind : answers.Find = .ok w)
    (hBlock : answers.GetBlock = .ok true)
    (forkNumber blockNumber : Nat) :
    handleBlockFinalized GetRlp Pack RootChainContract
      invalidExits answers
        forkNumber blockNumber =
      .ok (challengeLoop GetRlp Pack RootChainContract w
        answers.NonceAt
        forkNumber blockNumber 0
          (invalidExits forkNumber blockNumber)) := by
  rw [handleBlockFinalized, hFind, hBlock]
  rfl

end Pls

end PlasmaEvm

------------------------------------------------------------
-- From Detection to Challenge
------------------------------------------------------------

namespace PlasmaEvm

namespace Pls

open PlasmaEvm.Types

open PlasmaEvm.Tx (Keystore)

variable {H : Type}
variable (keccak : Keccak H)
variable (GetRlp : Receipt → Bytes)
variable (Pack : ChallengeExit H → Bytes)
variable (RootChainContract : Address)

/-
  The records the detector leaves for the block it looked
  at.
-/
theorem runDetectorStep_self
    (invalidExits : Nat → Nat → List (InvalidExit H))
    (blockNumber : Nat)
    (receipts : List Receipt)
    (forkNumber : Nat) :
    runDetectorStep keccak GetRlp invalidExits true
      blockNumber receipts
        (.ok forkNumber) forkNumber blockNumber =
      detectInvalidExits keccak GetRlp forkNumber
        blockNumber receipts := by
  simp [runDetectorStep]

/-
  After the detector has looked at a request block of at
  most `2 ^ 15` receipts, finalizing the block sends, in
  order of index, one challenge per failed receipt, carrying
  the fork, the block, the index, the receipt's encoding and
  a proof that `checkMembership` accepts against the receipt
  root.
-/
theorem challenges_carry_proofs
    [DecidableEq H]
    (EmptyRootHash : H)
    (invalidExits : Nat → Nat → List (InvalidExit H))
    (receipts : List Receipt)
    (forkNumber blockNumber : Nat)
    {answers : FinalizedAnswers}
    {w : Keystore}
    (hFind : answers.Find = .ok w)
    (hBlock : answers.GetBlock = .ok true)
    (hSize : receipts.length ≤ 2 ^ 15) :
    ∃ sent,
      handleBlockFinalized GetRlp Pack RootChainContract
          (runDetectorStep keccak GetRlp invalidExits true
            blockNumber receipts
            (.ok forkNumber))
          answers forkNumber blockNumber = .ok sent ∧
        List.Forall₂
          (fun tx i =>
            ∃ receipt proof,
              receipts[i]? = some receipt ∧
                receipt.Status = ReceiptStatusFailed ∧
                tx.payload =
                  Pack ⟨forkNumber, blockNumber, i,
                    GetRlp receipt, proof⟩ ∧
                checkMembership keccak (keccak.hash
                  (GetRlp receipt)) i
                  (ReceiptHash keccak GetRlp EmptyRootHash
                    receipts) proof = true)
          sent (failedIndices receipts) := by
  rw [handleBlockFinalized_eq GetRlp Pack RootChainContract
    _ hFind hBlock,
    runDetectorStep_self]
  refine ⟨_, rfl, ?_⟩
  have hLinked :=
    (challengeLoop_payloads GetRlp Pack RootChainContract w
      answers.NonceAt
      forkNumber blockNumber 0 _).comp
      (detectInvalidExits_records keccak GetRlp forkNumber
        blockNumber receipts)
  refine hLinked.imp ?_
  rintro tx i ⟨exit, hPayload, -, -, hIndex, hReceipt,
    hFailed, hProof⟩
  have hBound : i < (receipts.map GetRlp).length := by
    rw [List.length_map]
    exact (List.getElem?_eq_some_iff.mp hReceipt).1
  have hEncoded : (receipts.map GetRlp)[i] =
    GetRlp exit.receipt := by
    rw [List.getElem_map]
    exact congrArg GetRlp
      (List.getElem?_eq_some_iff.mp hReceipt).2
  obtain ⟨proof, hGet, hCheck⟩ :=
    checkMembership_GetMerkleProof keccak EmptyRootHash
      (receipts.map GetRlp) i
      hBound (by rw [List.length_map]; exact hSize)
  refine ⟨exit.receipt, proof, hReceipt, hFailed, ?_, ?_⟩
  · rw [hPayload, hIndex, hProof, hGet]
    rfl
  · rw [← hEncoded]
    exact hCheck

/-
  With a root chain whose `NonceAt(latest)` answers the same
  account nonce throughout the handler (none of its
  transactions is mined meanwhile), finalizing a request
  block with two failed receipts or more sends that many
  challenges, all at that nonce, so at most one of them can
  be included.
-/
theorem challenges_share_nonce
    (invalidExits : Nat → Nat → List (InvalidExit H))
    (receipts : List Receipt)
    (forkNumber blockNumber nonce : Nat)
    {answers : FinalizedAnswers}
    {w : Keystore}
    (hFind : answers.Find = .ok w)
    (hBlock : answers.GetBlock = .ok true)
    (hNonce : ∀ i, answers.NonceAt i = .ok nonce)
    (hTwo : 2 ≤ (failedIndices receipts).length) :
    ∃ sent,
      handleBlockFinalized GetRlp Pack RootChainContract
          (runDetectorStep keccak GetRlp invalidExits true
            blockNumber receipts
            (.ok forkNumber))
          answers forkNumber blockNumber = .ok sent ∧
        sent.length = (failedIndices receipts).length ∧
        (∀ tx ∈ sent, tx.nonce = nonce) ∧
        ¬ (sent.map Transaction.nonce).Nodup := by
  rw [handleBlockFinalized_eq GetRlp Pack RootChainContract
    _ hFind hBlock,
    runDetectorStep_self]
  have hLength :=
    (challengeLoop_length GetRlp Pack RootChainContract w
      answers.NonceAt
      forkNumber blockNumber 0 _).trans
      (detectInvalidExits_records keccak GetRlp
        forkNumber blockNumber
        receipts).length_eq
  have hAll := challengeLoop_nonce GetRlp Pack
    RootChainContract w hNonce
    forkNumber blockNumber 0
    (detectInvalidExits keccak GetRlp forkNumber
      blockNumber receipts)
  refine ⟨_, rfl, hLength, hAll, ?_⟩
  generalize challengeLoop GetRlp Pack RootChainContract w
    answers.NonceAt
    forkNumber blockNumber 0
    (detectInvalidExits keccak GetRlp forkNumber blockNumber
      receipts) = sent
    at hLength hAll
  have hReplicate :
      sent.map Transaction.nonce =
        List.replicate sent.length nonce := by
    rw [List.eq_replicate_iff]
    refine ⟨List.length_map _, ?_⟩
    intro n hn
    obtain ⟨tx, hTx, hEq⟩ := List.mem_map.mp hn
    rw [← hEq]
    exact hAll tx hTx
  rw [hReplicate, List.nodup_replicate]
  omega

/- A failed transaction's receipt. -/
def failedReceipt : Receipt where
  PostState := []
  Status := ReceiptStatusFailed
  CumulativeGasUsed := 21000
  Logs := []

/-
  A challenger wallet with one signature for every
  transaction.
-/
def challengerWallet : Keystore where
  HasAddress := fun _ => true
  Sign := fun _ => (37, 1, 1)

/-
  A request block 1 of fork 0 with two failed receipts, and
  a root chain answering nonce 0 throughout: both challenges
  carry nonce 0.
-/
theorem challenges_share_nonce_two :
    ∃ sent,
      handleBlockFinalized (fun _ =>
        []) (fun (_ : ChallengeExit Nat) => [])
          ⟨9⟩
          (runDetectorStep natKeccak (fun _ =>
            []) (fun _ _ => []) true 1
            [failedReceipt, failedReceipt] (.ok 0))
          ⟨.ok challengerWallet, .ok true, fun _ =>
            .ok 0⟩ 0 1 = .ok sent ∧
        sent.length = (failedIndices [failedReceipt,
          failedReceipt]).length ∧
        (∀ tx ∈ sent, tx.nonce = 0) ∧
        ¬ (sent.map Transaction.nonce).Nodup :=
  challenges_share_nonce natKeccak (fun _ =>
    []) (fun _ => []) ⟨9⟩
    (fun _ _ => []) [failedReceipt,
      failedReceipt] 0 1 0 rfl rfl
    (fun _ => rfl) (by decide)

end Pls

end PlasmaEvm
