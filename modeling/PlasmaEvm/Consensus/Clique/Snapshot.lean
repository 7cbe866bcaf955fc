import Mathlib.Data.Finset.Card
import Mathlib.Data.List.AList
import PlasmaEvm.Common.Types
import PlasmaEvm.Control.Except

/-
  The voting snapshot of the clique engine
  (`consensus/clique/snapshot.go`).  A snapshot holds the
  authorized signers, the recent signers by block number,
  the votes cast in chronological order and their tally.
  `Snapshot.apply` runs a chain of headers over it: each
  header is sealed by an authorized signer that has not
  signed within the window of the last `limit` blocks, and
  may carry a vote on its coinbase, which passes once more
  than half of the signers agree.

  A snapshot is a record; its maps are an association list
  (`Recents`, whose values `apply` ranges over) and a
  function (`Tally`, only ever looked up).  The signature
  recovery of a header is its `Signer` field, and its hash a
  field as well.

  Key definitions include:
    * `Vote`, `Tally`, `Snapshot`, `Header`, `CliqueError`
    * `newSnapshot`, `Snapshot.cast`, `Snapshot.uncast`
    * `Snapshot.applyHeader`, `Snapshot.moveTo`,
      `Snapshot.apply`
    * `Snapshot.Reachable`

  Key statements include:
    * `Snapshot.applyHeader_eq_ok`
    * `Snapshot.apply_eq_ok`
    * `Snapshot.foldlM_moveTo`
    * `Snapshot.apply_append`
-/

------------------------------------------------------------
-- Snapshots
------------------------------------------------------------

namespace PlasmaEvm

namespace Clique

/-
  `Vote`: a signer's vote, in the block `Block`, to
  authorize or deauthorize `Address`.
-/
structure Vote where
  Signer : Address
  Block : Nat
  Address : Address
  Authorize : Bool
  deriving DecidableEq, Repr

/-
  `Tally`: the votes so far on authorizing or kicking
  someone.
-/
structure Tally where
  Authorize : Bool
  Votes : Nat
  deriving DecidableEq, Repr

/-
  `Snapshot`: the block number and block hash it was created
  at, the set of authorized signers, the recent signers by
  block number, the votes in chronological order, and their
  tally.
-/
structure Snapshot where
  Number : Nat
  Hash : Nat
  Signers : Finset Address
  Recents : AList (fun _ : Nat => Address)
  Votes : List Vote
  Tally : Address → Option Tally

/-
  The fields of a header `apply` reads: its number, its
  coinbase (the account voted on), its nonce (the vote), the
  signer `ecrecover` gives, `none` for a missing signature,
  and its hash (`Header.Hash`).
-/
structure Header where
  Number : Nat
  Coinbase : Address
  Nonce : Nat
  Signer : Option Address
  Hash : Nat
  deriving DecidableEq, Repr

/- The errors of `apply`. -/
inductive CliqueError where
  | errInvalidVotingChain
  | errMissingSignature
  | errUnauthorizedSigner
  | errRecentlySigned
  | errInvalidVote
  deriving DecidableEq, Repr

/-
  `CliqueConfig`: the epoch length, after which votes are
  reset.
-/
structure CliqueConfig where
  Epoch : Nat

/- `nonceAuthVote`, `0xffffffffffffffff`. -/
def nonceAuthVote : Nat := 2 ^ 64 - 1

/- `nonceDropVote`, `0x0000000000000000`. -/
def nonceDropVote : Nat := 0

/-
  `newSnapshot(config, sigcache, number, hash, signers)`:
  the signers, and no recent signer, vote or tally.
-/
def newSnapshot
    (number : Nat)
    (hash : Nat)
    (signers : List Address) :
    Snapshot where
  Number := number
  Hash := hash
  Signers := signers.toFinset
  Recents := ∅
  Votes := []
  Tally := fun _ => none

end Clique

end PlasmaEvm

------------------------------------------------------------
-- Votes and the Recent Signers
------------------------------------------------------------

namespace PlasmaEvm

namespace Clique

namespace Snapshot

/-
  `validVote(address, authorize)`: authorize a non-signer or
  deauthorize a signer.
-/
def validVote
    (s : Snapshot)
    (address : Address)
    (authorize : Bool) :
    Bool :=
  let signer := decide (address ∈ s.Signers)
  (signer && !authorize) || (!signer && authorize)

/-
  `cast(address, authorize)`: a valid vote adds one to the
  address's tally, or opens it.
-/
def cast
    (s : Snapshot)
    (address : Address)
    (authorize : Bool) : Bool × Snapshot :=
  if !s.validVote address authorize then (false, s)
  else
    match s.Tally address with
    | some old =>
        (true, { s with
          Tally := Function.update s.Tally address
            (some { old with Votes := old.Votes + 1 }) })
    | none =>
        (true, { s with
          Tally := Function.update s.Tally address (some
            ⟨authorize, 1⟩) })

/-
  `uncast(address, authorize)`: a counted vote takes one
  from the address's tally, deleting it at the last vote.
-/
def uncast
    (s : Snapshot)
    (address : Address)
    (authorize : Bool) : Bool × Snapshot :=
  match s.Tally address with
  | none => (false, s)
  | some tally =>
      if tally.Authorize ≠ authorize then (false, s)
      else if 1 < tally.Votes then
        (true, { s with
          Tally := Function.update s.Tally address
            (some { tally with Votes := tally.Votes - 1 }) })
      else (true, { s with
        Tally := Function.update s.Tally address none })

/-
  The length of the signing window: `len(Signers)/2 + 1`.
-/
def limit (s : Snapshot) : Nat :=
  s.Signers.card / 2 + 1

/-
  Delete the recent signer of `number - limit`, the block
  that leaves the window, when there is one.
-/
def pruneRecents (s : Snapshot) (number : Nat) : Snapshot :=
  if s.limit ≤ number then
    { s with Recents := s.Recents.erase (number - s.limit) }
  else s

/- Whether `signer` is among the recent signers. -/
def recentlySigned
    (s : Snapshot)
    (signer : Address) :
    Bool :=
  s.Recents.entries.any (fun entry => entry.2 = signer)

/-
  Discard the previous vote of `signer` on `address`,
  uncasting it (there is at most one).
-/
def discardVote
    (s : Snapshot)
    (signer address : Address) : Snapshot :=
  let same := fun vote : Vote => vote.Signer = signer ∧
    vote.Address = address
  match s.Votes.find? (fun vote => same vote) with
  | some vote =>
      { (s.uncast vote.Address vote.Authorize).2 with
        Votes := s.Votes.eraseP (fun vote => same vote) }
  | none => s

/-
  Discard every vote the deauthorized `signer` cast,
  uncasting each in order.
-/
def uncastVotesOf
    (s : Snapshot)
    (signer : Address) :
    Snapshot :=
  let uncasted :=
    s.Votes.foldl
      (fun t vote =>
        if vote.Signer = signer
          then (t.uncast vote.Address vote.Authorize).2
        else t)
      s
  { uncasted with
    Votes := s.Votes.filter (fun vote =>
      vote.Signer ≠ signer) }

/-
  A vote on `coinbase` that passed: authorize it, or
  deauthorize it (shrinking the window and discarding its
  votes); then discard the votes on it and its tally.
-/
def passVote
    (s : Snapshot)
    (number : Nat)
    (coinbase : Address)
    (authorize : Bool) : Snapshot :=
  let s :=
    if authorize then { s with
      Signers := insert coinbase s.Signers }
    else
      let s :=
        { s with Signers := s.Signers.erase coinbase }
      (s.pruneRecents number).uncastVotesOf coinbase
  { s with
    Votes := s.Votes.filter (fun vote =>
      vote.Address ≠ coinbase)
    Tally := Function.update s.Tally coinbase none }

/- The vote a header's nonce carries. -/
def headerVote
    (header : Header) :
    Except CliqueError Bool :=
  if header.Nonce = nonceAuthVote then .ok true
  else if header.Nonce = nonceDropVote then .ok false
  else .error .errInvalidVote

/-
  Cast the vote of `signer` in the block `number` on
  `coinbase` and, when it counts, record it.
-/
def castVote
    (s : Snapshot)
    (number : Nat)
    (signer coinbase : Address)
    (authorize : Bool) : Snapshot :=
  match s.cast coinbase authorize with
  | (true, s) =>
      { s with
        Votes := s.Votes ++ [⟨signer, number,
          coinbase, authorize⟩] }
  | (false, s) => s

/-
  The vote of an authorized `signer` of the block `number`
  on `coinbase`: its previous vote there is discarded, the
  new one is cast, and the tally decides.
-/
def tallyVote
    (s : Snapshot)
    (number : Nat)
    (signer coinbase : Address)
    (authorize : Bool) : Snapshot :=
  let s := (s.discardVote signer coinbase).castVote number
    signer coinbase authorize
  let tally := (s.Tally coinbase).getD ⟨false, 0⟩
  if s.Signers.card / 2 < tally.Votes then
    s.passVote number coinbase tally.Authorize
  else s

/-
  What a header does before its signer is checked: the votes
  and the tally are reset on a checkpoint block, and the
  oldest recent signer leaves the window.
-/
def prepare
    (config : CliqueConfig)
    (s : Snapshot)
    (number : Nat) : Snapshot :=
  let s :=
    if number % config.Epoch = 0 then { s with
      Votes := [],
      Tally := fun _ => none }
    else s
  s.pruneRecents number

/- `Recents[number] = signer`. -/
def addRecent
    (s : Snapshot)
    (number : Nat)
    (signer : Address) :
    Snapshot :=
  { s with Recents := s.Recents.insert number signer }

/-
  The loop body of `apply` for one header: the checkpoint
  reset and the window, the signer's checks, then its vote.
-/
def applyHeader
    (config : CliqueConfig)
    (snap : Snapshot)
    (header : Header) : Except CliqueError Snapshot := do
  let number := header.Number
  let snap := snap.prepare config number
  let signer ← match header.Signer with
    | some signer => pure signer
    | none => throw .errMissingSignature
  if signer ∉ snap.Signers then throw .errUnauthorizedSigner
  if snap.recentlySigned signer
    then throw .errRecentlySigned
  let snap := snap.addRecent number signer
  let authorize ← headerVote header
  pure (snap.tallyVote number signer header.Coinbase authorize)

/-
  The sanity check of `apply`: each header is numbered one
  more than the one before it.
-/
def consecutive : List Header → Bool
  | h₁ :: h₂ :: headers =>
      h₂.Number == h₁.Number + 1 && consecutive (h₂ :: headers)
  | _ => true

/-
  The snapshot moved to the block `number` with hash `hash`,
  as `apply` does once the headers are applied.
-/
def moveTo (s : Snapshot) (number hash : Nat) : Snapshot :=
  { s with Number := number, Hash := hash }

/-
  `apply(headers)`: a chain of consecutive headers from the
  next block, each applied in turn; the snapshot is then at
  the last, with its number and its hash.
-/
def apply
    (config : CliqueConfig)
    (s : Snapshot)
    (headers : List Header) : Except CliqueError Snapshot :=
  match headers with
  | [] => pure s
  | first :: _ =>
      if !consecutive headers
        then throw .errInvalidVotingChain
      else if first.Number ≠ s.Number + 1
        then throw .errInvalidVotingChain
      else do
        let snap ← headers.foldlM (applyHeader config) s
        pure (snap.moveTo (s.Number + headers.length)
          ((headers.getLast?.map Header.Hash).getD s.Hash))

/- The snapshots `apply` reaches from a `newSnapshot`. -/
inductive Reachable
    (config : CliqueConfig) :
    Snapshot → Prop
  | newSnapshot
      (number : Nat)
      (hash : Nat)
      (signers : List Address) :
      Reachable config (Clique.newSnapshot number hash signers)
  | apply
      {s s' : Snapshot}
      (headers : List Header)
      (hReachable : Reachable config s)
      (hApply : Snapshot.apply config s headers = .ok s') :
      Reachable config s'

end Snapshot

end Clique

end PlasmaEvm

------------------------------------------------------------
-- What a Header Does
------------------------------------------------------------

namespace PlasmaEvm

namespace Clique

namespace Snapshot

variable {config : CliqueConfig}

@[simp] theorem pruneRecents_Signers
    (s : Snapshot)
    (number : Nat) :
    (s.pruneRecents number).Signers = s.Signers := by
  unfold pruneRecents
  split <;> rfl

@[simp] theorem pruneRecents_Votes
    (s : Snapshot)
    (number : Nat) :
    (s.pruneRecents number).Votes = s.Votes := by
  unfold pruneRecents
  split <;> rfl

@[simp] theorem pruneRecents_Tally
    (s : Snapshot)
    (number : Nat) :
    (s.pruneRecents number).Tally = s.Tally := by
  unfold pruneRecents
  split <;> rfl

@[simp] theorem pruneRecents_limit
    (s : Snapshot)
    (number : Nat) :
    (s.pruneRecents number).limit = s.limit := by
  simp [limit]

@[simp] theorem uncast_Signers
    (s : Snapshot)
    (address : Address)
    (authorize : Bool) :
    (s.uncast address authorize).2.Signers = s.Signers := by
  unfold uncast
  split
  · rfl
  · split
    · rfl
    · split <;> rfl

@[simp] theorem cast_Signers
    (s : Snapshot)
    (address : Address)
    (authorize : Bool) :
    (s.cast address authorize).2.Signers = s.Signers := by
  unfold cast
  split
  · rfl
  · split <;> rfl

@[simp] theorem discardVote_Signers
    (s : Snapshot)
    (signer address : Address) :
    (s.discardVote signer address).Signers = s.Signers := by
  unfold discardVote
  dsimp only
  split
  · simp
  · rfl

@[simp] theorem castVote_Signers
    (s : Snapshot)
    (number : Nat)
    (signer coinbase : Address)
    (authorize : Bool) :
    (s.castVote number signer coinbase authorize).Signers =
      s.Signers := by
  have hSigners := cast_Signers s coinbase authorize
  unfold castVote
  rcases hCast : s.cast coinbase authorize
    with ⟨_ | _, cast⟩ <;>
    rw [hCast] at hSigners <;> exact hSigners

@[simp] theorem uncast_Recents
    (s : Snapshot)
    (address : Address)
    (authorize : Bool) :
    (s.uncast address authorize).2.Recents = s.Recents := by
  unfold uncast
  split
  · rfl
  · split
    · rfl
    · split <;> rfl

@[simp] theorem cast_Recents
    (s : Snapshot)
    (address : Address)
    (authorize : Bool) :
    (s.cast address authorize).2.Recents = s.Recents := by
  unfold cast
  split
  · rfl
  · split <;> rfl

@[simp] theorem discardVote_Recents
    (s : Snapshot)
    (signer address : Address) :
    (s.discardVote signer address).Recents = s.Recents := by
  unfold discardVote
  dsimp only
  split
  · simp
  · rfl

@[simp] theorem castVote_Recents
    (s : Snapshot)
    (number : Nat)
    (signer coinbase : Address)
    (authorize : Bool) :
    (s.castVote number signer coinbase authorize).Recents =
      s.Recents := by
  have hRecents := cast_Recents s coinbase authorize
  unfold castVote
  rcases hCast : s.cast coinbase authorize
    with ⟨_ | _, cast⟩ <;>
    rw [hCast] at hRecents <;> exact hRecents

/- The uncasting loop changes the tally only. -/
theorem foldl_uncast_eq
    (signer : Address)
    (votes : List Vote)
    (s : Snapshot) :
    ∃ tally, votes.foldl
        (fun t vote =>
          if vote.Signer = signer
            then (t.uncast vote.Address vote.Authorize).2
          else t)
        s = { s with Tally := tally } := by
  induction votes generalizing s with
  | nil => exact ⟨s.Tally, rfl⟩
  | cons vote votes ih =>
      simp only [List.foldl_cons]
      split
      · obtain ⟨tally, hTally⟩ :=
          ih (s.uncast vote.Address vote.Authorize).2
        refine ⟨tally, ?_⟩
        rw [hTally]
        unfold uncast
        split
        · rfl
        · split
          · rfl
          · split <;> rfl
      · exact ih s

@[simp] theorem uncastVotesOf_Signers
    (s : Snapshot)
    (signer : Address) :
    (s.uncastVotesOf signer).Signers = s.Signers := by
  obtain ⟨tally, hFold⟩ := foldl_uncast_eq signer s.Votes s
  simp only [uncastVotesOf, hFold]

@[simp] theorem uncastVotesOf_Recents
    (s : Snapshot)
    (signer : Address) :
    (s.uncastVotesOf signer).Recents = s.Recents := by
  obtain ⟨tally, hFold⟩ := foldl_uncast_eq signer s.Votes s
  simp only [uncastVotesOf, hFold]

/-
  A passed vote changes the signers by its address, and a
  deauthorization also the window.
-/
theorem passVote_Signers_Recents
    (s : Snapshot)
    (number : Nat)
    (coinbase : Address)
    (authorize : Bool) :
    (authorize = true ∧ (s.passVote number coinbase
      authorize).Signers =
        insert coinbase s.Signers ∧
      (s.passVote number coinbase
        authorize).Recents = s.Recents) ∨
    (authorize = false ∧ (s.passVote number coinbase
      authorize).Signers =
        s.Signers.erase coinbase ∧
      (s.passVote number coinbase authorize).Recents =
        ({ s with Signers := s.Signers.erase coinbase }.pruneRecents
          number).Recents) := by
  cases authorize with
  | true => exact .inl ⟨rfl, rfl, rfl⟩
  | false =>
      exact .inr ⟨rfl, by simp [passVote],
        by simp [passVote]⟩

@[simp] theorem prepare_Signers
    (s : Snapshot)
    (number : Nat) :
    (s.prepare config number).Signers = s.Signers := by
  unfold prepare
  split <;> simp

/-
  The window a header leaves does not depend on a
  checkpoint.
-/
theorem prepare_Recents (s : Snapshot) (number : Nat) :
    (s.prepare config number).Recents =
      (s.pruneRecents number).Recents := by
  unfold prepare pruneRecents limit
  split
  · dsimp only
    split <;> rfl
  · rfl

@[simp] theorem addRecent_Signers
    (s : Snapshot)
    (number : Nat)
    (signer : Address) :
    (s.addRecent number signer).Signers = s.Signers := rfl

@[simp] theorem addRecent_Votes
    (s : Snapshot)
    (number : Nat)
    (signer : Address) :
    (s.addRecent number signer).Votes = s.Votes := rfl

@[simp] theorem addRecent_Tally
    (s : Snapshot)
    (number : Nat)
    (signer : Address) :
    (s.addRecent number signer).Tally = s.Tally := rfl

/-
  The inversion of `applyHeader`: a header that applies has
  a signer, an authorized one, not among the recent signers
  once the oldest has left the window, and a vote.
-/
theorem applyHeader_eq_ok
    {snap snap' : Snapshot}
    {header : Header}
    (h : applyHeader config snap header = .ok snap') :
    ∃ signer authorize,
      header.Signer = some signer ∧
      headerVote header = .ok authorize ∧
      signer ∈ snap.Signers ∧
      (snap.prepare config header.Number).recentlySigned
        signer = false ∧
      snap' = ((snap.prepare config
        header.Number).addRecent header.Number
        signer).tallyVote header.Number signer
          header.Coinbase authorize := by
  unfold applyHeader at h
  cases hSigner : header.Signer with
  | none => simp [hSigner] at h
  | some signer =>
      by_cases hMember : signer ∈ snap.Signers
      · by_cases hRecent :
            (snap.prepare config
              header.Number).recentlySigned signer = true
        · simp [hSigner, hMember, hRecent] at h
        · simp only [hSigner, hMember, hRecent,
            prepare_Signers, pure_bind,
            bind_pure_comp, not_true_eq_false, if_false,
              Bool.false_eq_true] at h
          obtain ⟨authorize, hVote, rfl⟩ :=
            Except.map_eq_ok.mp h
          exact ⟨signer, authorize, rfl, hVote, hMember,
            by simpa using hRecent, rfl⟩
      · simp [hSigner, hMember] at h

/-
  The inversion of `apply`: no header, or consecutive
  headers from the next block, folded, with the number of
  the last.
-/
theorem apply_eq_ok
    {s s' : Snapshot}
    {headers : List Header}
    (h : apply config s headers = .ok s') :
    headers = [] ∧ s' = s ∨
      consecutive headers = true ∧
      (∀ first ∈ headers.head?,
        first.Number = s.Number + 1) ∧
      ∃ snap,
        headers.foldlM (applyHeader config) s = .ok snap ∧
        s' = snap.moveTo (s.Number + headers.length)
          ((headers.getLast?.map Header.Hash).getD s.Hash) := by
  unfold apply at h
  cases headers with
  | nil =>
      simp only [pure, Except.pure, Except.ok.injEq] at h
      exact .inl ⟨rfl, h.symm⟩
  | cons first rest =>
      by_cases hConsecutive : consecutive (first :: rest) = true
      · by_cases hFirst : first.Number = s.Number + 1
        · simp only [hConsecutive, hFirst, Bool.not_true,
            Bool.false_eq_true,
            if_false, ne_eq, not_true_eq_false] at h
          obtain ⟨snap, hFold, hResult⟩ :=
            Except.bind_eq_ok.mp h
          simp only [Except.pure_eq_ok] at hResult
          exact .inr ⟨hConsecutive,
            by simp [hFirst], snap, hFold,
            hResult.symm⟩
        · simp [hConsecutive, hFirst] at h
      · simp [hConsecutive] at h

/-
  The rest of a consecutive chain is consecutive from the
  next number.
-/
theorem consecutive_cons
    {header : Header}
    {headers : List Header}
    (h : consecutive (header :: headers) = true) :
    consecutive headers = true ∧
      ∀ next ∈ headers.head?, next.Number =
        header.Number + 1 := by
  cases headers with
  | nil => simp [consecutive]
  | cons next headers =>
      simp only [consecutive, Bool.and_eq_true,
        beq_iff_eq] at h
      exact ⟨h.2, by simp [h.1]⟩

/-
  One header from the next block is applied as its loop
  body.
-/
theorem apply_singleton
    {s : Snapshot}
    {header : Header}
    (hNumber : header.Number = s.Number + 1) :
    apply config s [header] =
      (fun snap =>
        snap.moveTo (s.Number + 1) header.Hash) <$>
        applyHeader config s header := by
  cases hApply : applyHeader config s header with
  | error e => simp [apply, consecutive, hNumber, hApply]
  | ok snap => simp [apply, consecutive, hNumber, hApply]

end Snapshot

end Clique

end PlasmaEvm

------------------------------------------------------------
-- Moving a Snapshot to Another Block
------------------------------------------------------------

namespace PlasmaEvm

namespace Clique

namespace Snapshot

section MoveTo

variable (number hash : Nat)

@[simp] theorem moveTo_Number (s : Snapshot) :
    (s.moveTo number hash).Number = number := rfl

@[simp] theorem moveTo_Hash (s : Snapshot) :
    (s.moveTo number hash).Hash = hash := rfl

@[simp] theorem moveTo_Signers (s : Snapshot) :
    (s.moveTo number hash).Signers = s.Signers := rfl

@[simp] theorem moveTo_Recents (s : Snapshot) :
    (s.moveTo number hash).Recents = s.Recents := rfl

@[simp] theorem moveTo_Votes (s : Snapshot) :
    (s.moveTo number hash).Votes = s.Votes := rfl

@[simp] theorem moveTo_Tally (s : Snapshot) :
    (s.moveTo number hash).Tally = s.Tally := rfl

@[simp] theorem moveTo_moveTo
    (s : Snapshot)
    (number' hash' : Nat) :
    (s.moveTo number' hash').moveTo number hash =
      s.moveTo number hash := rfl

/-
  No step of a header reads the snapshot's number or hash:
  each commutes with moving the snapshot.
-/
theorem cast_moveTo
    (s : Snapshot)
    (address : Address)
    (authorize : Bool) :
    (s.moveTo number hash).cast address authorize =
      ((s.cast address authorize).1,
        (s.cast address authorize).2.moveTo number hash) := by
  unfold cast
  rw [show (s.moveTo number hash).validVote address
    authorize = s.validVote address authorize
    from rfl, moveTo_Tally]
  by_cases hValid : s.validVote address authorize = true
  · simp only [hValid, Bool.not_true,
      Bool.false_eq_true, if_false]
    cases s.Tally address <;> rfl
  · simp only [hValid, Bool.not_false, if_true]

theorem uncast_moveTo
    (s : Snapshot)
    (address : Address)
    (authorize : Bool) :
    (s.moveTo number hash).uncast address authorize =
      ((s.uncast address authorize).1,
        (s.uncast address authorize).2.moveTo number hash) := by
  unfold uncast
  rw [moveTo_Tally]
  cases s.Tally address with
  | none => rfl
  | some tally =>
      by_cases hAuthorize : tally.Authorize ≠ authorize
      · simp only [if_pos hAuthorize]
      · by_cases hVotes : 1 < tally.Votes
        · simp only [if_neg hAuthorize, if_pos hVotes]
          rfl
        · simp only [if_neg hAuthorize, if_neg hVotes]
          rfl

theorem pruneRecents_moveTo
    (s : Snapshot)
    (n : Nat) :
    (s.moveTo number hash).pruneRecents n =
      (s.pruneRecents n).moveTo number hash := by
  unfold pruneRecents limit
  rw [moveTo_Signers]
  by_cases hLimit : s.Signers.card / 2 + 1 ≤ n
  · simp only [if_pos hLimit]
    rfl
  · simp only [if_neg hLimit]

theorem uncastVotesOf_moveTo
    (s : Snapshot)
    (signer : Address) :
    (s.moveTo number hash).uncastVotesOf signer =
      (s.uncastVotesOf signer).moveTo number hash := by
  unfold uncastVotesOf
  suffices hLoop : ∀ (votes : List Vote) (t : Snapshot),
      votes.foldl (fun t vote =>
          if vote.Signer = signer
            then (t.uncast vote.Address vote.Authorize).2 else t)
        (t.moveTo number hash) =
      (votes.foldl (fun t vote =>
          if vote.Signer = signer
            then (t.uncast vote.Address vote.Authorize).2 else t)
        t).moveTo number hash by
    simp only [moveTo_Votes]
    rw [hLoop]
    rfl
  intro votes
  induction votes with
  | nil => intro t; rfl
  | cons vote votes ih =>
      intro t
      simp only [List.foldl_cons]
      split
      · rw [uncast_moveTo, ih]
      · rw [ih]

theorem discardVote_moveTo
    (s : Snapshot)
    (signer address : Address) :
    (s.moveTo number hash).discardVote signer address =
      (s.discardVote signer address).moveTo number hash := by
  unfold discardVote
  simp only [moveTo_Votes]
  split
  · rw [uncast_moveTo]
    rfl
  · rfl

theorem passVote_moveTo
    (s : Snapshot)
    (n : Nat)
    (coinbase : Address)
    (authorize : Bool) :
    (s.moveTo number hash).passVote n coinbase authorize =
      (s.passVote n coinbase authorize).moveTo number hash := by
  cases authorize with
  | true => rfl
  | false =>
      rcases s with ⟨n₀, h₀, signers, recents, votes, tally⟩
      unfold passVote
      simp only [Bool.false_eq_true, if_false, moveTo]
      rw [show (⟨number, hash, signers.erase coinbase,
        recents, votes, tally⟩ : Snapshot) =
          (⟨n₀, h₀, signers.erase coinbase, recents, votes,
            tally⟩ : Snapshot).moveTo number hash
          from rfl,
        pruneRecents_moveTo, uncastVotesOf_moveTo]
      rfl

theorem castVote_moveTo
    (s : Snapshot)
    (n : Nat)
    (signer coinbase : Address)
    (authorize : Bool) :
    (s.moveTo number hash).castVote n signer coinbase authorize =
      (s.castVote n signer coinbase authorize).moveTo
        number hash := by
  unfold castVote
  rw [cast_moveTo]
  rcases s.cast coinbase authorize with ⟨_ | _, t⟩ <;> rfl

theorem tallyVote_moveTo
    (s : Snapshot)
    (n : Nat)
    (signer coinbase : Address)
    (authorize : Bool) :
    (s.moveTo number hash).tallyVote n signer coinbase authorize =
      (s.tallyVote n signer coinbase authorize).moveTo
        number hash := by
  unfold tallyVote
  rw [discardVote_moveTo, castVote_moveTo]
  simp only [moveTo_Tally, moveTo_Signers]
  generalize (s.discardVote signer coinbase).castVote n
    signer coinbase authorize = t
  by_cases hPass : t.Signers.card / 2 <
    ((t.Tally coinbase).getD ⟨false, 0⟩).Votes
  · simp only [hPass, if_true, passVote_moveTo]
  · simp only [hPass, if_false]

theorem prepare_moveTo
    (config : CliqueConfig)
    (s : Snapshot)
    (n : Nat) :
    (s.moveTo number hash).prepare config n =
      (s.prepare config n).moveTo number hash := by
  unfold prepare
  by_cases hEpoch : n % config.Epoch = 0
  · simp only [if_pos hEpoch]
    exact pruneRecents_moveTo number hash { s with
      Votes := [],
      Tally := fun _ => none } n
  · simp only [if_neg hEpoch]
    exact pruneRecents_moveTo number hash s n

theorem recentlySigned_moveTo
    (s : Snapshot)
    (signer : Address) :
    (s.moveTo number hash).recentlySigned signer =
      s.recentlySigned signer := rfl

theorem addRecent_moveTo
    (s : Snapshot)
    (n : Nat)
    (signer : Address) :
    (s.moveTo number hash).addRecent n signer =
      (s.addRecent n signer).moveTo number hash := rfl

theorem applyHeader_moveTo
    (config : CliqueConfig)
    (s : Snapshot)
    (header : Header) :
    applyHeader config (s.moveTo number hash) header =
      (fun t => t.moveTo number hash) <$>
        applyHeader config s header := by
  unfold applyHeader
  dsimp only
  rw [prepare_moveTo]
  cases header.Signer with
  | none => rfl
  | some signer =>
      simp only [moveTo_Signers, recentlySigned_moveTo,
        addRecent_moveTo]
      by_cases hMember : signer ∈ s.Signers
      · by_cases hRecent : (s.prepare config
          header.Number).recentlySigned signer = true
        · simp [hMember, hRecent]
        · cases headerVote header with
          | error e => simp [hMember, hRecent]
          | ok authorize =>
              simp [hMember, hRecent, tallyVote_moveTo]
      · simp [hMember]

/- The loop of `apply`, from a moved snapshot. -/
theorem foldlM_moveTo
    (config : CliqueConfig)
    (headers : List Header)
    (s : Snapshot) :
    headers.foldlM (applyHeader config) (s.moveTo number hash) =
      (fun t => t.moveTo number hash) <$>
        headers.foldlM (applyHeader config) s := by
  induction headers generalizing s with
  | nil => rfl
  | cons header headers ih =>
      simp only [List.foldlM_cons]
      rw [applyHeader_moveTo]
      cases applyHeader config s header with
      | error e => rfl
      | ok t => exact ih t

end MoveTo

end Snapshot

end Clique

end PlasmaEvm

------------------------------------------------------------
-- Apply Is a Fold
------------------------------------------------------------

namespace PlasmaEvm

namespace Clique

namespace Snapshot

/-
  Two chains join into a consecutive one when each is, and
  the second starts one block after the first ends.
-/
theorem consecutive_append (h₁ h₂ : List Header) :
    consecutive (h₁ ++ h₂) = true ↔
      consecutive h₁ = true ∧ consecutive h₂ = true ∧
        ∀ last ∈ h₁.getLast?, ∀ next ∈ h₂.head?,
          next.Number = last.Number + 1 := by
  induction h₁ with
  | nil => simp [consecutive]
  | cons header headers ih =>
      cases headers with
      | nil =>
          cases h₂ with
          | nil => simp [consecutive]
          | cons next rest =>
              simp [consecutive, Bool.and_eq_true, and_comm]
      | cons second rest =>
          simp only [List.cons_append, consecutive,
            Bool.and_eq_true, beq_iff_eq] at ih ⊢
          rw [ih]
          simp [List.getLast?_cons_cons, and_assoc]

/-
  The last header of a consecutive chain is as many blocks
  after the first as follow it.
-/
theorem getLast_Number_of_consecutive
    (first : Header)
    (rest : List Header)
    (h : consecutive (first :: rest) = true) :
    ∀ last ∈ (first :: rest).getLast?,
      last.Number = first.Number + rest.length := by
  induction rest generalizing first with
  | nil => simp
  | cons next rest ih =>
      rcases consecutive_cons h with ⟨hRest, hNext⟩
      intro last hLast
      have hNumber : next.Number = first.Number + 1 :=
        hNext next (by simp)
      rw [List.getLast?_cons_cons] at hLast
      rw [ih next hRest last hLast, hNumber,
        List.length_cons]
      omega

/-
  `apply` on a chain of at least one header, its sanity
  check as one condition.
-/
theorem apply_cons
    (config : CliqueConfig)
    (s : Snapshot)
    (first : Header)
    (rest : List Header) :
    apply config s (first :: rest) =
      if consecutive (first :: rest) = true ∧
        first.Number = s.Number + 1 then
        (fun snap =>
          snap.moveTo (s.Number + (rest.length + 1))
          (((first :: rest).getLast?.map
            Header.Hash).getD s.Hash)) <$>
          (first :: rest).foldlM (applyHeader config) s
      else .error .errInvalidVotingChain := by
  unfold apply
  by_cases hConsecutive : consecutive (first :: rest) = true
  · by_cases hFirst : first.Number = s.Number + 1
    · simp only [hConsecutive, hFirst, Bool.not_true,
        Bool.false_eq_true, if_false, ne_eq,
        not_true_eq_false, and_self, if_true,
          List.length_cons]
      cases (first :: rest).foldlM (applyHeader config) s <;> rfl
    · simp [hConsecutive, hFirst]
  · simp [hConsecutive]

/-
  Applying a chain in two pieces is applying it whole: the
  first piece applies and the second applies to its snapshot
  exactly when the whole chain applies, and the snapshots
  are the same.
-/
theorem apply_append
    (config : CliqueConfig)
    (s s' : Snapshot)
    (h₁ h₂ : List Header) :
    apply config s (h₁ ++ h₂) = .ok s' ↔
      ∃ s₁, apply config s h₁ = .ok s₁ ∧
        apply config s₁ h₂ = .ok s' := by
  cases h₁ with
  | nil => simp [apply, pure, Except.pure]
  | cons a as =>
      cases h₂ with
      | nil => simp [apply, pure, Except.pure]
      | cons b bs =>
          rw [List.cons_append,
            apply_cons, ← List.cons_append,
            List.foldlM_append]
          by_cases hFirst : consecutive (a :: as) = true ∧
            a.Number = s.Number + 1
          · rcases hFirst with ⟨hConsecutive₁, hNumber₁⟩
            obtain ⟨last, hLastMem⟩ : ∃ last,
              (a :: as).getLast? = some last :=
              ⟨_, List.getLast?_eq_some_getLast
                (List.cons_ne_nil a as)⟩
            have hLast : last.Number = s.Number +
              (as.length + 1) := by
              rw [getLast_Number_of_consecutive a as
                hConsecutive₁ last hLastMem, hNumber₁]
              omega
            have hJoin : (consecutive (a :: as ++ b :: bs) =
              true ∧ a.Number = s.Number + 1) ↔
                (consecutive (b :: bs) = true ∧
                  b.Number =
                    s.Number + (as.length + 1) + 1) := by
              rw [consecutive_append]
              simp [hConsecutive₁, hNumber₁,
                hLastMem, hLast]
            have hApply₁ : apply config s (a :: as) =
                (fun snap => snap.moveTo (s.Number +
                  (as.length + 1))
                  (((a :: as).getLast?.map
                    Header.Hash).getD s.Hash)) <$>
                  (a :: as).foldlM (applyHeader config) s := by
              rw [apply_cons,
                if_pos ⟨hConsecutive₁, hNumber₁⟩]
            rw [hApply₁]
            cases hFold₁ : (a ::
              as).foldlM (applyHeader config) s with
            | error e =>
                constructor
                · intro h
                  split at h <;> cases h
                · rintro ⟨s₁, hApply, -⟩
                  cases hApply
            | ok snap₁ =>
                have hMove : ∀ s₁, ((fun snap =>
                  snap.moveTo (s.Number + (as.length + 1))
                    (((a :: as).getLast?.map
                      Header.Hash).getD s.Hash)) <$>
                    (Except.ok snap₁ : Except CliqueError
                      Snapshot)) = .ok s₁ ↔
                    s₁ = snap₁.moveTo (s.Number +
                      (as.length + 1)) last.Hash := by
                  intro s₁
                  simp [hLastMem, eq_comm]
                simp only [hMove, exists_eq_left]
                rw [apply_cons,
                  foldlM_moveTo, moveTo_Number]
                simp only [hJoin]
                by_cases hSecond : consecutive (b :: bs) = true ∧
                    b.Number =
                      s.Number + (as.length + 1) + 1
                · have hNumber : s.Number + ((as ++ b ::
                    bs).length + 1) =
                      s.Number + (as.length + 1) +
                        (bs.length + 1) := by
                    simp only [List.length_append,
                      List.length_cons]
                    omega
                  have hHash : ((a :: as ++ b ::
                    bs).getLast?.map Header.Hash).getD s.Hash =
                      (((b :: bs).getLast?.map
                        Header.Hash).getD last.Hash) := by
                    rw [List.cons_append, ← List.cons_append,
                      List.getLast?_append_of_ne_nil _
                        (List.cons_ne_nil b bs),
                      List.getLast?_eq_some_getLast
                        (List.cons_ne_nil b bs)]
                    rfl
                  rw [if_pos hSecond, if_pos hSecond,
                    hNumber, hHash, Functor.map_map]
                  rfl
                · rw [if_neg hSecond, if_neg hSecond]
          · have hWhole : ¬(consecutive (a :: as ++ b ::
              bs) = true ∧ a.Number = s.Number + 1) := by
              rintro ⟨hConsecutive, hNumber⟩
              exact hFirst ⟨((consecutive_append _ _).mp
                hConsecutive).1, hNumber⟩
            rw [if_neg hWhole, apply_cons, if_neg hFirst]
            simp

end Snapshot

end Clique

end PlasmaEvm

------------------------------------------------------------
-- A Vote That Passes
------------------------------------------------------------

namespace PlasmaEvm

namespace Clique

namespace Snapshot

/-
  Two signers, 1 and 2, seal the blocks 1 and 2, each voting
  to authorize 3; the second vote passes.
-/
def votingHeaders : List Header :=
  [⟨1, ⟨3⟩, nonceAuthVote, some ⟨1⟩, 1⟩, ⟨2, ⟨3⟩,
    nonceAuthVote, some ⟨2⟩, 2⟩]

/- The snapshot after the two votes. -/
def votedSnapshot : Snapshot :=
  match (newSnapshot 0 0 [⟨1⟩, ⟨2⟩]).apply
    ⟨30000⟩ votingHeaders with
  | .ok s => s
  | .error _ => newSnapshot 0 0 []

example : votedSnapshot.Signers = {⟨1⟩, ⟨2⟩, ⟨3⟩} ∧
    votedSnapshot.Votes = [] := by
  decide

/-
  The snapshot after the first vote only: signer 1's vote to
  authorize 3 is pending, one vote short of a majority.
-/
def pendingSnapshot : Snapshot :=
  match (newSnapshot 0 0 [⟨1⟩, ⟨2⟩]).apply ⟨30000⟩
      (votingHeaders.take 1) with
  | .ok s => s
  | .error _ => newSnapshot 0 0 []

theorem pendingSnapshot_reachable :
    Reachable ⟨30000⟩ pendingSnapshot :=
  Reachable.apply (votingHeaders.take 1)
    (.newSnapshot 0 0 [⟨1⟩, ⟨2⟩]) rfl

example :
    pendingSnapshot.Signers = {⟨1⟩, ⟨2⟩} ∧
    pendingSnapshot.Votes.length = 1 ∧
    (pendingSnapshot.Tally ⟨3⟩).map Tally.Votes = some 1 := by
  decide

end Snapshot

end Clique

end PlasmaEvm
