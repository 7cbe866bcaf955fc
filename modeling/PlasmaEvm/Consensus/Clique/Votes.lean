import PlasmaEvm.Consensus.Clique.Snapshot

/-
  The vote tally of a clique snapshot.  `cast` and `uncast`
  keep `Tally` as a cache of `Votes`: after every header an
  address has a tally exactly when it has votes, the tally
  counts them, and it is for the side that the address's
  membership of the signers gives (authorize an outsider,
  kick a signer).  Every vote is a signer's, and a signer
  has at most one vote on an address.

  The tally is stated as `tallyOf` of the counts of the
  votes; `cast`, `uncast` and the uncasting loop of a
  deauthorized signer are proved to move it along the
  counts.

  Key definitions include:
    * `votesOn`, `tallyOf`
    * `Snapshot.VotesInv`

  Key statements include:
    * `Snapshot.uncast_tallyOf`, `Snapshot.cast_tallyOf`
    * `Snapshot.uncastVotesOf_eq`
    * `Snapshot.VotesInv.applyHeader`
    * `Snapshot.VotesInv.reachable`
-/

------------------------------------------------------------
-- Tallies of Counts
------------------------------------------------------------

namespace PlasmaEvm

namespace Clique

/- The number of votes on `address`. -/
def votesOn (votes : List Vote) (address : Address) : Nat :=
  votes.countP (fun vote => vote.Address = address)

/-
  The tally the counts give: none for an address without
  votes, otherwise the count, for the side `authorize`
  gives.
-/
def tallyOf
    (authorize : Address → Bool)
    (count : Address → Nat)
    (address : Address) : Option Tally :=
  if count address = 0
    then none else some ⟨authorize address, count address⟩

@[simp] theorem votesOn_nil (address : Address) :
    votesOn [] address = 0 := rfl

theorem votesOn_append_singleton
    (votes : List Vote)
    (vote : Vote)
    (address : Address) :
    votesOn (votes ++ [vote]) address =
      votesOn votes address + if vote.Address = address
        then 1 else 0 := by
  simp [votesOn, List.countP_append]

/-
  The votes on an address split between a filter and its
  complement.
-/
theorem votesOn_filter_add
    (votes : List Vote)
    (p : Vote → Bool)
    (address : Address) :
    votesOn (votes.filter p) address +
      votesOn (votes.filter (fun vote => !p vote))
        address = votesOn votes address := by
  induction votes with
  | nil => rfl
  | cons vote votes ih =>
      by_cases hp : p vote = true
      · by_cases hAddress : vote.Address = address <;>
          simp [votesOn, hp, hAddress] at ih ⊢ <;> omega
      · by_cases hAddress : vote.Address = address <;>
          simp [votesOn, hp, hAddress] at ih ⊢ <;> omega

theorem votesOn_filter_le
    (votes : List Vote)
    (p : Vote → Bool)
    (address : Address) :
    votesOn (votes.filter p) address ≤
      votesOn votes address := by
  have := votesOn_filter_add votes p address
  omega

/- Votes on other addresses do not count. -/
theorem votesOn_filter_address_ne
    (votes : List Vote)
    {coinbase address : Address}
    (hNe : address ≠ coinbase) :
    votesOn (votes.filter (fun vote =>
      vote.Address ≠ coinbase)) address =
      votesOn votes address := by
  unfold votesOn
  rw [List.countP_filter]
  congr 1
  funext vote
  by_cases hAddress : vote.Address = address
  · simp [hAddress, hNe]
  · simp [hAddress]

theorem votesOn_filter_address_self
    (votes : List Vote)
    (coinbase : Address) :
    votesOn (votes.filter (fun vote =>
      vote.Address ≠ coinbase)) coinbase = 0 := by
  simp [votesOn, List.countP_eq_zero]

/- Setting one count moves one tally. -/
theorem tallyOf_update
    (authorize : Address → Bool)
    (count : Address → Nat)
    (address : Address)
    (n : Nat) :
    tallyOf authorize (Function.update count address n) =
      Function.update (tallyOf authorize count) address
        (if n = 0
          then none else some ⟨authorize address, n⟩) := by
  funext a
  by_cases h : a = address
  · subst h
    simp [tallyOf]
  · simp [tallyOf, Function.update_of_ne h]

/- No votes, no tally. -/
theorem tallyOf_nil (authorize : Address → Bool) :
    tallyOf authorize (votesOn []) = fun _ => none := by
  funext a
  simp [tallyOf]

end Clique

end PlasmaEvm

------------------------------------------------------------
-- Casting and Uncasting
------------------------------------------------------------

namespace PlasmaEvm

namespace Clique

namespace Snapshot

variable {authorize : Address → Bool}
variable {count : Address → Nat}

/-
  Uncasting a counted vote on an address takes one from its
  count.
-/
theorem uncast_tallyOf
    {s : Snapshot}
    {address : Address}
    (hTally : s.Tally = tallyOf authorize count)
    (hCount : 0 < count address) :
    s.uncast address (authorize address) =
      (true, { s with
        Tally := tallyOf authorize
          (Function.update count address
            (count address - 1)) }) := by
  have hSome : s.Tally address = some ⟨authorize address,
    count address⟩ := by
    simp [hTally, tallyOf, hCount.ne']
  rw [tallyOf_update, ← hTally]
  unfold uncast
  rw [hSome]
  by_cases hMore : 1 < count address
  · have hLeft : count address - 1 ≠ 0 := by omega
    simp [hMore, hLeft]
  · have hLast : count address - 1 = 0 := by omega
    simp [hMore, hLast]

/- Casting a valid vote adds one to its address's count. -/
theorem cast_tallyOf
    {s : Snapshot}
    {address : Address}
    (hTally : s.Tally = tallyOf authorize count)
    (hValid : s.validVote address (authorize address) = true) :
    s.cast address (authorize address) =
      (true, { s with
        Tally := tallyOf authorize
          (Function.update count address
            (count address + 1)) }) := by
  rw [tallyOf_update, ← hTally]
  unfold cast
  rw [hValid]
  by_cases hZero : count address = 0
  · have hNone : s.Tally address = none :=
      by simp [hTally, tallyOf, hZero]
    simp [hNone, hZero]
  · have hSome : s.Tally address = some ⟨authorize address,
      count address⟩ := by
      simp [hTally, tallyOf, hZero]
    simp [hSome]

/-
  The uncasting loop over the votes of a deauthorized signer
  takes each of its votes from its address's count.
-/
theorem foldl_uncast_tallyOf
    (signer : Address)
    (votes : List Vote)
    {s : Snapshot}
    (hTally : s.Tally = tallyOf authorize count)
    (hAuthorize : ∀ vote ∈ votes, vote.Signer = signer →
      vote.Authorize = authorize vote.Address)
    (hCount : ∀ address,
      votesOn (votes.filter (fun vote =>
        vote.Signer = signer)) address ≤
        count address) :
    votes.foldl
        (fun t vote =>
          if vote.Signer = signer
            then (t.uncast vote.Address vote.Authorize).2
          else t)
        s =
      { s with
        Tally := tallyOf authorize (fun address =>
          count address -
            votesOn (votes.filter (fun vote =>
              vote.Signer = signer)) address) } := by
  induction votes generalizing s count with
  | nil =>
      simp only [List.foldl_nil, List.filter_nil,
        votesOn_nil, Nat.sub_zero]
      rw [← hTally]
  | cons vote votes ih =>
      have hRest : ∀ vote' ∈ votes, vote'.Signer = signer →
          vote'.Authorize = authorize vote'.Address :=
        fun vote' hMem => hAuthorize vote'
          (List.mem_cons_of_mem vote hMem)
      by_cases hSigner : vote.Signer = signer
      · have hFilter : (vote :: votes).filter (fun vote =>
          vote.Signer = signer) =
            vote :: votes.filter (fun vote =>
              vote.Signer = signer) := by
          simp [hSigner]
        have hOne : ∀ address,
            votesOn ((vote :: votes).filter (fun vote =>
              vote.Signer = signer))
                address =
              votesOn (votes.filter (fun vote =>
                vote.Signer = signer)) address +
                if vote.Address = address
                  then 1 else 0 := by
          intro address
          rw [hFilter]
          by_cases hAddress : vote.Address = address <;>
            simp [votesOn, hAddress, Nat.add_comm]
        have hPositive : 0 < count vote.Address := by
          have := hCount vote.Address
          rw [hOne] at this
          simp at this
          omega
        have hUncast := uncast_tallyOf hTally hPositive
        rw [← hAuthorize vote List.mem_cons_self
          hSigner] at hUncast
        simp only [List.foldl_cons, hSigner,
          if_true, hUncast]
        have hCounts :
            (fun address =>
              Function.update count vote.Address
                (count vote.Address - 1) address -
                votesOn (votes.filter (fun vote =>
                  vote.Signer = signer)) address) =
            (fun address => count address -
              votesOn ((vote :: votes).filter (fun vote =>
                vote.Signer = signer))
                address) := by
          funext address
          rw [hOne]
          by_cases hAddress : vote.Address = address
          · subst hAddress
            simp
            omega
          · simp [Function.update_of_ne
              (Ne.symm hAddress), hAddress]
        rw [ih rfl hRest, hCounts]
        · intro address
          have := hCount address
          rw [hOne] at this
          by_cases hAddress : vote.Address = address
          · subst hAddress
            simp at this ⊢
            omega
          · simp [Function.update_of_ne (Ne.symm hAddress),
              hAddress] at this ⊢
            exact this
      · have hFilter : (vote :: votes).filter (fun vote =>
          vote.Signer = signer) =
            votes.filter (fun vote =>
              vote.Signer = signer) := by
          simp [hSigner]
        simp only [List.foldl_cons, hSigner,
          if_false, hFilter]
        exact ih hTally hRest (fun address =>
          by simpa [hFilter] using hCount address)

/-
  `uncastVotesOf`: the votes of the signer leave, and the
  tally follows the counts of the rest.
-/
theorem uncastVotesOf_eq
    {s : Snapshot}
    (signer : Address)
    (hTally : s.Tally = tallyOf authorize (votesOn s.Votes))
    (hAuthorize : ∀ vote ∈ s.Votes,
      vote.Authorize = authorize vote.Address) :
    s.uncastVotesOf signer =
      { s with
        Votes := s.Votes.filter (fun vote =>
          vote.Signer ≠ signer)
        Tally := tallyOf authorize
          (votesOn (s.Votes.filter (fun vote =>
            vote.Signer ≠ signer))) } := by
  unfold uncastVotesOf
  rw [foldl_uncast_tallyOf signer s.Votes hTally
    (fun vote hMem _ => hAuthorize vote hMem)
    (fun address => votesOn_filter_le _ _ address)]
  simp only [Snapshot.mk.injEq, true_and]
  congr 1
  funext address
  have hSplit := votesOn_filter_add s.Votes (fun vote =>
    vote.Signer = signer)
    address
  simp only [decide_not] at hSplit ⊢
  omega

end Snapshot

end Clique

end PlasmaEvm

------------------------------------------------------------
-- The Tally Caches the Votes
------------------------------------------------------------

namespace PlasmaEvm

namespace Clique

/-
  Clearing the tally of an address without votes, where the
  counts and sides agree elsewhere, gives the tally of the
  new counts.
-/
theorem update_tallyOf_none
    {authorize authorize' : Address → Bool}
    {count count' : Address → Nat}
    {coinbase : Address}
    (hOther : ∀ address, address ≠ coinbase →
      authorize' address = authorize address ∧
        count' address = count address)
    (hNone : count' coinbase = 0) :
    Function.update (tallyOf authorize count) coinbase none =
      tallyOf authorize' count' := by
  funext address
  by_cases hAddress : address = coinbase
  · subst hAddress
    simp [tallyOf, hNone]
  · obtain ⟨hSide, hCount⟩ := hOther address hAddress
    simp [Function.update_of_ne hAddress,
      tallyOf, hSide, hCount]

namespace Snapshot

variable {config : CliqueConfig}

/-
  The tally is the cache of the votes; every vote is for the
  side its address's membership of the signers gives, is a
  signer's, and a signer votes once on an address.
-/
structure VotesInv (s : Snapshot) : Prop where
  tally : s.Tally =
    tallyOf (fun address => decide (address ∉ s.Signers))
      (votesOn s.Votes)
  authorize : ∀ vote ∈ s.Votes,
    vote.Authorize = decide (vote.Address ∉ s.Signers)
  signers : ∀ vote ∈ s.Votes, vote.Signer ∈ s.Signers
  pairs : (s.Votes.map fun vote => (vote.Signer,
    vote.Address)).Nodup

/- No vote: the invariant holds whatever the signers. -/
theorem VotesInv.of_nil
    {s : Snapshot}
    (hVotes : s.Votes = [])
    (hTally : s.Tally = fun _ => none) :
    VotesInv s where
  tally := by rw [hTally, hVotes, tallyOf_nil]
  authorize := by simp [hVotes]
  signers := by simp [hVotes]
  pairs := by simp [hVotes]

theorem VotesInv.newSnapshot
    (number : Nat)
    (hash : Nat)
    (signers : List Address) :
    VotesInv (Clique.newSnapshot number hash signers) :=
  VotesInv.of_nil rfl rfl

/-
  The invariant reads the signers, the votes and the tally
  only.
-/
theorem VotesInv.of_eq
    {s s' : Snapshot}
    (h : VotesInv s)
    (hSigners : s'.Signers = s.Signers)
    (hVotes : s'.Votes = s.Votes)
    (hTally : s'.Tally = s.Tally) :
    VotesInv s' := by
  constructor
  · rw [hTally, hSigners, hVotes]
    exact h.tally
  · rw [hVotes, hSigners]
    exact h.authorize
  · rw [hVotes, hSigners]
    exact h.signers
  · rw [hVotes]
    exact h.pairs

theorem VotesInv.prepare
    {s : Snapshot}
    (h : VotesInv s)
    (number : Nat) :
    VotesInv (s.prepare config number) := by
  unfold Snapshot.prepare
  split
  · exact VotesInv.of_nil (by simp) (by simp)
  · exact h.of_eq (by simp) (by simp) (by simp)

/-
  Discarding the previous vote of a signer on an address
  keeps the invariant and leaves no such vote.
-/
theorem VotesInv.discardVote
    {s : Snapshot}
    (h : VotesInv s)
    (signer coinbase : Address) :
    VotesInv (s.discardVote signer coinbase) ∧
      ∀ vote ∈ (s.discardVote signer coinbase).Votes,
        ¬ (vote.Signer = signer ∧
          vote.Address = coinbase) := by
  unfold Snapshot.discardVote
  dsimp only
  split
  · rename_i vote hFind
    have hMem : vote ∈ s.Votes :=
      List.mem_of_find?_eq_some hFind
    have hSame : vote.Signer = signer ∧
      vote.Address = coinbase := by
      simpa using List.find?_some hFind
    obtain ⟨first, before, after, hBefore, hFirst,
      hVotes, hErase⟩ :=
      List.exists_of_eraseP
        (p := fun v => decide (v.Signer = signer ∧
          v.Address = coinbase)) hMem
        (by simpa using hSame)
    simp only [decide_eq_true_eq] at hBefore hFirst
    have hPositive : 0 < votesOn s.Votes coinbase := by
      unfold votesOn
      exact List.countP_pos_iff.mpr ⟨vote, hMem,
        by simp [hSame.2]⟩
    have hUncast := uncast_tallyOf h.tally hPositive
    rw [← hSame.2, ← h.authorize vote hMem] at hUncast
    rw [hUncast, hErase]
    have hSub : (before ++ after).Sublist s.Votes := by
      rw [hVotes]
      exact (List.sublist_cons_self
        first after).append_left before
    have hPairs := h.pairs
    rw [hVotes] at hPairs
    refine ⟨⟨?_, ?_, ?_, ?_⟩, ?_⟩
    · simp only
      rw [hSame.2]
      congr 1
      funext address
      rw [hVotes]
      by_cases hAddress : coinbase = address
      · subst hAddress
        simp [votesOn, List.countP_append, hFirst.2]
      · simp [votesOn, List.countP_append, hFirst.2,
          Function.update_of_ne
          (Ne.symm hAddress), hAddress]
    · exact fun v hv => h.authorize v (hSub.subset hv)
    · exact fun v hv => h.signers v (hSub.subset hv)
    · exact h.pairs.sublist (hSub.map _)
    · intro v hv hvSame
      simp only [List.mem_append] at hv
      rcases hv with hv | hv
      · exact hBefore v hv hvSame
      · simp only [List.map_append, List.map_cons] at hPairs
        have hNotLater := (List.nodup_append.mp hPairs).2.1
        simp only [List.nodup_cons] at hNotLater
        exact hNotLater.1 (List.mem_map.mpr ⟨v, hv, by
          simp [hvSame.1, hvSame.2, hFirst.1, hFirst.2]⟩)
  · rename_i hFind
    refine ⟨h, ?_⟩
    intro v hv hvSame
    have := List.find?_eq_none.mp hFind v hv
    simp [hvSame] at this

/-
  A valid vote is for the side its address's membership
  gives.
-/
theorem validVote_eq_true
    {s : Snapshot}
    {address : Address}
    {authorize : Bool}
    (hValid : s.validVote address authorize = true) :
    authorize = decide (address ∉ s.Signers) := by
  unfold validVote at hValid
  by_cases hMember : address ∈ s.Signers <;>
    cases authorize <;>
    simp_all

/- An invalid vote is not cast. -/
theorem cast_of_validVote_false
    {s : Snapshot}
    {address : Address}
    {authorize : Bool}
    (hInvalid : s.validVote address authorize = false) :
    s.cast address authorize = (false, s) := by
  simp [cast, hInvalid]

/-
  Casting the vote of a signer with no vote yet on the
  address keeps the invariant.
-/
theorem VotesInv.castVote
    {s : Snapshot}
    (h : VotesInv s)
    (number : Nat)
    {signer coinbase : Address}
    (authorize : Bool)
    (hSigner : signer ∈ s.Signers)
    (hFresh : ∀ vote ∈ s.Votes, ¬ (vote.Signer = signer ∧
      vote.Address = coinbase)) :
    VotesInv (s.castVote number signer coinbase authorize) := by
  cases hValid : s.validVote coinbase authorize with
  | false =>
      unfold Snapshot.castVote
      rw [cast_of_validVote_false hValid]
      exact h
  | true =>
      have hSide := validVote_eq_true hValid
      rw [hSide] at hValid
      have hCast := cast_tallyOf h.tally hValid
      unfold Snapshot.castVote
      rw [hSide, hCast]
      refine ⟨?_, ?_, ?_, ?_⟩
      · dsimp only
        congr 1
        funext address
        by_cases hAddress : coinbase = address
        · subst hAddress
          simp [votesOn_append_singleton]
        · simp [votesOn_append_singleton,
            Function.update_of_ne (Ne.symm hAddress),
            hAddress]
      · intro vote hVote
        simp only [List.mem_append,
          List.mem_singleton] at hVote
        rcases hVote with hOld | rfl
        · exact h.authorize vote hOld
        · rfl
      · intro vote hVote
        simp only [List.mem_append,
          List.mem_singleton] at hVote
        rcases hVote with hOld | rfl
        · exact h.signers vote hOld
        · exact hSigner
      · simp only [List.map_append,
          List.map_cons, List.map_nil]
        refine List.nodup_append.mpr ⟨h.pairs,
          List.nodup_singleton _, ?_⟩
        intro pair hOld pair' hNew
        simp only [List.mem_singleton] at hNew
        subst hNew
        obtain ⟨vote, hVote, hPair⟩ := List.mem_map.mp hOld
        intro hEq
        subst hEq
        simp only [Prod.mk.injEq] at hPair
        exact hFresh vote hVote hPair

/-
  A passing vote on `coinbase` keeps the invariant: only the
  membership of `coinbase` changes, and its votes leave with
  its tally, after a deauthorized signer's own votes are
  uncast.
-/
theorem VotesInv.passVote
    {s : Snapshot}
    (h : VotesInv s)
    (number : Nat)
    {coinbase : Address}
    {tally : Clique.Tally}
    (hTally : s.Tally coinbase = some tally) :
    VotesInv (s.passVote number coinbase tally.Authorize) := by
  have hSide : tally.Authorize =
    decide (coinbase ∉ s.Signers) := by
    rw [h.tally] at hTally
    unfold tallyOf at hTally
    split at hTally
    · cases hTally
    · cases hTally
      rfl
  unfold Snapshot.passVote
  cases hAuthorize : tally.Authorize with
  | true =>
      have hOutside : coinbase ∉ s.Signers :=
        by simpa [hAuthorize] using hSide
      simp only [if_true]
      refine ⟨?_, ?_, ?_, ?_⟩
      · dsimp only
        rw [h.tally]
        apply update_tallyOf_none
        · intro address hAddress
          exact ⟨by simp [hAddress],
            votesOn_filter_address_ne _ hAddress⟩
        · exact votesOn_filter_address_self _ _
      · intro vote hVote
        simp only [List.mem_filter,
          decide_eq_true_eq] at hVote
        simp [h.authorize vote hVote.1, hVote.2]
      · intro vote hVote
        exact Finset.mem_insert_of_mem (h.signers vote
          (List.mem_filter.mp hVote).1)
      · exact h.pairs.sublist (List.filter_sublist.map _)
  | false =>
      have hInside : coinbase ∈ s.Signers :=
        by simpa [hAuthorize] using hSide
      simp only [Bool.false_eq_true, if_false]
      rw [uncastVotesOf_eq coinbase (by simpa using h.tally)
        (by simpa using h.authorize)]
      refine ⟨?_, ?_, ?_, ?_⟩
      · simp only [pruneRecents_Votes, pruneRecents_Signers]
        apply update_tallyOf_none
        · intro address hAddress
          exact ⟨by simp [hAddress],
            votesOn_filter_address_ne _ hAddress⟩
        · exact votesOn_filter_address_self _ _
      · intro vote hVote
        simp only [pruneRecents_Votes, List.mem_filter,
          decide_eq_true_eq] at hVote
        simp [h.authorize vote hVote.1.1, hVote.2]
      · intro vote hVote
        simp only [pruneRecents_Votes, List.mem_filter,
          decide_eq_true_eq] at hVote
        simp [hVote.1.2, h.signers vote hVote.1.1]
      · simp only [pruneRecents_Votes]
        exact h.pairs.sublist
          ((List.filter_sublist.trans List.filter_sublist).map _)

/- The vote of an authorized signer keeps the invariant. -/
theorem VotesInv.tallyVote
    {s : Snapshot}
    (h : VotesInv s)
    (number : Nat)
    {signer coinbase : Address}
    (authorize : Bool)
    (hSigner : signer ∈ s.Signers) :
    VotesInv (s.tallyVote number signer coinbase authorize) := by
  obtain ⟨hDiscarded, hFresh⟩ :=
    h.discardVote signer coinbase
  have hSigner' : signer ∈ (s.discardVote signer
    coinbase).Signers := by
    simpa using hSigner
  have hCast := hDiscarded.castVote number authorize
    hSigner' hFresh
  unfold Snapshot.tallyVote
  dsimp only
  split
  · rename_i hPassed
    cases hTally : ((s.discardVote signer coinbase).castVote
      number signer coinbase
        authorize).Tally coinbase with
    | none => simp [hTally] at hPassed
    | some tally =>
        simp only [Option.getD_some]
        exact hCast.passVote number hTally
  · exact hCast

theorem VotesInv.applyHeader
    {s s' : Snapshot}
    {header : Header}
    (h : VotesInv s)
    (hApply : Snapshot.applyHeader config s header = .ok s') :
    VotesInv s' := by
  obtain ⟨signer, authorize, -, -, hSigner, -, rfl⟩ :=
    applyHeader_eq_ok hApply
  have hPrepared : VotesInv ((s.prepare config
    header.Number).addRecent
      header.Number signer) :=
    (h.prepare header.Number).of_eq rfl rfl rfl
  exact hPrepared.tallyVote header.Number authorize
    (by simpa using hSigner)

theorem VotesInv.apply
    {s s' : Snapshot}
    {headers : List Header}
    (h : VotesInv s)
    (hApply : Snapshot.apply config s headers = .ok s') :
    VotesInv s' := by
  rcases apply_eq_ok hApply with ⟨-, rfl⟩ | ⟨-, -,
    snap, hFold, rfl⟩
  · exact h
  · have hSnap : VotesInv snap :=
      Except.foldlM_invariant (fun _ _ _ hInv hStep =>
        hInv.applyHeader hStep) h
        hFold
    exact hSnap.of_eq rfl rfl rfl

/-
  Every reachable snapshot keeps its tally as the cache of
  its votes.
-/
theorem VotesInv.reachable
    {s : Snapshot}
    (hReachable : Reachable config s) :
    VotesInv s := by
  induction hReachable with
  | newSnapshot number hash signers =>
      exact VotesInv.newSnapshot number hash signers
  | apply headers _ hApply ih => exact ih.apply hApply

end Snapshot

end Clique

end PlasmaEvm

------------------------------------------------------------
-- Reachable Snapshots
------------------------------------------------------------

namespace PlasmaEvm

namespace Clique

open Snapshot

/-
  In every snapshot `apply` reaches from a `newSnapshot`, an
  address has a tally exactly when it has votes, the tally
  counts them and is for the side each of them takes, every
  vote is a signer's, and no signer votes twice on one
  address.
-/
theorem reachable_tally_matches_votes
    {config : CliqueConfig}
    {s : Snapshot}
    (hReachable : Reachable config s) :
    (∀ address, (s.Tally address).isSome ↔
      ∃ vote ∈ s.Votes, vote.Address = address) ∧
    (∀ address tally, s.Tally address = some tally →
      tally.Votes = (s.Votes.filter fun vote =>
        vote.Address = address).length ∧
      ∀ vote ∈ s.Votes, vote.Address = address →
        vote.Authorize = tally.Authorize) ∧
    (∀ vote ∈ s.Votes, vote.Signer ∈ s.Signers) ∧
    (s.Votes.map fun vote => (vote.Signer,
      vote.Address)).Nodup := by
  have hInv := VotesInv.reachable hReachable
  refine ⟨?_, ?_, hInv.signers, hInv.pairs⟩
  · intro address
    rw [hInv.tally]
    unfold tallyOf votesOn
    split
    · rename_i hZero
      rw [List.countP_eq_zero] at hZero
      simpa using hZero
    · rename_i hCount
      have hPositive : 0 < s.Votes.countP (fun vote =>
        vote.Address = address) :=
        Nat.pos_of_ne_zero hCount
      rw [List.countP_pos_iff] at hPositive
      simpa using hPositive
  · intro address tally hTally
    rw [hInv.tally] at hTally
    unfold tallyOf at hTally
    split at hTally
    · cases hTally
    · cases hTally
      refine ⟨List.countP_eq_length_filter, ?_⟩
      intro vote hVote hAddress
      rw [hInv.authorize vote hVote, hAddress]

/-
  After the first voting header, signer 1's vote for 3 is
  pending: the tally of 3 counts it, and no other address
  has a tally.
-/
theorem pendingSnapshot_tally_matches_votes :
    (∀ address, (pendingSnapshot.Tally address).isSome ↔
      ∃ vote ∈ pendingSnapshot.Votes,
        vote.Address = address) ∧
    (∀ address tally,
      pendingSnapshot.Tally address = some tally →
      tally.Votes =
        (pendingSnapshot.Votes.filter fun vote =>
          vote.Address = address).length ∧
      ∀ vote ∈ pendingSnapshot.Votes,
        vote.Address = address →
        vote.Authorize = tally.Authorize) ∧
    (∀ vote ∈ pendingSnapshot.Votes,
      vote.Signer ∈ pendingSnapshot.Signers) ∧
    (pendingSnapshot.Votes.map fun vote =>
      (vote.Signer, vote.Address)).Nodup :=
  reachable_tally_matches_votes pendingSnapshot_reachable

end Clique

end PlasmaEvm
