import PlasmaEvm.Consensus.Clique.Snapshot
import Mathlib.Order.Interval.Finset.Nat

/-
  The signing window of a clique snapshot.  A signer may
  seal one block in every `limit = len(Signers)/2 + 1`: each
  header first drops the recent signer of the block that
  leaves the window, refuses a signer still in it, and
  records its own.  A deauthorization shrinks the window and
  drops one more.

  Under every chain of headers the recent signers are
  distinct and sit at the last `limit` block numbers.  So
  fewer than `limit` of them remain once the next header has
  dropped the oldest, and some signer can always seal the
  next block.

  Key definitions include:
    * `Snapshot.recentSigners`, `Snapshot.Window`

  Key statements include:
    * `Snapshot.keys_pruneRecents`
    * `Snapshot.Window.applyHeader`
    * `Snapshot.Window.reachable`
    * `Snapshot.Window.exists_signer`
-/

------------------------------------------------------------
-- The Window
------------------------------------------------------------

namespace PlasmaEvm

namespace Clique

namespace Snapshot

variable {config : CliqueConfig}

/- The recent signers, in the order of `Recents`. -/
def recentSigners (s : Snapshot) : List Address :=
  s.Recents.entries.map Sigma.snd

theorem recentlySigned_eq_true
    {s : Snapshot}
    {signer : Address} :
    s.recentlySigned signer = true ↔
      signer ∈ s.recentSigners := by
  unfold recentlySigned recentSigners
  rw [List.any_eq_true, List.mem_map]
  constructor
  · rintro ⟨entry, hMem, hEq⟩
    exact ⟨entry, hMem, by simpa using hEq⟩
  · rintro ⟨entry, hMem, hEq⟩
    exact ⟨entry, hMem, by simpa using hEq⟩

/-
  The recent signers are distinct, and their blocks are the
  last `limit` up to `number`.
-/
structure Window (number : Nat) (s : Snapshot) : Prop where
  keys : ∀ k ∈ s.Recents.keys,
    number < k + s.limit ∧ k ≤ number
  distinct : s.recentSigners.Nodup

/-
  Dropping the block `number - limit` leaves only blocks of
  the window ending at `number`: the one block at its edge
  is the one dropped.
-/
theorem keys_pruneRecents
    {s : Snapshot}
    {number : Nat}
    (hKeys : ∀ k ∈ s.Recents.keys, number ≤ k + s.limit) :
    ∀ k ∈ (s.pruneRecents number).Recents.keys,
      number < k + s.limit ∧ k ∈ s.Recents.keys := by
  intro k hk
  unfold pruneRecents at hk
  split at hk
  · rename_i hLimit
    rw [AList.keys_erase,
      s.Recents.keys_nodup.mem_erase_iff] at hk
    have := hKeys k hk.2
    exact ⟨by omega, hk.2⟩
  · rename_i hLimit
    exact ⟨by omega, hk⟩

theorem recentSigners_pruneRecents_sublist
    (s : Snapshot)
    (number : Nat) :
    (s.pruneRecents number).recentSigners.Sublist
      s.recentSigners := by
  unfold pruneRecents recentSigners
  split
  · exact (List.kerase_sublist _ _).map _
  · exact List.Sublist.refl _

/-
  A window reads the recent signers and the number of
  signers only.
-/
theorem Window.of_eq
    {number : Nat}
    {s s' : Snapshot}
    (h : Window number s)
    (hRecents : s'.Recents = s.Recents)
    (hLimit : s.limit ≤ s'.limit) :
    Window number s' := by
  constructor
  · intro k hk
    rw [hRecents] at hk
    have := h.keys k hk
    omega
  · unfold recentSigners
    rw [hRecents]
    exact h.distinct

/-
  The next header drops the block leaving the window, and
  then every recent block is among the last `limit - 1`.
-/
theorem Window.prepare
    {number : Nat}
    {s : Snapshot}
    (h : Window number s)
    (config : CliqueConfig) :
    (∀ k ∈ (s.prepare config (number + 1)).Recents.keys,
      number + 1 < k + s.limit ∧ k ≤ number) ∧
      (s.prepare config (number + 1)).recentSigners.Nodup := by
  have hEdge : ∀ k ∈ s.Recents.keys,
    number + 1 ≤ k + s.limit :=
    fun k hk => (h.keys k hk).1
  have hPruned := keys_pruneRecents hEdge
  refine ⟨?_, ?_⟩
  · intro k hk
    rw [prepare_Recents] at hk
    obtain ⟨hEdge, hOld⟩ := hPruned k hk
    exact ⟨hEdge, (h.keys k hOld).2⟩
  · unfold recentSigners
    rw [prepare_Recents]
    exact h.distinct.sublist
      (recentSigners_pruneRecents_sublist s (number + 1))

/-
  Recording a signer not in the window opens the window at
  its block.
-/
theorem Window.addRecent
    {number : Nat}
    {s : Snapshot}
    {signer : Address}
    (hKeys : ∀ k ∈ s.Recents.keys,
      number + 1 < k + s.limit ∧ k ≤ number)
    (hDistinct : s.recentSigners.Nodup)
    (hFresh : signer ∉ s.recentSigners) :
    Window (number + 1) (s.addRecent (number + 1) signer) := by
  have hNew : number + 1 ∉ s.Recents := by
    intro hMem
    have := hKeys _ (AList.mem_keys.mp hMem)
    omega
  have hEntries : (s.addRecent (number +
    1) signer).Recents.entries =
      ⟨number + 1, signer⟩ :: s.Recents.entries :=
    AList.entries_insert_of_notMem hNew
  constructor
  · intro k hk
    simp only [AList.keys, hEntries, List.keys_cons,
      List.mem_cons] at hk
    rcases hk with rfl | hOld
    · simp [limit]
    · have := hKeys k hOld
      simp only [addRecent_Signers, limit] at this ⊢
      omega
  · unfold recentSigners
    rw [hEntries]
    exact List.nodup_cons.mpr ⟨hFresh, hDistinct⟩

/-
  The vote of a header keeps its window: an authorization
  widens it, and a deauthorization narrows it by at most one
  block, which it drops.
-/
theorem Window.tallyVote
    {number : Nat}
    {s : Snapshot}
    (h : Window number s)
    (signer coinbase : Address)
    (authorize : Bool) :
    Window number (s.tallyVote number signer coinbase
      authorize) := by
  unfold Snapshot.tallyVote
  dsimp only
  set cast := (s.discardVote signer coinbase).castVote
    number signer coinbase
    authorize with hCastDef
  have hCast : Window number cast :=
    h.of_eq (by simp [cast]) (by simp [cast, limit])
  split
  · rcases passVote_Signers_Recents cast number coinbase
        ((cast.Tally coinbase).getD ⟨false,
          0⟩).Authorize with
      ⟨-, hSigners, hRecents⟩ | ⟨-, hSigners, hRecents⟩
    · refine hCast.of_eq hRecents ?_
      simp only [limit, hSigners]
      have := Finset.card_le_card
        (Finset.subset_insert coinbase cast.Signers)
      omega
    · have hShrink := Finset.pred_card_le_card_erase
        (s := cast.Signers)
        (a := coinbase)
      let narrowed : Snapshot := { cast with
        Signers := cast.Signers.erase coinbase }
      have hEdge : ∀ k ∈ narrowed.Recents.keys,
        number ≤ k + narrowed.limit := by
        intro k hk
        have := (hCast.keys k hk).1
        simp only [narrowed, limit] at this ⊢
        omega
      constructor
      · intro k hk
        rw [hRecents] at hk
        obtain ⟨hNear, hOld⟩ := keys_pruneRecents hEdge k hk
        refine ⟨?_, (hCast.keys k hOld).2⟩
        simpa [limit, hSigners, narrowed] using hNear
      · unfold recentSigners
        rw [hRecents]
        exact hCast.distinct.sublist
          (recentSigners_pruneRecents_sublist narrowed number)
  · exact hCast

/- A header that applies moves the window to its block. -/
theorem Window.applyHeader
    {number : Nat}
    {s s' : Snapshot}
    {header : Header}
    (h : Window number s)
    (hNumber : header.Number = number + 1)
    (hApply : Snapshot.applyHeader config s header = .ok s') :
    Window (number + 1) s' := by
  obtain ⟨signer, authorize, -, -, -, hRecent, rfl⟩ :=
    applyHeader_eq_ok hApply
  rw [hNumber] at hRecent ⊢
  obtain ⟨hKeys, hDistinct⟩ := h.prepare config
  have hFresh : signer ∉ (s.prepare config (number +
    1)).recentSigners := by
    rw [← recentlySigned_eq_true]
    simpa using hRecent
  have hLimit : (s.prepare config (number +
    1)).limit = s.limit := by
    simp [limit]
  rw [← hLimit] at hKeys
  exact (Window.addRecent hKeys hDistinct
    hFresh).tallyVote signer _ _

/-
  Consecutive headers from the next block move the window
  along them.
-/
theorem Window.foldlM
    {number : Nat}
    {s s' : Snapshot}
    {headers : List Header}
    (h : Window number s)
    (hConsecutive : consecutive headers = true)
    (hFirst : ∀ first ∈ headers.head?,
      first.Number = number + 1)
    (hFold : headers.foldlM (Snapshot.applyHeader
      config) s = .ok s') :
    Window (number + headers.length) s' := by
  induction headers generalizing number s with
  | nil =>
      simp only [List.foldlM_nil,
        Except.pure_eq_ok] at hFold
      subst hFold
      exact h
  | cons header headers ih =>
      obtain ⟨snap, hStep, hRest⟩ :=
        Except.foldlM_cons_eq_ok.mp hFold
      have hNumber : header.Number = number + 1 :=
        hFirst header rfl
      obtain ⟨hTail, hNext⟩ := consecutive_cons hConsecutive
      have hWindow := h.applyHeader hNumber hStep
      have := ih hWindow hTail (fun next hNextMem => by
        rw [hNext next hNextMem, hNumber]) hRest
      simpa [Nat.add_assoc, Nat.add_comm 1] using this

theorem Window.apply
    {s s' : Snapshot}
    {headers : List Header}
    (h : Window s.Number s)
    (hApply : Snapshot.apply config s headers = .ok s') :
    Window s'.Number s' := by
  rcases apply_eq_ok hApply with ⟨-, rfl⟩ | ⟨hConsecutive,
    hFirst, snap, hFold, rfl⟩
  · exact h
  · exact (h.foldlM hConsecutive hFirst hFold).of_eq rfl le_rfl

/- Every reachable snapshot keeps its window. -/
theorem Window.reachable
    {s : Snapshot}
    (hReachable : Reachable config s) :
    Window s.Number s := by
  induction hReachable with
  | newSnapshot number hash signers =>
      exact ⟨by simp [Clique.newSnapshot],
        by simp [recentSigners, Clique.newSnapshot]⟩
  | apply headers _ hApply ih => exact ih.apply hApply

/-
  Once the next header has dropped the block leaving the
  window, fewer than `limit` recent signers remain, so some
  signer may seal it.
-/
theorem Window.exists_signer
    {number : Nat}
    {s : Snapshot}
    (h : Window number s)
    (config : CliqueConfig)
    (hNonempty : s.Signers.Nonempty) :
    ∃ signer ∈ s.Signers,
      (s.prepare config (number +
        1)).recentlySigned signer = false := by
  obtain ⟨hKeys, -⟩ := h.prepare config
  set pruned := s.prepare config (number + 1) with hPruned
  have hInWindow : pruned.Recents.keys.toFinset ⊆
      Finset.Ico (number + 2 - s.limit) (number + 1) := by
    intro k hk
    rw [List.mem_toFinset] at hk
    have := hKeys k hk
    rw [Finset.mem_Ico]
    omega
  have hFew : pruned.recentSigners.length ≤
    s.limit - 1 := by
    have hLength : pruned.recentSigners.length =
      pruned.Recents.keys.length := by
      simp [recentSigners, AList.keys, List.keys]
    have hCard := Finset.card_le_card hInWindow
    rw [List.toFinset_card_of_nodup
      pruned.Recents.keys_nodup, Nat.card_Ico] at hCard
    omega
  have hFewer : (s.Signers.filter
    (· ∈ pruned.recentSigners)).card <
      s.Signers.card := by
    have hSub : s.Signers.filter (· ∈ pruned.recentSigners) ⊆
        pruned.recentSigners.toFinset := by
      intro a ha
      rw [Finset.mem_filter] at ha
      exact List.mem_toFinset.mpr ha.2
    have hRecentCard := Finset.card_le_card hSub
    have hToFinset :=
      List.toFinset_card_le pruned.recentSigners
    have hPositive := hNonempty.card_pos
    simp only [limit] at hFew
    omega
  obtain ⟨signer, hSigner, hFree⟩ :=
    Finset.exists_mem_notMem_of_card_lt_card hFewer
  refine ⟨signer, hSigner, ?_⟩
  rw [Bool.eq_false_iff, ne_eq, recentlySigned_eq_true]
  intro hRecent
  exact hFree (Finset.mem_filter.mpr ⟨hSigner, hRecent⟩)

@[simp] theorem recentSigners_prepare
    (config : CliqueConfig)
    (s : Snapshot)
    (number : Nat) :
    (s.prepare config number).recentSigners =
      (s.pruneRecents number).recentSigners := by
  unfold recentSigners
  rw [prepare_Recents]

/-
  A signer still in the window cannot seal the next header.
-/
theorem applyHeader_of_recentlySigned
    {snap : Snapshot}
    {header : Header}
    {signer : Address}
    (hSigner : header.Signer = some signer)
    (hMember : signer ∈ snap.Signers)
    (hRecent : (snap.prepare config
      header.Number).recentlySigned signer = true) :
    Snapshot.applyHeader config snap header =
      .error .errRecentlySigned := by
  simp [Snapshot.applyHeader, hSigner, hMember, hRecent]

end Snapshot

end Clique

end PlasmaEvm

------------------------------------------------------------
-- Rejecting a Recent Signer
------------------------------------------------------------

namespace PlasmaEvm

namespace Clique

namespace Snapshot

variable {config : CliqueConfig}

/-
  The next header of a signer still in the window is
  rejected: as recently signed when it is still authorized,
  and as unauthorized when a drop vote removed it while its
  block is in the window, since `apply` checks membership
  first.
-/
theorem apply_of_recent
    {s : Snapshot}
    {header : Header}
    {signer : Address}
    (hNumber : header.Number = s.Number + 1)
    (hSigner : header.Signer = some signer)
    (hRecent : signer ∈ (s.pruneRecents
      header.Number).recentSigners) :
    s.apply config [header] = .error
      (if signer ∈ s.Signers
        then .errRecentlySigned
          else .errUnauthorizedSigner) := by
  rw [apply_singleton hNumber]
  by_cases hMember : signer ∈ s.Signers
  · have hRecentlySigned :
        (s.prepare config header.Number).recentlySigned
          signer = true := by
      rw [recentlySigned_eq_true,
        recentSigners_prepare config]
      exact hRecent
    rw [applyHeader_of_recentlySigned hSigner hMember
      hRecentlySigned, if_pos hMember]
    rfl
  · simp [applyHeader, hSigner, hMember]

end Snapshot

/-
  In every snapshot `apply` reaches from a `newSnapshot` the
  recent signers are distinct and sealed the last `limit`
  blocks, some signer is free to seal the next block, and a
  header of a signer still in the window is rejected.
-/
theorem reachable_signing_window
    {config : CliqueConfig}
    {s : Snapshot}
    (hReachable : Snapshot.Reachable config s) :
    s.recentSigners.Nodup ∧
    (∀ k ∈ s.Recents.keys, s.Number < k + s.limit ∧
      k ≤ s.Number) ∧
    (s.Signers.Nonempty → ∃ signer ∈ s.Signers,
      signer ∉ (s.pruneRecents (s.Number + 1)).recentSigners) ∧
    (∀ header signer, header.Number = s.Number + 1 →
      header.Signer = some signer →
      signer ∈ (s.pruneRecents header.Number).recentSigners →
      s.apply config [header] = .error
        (if signer ∈ s.Signers
          then .errRecentlySigned
            else .errUnauthorizedSigner)) := by
  have hWindow := Snapshot.Window.reachable hReachable
  refine ⟨hWindow.distinct, hWindow.keys, ?_, ?_⟩
  · intro hNonempty
    obtain ⟨signer, hSigner, hFree⟩ :=
      hWindow.exists_signer config hNonempty
    refine ⟨signer, hSigner, ?_⟩
    rw [← Snapshot.recentSigners_prepare config
      s, ← Snapshot.recentlySigned_eq_true, hFree]
    decide
  · intro header signer hNumber hSigner hRecent
    exact Snapshot.apply_of_recent hNumber hSigner hRecent

/-
  Three drop votes on signer 5 of five, the second to last
  cast after 5 sealed block 3: at block 4 the vote passes
  and 5 leaves the signers while block 3 is still in the
  window.
-/
def dropHeaders : List Header :=
  [⟨1, ⟨5⟩, nonceDropVote, some ⟨1⟩, 1⟩,
   ⟨2, ⟨5⟩, nonceDropVote, some ⟨2⟩, 2⟩,
   ⟨3, ⟨1⟩, nonceAuthVote, some ⟨5⟩, 3⟩,
   ⟨4, ⟨5⟩, nonceDropVote, some ⟨3⟩, 4⟩]

def droppedSnapshot : Snapshot :=
  match (newSnapshot 0 0 [⟨1⟩, ⟨2⟩, ⟨3⟩, ⟨4⟩,
    ⟨5⟩]).apply ⟨30000⟩ dropHeaders with
  | .ok s => s
  | .error _ => newSnapshot 0 0 []

theorem droppedSnapshot_reachable :
    Snapshot.Reachable ⟨30000⟩ droppedSnapshot :=
  .apply dropHeaders (.newSnapshot 0 0 [⟨1⟩, ⟨2⟩,
    ⟨3⟩, ⟨4⟩, ⟨5⟩]) rfl

/-
  The dropped signer seals block 5 while block 3 is in the
  window.
-/
def lateHeader : Header :=
  ⟨5, ⟨1⟩, nonceAuthVote, some ⟨5⟩, 5⟩

theorem dropped_signer_rejected_as_unauthorized :
    Snapshot.Reachable ⟨30000⟩ droppedSnapshot ∧
    lateHeader.Number = droppedSnapshot.Number + 1 ∧
    ⟨5⟩ ∉ droppedSnapshot.Signers ∧
    ⟨5⟩ ∈ (droppedSnapshot.pruneRecents
      lateHeader.Number).recentSigners ∧
    droppedSnapshot.apply ⟨30000⟩ [lateHeader] =
      .error .errUnauthorizedSigner :=
  ⟨droppedSnapshot_reachable, by decide, by decide,
    by decide, rfl⟩

theorem droppedSnapshot_signing_window :
    droppedSnapshot.recentSigners.Nodup ∧
    (∀ k ∈ droppedSnapshot.Recents.keys,
      droppedSnapshot.Number < k + droppedSnapshot.limit ∧
        k ≤ droppedSnapshot.Number) ∧
    (droppedSnapshot.Signers.Nonempty →
      ∃ signer ∈ droppedSnapshot.Signers,
      signer ∉ (droppedSnapshot.pruneRecents
        (droppedSnapshot.Number + 1)).recentSigners) ∧
    (∀ header signer,
      header.Number = droppedSnapshot.Number + 1 →
      header.Signer = some signer →
      signer ∈ (droppedSnapshot.pruneRecents
        header.Number).recentSigners →
      droppedSnapshot.apply ⟨30000⟩ [header] = .error
        (if signer ∈ droppedSnapshot.Signers
          then .errRecentlySigned
          else .errUnauthorizedSigner)) :=
  reachable_signing_window droppedSnapshot_reachable

end Clique

end PlasmaEvm
