import Mathlib.Logic.Function.Basic
import Mathlib.Order.Basic

/-
  A family of queues, one for each owner, from which a run
  takes elements one at a time.  A take either shifts its
  owner's queue (the rest stays to be taken) or pops it (the
  rest is dropped). A greedy run takes, at every step, the
  head of its owner's queue whose key is no less than the
  key of any head.

  What a run leaves of one owner is its queue less the takes
  of it, or nothing once one of them was a pop.  What a
  greedy run takes of one owner is a prefix of that owner's
  queue, and only the last of them can have been a pop; so
  an owner's queue is spent exactly when the run took all of
  it or popped it.

  Key definitions include:
    * `Queues.advance`, `Queues.remaining`, `Queues.takes`
    * `Queues.Best`, `Queues.GreedyRun`

  Key statements include:
    * `Queues.remaining_eq`
    * `Queues.GreedyRun.best_getElem`
    * `Queues.GreedyRun.taken_prefix_queue`
    * `Queues.GreedyRun.shifted_of_mem_dropLast`
    * `Queues.GreedyRun.remaining_eq_nil_iff`
-/

------------------------------------------------------------
-- Taking Heads
------------------------------------------------------------

namespace Queues

variable {ι α β : Type}
variable [DecidableEq ι]
variable (owner : α → ι)

/-
  The queues once x is taken: its owner keeps the rest of
  its queue when shifted and nothing when popped.
-/
def advance
    (q : ι → List α)
    (x : α)
    (shifted : Bool) : ι → List α :=
  Function.update q (owner x)
    (if shifted then (q (owner x)).tail else [])

/- The queues after every take of a run, in order. -/
def remaining
    (q : ι → List α)
    (run : List (α × Bool)) : ι → List α :=
  run.foldl (fun q e => advance owner q e.1 e.2) q

/- The takes of a run whose element i owns, in order. -/
def takes
    (run : List (α × Bool))
    (i : ι) : List (α × Bool) :=
  run.filter (fun e => owner e.1 = i)

variable [Preorder β]
variable (key : α → β)

/-
  x may be taken next: it heads its owner's queue, and no
  head has a greater key.
-/
def Best
    (q : ι → List α)
    (x : α) : Prop :=
  (∃ rest, q (owner x) = x :: rest) ∧
    ∀ i y rest, q i = y :: rest → key y ≤ key x

/-
  Every take of the run is a best one in the queues the
  takes before it leave.
-/
def GreedyRun :
    (ι → List α) → List (α × Bool) → Prop
  | _, [] => True
  | q, (x, shifted) :: run =>
      Best owner key q x ∧
        GreedyRun (advance owner q x shifted) run

variable {owner}

@[simp]
theorem advance_self
    (q : ι → List α)
    (x : α)
    (shifted : Bool) :
    advance owner q x shifted (owner x) =
      if shifted then (q (owner x)).tail else [] := by
  simp [advance]

@[simp]
theorem advance_of_ne
    {q : ι → List α}
    {x : α}
    {i : ι}
    (shifted : Bool)
    (hi : i ≠ owner x) :
    advance owner q x shifted i = q i :=
  Function.update_of_ne hi _ _

@[simp]
theorem remaining_nil (q : ι → List α) :
    remaining owner q [] = q :=
  rfl

@[simp]
theorem remaining_cons
    (q : ι → List α)
    (x : α)
    (shifted : Bool)
    (run : List (α × Bool)) :
    remaining owner q ((x, shifted) :: run) =
      remaining owner (advance owner q x shifted) run :=
  rfl

@[simp]
theorem takes_nil (i : ι) :
    takes owner [] i = [] :=
  rfl

theorem takes_cons_self
    (x : α)
    (shifted : Bool)
    (run : List (α × Bool)) :
    takes owner ((x, shifted) :: run) (owner x) =
      (x, shifted) :: takes owner run (owner x) :=
  List.filter_cons_of_pos (by simp)

theorem takes_cons_of_ne
    {x : α}
    {i : ι}
    (shifted : Bool)
    (run : List (α × Bool))
    (hi : owner x ≠ i) :
    takes owner ((x, shifted) :: run) i =
      takes owner run i :=
  List.filter_cons_of_neg (by simpa using hi)

/- Taking x leaves every queue a suffix of what it was. -/
theorem mem_advance
    {q : ι → List α}
    {x y : α}
    {shifted : Bool}
    {i : ι}
    (hy : y ∈ advance owner q x shifted i) :
    y ∈ q i := by
  by_cases hi : i = owner x
  · subst hi
    rw [advance_self] at hy
    cases shifted with
    | true => exact List.mem_of_mem_tail hy
    | false => exact absurd hy List.not_mem_nil
  · rwa [advance_of_ne shifted hi] at hy

/-
  What any run leaves of one owner's queue: the queue less
  as many heads as the run took of it, or nothing once a
  take of it was a pop.  The induction is on the run, from
  the queues each take leaves.
-/
theorem remaining_eq
    (q : ι → List α)
    (run : List (α × Bool))
    (i : ι) :
    remaining owner q run i =
      if (takes owner run i).all (fun e => e.2)
      then (q i).drop (takes owner run i).length
      else [] := by
  induction run generalizing q with
  | nil => simp
  | cons e run ih =>
      rcases e with ⟨x, shifted⟩
      rw [remaining_cons, ih]
      by_cases hi : owner x = i
      · subst hi
        rw [takes_cons_self, advance_self]
        cases shifted with
        | true =>
            simp only [if_true, List.all_cons,
              Bool.true_and, List.length_cons,
              List.drop_tail]
        | false => simp
      · rw [takes_cons_of_ne shifted run hi,
          advance_of_ne shifted (Ne.symm hi)]

end Queues

------------------------------------------------------------
-- Greedy Runs
------------------------------------------------------------

namespace Queues

variable {ι α β : Type}
variable [DecidableEq ι]
variable {owner : α → ι}
variable [Preorder β]
variable {key : α → β}

@[simp]
theorem greedyRun_nil (q : ι → List α) :
    GreedyRun owner key q [] :=
  trivial

@[simp]
theorem greedyRun_cons
    (q : ι → List α)
    (x : α)
    (shifted : Bool)
    (run : List (α × Bool)) :
    GreedyRun owner key q ((x, shifted) :: run) ↔
      Best owner key q x ∧
        GreedyRun owner key (advance owner q x shifted) run :=
  Iff.rfl

/-
  The k-th take of a greedy run is best among what the k
  takes before it leave.
-/
theorem GreedyRun.best_getElem
    {q : ι → List α}
    {run : List (α × Bool)}
    (h : GreedyRun owner key q run) :
    ∀ k (hk : k < run.length),
      Best owner key (remaining owner q (run.take k))
        run[k].1 := by
  induction run generalizing q with
  | nil =>
      intro k hk
      exact absurd hk (Nat.not_lt_zero k)
  | cons e run ih =>
      rcases e with ⟨x, shifted⟩
      rw [greedyRun_cons] at h
      intro k hk
      cases k with
      | zero => exact h.1
      | succ k =>
          rw [List.take_succ_cons, remaining_cons,
            List.getElem_cons_succ]
          exact ih h.2 k (by simpa using hk)

/-
  What a greedy run takes of one owner is a prefix of that
  owner's queue: each take is the head of what is left of
  it, and a pop leaves the owner nothing more to take.
-/
theorem GreedyRun.taken_prefix_queue
    {q : ι → List α}
    {run : List (α × Bool)}
    (h : GreedyRun owner key q run)
    (i : ι) :
    (takes owner run i).map Prod.fst <+: q i := by
  induction run generalizing q with
  | nil => simp
  | cons e run ih =>
      rcases e with ⟨x, shifted⟩
      rw [greedyRun_cons] at h
      rcases h with ⟨⟨⟨rest, hHead⟩, -⟩, hRun⟩
      have hRest := ih hRun
      by_cases hi : owner x = i
      · subst hi
        rw [takes_cons_self, List.map_cons, hHead,
          List.cons_prefix_cons]
        refine ⟨rfl, ?_⟩
        rw [advance_self, hHead] at hRest
        cases shifted with
        | true => exact hRest
        | false =>
            rw [if_neg Bool.false_ne_true,
              List.prefix_nil] at hRest
            rw [hRest]
            exact List.nil_prefix
      · rw [takes_cons_of_ne shifted run hi]
        rwa [advance_of_ne shifted (Ne.symm hi)] at hRest

/-
  Of the takes of one owner, every one but the last was a
  shift: after a pop the owner's queue is empty, so that
  take is its last.
-/
theorem GreedyRun.shifted_of_mem_dropLast
    {q : ι → List α}
    {run : List (α × Bool)}
    (h : GreedyRun owner key q run)
    (i : ι) :
    ∀ e ∈ (takes owner run i).dropLast, e.2 = true := by
  induction run generalizing q with
  | nil => simp
  | cons e run ih =>
      rcases e with ⟨x, shifted⟩
      rw [greedyRun_cons] at h
      have hRest := ih h.2
      by_cases hi : owner x = i
      · subst hi
        rw [takes_cons_self]
        cases shifted with
        | true =>
            intro e he
            by_cases hNil : takes owner run (owner x) = []
            · rw [hNil] at he
              exact absurd he List.not_mem_nil
            · rw [List.dropLast_cons_of_ne_nil hNil] at he
              rcases List.mem_cons.mp he with hHead | hTail
              · rw [hHead]
              · exact hRest e hTail
        | false =>
            have hNone := h.2.taken_prefix_queue (owner x)
            rw [advance_self, if_neg Bool.false_ne_true,
              List.prefix_nil, List.map_eq_nil_iff] at hNone
            rw [hNone]
            intro e he
            exact absurd he List.not_mem_nil
      · rw [takes_cons_of_ne shifted run hi]
        exact hRest

/-
  A greedy run leaves an owner nothing exactly when it took
  the whole of the owner's queue or popped it.
-/
theorem GreedyRun.remaining_eq_nil_iff
    {q : ι → List α}
    {run : List (α × Bool)}
    (h : GreedyRun owner key q run)
    (i : ι) :
    remaining owner q run i = [] ↔
      (takes owner run i).map Prod.fst = q i ∨
        ∃ e ∈ takes owner run i, e.2 = false := by
  have hPrefix := h.taken_prefix_queue i
  rw [remaining_eq]
  by_cases hAll : (takes owner run i).all (fun e => e.2)
  · have hShifted :
        ¬∃ e ∈ takes owner run i, e.2 = false := by
      rintro ⟨e, he, hFalse⟩
      have hTrue := List.all_eq_true.mp hAll e he
      rw [hFalse] at hTrue
      exact Bool.false_ne_true hTrue
    rw [if_pos hAll, List.drop_eq_nil_iff,
      or_iff_left hShifted]
    constructor
    · intro hLen
      apply hPrefix.eq_of_length
      have hLe := hPrefix.length_le
      rw [List.length_map] at hLe ⊢
      exact Nat.le_antisymm hLe hLen
    · intro hEq
      have hLength := congrArg List.length hEq
      rw [List.length_map] at hLength
      exact Nat.le_of_eq hLength.symm
  · have hPopped :
        ∃ e ∈ takes owner run i, e.2 = false := by
      simpa using hAll
    rw [if_neg hAll]
    exact iff_of_true rfl (.inr hPopped)

end Queues
