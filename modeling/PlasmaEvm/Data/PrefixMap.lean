import Mathlib.Logic.Function.Basic

/-
  Maps from lists of keys, built the way a trie builds them.
  A map under a prefix reads, at a key that starts with the
  prefix, what the map below reads at the rest, and nothing
  elsewhere; a branch reads a key by its first element, in
  the map of that element; a single value sits at the empty
  key.

  A write into a map under a prefix is a write below it, and
  a write into a branch is a write into the map of one
  element.  Two prefixes in a row are their append, and a
  prefix of one element is a branch with one map.

  Key definitions include:
    * `PrefixMap.empty`, `PrefixMap.single`
    * `PrefixMap.prefixed`, `PrefixMap.branch`

  Key statements include:
    * `PrefixMap.prefixed_append`, `PrefixMap.prefixed_cons`
    * `PrefixMap.update_prefixed`,
      `PrefixMap.update_prefixed_self`,
      `PrefixMap.update_branch`
    * `PrefixMap.single_eq_update`,
      `PrefixMap.prefixed_single`
    * `PrefixMap.prefixed_injective`,
      `PrefixMap.branch_injective`
-/

------------------------------------------------------------
-- Maps on Lists of Keys
------------------------------------------------------------

namespace PrefixMap

variable {α β : Type} [DecidableEq α]

/- The map with nothing in it. -/
def empty : List α → Option β :=
  fun _ => none

/- One value, at the empty key. -/
def single (v : β) : List α → Option β :=
  fun k => if k = [] then some v else none

/-
  The map `f` under `key`: at `key ++ rest` what `f` reads
  at `rest`, nothing elsewhere.
-/
def prefixed
    (key : List α)
    (f : List α → Option β) :
    List α → Option β :=
  fun k => if key <+: k then f (k.drop key.length) else none

/-
  A map read by the first element of the key, in the map of
  that element.
-/
def branch (g : α → List α → Option β) : List α → Option β
  | [] => none
  | i :: rest => g i rest

omit [DecidableEq α] in
@[simp] theorem empty_apply (k : List α) :
    (empty k : Option β) = none := rfl

omit [DecidableEq α] in
@[simp] theorem branch_nil (g : α → List α → Option β) :
    branch g [] = none := rfl

omit [DecidableEq α] in
@[simp] theorem branch_cons
    (g : α → List α → Option β)
    (i : α)
    (rest : List α) :
    branch g (i :: rest) = g i rest := rfl

@[simp] theorem prefixed_append_apply
    (key rest : List α)
    (f : List α → Option β) :
    prefixed key f (key ++ rest) = f rest := by
  simp [prefixed]

theorem prefixed_eq_none
    {key k : List α}
    (h : ¬ key <+: k)
    (f : List α → Option β) :
    prefixed key f k = none := by
  simp [prefixed, h]

@[simp] theorem prefixed_nil (f : List α → Option β) :
    prefixed [] f = f := by
  funext k
  simp [prefixed]

@[simp] theorem prefixed_empty (key : List α) :
    prefixed key (empty : List α → Option β) = empty := by
  funext k
  simp [prefixed]

/-
  A key at which a map under a prefix reads something starts
  with the prefix.
-/
theorem prefix_of_prefixed_eq_some
    {key k : List α}
    {f : List α → Option β}
    {v : β}
    (h : prefixed key f k = some v) :
    key <+: k := by
  by_contra hNot
  rw [prefixed_eq_none hNot] at h
  exact Option.some_ne_none v h.symm

/- The map under a prefix gives back the map below it. -/
theorem prefixed_injective (key : List α) :
    Function.Injective (prefixed key : (List α → Option β) →
      List α → Option β) := by
  intro f g hEq
  funext rest
  have hAt := congrFun hEq (key ++ rest)
  rwa [prefixed_append_apply, prefixed_append_apply] at hAt

omit [DecidableEq α] in
/- A branch gives back the maps of its elements. -/
theorem branch_injective :
    Function.Injective (branch : (α → List α → Option β) →
      List α → Option β) := by
  intro g g' hEq
  funext i rest
  exact congrFun hEq (i :: rest)

/- Two prefixes in a row are their append. -/
theorem prefixed_append
    (a b : List α)
    (f : List α → Option β) :
    prefixed (a ++ b) f = prefixed a (prefixed b f) := by
  funext k
  by_cases hA : a <+: k
  · obtain ⟨rest, rfl⟩ := hA
    rw [prefixed_append_apply]
    by_cases hB : b <+: rest
    · obtain ⟨rest', rfl⟩ := hB
      rw [prefixed_append_apply, ← List.append_assoc,
        prefixed_append_apply]
    · rw [prefixed_eq_none hB, prefixed_eq_none]
      rwa [List.prefix_append_right_inj]
  · rw [prefixed_eq_none hA, prefixed_eq_none]
    exact fun h => hA (List.prefix_append a b |>.trans h)

/- A prefix of one element is a branch with one map. -/
theorem prefixed_cons
    (i : α)
    (key : List α)
    (f : List α → Option β) :
    prefixed (i :: key) f = branch (Function.update
      (fun _ => empty) i (prefixed key f)) := by
  funext k
  cases k with
  | nil => simp [prefixed]
  | cons j rest =>
      by_cases hJ : j = i
      · subst hJ
        simp [prefixed, List.cons_prefix_cons]
      · have hI : i ≠ j := Ne.symm hJ
        simp [prefixed, List.cons_prefix_cons, hJ, hI]

@[simp] theorem update_empty_none (k : List α) :
    Function.update (empty : List α →
      Option β) k none = empty :=
  Function.update_eq_self_iff.mpr rfl

/- A write under a prefix is a write below it. -/
theorem update_prefixed
    (key rest : List α)
    (x : Option β)
    (f : List α → Option β) :
    Function.update (prefixed key f) (key ++ rest) x =
      prefixed key (Function.update f rest x) := by
  funext k
  by_cases hK : key <+: k
  · obtain ⟨k', rfl⟩ := hK
    by_cases hSame : k' = rest
    · subst hSame
      simp
    · have hNe : key ++ k' ≠ key ++ rest := fun h =>
        hSame (List.append_cancel_left h)
      rw [Function.update_of_ne hNe, prefixed_append_apply,
        prefixed_append_apply,
        Function.update_of_ne hSame]
  · have hNe : k ≠ key ++ rest := fun h =>
      hK (h ▸ List.prefix_append key rest)
    rw [Function.update_of_ne hNe, prefixed_eq_none hK,
      prefixed_eq_none hK]

/-
  A write at the key a map stands under is a write at the
  empty key below it.
-/
theorem update_prefixed_self
    (key : List α)
    (x : Option β)
    (f : List α → Option β) :
    Function.update (prefixed key f) key x =
      prefixed key (Function.update f [] x) := by
  have h := update_prefixed key [] x f
  rwa [List.append_nil] at h

/-
  A write into a branch is a write into the map of its first
  element.
-/
theorem update_branch
    (g : α → List α → Option β)
    (i : α)
    (rest : List α)
    (x : Option β) :
    Function.update (branch g) (i :: rest) x =
      branch (Function.update g i (Function.update
        (g i) rest x)) := by
  funext k
  cases k with
  | nil => simp
  | cons j rest' =>
      by_cases hJ : j = i
      · subst hJ
        by_cases hRest : rest' = rest
        · subst hRest
          simp
        · simp [hRest]
      · simp [hJ]

/-
  A single value is the empty map written at the empty key.
-/
theorem single_eq_update (v : β) :
    (single v : List α → Option β) =
      Function.update empty [] (some v) := by
  funext k
  by_cases hK : k = [] <;> simp [single, hK]

/-
  A single value under a key is the empty map written at
  that key.
-/
theorem prefixed_single (key : List α) (v : β) :
    prefixed key (single v) = Function.update empty
      key (some v) := by
  rw [single_eq_update, ← update_prefixed, List.append_nil,
    prefixed_empty]

end PrefixMap
