import PlasmaEvm.Trie.Update
import PlasmaEvm.Trie.Encoding
import PlasmaEvm.Trie.Hasher

/-
  A trie in memory refines a map from keys to values.  Its
  contents are the map its root stores, read at the hex form
  of each key.  On a trie of the shape `Node.WF`, TryGet
  reads the contents and leaves the trie as it is, TryUpdate
  writes a value at a key, an empty value removing it, and
  TryDelete removes a key; neither fails, both keep the
  shape and the database.  A run of writes from a trie in
  memory therefore ends in a trie whose contents are the map
  with the same writes, and TryGet reads that map.  New
  makes such a trie, empty, from the empty root.

  Key definitions include:
    * `Trie.contents`, `Trie.InMemory`
    * `Trie.New`
    * `Trie.Write`, `Trie.Write.apply`, `Trie.applyWrites`

  Key statements include:
    * `Trie.keybytesToHex_rest`,
      `Trie.keybytesToHex_injective`
    * `Trie.TryUpdate_written`, `Trie.TryDelete_written`
    * `Trie.TryGet_of_inMemory`,
      `Trie.TryUpdate_of_inMemory`,
      `Trie.TryDelete_of_inMemory`
    * `Trie.New_emptyRoot`
    * `Trie.applyWrites_spec`, `Trie.applyWrites_refines`
-/

------------------------------------------------------------
-- Hex Keys
------------------------------------------------------------

namespace PlasmaEvm

namespace Trie

/-
  The hex form of a key: nibbles below 16, then the
  terminator.
-/
theorem keybytesToHex_rest (key : Bytes) :
    Rest false (keybytesToHex key) := by
  refine ⟨key.flatMap nibblesOf, fun x hx h16 => ?_,
    keybytesToHex_eq key⟩
  have hLt := lt_of_mem_flatMap_nibblesOf hx
  rw [h16] at hLt
  exact Nat.lt_irrefl 16 hLt

/-
  Two keys of one hex form are one key: hexToKeybytes reads
  it back.
-/
theorem keybytesToHex_injective :
    Function.Injective keybytesToHex := by
  intro a b hEq
  have hBack := hexToKeybytes_keybytesToHex a
  rw [hEq, hexToKeybytes_keybytesToHex] at hBack
  exact (Option.some.inj hBack).symm

theorem length_lt_walkFuel (key : List Nibble) :
    key.length < walkFuel key := by
  unfold walkFuel
  omega

end Trie

end PlasmaEvm

------------------------------------------------------------
-- The Map a Trie Stores
------------------------------------------------------------

namespace PlasmaEvm

namespace Trie

/- The map a trie stores, from keys to values. -/
def contents (t : Trie) : Bytes → Option Bytes :=
  t.root.get ∘ keybytesToHex

/- A trie held in memory, of the shape its methods keep. -/
def InMemory (t : Trie) : Prop :=
  t.root.WF false

/-
  A write at a key's hex form below the root is a write of
  the contents at the key.
-/
theorem contents_of_written
    {t : Trie}
    {key : Bytes}
    {x : Option Bytes}
    {dirty : Bool}
    {n' : Node}
    (hWritten : Written false t.root
      (keybytesToHex key) x dirty n') :
    contents { t with root := n' } =
      Function.update (contents t) key x := by
  unfold contents
  rw [hWritten.get, Function.update_comp_eq_of_injective _
    keybytesToHex_injective]

variable {t : Trie}

/-
  TryGet reads the contents, loads nothing and keeps the
  trie.
-/
theorem TryGet_of_inMemory
    (hMem : InMemory t)
    (key : Bytes) :
    TryGet t key = .ok (contents t key, t) := by
  have hGet := tryGet_of_wf t.db (walkFuel
    (keybytesToHex key)) t.root false (keybytesToHex key) 0
    hMem (keybytesToHex_rest key) (length_lt_walkFuel _)
  rw [List.drop_zero] at hGet
  simp only [TryGet, hGet]
  rfl

/-
  TryDelete is the delete below the root, at the key's hex
  form.
-/
theorem TryDelete_written
    (hMem : InMemory t)
    (key : Bytes) :
    ∃ dirty n',
      TryDelete t key = .ok { t with root := n' } ∧
      Written false t.root (keybytesToHex key) none dirty n' := by
  obtain ⟨dirty, n', hDelete, hWritten⟩ :=
    delete_spec t.db (walkFuel (keybytesToHex key)) t.root
    false [] (keybytesToHex key) hMem
      (keybytesToHex_rest key) (length_lt_walkFuel _)
  refine ⟨dirty, n', ?_, hWritten⟩
  simp only [TryDelete, hDelete]
  rfl

/-
  TryUpdate is the insert below the root, or the delete for
  an empty value.
-/
theorem TryUpdate_written
    (hMem : InMemory t)
    (key value : Bytes) :
    ∃ dirty n', TryUpdate t key value =
      .ok { t with root := n' } ∧
      Written false t.root (keybytesToHex key)
        (if value.length ≠ 0
        then some value else none) dirty n' := by
  by_cases hValue : value.length ≠ 0
  · obtain ⟨dirty, n', hInsert, hWritten⟩ :=
      insert_spec t.db value (walkFuel (keybytesToHex key))
      t.root false [] (keybytesToHex key) hMem
        (keybytesToHex_rest key) (length_lt_walkFuel _)
    refine ⟨dirty, n', ?_, ?_⟩
    · unfold TryUpdate
      rw [if_pos hValue, hInsert]
      rfl
    · rwa [if_pos hValue]
  · obtain ⟨dirty, n', hDelete, hWritten⟩ :=
      delete_spec t.db (walkFuel (keybytesToHex key)) t.root
      false [] (keybytesToHex key) hMem
        (keybytesToHex_rest key) (length_lt_walkFuel _)
    refine ⟨dirty, n', ?_, ?_⟩
    · unfold TryUpdate
      rw [if_neg hValue, hDelete]
      rfl
    · rwa [if_neg hValue]

/- TryDelete removes the key from the contents. -/
theorem TryDelete_of_inMemory
    (hMem : InMemory t)
    (key : Bytes) :
    ∃ t', TryDelete t key = .ok t' ∧
      InMemory t' ∧ t'.db = t.db ∧
      contents t' =
        Function.update (contents t) key none := by
  obtain ⟨dirty, n', hDelete, hWritten⟩ :=
    TryDelete_written hMem key
  exact ⟨_, hDelete, hWritten.wf, rfl,
    contents_of_written hWritten⟩

/-
  TryUpdate writes the value at the key, and removes the key
  for an empty value.
-/
theorem TryUpdate_of_inMemory
    (hMem : InMemory t)
    (key value : Bytes) :
    ∃ t', TryUpdate t key value = .ok t' ∧
      InMemory t' ∧ t'.db = t.db ∧
      contents t' = Function.update (contents t) key
        (if value.length ≠ 0
        then some value else none) := by
  obtain ⟨dirty, n', hUpdate, hWritten⟩ :=
    TryUpdate_written hMem key value
  exact ⟨_, hUpdate, hWritten.wf, rfl,
    contents_of_written hWritten⟩

end Trie

end PlasmaEvm

------------------------------------------------------------
-- The Empty Trie
------------------------------------------------------------

namespace PlasmaEvm

namespace Trie

/-
  New: the trie of a root hash.  The zero hash and the empty
  root give the empty trie; any other root is loaded from
  the database.
-/
def New
    (root : Bytes)
    (db : Database) :
    Except TrieError Trie :=
  if root ≠ List.replicate 32 0 ∧ root ≠ emptyRoot then do
    let rootnode ← resolveHash db root []
    return { db := db, root := rootnode }
  else
    return { db := db, root := .nil }

/- The empty root makes an empty trie in memory. -/
theorem New_emptyRoot (db : Database) :
    New emptyRoot db = .ok { db := db, root := .nil } ∧
      InMemory { db := db, root := .nil } ∧
      contents { db := db, root := .nil } =
        fun _ => none := by
  refine ⟨?_, trivial, rfl⟩
  have hEmpty : ¬ (emptyRoot ≠ List.replicate 32 0 ∧
    emptyRoot ≠ emptyRoot) := fun h => h.2 rfl
  simp only [New, if_neg hEmpty]
  rfl

end Trie

end PlasmaEvm

------------------------------------------------------------
-- Runs of Writes
------------------------------------------------------------

namespace PlasmaEvm

namespace Trie

/-
  A call that writes a trie: TryUpdate of a value at a key,
  or TryDelete of a key.
-/
inductive Write where
  | update (key value : Bytes)
  | delete (key : Bytes)
  deriving Repr, DecidableEq

/- The call, on a trie. -/
def Write.run (t : Trie) : Write → Except TrieError Trie
  | .update key value => TryUpdate t key value
  | .delete key => TryDelete t key

/- What the call does to the map a trie stores. -/
def Write.apply
    (m : Bytes → Option Bytes) :
    Write → Bytes → Option Bytes
  | .update key value =>
      Function.update m key (if value.length ≠ 0
        then some value else none)
  | .delete key => Function.update m key none

/-
  The calls one after another, up to the first that fails.
-/
def applyWrites
    (t : Trie)
    (ws : List Write) :
    Except TrieError Trie :=
  ws.foldlM Write.run t

theorem applyWrites_cons
    (t : Trie)
    (w : Write)
    (ws : List Write) :
    applyWrites t (w :: ws) = (w.run t).bind fun t' =>
      applyWrites t' ws :=
  rfl

variable {t : Trie}

/-
  One call keeps the trie in memory and writes its contents
  as the call writes a map.
-/
theorem Write.run_of_inMemory
    (hMem : InMemory t)
    (w : Write) :
    ∃ t', w.run t = .ok t' ∧ InMemory t' ∧ t'.db = t.db ∧
      contents t' = Write.apply (contents t) w := by
  cases w with
  | update key value =>
      exact TryUpdate_of_inMemory hMem key value
  | delete key => exact TryDelete_of_inMemory hMem key

/-
  A run of calls, by induction on the calls, one step at a
  time.
-/
theorem applyWrites_spec :
    ∀ (ws : List Write) (t : Trie), InMemory t →
      ∃ t', applyWrites t ws = .ok t' ∧
        InMemory t' ∧ t'.db = t.db ∧
        contents t' = ws.foldl Write.apply (contents t)
  | [], t, hMem => ⟨t, rfl, hMem, rfl, rfl⟩
  | w :: ws, t, hMem => by
      obtain ⟨t₁, hRun, hMem₁, hDb₁, hContents₁⟩ :=
        Write.run_of_inMemory hMem w
      obtain ⟨t', hRest, hMem', hDb', hContents'⟩ :=
        applyWrites_spec ws t₁ hMem₁
      refine ⟨t', ?_, hMem', hDb'.trans hDb₁, ?_⟩
      · rw [applyWrites_cons, hRun]
        exact hRest
      · rw [hContents', hContents₁, List.foldl_cons]

/-
  The trie refines the map: every run of writes from a trie
  in memory succeeds, keeps the database, and TryGet then
  reads at each key what the map with the same writes holds
  there, leaving the trie as it is.
-/
theorem applyWrites_refines
    (hMem : InMemory t)
    (ws : List Write) :
    ∃ t', applyWrites t ws = .ok t' ∧ t'.db = t.db ∧
      ∀ key, TryGet t' key = .ok (ws.foldl Write.apply
        (contents t) key, t') := by
  obtain ⟨t', hRun, hMem', hDb, hContents⟩ :=
    applyWrites_spec ws t hMem
  refine ⟨t', hRun, hDb, fun key => ?_⟩
  rw [TryGet_of_inMemory hMem' key, hContents]

theorem applyWrites_refines_empty :
    InMemory { db := fun _ => none, root := .nil } ∧
      ∃ t',
        applyWrites { db := fun _ => none, root := .nil }
          [.update [1, 2] [7], .update [1, 3] [8],
            .delete [1, 2], .update [1, 3] []] = .ok t' ∧
        t'.db = (fun _ => none) ∧
        ∀ key, TryGet t' key =
          .ok (([.update [1, 2] [7], .update [1, 3] [8],
            .delete [1, 2], .update [1,
            3] []] : List Write).foldl
            Write.apply (contents
              { db := fun _ => none, root := .nil }) key, t') :=
  ⟨trivial, applyWrites_refines
    (t := { db := fun _ => none, root := .nil }) trivial _⟩

end Trie

end PlasmaEvm
