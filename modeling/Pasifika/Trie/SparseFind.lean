import Pasifika.Trie.SparseRoot

/-! # Finding a leaf

`find_leaf` answers from the values, or walks to the place of the leaf, where a missing node is
read as one that is not in the trie. -/

namespace Trie

open Std Patricia List Nat Tree

inductive LeafLookup where
  | existent
  | nonExistent

inductive LeafLookupError (V H : Type) where
  | blindedNode (path : Nibbles) (hash : H)
  | valueMismatch (path : Nibbles) (expected : Option V) (actual : V)

/-- The answer, if there is one. -/
abbrev Answer (V H : Type) := Option (Except (LeafLookupError V H) LeafLookup)

namespace SerialSparseTrie

variable {V B H : Type}

/-- The answer for a key with such a value, or that a hash is on its path. -/
def Answers (value : Option V) (r : Answer V H) : Prop :=
  r = some (.ok .existent) ∧ value ≠ none ∨ r = some (.ok .nonExistent) ∧ value = none ∨
    ∃ path hash, r = some (.error (.blindedNode path hash))

variable [DecidableEq V]
variable (s : SerialSparseTrie V H) (fullPath : Nibbles) (expectedValue : Option V)

/-- `values.get(full_path)`, with `check_value_match`. -/
def valueAt : Answer V H :=
  s.values[fullPath]?.map fun actual =>
    if expectedValue.any (actual ≠ ·) then .error (.valueMismatch fullPath expectedValue actual)
    else .ok .existent

/-- The loop of `find_leaf`, and what follows it. -/
def findLeafLoop : ℕ → Nibbles → Answer V H
  | 0, _ => none
  | fuel + 1, current =>
    if current.length < fullPath.length then
      match s.nodes[current]? with
      | none | some .empty => some (.ok .nonExistent)
      | some (.hash hash) => some (.error (.blindedNode current hash))
      | some (.leaf key _) =>
        if current ++ key = fullPath then
          (s.valueAt fullPath expectedValue).or (some (.ok .nonExistent))
        else some (.ok .nonExistent)
      | some (.extension key _ _) =>
        if current ++ key <+: fullPath then findLeafLoop fuel (current ++ key)
        else some (.ok .nonExistent)
      | some (.branch stateMask _ _) =>
        match fullPath[current.length]? with
        | none => none
        | some nibble =>
          if stateMask nibble then findLeafLoop fuel (current ++ [nibble])
          else some (.ok .nonExistent)
    else
      match s.nodes[fullPath]? with
      | some (.leaf [] _) => (s.valueAt fullPath expectedValue).or (some (.ok .nonExistent))
      | some (.hash hash) => some (.error (.blindedNode fullPath hash))
      | _ => some (.ok .nonExistent)

/-- `find_leaf`. A walk that takes more steps has met an extension without a key, and never ends. -/
def findLeaf : Answer V H :=
  (s.valueAt fullPath expectedValue).or
    (findLeafLoop s fullPath expectedValue (fullPath.length + 1) [])

variable {s expectedValue} {c : Codec V B H} {w : Memory V H} {changed : Nibbles → Bool}
variable {t : Tree 16 V} {path rest : Nibbles} {n fuel : ℕ}

theorem Blinded.answers (h : Blinded c w s true path t) :
    Answers (t.lookup rest) (s.findLeafLoop (path ++ rest) expectedValue (fuel + 1) path) := by
  obtain ⟨hash, hnode, -⟩ := h.resolve_left (nomatch ·.1)
  refine .inr (.inr ⟨path, hash, ?_⟩)
  rw [findLeafLoop]
  cases rest with
  | nil | cons i rest => simp [hnode]

/-- The walk below a path, where the key has no value. -/
theorem Shows.answers (hgood : t.Good n) (h : Shows c w changed s true path t)
    (hrest : rest.length = n) (hvalue : s.values[path ++ rest]? = none) (hfuel : n ≤ fuel) :
    Answers (t.lookup rest) (s.findLeafLoop (path ++ rest) expectedValue (fuel + 1) path) := by
  induction t generalizing n path rest fuel with
  | empty => exact absurd hgood id
  | leaf key value =>
    rcases h with h | ⟨hash, hnode, hbound, -⟩
    · exact h.answers
    have hne : rest ≠ key := by
      rintro rfl
      cases hvalue.symm.trans hbound
    have hpos : rest ≠ [] := by
      rintro rfl
      exact hne (length_eq_zero_iff.mp (hgood.trans hrest.symm)).symm
    refine .inr (.inl ⟨?_, if_neg hne⟩)
    rw [findLeafLoop, if_pos (by simpa using length_pos_iff.mpr hpos), hnode]
    exact if_neg fun heq => hne (append_cancel_left heq).symm
  | ext key child ih =>
    rcases h with ⟨h, -⟩ | ⟨hash, store, hnode, -, hchild⟩
    · exact h.answers
    obtain ⟨hkey, -, m, rfl, hgood⟩ := hgood
    have hpos := length_pos_iff.mpr hkey
    rw [findLeafLoop, if_pos (by rw [length_append]; omega), hnode]
    by_cases hle : key <+: rest
    · obtain ⟨rest, rfl⟩ := hle
      obtain ⟨fuel, rfl⟩ := exists_eq_add_one.mpr (show 0 < fuel by omega)
      rw [lookup_ext_append, ← append_assoc]
      simp only [prefix_append, if_true]
      refine ih hgood hchild ?_ (by rwa [append_assoc]) (by omega)
      exact add_left_cancel (length_append.symm.trans hrest)
    · refine .inr (.inl ⟨if_neg fun hp => hle ?_, lookup_ext_none child hle⟩)
      exact (prefix_append_right_inj path).mp hp
  | branch children ih =>
    rcases h with ⟨h, -⟩ | ⟨hash, store, hnode, -, hchildren⟩
    · exact h.answers
    obtain ⟨m, rfl, hgood, -⟩ := hgood
    obtain ⟨i, rest, rfl⟩ := exists_cons_of_length_eq_add_one hrest
    rw [findLeafLoop, if_pos (by simp), hnode, lookup_branch_cons]
    by_cases hi : children i = .empty
    · exact .inr (.inl ⟨by simp [Codec.stateMask_iff, hi], by rw [hi]; rfl⟩)
    · obtain ⟨fuel, rfl⟩ := exists_eq_add_one.mpr (show 0 < fuel by omega)
      rw [append_cons] at hvalue
      simpa [Codec.stateMask_iff, hi] using ih i ((hgood i).resolve_left hi) (hchildren i hi)
        (succ.inj hrest) hvalue (le_of_succ_le_succ hfuel)

theorem Revealed.answers [DecidableEq H] {m : ExtTreeMap Nibbles V} (hm : Keyed m)
    (h : Revealed c m s) (key : Key) : Answers m[key.val]? (s.findLeaf key.val none) := by
  have hstands := h.stands hm
  rw [← (treeOf_spec hm).2, findLeaf, valueAt]
  cases hvalue : s.values[key.val]? with
  | some value => exact .inl ⟨rfl, hstands.values _ (by simp [hvalue])⟩
  | none =>
    rcases hstands.wf with hempty | hgood
    · have hnode := hstands.shows
      rw [hempty] at hnode ⊢
      refine .inr (.inl ⟨?_, rfl⟩)
      rw [findLeafLoop, if_pos (by rw [key.property]; decide), hnode]
      rfl
    · exact Shows.answers hgood hstands.shows key.property hvalue key.property.ge

/-- **FINDING A LEAF** in a trie that reveals nodes of the trie of a map: the answer is right for
    every map with these nodes, or the error of a hash. -/
theorem findLeaf_sound [DecidableEq H] (c : Codec V B H) (m : ExtTreeMap Nibbles V) (hm : Keyed m)
    (s : SerialSparseTrie V H) (hrevealed : Revealed c m s) (key : Key) :
    Answers m[key.val]? (s.findLeaf key.val none) ∧
      ∀ m' : ExtTreeMap Nibbles V, Keyed m' → Revealed c m' s →
        (∃ path hash, s.findLeaf key.val none = some (.error (.blindedNode path hash))) ∨
          (m[key.val]? = none ↔ m'[key.val]? = none) := by
  refine ⟨hrevealed.answers hm key, fun m' hm' h' => ?_⟩
  rcases hrevealed.answers hm key with ⟨heq, h⟩ | ⟨heq, h⟩ | h
  · rcases h'.answers hm' key with ⟨-, h'⟩ | ⟨h', -⟩ | h'
    · exact .inr (iff_of_false h h')
    · nomatch heq.symm.trans h'
    · exact .inl h'
  · rcases h'.answers hm' key with ⟨h', -⟩ | ⟨-, h'⟩ | h'
    · nomatch heq.symm.trans h'
    · exact .inr (iff_of_true h h')
    · exact .inl h'
  · exact .inl h

/-- The root shows that a third key is not bound. -/
theorem findLeaf_sound_third : ∃ s : SerialSparseTrie ℕ Term,
    Answers sampleMap[(sampleKey 2).val]? (s.findLeaf (sampleKey 2).val none) := by
  obtain ⟨s, hs⟩ := Option.isSome_iff_exists.mp (show sampleTrie.isSome = true by decide +kernel)
  exact ⟨s, (findLeaf_sound hashCodec sampleMap keyed_sampleMap s (revealed_sampleTrie hs) _).1⟩

end SerialSparseTrie

end Trie
