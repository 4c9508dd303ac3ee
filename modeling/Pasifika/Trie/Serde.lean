import Pasifika.Trie.Updates

/-! # Serialized trie updates

Paths are serialized as the hex encoding of the PACKED nibbles. Packing pads an odd
number of nibbles with a zero nibble, so that an odd path is read back as a longer
one: updates come back as they were if and only if all their paths are even.

A serialized value is modelled as the sequence of keys, entries and elements that are
handed to the serializer, with the nodes in them as they are. -/

namespace Trie

open Std OrderedMap List Nibbles

variable {K V : Type} [Ord K] [TransOrd K]

/-! ## Hex strings -/

/-- A string, as its characters. -/
abbrev HexString := List Char

/-- The digit of a nibble. -/
def hexDigit (n : Fin 16) : Char :=
  ['0', '1', '2', '3', '4', '5', '6', '7', '8', '9', 'a', 'b', 'c', 'd', 'e', 'f'].get n

/-- The value of a digit, in lower or upper case. -/
def hexValue (c : Char) : Option (Fin 16) :=
  (List.finRange 16).find? (fun n => hexDigit n == c.toLower)

/-- `hex::encode`. -/
def hexEncode (bytes : List (Fin 256)) : HexString :=
  bytes.flatMap (fun byte => (Nibbles.unpack [byte]).map hexDigit)

/-- The bytes of a string of digits; an odd number of them is an error. -/
def decodeDigits : HexString → Option (List (Fin 256))
  | [] => some []
  | [_] => none
  | hi :: lo :: digits => do
      let hi ← hexValue hi
      let lo ← hexValue lo
      let bytes ← decodeDigits digits
      some (Nibbles.pack [hi, lo] ++ bytes)

/-- `hex::decode`: a leading `0x` is skipped. -/
def hexDecode : HexString → Option (List (Fin 256))
  | '0' :: 'x' :: digits => decodeDigits digits
  | digits => decodeDigits digits

theorem hexValue_hexDigit : ∀ n, hexValue (hexDigit n) = some n := by
  decide

theorem decodeDigits_hexEncode (bytes : List (Fin 256)) :
    decodeDigits (hexEncode bytes) = some bytes := by
  induction bytes with
  | nil => rfl
  | cons byte bytes ih =>
    show decodeDigits (hexDigit _ :: hexDigit _ :: hexEncode bytes) = _
    rw [decodeDigits, hexValue_hexDigit, hexValue_hexDigit, ih]
    refine congrArg some (congrArg₂ cons (Fin.ext ?_) rfl)
    show byte.val / 16 * 16 + byte.val % 16 = byte.val
    omega

theorem hexDecode_hexEncode (bytes : List (Fin 256)) :
    hexDecode (hexEncode bytes) = some bytes := by
  rw [← decodeDigits_hexEncode bytes]
  cases bytes with
  | nil => rfl
  | cons byte bytes =>
    show hexDecode (hexDigit _ :: hexDigit _ :: hexEncode bytes) = _
    rw [hexDecode]
    · rfl
    · intro digits h
      have hne : ∀ n, hexDigit n ≠ 'x' := by decide
      exact hne _ (cons.inj (cons.inj h).2).1

/-! ## Paths -/

/-- The key that stands for a path. -/
def encodePath (path : Nibbles) : HexString := hexEncode path.pack

/-- The path that a key is read as. -/
def decodePath (key : HexString) : Option Nibbles := (hexDecode key).map Nibbles.unpack

/-- The path with an even number of nibbles: an odd one is padded. -/
def padded (path : Nibbles) : Nibbles := Nibbles.unpack path.pack

theorem decodePath_encodePath (path : Nibbles) :
    decodePath (encodePath path) = some (padded path) := by
  rw [decodePath, encodePath, hexDecode_hexEncode]
  rfl

theorem padded_eq_self : padded path = path ↔ Even path.length := by
  constructor
  · intro h
    rw [← h]
    exact even_length_unpack _
  · exact unpack_pack path

/-! ## Sets and maps of paths -/

/-- `serde_nibbles_set::serialize`. -/
def serializeSet (set : ExtTreeSet Nibbles) : List HexString :=
  (set.toList.map encodePath).insertionSort (fun a b => (compare a b).isLE = true)

/-- `serde_nibbles_set::deserialize`. -/
def deserializeSet (nodes : List HexString) : Option (ExtTreeSet Nibbles) := do
  let paths ← nodes.mapM decodePath
  some (paths.foldl (fun set path => set.insert path) ∅)

/-- `serde_nibbles_map::serialize`. -/
def serializeMap (map : ExtTreeMap Nibbles V) : List (HexString × V) :=
  map.toList.map (fun e => (encodePath e.1, e.2))

/-- `serde_nibbles_map::deserialize`: of entries with the same key the last one remains. -/
def deserializeMap (entries : List (HexString × V)) : Option (ExtTreeMap Nibbles V) := do
  let entries ← entries.mapM (fun e => (decodePath e.1).map (fun path => (path, e.2)))
  some (upsert (fun _ node => node) ∅ entries)

/-- The serialized form of `StorageTrieUpdates`. -/
structure StorageTrieUpdatesSerialized (V : Type) where
  isDeleted : Bool
  storageNodes : List (HexString × V)
  removedNodes : List HexString

/-- The serialized form of `TrieUpdates`. -/
structure TrieUpdatesSerialized (K V : Type) where
  accountNodes : List (HexString × V)
  removedNodes : List HexString
  storageTries : List (K × StorageTrieUpdatesSerialized V)

namespace StorageTrieUpdates

def serialize (u : StorageTrieUpdates V) : StorageTrieUpdatesSerialized V where
  isDeleted := u.isDeleted
  storageNodes := serializeMap u.storageNodes
  removedNodes := serializeSet u.removedNodes

def deserialize (s : StorageTrieUpdatesSerialized V) : Option (StorageTrieUpdates V) := do
  let storageNodes ← deserializeMap s.storageNodes
  let removedNodes ← deserializeSet s.removedNodes
  some ⟨s.isDeleted, storageNodes, removedNodes⟩

end StorageTrieUpdates

namespace TrieUpdates

def serialize (u : TrieUpdates K V) : TrieUpdatesSerialized K V where
  accountNodes := serializeMap u.accountNodes
  removedNodes := serializeSet u.removedNodes
  storageTries := u.storageTries.toList.map (fun e => (e.1, e.2.serialize))

def deserialize (s : TrieUpdatesSerialized K V) : Option (TrieUpdates K V) := do
  let accountNodes ← deserializeMap s.accountNodes
  let removedNodes ← deserializeSet s.removedNodes
  let storageTries ← s.storageTries.mapM
    (fun e => (StorageTrieUpdates.deserialize e.2).map (fun u => (e.1, u)))
  some ⟨accountNodes, removedNodes, upsert (fun _ u => u) ∅ storageTries⟩

end TrieUpdates

/-! ## What is read back -/

theorem mapM_eq_some {A B : Type} {f : A → Option B} {g : A → B} {l : List A}
    (h : ∀ a ∈ l, f a = some (g a)) : l.mapM f = some (l.map g) := by
  induction l with
  | nil => rfl
  | cons a l ih =>
    rw [mapM_cons, h a mem_cons_self, ih fun b hb => h b (mem_cons_of_mem _ hb)]
    rfl

def paddedSet (set : ExtTreeSet Nibbles) : ExtTreeSet Nibbles :=
  set.toList.foldl (fun s path => s.insert (padded path)) ∅

def paddedMap (map : ExtTreeMap Nibbles V) : ExtTreeMap Nibbles V :=
  upsert (fun _ node => node) ∅ (map.toList.map (fun e => (padded e.1, e.2)))

theorem deserializeSet_serializeSet (set : ExtTreeSet Nibbles) :
    deserializeSet (serializeSet set) = some (paddedSet set) := by
  have hmem : ∀ key, key ∈ serializeSet set ↔ ∃ path ∈ set.toList, encodePath path = key :=
    fun key => (perm_insertionSort _ _).mem_iff.trans mem_map
  have hread : ∀ key ∈ serializeSet set,
      decodePath key = some ((decodePath key).getD []) := by
    intro key hkey
    obtain ⟨path, -, rfl⟩ := (hmem key).mp hkey
    rw [decodePath_encodePath]
    rfl
  rw [deserializeSet, mapM_eq_some hread]
  refine congrArg some (ExtTreeSet.ext_mem fun path => ?_)
  rw [mem_foldl_insert fun path => path, paddedSet, mem_foldl_insert padded]
  refine or_congr_left ?_
  -- the order of the keys does not matter
  constructor
  · rintro ⟨_, hpath, rfl⟩
    obtain ⟨key, hkey, rfl⟩ := mem_map.mp hpath
    obtain ⟨path, hmemPath, rfl⟩ := (hmem key).mp hkey
    exact ⟨path, hmemPath, by rw [decodePath_encodePath]; rfl⟩
  · rintro ⟨path, hpath, rfl⟩
    refine ⟨padded path, mem_map.mpr ⟨encodePath path, ?_, ?_⟩, rfl⟩
    · exact (hmem _).mpr ⟨path, hpath, rfl⟩
    · rw [decodePath_encodePath]
      rfl

theorem deserializeMap_serializeMap (map : ExtTreeMap Nibbles V) :
    deserializeMap (serializeMap map) = some (paddedMap map) := by
  rw [deserializeMap, serializeMap, mapM_map, mapM_eq_some (g := fun e => (padded e.1, e.2))]
  · rfl
  · intro e _
    show (decodePath (encodePath e.1)).map _ = _
    rw [decodePath_encodePath]
    rfl

theorem paddedSet_eq_self {set : ExtTreeSet Nibbles} :
    paddedSet set = set ↔ ∀ path : Nibbles, path ∈ set → Even path.length := by
  have hmem : ∀ path, path ∈ paddedSet set ↔ ∃ path' ∈ set, padded path' = path := by
    intro path
    rw [paddedSet, mem_foldl_insert padded]
    simp only [ExtTreeSet.mem_toList, ExtTreeSet.not_mem_empty, or_false]
  constructor
  · intro h path hpath
    rw [← h, hmem] at hpath
    obtain ⟨path', -, rfl⟩ := hpath
    exact even_length_unpack _
  · intro h
    refine ExtTreeSet.ext_mem fun path => (hmem path).trans ⟨?_, ?_⟩
    · rintro ⟨path', hpath', rfl⟩
      rwa [padded_eq_self.mpr (h path' hpath')]
    · intro hpath
      exact ⟨path, hpath, padded_eq_self.mpr (h path hpath)⟩

theorem get_upsert_empty {f : Option V → V → V} {k : Nibbles} {l : List (Nibbles × V)}
    {m : ExtTreeMap Nibbles V} (hk : k ∉ l.map Prod.fst) (hm : m[k]? = none) :
    (upsert f m l)[k]? = none := by
  induction l generalizing m with
  | nil => exact hm
  | cons e l ih =>
    rw [map_cons, mem_cons, not_or] at hk
    exact ih hk.2 ((get_insert_ne (Ne.symm hk.1)).trans hm)

theorem paddedMap_eq_self {map : ExtTreeMap Nibbles V} :
    paddedMap map = map ↔ ∀ path : Nibbles, path ∈ map → Even path.length := by
  constructor
  · intro h path hpath
    -- a path that is read back is a padded one
    have hlisted : path ∈ (map.toList.map fun e => (padded e.1, e.2)).map Prod.fst := by
      by_contra hnot
      have hnone : (paddedMap map)[path]? = none :=
        get_upsert_empty hnot ExtTreeMap.getElem?_empty
      rw [h] at hnone
      rw [ExtTreeMap.mem_iff_isSome_getElem?, hnone] at hpath
      nomatch hpath
    obtain ⟨_, he, rfl⟩ := mem_map.mp hlisted
    obtain ⟨e, -, rfl⟩ := mem_map.mp he
    exact even_length_unpack _
  · intro h
    have hlist : map.toList.map (fun e => (padded e.1, e.2)) = map.toList := by
      refine (map_congr_left ?_).trans (map_id _)
      intro e he
      have hpath : e.1 ∈ map := ExtTreeMap.mem_iff_isSome_getElem?.mpr
        (by rw [mem_toList.mp he]; rfl)
      rw [padded_eq_self.mpr (h e.1 hpath)]
      rfl
    refine ExtTreeMap.ext_getElem? fun {k} => ?_
    rw [paddedMap, hlist]
    refine (get_extend ∅ map k).trans ?_
    rw [ExtTreeMap.getElem?_empty, Option.or_none]

/-! ## The round trip -/

/-- All paths have an even number of nibbles. -/
def StorageTrieUpdates.EvenPaths (u : StorageTrieUpdates V) : Prop :=
  (∀ path : Nibbles, path ∈ u.storageNodes → Even path.length) ∧
    ∀ path : Nibbles, path ∈ u.removedNodes → Even path.length

def TrieUpdates.EvenPaths (u : TrieUpdates K V) : Prop :=
  (∀ path : Nibbles, path ∈ u.accountNodes → Even path.length) ∧
    (∀ path : Nibbles, path ∈ u.removedNodes → Even path.length) ∧
    ∀ (hashedAddress : K) (updates : StorageTrieUpdates V),
      u.storageTries[hashedAddress]? = some updates → updates.EvenPaths

namespace StorageTrieUpdates

/-- The updates with their paths padded. -/
def padded (u : StorageTrieUpdates V) : StorageTrieUpdates V :=
  ⟨u.isDeleted, paddedMap u.storageNodes, paddedSet u.removedNodes⟩

theorem deserialize_serialize (u : StorageTrieUpdates V) :
    deserialize u.serialize = some u.padded := by
  rw [deserialize, serialize, deserializeMap_serializeMap, deserializeSet_serializeSet]
  rfl

theorem padded_eq_self {u : StorageTrieUpdates V} : u.padded = u ↔ u.EvenPaths := by
  rw [StorageTrieUpdates.ext_iff]
  exact (and_iff_right rfl).trans (and_congr paddedMap_eq_self paddedSet_eq_self)

end StorageTrieUpdates

namespace TrieUpdates

/-- The updates with their paths padded. -/
def padded (u : TrieUpdates K V) : TrieUpdates K V :=
  ⟨paddedMap u.accountNodes, paddedSet u.removedNodes,
    upsert (fun _ u => u) ∅ (u.storageTries.toList.map (fun e => (e.1, e.2.padded)))⟩

theorem deserialize_serialize (u : TrieUpdates K V) : deserialize u.serialize = some u.padded := by
  rw [deserialize, serialize, deserializeMap_serializeMap, deserializeSet_serializeSet,
    mapM_map, mapM_eq_some (g := fun e => (e.1, e.2.padded))]
  · rfl
  · intro e _
    show (StorageTrieUpdates.deserialize e.2.serialize).map _ = _
    rw [StorageTrieUpdates.deserialize_serialize]
    rfl

variable [LawfulEqOrd K] [DecidableEq K]

theorem storageTries_padded (u : TrieUpdates K V) (hashedAddress : K) :
    u.padded.storageTries[hashedAddress]? =
      u.storageTries[hashedAddress]?.map StorageTrieUpdates.padded := by
  have hkeys : ((u.storageTries.toList.map fun e => (e.1, e.2.padded)).map Prod.fst) =
      u.storageTries.toList.map Prod.fst := by
    rw [map_map]
    rfl
  obtain ⟨hin, hout⟩ := get_upsert (fun _ u => u) hashedAddress
    (u.storageTries.toList.map fun e => (e.1, e.2.padded)) ∅
    (by rw [hkeys]; exact nodup_keys u.storageTries)
  cases hget : u.storageTries[hashedAddress]? with
  | none =>
    refine (hout ?_).trans ExtTreeMap.getElem?_empty
    rw [hkeys]
    exact get_eq_none_iff.mp hget
  | some updates =>
    exact hin _ (mem_map.mpr ⟨(hashedAddress, updates), mem_toList.mpr hget, rfl⟩)

theorem padded_eq_self {u : TrieUpdates K V} : u.padded = u ↔ u.EvenPaths := by
  have hstorages : u.padded.storageTries = u.storageTries ↔
      ∀ (hashedAddress : K) (updates : StorageTrieUpdates V),
        u.storageTries[hashedAddress]? = some updates → updates.EvenPaths := by
    constructor
    · intro h hashedAddress updates hget
      have hpadded := storageTries_padded u hashedAddress
      rw [h, hget] at hpadded
      exact StorageTrieUpdates.padded_eq_self.mp (Option.some.inj hpadded).symm
    · intro h
      refine ExtTreeMap.ext_getElem? fun {hashedAddress} => ?_
      rw [storageTries_padded]
      cases hget : u.storageTries[hashedAddress]? with
      | none => rfl
      | some updates =>
        exact congrArg some (StorageTrieUpdates.padded_eq_self.mpr (h _ _ hget))
  rw [TrieUpdates.ext_iff]
  exact and_congr paddedMap_eq_self (and_congr paddedSet_eq_self hstorages)

/-- **THE ROUND TRIP**: updates are read back iff all their paths have an even number of nibbles. -/
theorem deserialize_serialize_iff :
    (∀ u : StorageTrieUpdates V,
      StorageTrieUpdates.deserialize u.serialize = some u ↔ u.EvenPaths) ∧
    ∀ u : TrieUpdates K V, deserialize u.serialize = some u ↔ u.EvenPaths := by
  refine ⟨fun u => ?_, fun u => ?_⟩
  · rw [StorageTrieUpdates.deserialize_serialize, Option.some.injEq]
    exact StorageTrieUpdates.padded_eq_self
  · rw [deserialize_serialize, Option.some.injEq]
    exact padded_eq_self

end TrieUpdates

/-- Two account nodes, one at an even path. -/
def sampleOdd : TrieUpdates Nat Nat where
  accountNodes := (∅ : ExtTreeMap Nibbles Nat).insert [1] 10 |>.insert [1, 0] 20
  removedNodes := (∅ : ExtTreeSet Nibbles).insert [2]
  storageTries := ∅

/-- **ODD PATHS COLLAPSE**: the nodes at `1` and `10` come back as one, and the removed
    path `2` as `20`. -/
theorem odd_paths_collapse :
    (TrieUpdates.deserialize sampleOdd.serialize).map
      (fun u => (u.accountNodes.toList, u.removedNodes.toList)) = some ([([1, 0], 20)], [[2, 0]]) ∧
    TrieUpdates.deserialize sampleOdd.serialize ≠ some sampleOdd := by
  have hread : (TrieUpdates.deserialize sampleOdd.serialize).map
      (fun u => (u.accountNodes.toList, u.removedNodes.toList)) =
        some ([([1, 0], 20)], [[2, 0]]) := by
    decide +kernel
  refine ⟨hread, fun h => ?_⟩
  rw [h] at hread
  exact absurd hread (by decide +kernel)

def sampleEven : TrieUpdates Nat Nat where
  accountNodes := (∅ : ExtTreeMap Nibbles Nat).insert [1, 2] 10
  removedNodes := (∅ : ExtTreeSet Nibbles).insert [2, 0]
  storageTries := ∅

theorem deserialize_serialize_even :
    TrieUpdates.deserialize sampleEven.serialize = some sampleEven := by
  refine TrieUpdates.deserialize_serialize_iff.2 sampleEven |>.mpr ⟨?_, ?_, ?_⟩
  · intro path hpath
    rcases ExtTreeMap.mem_insert.mp hpath with heq | hempty
    · rw [← compare_eq_iff_eq.mp heq]
      decide
    · exact absurd hempty ExtTreeMap.not_mem_empty
  · intro path hpath
    rcases ExtTreeSet.mem_insert.mp hpath with heq | hempty
    · rw [← compare_eq_iff_eq.mp heq]
      decide
    · exact absurd hempty ExtTreeSet.not_mem_empty
  · intro hashedAddress updates hget
    exact nomatch (ExtTreeMap.getElem?_empty (α := Nat)).symm.trans hget

end Trie
