import Pasifika.Trie.Nibbles
import Pasifika.OrderedMap.First

/-! # Trie updates

The branch nodes that a state root calculation changed: UPDATED nodes, REMOVED nodes,
and storage tries that are DELETED as a whole. `extend` merges later updates into
earlier ones, and `into_sorted` lists what is to be written.

  * updated and removed nodes are merged without keeping them disjoint: an updated
    node takes precedence over a removal of the same path when they are sorted;
  * writing merged updates leaves the tables as writing them one after the other. -/

namespace Trie

open Std OrderedMap List Bool

variable {K V : Type} [Ord K] [TransOrd K]

/-! ## Updates -/

@[ext] structure StorageTrieUpdates (V : Type) where
  isDeleted : Bool
  storageNodes : ExtTreeMap Nibbles V
  removedNodes : ExtTreeSet Nibbles

@[ext] structure TrieUpdates (K V : Type) [Ord K] where
  accountNodes : ExtTreeMap Nibbles V
  removedNodes : ExtTreeSet Nibbles
  storageTries : ExtTreeMap K (StorageTrieUpdates V)

def excludeEmptyFromPair (iter : List (Nibbles × V)) : List (Nibbles × V) :=
  iter.filter (fun e => !e.1.isEmpty)

def excludeEmpty (iter : List Nibbles) : List Nibbles := iter.filter (fun n => !n.isEmpty)

/-- `nodes.retain(|nibbles, _| !removed_nodes.contains(nibbles))`. -/
def retainNodes (nodes : ExtTreeMap Nibbles V) (removedNodes : ExtTreeSet Nibbles) :
    ExtTreeMap Nibbles V :=
  nodes.filter (fun nibbles _ => !removedNodes.contains nibbles)

/-- `nodes.extend(exclude_empty_from_pair(iter))`. -/
def extendNodes (nodes : ExtTreeMap Nibbles V) (iter : List (Nibbles × V)) :
    ExtTreeMap Nibbles V :=
  upsert (fun _ node => node) nodes (excludeEmptyFromPair iter)

/-- `removed_nodes.extend(exclude_empty(iter))`. -/
def extendRemoved (removedNodes : ExtTreeSet Nibbles) (iter : List Nibbles) :
    ExtTreeSet Nibbles :=
  (excludeEmpty iter).foldl (fun s n => s.insert n) removedNodes

namespace StorageTrieUpdates

def default : StorageTrieUpdates V := ⟨false, ∅, ∅⟩

/-- What a wipe and the removed nodes take away. -/
def extendCommon (u other : StorageTrieUpdates V) : StorageTrieUpdates V :=
  let u := if other.isDeleted then { u with storageNodes := ∅, removedNodes := ∅ } else u
  let u := { u with isDeleted := u.isDeleted || other.isDeleted }
  { u with storageNodes := retainNodes u.storageNodes other.removedNodes }

def extend (u other : StorageTrieUpdates V) : StorageTrieUpdates V :=
  let u := u.extendCommon other
  { u with
    storageNodes := extendNodes u.storageNodes other.storageNodes.toList
    removedNodes := extendRemoved u.removedNodes other.removedNodes.toList }

/-- `extend_ref`: the nodes are cloned. -/
def extendRef (u other : StorageTrieUpdates V) : StorageTrieUpdates V :=
  let u := u.extendCommon other
  { u with
    storageNodes := extendNodes u.storageNodes (other.storageNodes.toList.map fun e => (e.1, e.2))
    removedNodes := extendRemoved u.removedNodes (other.removedNodes.toList.map fun n => n) }

end StorageTrieUpdates

namespace TrieUpdates

def extendCommon (u other : TrieUpdates K V) : TrieUpdates K V :=
  { u with accountNodes := retainNodes u.accountNodes other.removedNodes }

def extend (u other : TrieUpdates K V) : TrieUpdates K V :=
  let u := u.extendCommon other
  { u with
    accountNodes := extendNodes u.accountNodes other.accountNodes.toList
    removedNodes := extendRemoved u.removedNodes other.removedNodes.toList
    storageTries := extendWith
      (fun entry storageTrie => (entry.getD .default).extend storageTrie)
      u.storageTries other.storageTries }

def extendRef (u other : TrieUpdates K V) : TrieUpdates K V :=
  let u := u.extendCommon other
  { u with
    accountNodes := extendNodes u.accountNodes (other.accountNodes.toList.map fun e => (e.1, e.2))
    removedNodes := extendRemoved u.removedNodes (other.removedNodes.toList.map fun n => n)
    storageTries := extendWith
      (fun entry storageTrie => (entry.getD .default).extendRef storageTrie)
      u.storageTries other.storageTries }

end TrieUpdates

/-! ## The sorted form -/

structure StorageTrieUpdatesSorted (V : Type) where
  isDeleted : Bool
  storageNodes : List (Nibbles × Option V)

structure TrieUpdatesSorted (K V : Type) [Ord K] where
  accountNodes : List (Nibbles × Option V)
  storageTries : ExtTreeMap K (StorageTrieUpdatesSorted V)

/-- Updated nodes take precedence: their paths are taken out of the removed ones. -/
def drainSorted (nodes : ExtTreeMap Nibbles V) (removedNodes : ExtTreeSet Nibbles) :
    List (Nibbles × Option V) :=
  let updated := nodes.toList.map (fun e => (e.1, some e.2))
  let removedNodes := nodes.toList.foldl (fun s e => s.erase e.1) removedNodes
  sortByKey (updated ++ removedNodes.toList.map (fun path => (path, none)))

def StorageTrieUpdates.intoSorted (u : StorageTrieUpdates V) : StorageTrieUpdatesSorted V where
  isDeleted := u.isDeleted
  storageNodes := drainSorted u.storageNodes u.removedNodes

def TrieUpdates.intoSorted (u : TrieUpdates K V) : TrieUpdatesSorted K V where
  accountNodes := drainSorted u.accountNodes u.removedNodes
  storageTries := u.storageTries.map (fun _ updates => updates.intoSorted)

/-! ## The tables -/

/-- The tables of stored branch nodes. -/
@[ext] structure TrieTables (K V : Type) where
  accountsTrie : ExtTreeMap Nibbles V
  storagesTrie : K → ExtTreeMap Nibbles V

/-- Delete removed nodes and insert updated ones. -/
def writeNodes (nodes : List (Nibbles × Option V)) (table : ExtTreeMap Nibbles V) :
    ExtTreeMap Nibbles V :=
  nodes.foldl (fun table e => update table e.1 (id e.2)) table

/-- A deleted storage trie loses all its nodes first. -/
def StorageTrieUpdatesSorted.writeTo (u : StorageTrieUpdatesSorted V)
    (table : ExtTreeMap Nibbles V) : ExtTreeMap Nibbles V :=
  writeNodes u.storageNodes (if u.isDeleted then ∅ else table)

/-- **WRITING THE SORTED FORM.** -/
def TrieUpdatesSorted.writeTo (u : TrieUpdatesSorted K V) (tables : TrieTables K V) :
    TrieTables K V where
  accountsTrie := writeNodes u.accountNodes tables.accountsTrie
  storagesTrie hashedAddress :=
    match u.storageTries[hashedAddress]? with
    | none => tables.storagesTrie hashedAddress
    | some updates => updates.writeTo (tables.storagesTrie hashedAddress)

/-! ## Lookups -/

variable [DecidableEq K]

section

variable {nodes other : ExtTreeMap Nibbles V} {removedNodes removed : ExtTreeSet Nibbles}

theorem get_retainNodes (k : Nibbles) :
    (retainNodes nodes removedNodes)[k]? = if k ∈ removedNodes then none else nodes[k]? := by
  rw [retainNodes, ExtTreeMap.getElem?_filter']
  by_cases hk : k ∈ removedNodes
  · rw [if_pos hk]
    refine Option.filter_eq_none_iff.mpr fun _ _ => ?_
    rw [ExtTreeSet.contains_iff_mem.mpr hk]
    exact false_ne_true
  · have hfalse : removedNodes.contains k = false :=
      eq_false_iff.mpr fun h => hk (ExtTreeSet.contains_iff_mem.mp h)
    rw [if_neg hk]
    cases nodes[k]? with
    | none => rfl
    | some node => exact Option.filter_some_pos (by rw [hfalse]; rfl)

theorem get_extendNodes (hother : other[([] : Nibbles)]? = none) (k : Nibbles) :
    (extendNodes nodes other.toList)[k]? = other[k]?.or nodes[k]? := by
  have hall : excludeEmptyFromPair other.toList = other.toList := by
    refine filter_eq_self.mpr ?_
    rintro ⟨n, node⟩ hmem
    have hget := mem_toList.mp hmem
    cases n with
    | nil => cases hother.symm.trans hget
    | cons n ns => rfl
  rw [extendNodes, hall]
  exact get_extend nodes other k

theorem mem_extendRemoved (hremoved : ([] : Nibbles) ∉ removed) (k : Nibbles) :
    k ∈ extendRemoved removedNodes removed.toList ↔ k ∈ removed ∨ k ∈ removedNodes := by
  have hall : excludeEmpty removed.toList = removed.toList := by
    refine filter_eq_self.mpr ?_
    intro n hmem
    cases n with
    | nil => exact absurd (ExtTreeSet.mem_toList.mp hmem) hremoved
    | cons n ns => rfl
  rw [extendRemoved, hall, mem_foldl_insert fun n => n]
  simp only [exists_eq_right, ExtTreeSet.mem_toList]

/-- The listed nodes: an updated node, or a removed one that is not updated. -/
theorem mem_drainSorted :
    (k, node) ∈ drainSorted nodes removedNodes ↔
      (∃ v, node = some v ∧ nodes[k]? = some v) ∨
        node = none ∧ k ∈ removedNodes ∧ nodes[k]? = none := by
  simp only [drainSorted, sortByKey, (perm_insertionSort _ _).mem_iff, mem_append, mem_map, Prod.mk.injEq,
    ExtTreeSet.mem_toList, mem_foldl_erase Prod.fst]
  refine or_congr ?_ ?_
  · constructor
    · rintro ⟨⟨n, v⟩, hmem, rfl, rfl⟩
      exact ⟨v, rfl, mem_toList.mp hmem⟩
    · rintro ⟨v, rfl, hget⟩
      exact ⟨(k, v), mem_toList.mpr hget, rfl, rfl⟩
  · constructor
    · rintro ⟨n, ⟨hmem, hne⟩, rfl, rfl⟩
      refine ⟨rfl, hmem, get_eq_none_iff.mpr ?_⟩
      intro hk
      obtain ⟨e, he, hek⟩ := mem_map.mp hk
      exact hne e he hek
    · rintro ⟨rfl, hmem, hget⟩
      refine ⟨k, ⟨hmem, ?_⟩, rfl, rfl⟩
      intro e he hek
      exact get_eq_none_iff.mp hget (mem_map.mpr ⟨e, he, hek⟩)

theorem nodup_drainSorted : ((drainSorted nodes removedNodes).map Prod.fst).Nodup := by
  rw [drainSorted, sortByKey, ((perm_insertionSort _ _).map Prod.fst).nodup_iff, map_append,
    map_map, map_map]
  refine nodup_append.mpr ⟨nodup_keys nodes, ?_, ?_⟩
  · rw [show (Prod.fst ∘ fun path : Nibbles => (path, (none : Option V))) = id from rfl, map_id]
    refine ExtTreeSet.distinct_toList.imp ?_
    rintro a b hab rfl
    exact hab (compare_eq_iff_eq.mpr rfl)
  · rintro k hk k' hk' rfl
    obtain ⟨e, he, rfl⟩ := mem_map.mp hk
    obtain ⟨n, hn, hne⟩ := mem_map.mp hk'
    have hmem := ExtTreeSet.mem_toList.mp hn
    rw [mem_foldl_erase Prod.fst] at hmem
    exact hmem.2 e he hne.symm

/-- **WHAT IS WRITTEN**: an updated node, no node if it is removed, and what was there otherwise. -/
theorem get_writeNodes_drainSorted (table : ExtTreeMap Nibbles V) (k : Nibbles) :
    (writeNodes (drainSorted nodes removedNodes) table)[k]? =
      match nodes[k]? with
      | some node => some node
      | none => if k ∈ removedNodes then none else table[k]? := by
  obtain ⟨hin, hout⟩ := get_foldl_update id k (drainSorted nodes removedNodes) table
    nodup_drainSorted
  cases hget : nodes[k]? with
  | some node => exact hin (some node) (mem_drainSorted.mpr (.inl ⟨node, rfl, hget⟩))
  | none =>
    by_cases hk : k ∈ removedNodes
    · dsimp only
      rw [if_pos hk]
      exact hin none (mem_drainSorted.mpr (.inr ⟨rfl, hk, hget⟩))
    · dsimp only
      rw [if_neg hk]
      refine hout ?_
      intro hmem
      obtain ⟨⟨k', node⟩, he, rfl⟩ := mem_map.mp hmem
      rcases mem_drainSorted.mp he with ⟨v, -, hv⟩ | ⟨-, hr, -⟩
      · cases hget.symm.trans hv
      · exact hk hr

/-- Writing merged nodes is writing the earlier and then the later ones. -/
theorem writeNodes_extend (hother : other[([] : Nibbles)]? = none)
    (hremoved : ([] : Nibbles) ∉ removed) (table : ExtTreeMap Nibbles V) :
    writeNodes (drainSorted (extendNodes (retainNodes nodes removed) other.toList)
        (extendRemoved removedNodes removed.toList)) table =
      writeNodes (drainSorted other removed)
        (writeNodes (drainSorted nodes removedNodes) table) := by
  refine ExtTreeMap.ext_getElem? fun {k} => ?_
  rw [get_writeNodes_drainSorted, get_writeNodes_drainSorted, get_writeNodes_drainSorted,
    get_extendNodes hother, get_retainNodes]
  simp only [mem_extendRemoved hremoved]
  cases other[k]? with
  | some node => rfl
  | none =>
    -- a path that is removed later is not kept among the updated ones
    by_cases hk : k ∈ removed
    · simp [hk]
    · simp [hk]

end

/-! ## Writing merged updates -/

/-- No update is about the path of the root. -/
def StorageTrieUpdates.NoEmptyPaths (u : StorageTrieUpdates V) : Prop :=
  u.storageNodes[([] : Nibbles)]? = none ∧ ([] : Nibbles) ∉ u.removedNodes

def TrieUpdates.NoEmptyPaths (u : TrieUpdates K V) : Prop :=
  u.accountNodes[([] : Nibbles)]? = none ∧ ([] : Nibbles) ∉ u.removedNodes ∧
    ∀ (hashedAddress : K) (updates : StorageTrieUpdates V),
      u.storageTries[hashedAddress]? = some updates → updates.NoEmptyPaths

theorem StorageTrieUpdates.write_merged_storage (a : StorageTrieUpdates V) (hb : b.NoEmptyPaths)
    (table : ExtTreeMap Nibbles V) :
    (a.extend b).intoSorted.writeTo table =
      b.intoSorted.writeTo (a.intoSorted.writeTo table) := by
  cases hdeleted : b.isDeleted with
  | false =>
    simp only [StorageTrieUpdatesSorted.writeTo, intoSorted, extend, extendCommon, hdeleted,
      Bool.or_false, Bool.false_eq_true, if_false]
    exact writeNodes_extend hb.1 hb.2 _
  | true =>
    -- the deletion cancels all that `a` changed
    simp only [StorageTrieUpdatesSorted.writeTo, intoSorted, extend, extendCommon, hdeleted,
      Bool.or_true, if_true]
    rw [writeNodes_extend hb.1 hb.2]
    congr 1

theorem StorageTrieUpdates.extendRef_eq_extend (a b : StorageTrieUpdates V) :
    a.extendRef b = a.extend b := by
  simp only [extendRef, extend, List.map_id_fun', Prod.mk.eta, id]

omit [DecidableEq K] in
theorem TrieUpdates.extendRef_eq_extend (a b : TrieUpdates K V) : a.extendRef b = a.extend b := by
  simp only [extendRef, extend, StorageTrieUpdates.extendRef_eq_extend, List.map_id_fun',
    Prod.mk.eta, id]

namespace TrieUpdates

variable [LawfulEqOrd K]

theorem writeTo_default (table : ExtTreeMap Nibbles V) :
    (StorageTrieUpdates.default : StorageTrieUpdates V).intoSorted.writeTo table = table := by
  refine ExtTreeMap.ext_getElem? fun {k} => ?_
  rw [StorageTrieUpdatesSorted.writeTo, StorageTrieUpdates.intoSorted, get_writeNodes_drainSorted]
  simp [StorageTrieUpdates.default]

omit [DecidableEq K] in
/-- The storage trie of an address after sorted updates have been written. -/
theorem storagesTrie_writeTo (u : TrieUpdates K V) (tables : TrieTables K V) (hashedAddress : K) :
    (u.intoSorted.writeTo tables).storagesTrie hashedAddress =
      (u.storageTries[hashedAddress]?.getD .default).intoSorted.writeTo
        (tables.storagesTrie hashedAddress) := by
  simp only [TrieUpdatesSorted.writeTo, intoSorted, ExtTreeMap.getElem?_map]
  cases u.storageTries[hashedAddress]? with
  | none => exact (writeTo_default _).symm
  | some updates => rfl

/-- **WRITING IS AN ACTION**: merged updates write what their parts write one after the other, and
    borrowed updates merge as owned ones. -/
theorem writeTo_extend :
    (∀ (a b : TrieUpdates K V) (tables : TrieTables K V), a.NoEmptyPaths → b.NoEmptyPaths →
      (a.extend b).intoSorted.writeTo tables = b.intoSorted.writeTo (a.intoSorted.writeTo tables)) ∧
    ∀ a b : TrieUpdates K V, a.extend b = a.extendRef b := by
  refine ⟨?_, fun a b => (extendRef_eq_extend a b).symm⟩
  intro a b tables _ hb
  refine TrieTables.ext (writeNodes_extend hb.1 hb.2.1 _) (funext fun hashedAddress => ?_)
  rw [storagesTrie_writeTo, storagesTrie_writeTo, storagesTrie_writeTo]
  show (((extendWith _ a.storageTries b.storageTries)[hashedAddress]?).getD _).intoSorted.writeTo _
    = _
  rw [get_extendWith]
  cases hget : b.storageTries[hashedAddress]? with
  | none => exact (writeTo_default _).symm
  | some updates =>
    exact StorageTrieUpdates.write_merged_storage _ (hb.2.2 hashedAddress updates hget) _

/-- Updates that insert and remove account nodes, and a node of the storage trie 1. -/
def sampleEarlier : TrieUpdates Nat Nat where
  accountNodes := (∅ : ExtTreeMap Nibbles Nat).insert [1] 10 |>.insert [1, 2] 12
  removedNodes := (∅ : ExtTreeSet Nibbles).insert [3]
  storageTries := (∅ : ExtTreeMap Nat (StorageTrieUpdates Nat)).insert 1
    ⟨false, (∅ : ExtTreeMap Nibbles Nat).insert [5] 50, ∅⟩

/-- Later updates remove an inserted node, insert a removed one, and delete the storage trie. -/
def sampleLater : TrieUpdates Nat Nat where
  accountNodes := (∅ : ExtTreeMap Nibbles Nat).insert [3] 30
  removedNodes := (∅ : ExtTreeSet Nibbles).insert [1]
  storageTries := (∅ : ExtTreeMap Nat (StorageTrieUpdates Nat)).insert 1
    ⟨true, (∅ : ExtTreeMap Nibbles Nat).insert [6] 60, ∅⟩

theorem noEmptyPaths_insert {accountNodes : ExtTreeMap Nibbles V}
    {removedNodes : ExtTreeSet Nibbles} (hnodes : accountNodes[([] : Nibbles)]? = none)
    (hremoved : ([] : Nibbles) ∉ removedNodes) (hupdates : updates.NoEmptyPaths) :
    NoEmptyPaths ⟨accountNodes, removedNodes,
      (∅ : ExtTreeMap K (StorageTrieUpdates V)).insert hashedAddress updates⟩ := by
  refine ⟨hnodes, hremoved, ?_⟩
  intro hashedAddress' updates' hget
  rw [get_insert] at hget
  split at hget
  · cases hget
    exact hupdates
  · exact nomatch (ExtTreeMap.getElem?_empty (α := K)).symm.trans hget

theorem writeTo_extend_sample : sampleEarlier.NoEmptyPaths ∧ sampleLater.NoEmptyPaths ∧
    (sampleEarlier.extend sampleLater).intoSorted.accountNodes =
      [([1], none), ([1, 2], some 12), ([3], some 30)] ∧
    (sampleEarlier.extend sampleLater).intoSorted.writeTo ⟨∅, fun _ => ∅⟩ =
      sampleLater.intoSorted.writeTo (sampleEarlier.intoSorted.writeTo ⟨∅, fun _ => ∅⟩) := by
  have hearlier : sampleEarlier.NoEmptyPaths :=
    noEmptyPaths_insert (by decide +kernel) (by decide +kernel)
      ⟨by decide +kernel, by decide +kernel⟩
  have hlater : sampleLater.NoEmptyPaths :=
    noEmptyPaths_insert (by decide +kernel) (by decide +kernel)
      ⟨by decide +kernel, by decide +kernel⟩
  exact ⟨hearlier, hlater, by decide +kernel, writeTo_extend.1 _ _ _ hearlier hlater⟩

end TrieUpdates

end Trie
