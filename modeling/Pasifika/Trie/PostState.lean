import Pasifika.OrderedMap.Groups
import Pasifika.Trie.Overlay

/-! # Reading through a post state

State roots are computed over the database with a post state on top of it.
`HashedPostStateCursorFactory` gives cursors that read both: the database through
a cursor that can be repositioned anywhere, and the post state through a
`ForwardInMemoryCursor`, which never moves back.

Either cursor refines an OVERLAY: a base map, the entries that the post state sets
and the keys that it clears. As long as no entry of the post state at or after a
sought key has been passed, an overlay reads like a cursor over the merged map. -/

namespace Trie

open Std OrderedMap List Option

variable {K V A : Type} [Ord K] [TransOrd K]

/-! ## Cursors -/

/-- A database cursor: the entries from its position on. -/
structure DbCursor (K V : Type) [Ord K] where
  table : ExtTreeMap K V
  position : List (K × V)

namespace DbCursor

def seek (c : DbCursor K V) (key : K) : Option (K × V) × DbCursor K V :=
  let position := c.table.toList.dropWhile (fun e => (compare e.1 key).isLT)
  (position.head?, { c with position := position })

/-- `while entry.is_some_and(skip) { entry = cursor.next()? }`, from a cursor that stands
    at `entry`. -/
def skipWhile (c : DbCursor K V) (skip : K → Bool) : Option (K × V) × DbCursor K V :=
  let position := c.position.dropWhile (fun e => skip e.1)
  (position.head?, { c with position := position })

/-- `is_storage_empty`. -/
def isEmpty (c : DbCursor K V) : Bool := c.table.isEmpty

end DbCursor

/-- `ForwardInMemoryCursor`: the entries that are still ahead. -/
structure ForwardInMemoryCursor (K V : Type) where
  entries : List (K × V)
  isEmpty : Bool

namespace ForwardInMemoryCursor

def new (entries : List (K × V)) : ForwardInMemoryCursor K V := ⟨entries, entries.isEmpty⟩

def advanceWhile (c : ForwardInMemoryCursor K V) (predicate : K → Bool) :
    Option (K × V) × ForwardInMemoryCursor K V :=
  let entries := c.entries.dropWhile (fun e => predicate e.1)
  (entries.head?, { c with entries := entries })

def seek (c : ForwardInMemoryCursor K V) (key : K) :
    Option (K × V) × ForwardInMemoryCursor K V :=
  c.advanceWhile (fun k => (compare k key).isLT)

def firstAfter (c : ForwardInMemoryCursor K V) (key : K) :
    Option (K × V) × ForwardInMemoryCursor K V :=
  c.advanceWhile (fun k => (compare k key).isLE)

end ForwardInMemoryCursor

/-! ## The post state -/

/-- `HashedStorage`; slot values are numbers. -/
structure HashedStorage (K : Type) [Ord K] where
  wiped : Bool
  storage : ExtTreeMap K Nat

/-- `HashedPostState`; a destroyed account is bound to `none`. -/
structure HashedPostState (K A : Type) [Ord K] where
  accounts : ExtTreeMap K (Option A)
  storages : ExtTreeMap K (HashedStorage K)

structure HashedAccountsSorted (K A : Type) [Ord K] where
  accounts : List (K × A)
  destroyedAccounts : ExtTreeSet K

structure HashedStorageSorted (K : Type) [Ord K] where
  nonZeroValuedSlots : List (K × Nat)
  zeroValuedSlots : ExtTreeSet K
  wiped : Bool

structure HashedPostStateSorted (K A : Type) [Ord K] where
  accounts : HashedAccountsSorted K A
  storages : ExtTreeMap K (HashedStorageSorted K)

/-- The entries that updates set, in the order of their keys. -/
def setEntries {U : Type} (g : U → Option V) (updates : ExtTreeMap K U) : List (K × V) :=
  updates.toList.filterMap (fun e => (g e.2).map (fun v => (e.1, v)))

/-- The keys that updates clear. -/
def clearedKeys {U : Type} (g : U → Option V) (updates : ExtTreeMap K U) :
    ExtTreeSet K :=
  (updates.toList.filter (fun e => (g e.2).isNone)).foldl (fun s e => s.insert e.1) ∅

/-- Slots are cleared by the value 0. -/
def slotUpdate (value : Nat) : Option Nat := if value = 0 then none else some value

def HashedStorage.intoSorted (s : HashedStorage K) : HashedStorageSorted K where
  nonZeroValuedSlots := setEntries slotUpdate s.storage
  zeroValuedSlots := clearedKeys slotUpdate s.storage
  wiped := s.wiped

def HashedPostState.intoSorted (s : HashedPostState K A) : HashedPostStateSorted K A where
  accounts :=
    { accounts := setEntries id s.accounts
      destroyedAccounts := clearedKeys id s.accounts }
  storages := s.storages.map (fun _ storage => storage.intoSorted)

/-! ## The account cursor -/

structure HashedPostStateAccountCursor (K A : Type) [Ord K] where
  cursor : DbCursor K A
  postStateCursor : ForwardInMemoryCursor K A
  destroyedAccounts : ExtTreeSet K
  lastAccount : Option K

namespace HashedPostStateAccountCursor

def new (cursor : DbCursor K A) (postStateAccounts : HashedAccountsSorted K A) :
    HashedPostStateAccountCursor K A where
  cursor := cursor
  postStateCursor := .new postStateAccounts.accounts
  destroyedAccounts := postStateAccounts.destroyedAccounts
  lastAccount := none

def isAccountCleared (c : HashedPostStateAccountCursor K A) (account : K) : Bool :=
  c.destroyedAccounts.contains account

def seekInner (c : HashedPostStateAccountCursor K A) (key : K) :
    Option (K × A) × HashedPostStateAccountCursor K A :=
  let p := c.postStateCursor.seek key
  let c := { c with postStateCursor := p.2 }
  if p.1.any (fun entry => (compare entry.1 key).isEq) then (p.1, c)
  else
    let db := (c.cursor.seek key).2.skipWhile (fun address => c.isAccountCleared address)
    (compareEntries p.1 db.1, { c with cursor := db.2 })

def nextInner (c : HashedPostStateAccountCursor K A) (lastAccount : K) :
    Option (K × A) × HashedPostStateAccountCursor K A :=
  let p := c.postStateCursor.firstAfter lastAccount
  let c := { c with postStateCursor := p.2 }
  let db := (c.cursor.seek lastAccount).2.skipWhile
    (fun address => (compare address lastAccount).isLE || c.isAccountCleared address)
  (compareEntries p.1 db.1, { c with cursor := db.2 })

def seek (c : HashedPostStateAccountCursor K A) (key : K) :
    Option (K × A) × HashedPostStateAccountCursor K A :=
  let r := c.seekInner key
  (r.1, { r.2 with lastAccount := r.1.map Prod.fst })

def next (c : HashedPostStateAccountCursor K A) :
    Option (K × A) × HashedPostStateAccountCursor K A :=
  match c.lastAccount with
  | some account =>
    let r := c.nextInner account
    (r.1, { r.2 with lastAccount := r.1.map Prod.fst })
  | none => (none, c)

def step (c : HashedPostStateAccountCursor K A) :
    Call K → Option (K × A) × HashedPostStateAccountCursor K A
  | .seek key => c.seek key
  | .next => c.next

end HashedPostStateAccountCursor

/-! ## The storage cursor -/

structure HashedPostStateStorageCursor (K : Type) [Ord K] where
  cursor : DbCursor K Nat
  postStateCursor : Option (ForwardInMemoryCursor K Nat)
  clearedSlots : Option (ExtTreeSet K)
  storageWiped : Bool
  lastSlot : Option K

namespace HashedPostStateStorageCursor

def new (cursor : DbCursor K Nat) (postStateStorage : Option (HashedStorageSorted K)) :
    HashedPostStateStorageCursor K where
  cursor := cursor
  postStateCursor := postStateStorage.map (fun s => .new s.nonZeroValuedSlots)
  clearedSlots := postStateStorage.map (fun s => s.zeroValuedSlots)
  storageWiped := postStateStorage.any (fun s => s.wiped)
  lastSlot := none

def isSlotZeroValued (c : HashedPostStateStorageCursor K) (slot : K) : Bool :=
  c.clearedSlots.any (fun s => s.contains slot)

/-- Move the post state cursor, if there is one. -/
def movePostState (c : HashedPostStateStorageCursor K)
    (move : ForwardInMemoryCursor K Nat → Option (K × Nat) × ForwardInMemoryCursor K Nat) :
    Option (K × Nat) × HashedPostStateStorageCursor K :=
  match c.postStateCursor with
  | none => (none, c)
  | some p => ((move p).1, { c with postStateCursor := some (move p).2 })

def seekInner (c : HashedPostStateStorageCursor K) (subkey : K) :
    Option (K × Nat) × HashedPostStateStorageCursor K :=
  let p := c.movePostState (fun c => c.seek subkey)
  let c := p.2
  if c.storageWiped || p.1.any (fun entry => (compare entry.1 subkey).isEq) then (p.1, c)
  else
    let db := (c.cursor.seek subkey).2.skipWhile (fun slot => c.isSlotZeroValued slot)
    (compareEntries p.1 db.1, { c with cursor := db.2 })

def nextInner (c : HashedPostStateStorageCursor K) (lastSlot : K) :
    Option (K × Nat) × HashedPostStateStorageCursor K :=
  let p := c.movePostState (fun c => c.firstAfter lastSlot)
  let c := p.2
  if c.storageWiped then (p.1, c)
  else
    let db := (c.cursor.seek lastSlot).2.skipWhile
      (fun slot => (compare slot lastSlot).isEq || c.isSlotZeroValued slot)
    (compareEntries p.1 db.1, { c with cursor := db.2 })

def seek (c : HashedPostStateStorageCursor K) (subkey : K) :
    Option (K × Nat) × HashedPostStateStorageCursor K :=
  let r := c.seekInner subkey
  (r.1, { r.2 with lastSlot := r.1.map Prod.fst })

def next (c : HashedPostStateStorageCursor K) :
    Option (K × Nat) × HashedPostStateStorageCursor K :=
  match c.lastSlot with
  | some lastSlot =>
    let r := c.nextInner lastSlot
    (r.1, { r.2 with lastSlot := r.1.map Prod.fst })
  | none => (none, c)

def step (c : HashedPostStateStorageCursor K) :
    Call K → Option (K × Nat) × HashedPostStateStorageCursor K
  | .seek subkey => c.seek subkey
  | .next => c.next

def isStorageEmpty (c : HashedPostStateStorageCursor K) : Bool :=
  match c.postStateCursor with
  | some cursor => c.storageWiped && cursor.isEmpty
  | none => c.cursor.isEmpty

end HashedPostStateStorageCursor

/-! ## The factory -/

/-- The hashed tables of a database. -/
structure Database (K A : Type) [Ord K] where
  accounts : ExtTreeMap K A
  storages : ExtTreeMap K (ExtTreeMap K Nat)

structure HashedPostStateCursorFactory (K A : Type) [Ord K] where
  database : Database K A
  postState : HashedPostStateSorted K A

namespace HashedPostStateCursorFactory

def hashedAccountCursor (f : HashedPostStateCursorFactory K A) : HashedPostStateAccountCursor K A :=
  .new ⟨f.database.accounts, []⟩ f.postState.accounts

def hashedStorageCursor (f : HashedPostStateCursorFactory K A) (hashedAddress : K) :
    HashedPostStateStorageCursor K :=
  .new ⟨f.database.storages[hashedAddress]?.getD ∅, []⟩ f.postState.storages[hashedAddress]?

end HashedPostStateCursorFactory

/-! ## The cursors refine overlays -/

/-- Where a database cursor stands after a seek and a loop that skips entries. -/
theorem DbCursor.seek_skipWhile (c : DbCursor K V) (key : K) (skip : K → Bool) :
    ((c.seek key).2.skipWhile skip).1 =
      c.table.toList.find? (fun e => !(compare e.1 key).isLT && !skip e.1) := by
  show ((c.table.toList.dropWhile fun e => (compare e.1 key).isLT).dropWhile
    (skip ·.1)).head? = _
  rw [dropWhile_eq_filter (sorted_toList c.table) (downward_lt key ·.1 ·.1),
    show (fun e : K × V => skip e.1) = (!!skip ·.1) from
      funext fun e => (Bool.not_not _).symm,
    ← find?_eq_head?_dropWhile_not, find?_filter]
  simp only [Bool.decide_and, Bool.decide_eq_true]

/-- Between equal keys the entry of the post state is taken, so that the database need not
    be read after an exact match. -/
theorem compareEntries_exact [LawfulEqOrd K] (hkey : (compare entry.1 key).isEq = true)
    (l : List (K × V)) (q : K → Bool) :
    compareEntries (some entry) (l.find? fun e => !(compare e.1 key).isLT && q e.1) =
      some entry := by
  cases hfind : l.find? (fun e => !(compare e.1 key).isLT && q e.1) with
  | none => rfl
  | some dbEntry =>
    have hge : (!(compare dbEntry.1 key).isLT) = true :=
      (Bool.and_eq_true_iff.mp
        (@find?_some (K × V) (fun e => !(compare e.1 key).isLT && q e.1) _ _ hfind)).1
    rw [not_isLT, ← compare_eq_iff_eq.mp (Ordering.isEq_iff_eq_eq.mp hkey)] at hge
    rw [compareEntries, if_pos hge]

section

/-- The overlay that an account cursor reads. -/
def HashedPostStateAccountCursor.overlay (c : HashedPostStateAccountCursor K A) : Overlay K A where
  base := c.cursor.table
  cleared := fun account => c.destroyedAccounts.contains account
  ahead := c.postStateCursor.entries
  last := c.lastAccount

variable (c : HashedPostStateAccountCursor K A)

theorem HashedPostStateAccountCursor.nextInner_eq (lastAccount : K) :
    c.overlay.Reads (fun k => (compare k lastAccount).isLE) (c.nextInner lastAccount).1
      (c.nextInner lastAccount).2.overlay := by
  refine ⟨?_, rfl⟩
  show compareEntries _ _ = compareEntries _ _
  rw [DbCursor.seek_skipWhile]
  -- the seek starts at the last account or after it
  have htest : (fun e : K × A => !(compare e.1 lastAccount).isLT &&
      !((compare e.1 lastAccount).isLE || c.destroyedAccounts.contains e.1)) =
      (fun e => !(compare e.1 lastAccount).isLE && !c.destroyedAccounts.contains e.1) := by
    funext e
    cases compare e.1 lastAccount <;> rfl
  exact congrArg (fun q => compareEntries _ (c.cursor.table.toList.find? q)) htest

variable [LawfulEqOrd K]

/-- An exact match leaves the database cursor where it is, and returns the same. -/
theorem HashedPostStateAccountCursor.seekInner_eq (key : K) :
    c.overlay.Reads (fun k => (compare k key).isLT) (c.seekInner key).1
      (c.seekInner key).2.overlay := by
  rw [seekInner]
  cases hexact : (c.postStateCursor.seek key).1.any (fun entry => (compare entry.1 key).isEq) with
  | true =>
    obtain ⟨entry, hentry, hkey⟩ := any_eq_true _ _ |>.mp hexact
    rw [if_pos rfl]
    refine ⟨?_, rfl⟩
    show (c.postStateCursor.seek key).1 = compareEntries (c.postStateCursor.seek key).1 _
    rw [hentry]
    exact (compareEntries_exact hkey _ (!c.isAccountCleared ·)).symm
  | false =>
    rw [if_neg Bool.false_ne_true]
    refine ⟨?_, rfl⟩
    show compareEntries _ _ = _
    rw [DbCursor.seek_skipWhile]
    rfl

theorem HashedPostStateAccountCursor.overlay_step (call : Call K) :
    c.overlay.step call = ((c.step call).1, (c.step call).2.overlay) := by
  cases call with
  | seek key => exact (c.seekInner_eq key).read_eq
  | next =>
    cases hlast : c.lastAccount with
    | none =>
      have hover : c.overlay.last = none := hlast
      rw [step, next, hlast, Overlay.step, hover]
    | some account =>
      have hover : c.overlay.last = some account := hlast
      rw [step, next, hlast, Overlay.step, hover]
      exact (c.nextInner_eq account).read_eq

end

section

namespace HashedPostStateStorageCursor

/-- The overlay that a storage cursor reads; the base of a wiped storage is empty. -/
def overlay (c : HashedPostStateStorageCursor K) : Overlay K Nat where
  base := if c.storageWiped then ∅ else c.cursor.table
  cleared := fun slot => c.clearedSlots.any (fun s => s.contains slot)
  ahead := c.postStateCursor.elim [] ForwardInMemoryCursor.entries
  last := c.lastSlot

variable (c : HashedPostStateStorageCursor K) (before : K → Bool)

/-- A read of the overlay; there is nothing below a wiped storage. -/
theorem overlay_read :
    (c.overlay.read before).1 =
      compareEntries (c.overlay.ahead.dropWhile (before ·.1)).head?
        (if c.storageWiped then none
          else c.cursor.table.toList.find? fun e => !before e.1 && !c.overlay.cleared e.1) := by
  show compareEntries _ ((if c.storageWiped then ∅ else c.cursor.table).toList.find? _) = _
  cases c.storageWiped with
  | true | false => rfl

theorem movePostState_eq :
    c.movePostState (·.advanceWhile before) =
      ((c.overlay.ahead.dropWhile (before ·.1)).head?,
        { c with postStateCursor := c.postStateCursor.map (fun p => (p.advanceWhile before).2) }) := by
  obtain ⟨cursor, postStateCursor, clearedSlots, storageWiped, lastSlot⟩ := c
  cases postStateCursor <;> rfl

theorem overlay_movePostState :
    (c.movePostState (·.advanceWhile before)).2.overlay =
      { c.overlay with ahead := c.overlay.ahead.dropWhile (before ·.1) } := by
  obtain ⟨cursor, postStateCursor, clearedSlots, storageWiped, lastSlot⟩ := c
  cases postStateCursor <;> rfl

theorem nextInner_eq (lastSlot : K) :
    c.overlay.Reads (fun k => (compare k lastSlot).isLE) (c.nextInner lastSlot).1
      (c.nextInner lastSlot).2.overlay := by
  have hmove := c.movePostState_eq fun k => (compare k lastSlot).isLE
  have hahead := c.overlay_movePostState fun k => (compare k lastSlot).isLE
  rw [hmove] at hahead
  rw [Overlay.Reads, overlay_read, nextInner, show c.movePostState (·.firstAfter lastSlot) = _ from hmove]
  cases hwiped : c.storageWiped with
  | true =>
    rw [if_pos rfl, if_pos rfl, compareEntries_none]
    exact ⟨rfl, hwiped ▸ hahead⟩
  | false =>
    rw [if_neg Bool.false_ne_true, if_neg Bool.false_ne_true]
    refine ⟨?_, hwiped ▸ hahead⟩
    dsimp only
    rw [DbCursor.seek_skipWhile]
    have htest : (fun e : K × Nat => !(compare e.1 lastSlot).isLT &&
        !((compare e.1 lastSlot).isEq || c.isSlotZeroValued e.1)) =
        (fun e => !(compare e.1 lastSlot).isLE && !c.isSlotZeroValued e.1) := by
      funext e
      cases compare e.1 lastSlot <;> rfl
    exact congrArg (fun q => compareEntries _ (c.cursor.table.toList.find? q)) htest

omit [TransOrd K] in
theorem isStorageEmpty_movePostState :
    (c.movePostState (·.advanceWhile before)).2.isStorageEmpty = c.isStorageEmpty := by
  obtain ⟨cursor, postStateCursor, clearedSlots, storageWiped, lastSlot⟩ := c
  cases postStateCursor <;> rfl

/-- Neither call changes what `is_storage_empty` looks at. -/
theorem isStorageEmpty_step (call : Call K) :
    (c.step call).2.isStorageEmpty = c.isStorageEmpty := by
  cases call with
  | seek key =>
    show (c.seekInner key).2.isStorageEmpty = _
    rw [seekInner, ← c.isStorageEmpty_movePostState fun k => (compare k key).isLT]
    split <;> rfl
  | next =>
    rw [step, next]
    cases c.lastSlot with
    | none => rfl
    | some slot =>
      show (c.nextInner slot).2.isStorageEmpty = _
      rw [nextInner, ← c.isStorageEmpty_movePostState fun k => (compare k slot).isLE]
      split <;> rfl

theorem isStorageEmpty_foldl (calls : List (Call K)) : ∀ c : HashedPostStateStorageCursor K,
    (calls.foldl (fun c call => (c.step call).2) c).isStorageEmpty = c.isStorageEmpty := by
  induction calls with
  | nil => intro c; rfl
  | cons call calls ih => intro c; rw [foldl_cons, ih, isStorageEmpty_step]

variable [LawfulEqOrd K]

theorem seekInner_eq (subkey : K) :
    c.overlay.Reads (fun k => (compare k subkey).isLT) (c.seekInner subkey).1
      (c.seekInner subkey).2.overlay := by
  have hmove := c.movePostState_eq fun k => (compare k subkey).isLT
  have hahead := c.overlay_movePostState fun k => (compare k subkey).isLT
  rw [hmove] at hahead
  rw [Overlay.Reads, overlay_read, seekInner, show c.movePostState (·.seek subkey) = _ from hmove]
  cases hwiped : c.storageWiped with
  | true =>
    rw [Bool.true_or, if_pos rfl, if_pos rfl, compareEntries_none]
    exact ⟨rfl, hwiped ▸ hahead⟩
  | false =>
    rw [Bool.false_or, if_neg Bool.false_ne_true]
    cases hexact : (c.overlay.ahead.dropWhile fun e => (compare e.1 subkey).isLT).head?.any
        (fun entry => (compare entry.1 subkey).isEq) with
    | true =>
      obtain ⟨entry, hentry, hkey⟩ := (any_eq_true _ _).mp hexact
      rw [if_pos rfl, hentry]
      exact ⟨(compareEntries_exact hkey _ (!c.overlay.cleared ·)).symm, hwiped ▸ hahead⟩
    | false =>
      rw [if_neg Bool.false_ne_true]
      refine ⟨?_, hwiped ▸ hahead⟩
      dsimp only
      rw [DbCursor.seek_skipWhile]
      rfl

theorem overlay_step (call : Call K) :
    c.overlay.step call = ((c.step call).1, (c.step call).2.overlay) := by
  cases call with
  | seek key => exact (c.seekInner_eq key).read_eq
  | next =>
    cases hlast : c.lastSlot with
    | none =>
      have hover : c.overlay.last = none := hlast
      rw [step, next, hlast, Overlay.step, hover]
    | some slot =>
      have hover : c.overlay.last = some slot := hlast
      rw [step, next, hlast, Overlay.step, hover]
      exact (c.nextInner_eq slot).read_eq

end HashedPostStateStorageCursor

end

/-! ## The merged maps -/

section

variable {U : Type}

theorem sorted_setEntries (g : U → Option V) (updates : ExtTreeMap K U) :
    (setEntries g updates).Pairwise (compare ·.1 ·.1 = .lt) := by
  refine pairwise_filterMap.mpr ((sorted_toList updates).imp ?_)
  rintro ⟨k, u⟩ ⟨k', u'⟩ hlt e he e' he'
  obtain ⟨v, -, rfl⟩ := map_eq_some_iff.mp he
  obtain ⟨v', -, rfl⟩ := map_eq_some_iff.mp he'
  exact hlt

variable [LawfulEqOrd K]

variable {updates : ExtTreeMap K U}

theorem mem_setEntries :
    (k, v) ∈ setEntries g updates ↔ ∃ u, updates[k]? = some u ∧ g u = some v := by
  simp only [setEntries, mem_filterMap, map_eq_some_iff, Prod.mk.injEq]
  constructor
  · rintro ⟨⟨k', u⟩, hmem, w, hw, rfl, rfl⟩
    exact ⟨u, mem_toList.mp hmem, hw⟩
  · rintro ⟨u, hu, hv⟩
    exact ⟨(k, u), mem_toList.mpr hu, v, hv, rfl, rfl⟩

variable [DecidableEq K]

/-- An overlay made of updates stands for the map they are applied to. -/
theorem overlaid_updates (g : U → Option V) (updates : ExtTreeMap K U) (m : ExtTreeMap K V) :
    Overlaid ⟨m, fun k => (clearedKeys g updates).contains k, setEntries g updates, none⟩
      (setEntries g updates) (applyUpdates g updates m) where
  ahead _ he := he
  sorted := sorted_setEntries g updates
  merged k v := by
    have hclear : (clearedKeys g updates).contains k = false ↔
        ∀ u, updates[k]? = some u → g u ≠ none := by
      rw [Bool.eq_false_iff, Ne, ExtTreeSet.contains_iff_mem, clearedKeys,
        mem_foldl_insert Prod.fst]
      simp only [mem_filter, isNone_iff_eq_none, ExtTreeSet.not_mem_empty, or_false]
      constructor
      · intro h u hu hg
        exact h ⟨(k, u), ⟨mem_toList.mpr hu, hg⟩, rfl⟩
      · rintro h ⟨⟨k', u⟩, ⟨hmem, hg⟩, rfl⟩
        exact h u (mem_toList.mp hmem) hg
    simp only [get_applyUpdates, mem_setEntries, hclear]
    cases hu : updates[k]? with
    | none => simp
    | some u => cases hg : g u <;> simp [hg]
  passed _ hlast := nomatch hlast

/-- The accounts of a database to which a post state has been applied. -/
def mergedAccounts (db : Database K A) (post : HashedPostState K A) : ExtTreeMap K A :=
  applyUpdates id post.accounts db.accounts

/-- The storage of an account after a post state: a wiped one hides the slots of the database, and
    slots set to 0 are absent. -/
def mergedStorage (db : Database K A) (post : HashedPostState K A) (hashedAddress : K) :
    ExtTreeMap K Nat :=
  let stored := db.storages[hashedAddress]?.getD ∅
  match post.storages[hashedAddress]? with
  | none => stored
  | some s => applyUpdates slotUpdate s.storage (if s.wiped then ∅ else stored)

end

/-! ## Reading through the factory -/

/-- No sought account is at or before one that the post state sets and that the in-memory
    cursor has passed. -/
def HashedPostStateAccountCursor.inOrder (c : HashedPostStateAccountCursor K A)
    (calls : List (Call K)) : Bool :=
  Trie.inOrder step (fun c => c.postStateCursor.entries) c.postStateCursor.entries c calls

/-- The same for slots; without a storage in the post state there is nothing to pass. -/
def HashedPostStateStorageCursor.inOrder (c : HashedPostStateStorageCursor K)
    (calls : List (Call K)) : Bool :=
  Trie.inOrder step (fun c => c.postStateCursor.elim [] ForwardInMemoryCursor.entries)
    (c.postStateCursor.elim [] ForwardInMemoryCursor.entries) c calls

section

variable [LawfulEqOrd K] [DecidableEq K] (db : Database K A) (post : HashedPostState K A)

theorem outputs_account (calls : List (Call K))
    (h : (HashedPostStateCursorFactory.hashedAccountCursor ⟨db, post.intoSorted⟩).inOrder calls =
      true) :
    outputs HashedPostStateAccountCursor.step
        (HashedPostStateCursorFactory.hashedAccountCursor ⟨db, post.intoSorted⟩) calls =
      outputs MapCursor.step ⟨mergedAccounts db post, none⟩ calls := by
  obtain ⟨hout, hin⟩ := outputs_of_refines (·.overlay_step)
    (setEntries id post.accounts) calls
    (HashedPostStateCursorFactory.hashedAccountCursor ⟨db, post.intoSorted⟩)
  rw [hout]
  exact Overlaid.outputs_eq (sorted_setEntries id post.accounts) calls
    (overlaid_updates id post.accounts db.accounts) (hin.symm.trans h)

/-- What a storage cursor of the factory stands for. -/
theorem overlaid_storage (hashedAddress : K) :
    let c := HashedPostStateCursorFactory.hashedStorageCursor ⟨db, post.intoSorted⟩ hashedAddress
    Overlaid c.overlay c.overlay.ahead (mergedStorage db post hashedAddress) := by
  have hget : post.intoSorted.storages[hashedAddress]? =
      post.storages[hashedAddress]?.map HashedStorage.intoSorted := ExtTreeMap.getElem?_map
  simp only [HashedPostStateCursorFactory.hashedStorageCursor, hget, mergedStorage]
  cases post.storages[hashedAddress]? with
  | some s => exact overlaid_updates slotUpdate s.storage _
  | none =>
    exact {
      ahead := nofun
      sorted := Pairwise.nil
      merged := by
        intro k v
        simp [HashedPostStateStorageCursor.overlay, HashedPostStateStorageCursor.new]
      passed := nofun }

theorem outputs_storage (hashedAddress : K) (calls : List (Call K))
    (h : (HashedPostStateCursorFactory.hashedStorageCursor ⟨db, post.intoSorted⟩
      hashedAddress).inOrder calls = true) :
    outputs HashedPostStateStorageCursor.step
        (HashedPostStateCursorFactory.hashedStorageCursor ⟨db, post.intoSorted⟩ hashedAddress) calls =
      outputs MapCursor.step ⟨mergedStorage db post hashedAddress, none⟩ calls := by
  have hover := overlaid_storage db post hashedAddress
  obtain ⟨hout, hin⟩ := outputs_of_refines (·.overlay_step) _ calls
    (HashedPostStateCursorFactory.hashedStorageCursor ⟨db, post.intoSorted⟩ hashedAddress)
  rw [hout]
  exact Overlaid.outputs_eq hover.sorted calls hover (hin.symm.trans h)

theorem isEmpty_of_isStorageEmpty (hashedAddress : K)
    (h : (HashedPostStateCursorFactory.hashedStorageCursor ⟨db, post.intoSorted⟩
      hashedAddress).isStorageEmpty = true) :
    (mergedStorage db post hashedAddress).isEmpty = true := by
  have hget : post.intoSorted.storages[hashedAddress]? =
      post.storages[hashedAddress]?.map HashedStorage.intoSorted := ExtTreeMap.getElem?_map
  simp only [HashedPostStateCursorFactory.hashedStorageCursor, hget] at h
  rw [mergedStorage]
  cases hs : post.storages[hashedAddress]? with
  | none => rw [hs] at h; exact h
  | some s =>
    rw [hs] at h
    obtain ⟨hwiped, hempty⟩ := Bool.and_eq_true_iff.mp h
    have hwiped : s.wiped = true := hwiped
    dsimp only
    -- updates that set nothing leave nothing of an empty map
    rw [hwiped, if_pos rfl, ExtTreeMap.isEmpty_iff]
    refine ExtTreeMap.ext_getElem? fun k => ?_
    rw [get_applyUpdates, ExtTreeMap.getElem?_empty]
    cases hu : s.storage[k]? with
    | none => rfl
    | some u =>
      refine Option.eq_none_iff_forall_ne_some.mpr fun v hg => ?_
      have hmem := mem_setEntries.mpr ⟨u, hu, show slotUpdate u = some v from hg⟩
      rw [show setEntries slotUpdate s.storage = [] from isEmpty_iff.mp hempty] at hmem
      nomatch hmem

/-- **READING THROUGH A POST STATE**: as long as no sought key is at or before a passed entry, every
    cursor returns what one over the merged map returns; and a storage reported empty is empty. -/
theorem reads_merged :
    (∀ calls, (HashedPostStateCursorFactory.hashedAccountCursor ⟨db, post.intoSorted⟩).inOrder
        calls = true →
      outputs HashedPostStateAccountCursor.step
          (HashedPostStateCursorFactory.hashedAccountCursor ⟨db, post.intoSorted⟩) calls =
        outputs MapCursor.step ⟨mergedAccounts db post, none⟩ calls) ∧
    ∀ hashedAddress,
      (∀ calls, (HashedPostStateCursorFactory.hashedStorageCursor ⟨db, post.intoSorted⟩
          hashedAddress).inOrder calls = true →
        outputs HashedPostStateStorageCursor.step
            (HashedPostStateCursorFactory.hashedStorageCursor ⟨db, post.intoSorted⟩ hashedAddress)
            calls =
          outputs MapCursor.step ⟨mergedStorage db post hashedAddress, none⟩ calls) ∧
      ∀ calls : List (Call K),
        (calls.foldl (fun c call => (c.step call).2)
          (HashedPostStateCursorFactory.hashedStorageCursor ⟨db, post.intoSorted⟩
            hashedAddress)).isStorageEmpty = true →
        (mergedStorage db post hashedAddress).isEmpty = true := by
  refine ⟨outputs_account db post, fun hashedAddress =>
    ⟨outputs_storage db post hashedAddress, ?_⟩⟩
  intro calls h
  refine isEmpty_of_isStorageEmpty db post hashedAddress ?_
  rwa [HashedPostStateStorageCursor.isStorageEmpty_foldl] at h

end

/-- A post state that sets two accounts and two slots of the account 1, over a database
    with an account in between. -/
def samplePost : HashedPostState Nat Nat where
  accounts := (∅ : ExtTreeMap Nat (Option Nat)).insert 1 (some 10) |>.insert 3 (some 30)
  storages := (∅ : ExtTreeMap Nat (HashedStorage Nat)).insert 1
    ⟨true, (∅ : ExtTreeMap Nat Nat).insert 5 50 |>.insert 7 0⟩

def sampleDatabase : Database Nat Nat where
  accounts := (∅ : ExtTreeMap Nat Nat).insert 2 20
  storages := (∅ : ExtTreeMap Nat (ExtTreeMap Nat Nat)).insert 1
    ((∅ : ExtTreeMap Nat Nat).insert 6 60)

/-- The calls of the sample read the accounts, go on from the second one, and read the
    storage of the account 1. -/
theorem reads_merged_sample :
    outputs HashedPostStateAccountCursor.step
        (HashedPostStateCursorFactory.hashedAccountCursor ⟨sampleDatabase, samplePost.intoSorted⟩)
        [.seek 0, .next, .seek 3, .next] =
      outputs MapCursor.step ⟨mergedAccounts sampleDatabase samplePost, none⟩
        [.seek 0, .next, .seek 3, .next] ∧
    outputs HashedPostStateStorageCursor.step
        (HashedPostStateCursorFactory.hashedStorageCursor ⟨sampleDatabase, samplePost.intoSorted⟩ 1)
        [.seek 0, .next] =
      outputs MapCursor.step ⟨mergedStorage sampleDatabase samplePost 1, none⟩ [.seek 0, .next] :=
  ⟨(reads_merged sampleDatabase samplePost).1 _ (by decide +kernel),
    ((reads_merged sampleDatabase samplePost).2 1).1 _ (by decide +kernel)⟩

/-- **A PASSED ENTRY IS LOST**: the same key, sought again after calls of `next`, is not found. -/
theorem passed_account_missing :
    (seekKeys ([.seek 1, .next, .next, .seek 1] : List (Call Nat))).Pairwise (· ≤ ·) ∧
    outputs HashedPostStateAccountCursor.step
        (HashedPostStateCursorFactory.hashedAccountCursor ⟨sampleDatabase, samplePost.intoSorted⟩)
        [.seek 1, .next, .next, .seek 1] =
      [some (1, 10), some (2, 20), some (3, 30), some (2, 20)] ∧
    outputs MapCursor.step ⟨mergedAccounts sampleDatabase samplePost, none⟩
        [.seek 1, .next, .next, .seek 1] =
      [some (1, 10), some (2, 20), some (3, 30), some (1, 10)] := by
  decide +kernel

end Trie
