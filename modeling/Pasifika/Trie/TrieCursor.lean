import Pasifika.Trie.PostState
import Pasifika.Trie.Updates

/-! # The trie cursor over updates in memory

`InMemoryTrieCursor` reads the stored branch nodes together with sorted updates on
top of them. A loop skips the nodes that the updates remove, while the two cursors
advance at different speeds.

  * `next` SEEKS the incremented path of the last node. This is the next path of the
    same length, so that the paths which extend the last one are skipped;
  * the updates are read forward only: a removal that was skipped is forgotten, and a
    later seek finds the stored node again.

Calls that avoid both read the merged map. -/

namespace Trie

open Std OrderedMap List Bool

variable {V : Type}

/-! ## The cursor -/

/-- `InMemoryTrieCursor`; the database cursor is missing if the trie was deleted. -/
structure InMemoryTrieCursor (V : Type) where
  cursor : Option (MapCursor Nibbles V)
  inMemoryCursor : ForwardInMemoryCursor Nibbles (Option V)
  lastKey : Option Nibbles

namespace InMemoryTrieCursor

def new (cursor : Option (MapCursor Nibbles V)) (trieUpdates : List (Nibbles × Option V)) :
    InMemoryTrieCursor V :=
  ⟨cursor, .new trieUpdates, none⟩

/-- `self.cursor.as_mut().map(|c| c.seek(key))`. -/
def dbSeek (cursor : Option (MapCursor Nibbles V)) (key : Nibbles) :
    Option (Nibbles × V) × Option (MapCursor Nibbles V) :=
  match cursor with
  | some c => ((c.seek key).1, some (c.seek key).2)
  | none => (none, none)

/-- `self.cursor.as_mut().map(|c| c.next())`. -/
def dbNext (cursor : Option (MapCursor Nibbles V)) :
    Option (Nibbles × V) × Option (MapCursor Nibbles V) :=
  match cursor with
  | some c => (c.next.1, some c.next.2)
  | none => (none, none)

/-- The loop of `seek_inner`. -/
def seekLoop : Nat → InMemoryTrieCursor V → Option (Nibbles × Option V) →
    Option (Nibbles × V) → Option (Nibbles × V) × InMemoryTrieCursor V
  | 0, c, _, _ => (none, c)
  | fuel + 1, c, memEntry, dbEntry =>
    match memEntry with
    | some (memKey, none) =>
      if dbEntry.all (fun e => (compare memKey e.1).isLT) then
        let mem := c.inMemoryCursor.firstAfter memKey
        seekLoop fuel { c with inMemoryCursor := mem.2 } mem.1 dbEntry
      else if dbEntry.any (fun e => memKey == e.1) then
        let mem := c.inMemoryCursor.firstAfter memKey
        let db := dbNext c.cursor
        seekLoop fuel { c with inMemoryCursor := mem.2, cursor := db.2 } mem.1 db.1
      else (dbEntry, c)
    | some (memKey, some node) =>
      if dbEntry.all (fun e => (compare memKey e.1).isLE) then (some (memKey, node), c)
      else (dbEntry, c)
    | none => (dbEntry, c)

/-- What an exact match returns. -/
def exactEntry (key : Nibbles) (memEntry : Option (Nibbles × Option V))
    (dbEntry : Option (Nibbles × V)) : Option (Nibbles × V) :=
  match memEntry.filter (fun e => e.1 == key) with
  | some (_, entryInner) => entryInner.map (fun node => (key, node))
  | none => (dbEntry.filter (fun e => e.1 == key)).map (fun e => (key, e.2))

/-- `seek_inner`; the loop advances the cursor in memory every time. -/
def seekInner (c : InMemoryTrieCursor V) (key : Nibbles) (exact : Bool) :
    Option (Nibbles × V) × InMemoryTrieCursor V :=
  let mem := c.inMemoryCursor.seek key
  let db := dbSeek c.cursor key
  let c := { c with inMemoryCursor := mem.2, cursor := db.2 }
  if exact then (exactEntry key mem.1 db.1, c)
  else seekLoop (mem.2.entries.length + 1) c mem.1 db.1

def nextInner (c : InMemoryTrieCursor V) (last : Nibbles) :
    Option (Nibbles × V) × InMemoryTrieCursor V :=
  match last.increment with
  | some key => c.seekInner key false
  | none => (none, c)

/-- Remember the key of the entry that is returned. -/
def returning (entry : Option (Nibbles × V) × InMemoryTrieCursor V) :
    Option (Nibbles × V) × InMemoryTrieCursor V :=
  (entry.1, { entry.2 with lastKey := entry.1.map Prod.fst })

def seekExact (c : InMemoryTrieCursor V) (key : Nibbles) :
    Option (Nibbles × V) × InMemoryTrieCursor V :=
  returning (c.seekInner key true)

def seek (c : InMemoryTrieCursor V) (key : Nibbles) :
    Option (Nibbles × V) × InMemoryTrieCursor V :=
  returning (c.seekInner key false)

def next (c : InMemoryTrieCursor V) : Option (Nibbles × V) × InMemoryTrieCursor V :=
  match c.lastKey with
  | some last => returning (c.nextInner last)
  | none => (none, c)

end InMemoryTrieCursor

/-! ## Runs -/

/-- The calls of a trie cursor. -/
inductive NodeCall where
  | seek (key : Nibbles)
  | seekExact (key : Nibbles)
  | next
deriving DecidableEq, Repr

def InMemoryTrieCursor.step (c : InMemoryTrieCursor V) :
    NodeCall → Option (Nibbles × V) × InMemoryTrieCursor V
  | .seek key => c.seek key
  | .seekExact key => c.seekExact key
  | .next => c.next

/-- The entry at a key, on a cursor over a map. -/
def MapCursor.seekExact (c : MapCursor Nibbles V) (key : Nibbles) :
    Option (Nibbles × V) × MapCursor Nibbles V :=
  let entry := c.table[key]?.map (fun node => (key, node))
  (entry, { c with last := entry.map Prod.fst })

/-- What the calls do on a cursor over a map. -/
def MapCursor.nodeStep (c : MapCursor Nibbles V) :
    NodeCall → Option (Nibbles × V) × MapCursor Nibbles V
  | .seek key => c.seek key
  | .seekExact key => c.seekExact key
  | .next => c.next

/-- What a sequence of calls returns. -/
def nodeOutputs {C : Type} (step : C → NodeCall → Option (Nibbles × V) × C) :
    C → List NodeCall → List (Option (Nibbles × V))
  | _, [] => []
  | c, call :: calls => (step c call).1 :: nodeOutputs step (step c call).2 calls

/-- **CALLS THAT ARE SAFE**: a seek finds all updates from its key on still ahead, and `next` finds
    no merged node between the last path and the incremented one. -/
def InMemoryTrieCursor.admits (trieUpdates : List (Nibbles × Option V))
    (merged : ExtTreeMap Nibbles V) (c : InMemoryTrieCursor V) : NodeCall → Bool
  | .seek key | .seekExact key =>
    trieUpdates.all (fun e => (compare e.1 key).isLT ||
      c.inMemoryCursor.entries.any (fun e' => e'.1 == e.1))
  | .next =>
    c.lastKey.all (fun last => merged.toList.all (fun e => (compare e.1 last).isLE ||
      last.increment.any (fun key => (compare key e.1).isLE)))

/-- Every call is safe when it is made. -/
def InMemoryTrieCursor.admitsAll (trieUpdates : List (Nibbles × Option V))
    (merged : ExtTreeMap Nibbles V) : InMemoryTrieCursor V → List NodeCall → Bool
  | _, [] => true
  | c, call :: calls =>
    c.admits trieUpdates merged call && admitsAll trieUpdates merged (c.step call).2 calls

/-! ## The loop finds the first entry -/

section

variable {K U : Type}
  {S : K → U → Prop} {entries : List (K × Option U)} {key : K} {first : Option (K × U)}

/-- What a merge of entries and a base binds: the entries that are set, and the base where
    there is no entry. -/
def Merge (entries : List (K × Option U)) (S : K → U → Prop) (k : K) (v : U) : Prop :=
  (k, some v) ∈ entries ∨ (∀ u, (k, u) ∉ entries) ∧ S k v

theorem merge_cons_none (k : K) (v : U) :
    Merge ((k0, none) :: entries) S k v ↔ Merge entries (fun k v => S k v ∧ k ≠ k0) k v := by
  refine or_congr (by simp) ⟨?_, ?_⟩
  · rintro ⟨hno, hkv⟩
    refine ⟨fun u hu => hno u (mem_cons_of_mem _ hu), hkv, ?_⟩
    rintro rfl
    exact hno none mem_cons_self
  · rintro ⟨hno, hkv, hne⟩
    refine ⟨fun u hu => ?_, hkv⟩
    rcases mem_cons.mp hu with heq | hu
    · cases heq
      exact hne rfl
    · exact hno u hu

theorem find?_congr : ∀ {l : List K}, (∀ a ∈ l, p a = q a) →
    l.find? p = l.find? q := by
  intro l
  induction l with
  | nil => intro _; rfl
  | cons a l ih =>
    intro h
    rw [find?_cons, find?_cons, h a mem_cons_self, ih fun b hb => h b (mem_cons_of_mem _ hb)]

variable [Ord K]

theorem first_congr (h : ∀ k v, R k v ↔ S k v) :
    First R r ↔ First S r := by
  have heq : R = S := funext fun k => funext fun v => propext (h k v)
  rw [heq]

variable [TransOrd K]

/-- Nothing in the base is before or at a key that is before its first entry. -/
theorem not_lt_of_all_isLT (hS : First S first)
    (h : first.all (fun e => (compare key e.1).isLT) = true) :
    ∀ k v, S k v → compare k key ≠ .lt ∧ k ≠ key := by
  intro k v hkv
  cases first with
  | none => exact absurd hkv (hS k v)
  | some e =>
    have hlt : compare key e.1 = .lt := Ordering.isLT_iff_eq_lt.mp h
    refine ⟨fun h' => hS.2 k v hkv (TransCmp.lt_trans h' hlt), ?_⟩
    rintro rfl
    exact hS.2 k v hkv hlt

theorem lt_of_not_all_isLE (h : ¬ first.all (fun e => (compare key e.1).isLE) = true) :
    ∃ e, first = some e ∧ compare e.1 key = .lt := by
  cases first with
  | none => exact absurd rfl h
  | some e =>
    have hgt : compare key e.1 = .gt := Ordering.isLE_eq_false.mp (eq_false_iff.mpr h)
    exact ⟨e, rfl, OrientedCmp.gt_iff_lt.mp hgt⟩

theorem lt_of_lt_head {entries : List (K × U)} {head : K × U} {k : K}
    (hlt : compare k head.1 = .lt) (hhead : ∀ e ∈ entries, compare head.1 e.1 = .lt) :
    ∀ e ∈ head :: entries, compare k e.1 = .lt := by
  intro e he
  rcases mem_cons.mp he with rfl | he
  · exact hlt
  · exact TransCmp.lt_trans hlt (hhead e he)

variable [LawfulEqOrd K]

/-- The first entry of the base comes first if it is before all entries. -/
theorem first_merge_base (hS : First S (some e))
    (hbefore : ∀ e' ∈ entries, compare e.1 e'.1 = .lt) :
    First (Merge entries S) (some e) := by
  have hnot : ∀ e' ∈ entries, compare e'.1 e.1 ≠ .lt := by
    intro e' he' hlt
    exact nomatch (OrientedCmp.gt_iff_lt.mpr (hbefore e' he')).symm.trans hlt
  refine ⟨.inr ⟨fun u hu => ?_, hS.1⟩, ?_⟩
  · have hlt := hbefore _ hu
    rw [Std.compare_eq_iff_eq.mpr rfl] at hlt
    nomatch hlt
  · rintro k v (hmem | ⟨-, hkv⟩)
    · exact hnot _ hmem
    · exact hS.2 k v hkv

/-- An entry at the head comes first if it is not after the first entry of the base. -/
theorem first_merge_head (hhead : ∀ e' ∈ entries, compare k0 e'.1 = .lt)
    (hS : ∀ k v, S k v → compare k k0 ≠ .lt) :
    First (Merge ((k0, some v0) :: entries) S) (some (k0, v0)) := by
  refine ⟨.inl mem_cons_self, ?_⟩
  rintro k v (hmem | ⟨-, hkv⟩)
  · rcases mem_cons.mp hmem with heq | hmem
    · cases heq
      rw [Std.compare_eq_iff_eq.mpr rfl]
      nofun
    · intro hlt
      exact nomatch (OrientedCmp.gt_iff_lt.mpr (hhead _ hmem)).symm.trans hlt
  · exact hS k v hkv

/-- The rest of a sorted list is what comes after its head. -/
theorem dropWhile_isLE_cons (hsorted : (e :: entries).Pairwise (compare ·.1 ·.1 = .lt)) :
    (e :: entries).dropWhile (fun e' => (compare e'.1 e.1).isLE) = entries := by
  obtain ⟨hhead, -⟩ := pairwise_cons.mp hsorted
  rw [dropWhile_cons_of_pos (by rw [Std.compare_eq_iff_eq.mpr rfl]; rfl)]
  cases entries with
  | nil => rfl
  | cons e' entries =>
    refine dropWhile_cons_of_neg ?_
    have hgt : compare e'.1 e.1 = .gt :=
      OrientedCmp.gt_iff_lt.mpr (hhead e' mem_cons_self)
    rw [hgt]
    exact false_ne_true

end

namespace InMemoryTrieCursor

/-- The database cursor stands at the entry that it returned, and what is beyond it in the
    base is what is stored. -/
structure Beyond (table : ExtTreeMap Nibbles V) (S : Nibbles → V → Prop)
    (cursor : Option (MapCursor Nibbles V)) (dbEntry : Option (Nibbles × V)) : Prop where
  first : First S dbEntry
  cursor : ∀ e ∈ dbEntry, cursor = some ⟨table, some e.1⟩
  beyond : ∀ e ∈ dbEntry, ∀ k v, compare e.1 k = .lt → (S k v ↔ table[k]? = some v)

variable {table : ExtTreeMap Nibbles V}

/-- Moving the database cursor takes its entry out of the base. -/
theorem Beyond.next {S : Nibbles → V → Prop} {cursor : Option (MapCursor Nibbles V)}
    {k0 : Nibbles} (h : Beyond table S cursor (some (k0, v0))) :
    Beyond table (fun k v => S k v ∧ k ≠ k0) (dbNext cursor).2 (dbNext cursor).1 := by
  have hcursor := h.cursor _ rfl
  have hS : ∀ k v, (S k v ∧ k ≠ k0) ↔
      (k, v) ∈ table.toList ∧ (compare k0 k).isLT = true := by
    intro k v
    rw [mem_toList, Ordering.isLT_iff_eq_lt]
    constructor
    · rintro ⟨hkv, hne⟩
      have hlt : compare k0 k = .lt := by
        cases hc : compare k0 k with
        | lt => rfl
        | eq => exact absurd (compare_eq_iff_eq.mp hc).symm hne
        | gt => exact absurd (OrientedCmp.gt_iff_lt.mp hc) (h.first.2 k v hkv)
      exact ⟨(h.beyond _ rfl k v hlt).mp hkv, hlt⟩
    · rintro ⟨hget, hlt⟩
      refine ⟨(h.beyond _ rfl k v hlt).mpr hget, ?_⟩
      rintro rfl
      rw [Std.compare_eq_iff_eq.mpr rfl] at hlt
      nomatch hlt
  have hfirst : First (fun k v => S k v ∧ k ≠ k0) (dbNext cursor).1 := by
    rw [first_congr hS, hcursor]
    exact first_find (sorted_toList table) fun e => (compare k0 e.1).isLT
  refine ⟨hfirst, ?_, ?_⟩
  · intro e he
    rw [hcursor] at he ⊢
    have he : table.toList.find? (fun e => (compare k0 e.1).isLT) = some e := he
    show some (⟨table, (table.toList.find? _).map Prod.fst⟩ : MapCursor Nibbles V) = _
    rw [he]
    rfl
  · intro e he k v hlt
    -- the new entry is beyond the old one
    rw [Option.mem_def.mp he] at hfirst
    have hgt := ((hS e.1 e.2).mp hfirst.1).2
    have hlt' : compare k0 k = .lt :=
      TransCmp.lt_trans (Ordering.isLT_iff_eq_lt.mp hgt) hlt
    rw [hS, mem_toList]
    exact and_iff_left (Ordering.isLT_iff_eq_lt.mpr hlt')

/-- What the loop leaves: it drops removals only, all of them before the entry that is returned. -/
structure LoopLeaves (c : InMemoryTrieCursor V)
    (r : Option (Nibbles × V) × InMemoryTrieCursor V) : Prop where
  suffix : r.2.inMemoryCursor.entries <:+ c.inMemoryCursor.entries
  dropped : ∀ e ∈ c.inMemoryCursor.entries, e ∉ r.2.inMemoryCursor.entries →
    ∀ e' ∈ r.1, compare e.1 e'.1 = .lt
  table : r.2.cursor.map MapCursor.table = c.cursor.map MapCursor.table

theorem LoopLeaves.refl (c : InMemoryTrieCursor V) (entry : Option (Nibbles × V)) :
    LoopLeaves c (entry, c) :=
  ⟨suffix_rfl, fun _ he hnot => absurd he hnot, rfl⟩

/-- One iteration that drops a removal at the head, which nothing in the base is before. -/
theorem LoopLeaves.drop {entries : List (Nibbles × Option V)} {S : Nibbles → V → Prop}
    {k0 : Nibbles} {cursor cursor' : Option (MapCursor Nibbles V)} {isEmpty : Bool}
    {lastKey : Option Nibbles} {r : Option (Nibbles × V) × InMemoryTrieCursor V}
    (hhead : ∀ e ∈ entries, compare k0 e.1 = .lt) (hS : ∀ k v, S k v → compare k k0 ≠ .lt)
    (htable : cursor'.map MapCursor.table = cursor.map MapCursor.table)
    (hfirst : First (Merge entries fun k v => S k v ∧ k ≠ k0) r.1)
    (hleaves : LoopLeaves ⟨cursor', ⟨entries, isEmpty⟩, lastKey⟩ r) :
    First (Merge ((k0, none) :: entries) S) r.1 ∧
      LoopLeaves ⟨cursor, ⟨(k0, none) :: entries, isEmpty⟩, lastKey⟩ r := by
  refine ⟨(first_congr merge_cons_none).mpr hfirst, ?_, ?_, hleaves.table.trans htable⟩
  · exact hleaves.suffix.trans (suffix_cons _ _)
  intro e he hnot e' he'
  rcases mem_cons.mp he with rfl | he
  · rw [Option.mem_def.mp he'] at hfirst
    rcases hfirst.1 with hmem | ⟨-, hkv, hne⟩
    · exact hhead _ hmem
    · -- not before the removal, and not at it
      cases hc : compare k0 e'.1 with
      | lt => rfl
      | eq => exact absurd (compare_eq_iff_eq.mp hc).symm hne
      | gt => exact absurd (OrientedCmp.gt_iff_lt.mp hc) (hS _ _ hkv)
  · exact hleaves.dropped e he hnot e' he'

/-- **THE LOOP**: it returns the first entry of what the entries ahead and the base bind. -/
theorem seekLoop_first (fuel : Nat) :
    ∀ {c : InMemoryTrieCursor V} {dbEntry : Option (Nibbles × V)} {S : Nibbles → V → Prop},
      c.inMemoryCursor.entries.length < fuel →
      c.inMemoryCursor.entries.Pairwise (compare ·.1 ·.1 = .lt) →
      Beyond table S c.cursor dbEntry →
      First (Merge c.inMemoryCursor.entries S)
          (seekLoop fuel c c.inMemoryCursor.entries.head? dbEntry).1 ∧
        LoopLeaves c (seekLoop fuel c c.inMemoryCursor.entries.head? dbEntry) := by
  induction fuel with
  | zero => intro c dbEntry S hfuel; nomatch hfuel
  | succ fuel ih =>
    intro c dbEntry S hfuel hsorted hdb
    obtain ⟨cursor, ⟨entries, isEmpty⟩, lastKey⟩ := c
    cases entries with
    | nil =>
      refine ⟨?_, .refl _ _⟩
      refine (first_congr fun k v => ?_).mp hdb.first
      simp [Merge]
    | cons e entries =>
      obtain ⟨memKey, node⟩ := e
      obtain ⟨hhead, htail⟩ := pairwise_cons.mp hsorted
      cases node with
      | some node =>
        show First _ (if dbEntry.all _ then _ else _ : _ × InMemoryTrieCursor V).1 ∧
          LoopLeaves _ (if dbEntry.all _ then _ else _)
        split
        · next hle =>
          refine ⟨first_merge_head hhead fun k v hkv hlt => ?_, .refl _ _⟩
          cases dbEntry with
          | none => exact hdb.first k v hkv
          | some e => exact hdb.first.2 k v hkv (TransCmp.lt_of_lt_of_isLE hlt hle)
        · next hle =>
          refine ⟨?_, .refl _ _⟩
          obtain ⟨e, rfl, hlt⟩ := lt_of_not_all_isLE hle
          exact first_merge_base hdb.first (lt_of_lt_head hlt hhead)
      | none =>
        have hrest : (ForwardInMemoryCursor.mk ((memKey, none) :: entries) isEmpty).firstAfter
            memKey = (entries.head?, ⟨entries, isEmpty⟩) := by
          show (head? (dropWhile _ _),
            (⟨dropWhile _ _, _⟩ : ForwardInMemoryCursor Nibbles (Option V))) = _
          rw [dropWhile_isLE_cons hsorted]
        have hlength : entries.length < fuel := Nat.lt_of_succ_lt_succ hfuel
        rw [show (head? ((memKey, none) :: entries)) = some (memKey, none) from rfl, seekLoop]
        rw [hrest]
        split
        · next hlt =>
          -- the database is beyond the removal
          have hS := not_lt_of_all_isLT hdb.first hlt
          have heq : S = fun k v => S k v ∧ k ≠ memKey :=
            funext fun k => funext fun v =>
              propext (and_iff_left_of_imp fun hkv => (hS k v hkv).2).symm
          obtain ⟨hfirst, hleaves⟩ := ih
            (c := ⟨cursor, ⟨entries, isEmpty⟩, lastKey⟩) hlength htail hdb
          rw [heq] at hfirst
          exact LoopLeaves.drop hhead (fun k v hkv => (hS k v hkv).1) rfl hfirst hleaves
        · next hlt =>
          obtain ⟨⟨k, v⟩, rfl⟩ : ∃ e, dbEntry = some e := by
            cases dbEntry with
            | none => exact absurd rfl hlt
            | some e => exact ⟨e, rfl⟩
          split
          · next heq =>
            -- both move on
            have heq : memKey = k := by simpa using heq
            subst heq
            obtain ⟨hfirst, hleaves⟩ := ih
              (c := ⟨(dbNext cursor).2, ⟨entries, isEmpty⟩, lastKey⟩) hlength htail
              hdb.next
            refine LoopLeaves.drop hhead hdb.first.2 ?_ hfirst hleaves
            obtain _ | ⟨_, _ | _⟩ := cursor <;> rfl
          · next hne =>
            refine ⟨first_merge_base hdb.first (lt_of_lt_head ?_ hhead), .refl _ _⟩
            cases hc : compare memKey k with
            | lt => exact absurd (Ordering.isLT_iff_eq_lt.mpr hc) hlt
            | eq => exact absurd (compare_eq_iff_eq.mp hc) (by simpa using hne)
            | gt => exact OrientedCmp.gt_iff_lt.mp hc

/-! ## Reading the merged map -/

/-- The entries ahead are updates, and all of them beyond the key that was returned last. -/
structure Reading (trieUpdates : List (Nibbles × Option V)) (stored : ExtTreeMap Nibbles V)
    (c : InMemoryTrieCursor V) : Prop where
  table : (c.cursor.map MapCursor.table).getD ∅ = stored
  sorted : c.inMemoryCursor.entries.Pairwise (fun a b => compare a.1 b.1 = .lt)
  ahead : ∀ e ∈ c.inMemoryCursor.entries, e ∈ trieUpdates
  passed : ∀ last ∈ c.lastKey, ∀ e ∈ trieUpdates, compare last e.1 = .lt →
    e ∈ c.inMemoryCursor.entries

section

variable {trieUpdates : List (Nibbles × Option V)} {stored : ExtTreeMap Nibbles V}
  {c : InMemoryTrieCursor V}

variable {key : Nibbles}

theorem mem_seek (hsorted : c.inMemoryCursor.entries.Pairwise (compare ·.1 ·.1 = .lt)) :
    e ∈ (c.inMemoryCursor.seek key).2.entries ↔
      e ∈ c.inMemoryCursor.entries ∧ compare e.1 key ≠ .lt := by
  show e ∈ dropWhile _ _ ↔ _
  rw [dropWhile_eq_filter hsorted (downward_lt key ·.1 ·.1 ·), mem_filter,
    not_eq_true', eq_false_iff, Ne, Ordering.isLT_iff_eq_lt]

theorem beyond_dbSeek (cursor : Option (MapCursor Nibbles V)) (key : Nibbles) :
    Beyond ((cursor.map MapCursor.table).getD ∅)
      (fun k v => ((cursor.map MapCursor.table).getD ∅)[k]? = some v ∧ (compare key k).isLE = true)
      (dbSeek cursor key).2 (dbSeek cursor key).1 := by
  cases cursor with
  | none =>
    refine ⟨?_, nofun, nofun⟩
    rintro k v ⟨hget, -⟩
    cases (ExtTreeMap.getElem?_empty (α := Nibbles)).symm.trans hget
  | some db =>
    have hfirst := first_find (sorted_toList db.table) fun e => (compare key e.1).isLE
    simp only [mem_toList] at hfirst
    refine ⟨hfirst, ?_, ?_⟩
    · intro e he
      have he : db.table.toList.find? (fun e => (compare key e.1).isLE) = some e := he
      show some (⟨db.table, (db.table.toList.find? _).map Prod.fst⟩ : MapCursor Nibbles V) = _
      rw [he]
      rfl
    · intro e he k v hlt
      have he : db.table.toList.find? (fun e => (compare key e.1).isLE) = some e := he
      rw [he] at hfirst
      refine and_iff_left (Ordering.isLE_of_eq_lt ?_)
      exact TransCmp.lt_of_isLE_of_lt hfirst.1.2 hlt

theorem table_dbSeek (cursor : Option (MapCursor Nibbles V)) (key : Nibbles) :
    (dbSeek cursor key).2.map MapCursor.table = cursor.map MapCursor.table := by
  cases cursor <;> rfl

theorem filter_key {U : Type} (key : Nibbles) (u : U) :
    (some (key, u)).filter (·.1 == key) = some (key, u) := by
  rw [Option.filter_some, if_pos (beq_self_eq_true key)]

variable {memEntry : Option (Nibbles × Option V)}

theorem exactEntry_key (h : exactEntry key memEntry dbEntry = some e) : e.1 = key := by
  rw [exactEntry] at h
  split at h
  · obtain ⟨node, -, rfl⟩ := Option.map_eq_some_iff.mp h
    rfl
  · obtain ⟨e', -, rfl⟩ := Option.map_eq_some_iff.mp h
    rfl

variable (hnodup : (trieUpdates.map Prod.fst).Nodup)

include hnodup

/-- The merged map, from a key on which all updates are ahead. -/
theorem merge_seek (h : Reading trieUpdates stored c)
    (hahead : ∀ e ∈ trieUpdates, compare e.1 key ≠ .lt → e ∈ c.inMemoryCursor.entries)
    (k : Nibbles) (v : V) :
    Merge (c.inMemoryCursor.seek key).2.entries
        (fun k v => stored[k]? = some v ∧ (compare key k).isLE = true) k v ↔
      (writeNodes trieUpdates stored)[k]? = some v ∧ (compare key k).isLE = true := by
  have hle : ∀ k, compare k key ≠ .lt ↔ (compare key k).isLE = true := by
    intro k
    rw [← not_isLT, not_eq_true', eq_false_iff, Ne, Ne, Ordering.isLT_iff_eq_lt]
  obtain ⟨hin, hout⟩ := get_foldl_update id k trieUpdates stored hnodup
  simp only [Merge, mem_seek h.sorted, hle]
  constructor
  · rintro (⟨hmem, hk⟩ | ⟨hno, hget, hk⟩)
    · exact ⟨hin _ (h.ahead _ hmem), hk⟩
    · refine ⟨(hout ?_).trans hget, hk⟩
      intro hkeys
      obtain ⟨⟨k', u⟩, hu, rfl⟩ := mem_map.mp hkeys
      exact hno u ⟨hahead _ hu ((hle _).mpr hk), hk⟩
  · rintro ⟨hget, hk⟩
    by_cases hkeys : k ∈ trieUpdates.map Prod.fst
    · obtain ⟨⟨k', u⟩, hu, rfl⟩ := mem_map.mp hkeys
      have hv : u = some v := (hin u hu).symm.trans hget
      subst hv
      exact .inl ⟨hahead _ hu ((hle _).mpr hk), hk⟩
    · refine .inr ⟨?_, (hout hkeys).symm.trans hget, hk⟩
      rintro u ⟨hu, -⟩
      exact hkeys (mem_map.mpr ⟨(k, u), h.ahead _ hu, rfl⟩)

/-- **A SEEK** returns the first merged node from its key on, if the updates from there on
    are still ahead. -/
theorem seekInner_eq (h : Reading trieUpdates stored c)
    (hahead : ∀ e ∈ trieUpdates, compare e.1 key ≠ .lt → e ∈ c.inMemoryCursor.entries) :
    (c.seekInner key false).1 =
        (writeNodes trieUpdates stored).toList.find? (fun e => (compare key e.1).isLE) ∧
      Reading trieUpdates stored (returning (c.seekInner key false)).2 := by
  let stepped : InMemoryTrieCursor V :=
    ⟨(dbSeek c.cursor key).2, (c.inMemoryCursor.seek key).2, c.lastKey⟩
  have hsorted : stepped.inMemoryCursor.entries.Pairwise (compare ·.1 ·.1 = .lt) :=
    h.sorted.sublist (dropWhile_sublist _)
  have hbeyond := beyond_dbSeek c.cursor key
  rw [h.table] at hbeyond
  obtain ⟨hfirst, hleaves⟩ := seekLoop_first (stepped.inMemoryCursor.entries.length + 1)
    (c := stepped) (Nat.lt_succ_self _) hsorted hbeyond
  have hloop : c.seekInner key false = seekLoop (stepped.inMemoryCursor.entries.length + 1)
      stepped stepped.inMemoryCursor.entries.head? (dbSeek c.cursor key).1 := rfl
  rw [← hloop] at hfirst hleaves
  rw [first_congr (merge_seek hnodup h hahead)] at hfirst
  refine ⟨?_, ?_, ?_, ?_, ?_⟩
  · have hfind := first_find (sorted_toList (writeNodes trieUpdates stored))
      (fun e => (compare key e.1).isLE)
    simp only [mem_toList] at hfind
    refine First.unique ?_ hfirst hfind
    rintro k v v' ⟨hv, -⟩ ⟨hv', -⟩
    exact Option.some.inj (hv.symm.trans hv')
  · show ((c.seekInner key false).2.cursor.map MapCursor.table).getD ∅ = stored
    rw [hleaves.table, table_dbSeek, h.table]
  · exact hsorted.sublist hleaves.suffix.sublist
  · intro e he
    have hmem := (mem_seek h.sorted).mp (hleaves.suffix.subset he)
    exact h.ahead e hmem.1
  · intro last hlast e he hlt
    obtain ⟨entry, hentry, rfl⟩ := Option.mem_map.mp hlast
    have hentry : (c.seekInner key false).1 = some entry := hentry
    rw [hentry] at hfirst
    -- an update beyond the entry was ahead, and what the loop drops is before the entry
    have hnot : compare e.1 key ≠ .lt := by
      intro hlt'
      have hbefore := TransCmp.lt_trans hlt hlt'
      exact nomatch (TransCmp.lt_of_isLE_of_lt hfirst.1.2 hbefore).symm.trans
        (compare_eq_iff_eq.mpr rfl)
    by_contra hdropped
    have hahead' := (mem_seek h.sorted).mpr ⟨hahead e he hnot, hnot⟩
    exact nomatch (OrientedCmp.gt_iff_lt.mpr hlt).symm.trans
      (hleaves.dropped e hahead' hdropped entry hentry)

/-- **AN EXACT SEEK** returns the merged node at its key. -/
theorem exactEntry_eq (h : Reading trieUpdates stored c)
    (hahead : ∀ e ∈ trieUpdates, compare e.1 key ≠ .lt → e ∈ c.inMemoryCursor.entries) :
    (c.seekInner key true).1 = (writeNodes trieUpdates stored)[key]?.map (fun node => (key, node)) ∧
      Reading trieUpdates stored (returning (c.seekInner key true)).2 := by
  have hirrefl : compare key key ≠ .lt := by
    rw [Std.compare_eq_iff_eq.mpr rfl]
    nofun
  have hsorted : (c.inMemoryCursor.seek key).2.entries.Pairwise (compare ·.1 ·.1 = .lt) :=
    h.sorted.sublist (dropWhile_sublist _)
  have hmem : ∀ e, e ∈ (c.inMemoryCursor.seek key).2.entries ↔
      e ∈ c.inMemoryCursor.entries ∧ compare e.1 key ≠ .lt := fun e => mem_seek h.sorted
  obtain ⟨hin, hout⟩ := get_foldl_update id key trieUpdates stored hnodup
  refine ⟨?_, ?_, ?_, ?_, ?_⟩
  · show exactEntry key (c.inMemoryCursor.seek key).2.entries.head? (dbSeek c.cursor key).1 = _
    by_cases hkeys : key ∈ trieUpdates.map Prod.fst
    · obtain ⟨⟨k, u⟩, hu, hk⟩ := mem_map.mp hkeys
      have hk : k = key := hk
      subst hk
      have hahead' := (hmem _).mpr ⟨hahead _ hu hirrefl, hirrefl⟩
      -- the update at the key is the first of those from the key on
      have hhead : (c.inMemoryCursor.seek k).2.entries.head? = some (k, u) := by
        revert hahead' hsorted hmem
        cases (c.inMemoryCursor.seek k).2.entries with
        | nil => intro _ _ hahead'; nomatch hahead'
        | cons e entries =>
          intro hsorted hmem hahead'
          rcases mem_cons.mp hahead' with heq | hrest
          · rw [heq]
            rfl
          · exact absurd ((pairwise_cons.mp hsorted).1 _ hrest) ((hmem e).mp mem_cons_self).2
      rw [hhead, exactEntry, filter_key, show (writeNodes trieUpdates stored)[k]? = u from hin u hu]
    · rw [show (writeNodes trieUpdates stored)[key]? = stored[key]? from hout hkeys,
        exactEntry, Option.filter_eq_none_iff.mpr]
      · have hfirst := (beyond_dbSeek c.cursor key).first
        rw [h.table] at hfirst
        cases hget : stored[key]? with
        | none =>
          refine Option.map_eq_none_iff.mpr (Option.filter_eq_none_iff.mpr ?_)
          intro e he heq
          rw [he] at hfirst
          rw [← LawfulBEq.eq_of_beq heq] at hget
          exact nomatch hget.symm.trans hfirst.1.1
        | some node =>
          have hat : First (fun k v => stored[k]? = some v ∧ (compare key k).isLE = true)
              (some (key, node)) := by
            refine ⟨⟨hget, by rw [Std.compare_eq_iff_eq.mpr rfl]; rfl⟩, ?_⟩
            rintro k v ⟨-, hle⟩ hlt
            rw [OrientedCmp.gt_iff_lt.mpr hlt] at hle
            nomatch hle
          rw [First.unique (fun k v v' hv hv' => Option.some.inj (hv.1.symm.trans hv'.1))
            hfirst hat, filter_key]
          rfl
      · intro e he heq
        have hmemE := h.ahead e ((hmem e).mp (mem_of_mem_head? he)).1
        exact hkeys (LawfulBEq.eq_of_beq heq ▸ mem_map_of_mem hmemE)
  · show ((dbSeek c.cursor key).2.map MapCursor.table).getD ∅ = stored
    rw [table_dbSeek, h.table]
  · exact hsorted
  · intro e he
    exact h.ahead e ((hmem e).mp he).1
  intro last hlast e he hlt
  obtain ⟨entry, hentry, rfl⟩ := Option.mem_map.mp hlast
  have hkey : entry.1 = key := exactEntry_key hentry
  rw [hkey] at hlt
  have hnot : compare e.1 key ≠ .lt := by
    rw [OrientedCmp.gt_iff_lt.mpr hlt]
    nofun
  exact (hmem e).mpr ⟨hahead e he hnot, hnot⟩

/-- **ONE CALL**: a safe call returns what it returns on the merged map. -/
theorem Reading.step (h : Reading trieUpdates stored c)
    (hadmits : c.admits trieUpdates (writeNodes trieUpdates stored) call = true) :
    MapCursor.nodeStep ⟨writeNodes trieUpdates stored, c.lastKey⟩ call =
        ((c.step call).1, ⟨writeNodes trieUpdates stored, (c.step call).2.lastKey⟩) ∧
      Reading trieUpdates stored (c.step call).2 := by
  -- an update whose key is ahead is ahead itself
  have hahead : ∀ key, trieUpdates.all (fun e => (compare e.1 key).isLT ||
      c.inMemoryCursor.entries.any (·.1 == e.1)) = true →
      ∀ e ∈ trieUpdates, compare e.1 key ≠ .lt → e ∈ c.inMemoryCursor.entries := by
    intro key hall e he hlt
    have hor := all_eq_true.mp hall e he
    rw [eq_false_iff.mpr (mt Ordering.isLT_iff_eq_lt.mp hlt), Bool.false_or] at hor
    obtain ⟨e', he', heq⟩ := any_eq_true.mp hor
    exact inj_on_of_nodup_map hnodup (h.ahead e' he') he (LawfulBEq.eq_of_beq heq) ▸ he'
  cases call with
  | seek key =>
    obtain ⟨heq, hreading⟩ := seekInner_eq hnodup h (hahead key hadmits)
    refine ⟨?_, hreading⟩
    show (_, (⟨_, (find? _ _).map Prod.fst⟩ : MapCursor Nibbles V)) =
      ((c.seekInner key false).1, ⟨_, (c.seekInner key false).1.map Prod.fst⟩)
    rw [heq]
  | seekExact key =>
    obtain ⟨heq, hreading⟩ := exactEntry_eq hnodup h (hahead key hadmits)
    refine ⟨?_, hreading⟩
    show (_, (⟨_, (Option.map _ _).map Prod.fst⟩ : MapCursor Nibbles V)) =
      ((c.seekInner key true).1, ⟨_, (c.seekInner key true).1.map Prod.fst⟩)
    rw [heq]
  | next =>
    show MapCursor.next _ = (c.next.1, ⟨_, c.next.2.lastKey⟩) ∧ Reading _ _ c.next.2
    cases hlast : c.lastKey with
    | none =>
      have hnext : c.next = (none, c) := by rw [next, hlast]
      rw [hnext]
      exact ⟨by rw [hlast]; rfl, h⟩
    | some last =>
      have hnext : c.next = returning (c.nextInner last) := by rw [next, hlast]
      have hall := hadmits
      rw [admits, hlast] at hall
      have hall := all_eq_true.mp hall
      rw [hnext, nextInner]
      cases hkey : last.increment with
      | none =>
        -- there is no path to go on with, and no node beyond the last one
        have hfind : (writeNodes trieUpdates stored).toList.find?
            (fun e => (compare last e.1).isLT) = none := by
          refine find?_eq_none.mpr fun e he => ?_
          have hle := hall e he
          rw [hkey, Option.any_none, Bool.or_false] at hle
          rw [← not_isLE, hle]
          exact false_ne_true
        refine ⟨?_, h.table, h.sorted, h.ahead, nofun⟩
        show (find? _ _, (⟨_, (find? _ _).map Prod.fst⟩ : MapCursor Nibbles V)) = _
        rw [hfind]
        rfl
      | some key =>
        have hlt := Nibbles.lt_increment hkey
        have hseek : ∀ e ∈ trieUpdates, compare e.1 key ≠ .lt →
            e ∈ c.inMemoryCursor.entries := by
          intro e he hnot
          refine h.passed last hlast e he (TransCmp.lt_of_lt_of_isLE hlt ?_)
          rw [← not_isLT, eq_false_iff.mpr (mt Ordering.isLT_iff_eq_lt.mp hnot)]
          rfl
        obtain ⟨heq, hreading⟩ := seekInner_eq hnodup h hseek
        have hfind : (writeNodes trieUpdates stored).toList.find?
            (fun e => (compare last e.1).isLT) =
            (writeNodes trieUpdates stored).toList.find?
              (fun e => (compare key e.1).isLE) := by
          refine find?_congr fun e he => ?_
          have hor := hall e he
          rw [hkey, Option.any_some] at hor
          rw [← not_isLE]
          cases hle : (compare key e.1).isLE with
          | true =>
            have hgt := TransCmp.lt_of_lt_of_isLE hlt hle
            rw [OrientedCmp.gt_iff_lt.mpr hgt]
            rfl
          | false =>
            rw [hle, Bool.or_false] at hor
            rw [hor]
            rfl
        refine ⟨?_, hreading⟩
        show (find? _ _, (⟨_, (find? _ _).map Prod.fst⟩ : MapCursor Nibbles V)) =
          ((c.seekInner key false).1, ⟨_, (c.seekInner key false).1.map Prod.fst⟩)
        rw [heq, hfind]

end

/-- A new cursor over stored nodes, which are missing if the trie was deleted. -/
def ofStored (stored : Option (ExtTreeMap Nibbles V)) (trieUpdates : List (Nibbles × Option V)) :
    InMemoryTrieCursor V :=
  new (stored.map (⟨·, none⟩)) trieUpdates

/-- **READING THROUGH UPDATES**: calls that are safe when they are made return what they do on the
    merged map. -/
theorem outputs_merged (stored : Option (ExtTreeMap Nibbles V))
    (trieUpdates : List (Nibbles × Option V))
    (hsorted : trieUpdates.Pairwise (fun a b => compare a.1 b.1 = .lt)) (calls : List NodeCall)
    (hadmits : (ofStored stored trieUpdates).admitsAll trieUpdates
      (writeNodes trieUpdates (stored.getD ∅)) calls = true) :
    nodeOutputs InMemoryTrieCursor.step (ofStored stored trieUpdates) calls =
      nodeOutputs MapCursor.nodeStep ⟨writeNodes trieUpdates (stored.getD ∅), none⟩ calls := by
  have hnodup : (trieUpdates.map Prod.fst).Nodup := by
    refine pairwise_map.mpr (hsorted.imp ?_)
    intro a b hlt hab
    rw [hab, Std.compare_eq_iff_eq.mpr rfl] at hlt
    nomatch hlt
  have hrun : ∀ (calls : List NodeCall) (c : InMemoryTrieCursor V),
      Reading trieUpdates (stored.getD ∅) c →
      c.admitsAll trieUpdates (writeNodes trieUpdates (stored.getD ∅)) calls = true →
      nodeOutputs InMemoryTrieCursor.step c calls =
        nodeOutputs MapCursor.nodeStep
          ⟨writeNodes trieUpdates (stored.getD ∅), c.lastKey⟩ calls := by
    intro calls
    induction calls with
    | nil => intro c _ _; rfl
    | cons call calls ih =>
      intro c h hadmits
      obtain ⟨hcall, hcalls⟩ := (and_eq_true _ _).mp hadmits
      obtain ⟨hstep, h'⟩ := h.step hnodup hcall
      show (c.step call).1 :: nodeOutputs _ (c.step call).2 calls =
        (MapCursor.nodeStep _ call).1 :: nodeOutputs _ (MapCursor.nodeStep _ call).2 calls
      rw [hstep, ih _ h' hcalls]
  exact hrun calls _ ⟨by cases stored <;> rfl, hsorted, fun _ he => he,
    fun _ hlast => nomatch hlast⟩ hadmits

/-- Two stored nodes of which one is removed, and an updated one between them. -/
theorem outputs_merged_sample :
    (let stored := (∅ : ExtTreeMap Nibbles Nat).insert [1] 10 |>.insert [3] 30
     let trieUpdates : List (Nibbles × Option Nat) := [([1], none), ([2], some 20)]
     nodeOutputs InMemoryTrieCursor.step (ofStored (some stored) trieUpdates)
        [.seek [], .next, .seekExact [3]] =
      nodeOutputs MapCursor.nodeStep ⟨writeNodes trieUpdates stored, none⟩
        [.seek [], .next, .seekExact [3]]) :=
  outputs_merged (some _) _ (by decide +kernel) _ (by decide +kernel)

/-- **NEXT SKIPS EXTENSIONS, AND A SEEK FORGETS REMOVALS**: of two stored nodes, one below the
    other, `next` does not return the second; a removed node is found by a second seek. -/
theorem cursor_diverges :
    (let stored := (∅ : ExtTreeMap Nibbles Nat).insert [1] 10 |>.insert [1, 2] 12
     nodeOutputs InMemoryTrieCursor.step (.new (some ⟨stored, none⟩) []) [.seek [], .next] =
        [some ([1], 10), none] ∧
      nodeOutputs MapCursor.nodeStep ⟨writeNodes [] stored, none⟩ [.seek [], .next] =
        [some ([1], 10), some ([1, 2], 12)]) ∧
    (let stored := (∅ : ExtTreeMap Nibbles Nat).insert [5] 50
     let trieUpdates : List (Nibbles × Option Nat) := [([5], none)]
     nodeOutputs InMemoryTrieCursor.step (.new (some ⟨stored, none⟩) trieUpdates)
        [.seek [1], .seek [2]] = [none, some ([5], 50)] ∧
      nodeOutputs MapCursor.nodeStep ⟨writeNodes trieUpdates stored, none⟩ [.seek [1], .seek [2]] =
        [none, none]) := by
  decide +kernel

end InMemoryTrieCursor

end Trie
