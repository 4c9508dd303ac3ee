import Pasifika.OrderedMap.First

/-! # Overlays

A cursor that reads two sorted collections at once: a base map of which some keys
are cleared, and entries on top of it that are read FORWARD ONLY. As long as no
entry at or after the place it reads from has been passed, such an overlay reads
like a cursor over the merged map. -/

namespace Trie

open Std OrderedMap List Bool

variable {K V : Type} [Ord K]

/-- `compare_entries`: the entry with the lesser key, of equal ones the one of the post state. -/
def compareEntries : Option (K × V) → Option (K × V) → Option (K × V)
  | some postStateEntry, some dbEntry =>
    some (if (compare postStateEntry.1 dbEntry.1).isLE then postStateEntry else dbEntry)
  | postStateItem, dbItem => dbItem.or postStateItem

theorem compareEntries_none (entry : Option (K × V)) : compareEntries entry none = entry := by
  cases entry <;> rfl

variable [TransOrd K]

/-! ## Cursors -/

/-- The calls that move a cursor. -/
inductive Call (K : Type) where
  | seek (key : K)
  | next
deriving DecidableEq, Repr

/-- The keys that are sought. -/
def seekKeys (calls : List (Call K)) : List K :=
  calls.filterMap (fun | .seek key => some key | .next => none)

/-- What a sequence of calls returns. -/
def outputs {C : Type} (step : C → Call K → Option (K × V) × C) :
    C → List (Call K) → List (Option (K × V))
  | _, [] => []
  | c, call :: calls => (step c call).1 :: outputs step (step c call).2 calls

/-- A cursor over a table; it stands at the entry it returned last. -/
structure MapCursor (K V : Type) [Ord K] where
  table : ExtTreeMap K V
  last : Option K

namespace MapCursor

def seek (c : MapCursor K V) (key : K) : Option (K × V) × MapCursor K V :=
  let entry := c.table.toList.find? (fun e => (compare key e.1).isLE)
  (entry, { c with last := entry.map Prod.fst })

def next (c : MapCursor K V) : Option (K × V) × MapCursor K V :=
  match c.last with
  | none => (none, c)
  | some last =>
    let entry := c.table.toList.find? (fun e => (compare last e.1).isLT)
    (entry, { c with last := entry.map Prod.fst })

def step (c : MapCursor K V) : Call K → Option (K × V) × MapCursor K V
  | .seek key => c.seek key
  | .next => c.next

end MapCursor

/-! ## Overlays -/

/-- **AN OVERLAY**: a base map with cleared keys, the entries on top that are still ahead, and the
    key returned last. -/
structure Overlay (K V : Type) [Ord K] where
  base : ExtTreeMap K V
  cleared : K → Bool
  ahead : List (K × V)
  last : Option K

namespace Overlay

/-- Read the first entry that is not before a bound. -/
def read (o : Overlay K V) (before : K → Bool) : Option (K × V) × Overlay K V :=
  let ahead := o.ahead.dropWhile (fun e => before e.1)
  let entry := compareEntries ahead.head?
    (o.base.toList.find? (fun e => !before e.1 && !o.cleared e.1))
  (entry, { o with ahead := ahead, last := entry.map Prod.fst })

theorem read_last (o : Overlay K V) (before : K → Bool) :
    (o.read before).2.last = (o.read before).1.map Prod.fst := rfl

/-- What a read returns, and the overlay it leaves but for the last key. -/
def Reads (o : Overlay K V) (before : K → Bool) (entry : Option (K × V)) (o' : Overlay K V) : Prop :=
  entry = (o.read before).1 ∧ o' = { o with ahead := o.ahead.dropWhile (before ·.1) }

theorem Reads.read_eq {o o' : Overlay K V} {before : K → Bool} {entry : Option (K × V)}
    (h : o.Reads before entry o') : o.read before = (entry, { o' with last := entry.map Prod.fst }) := by
  rw [h.1, h.2]
  rfl

def step (o : Overlay K V) : Call K → Option (K × V) × Overlay K V
  | .seek key => o.read (fun k => (compare k key).isLT)
  | .next =>
    match o.last with
    | some last => o.read (fun k => (compare k last).isLE)
    | none => (none, o)

end Overlay

section

/-- The lesser of two first entries is the first entry of both collections together. -/
theorem first_compareEntries {R S T : K → V → Prop} {r s : Option (K × V)} (hr : First R r)
    (hs : First S s) (hT : ∀ k v, T k v ↔ R k v ∨ (∀ w, ¬ R k w) ∧ S k v) :
    First T (compareEntries r s) := by
  match r, s, hr, hs with
  | none, none, hr, hs =>
    intro k v h
    rcases (hT k v).mp h with h | ⟨-, h⟩
    · exact hr k v h
    · exact hs k v h
  | none, some (k, v), hr, hs =>
    refine ⟨(hT k v).mpr (.inr ⟨fun w => hr k w, hs.1⟩), ?_⟩
    intro k' v' h
    rcases (hT k' v').mp h with h | ⟨-, h⟩
    · exact absurd h (hr k' v')
    · exact hs.2 k' v' h
  | some (k, v), none, hr, hs =>
    refine ⟨(hT k v).mpr (.inl hr.1), ?_⟩
    intro k' v' h
    rcases (hT k' v').mp h with h | ⟨-, h⟩
    · exact hr.2 k' v' h
    · exact absurd h (hs k' v')
  | some (k, v), some (k', v'), hr, hs =>
    rw [compareEntries]
    cases hle : (compare k k').isLE with
    | true =>
      rw [if_pos rfl]
      refine ⟨(hT k v).mpr (.inl hr.1), ?_⟩
      intro k'' v'' h hlt
      rcases (hT k'' v'').mp h with h | ⟨-, h⟩
      · exact hr.2 k'' v'' h hlt
      · exact hs.2 k'' v'' h (TransCmp.lt_of_lt_of_isLE hlt hle)
    | false =>
      rw [if_neg Bool.false_ne_true]
      have hlt : compare k' k = .lt := by
        rw [← OrientedCmp.gt_iff_lt]
        exact Ordering.isLE_eq_false.mp hle
      refine ⟨(hT k' v').mpr (.inr ⟨fun w hw => hr.2 k' w hw hlt, hs.1⟩), ?_⟩
      intro k'' v'' h hlt'
      rcases (hT k'' v'').mp h with h | ⟨-, h⟩
      · exact hr.2 k'' v'' h (TransCmp.lt_trans hlt' hlt)
      · exact hs.2 k'' v'' h hlt'

/-- A bound: what comes before a key that is before it is before it, too. -/
def Downward (before : K → Bool) : Prop :=
  ∀ k k', compare k k' = .lt → before k' = true → before k = true

theorem downward_lt (key : K) : Downward (fun k => (compare k key).isLT) := by
  intro k k' hlt h
  rw [Ordering.isLT_iff_eq_lt] at h ⊢
  exact TransCmp.lt_trans hlt h

theorem downward_le (key : K) : Downward (fun k => (compare k key).isLE) := by
  intro k k' hlt h
  show (compare k key).isLE = true
  rw [TransCmp.lt_of_lt_of_isLE hlt h]
  rfl

variable [LawfulEqOrd K]

/-- What an overlay stands for: a map, and the entries it was made with. -/
structure Overlaid (o : Overlay K V) (entries : List (K × V)) (merged : ExtTreeMap K V) : Prop where
  ahead : ∀ e ∈ o.ahead, e ∈ entries
  sorted : o.ahead.Pairwise (fun a b => compare a.1 b.1 = .lt)
  merged : ∀ k v, merged[k]? = some v ↔ (k, v) ∈ entries ∨
    (∀ w, (k, w) ∉ entries) ∧ o.cleared k = false ∧ o.base[k]? = some v
  passed : ∀ last ∈ o.last, ∀ e ∈ entries, compare last e.1 = .lt → e ∈ o.ahead

variable {o : Overlay K V} {entries : List (K × V)} {merged : ExtTreeMap K V}

/-- The entry that is read is the one found in the merged map. -/
theorem Overlaid.read_eq (h : Overlaid o entries merged) (before : K → Bool)
    (hahead : ∀ e ∈ entries, before e.1 = false → e ∈ o.ahead) :
    (o.read before).1 = merged.toList.find? (!before ·.1) := by
  have hpost := first_find h.sorted (!before ·.1)
  have hbase := first_find (sorted_toList o.base) fun e => !before e.1 && !o.cleared e.1
  have hmerged := first_find (sorted_toList merged) (!before ·.1)
  have hfun : ∀ k v v', ((k, v) ∈ merged.toList ∧ (!before k) = true) →
      ((k, v') ∈ merged.toList ∧ (!before k) = true) → v = v' := by
    rintro k v v' ⟨hv, -⟩ ⟨hv', -⟩
    exact Option.some.inj ((mem_toList.mp hv).symm.trans (mem_toList.mp hv'))
  show compareEntries (o.ahead.dropWhile (before ·.1)).head? _ = _
  rw [show (fun e : K × V => before e.1) = (!!before ·.1) from
    funext fun e => (not_not _).symm, ← find?_eq_head?_dropWhile_not]
  refine First.unique hfun (first_compareEntries hpost hbase ?_) hmerged
  -- an entry on top is one of the entries, and hides the base
  intro k v
  simp only [mem_toList, h.merged, and_eq_true, not_eq_true']
  constructor
  · rintro ⟨hm | ⟨hno, hclear, hb⟩, hk⟩
    · exact .inl ⟨hahead _ hm hk, hk⟩
    · exact .inr ⟨fun w hw => hno w (h.ahead _ hw.1), hb, hk, hclear⟩
  · rintro (⟨hm, hk⟩ | ⟨hno, hb, hk, hclear⟩)
    · exact ⟨.inl (h.ahead _ hm), hk⟩
    · exact ⟨.inr ⟨fun w hw => hno w ⟨hahead _ hw hk, hk⟩, hclear, hb⟩, hk⟩

/-- **ONE READ**: if every entry not before the bound is ahead, so is every entry behind the one
    read. -/
theorem Overlaid.read (h : Overlaid o entries merged) (hbefore : Downward before)
    (hahead : ∀ e ∈ entries, before e.1 = false → e ∈ o.ahead) :
    Overlaid (o.read before).2 entries merged where
  ahead e he := h.ahead e ((dropWhile_sublist _).subset he)
  sorted := h.sorted.sublist (dropWhile_sublist _)
  merged := h.merged
  passed last hlast e he hlt := by
    obtain ⟨entry, hentry, rfl⟩ := Option.mem_map.mp hlast
    have hentry : (o.read before).1 = some entry := hentry
    rw [h.read_eq before hahead] at hentry
    have hnot : before entry.1 = false := by simpa using find?_some hentry
    have he' : before e.1 = false := by
      cases hb : before e.1 with
      | false => rfl
      | true => exact nomatch hnot.symm.trans (hbefore _ _ hlt hb)
    show e ∈ o.ahead.dropWhile (before ·.1)
    rw [dropWhile_eq_filter h.sorted (hbefore ·.1 ·.1 ·), mem_filter]
    exact ⟨hahead e he he', by simpa using he'⟩

end

/-! ## Runs -/

/-- No sought key is at or before an entry that has been passed. -/
def inOrder {C : Type} (step : C → Call K → Option (K × V) × C) (ahead : C → List (K × V))
    (entries : List (K × V)) : C → List (Call K) → Bool
  | _, [] => true
  | c, call :: calls =>
    (match call with
      | .seek key => entries.all (fun e => (compare e.1 key).isLT ||
          (ahead c).any (fun e' => (compare e'.1 e.1).isEq))
      | .next => true) &&
    inOrder step ahead entries (step c call).2 calls

theorem not_isLT (k key : K) : (!(compare k key).isLT) = (compare key k).isLE := by
  rw [OrientedOrd.eq_swap (a := key)]
  cases compare k key <;> rfl

theorem not_isLE (k key : K) : (!(compare k key).isLE) = (compare key k).isLT := by
  rw [OrientedOrd.eq_swap (a := key)]
  cases compare k key <;> rfl

/-- A cursor that refines an overlay returns the same, and is in order along with it. -/
theorem outputs_of_refines {C : Type} {step : C → Call K → Option (K × V) × C}
    {abs : C → Overlay K V}
    (hstep : ∀ c call, (abs c).step call = ((step c call).1, abs (step c call).2))
    (entries : List (K × V)) (calls : List (Call K)) : ∀ c : C,
      outputs step c calls = outputs Overlay.step (abs c) calls ∧
        inOrder step (fun c => (abs c).ahead) entries c calls =
          inOrder Overlay.step Overlay.ahead entries (abs c) calls := by
  induction calls with
  | nil => intro c; exact ⟨rfl, rfl⟩
  | cons call calls ih =>
    intro c
    obtain ⟨hout, hin⟩ := ih (step c call).2
    have hnext : ((abs c).step call).2 = abs (step c call).2 := by rw [hstep]
    refine ⟨?_, ?_⟩
    · show _ :: _ = ((abs c).step call).1 :: outputs Overlay.step ((abs c).step call).2 calls
      rw [hnext, ← hout, hstep]
    · show (_ && _) = (_ && inOrder Overlay.step Overlay.ahead entries ((abs c).step call).2 calls)
      rw [hnext, ← hin]

variable [LawfulEqOrd K] {entries : List (K × V)} {merged : ExtTreeMap K V}

/-- A read of the overlay is the search that the cursor over the merged map makes. -/
theorem Overlaid.step (h : Overlaid o entries merged) (call : Call K)
    (hseek : ∀ key, call = .seek key → ∀ e ∈ entries, (compare e.1 key).isLT = false → e ∈
      o.ahead) :
    Overlaid (o.step call).2 entries merged ∧
      (⟨merged, o.last⟩ : MapCursor K V).step call =
        ((o.step call).1, ⟨merged, (o.step call).2.last⟩) := by
  cases call with
  | seek key =>
    have hahead := hseek key rfl
    have heq := h.read_eq (fun k => (compare k key).isLT) hahead
    simp only [not_isLT] at heq
    refine ⟨h.read (downward_lt key) hahead, ?_⟩
    rw [show o.step (.seek key) = o.read (fun k => (compare k key).isLT) from rfl,
      Overlay.read_last, heq]
    rfl
  | next =>
    cases hlast : o.last with
    | none =>
      rw [show o.step .next = (none, o) by rw [Overlay.step, hlast]]
      exact ⟨h, by rw [hlast]; rfl⟩
    | some last =>
      rw [show o.step .next = o.read (fun k => (compare k last).isLE) by
        rw [Overlay.step, hlast]]
      -- what comes after the entry returned last has not been passed
      have hahead : ∀ e ∈ entries, (compare e.1 last).isLE = false → e ∈ o.ahead := by
        intro e he hle
        refine h.passed last hlast e he (Ordering.isLT_iff_eq_lt.mp ?_)
        rw [← not_isLE, hle]
        rfl
      have heq := h.read_eq (fun k => (compare k last).isLE) hahead
      simp only [not_isLE] at heq
      refine ⟨h.read (downward_le last) hahead, ?_⟩
      rw [Overlay.read_last, heq]
      rfl

/-- **SIMULATION**: calls in order return what they return on the merged map. -/
theorem Overlaid.outputs_eq (hentries : entries.Pairwise (compare ·.1 ·.1 = .lt))
    (calls : List (Call K)) : ∀ {o}, Overlaid o entries merged →
      inOrder Overlay.step Overlay.ahead entries o calls = true →
      outputs Overlay.step o calls = outputs MapCursor.step ⟨merged, o.last⟩ calls := by
  have hnd : (entries.map Prod.fst).Nodup := by
    refine pairwise_map.mpr (hentries.imp ?_)
    intro a b hlt hab
    rw [hab, Std.compare_eq_iff_eq.mpr rfl] at hlt
    nomatch hlt
  induction calls with
  | nil => intro o _ _; rfl
  | cons call calls ih =>
    intro o h hin
    obtain ⟨hcall, hcalls⟩ := (and_eq_true _ _).mp hin
    obtain ⟨h', hstep⟩ := h.step call (by
      rintro key rfl e he hlt
      have hor := all_eq_true.mp hcall e he
      rw [hlt, Bool.false_or] at hor
      -- an entry whose key is still ahead is still ahead itself
      obtain ⟨e', he', heq⟩ := any_eq_true.mp hor
      have hkey : e'.1 = e.1 := compare_eq_iff_eq.mp (Ordering.isEq_iff_eq_eq.mp heq)
      exact inj_on_of_nodup_map hnd (h.ahead e' he') he hkey ▸ he')
    show (o.step call).1 :: outputs Overlay.step (o.step call).2 calls =
      (MapCursor.step _ call).1 :: outputs MapCursor.step (MapCursor.step _ call).2 calls
    rw [hstep, ih h' hcalls]

end Trie
