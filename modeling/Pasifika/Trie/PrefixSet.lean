import Pasifika.Trie.Nibbles
import Pasifika.OrderedMap.First

/-! # Prefix sets

A prefix set holds the keys that changed, and tells whether any of them begins with a
path. A frozen set is SORTED, and remembers where the last search ended: the next one
steps back from there while keys are greater than the path, and then forward until one
is. The answer does not depend on where the search begins (`contains_fst`). -/

namespace Trie

open Std OrderedMap List Bool

/-! ## Paths and what they begin with -/

namespace Nibbles

/-- A path does not come after those that extend it. -/
theorem not_lt_of_extends {path key : Nibbles} (h : path <+: key) : compare key path ≠ .lt := by
  obtain ⟨rest, rfl⟩ := h
  induction path with
  | nil => cases rest <;> nofun
  | cons n path ih =>
    rw [cons_append, compare_cons, Std.compare_eq_iff_eq.mpr rfl]
    exact ih

/-- Past a greater key that does not begin with a path, none does. -/
theorem not_extends_of_gt : ∀ {path key key' : Nibbles}, ¬ path <+: key →
    compare key path = .gt → compare key key' = .lt → ¬ path <+: key' := by
  intro path
  induction path with
  | nil => intro key key' h; exact absurd nil_prefix h
  | cons n path ih =>
    intro key key' h hgt hlt hpre
    obtain ⟨rest, rfl⟩ := hpre
    cases key with
    | nil => nomatch hgt
    | cons m key =>
      rw [cons_append] at hlt
      rw [compare_cons] at hgt hlt
      rw [cons_prefix_cons] at h
      cases hc : compare m n with
      | lt => rw [hc] at hgt; nomatch hgt
      | gt => rw [hc] at hlt; nomatch hlt
      | eq =>
        rw [hc] at hgt hlt
        have hmn : n = m := (Std.compare_eq_iff_eq.mp hc).symm
        exact ih (fun hp => h ⟨hmn, hp⟩) hgt hlt (prefix_append _ _)

end Nibbles

/-! ## Sets that grow -/

structure PrefixSetMut where
  all : Bool
  keys : List Nibbles

/-- `PrefixSet`: the keys are sorted, and the position is one of a key, or the first. -/
structure PrefixSet where
  all : Bool
  keys : List Nibbles
  index : ℕ
  sorted : keys.Pairwise (fun a b => compare a b = .lt)
  bound : index = 0 ∨ index < keys.length

namespace PrefixSetMut

def default : PrefixSetMut := ⟨false, []⟩

def insert (s : PrefixSetMut) (nibbles : Nibbles) : PrefixSetMut :=
  { s with keys := s.keys ++ [nibbles] }

/-- `keys.sort_unstable(); keys.dedup()`. -/
def sortDedup (keys : List Nibbles) : List Nibbles :=
  (keys.foldl (fun s key => s.insert key) (∅ : ExtTreeSet Nibbles)).toList

theorem sorted_sortDedup (keys : List Nibbles) : (sortDedup keys).Pairwise (compare · · = .lt) :=
  ExtTreeSet.ordered_toList

theorem mem_sortDedup {keys : List Nibbles} {key : Nibbles} :
    key ∈ sortDedup keys ↔ key ∈ keys := by
  rw [sortDedup, ExtTreeSet.mem_toList, mem_foldl_insert fun key => key]
  simp

def freeze (s : PrefixSetMut) : PrefixSet :=
  if s.all then ⟨true, [], 0, .nil, .inl rfl⟩
  else ⟨false, sortDedup s.keys, 0, sorted_sortDedup s.keys, .inl rfl⟩

/-- Whether a path is one of changed keys. -/
def changed (s : PrefixSetMut) (path : Nibbles) : Bool :=
  s.all || s.keys.any (fun key => path.isPrefixOf key)

end PrefixSetMut

/-! ## Searching a sorted set -/

namespace PrefixSet

/-- `while self.index > 0 && &self.keys[self.index] > prefix`: step back. -/
def rewind (keys : List Nibbles) (path : Nibbles) :
    (index : ℕ) → (index = 0 ∨ index < keys.length) → ℕ
  | 0, _ => 0
  | index + 1, h =>
    if compare (keys.get ⟨index + 1, h.resolve_left (Nat.succ_ne_zero index)⟩) path = .gt then
      rewind keys path index (.inr (by omega))
    else index + 1

/-- The `for` loop over the keys from `index` on; `idx` of them were passed. -/
def scan (path : Nibbles) (index : ℕ) : List Nibbles → ℕ → Bool × ℕ
  | [], _ => (false, index)
  | key :: keys, idx =>
    if path <+: key then (true, index + idx)
    else if compare key path = .gt then (false, index + idx)
    else scan path index keys (idx + 1)

theorem rewind_bound (keys : List Nibbles) (path : Nibbles) (index : ℕ)
    (h : index = 0 ∨ index < keys.length) :
    rewind keys path index h = 0 ∨ rewind keys path index h < keys.length := by
  induction index with
  | zero => exact .inl rfl
  | succ index ih =>
    rw [rewind]
    split
    · exact ih _
    · exact h

variable (path : Nibbles) (s : PrefixSet)

theorem scan_bound (index : ℕ) (keys : List Nibbles) (idx : ℕ) :
    (scan path index keys idx).2 = index ∨
      (scan path index keys idx).2 < index + idx + keys.length := by
  induction keys generalizing idx with
  | nil => exact .inl rfl
  | cons key keys ih =>
    rw [scan, length_cons]
    split
    · right; show index + idx < _; omega
    · split
      · right; show index + idx < _; omega
      · rcases ih (idx + 1) with h | h
        · exact .inl h
        · right; omega

/-- Where the search begins and how it goes from there. -/
def search (s : PrefixSet) (path : Nibbles) : Bool × ℕ :=
  let index := rewind s.keys path s.index s.bound
  scan path index (s.keys.drop index) 0

theorem search_bound (path : Nibbles) :
    (s.search path).2 = 0 ∨ (s.search path).2 < s.keys.length := by
  rw [search]
  rcases scan_bound path (rewind s.keys path s.index s.bound)
    (s.keys.drop (rewind s.keys path s.index s.bound)) 0 with h | h
  · rw [h]
    exact rewind_bound s.keys path s.index s.bound
  · rw [length_drop] at h
    rcases rewind_bound s.keys path s.index s.bound with h' | h'
    · right; rw [h'] at h ⊢; omega
    · right; omega

def contains (s : PrefixSet) (path : Nibbles) : Bool × PrefixSet :=
  if s.all then (true, s)
  else ((s.search path).1, { s with index := (s.search path).2, bound := s.search_bound path })

/-- Whether any key begins with a path. -/
def changed (s : PrefixSet) (path : Nibbles) : Bool :=
  s.all || s.keys.any (fun key => path.isPrefixOf key)

theorem changed_iff {s : PrefixSet} {path : Nibbles} (hall : s.all = false) :
    s.changed path = true ↔ ∃ key ∈ s.keys, path <+: key := by
  rw [changed, hall, Bool.false_or, any_eq_true]
  simp only [List.isPrefixOf_iff_prefix]

theorem scan_fst (index : ℕ) (keys : List Nibbles) (idx : ℕ)
    (hsorted : keys.Pairwise (compare · · = .lt)) :
    ((scan path index keys idx).1 = true ↔ ∃ key ∈ keys, path <+: key) := by
  induction keys generalizing idx with
  | nil => simp [scan]
  | cons key keys ih =>
    obtain ⟨hkey, hsorted⟩ := pairwise_cons.mp hsorted
    rw [scan]
    split
    · next h => exact ⟨fun _ => ⟨key, mem_cons_self, h⟩, fun _ => rfl⟩
    · next h =>
      split
      · next hgt =>
        refine ⟨nofun, ?_⟩
        rintro ⟨key', hmem, hpre⟩
        rcases mem_cons.mp hmem with rfl | hmem
        · exact absurd hpre h
        · exact absurd hpre (Nibbles.not_extends_of_gt h hgt (hkey key' hmem))
      · rw [ih (idx + 1) hsorted]
        simp [h]

/-- No key before the place where the search goes on from begins with the path. -/
theorem not_extends_of_rewind {keys : List Nibbles}
    (hsorted : keys.Pairwise (compare · · = .lt)) : ∀ index h, ∀ key ∈ keys.take (rewind keys path index h),
      ¬ path <+: key := by
  intro index
  induction index with
  | zero => intro h key hmem; simp [rewind] at hmem
  | succ index ih =>
    intro h key
    rw [rewind]
    split
    · exact ih _ key
    · next hle =>
      intro hmem hpre
      have hlt : index + 1 < keys.length := h.resolve_left (Nat.succ_ne_zero index)
      -- keys before the one at `index + 1` are less than the path
      have hkey : compare key (keys.get ⟨index + 1, hlt⟩) = .lt := by
        rw [← take_append_drop (index + 1) keys] at hsorted
        refine (pairwise_append.mp hsorted).2.2 key hmem _ ?_
        rw [drop_eq_getElem_cons hlt]
        exact mem_cons_self
      have hless : compare key path = .lt := by
        refine TransCmp.lt_of_lt_of_isLE hkey ?_
        cases hc : compare (keys.get ⟨index + 1, hlt⟩) path with
        | gt => exact absurd hc hle
        | lt | eq => rfl
      exact Nibbles.not_lt_of_extends hpre hless

/-- **THE ANSWER** does not depend on the position. -/
theorem contains_fst (path : Nibbles) : (s.contains path).1 = s.changed path := by
  rw [contains]
  cases hall : s.all with
  | true => simp [changed, hall]
  | false =>
    refine eq_iff_iff.mpr ?_
    rw [changed_iff hall, if_neg (by simp)]
    show (s.search path).1 = true ↔ _
    have hdrop := s.sorted.sublist (drop_sublist (rewind s.keys path s.index s.bound) _)
    rw [search, scan_fst _ _ _ _ hdrop]
    constructor
    · rintro ⟨key, hmem, hpre⟩
      exact ⟨key, mem_of_mem_drop hmem, hpre⟩
    · rintro ⟨key, hmem, hpre⟩
      rw [← take_append_drop (rewind s.keys path s.index s.bound) s.keys, mem_append] at hmem
      rcases hmem with hmem | hmem
      · exact absurd hpre (not_extends_of_rewind path s.sorted s.index s.bound key hmem)
      · exact ⟨key, hmem, hpre⟩

@[simp] theorem changed_contains (path path' : Nibbles) :
    (s.contains path).2.changed path' = s.changed path' := by
  rw [contains]
  split
  · rfl
  · rfl

theorem keys_contains (path : Nibbles) : (s.contains path).2.keys = s.keys := by
  rw [contains]
  split
  · rfl
  · rfl

/-- Queries one after the other, and the set they leave. -/
def queries : List Nibbles → PrefixSet → List Bool × PrefixSet
  | [], s => ([], s)
  | path :: paths, s =>
    let (answers, s') := queries paths (s.contains path).2
    ((s.contains path).1 :: answers, s')

end PrefixSet

namespace PrefixSetMut

variable (s : PrefixSetMut)

/-- Freezing keeps what changed. -/
@[simp] theorem changed_freeze (path : Nibbles) : s.freeze.changed path = s.changed path := by
  rw [freeze, changed]
  cases hall : s.all with
  | true => rfl
  | false =>
    refine eq_iff_iff.mpr ?_
    rw [if_neg (by simp), PrefixSet.changed_iff rfl, Bool.false_or, any_eq_true]
    simp only [mem_sortDedup, isPrefixOf_iff_prefix]

/-- **QUERIES IN ANY ORDER**: each answer is that of the frozen set, and the position stays valid.
    -/
theorem queries_exact (paths : List Nibbles) :
    let (answers, s') := s.freeze.queries paths
    answers = paths.map s.changed ∧ s'.keys = s.freeze.keys ∧
      (s'.index = 0 ∨ s'.index < s'.keys.length) := by
  have hall : ∀ p : PrefixSet, (p.queries paths).1 = paths.map p.changed ∧
      (p.queries paths).2.keys = p.keys := by
    induction paths with
    | nil => exact fun _ => ⟨rfl, rfl⟩
    | cons path paths ih =>
      intro p
      obtain ⟨hanswers, hkeys⟩ := ih (p.contains path).2
      refine ⟨?_, hkeys.trans (p.keys_contains path)⟩
      simp [PrefixSet.queries, hanswers, p.contains_fst]
  obtain ⟨hanswers, hkeys⟩ := hall s.freeze
  refine ⟨hanswers.trans (map_congr_left fun path _ => ?_), hkeys, (s.freeze.queries paths).2.bound⟩
  exact s.changed_freeze path

theorem changed_insert (key path : Nibbles) :
    (s.insert key).changed path = (s.changed path || path.isPrefixOf key) := by
  simp [changed, insert, Bool.or_assoc]

theorem changed_insert_of_extends (key : Nibbles) :
    ∀ path, path <+: key → (s.insert key).changed path = true := by
  intro path h
  rw [changed_insert, List.isPrefixOf_iff_prefix.mpr h, Bool.or_true]

theorem not_changed_of_insert (key : Nibbles) :
    ∀ path, (s.insert key).changed path = false → s.changed path = false := by
  intro path h
  rw [changed_insert, Bool.or_eq_false_iff] at h
  exact h.1

end PrefixSetMut

end Trie
