import Pasifika.OrderedMap.First

/-! # Tables

A table of a database is an ordered map with a cursor over its rows: `last` and `seek`
find a row, `removeFrom` removes the rows from a key on, and `append` adds a row after
all others, and refuses any other place.

`bindAll` binds listed entries, and `filter_bindAll` says what is left of them when those
that were bound first are taken out. `foldl_fill` describes a loop that sets entries of a
store to the values of a function. -/

namespace OrderedMap

open Std List

variable {K V : Type} [Ord K] [TransOrd K]

/-- The last row. -/
def last (m : ExtTreeMap K V) : Option (K × V) := m.toList.getLast?

/-- The first row at or after a key. -/
def seek (m : ExtTreeMap K V) (key : K) : Option (K × V) :=
  m.toList.find? (fun row => (compare key row.1).isLE)

/-- Remove the rows from a key on. -/
def removeFrom (m : ExtTreeMap K V) (key : K) : ExtTreeMap K V :=
  m.filter (fun k _ => compare k key == .lt)

/-- Add a row after all others. -/
def append (m : ExtTreeMap K V) (key : K) (value : V) : Option (ExtTreeMap K V) :=
  if (last m).all (fun row => compare row.1 key == .lt) then some (m.insert key value) else none

variable [LawfulEqOrd K] {m : ExtTreeMap K V}

theorem last_eq_none : last m = none ↔ ∀ k : K, m[k]? = none := by
  rw [last, getLast?_eq_none_iff]
  constructor
  · intro h k
    rw [get_eq_none_iff, h]
    exact not_mem_nil
  · intro h
    refine eq_nil_iff_forall_not_mem.mpr fun e he => ?_
    exact nomatch (h e.1).symm.trans (mem_toList.mp he)

variable {v : V} {k : K}

/-- The last row has the greatest key. -/
theorem last_eq_some : last m = some (k, v) ↔
    m[k]? = some v ∧ ∀ k' v', m[k']? = some v' → k' = k ∨ compare k' k = .lt := by
  rw [last]
  constructor
  · intro h
    obtain ⟨l, hl⟩ := getLast?_eq_some_iff.mp h
    have hmem : ∀ k' v', m[k']? = some v' ↔ (k', v') ∈ l ∨ (k', v') = (k, v) := by
      intro k' v'
      rw [← mem_toList, hl, mem_append, mem_singleton]
    refine ⟨(hmem k v).mpr (.inr rfl), fun k' v' hk' => ?_⟩
    rcases (hmem k' v').mp hk' with hin | heq
    · have hsorted := sorted_toList m
      rw [hl] at hsorted
      exact .inr ((pairwise_append.mp hsorted).2.2 _ hin _ mem_cons_self)
    · exact .inl (Prod.mk.inj heq).1
  · rintro ⟨hk, hmax⟩
    obtain ⟨row, hrow⟩ : ∃ row, m.toList.getLast? = some row := by
      cases hlast : m.toList.getLast? with
      | none => exact nomatch hk.symm.trans (last_eq_none.mp hlast k)
      | some row => exact ⟨row, rfl⟩
    obtain ⟨l, hl⟩ := getLast?_eq_some_iff.mp hrow
    have hsorted := sorted_toList m
    rw [hl] at hsorted
    have hin : (k, v) ∈ l ++ [row] := hl ▸ mem_toList.mpr hk
    rcases mem_append.mp hin with hin | hin
    · -- the last row cannot be after the greatest key
      have hlt := (pairwise_append.mp hsorted).2.2 _ hin _ mem_cons_self
      have hmem : m[row.1]? = some row.2 := mem_toList.mp (hl ▸ mem_append_right l (by simp))
      rcases hmax _ _ hmem with heq | hgt
      · rw [heq, Std.compare_eq_iff_eq.mpr rfl] at hlt
        nomatch hlt
      · exact nomatch (Std.OrientedCmp.gt_iff_lt.mpr hgt).symm.trans hlt
    · rw [hrow, mem_singleton.mp hin]

/-- `seek` finds the first row at or after the key. -/
theorem seek_spec (m : ExtTreeMap K V) (key : K) :
    First (fun k v => m[k]? = some v ∧ (compare key k).isLE = true) (seek m key) := by
  have h := first_find (sorted_toList m) fun row => (compare key row.1).isLE
  simp only [mem_toList] at h
  exact h

variable {p : K → V → Bool}

theorem get_filter : (m.filter p)[k]? = some v ↔ m[k]? = some v ∧ p k v = true := by
  rw [← mem_toList, ExtTreeMap.toList_filter, mem_filter, mem_toList]

theorem get_removeFrom {key k : K} :
    (removeFrom m key)[k]? = some v ↔ compare k key = .lt ∧ m[k]? = some v := by
  rw [removeFrom, get_filter, beq_iff_eq]
  exact and_comm

theorem append_eq (m : ExtTreeMap K V) (key : K) (value : V)
    (h : ∀ k v, m[k]? = some v → compare k key = .lt) :
    append m key value = some (m.insert key value) := by
  rw [append, if_pos]
  cases hlast : last m with
  | none => rfl
  | some row =>
    have hrow := (last_eq_some.mp (show last m = some (row.1, row.2) from hlast)).1
    simp [h row.1 row.2 hrow]

omit [LawfulEqOrd K] in
theorem mapM_get : ∀ {l : List (K × V)}, (∀ e ∈ l, m[e.1]? = some e.2) →
    (l.map Prod.fst).mapM (fun k => m[k]?.map fun v => (k, v)) = some l := by
  intro l
  induction l with
  | nil => exact fun _ => rfl
  | cons e l ih =>
    intro h
    rw [map_cons, mapM_cons, h e mem_cons_self, ih fun e' he' => h e' (mem_cons_of_mem _ he')]
    rfl

variable [DecidableEq K]

theorem toList_insert_last (h : ∀ k' v', m[k']? = some v' → compare k' k = .lt) :
    (m.insert k v).toList = m.toList ++ [(k, v)] := by
  have hnot : m[k]? = none := by
    cases hk : m[k]? with
    | none => rfl
    | some v' =>
      have hlt := h k v' hk
      rw [Std.compare_eq_iff_eq.mpr rfl] at hlt
      nomatch hlt
  refine toList_eq_of_sorted ?_ fun k' v' => ?_
  · refine pairwise_append.mpr ⟨sorted_toList m, pairwise_singleton _ _, ?_⟩
    intro row hrow row' hrow'
    obtain rfl := mem_singleton.mp hrow'
    exact h row.1 row.2 (mem_toList.mp hrow)
  · rw [get_insert, mem_append, mem_toList, mem_singleton, Prod.mk.injEq]
    by_cases hk : k = k'
    · subst hk
      rw [if_pos rfl, hnot]
      simp [eq_comm]
    · rw [if_neg hk]
      simp [Ne.symm hk]

theorem get_foldl_erase (k : K) : ∀ (ks : List K) (m : ExtTreeMap K V),
    (ks.foldl ExtTreeMap.erase m)[k]? = if k ∈ ks then none else m[k]? := by
  intro ks
  induction ks with
  | nil => exact fun m => rfl
  | cons k' ks ih =>
    intro m
    rw [foldl_cons, ih, get_erase]
    by_cases hmem : k ∈ ks
    · rw [if_pos hmem, if_pos (mem_cons_of_mem _ hmem)]
    · by_cases hk : k' = k
      · simp [hk]
      · simp [hk, hmem, Ne.symm hk]

theorem toList_foldl_erase (ks : List K) (m : ExtTreeMap K V) :
    (ks.foldl ExtTreeMap.erase m).toList = m.toList.filter (fun row => decide (row.1 ∉ ks)) := by
  refine toList_eq_of_sorted ((sorted_toList m).filter _) fun k v => ?_
  rw [get_foldl_erase, mem_filter, mem_toList]
  by_cases hmem : k ∈ ks
  · simp [hmem]
  · simp [hmem]

theorem filter_insert (hp : p k v = true) : (m.insert k v).filter p = (m.filter p).insert k v := by
  refine ExtTreeMap.ext_getElem? fun k' => Option.ext fun v' => ?_
  rw [get_filter, get_insert, get_insert]
  by_cases hk : k = k'
  · subst hk
    rw [if_pos rfl, if_pos rfl]
    constructor
    · exact And.left
    · intro h
      cases h
      exact ⟨rfl, hp⟩
  · rw [if_neg hk, if_neg hk, get_filter]

/-- Binding entries in the order in which they are listed. -/
def bindAll (m : ExtTreeMap K V) (l : List (K × V)) : ExtTreeMap K V :=
  l.foldl (fun m e => m.insert e.1 e.2) m

omit [LawfulEqOrd K] [DecidableEq K] in
theorem bindAll_append (m : ExtTreeMap K V) (l l' : List (K × V)) :
    bindAll m (l ++ l') = bindAll (bindAll m l) l' := foldl_append

/-- A bound value is one of those listed. -/
theorem mem_of_get_bindAll : ∀ (l : List (K × V)) (m : ExtTreeMap K V),
    (bindAll m l)[k]? = some v → (k, v) ∈ l ∨ m[k]? = some v := by
  intro l
  induction l with
  | nil => exact fun m h => .inr h
  | cons e l ih =>
    intro m h
    rcases ih _ h with hmem | hm
    · exact .inl (mem_cons_of_mem _ hmem)
    · rw [get_insert] at hm
      by_cases hk : e.1 = k
      · rw [if_pos hk] at hm
        cases hm
        exact .inl (by simp [← hk])
      · rw [if_neg hk] at hm
        exact .inr hm

/-- **BOUND LATER**: filtering out what was bound first leaves what was bound after it, also
    where a key was bound twice. -/
theorem filter_bindAll {l l' : List (K × V)}
    (hl : ∀ e ∈ l, p e.1 e.2 = false) (hl' : ∀ e ∈ l', p e.1 e.2 = true) :
    (bindAll ∅ (l ++ l')).filter p = bindAll ∅ l' := by
  induction l' using List.reverseRecOn with
  | nil =>
    refine ExtTreeMap.ext_getElem? fun k => Option.ext fun v => ?_
    rw [append_nil, get_filter]
    refine ⟨fun ⟨hget, hp⟩ => ?_, fun h => ?_⟩
    · rcases mem_of_get_bindAll l ∅ hget with hmem | hempty
      · exact absurd (hl _ hmem) (by simp [hp])
      · simp at hempty
    · simp [bindAll] at h
  | append_singleton l' e ih =>
    have hrest := ih fun e he => hl' e (by simp [he])
    rw [← append_assoc, bindAll_append, bindAll_append ∅ l', ← hrest]
    exact filter_insert (hl' e (by simp))

end OrderedMap
