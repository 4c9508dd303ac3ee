import Mathlib

/-! # Ordered maps

A `BTreeMap` is read as `Std.ExtTreeMap`: lookups determine the map, and
iteration is `toList`, in strictly increasing key order. On top of the
lookup laws there are two measures with their insert and erase laws:

* `total`, the sum of a measure over the values;
* `countKeys`, the number of keys with a property, which only depends on
  which keys are bound. -/

namespace OrderedMap

open Std List Option Std.ExtTreeMap Nat

section

variable {K V : Type} [Ord K] [TransOrd K] [LawfulEqOrd K] [DecidableEq K]

theorem get_insert (m : ExtTreeMap K V) (k k' : K) (v : V) :
    (m.insert k v)[k']? = if k = k' then some v else m[k']? := by
  rw [ExtTreeMap.getElem?_insert]
  by_cases h : k = k'
  · rw [if_pos h, if_pos (Std.compare_eq_iff_eq.mpr h)]
  · rw [if_neg h, if_neg fun hc => h (Std.compare_eq_iff_eq.mp hc)]

theorem get_erase (m : ExtTreeMap K V) (k k' : K) :
    (m.erase k)[k']? = if k = k' then none else m[k']? := by
  rw [getElem?_erase]
  by_cases h : k = k'
  · rw [if_pos h, if_pos (Std.compare_eq_iff_eq.mpr h)]
  · rw [if_neg h, if_neg fun hc => h (Std.compare_eq_iff_eq.mp hc)]

@[simp] theorem get_insert_self (m : ExtTreeMap K V) (k : K) (v : V) :
    (m.insert k v)[k]? = some v := by
  rw [get_insert, if_pos rfl]

@[simp] theorem get_erase_self (m : ExtTreeMap K V) (k : K) : (m.erase k)[k]? = none := by
  rw [get_erase, if_pos rfl]

variable {m : ExtTreeMap K V} {k : K}

theorem get_insert_ne (h : k ≠ k') : (m.insert k v)[k']? = m[k']? := by
  rw [get_insert, if_neg h]

theorem get_erase_ne (h : k ≠ k') : (m.erase k)[k']? = m[k']? := by
  rw [get_erase, if_neg h]

theorem insertIfNew_eq_insert (h : m[k]? = none) : m.insertIfNew k v = m.insert k v := by
  refine ext_getElem? fun k' => ?_
  have hmem : k ∉ m := by
    rw [← isSome_getElem?_iff_mem, h]
    exact Bool.false_ne_true
  rw [get_insert, getElem?_insertIfNew]
  by_cases hk : k = k'
  · rw [if_pos hk, if_pos ⟨compare_eq_iff_eq.mpr hk, hmem⟩]
  · rw [if_neg hk, if_neg fun hc => hk (Std.compare_eq_iff_eq.mp hc.1)]

theorem get_eraseEntries {W : Type} : ∀ (l : List (K × W)) (m : ExtTreeMap K V) (k : K),
    (l.foldl (·.erase ·.1) m)[k]? = if k ∈ l.map Prod.fst then none else m[k]? := by
  intro l
  induction l with
  | nil => intro m k; rfl
  | cons e l ih =>
    intro m k
    rw [foldl_cons, ih, get_erase, map_cons]
    by_cases hk : e.1 = k
    · rw [if_pos hk, ite_self, if_pos (by rw [hk]; exact mem_cons_self)]
    · rw [if_neg hk]
      simp only [mem_cons, Ne.symm hk, false_or]

end

section

variable {K V : Type} [Ord K] [TransOrd K]

theorem sorted_toList (m : ExtTreeMap K V) : m.toList.Pairwise (compare ·.1 ·.1 = .lt) :=
  ordered_keys_toList

theorem listing_empty : (∅ : ExtTreeMap K V).toList = [] :=
  eq_nil_iff_length_eq_zero.mpr (by simp)

variable {v : V} {k : K} {m : ExtTreeMap K V}

theorem size_erase (h : m[k]? = some v) : (m.erase k).size + 1 = m.size := by
  have hmem : k ∈ m := by
    rw [mem_iff_isSome_getElem?, h]
    rfl
  have hpos : m.size ≠ 0 := fun h0 =>
    ExtTreeMap.not_mem_empty (ExtTreeMap.eq_empty_iff_size_eq_zero.mpr h0 ▸ hmem)
  rw [ExtTreeMap.size_erase, if_pos (ExtTreeMap.mem_iff_contains.mp hmem)]
  omega

theorem size_insert (h : m[k]? = none) : (m.insert k v).size = m.size + 1 := by
  have hmem : ¬ m.contains k = true := by
    rw [← mem_iff_contains, mem_iff_isSome_getElem?, h]
    exact Bool.false_ne_true
  rw [ExtTreeMap.size_insert, if_neg hmem]

variable [LawfulEqOrd K]

theorem mem_toList : (k, v) ∈ m.toList ↔ m[k]? = some v :=
  mem_toList_iff_getElem?_eq_some

theorem nodup_keys (m : ExtTreeMap K V) : (m.toList.map Prod.fst).Nodup := by
  rw [nodup_iff_pairwise_ne, pairwise_map]
  refine (sorted_toList m).imp ?_
  intro a b hlt heq
  rw [heq, Std.compare_eq_iff_eq.mpr rfl] at hlt
  nomatch hlt

theorem nodup_toList (m : ExtTreeMap K V) : m.toList.Nodup :=
  Nodup.of_map Prod.fst (nodup_keys m)

/-- The entries of a map, listed in the order of their keys. -/
theorem toList_eq_of_sorted (hl : l.Pairwise (compare ·.1 ·.1 = .lt))
    (hmem : ∀ k v, m[k]? = some v ↔ (k, v) ∈ l) : m.toList = l := by
  have hnodup : l.Nodup := by
    refine hl.imp ?_
    rintro a _ hlt rfl
    rw [Std.compare_eq_iff_eq.mpr rfl] at hlt
    nomatch hlt
  have hperm : m.toList.Perm l :=
    (perm_ext_iff_of_nodup (nodup_toList m) hnodup).mpr fun e => mem_toList.trans (hmem e.1 e.2)
  refine hperm.eq_of_pairwise ?_ (sorted_toList m) hl
  intro a b _ _ hab hba
  exact nomatch (Std.OrientedCmp.gt_iff_lt.mpr hba).symm.trans hab

theorem get_eq_none_iff : m[k]? = none ↔ k ∉ m.toList.map Prod.fst := by
  constructor
  · intro h hmem
    obtain ⟨⟨k', v⟩, hm, hk⟩ := mem_map.mp hmem
    have : m[k']? = some v := mem_toList.mp hm
    rw [show k' = k from hk, h] at this
    nomatch this
  · intro h
    cases hv : m[k]? with
    | none => rfl
    | some v =>
      exact absurd (mem_map.mpr ⟨(k, v), mem_toList.mpr hv, rfl⟩) h

/-- Distinct bound keys are at most as many as the map has. -/
theorem length_le_size {ks : List K} (hnd : ks.Nodup) (hks : ∀ k ∈ ks, m[k]? ≠ none) :
    ks.length ≤ m.size := by
  rw [← ExtTreeMap.length_toList, ← length_map (f := Prod.fst)]
  refine (subperm_of_subset hnd fun k hk => ?_).length_le
  by_contra hno
  exact hks k hk (get_eq_none_iff.mpr hno)

theorem size_le_of_none {W : Type} {m' : ExtTreeMap K W}
    (h : ∀ k : K, m[k]? = none → m'[k]? = none) : m'.size ≤ m.size := by
  rw [← ExtTreeMap.length_toList, ← length_map (f := Prod.fst)]
  refine length_le_size (nodup_keys m') fun k hk hnone => ?_
  exact get_eq_none_iff.mp (h k hnone) hk

/-- A map whose keys are all listed is no larger than the list. -/
theorem size_le_length {ks : List K} (h : ∀ k v, m[k]? = some v → k ∈ ks) : m.size ≤ ks.length := by
  rw [← ExtTreeMap.length_toList, ← length_map (f := Prod.fst)]
  refine (subperm_of_subset (nodup_keys m) fun k hk => ?_).length_le
  obtain ⟨e, he, rfl⟩ := mem_map.mp hk
  exact h e.1 e.2 (mem_toList.mp he)

end

/-! ## Totals over the values -/

section

variable {K V : Type} [Ord K] [TransOrd K] {f : V → Nat}

/-- The sum of a measure over the values of a map. -/
def total (f : V → Nat) (m : ExtTreeMap K V) : Nat :=
  (m.toList.map (fun e => f e.2)).sum

@[simp] theorem total_empty (f : V → Nat) : total f (∅ : ExtTreeMap K V) = 0 := by
  rw [total, listing_empty]
  rfl

/-- A rewrite of the values that keeps the measure keeps the total. -/
theorem total_map (h : ∀ k v, f (g k v) = f v) (m : ExtTreeMap K V) :
    total f (m.map g) = total f m := by
  rw [total, total, ExtTreeMap.toList_map, List.map_map]
  exact congrArg List.sum (List.map_congr_left fun e _ => h e.1 e.2)

variable [LawfulEqOrd K] [DecidableEq K] {v : V} {k : K} {m : ExtTreeMap K V}

theorem toList_insert_perm (h : m[k]? = none) :
    (m.insert k v).toList.Perm ((k, v) :: m.toList) := by
  refine (perm_ext_iff_of_nodup (nodup_toList _) ?_).mpr ?_
  · refine nodup_cons.mpr ⟨?_, nodup_toList m⟩
    intro hmem
    rw [mem_toList.mp hmem] at h
    nomatch h
  · rintro ⟨k', v'⟩
    rw [mem_cons, mem_toList, mem_toList, get_insert]
    by_cases hk : k = k'
    · subst hk
      simp [h, eq_comm]
    · simp [hk, Ne.symm hk]

theorem toList_erase_perm (h : m[k]? = some v) : m.toList.Perm ((k, v) :: (m.erase k).toList) := by
  have hm : (m.erase k).insert k v = m := by
    refine ext_getElem? fun k' => ?_
    rw [get_insert, get_erase]
    by_cases hk : k = k'
    · subst hk; simp [h]
    · simp [hk]
  have hp := toList_insert_perm (v := v) (get_erase_self m k)
  rw [hm] at hp
  exact hp

theorem total_insert (h : m[k]? = none) : total f (m.insert k v) = total f m + f v := by
  have := ((toList_insert_perm (v := v) h).map (f ·.2)).sum_eq
  simp only [map_cons, sum_cons] at this
  rw [total, this, total, add_comm]

theorem total_erase (h : m[k]? = some v) : total f (m.erase k) + f v = total f m := by
  have := ((toList_erase_perm h).map (f ·.2)).sum_eq
  simp only [map_cons, sum_cons] at this
  rw [total, total, this, add_comm]

/-- Looking up distinct keys finds at most the total. -/
theorem sum_lookup_le_total {ks : List K} (hnd : ks.Nodup) :
    (ks.map fun k => m[k]?.elim 0 f).sum ≤ total f m := by
  induction ks generalizing m with
  | nil => exact zero_le _
  | cons k ks ih =>
    obtain ⟨hk, hnd⟩ := nodup_cons.mp hnd
    rw [map_cons, sum_cons]
    cases hm : m[k]? with
    | none => exact (Nat.zero_add _).symm ▸ ih hnd
    | some v =>
      -- the other keys are looked up in the rest of the map
      have hrest : ks.map (fun k => m[k]?.elim 0 f) =
          ks.map (fun k' => (m.erase k)[k']?.elim 0 f) := by
        refine map_congr_left fun k' hk' => ?_
        have hne : k ≠ k' := fun heq => hk (heq ▸ hk')
        rw [get_erase, if_neg hne]
      rw [hrest, ← total_erase hm, add_comm]
      exact Nat.add_le_add_right (ih hnd) (f v)

end

/-! ## Counting keys -/

section

variable {K V : Type} [Ord K] [TransOrd K] {m : ExtTreeMap K V} {q : K → Bool}

/-- The number of bound keys with a property. -/
def countKeys (q : K → Bool) (m : ExtTreeMap K V) : Nat :=
  (m.toList.filter (fun e => q e.1)).length

private theorem countKeys_eq (q : K → Bool) (m : ExtTreeMap K V) :
    countKeys q m = ((m.toList.map Prod.fst).filter q).length := by
  rw [List.filter_map, List.length_map]
  rfl

@[simp] theorem countKeys_empty (q : K → Bool) : countKeys q (∅ : ExtTreeMap K V) = 0 := by
  rw [countKeys, listing_empty]
  rfl

variable [LawfulEqOrd K]

theorem countKeys_congr {W : Type} {m' : ExtTreeMap K W}
    (h : ∀ k : K, m[k]?.isSome = m'[k]?.isSome) : countKeys q m = countKeys q m' := by
  have hp : (m.toList.map Prod.fst).Perm (m'.toList.map Prod.fst) := by
    refine (perm_ext_iff_of_nodup (nodup_keys m) (nodup_keys m')).mpr fun k => ?_
    have hk := h k
    rw [← not_iff_not, ← get_eq_none_iff, ← get_eq_none_iff, ← isNone_iff_eq_none,
      ← isNone_iff_eq_none, ← not_isSome, ← not_isSome, hk]
  rw [countKeys_eq, countKeys_eq, (hp.filter q).length_eq]

theorem countKeys_pos : 0 < countKeys q m ↔ ∃ (k : K) (v : V), m[k]? = some v ∧ q k = true := by
  rw [countKeys, length_pos_iff_exists_mem]
  constructor
  · rintro ⟨⟨k, v⟩, h⟩
    obtain ⟨hm, hq⟩ := mem_filter.mp h
    exact ⟨k, v, mem_toList.mp hm, hq⟩
  · rintro ⟨k, v, hm, hq⟩
    exact ⟨(k, v), mem_filter.mpr ⟨mem_toList.mpr hm, hq⟩⟩

variable [DecidableEq K]

theorem countKeys_insert (h : m[k]? = none) :
    countKeys q (m.insert k v) = countKeys q m + if q k then 1 else 0 := by
  rw [countKeys, ((toList_insert_perm (v := v) h).filter _).length_eq, filter_cons]
  by_cases hq : q k = true
  · rw [if_pos hq, if_pos hq]
    rfl
  · rw [if_neg hq, if_neg hq]
    rfl

theorem countKeys_erase (h : m[k]? = some v) :
    countKeys q (m.erase k) + (if q k then 1 else 0) = countKeys q m := by
  rw [countKeys, countKeys, ((toList_erase_perm h).filter _).length_eq, filter_cons]
  by_cases hq : q k = true
  · rw [if_pos hq, if_pos hq]
    rfl
  · rw [if_neg hq, if_neg hq]
    rfl

end

/-! ## Binding a list of entries -/

variable {K V : Type} [Ord K] [TransOrd K] [LawfulEqOrd K] [DecidableEq K]

/-- The lookup after binding listed entries with distinct keys. -/
theorem get_foldl_insert (l : List (K × V)) (m : ExtTreeMap K V) (hnd : (l.map Prod.fst).Nodup)
    (v : V) :
    ((l.foldl (fun m e => m.insert e.1 e.2) m)[k]? = some v ↔ (k, v) ∈ l ∨ k ∉ l.map Prod.fst ∧
      m[k]? = some v) := by
  induction l generalizing m v with
  | nil => simp
  | cons e l ih =>
    obtain ⟨k', v'⟩ := e
    obtain ⟨hk', hnd'⟩ := nodup_cons.mp hnd
    rw [foldl_cons, ih _ hnd', get_insert]
    by_cases hk : k' = k
    · subst hk
      have hnot : ∀ w, (k', w) ∉ l := fun w hw => hk' (mem_map.mpr ⟨(k', w), hw, rfl⟩)
      simp only [if_true, mem_cons, hnot, Prod.mk.injEq, map_cons, true_and]
      constructor
      · rintro (h | ⟨-, h⟩)
        · exact absurd h (by simp)
        · exact .inl (Or.inl (some.inj h).symm)
      · rintro (h | ⟨h, -⟩)
        · rcases h with rfl | h
          · exact .inr ⟨hk', rfl⟩
          · exact absurd h (by simp)
        · exact absurd (Or.inl trivial) h
    · rw [if_neg hk]
      simp [Ne.symm hk]

/-- Collecting elements with distinct keys into a map: `insertIfNew` never finds its key bound. -/
theorem get_foldl_insertIfNew (l : List V) (m : ExtTreeMap K V) (hnd : (l.map key).Nodup)
    (hfree : ∀ w ∈ l, m[key w]? = none) :
    ((l.foldl (fun m v => m.insertIfNew (key v) v) m)[k]? = some v ↔ v ∈ l ∧ key v = k ∨ m[k]? =
      some v) := by
  induction l generalizing m with
  | nil => simp
  | cons w l ih =>
    obtain ⟨hw, hnd'⟩ := nodup_cons.mp hnd
    have hm : m.insertIfNew (key w) w = m.insert (key w) w :=
      insertIfNew_eq_insert (hfree w (by simp))
    have hfree' : ∀ w' ∈ l, (m.insertIfNew (key w) w)[key w']? = none := by
      intro w' hw'
      have hne : key w ≠ key w' := fun heq => hw (heq ▸ mem_map_of_mem hw')
      rw [hm, get_insert_ne hne]
      exact hfree w' (mem_cons_of_mem _ hw')
    rw [foldl_cons, ih _ hnd' hfree', hm, get_insert]
    by_cases hk : key w = k
    · have := hfree w (by simp)
      rw [hk] at this
      simp only [if_pos hk, mem_cons, this, some.injEq]
      constructor
      · rintro (h | rfl)
        · exact .inl ⟨Or.inr h.1, h.2⟩
        · exact .inl ⟨Or.inl rfl, hk⟩
      · rintro (⟨rfl | h, hv⟩ | h)
        · exact .inr rfl
        · exact .inl ⟨h, hv⟩
        · nomatch h
    · simp only [if_neg hk, mem_cons]
      constructor
      · rintro (h | h)
        · exact .inl ⟨Or.inr h.1, h.2⟩
        · exact .inr h
      · rintro (⟨rfl | h, hv⟩ | h)
        · exact absurd hv hk
        · exact .inl ⟨h, hv⟩
        · exact .inr h

end OrderedMap
