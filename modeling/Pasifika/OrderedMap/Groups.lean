import Pasifika.OrderedMap.Basic

/-! # Grouped elements

A map from keys to sets of elements, as an index keeps it: `add` puts an
element into the group of a key and creates the group when needed, `leave`
takes an element out and drops a group that became empty. `In` is membership,
and `Grouped m R` says that `m` indexes the relation `R` without empty groups. -/

namespace OrderedMap

open Std List Nat

variable {K E : Type} [Ord K] [TransOrd K] [Ord E] [TransOrd E]

/-- Elements grouped under keys. -/
abbrev Groups (K E : Type) [Ord K] [Ord E] : Type := ExtTreeMap K (ExtTreeSet E)

section

variable {s : ExtTreeSet E}

theorem not_isEmpty_iff : s.isEmpty = false ↔ ∃ e, e ∈ s := by
  rw [Bool.eq_false_iff, Ne, ExtTreeSet.isEmpty_iff, ExtTreeSet.eq_empty_iff_forall_not_mem]
  push Not
  exact Iff.rfl

variable [LawfulEqOrd E]

theorem nodup_setList (s : ExtTreeSet E) : s.toList.Nodup := by
  rw [nodup_iff_pairwise_ne]
  refine ExtTreeSet.distinct_toList.imp ?_
  intro a b hne heq
  exact hne (Std.compare_eq_iff_eq.mpr heq)

theorem mem_setErase : e' ∈ s.erase e ↔ e' ≠ e ∧ e' ∈ s := by
  rw [ExtTreeSet.mem_erase, Ne, Std.compare_eq_iff_eq, ne_comm]

end

namespace Groups

/-- An element is in the group of a key. -/
def In (m : Groups K E) (k : K) (e : E) : Prop := ∃ s, m[k]? = some s ∧ e ∈ s

/-- `entry(k).or_default().insert(e)`. -/
def add (m : Groups K E) (k : K) (e : E) : Groups K E := m.insert k ((m[k]?.getD ∅).insert e)

/-- Take an element out of a group, and the group out when nothing is left. -/
def leave (m : Groups K E) (k : K) (e : E) : Groups K E :=
  match m[k]? with
  | none => m
  | some s => if (s.erase e).isEmpty then m.erase k else m.insert k (s.erase e)

variable {k k' : K} {m : Groups K E} {e : E}

theorem not_in_of_none (h : m[k]? = none) (e : E) : ¬ In m k e := by
  rintro ⟨s, hs, -⟩
  rw [h] at hs
  nomatch hs

variable [LawfulEqOrd K] [DecidableEq K]

theorem in_erase : In (m.erase k) k' e ↔ In m k' e ∧ k' ≠ k := by
  simp only [In, get_erase]
  by_cases hk : k = k'
  · simp [hk]
  · simp [hk, Ne.symm hk]

variable [LawfulEqOrd E]

theorem in_add : In (add m k e) k' e' ↔ In m k' e' ∨ k' = k ∧ e' = e := by
  simp only [In, add, get_insert]
  by_cases hk : k = k'
  · subst hk
    cases hs : m[k]? with
    | none => simp [@eq_comm _ e e']
    | some s => simp [@eq_comm _ e e', or_comm]
  · simp [hk, Ne.symm hk]

theorem in_leave : In (leave m k e) k' e' ↔ In m k' e' ∧ ¬ (k' = k ∧ e' = e) := by
  rw [leave]
  cases hs : m[k]? with
  | none =>
    refine ⟨fun h => ⟨h, ?_⟩, fun h => h.1⟩
    rintro ⟨rfl, rfl⟩
    obtain ⟨s, hs', -⟩ := h
    rw [hs] at hs'
    nomatch hs'
  | some s =>
    dsimp only
    by_cases hk : k = k'
    · subst hk
      have hin : In m k e' ↔ e' ∈ s := by simp [In, hs]
      rw [hin]
      by_cases hemp : (s.erase e).isEmpty = true
      · rw [if_pos hemp]
        rw [ExtTreeSet.isEmpty_iff, ExtTreeSet.eq_empty_iff_forall_not_mem] at hemp
        have hno := hemp e'
        rw [mem_setErase] at hno
        simp only [In, get_erase_self, true_and]
        constructor
        · rintro ⟨s', hs', -⟩
          nomatch hs'
        · rintro ⟨he, hne⟩
          exact absurd ⟨hne, he⟩ hno
      · rw [if_neg hemp]
        simp [In, @eq_comm _ e e', and_comm]
    · have hother : ∀ s', (if (s.erase e).isEmpty then m.erase k
          else m.insert k (s.erase e))[k']? = some s' ↔ m[k']? = some s' := by
        intro s'
        split
        · rw [get_erase_ne hk]
        · rw [get_insert_ne hk]
      simp only [In, hother, Ne.symm hk, false_and, not_false_eq_true, and_true]

end Groups

open Groups

/-- **AN INDEX OF A RELATION**, without empty groups. -/
structure Grouped (m : Groups K E) (R : K → E → Prop) : Prop where
  mem : ∀ k e, In m k e ↔ R k e
  nonempty : ∀ (k : K) (s : ExtTreeSet E), m[k]? = some s → s.isEmpty = false

namespace Grouped

variable {m : Groups K E} {R R' : K → E → Prop}

theorem empty : Grouped (∅ : Groups K E) (fun _ _ => False) := by
  refine ⟨fun k e => ⟨not_in_of_none ExtTreeMap.getElem?_empty e, False.elim⟩, fun k s hs => ?_⟩
  rw [ExtTreeMap.getElem?_empty] at hs
  nomatch hs

theorem congr (h : Grouped m R) (heq : ∀ k e, R k e ↔ R' k e) : Grouped m R' :=
  ⟨fun k e => (h.mem k e).trans (heq k e), h.nonempty⟩

variable [LawfulEqOrd K] [DecidableEq K]

theorem erase (h : Grouped m R) (k : K) : Grouped (m.erase k) (fun k' e' => R k' e' ∧ k' ≠ k) := by
  refine ⟨fun k' e' => in_erase.trans (and_congr_left' (h.mem k' e')), fun k' s hs => ?_⟩
  rw [get_erase] at hs
  split at hs
  · nomatch hs
  · exact h.nonempty k' s hs

variable [LawfulEqOrd E]

theorem add (h : Grouped m R) (k : K) (e : E) :
    Grouped (Groups.add m k e) (fun k' e' => R k' e' ∨ k' = k ∧ e' = e) := by
  refine ⟨fun k' e' => in_add.trans (or_congr_left (h.mem k' e')), fun k' s hs => ?_⟩
  rw [Groups.add, get_insert] at hs
  by_cases hk : k = k'
  · rw [if_pos hk] at hs
    cases hs
    exact not_isEmpty_iff.mpr ⟨e, ExtTreeSet.mem_insert_self⟩
  · rw [if_neg hk] at hs
    exact h.nonempty k' s hs

theorem leave (h : Grouped m R) (k : K) (e : E) :
    Grouped (Groups.leave m k e) (fun k' e' => R k' e' ∧ ¬ (k' = k ∧ e' = e)) := by
  refine ⟨fun k' e' => in_leave.trans (and_congr_left' (h.mem k' e')), fun k' s' hs' => ?_⟩
  rw [Groups.leave] at hs'
  cases hs : m[k]? with
  | none =>
    rw [hs] at hs'
    exact h.nonempty k' s' hs'
  | some s =>
    rw [hs] at hs'
    dsimp only at hs'
    split at hs'
    · rw [get_erase] at hs'
      split at hs'
      · nomatch hs'
      · exact h.nonempty k' s' hs'
    · rename_i hne
      rw [get_insert] at hs'
      split at hs'
      · cases hs'
        exact Bool.eq_false_iff.mpr hne
      · exact h.nonempty k' s' hs'

end Grouped

/-! ## Groups in vectors

The same with a `Vec` for each group: elements are pushed to the end and taken
out with `swap_remove`. -/

variable {A : Type}

/-- `Vec::swap_remove`, without the removed element. -/
def swapRemove (l : List A) (i : Nat) : List A :=
  match l.getLast? with
  | none => l
  | some last => (l.set i last).dropLast

variable {l : List A}

/-- The element at the index is gone, and no other one. -/
theorem perm_swapRemove (h : l[i]? = some a) : l.Perm (a :: swapRemove l i) := by
  obtain ⟨l', last, rfl⟩ : ∃ l' last, l = l' ++ [last] := by
    rcases eq_nil_or_concat l with rfl | ⟨l', last, rfl⟩
    · nomatch h
    · exact ⟨l', last, by rw [concat_eq_append]⟩
  rw [swapRemove, getLast?_concat]
  show (l' ++ [last]).Perm (a :: ((l' ++ [last]).set i last).dropLast)
  by_cases hi : i < l'.length
  · rw [getElem?_append_left hi] at h
    rw [set_append_left _ _ hi, dropLast_concat]
    have hset : (last :: l').Perm (a :: l'.set i last) := by
      obtain ⟨l1, l2, hl, -, hset⟩ := @exists_of_set A i last l' hi
      rw [(List.getElem?_eq_some_iff.mp h).2] at hl
      rw [hset, hl]
      exact (perm_middle.cons last).trans ((Perm.swap a last _).trans (perm_middle.symm.cons a))
    exact (perm_append_singleton last l').trans hset
  · have hlen : i = l'.length := by
      have := (List.getElem?_eq_some_iff.mp h).1
      rw [length_append, length_singleton] at this
      omega
    subst hlen
    rw [getElem?_append_right (Nat.le_refl _), Nat.sub_self] at h
    cases h
    rw [set_append_right _ _ (Nat.le_refl _), Nat.sub_self, set_cons_zero, dropLast_concat]
    exact perm_append_singleton _ l'

/-- `entry(k).or_default().push(a)`. -/
def pushTo (m : ExtTreeMap K (List A)) (k : K) (a : A) : ExtTreeMap K (List A) :=
  m.insert k (m[k]?.getD [] ++ [a])

/-- Take the first element with a property out of a vector, and the vector out
    when nothing is left. -/
def takeFrom (m : ExtTreeMap K (List A)) (k : K) (found : A → Bool) : ExtTreeMap K (List A) :=
  match m[k]? with
  | none => m
  | some l =>
    match l.findIdx? found with
    | none => m
    | some i => if (swapRemove l i).isEmpty then m.erase k else m.insert k (swapRemove l i)

/-- **VECTORS OF A RELATION**, without empty vectors and without repetitions. -/
structure Listed (m : ExtTreeMap K (List A)) (R : K → A → Prop) : Prop where
  mem : ∀ (k : K) (a : A), (∃ l, m[k]? = some l ∧ a ∈ l) ↔ R k a
  nonempty : ∀ (k : K) (l : List A), m[k]? = some l → l ≠ []
  nodup : ∀ (k : K) (l : List A), m[k]? = some l → l.Nodup

namespace Listed

variable {m : ExtTreeMap K (List A)} {R R' : K → A → Prop} {k : K}

theorem empty : Listed (∅ : ExtTreeMap K (List A)) (fun _ _ => False) := by
  have hnone : ∀ (k : K) (l : List A), (∅ : ExtTreeMap K (List A))[k]? ≠ some l := by
    intro k l h
    rw [ExtTreeMap.getElem?_empty] at h
    nomatch h
  exact ⟨fun k a => ⟨fun ⟨l, hl, _⟩ => hnone k l hl, False.elim⟩,
    fun k l h => absurd h (hnone k l), fun k l h => absurd h (hnone k l)⟩

theorem congr (h : Listed m R) (heq : ∀ k a, R k a ↔ R' k a) : Listed m R' :=
  ⟨fun k a => (h.mem k a).trans (heq k a), h.nonempty, h.nodup⟩

theorem mem_vector (h : Listed m R) (hl : m[k]? = some l) (a : A) : a ∈ l ↔ R k a := by
  rw [← h.mem]
  refine ⟨fun ha => ⟨l, hl, ha⟩, ?_⟩
  rintro ⟨l', hl', ha⟩
  rw [hl] at hl'
  exact Option.some.inj hl' ▸ ha

/-- Nothing is taken when no element has the property. -/
theorem take_of_not (h : Listed m R) (hno : ∀ a, R k a → found a = false) :
    takeFrom m k found = m := by
  rw [takeFrom]
  cases hl : m[k]? with
  | none => rfl
  | some l =>
    have hidx : l.findIdx? found = none :=
      findIdx?_eq_none_iff.mpr fun a ha => hno a ((h.mem_vector hl a).mp ha)
    dsimp only
    rw [hidx]

variable [DecidableEq K]

/-- **REPLACING THE VECTOR** of one key; an empty one goes. -/
theorem replace (h : Listed m R)
    (hm : ∀ k' : K, m'[k']? = if k = k' then (if l.isEmpty then none else some l) else m[k']?)
    (hnd : l.Nodup) (hself : ∀ a, a ∈ l ↔ R' k a) (hother : ∀ k' a, k ≠ k' → (R k' a ↔ R' k' a)) :
    Listed m' R' := by
  have hget : ∀ {k'} {l'}, m'[k']? = some l' → k = k' ∧ l' = l ∧ l ≠ []
      ∨ k ≠ k' ∧ m[k']? = some l' := by
    intro k' l' hl'
    rw [hm] at hl'
    by_cases hk : k = k'
    · rw [if_pos hk] at hl'
      split at hl'
      · nomatch hl'
      · rename_i hne
        cases hl'
        exact .inl ⟨hk, rfl, fun hnil => hne (by rw [hnil]; rfl)⟩
    · rw [if_neg hk] at hl'
      exact .inr ⟨hk, hl'⟩
  refine ⟨fun k' a => ⟨?_, fun hR => ?_⟩, fun k' l' hl' => ?_, fun k' l' hl' => ?_⟩
  · rintro ⟨l', hl', ha⟩
    rcases hget hl' with ⟨rfl, rfl, -⟩ | ⟨hk, hl'⟩
    · exact (hself a).mp ha
    · exact (hother k' a hk).mp ((h.mem k' a).mp ⟨l', hl', ha⟩)
  · by_cases hk : k = k'
    · subst hk
      have ha := (hself a).mpr hR
      refine ⟨l, ?_, ha⟩
      rw [hm, if_pos rfl, if_neg fun hemp => ?_]
      rw [isEmpty_iff.mp hemp] at ha
      nomatch ha
    · obtain ⟨l', hl', ha⟩ := (h.mem k' a).mpr ((hother k' a hk).mpr hR)
      exact ⟨l', by rw [hm, if_neg hk, hl'], ha⟩
  · rcases hget hl' with ⟨-, rfl, hne⟩ | ⟨-, hl'⟩
    · exact hne
    · exact h.nonempty k' l' hl'
  · rcases hget hl' with ⟨-, rfl, -⟩ | ⟨-, hl'⟩
    · exact hnd
    · exact h.nodup k' l' hl'

variable [LawfulEqOrd K]

theorem push (h : Listed m R) (hnew : ¬ R k a) :
    Listed (pushTo m k a) (fun k' a' => R k' a' ∨ k' = k ∧ a' = a) := by
  have hold : ∀ a', a' ∈ m[k]?.getD [] ↔ R k a' := by
    intro a'
    rw [← h.mem]
    cases m[k]? with
    | none | some l => simp
  refine h.replace (k := k) (l := m[k]?.getD [] ++ [a]) (fun k' => ?_) ?_ (fun a' => ?_)
    (fun k' a' hk => ?_)
  · rw [pushTo, get_insert]
    simp
  · refine nodup_append.mpr ⟨?_, nodup_singleton a, fun a' ha' b hb heq => ?_⟩
    · cases hl : m[k]? with
      | none => exact nodup_nil
      | some l => exact h.nodup k l hl
    · rw [mem_singleton.mp hb] at heq
      exact hnew ((hold a).mp (heq ▸ ha'))
  · rw [mem_append, mem_singleton, hold]
    simp
  · simp [Ne.symm hk]

theorem take (h : Listed m R) (ha : R k a) (hfound : found a = true)
    (huniq : ∀ a', R k a' → found a' = true → a' = a) :
    Listed (takeFrom m k found) (fun k' a' => R k' a' ∧ ¬ (k' = k ∧ a' = a)) := by
  obtain ⟨l, hl, hmem⟩ := (h.mem k a).mpr ha
  obtain ⟨i, hi⟩ : ∃ i, l.findIdx? found = some i := by
    cases hidx : l.findIdx? found with
    | none =>
      rw [findIdx?_eq_none_iff] at hidx
      rw [hidx a hmem] at hfound
      nomatch hfound
    | some i => exact ⟨i, rfl⟩
  have hget : l[i]? = some a := by
    obtain ⟨hlt, hf, -⟩ := findIdx?_eq_some_iff_getElem.mp hi
    rw [getElem?_eq_getElem hlt]
    exact congrArg some (huniq _ ((h.mem_vector hl _).mp (getElem_mem hlt)) hf)
  have hperm := perm_swapRemove hget
  have hnd := hperm.nodup_iff.mp (h.nodup k l hl)
  obtain ⟨hout, hnd'⟩ := nodup_cons.mp hnd
  have hm : takeFrom m k found
      = if (swapRemove l i).isEmpty then m.erase k else m.insert k (swapRemove l i) := by
    rw [takeFrom, hl]
    dsimp only
    rw [hi]
  refine h.replace (k := k) (l := swapRemove l i) (fun k' => ?_) hnd' (fun a' => ?_)
    (fun k' a' hk => ?_)
  · rw [hm]
    by_cases hemp : (swapRemove l i).isEmpty = true
    · rw [if_pos hemp, if_pos hemp, get_erase]
    · rw [if_neg hemp, if_neg hemp, get_insert]
  · rw [← h.mem_vector hl, hperm.mem_iff, mem_cons]
    constructor
    · intro ha'
      exact ⟨Or.inr ha', fun heq => hout (heq.2 ▸ ha')⟩
    · rintro ⟨rfl | ha', hne⟩
      · exact absurd ⟨rfl, rfl⟩ hne
      · exact ha'
  · simp [Ne.symm hk]

end Listed

end OrderedMap
