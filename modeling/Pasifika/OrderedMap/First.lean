import Pasifika.OrderedMap.Basic

/-! # The first entry of a map

A cursor over an ordered map returns the first entry at or after a key. Such an
entry is determined by the bindings alone, so that two ways of finding it agree:
`First R r` says that `r` is the entry with the least key among the bindings `R`.
Updates that set or remove bindings are applied to a map with `applyUpdates`;
`extendWith` binds the keys of one map in another, from what they are bound to. -/

namespace OrderedMap

open Std List

section

variable {K V : Type} [Ord K] [TransOrd K] [LawfulEqOrd K]

/-- The binding with the least key, if there is any. -/
def First (R : K → V → Prop) : Option (K × V) → Prop
  | none => ∀ k v, ¬ R k v
  | some (k, v) => R k v ∧ ∀ k' v', R k' v' → compare k' k ≠ .lt

theorem First.unique {R : K → V → Prop} (hR : ∀ k v v', R k v → R k v' → v = v')
    {r r' : Option (K × V)} (h : First R r) (h' : First R r') : r = r' := by
  match r, r', h, h' with
  | none, none, _, _ => rfl
  | none, some (k, v), h, h' => exact absurd h'.1 (h k v)
  | some (k, v), none, h, h' => exact absurd h.1 (h' k v)
  | some (k, v), some (k', v'), h, h' =>
    have hge : compare k k' ≠ .lt := h'.2 k v h.1
    have hle : compare k' k ≠ .lt := h.2 k' v' h'.1
    have heq : k = k' := by
      cases hc : compare k k' with
      | lt => exact absurd hc hge
      | eq => exact Std.compare_eq_iff_eq.mp hc
      | gt => exact absurd (Std.OrientedCmp.gt_iff_lt.mp hc) hle
    subst heq
    rw [hR k v v' h.1 h'.1]

/-- Searching a sorted list finds the first of the entries that pass a test. -/
theorem first_find {l : List (K × V)} (hl : l.Pairwise (compare ·.1 ·.1 = .lt))
    (q : K × V → Bool) : First (fun k v => (k, v) ∈ l ∧ q (k, v) = true) (l.find? q) := by
  cases hfind : l.find? q with
  | none =>
    rintro k v ⟨hmem, hq⟩
    exact absurd hq (find?_eq_none.mp hfind _ hmem)
  | some e =>
    obtain ⟨k, v⟩ := e
    refine ⟨⟨mem_of_find?_eq_some hfind, find?_some hfind⟩, ?_⟩
    rintro k' v' ⟨hmem, hq⟩ hlt
    -- an entry before the one found does not pass, and one after it is greater
    obtain ⟨-, l1, l2, rfl, hbefore⟩ := find?_eq_some_iff_append.mp hfind
    rcases mem_append.mp hmem with h1 | h2
    · exact absurd hq (by simpa using hbefore _ h1)
    · rcases mem_cons.mp h2 with heq | h2
      · cases heq
        rw [Std.compare_eq_iff_eq.mpr rfl] at hlt
        nomatch hlt
      · have hgt := (pairwise_cons.mp (pairwise_append.mp hl).2.1).1 _ h2
        exact nomatch (Std.OrientedCmp.gt_iff_lt.mpr hgt).symm.trans hlt

end

/-! ## Sorted lists -/

/-- Dropping while a test holds that, once it fails, keeps failing. -/
theorem dropWhile_eq_filter {A : Type} {R : A → A → Prop} {a : A → Bool} :
    ∀ {l : List A}, l.Pairwise R → (∀ x y, R x y → a y = true → a x = true) →
      l.dropWhile a = l.filter (fun x => !a x) := by
  intro l
  induction l with
  | nil => intro _ _; rfl
  | cons x l ih =>
    intro hl ha
    obtain ⟨hx, hl⟩ := pairwise_cons.mp hl
    cases hax : a x with
    | true =>
      rw [dropWhile_cons_of_pos hax, filter_cons_of_neg (by simp [hax])]
      exact ih hl ha
    | false =>
      rw [dropWhile_cons_of_neg (by simp [hax]), filter_cons_of_pos (by simp [hax]),
        filter_eq_self.mpr]
      intro y hy
      cases hay : a y with
      | true => exact absurd (ha x y (hx y hy) hay) (by simp [hax])
      | false => rfl

section

variable {K U : Type} [Ord K]

/-- `sort_unstable_by` the keys; entries with equal keys keep their order. -/
def sortByKey (l : List (K × U)) : List (K × U) :=
  l.insertionSort (fun a b => (compare a.1 b.1).isLE = true)

end

/-! ## Sets -/

section

variable {K A : Type} [Ord K] [TransOrd K] [LawfulEqOrd K]

theorem mem_foldl_insert (f : A → K) (k : K) : ∀ (l : List A) (s : ExtTreeSet K),
    k ∈ l.foldl (fun s a => s.insert (f a)) s ↔ (∃ a ∈ l, f a = k) ∨ k ∈ s := by
  intro l
  induction l with
  | nil => intro s; simp
  | cons a l ih =>
    intro s
    rw [foldl_cons, ih, ExtTreeSet.mem_insert, Std.compare_eq_iff_eq]
    simp only [mem_cons, exists_eq_or_imp]
    rw [or_assoc]
    exact or_left_comm

theorem mem_foldl_erase (f : A → K) (k : K) : ∀ (l : List A) (s : ExtTreeSet K),
    k ∈ l.foldl (fun s a => s.erase (f a)) s ↔ k ∈ s ∧ ∀ a ∈ l, f a ≠ k := by
  intro l
  induction l with
  | nil => intro s; simp
  | cons a l ih =>
    intro s
    rw [foldl_cons, ih, ExtTreeSet.mem_erase, Ne, Std.compare_eq_iff_eq]
    simp only [mem_cons, forall_eq_or_imp]
    tauto

end

/-! ## Updates -/

variable {K U V : Type} [Ord K] [TransOrd K] [LawfulEqOrd K]

/-- Set or remove the binding of a key. -/
def update (m : ExtTreeMap K V) (k : K) : Option V → ExtTreeMap K V
  | some v => m.insert k v
  | none => m.erase k

/-- Apply the updates that a map lists for its keys. -/
def applyUpdates (g : U → Option V) (updates : ExtTreeMap K U) (m : ExtTreeMap K V) :
    ExtTreeMap K V :=
  updates.toList.foldl (fun m e => update m e.1 (g e.2)) m

variable [DecidableEq K]

theorem get_update (m : ExtTreeMap K V) (k k' : K) (v : Option V) :
    (update m k v)[k']? = if k = k' then v else m[k']? := by
  cases v with
  | none => exact get_erase m k k'
  | some v => exact get_insert m k k' v

/-- A list of updates with distinct keys gives every listed key its update, and leaves the
    others. -/
theorem get_foldl_update (g : U → Option V) (k : K) (l : List (K × U)) (m : ExtTreeMap K V)
    (hnd : (l.map Prod.fst).Nodup) :
    (∀ u, (k, u) ∈ l → (l.foldl (fun m e => update m e.1 (g e.2)) m)[k]? = g u) ∧
      (k ∉ l.map Prod.fst → (l.foldl (fun m e => update m e.1 (g e.2)) m)[k]? = m[k]?) := by
  induction l generalizing m with
  | nil => exact ⟨nofun, fun _ => rfl⟩
  | cons e l ih =>
    obtain ⟨he, hnd⟩ := nodup_cons.mp hnd
    obtain ⟨hin, hout⟩ := ih (update m e.1 (g e.2)) hnd
    refine ⟨?_, ?_⟩
    · intro u hu
      rcases mem_cons.mp hu with rfl | hu
      · rw [foldl_cons, hout he, get_update, if_pos rfl]
      · exact hin u hu
    · intro hk
      rw [map_cons, mem_cons, not_or] at hk
      rw [foldl_cons, hout hk.2, get_update, if_neg (Ne.symm hk.1)]

theorem get_applyUpdates (g : U → Option V) (updates : ExtTreeMap K U) (m : ExtTreeMap K V)
    (k : K) :
    (applyUpdates g updates m)[k]? =
      match updates[k]? with
      | some u => g u
      | none => m[k]? := by
  obtain ⟨hin, hout⟩ := get_foldl_update g k updates.toList m (nodup_keys updates)
  cases hu : updates[k]? with
  | none => exact hout (get_eq_none_iff.mp hu)
  | some u => exact hin u (mem_toList.mpr hu)

/-- Bind listed keys, from what they are bound to. -/
def upsert (f : Option V → U → V) (m : ExtTreeMap K V) (l : List (K × U)) : ExtTreeMap K V :=
  l.foldl (fun m e => m.insert e.1 (f m[e.1]? e.2)) m

variable (f : Option V → U → V)

theorem get_upsert (k : K) (l : List (K × U)) (m : ExtTreeMap K V) (hnd : (l.map Prod.fst).Nodup) :
    (∀ u, (k, u) ∈ l → (upsert f m l)[k]? = some (f m[k]? u)) ∧
      (k ∉ l.map Prod.fst → (upsert f m l)[k]? = m[k]?) := by
  induction l generalizing m with
  | nil => exact ⟨nofun, fun _ => rfl⟩
  | cons e l ih =>
    obtain ⟨he, hnd⟩ := nodup_cons.mp hnd
    obtain ⟨hin, hout⟩ := ih (m.insert e.1 (f m[e.1]? e.2)) hnd
    refine ⟨?_, ?_⟩
    · intro u hu
      rcases mem_cons.mp hu with rfl | hu
      · exact (hout he).trans (get_insert_self _ _ _)
      · have hne : e.1 ≠ k := fun heq => he (heq ▸ mem_map_of_mem hu)
        have hget := hin u hu
        rwa [get_insert_ne hne] at hget
    · intro hk
      rw [map_cons, mem_cons, not_or] at hk
      exact (hout hk.2).trans (get_insert_ne (Ne.symm hk.1))

/-- Bind the keys of one map in another. -/
def extendWith (f : Option V → U → V) (m : ExtTreeMap K V) (other : ExtTreeMap K U) :
    ExtTreeMap K V :=
  upsert f m other.toList

theorem get_extendWith (m : ExtTreeMap K V) (other : ExtTreeMap K U) (k : K) :
    (extendWith f m other)[k]? =
      match other[k]? with
      | some u => some (f m[k]? u)
      | none => m[k]? := by
  obtain ⟨hin, hout⟩ := get_upsert f k other.toList m (nodup_keys other)
  cases hu : other[k]? with
  | none => exact hout (get_eq_none_iff.mp hu)
  | some u => exact hin u (mem_toList.mpr hu)

/-- `extend`: the entries of the other map take precedence. -/
def extend (m other : ExtTreeMap K V) : ExtTreeMap K V := extendWith (fun _ v => v) m other

theorem get_extend (m other : ExtTreeMap K V) (k : K) :
    (extend m other)[k]? = other[k]?.or m[k]? := by
  rw [extend, get_extendWith]
  cases other[k]? <;> rfl

end OrderedMap
