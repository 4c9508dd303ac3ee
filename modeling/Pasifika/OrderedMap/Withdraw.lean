import Pasifika.OrderedMap.Pass

/-! # Withdrawals

A container is observed through its lookup `K → Option T`, where every
element carries its own key. `Withdraws key get get' out` says that a step
took exactly the elements `out` away: they were there, each once, and the
rest is untouched. Steps that withdraw compose by appending what they took
out.

`Lists get l` says that `l` enumerates the container; listings turn lookups
into counts and sums. -/

namespace OrderedMap

open Std List Option

variable {K T : Type} [DecidableEq K]

/-- The step from `get` to `get'` takes exactly the elements `out` away. -/
structure Withdraws (key : T → K) (get get' : K → Option T) (out : List T) : Prop where
  held : ∀ t ∈ out, get (key t) = some t
  nodup : (out.map key).Nodup
  rest : ∀ k, get' k = if k ∈ out.map key then none else get k

namespace Withdraws

variable {key : T → K} {get get' get'' : K → Option T} {out out' : List T}

theorem nil (h : ∀ k, get' k = get k) : Withdraws key get get' [] where
  held := nofun
  nodup := nodup_nil
  rest := fun k => by rw [h k]; rfl

/-- What one removal takes: the element bound to the key, if there is one. -/
theorem single (hkey : ∀ t, get k = some t → key t = k)
    (h : ∀ k', get' k' = if k = k' then none else get k') :
    Withdraws key get get' (get k).toList := by
  cases hk : get k with
  | none =>
    refine nil fun k' => ?_
    rw [h k']
    by_cases heq : k = k'
    · rw [if_pos heq, ← heq, hk]
    · rw [if_neg heq]
  | some t =>
    have ht : key t = k := hkey t hk
    refine ⟨?_, by simp, ?_⟩
    · intro t' ht'
      rw [toList_some, mem_singleton] at ht'
      rw [ht', ht, hk]
    · intro k'
      rw [h k', toList_some, map_singleton]
      by_cases heq : k = k'
      · rw [if_pos heq, if_pos (by rw [ht, heq]; exact mem_singleton_self _)]
      · rw [if_neg heq, if_neg fun hmem => heq (by rw [mem_singleton.mp hmem, ht])]

theorem append (h : Withdraws key get get' out) (h' : Withdraws key get' get'' out') :
    Withdraws key get get'' (out ++ out') := by
  -- what the second step takes was not taken by the first one
  have hfresh : ∀ t ∈ out', key t ∉ out.map key := by
    intro t ht hmem
    have := h'.held t ht
    rw [h.rest, if_pos hmem] at this
    nomatch this
  refine ⟨?_, ?_, ?_⟩
  · intro t ht
    rcases mem_append.mp ht with ht | ht
    · exact h.held t ht
    · have := h'.held t ht
      rw [h.rest, if_neg (hfresh t ht)] at this
      exact this
  · rw [map_append]
    refine Nodup.append h.nodup h'.nodup ?_
    intro k hk hk'
    obtain ⟨t, ht, rfl⟩ := mem_map.mp hk'
    exact hfresh t ht hk
  · intro k
    rw [h'.rest, h.rest, map_append]
    simp only [mem_append]
    by_cases hk' : k ∈ out'.map key
    · rw [if_pos hk', if_pos (Or.inr hk')]
    · rw [if_neg hk']
      by_cases hk : k ∈ out.map key
      · rw [if_pos hk, if_pos (Or.inl hk)]
      · rw [if_neg hk, if_neg (not_or.mpr ⟨hk, hk'⟩)]

/-- A second container that is asked first does not notice, if it holds none of
    the elements taken. -/
theorem or (first : K → Option T) (h : Withdraws key get get' out)
    (hfree : ∀ t ∈ out, first (key t) = none) :
    Withdraws key (fun k => (first k).or (get k)) (fun k => (first k).or (get' k)) out := by
  refine ⟨fun t ht => ?_, h.nodup, fun k => ?_⟩
  · show (first (key t)).or (get (key t)) = some t
    rw [hfree t ht, none_or, h.held t ht]
  · show (first k).or (get' k) = _
    rw [h.rest]
    by_cases hk : k ∈ out.map key
    · obtain ⟨t, ht, rfl⟩ := mem_map.mp hk
      rw [if_pos hk, if_pos hk, hfree t ht]
      rfl
    · rw [if_neg hk, if_neg hk]

theorem congr (h : Withdraws key get get' out) (heq : ∀ k, get0 k = get k)
    (heq' : ∀ k, get0' k = get' k) :
    Withdraws key get0 get0' out := by
  rw [funext heq, funext heq']
  exact h

end Withdraws

/-! ## Listings -/

/-- The list enumerates the container. -/
structure Lists (get : K → Option T) (l : List (K × T)) : Prop where
  nodup : l.Nodup
  mem : ∀ k t, (k, t) ∈ l ↔ get k = some t

omit [DecidableEq K] in
/-- The values of a map are listed with their keys. -/
theorem lists_toList {V : Type} [Ord K] [TransOrd K] [LawfulEqOrd K] (m : ExtTreeMap K V)
    (f : V → T) :
    Lists (fun k => m[k]?.map f) (m.toList.map fun e => (e.1, f e.2)) := by
  refine ⟨?_, fun k t => ?_⟩
  · refine Nodup.of_map Prod.fst ?_
    rw [List.map_map]
    exact nodup_keys m
  · rw [List.mem_map, Option.map_eq_some_iff]
    constructor
    · rintro ⟨e, he, heq⟩
      obtain ⟨rfl, rfl⟩ := Prod.mk.inj heq
      exact ⟨e.2, mem_toList.mp he, rfl⟩
    · rintro ⟨v, hv, rfl⟩
      exact ⟨(k, v), mem_toList.mpr hv, rfl⟩

variable {get get' : K → Option T} {l l' : List (K × T)}

omit [DecidableEq K] in
theorem Lists.subperm (h : Lists get l) (h' : Lists get' l')
    (hsub : ∀ k t, get' k = some t → get k = some t) : l'.Subperm l :=
  subperm_of_subset h'.nodup fun e he => (h.mem e.1 e.2).mpr (hsub _ _ ((h'.mem _ _).mp he))

/-- What a withdrawal leaves and what it took make up the listing. -/
theorem Withdraws.perm (hw : Withdraws key get get' out) (h : Lists get l) (h' : Lists get' l') :
    l.Perm (l' ++ out.map fun t => (key t, t)) := by
  have hout : (out.map fun t => (key t, t)).Nodup := by
    refine Nodup.of_map Prod.fst ?_
    rw [List.map_map]
    exact hw.nodup
  refine (perm_ext_iff_of_nodup h.nodup (Nodup.append h'.nodup hout ?_)).mpr ?_
  · rintro ⟨k, t⟩ hl' ht
    obtain ⟨t', ht', heq⟩ := mem_map.mp ht
    obtain ⟨rfl, rfl⟩ := Prod.mk.inj heq
    have hnone := (h'.mem _ _).mp hl'
    rw [hw.rest, if_pos (mem_map_of_mem ht')] at hnone
    nomatch hnone
  · rintro ⟨k, t⟩
    rw [List.mem_append, h.mem, h'.mem, List.mem_map]
    constructor
    · intro hk
      by_cases hmem : k ∈ out.map key
      · obtain ⟨t', ht', rfl⟩ := mem_map.mp hmem
        rw [hw.held t' ht'] at hk
        exact .inr ⟨t', ht', by rw [some.inj hk]⟩
      · refine .inl ?_
        rw [hw.rest, if_neg hmem, hk]
    · rintro (hk | ⟨t', ht', heq⟩)
      · rw [hw.rest] at hk
        split at hk
        · nomatch hk
        · exact hk
      · obtain ⟨rfl, rfl⟩ := Prod.mk.inj heq
        exact hw.held t' ht'

end OrderedMap
