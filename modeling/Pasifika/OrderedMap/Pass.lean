import Pasifika.OrderedMap.Basic

/-! # Passes over an ordered map

Two loops over the entries of a map in key order:

* `sweep`, one pass of `iter_mut()` that carries a cursor, rewrites each
  value once and records updates, with the lookup of its result at every
  key, the cursor `cursorAt` each entry is visited with and the induction
  rule `sweep_induction`;
* `retain`, a pass in which the first failing entry of a group takes the
  rest of its group with it. -/

namespace OrderedMap

open Std (ExtTreeMap TransOrd LawfulEqOrd)
open List

/-! ## Sweeps: one `iter_mut()` pass with a cursor -/

section

variable {K V S U : Type} {visit : S → K → V → S × V × List U}

/-- The cursor after the listed entries. -/
def cursorAfter (visit : S → K → V → S × V × List U) :
    List (K × V) → S → S
  | [], s => s
  | (k, v) :: l, s => cursorAfter visit l (visit s k v).1

theorem cursorAfter_append (l1 l2 : List (K × V)) (s : S) :
    cursorAfter visit (l1 ++ l2) s
      = cursorAfter visit l2 (cursorAfter visit l1 s) := by
  induction l1 generalizing s with
  | nil => rfl
  | cons e l ih => exact ih _

/-- A listing splits in one way at a key that occurs once. -/
private theorem split_unique (hk2 : k ∉ l2.map Prod.fst) (hk1 : k ∉ l1.map Prod.fst)
    (heq : l1 ++ (k, v) :: l2 = l1' ++ (k, v') :: l2') : l1 = l1' ∧ v = v' := by
  induction l1 generalizing l1' with
  | nil =>
    cases l1' with
    | nil =>
      obtain ⟨he, -⟩ := cons.inj heq
      exact ⟨rfl, (Prod.mk.inj he).2⟩
    | cons e l1' =>
      rw [(cons.inj heq).2] at hk2
      exact absurd (by simp) hk2
  | cons e l ih =>
    cases l1' with
    | nil =>
      obtain ⟨he, -⟩ := cons.inj heq
      rw [he] at hk1
      exact absurd (by simp) hk1
    | cons e' l1' =>
      obtain ⟨rfl, heq'⟩ := cons.inj heq
      rw [map_cons, mem_cons, not_or] at hk1
      obtain ⟨rfl, hv⟩ := ih hk1.2 heq'
      exact ⟨rfl, hv⟩

variable [Ord K] [TransOrd K]

/-- Visit the listed entries in order: `visit` gets the cursor, the key and the value, and returns
    the next cursor, the new value and the updates recorded. -/
def sweep (visit : S → K → V → S × V × List U) :
    List (K × V) → S → ExtTreeMap K V → List U → S × ExtTreeMap K V × List U
  | [], s, m, us => (s, m, us)
  | (k, v) :: l, s, m, us =>
    let r := visit s k v
    sweep visit l r.1 (m.insert k r.2.1) (us ++ r.2.2)

private theorem sweep_cons (k : K) (v : V) (l : List (K × V)) (s : S)
    (m : ExtTreeMap K V) (us : List U) :
    sweep visit ((k, v) :: l) s m us
      = sweep visit l (visit s k v).1 (m.insert k (visit s k v).2.1)
          (us ++ (visit s k v).2.2) := rfl

/-- Every recorded update comes from the visit of a listed entry. -/
theorem mem_sweep_updates (l : List (K × V)) (s : S) (m : ExtTreeMap K V) (us : List U) :
    u ∈ (sweep visit l s m us).2.2 ↔ u ∈ us ∨ ∃ l1 k v l2, l = l1 ++ (k, v) :: l2 ∧
      u ∈ (visit (cursorAfter visit l1 s) k v).2.2 := by
  induction l generalizing s m us with
  | nil =>
    constructor
    · exact .inl
    · rintro (h | ⟨l1, k, v, l2, h, -⟩)
      · exact h
      · exact absurd h (by simp)
  | cons e l ih =>
    obtain ⟨k, v⟩ := e
    rw [sweep_cons, ih, mem_append]
    constructor
    · rintro ((h | h) | ⟨l1, k', v', l2, rfl, h⟩)
      · exact .inl h
      · exact .inr ⟨[], k, v, l, rfl, h⟩
      · exact .inr ⟨(k, v) :: l1, k', v', l2, rfl, h⟩
    · rintro (h | ⟨l1, k', v', l2, heq, h⟩)
      · exact .inl (Or.inl h)
      cases l1 with
      | nil =>
        obtain ⟨he, -⟩ := cons.inj heq
        obtain ⟨rfl, rfl⟩ := Prod.mk.inj he
        exact .inl (Or.inr h)
      | cons e' l1 =>
        obtain ⟨rfl, rfl⟩ : (k, v) = e' ∧ l = l1 ++ (k', v') :: l2 :=
          cons.inj heq
        exact .inr ⟨l1, k', v', l2, rfl, h⟩

/-- When every visit records at most its own key, the recorded keys are a
    sublist of the visited ones. -/
theorem sweep_updates_sublist (key : U → K) (l : List (K × V)) (s : S) (m : ExtTreeMap K V)
    (us : List U) (ks : List K)
    (hvisit : ∀ s, ∀ e ∈ l, ((visit s e.1 e.2).2.2.map key).Sublist [e.1])
    (h : (us.map key).Sublist ks) :
    ((sweep visit l s m us).2.2.map key).Sublist (ks ++ l.map Prod.fst) := by
  induction l generalizing s m us ks with
  | nil =>
    rw [map_nil, append_nil]
    exact h
  | cons e l ih =>
    obtain ⟨k, v⟩ := e
    rw [sweep_cons, map_cons, append_cons]
    refine ih _ _ _ (ks ++ [k]) (fun s e he => hvisit s e (mem_cons_of_mem _ he)) ?_
    rw [map_append]
    exact h.append (hvisit s (k, v) (by simp))

theorem sweep_no_update {key : U → K}
    (hkey : ∀ s, ∀ e ∈ l, ∀ u ∈ (visit s e.1 e.2).2.2, key u = e.1) (hk : k ∉ l.map Prod.fst)
    (s : S) (m : ExtTreeMap K V) :
    ∀ u ∈ (sweep visit l s m []).2.2, key u ≠ k := by
  intro u hu heq
  rcases (mem_sweep_updates l s m []).mp hu with h | ⟨l1, k', v, l2, rfl, h⟩
  · nomatch h
  · rw [← heq, hkey _ (k', v) (by simp) u h] at hk
    exact hk (by simp)

/-! ### The cursor of an entry -/

/-- The cursor a sorted listing reaches a key with. -/
def cursorAt (visit : S → K → V → S × V × List U) (l : List (K × V)) (s : S) (k : K) : S :=
  cursorAfter visit (l.takeWhile (fun e => compare e.1 k == .lt)) s

theorem cursorAt_split (hs : (l1 ++ (k, v) :: l2).Pairwise (compare ·.1 ·.1 = .lt)) (s : S) :
    cursorAt visit (l1 ++ (k, v) :: l2) s k = cursorAfter visit l1 s := by
  have hlt : ∀ e ∈ l1, (compare e.1 k == .lt) = true := by
    intro e he
    rw [beq_iff_eq]
    exact (pairwise_append.mp hs).2.2 e he (k, v) (by simp)
  rw [cursorAt, takeWhile_append_of_pos hlt, takeWhile_cons_of_neg, append_nil]
  rw [beq_iff_eq, Std.ReflOrd.compare_self]
  nofun

/-- **WHERE A CURSOR COMES FROM**: the start of the pass, or the visit of the entry right before. -/
theorem cursorAt_cases (visit : S → K → V → S × V × List U)
    (hs : l.Pairwise (compare ·.1 ·.1 = .lt)) (hmem : (k, v) ∈ l) (s : S) :
    cursorAt visit l s k = s ∧ (∀ e ∈ l, compare e.1 k ≠ .lt)
      ∨ ∃ e ∈ l, compare e.1 k = .lt
        ∧ (∀ e' ∈ l, compare e'.1 k = .lt → e' = e ∨ compare e'.1 e.1 = .lt)
        ∧ cursorAt visit l s k = (visit (cursorAt visit l s e.1) e.1 e.2).1 := by
  obtain ⟨l1, l2, rfl⟩ := append_of_mem hmem
  have hlast := (pairwise_cons.mp (pairwise_append.mp hs).2.1).1
  -- what is before `k` is in the first part
  have hfirst : ∀ e ∈ l1 ++ (k, v) :: l2, compare e.1 k = .lt → e ∈ l1 := by
    intro e he hlt
    rcases mem_append.mp he with he | he
    · exact he
    · rcases mem_cons.mp he with rfl | he
      · rw [Std.ReflOrd.compare_self] at hlt
        nomatch hlt
      · rw [Std.OrientedOrd.eq_swap, hlast e he] at hlt
        nomatch hlt
  rw [cursorAt_split hs]
  rcases eq_nil_or_concat l1 with rfl | ⟨l0, e, rfl⟩
  · exact .inl ⟨rfl, fun e he hlt => nomatch hfirst e he hlt⟩
  rw [concat_eq_append] at hs hfirst ⊢
  have hsorted := pairwise_append.mp hs
  have he : e ∈ l0 ++ [e] := by simp
  refine .inr ⟨e, by simp, hsorted.2.2 e he (k, v) (by simp), ?_, ?_⟩
  · intro e' he' hlt
    rcases mem_append.mp (hfirst e' he' hlt) with h | h
    · exact .inr ((pairwise_append.mp hsorted.1).2.2 e' h e (by simp))
    · exact .inl (mem_singleton.mp h)
  · have hs' : (l0 ++ (e.1, e.2) :: (k, v) :: l2).Pairwise (compare ·.1 ·.1 = .lt) := by
      rw [append_assoc] at hs
      exact hs
    rw [cursorAfter_append, append_assoc]
    show cursorAfter visit [e] _ = (visit (cursorAt visit (l0 ++ (e.1, e.2) :: (k, v) :: l2) s e.1) _ _).1
    rw [cursorAt_split hs']
    rfl

/-- **INDUCTION OVER THE CURSORS** of a sorted listing: from the start of the pass
    and from each entry to the next one. -/
theorem cursorAt_induction (visit : S → K → V → S × V × List U) {P : K → S → Prop} :
    ∀ {l : List (K × V)}, l.Pairwise (compare ·.1 ·.1 = .lt) → (∀ e ∈ l, P e.1 s) →
      (∀ e ∈ l, ∀ e' ∈ l, compare e.1 e'.1 = .lt → P e.1 (cursorAt visit l s e.1) →
        P e'.1 (visit (cursorAt visit l s e.1) e.1 e.2).1) →
      ∀ e ∈ l, P e.1 (cursorAt visit l s e.1) := by
  intro l hs hinit hstep
  -- by the number of entries before
  have hall : ∀ (n : Nat) (l1 l2 : List (K × V)) (e : K × V), l1.length = n →
      l = l1 ++ e :: l2 → P e.1 (cursorAt visit l s e.1) := by
    intro n
    induction n with
    | zero =>
      intro l1 l2 e hlen heq
      rw [length_eq_zero_iff.mp hlen, nil_append] at heq
      subst heq
      have hc : cursorAt visit ([] ++ (e.1, e.2) :: l2) s e.1 = cursorAfter visit [] s :=
        cursorAt_split hs s
      exact hc ▸ hinit e (by simp)
    | succ n ih =>
      intro l1 l2 e hlen heq
      rcases eq_nil_or_concat l1 with rfl | ⟨l0, e0, rfl⟩
      · nomatch hlen
      rw [concat_eq_append] at heq hlen
      have heq0 : l = l0 ++ e0 :: (e :: l2) := by
        rw [heq, append_assoc]
        rfl
      have hmem0 : e0 ∈ l := heq0 ▸ by simp
      have hmem : e ∈ l := heq ▸ by simp
      have hs0 := heq0 ▸ hs
      have hlt : compare e0.1 e.1 = .lt :=
        (pairwise_cons.mp (pairwise_append.mp hs0).2.1).1 e (by simp)
      have hP := ih l0 (e :: l2) e0 (by simpa using hlen) heq0
      have hnext := hstep e0 hmem0 e hmem hlt hP
      have hc0 : cursorAt visit l s e0.1 = cursorAfter visit l0 s := by
        rw [heq0]
        exact cursorAt_split hs0 s
      have hc : cursorAt visit l s e.1 = cursorAfter visit (l0 ++ [e0]) s := by
        rw [heq]
        exact cursorAt_split (heq ▸ hs) s
      rw [hc, cursorAfter_append, ← hc0]
      exact hnext
  intro e he
  obtain ⟨l1, l2, heq⟩ := append_of_mem he
  exact hall _ l1 l2 e rfl heq

variable [LawfulEqOrd K] [DecidableEq K] {k : K} {l2 l : List (K × V)} {v : V}

theorem sweep_get_of_not_mem (l : List (K × V)) (s : S) (m : ExtTreeMap K V) (us : List U)
    (hk : k ∉ l.map Prod.fst) : (sweep visit l s m us).2.1[k]? = m[k]? := by
  induction l generalizing s m us with
  | nil => rfl
  | cons e l ih =>
    obtain ⟨k', v⟩ := e
    rw [map_cons, mem_cons, not_or] at hk
    rw [sweep_cons, ih _ _ _ hk.2, get_insert_ne (Ne.symm hk.1)]

/-- **THE VISITED VALUE**: a listed key is bound to what its own visit wrote,
    at the cursor its predecessors left. -/
theorem sweep_get (hk : k ∉ l2.map Prod.fst) (l1 : List (K × V)) (s : S) (m : ExtTreeMap K V)
    (us : List U) :
    (sweep visit (l1 ++ (k, v) :: l2) s m us).2.1[k]? =
      some (visit (cursorAfter visit l1 s) k v).2.1 := by
  induction l1 generalizing s m us with
  | nil =>
    rw [nil_append, sweep_cons, sweep_get_of_not_mem l2 _ _ _ hk, get_insert_self]
    rfl
  | cons e l ih =>
    obtain ⟨k', v'⟩ := e
    rw [cons_append, sweep_cons, ih]
    rfl

/-- **INDUCTION OVER A SWEEP**: each visit finds the value it was listed with. -/
theorem sweep_induction (visit : S → K → V → S × V × List U)
    {P : S → ExtTreeMap K V → List U → Prop}
    (hvisit : ∀ s m us k v, m[k]? = some v → P s m us →
      P (visit s k v).1 (m.insert k (visit s k v).2.1) (us ++ (visit s k v).2.2))
    (l : List (K × V)) (s : S) (m : ExtTreeMap K V) (us : List U) (hnd : (l.map Prod.fst).Nodup)
    (hl : ∀ e ∈ l, m[e.1]? = some e.2) (h : P s m us) :
    P (sweep visit l s m us).1 (sweep visit l s m us).2.1 (sweep visit l s m us).2.2 := by
  induction l generalizing s m us with
  | nil => exact h
  | cons e l ih =>
    obtain ⟨k, v⟩ := e
    obtain ⟨hk, hnd'⟩ := nodup_cons.mp hnd
    refine ih _ _ _ hnd' ?_ (hvisit s m us k v (hl (k, v) (by simp)) h)
    intro e he
    have hne : k ≠ e.1 := fun heq => hk (mem_map.mpr ⟨e, he, heq.symm⟩)
    rw [get_insert_ne hne]
    exact hl e (mem_cons_of_mem _ he)

/-- An unbound key stays unbound when only bound entries are listed. -/
theorem sweep_get_eq_none (hl : ∀ e ∈ l, m[e.1]? = some e.2) (hk : m[k]? = none) (s : S)
    (us : List U) : (sweep visit l s m us).2.1[k]? = none := by
  rw [sweep_get_of_not_mem l s m us ?_, hk]
  intro hmem
  obtain ⟨e, he, rfl⟩ := mem_map.mp hmem
  rw [hl e he] at hk
  nomatch hk

/-- **ONE VISIT PER KEY**: at its cursor it gives the new value and all updates recorded for the
    key. -/
theorem sweep_at {key : U → K} (hkey : ∀ s, ∀ e ∈ l, ∀ u ∈ (visit s e.1 e.2).2.2, key u = e.1)
    (hs : l.Pairwise (compare ·.1 ·.1 = .lt)) (hmem : (k, v) ∈ l) (s : S)
    (m : ExtTreeMap K V) :
    (sweep visit l s m []).2.1[k]? = some (visit (cursorAt visit l s k) k v).2.1
      ∧ ∀ u, key u = k →
        (u ∈ (sweep visit l s m []).2.2 ↔ u ∈ (visit (cursorAt visit l s k) k v).2.2) := by
  obtain ⟨l1, l2, rfl⟩ := append_of_mem hmem
  rw [cursorAt_split hs]
  have hnd : ((l1 ++ (k, v) :: l2).map Prod.fst).Nodup := by
    rw [nodup_iff_pairwise_ne, pairwise_map]
    refine hs.imp fun hlt heq => ?_
    rw [heq, Std.ReflOrd.compare_self] at hlt
    nomatch hlt
  rw [map_append, map_cons] at hnd
  obtain ⟨-, hnd2, hdisj⟩ := nodup_append.mp hnd
  obtain ⟨hk2, hnd2⟩ := nodup_cons.mp hnd2
  have hk1 : k ∉ l1.map Prod.fst := fun h => hdisj k h k (by simp) rfl
  refine ⟨sweep_get hk2 l1 s m [], fun u hu => ?_⟩
  rw [mem_sweep_updates]
  constructor
  · rintro (h | ⟨l1', k', v', l2', heq, h⟩)
    · nomatch h
    · -- the update names its key, and the key is listed only once
      have hk' : k' = k := (hkey _ (k', v') (heq ▸ by simp) u h).symm.trans hu
      subst hk'
      obtain ⟨rfl, rfl⟩ := split_unique hk2 hk1 heq
      exact h
  · intro h
    exact .inr ⟨l1, k, v, l2, rfl, h⟩

end

/-! ## Passes that drop the rest of a group -/

variable {E G : Type} [LinearOrder G]

/-- What stays and what goes: a failing element takes the rest of its group with it (`dropping`). -/
def retain (grp : E → G) (ok : E → Bool) : Option G → List E → List E × List E
  | _, [] => ([], [])
  | dropping, e :: l =>
    if dropping = some (grp e) ∨ ok e = false then
      let r := retain grp ok (some (grp e)) l
      (r.1, e :: r.2)
    else
      let r := retain grp ok none l
      (e :: r.1, r.2)

variable (grp : E → G) (ok : E → Bool)

theorem retain_perm : ∀ l dropping,
    ((retain grp ok dropping l).1 ++ (retain grp ok dropping l).2).Perm l := by
  intro l
  induction l with
  | nil => intro _; exact Perm.refl _
  | cons e l ih =>
    intro dropping
    rw [retain]
    by_cases h : dropping = some (grp e) ∨ ok e = false
    · rw [if_pos h]
      exact perm_middle.trans ((ih _).cons e)
    · rw [if_neg h]
      exact (ih _).cons e

theorem retain_sublist : ∀ l dropping,
    (retain grp ok dropping l).1.Sublist l ∧ (retain grp ok dropping l).2.Sublist l := by
  intro l
  induction l with
  | nil => intro _; exact ⟨Sublist.refl _, Sublist.refl _⟩
  | cons e l ih =>
    intro dropping
    rw [retain]
    by_cases h : dropping = some (grp e) ∨ ok e = false
    · rw [if_pos h]
      exact ⟨(ih _).1.cons e, (ih _).2.cons_cons e⟩
    · rw [if_neg h]
      exact ⟨(ih _).1.cons_cons e, (ih _).2.cons e⟩

variable {grp ok}

/-- **WHAT STAYS**: an element stays exactly when it and all earlier elements of its group pass. -/
theorem mem_retain_of (hirr : ∀ a b, r a b → ¬ r b a) (l : List E) (dropping : Option G)
    (hr : l.Pairwise r) (hg : l.Pairwise (grp · ≤ grp ·))
    (hd : ∀ g, dropping = some g → ∀ d ∈ l, g ≤ grp d) :
    (e ∈ (retain grp ok dropping l).1 ↔ e ∈ l ∧ ok e = true ∧ dropping ≠ some (grp e) ∧ ∀ d ∈ l,
      grp d = grp e → r d e → ok d = true) := by
  induction l generalizing dropping with
  | nil => simp [retain]
  | cons x l ih =>
    obtain ⟨hx, hr'⟩ := pairwise_cons.mp hr
    obtain ⟨hgx, hg'⟩ := pairwise_cons.mp hg
    -- an earlier group cannot come back after `x`
    have hback : ∀ d ∈ l, dropping = some (grp d) → grp x = grp d := by
      intro d hdl hdrop
      exact le_antisymm (hgx d hdl) (hd _ hdrop x (by simp))
    rw [retain]
    by_cases h : dropping = some (grp x) ∨ ok x = false
    · rw [if_pos h, ih (some (grp x)) hr' hg'
        (fun g hsome d hdl => Option.some.inj hsome ▸ hgx d hdl)]
      constructor
      · rintro ⟨hel, hok, hne, hall⟩
        refine ⟨mem_cons_of_mem _ hel, hok, ?_, ?_⟩
        · intro hdrop
          exact hne (by rw [hback e hel hdrop])
        · intro d hdl hgd hrd
          rcases mem_cons.mp hdl with rfl | hdl'
          · exact absurd (by rw [hgd]) hne
          · exact hall d hdl' hgd hrd
      · rintro ⟨hel, hok, hne, hall⟩
        have hxe : grp x ≠ grp e := by
          intro heq
          rcases h with h | h
          · exact hne (by rw [h, heq])
          · rcases mem_cons.mp hel with rfl | hel'
            · rw [hok] at h; nomatch h
            · rw [hall x (by simp) heq (hx e hel')] at h; nomatch h
        rcases mem_cons.mp hel with rfl | hel'
        · exact absurd rfl hxe
        · exact ⟨hel', hok, fun hsome => hxe (Option.some.inj hsome),
            fun d hdl => hall d (mem_cons_of_mem _ hdl)⟩
    · rw [if_neg h]
      obtain ⟨hnd, hokx⟩ := not_or.mp h
      have hokx' : ok x = true := by
        cases hv : ok x with
        | true => rfl
        | false => exact absurd hv hokx
      rw [mem_cons, ih none hr' hg' fun g hsome => nomatch hsome]
      constructor
      · rintro (rfl | ⟨hel, hok, -, hall⟩)
        · refine ⟨by simp, hokx', hnd, ?_⟩
          intro d hdl _ hrd
          rcases mem_cons.mp hdl with rfl | hdl'
          · exact hokx'
          · exact absurd hrd (hirr _ _ (hx d hdl'))
        · refine ⟨mem_cons_of_mem _ hel, hok, ?_, ?_⟩
          · intro hdrop
            exact hnd (by rw [hback e hel hdrop, hdrop])
          · intro d hdl hgd hrd
            rcases mem_cons.mp hdl with rfl | hdl'
            · exact hokx'
            · exact hall d hdl' hgd hrd
      · rintro ⟨hel, hok, -, hall⟩
        rcases mem_cons.mp hel with rfl | hel'
        · exact .inl rfl
        · refine .inr ⟨hel', hok, ?_, ?_⟩
          · intro hsome; nomatch hsome
          · exact fun d hdl => hall d (mem_cons_of_mem _ hdl)

theorem mem_retain_snd (hnd : l.Nodup) (dropping : Option G) :
    e ∈ (retain grp ok dropping l).2 ↔ e ∈ l ∧ e ∉ (retain grp ok dropping l).1 := by
  have hperm := retain_perm grp ok l dropping
  have hdisj := disjoint_of_nodup_append (hperm.nodup_iff.mpr hnd)
  rw [← hperm.mem_iff, mem_append]
  constructor
  · intro h
    exact ⟨Or.inr h, fun h' => hdisj h' h⟩
  · rintro ⟨h | h, hno⟩
    · exact absurd h hno
    · exact h

end OrderedMap
