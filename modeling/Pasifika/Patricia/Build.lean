import Pasifika.Patricia.Tree

/-! # The Patricia tree of a map

`build` makes the tree of a list of entries, symbol by symbol: a single entry is a
leaf, and entries with more than one first symbol are a branch of their groups.

  * `good_unique` — compressed trees that bind the same paths to the same values are
    EQUAL, so that there is one tree for a map;
  * `eq_build` — a compressed tree with the bindings of a map is the tree of the map. -/

namespace Patricia

open List

namespace Tree

variable {b : ℕ} {V : Type}

/-! ## Uniqueness -/

theorem Good.exists_binding {t : Tree b V} {n : ℕ} (h : t.Good n) :
    ∃ q value, t.lookup q = some value := by
  induction t generalizing n with
  | empty => exact absurd h id
  | leaf key value => exact ⟨key, value, if_pos rfl⟩
  | ext key child ih =>
    obtain ⟨_, _, m, _, hchild⟩ := h
    obtain ⟨q, value, hq⟩ := ih hchild
    exact ⟨key ++ q, value, (lookup_ext_append _ _ _).trans hq⟩
  | branch children ih =>
    obtain ⟨m, _, hchildren, i, _, _, hi, _⟩ := h
    obtain ⟨q, value, hq⟩ := ih i ((hchildren i).resolve_left hi)
    exact ⟨i :: q, value, hq⟩

variable {n : ℕ} {t child : Tree b V} {children : Fin b → Tree b V} {key q key' : List (Fin b)}
variable {value : V} {i : Fin b} {entries : List (List (Fin b) × V)}

theorem WF.eq_empty (h : t.WF n) (hnone : ∀ q, t.lookup q = none) : t = empty := by
  refine h.resolve_right fun hgood => ?_
  obtain ⟨q, value, hq⟩ := hgood.exists_binding
  exact nomatch (hnone q).symm.trans hq

/-- A branch binds paths with different first symbols. -/
theorem Good.branch_bindings (h : (branch children).Good n) :
    ∃ i j q q' value value', i ≠ j ∧ (branch children).lookup (i :: q) = some value ∧
      (branch children).lookup (j :: q') = some value' := by
  obtain ⟨m, _, hchildren, i, j, hij, hi, hj⟩ := h
  obtain ⟨q, value, hq⟩ := ((hchildren i).resolve_left hi).exists_binding
  obtain ⟨q', value', hq'⟩ := ((hchildren j).resolve_left hj).exists_binding
  exact ⟨i, j, q, q', value, value', hij, hq, hq'⟩

theorem Good.ext_bindings (h : (ext key child).Good n) :
    ∃ i j q q' value value', i ≠ j ∧ (ext key child).lookup (key ++ i :: q) = some value ∧
      (ext key child).lookup (key ++ j :: q') = some value' := by
  obtain ⟨_, hbranch, m, _, hchild⟩ := h
  cases child with
  | branch children =>
    obtain ⟨i, j, q, q', value, value', hij, hq, hq'⟩ := hchild.branch_bindings
    exact ⟨i, j, q, q', value, value', hij, (lookup_ext_append _ _ _).trans hq,
      (lookup_ext_append _ _ _).trans hq'⟩
  | _ => nomatch hbranch

theorem prefix_of_lookup_ext (h : (ext key child).lookup q = some value) : key <+: q := by
  by_contra hne
  exact nomatch (lookup_ext_none child hne).symm.trans h

theorem eq_of_lookup_leaf (h : (leaf key value).lookup q = some value') :
    q = key := by
  by_contra hne
  exact nomatch (if_neg hne).symm.trans h

/-- What two parting paths begin with is in what they share. -/
theorem prefix_of_parting (hij : i ≠ j) (h : key' <+: key ++ i :: q)
    (h' : key' <+: key ++ j :: q') : key' <+: key := by
  rcases prefix_or_prefix_of_prefix h (prefix_append _ _) with hle | ⟨rest, rfl⟩
  · exact hle
  · rw [prefix_append_right_inj] at h h'
    cases rest with
    | nil => rw [append_nil]
    | cons m rest =>
      rw [cons_prefix_cons] at h h'
      exact absurd (h.1.symm.trans h'.1) hij

theorem ext_key_le (h : (ext key child).Good n)
    (heq : ∀ q, (ext key child).lookup q = (ext key' child').lookup q) : key' <+: key := by
  obtain ⟨i, j, q, q', value, value', hij, hq, hq'⟩ := h.ext_bindings
  rw [heq] at hq hq'
  exact prefix_of_parting hij (prefix_of_lookup_ext hq) (prefix_of_lookup_ext hq')

/-- A leaf has one binding, unlike extensions and branches. -/
theorem leaf_ne_ext (h : (ext key' child).Good n)
    (heq : ∀ q, (ext key' child).lookup q = (leaf key value).lookup q) : False := by
  obtain ⟨i, j, q, q', _, _, hij, hq, hq'⟩ := h.ext_bindings
  rw [heq] at hq hq'
  have hkey := (eq_of_lookup_leaf hq).trans (eq_of_lookup_leaf hq').symm
  exact hij (cons.inj (append_cancel_left hkey)).1

theorem leaf_ne_branch (h : (branch children).Good n)
    (heq : ∀ q, (branch children).lookup q = (leaf key value).lookup q) : False := by
  obtain ⟨i, j, q, q', _, _, hij, hq, hq'⟩ := h.branch_bindings
  rw [heq] at hq hq'
  exact hij (cons.inj ((eq_of_lookup_leaf hq).trans (eq_of_lookup_leaf hq').symm)).1

/-- All bindings of an extension have the same first symbol, unlike those of a branch. -/
theorem ext_ne_branch (hkey : key ≠ []) (h : (branch children).Good n)
    (heq : ∀ q, (branch children).lookup q = (ext key child).lookup q) : False := by
  obtain ⟨i, j, q, q', _, _, hij, hq, hq'⟩ := h.branch_bindings
  rw [heq] at hq hq'
  have hle : key <+: [] :=
    prefix_of_parting hij (prefix_of_lookup_ext hq) (prefix_of_lookup_ext hq')
  exact hkey (prefix_nil.mp hle)

/-- **UNIQUENESS**: compressed trees with the same bindings are equal. -/
theorem good_unique (h : t.Good n) :
    t'.Good n → (∀ q, t.lookup q = t'.lookup q) → t = t' := by
  induction t generalizing t' n with
  | empty => exact absurd h id
  | leaf key value =>
    intro h' heq
    cases t' with
    | empty => exact absurd h' id
    | leaf key' value' =>
      have hkey := heq key
      rw [lookup_leaf, if_pos rfl] at hkey
      have hk : key = key' := eq_of_lookup_leaf hkey.symm
      subst hk
      rw [lookup_leaf, if_pos rfl] at hkey
      rw [Option.some.inj hkey]
    | ext key' child => exact absurd (fun q => (heq q).symm) (leaf_ne_ext h')
    | branch children => exact absurd (fun q => (heq q).symm) (leaf_ne_branch h')
  | ext key child ih =>
    intro h' heq
    cases t' with
    | empty => exact absurd h' id
    | leaf key' value => exact absurd heq (leaf_ne_ext h)
    | ext key' child' =>
      have hle := ext_key_le h' fun q => (heq q).symm
      have hk : key = key' :=
        hle.eq_of_length (hle.length_le.antisymm (ext_key_le h heq).length_le)
      subst hk
      obtain ⟨_, _, m, rfl, hchild⟩ := h
      obtain ⟨_, _, m', hm, hchild'⟩ := h'
      have hmm : m' = m := by omega
      subst hmm
      rw [ih hchild hchild' fun q => ?_]
      rw [← lookup_ext_append key q child, heq, lookup_ext_append]
    | branch children => exact absurd (fun q => (heq q).symm) (ext_ne_branch h.1 h')
  | branch children ih =>
    intro h' heq
    cases t' with
    | empty => exact absurd h' id
    | leaf key value => exact absurd heq (leaf_ne_branch h)
    | ext key child => exact absurd heq (ext_ne_branch h'.1 h)
    | branch children' =>
      obtain ⟨m, rfl, hchildren, _⟩ := h
      obtain ⟨m', hm, hchildren', _⟩ := h'
      have hmm : m' = m := by omega
      subst hmm
      have hlookup : ∀ i q, (children i).lookup q = (children' i).lookup q :=
        fun i q => heq (i :: q)
      refine congrArg branch (funext fun i => ?_)
      rcases hchildren i with hi | hi
      · rw [hi, WF.eq_empty (hchildren' i) fun q => by rw [← hlookup, hi]; rfl]
      · rcases hchildren' i with hi' | hi'
        · rw [hi', WF.eq_empty (.inr hi) fun q => by rw [hlookup, hi']; rfl]
        · exact ih i hi hi' (hlookup i)

theorem wf_unique (h : t.WF n) (h' : t'.WF n) (heq : ∀ q, t.lookup q = t'.lookup q) : t = t' := by
  rcases h with rfl | h
  · exact (WF.eq_empty h' fun q => (heq q).symm).symm
  · rcases h' with rfl | h'
    · exact WF.eq_empty (.inr h) heq
    · exact good_unique h h' heq

/-! ## The tree of a list of entries -/

/-- The rest of a path that begins with a symbol. -/
def rest (i : Fin b) (e : List (Fin b) × V) : Option (List (Fin b) × V) :=
  match e.1 with
  | [] => none
  | n :: path => if n = i then some (path, e.2) else none

/-- The entries that begin with a symbol, without it. -/
def group (i : Fin b) (entries : List (List (Fin b) × V)) : List (List (Fin b) × V) :=
  entries.filterMap (rest i)

/-- The first symbols of the entries. -/
def heads (entries : List (List (Fin b) × V)) : List (Fin b) :=
  (List.finRange b).filter (fun i => !(group i entries).isEmpty)

/-- The tree of entries with paths of length `n`. -/
def build : ℕ → List (List (Fin b) × V) → Tree b V
  | _, [] => empty
  | _, [e] => leaf e.1 e.2
  | 0, _ => empty
  | n + 1, entries =>
    match heads entries with
    | [i] => under [i] (build n (group i entries))
    | _ => branch (fun i => build n (group i entries))

theorem rest_eq_some : rest i e = some e' ↔ e = (i :: e'.1, e'.2) := by
  obtain ⟨path, value⟩ := e
  obtain ⟨path', value'⟩ := e'
  cases path with
  | nil => simp [rest]
  | cons n path =>
    by_cases hn : n = i
    · simp [rest, hn]
    · simp [rest, hn]

theorem mem_group :
    (path, value) ∈ group i entries ↔ (i :: path, value) ∈ entries := by
  rw [group, mem_filterMap]
  constructor
  · rintro ⟨e, he, heq⟩
    rwa [rest_eq_some.mp heq] at he
  · exact fun h => ⟨_, h, rest_eq_some.mpr rfl⟩

theorem nodup_group (i : Fin b) (h : (entries.map Prod.fst).Nodup) :
    ((group i entries).map Prod.fst).Nodup := by
  induction entries with
  | nil => exact nodup_nil
  | cons e entries ih =>
    rw [map_cons, nodup_cons] at h
    rw [group, filterMap_cons]
    cases he : rest i e with
    | none => exact ih h.2
    | some e' =>
      refine nodup_cons.mpr ⟨fun hmem => h.1 ?_, ih h.2⟩
      obtain ⟨⟨path, value⟩, hmem, hpath⟩ := mem_map.mp hmem
      rw [rest_eq_some.mp he, ← show path = e'.1 from hpath]
      exact mem_map.mpr ⟨_, mem_group.mp hmem, rfl⟩

theorem length_group (i : Fin b) (h : ∀ e ∈ entries, e.1.length = n + 1) :
    ∀ e ∈ group i entries, e.1.length = n := by
  rintro ⟨path, value⟩ he
  exact Nat.succ.inj (h _ (mem_group.mp he))

/-- A tree binds what a list of entries has. -/
def Binds (t : Tree b V) (entries : List (List (Fin b) × V)) : Prop :=
  ∀ q value, t.lookup q = some value ↔ (q, value) ∈ entries

theorem Binds.eq_empty_iff (h : t.WF n) (hbinds : t.Binds entries) : t = empty ↔ entries = [] := by
  constructor
  · rintro rfl
    refine eq_nil_iff_forall_not_mem.mpr fun e he => ?_
    exact nomatch (hbinds e.1 e.2).mpr he
  · rintro rfl
    refine h.eq_empty fun q => Option.eq_none_iff_forall_ne_some.mpr fun value hq => ?_
    exact nomatch (hbinds q value).mp hq

theorem build_eq_join (e e' : List (Fin b) × V) (entries : List (List (Fin b) × V))
    (he : e.1.length = n + 1)
    (hempty : ∀ i, build n (group i (e :: e' :: entries)) = empty ↔
      group i (e :: e' :: entries) = []) :
    build (n + 1) (e :: e' :: entries) =
      join (fun i => build n (group i (e :: e' :: entries))) := by
  have hpresent : present (fun i => build n (group i (e :: e' :: entries))) =
      heads (e :: e' :: entries) := by
    refine filter_congr fun i _ => congrArg _ (Bool.eq_iff_iff.mpr ?_)
    rw [isEmpty_iff, hempty, List.isEmpty_iff]
  rw [build, join, hpresent]
  case x_2 | x_3 => simp
  cases hheads : heads (e :: e' :: entries) with
  | cons i l => cases l <;> rfl
  | nil =>
    -- the first entry has a first symbol
    obtain ⟨path, value⟩ := e
    cases path with
    | nil => cases he
    | cons i path =>
      have hmem : (path, value) ∈ group i ((i :: path, value) :: e' :: entries) :=
        mem_group.mpr mem_cons_self
      have hi : i ∈ heads ((i :: path, value) :: e' :: entries) := by
        refine mem_filter.mpr ⟨mem_finRange i, ?_⟩
        rw [Bool.not_eq_true', isEmpty_eq_false_iff]
        exact ne_nil_of_mem hmem
      rw [hheads] at hi
      cases hi

/-- **THE TREE OF ENTRIES** is compressed, and binds the entries. -/
theorem build_spec (hlength : ∀ e ∈ entries, e.1.length = n)
    (hnodup : (entries.map Prod.fst).Nodup) :
    (build n entries).WF n ∧ (build n entries).Binds entries := by
  induction n generalizing entries with
  | zero =>
    match entries with
    | [] => exact ⟨.inl rfl, fun q value => by simp [build]⟩
    | [e] =>
      refine ⟨.inr (hlength e mem_cons_self), fun q value => ?_⟩
      simp [build, Prod.ext_iff, eq_comm]
    | e :: e' :: entries =>
      -- there is only one path of length zero
      have h := length_eq_zero_iff.mp (hlength e mem_cons_self)
      have h' := length_eq_zero_iff.mp (hlength e' (mem_cons_of_mem _ mem_cons_self))
      rw [map_cons, map_cons, h, h'] at hnodup
      exact absurd mem_cons_self (nodup_cons.mp hnodup).1
  | succ n ih =>
    match entries with
    | [] => exact ⟨.inl rfl, fun q value => by simp [build]⟩
    | [e] =>
      refine ⟨.inr (hlength e mem_cons_self), fun q value => ?_⟩
      simp [build, Prod.ext_iff, eq_comm]
    | e :: e' :: entries =>
      have hgroup := fun i => ih (length_group i hlength) (nodup_group i hnodup)
      rw [build_eq_join e e' entries (hlength e mem_cons_self)
        (fun i => (hgroup i).2.eq_empty_iff (hgroup i).1)]
      refine ⟨wf_join fun i => (hgroup i).1, fun q value => ?_⟩
      cases q with
      | nil =>
        rw [lookup_join_nil]
        constructor
        · nofun
        · exact fun h => nomatch hlength _ h
      | cons i q => rw [lookup_join_cons, (hgroup i).2, mem_group]

end Tree

end Patricia
