import Mathlib

/-! # Patricia trees

A map from paths to values as a tree: a LEAF holds the rest of a path and its value,
an EXTENSION a part that all paths below share, and a BRANCH one subtree for each next
symbol. Good trees are compressed: an extension leads to a branch, and a branch has at
least two subtrees.

  * `under` puts a path on top of a tree, and `join` makes a tree of subtrees; both
    compress what they build;
  * `insert` and `delete` change one binding and keep trees compressed;
  * `At` says which subtrees a tree has, and where. -/

namespace Patricia

open List Function Nat

/-- A tree over an alphabet with `b` symbols. -/
inductive Tree (b : ℕ) (V : Type) where
  | empty
  | leaf (key : List (Fin b)) (value : V)
  | ext (key : List (Fin b)) (child : Tree b V)
  | branch (children : Fin b → Tree b V)

namespace Tree

variable {b : ℕ} {V : Type}

def isEmpty : Tree b V → Bool
  | empty => true
  | _ => false

def isBranch : Tree b V → Bool
  | branch _ => true
  | _ => false

/-- The value at a path. -/
def lookup : Tree b V → List (Fin b) → Option V
  | empty, _ => none
  | leaf key value, path => if path = key then some value else none
  | ext key child, path => if key <+: path then child.lookup (path.drop key.length) else none
  | branch _, [] => none
  | branch children, n :: path => (children n).lookup path

/-- A compressed tree that binds paths of one length. -/
def Good : Tree b V → ℕ → Prop
  | empty, _ => False
  | leaf key _, n => key.length = n
  | ext key child, n =>
    key ≠ [] ∧ child.isBranch = true ∧ ∃ m, n = key.length + m ∧ child.Good m
  | branch children, n =>
    ∃ m, n = m + 1 ∧ (∀ i, children i = empty ∨ (children i).Good m) ∧
      ∃ i j, i ≠ j ∧ children i ≠ empty ∧ children j ≠ empty

/-- The empty tree is compressed, too. -/
def WF (t : Tree b V) (n : ℕ) : Prop := t = empty ∨ t.Good n

variable {t u : Tree b V} {n : ℕ} {key path : List (Fin b)} {i j : Fin b}
variable {children : Fin b → Tree b V}

theorem isEmpty_iff : t.isEmpty = true ↔ t = empty := by
  cases t <;> simp [isEmpty]

theorem Good.ne_empty (h : t.Good n) : t ≠ empty := by
  rintro rfl
  exact h

/-! ## Lookups -/

@[simp] theorem lookup_empty (path : List (Fin b)) : (empty : Tree b V).lookup path = none := rfl

@[simp] theorem lookup_leaf (key path : List (Fin b)) (value : V) :
    (leaf key value).lookup path = if path = key then some value else none := rfl

@[simp] theorem lookup_branch_cons (children : Fin b → Tree b V) (n : Fin b)
    (path : List (Fin b)) : (branch children).lookup (n :: path) = (children n).lookup path := rfl

@[simp] theorem lookup_branch_nil (children : Fin b → Tree b V) :
    (branch children).lookup [] = none := rfl

@[simp] theorem lookup_ext_append (key path : List (Fin b)) (child : Tree b V) :
    (ext key child).lookup (key ++ path) = child.lookup path := by
  rw [lookup, if_pos (prefix_append _ _), drop_left]

theorem lookup_ext_none (child : Tree b V) (h : ¬ key <+: path) :
    (ext key child).lookup path = none := by
  rw [lookup, if_neg h]

/-! ## Building compressed trees -/

/-- A tree with a path on top of it. -/
def under (key : List (Fin b)) : Tree b V → Tree b V
  | empty => empty
  | leaf key' value => leaf (key ++ key') value
  | ext key' child => ext (key ++ key') child
  | branch children => if key = [] then branch children else ext key (branch children)

/-- The subtrees that are not empty. -/
def present (children : Fin b → Tree b V) : List (Fin b) :=
  (List.finRange b).filter (fun i => !(children i).isEmpty)

/-- The tree of some subtrees: a single one has no branch above it. -/
def join (children : Fin b → Tree b V) : Tree b V :=
  match present children with
  | [] => empty
  | [i] => under [i] (children i)
  | _ => branch children

theorem mem_present : i ∈ present children ↔ children i ≠ empty := by
  rw [present, mem_filter, Bool.not_eq_true', ← Bool.not_eq_true, isEmpty_iff]
  simp

@[simp] theorem under_nil (t : Tree b V) : under [] t = t := by
  cases t <;> simp [under]

theorem under_isEmpty (key : List (Fin b)) (t : Tree b V) : under key t = empty ↔ t = empty := by
  cases t with
  | branch children =>
    by_cases h : key = []
    · simp [under, h]
    · simp [under, h]
  | _ => simp [under]

theorem under_of_isBranch (hkey : key ≠ []) (h : child.isBranch = true) :
    under key child = ext key child := by
  cases child with
  | branch children => rw [under, if_neg hkey]
  | _ => nomatch h

theorem under_append (key key' : List (Fin b)) (t : Tree b V) :
    under (key ++ key') t = under key (under key' t) := by
  cases t with
  | branch children =>
    by_cases h' : key' = []
    · subst h'
      simp [under]
    · simp [under, h']
  | _ => simp [under]

theorem lookup_under_append (key path : List (Fin b)) (t : Tree b V) :
    (under key t).lookup (key ++ path) = t.lookup path := by
  cases t with
  | empty => rfl
  | leaf key' value => simp [under]
  | ext key' child =>
    rw [under]
    by_cases h : key' <+: path
    · obtain ⟨rest, rfl⟩ := h
      rw [← append_assoc, lookup_ext_append, lookup_ext_append]
    · rw [lookup_ext_none child h, lookup_ext_none]
      rwa [prefix_append_right_inj]
  | branch children =>
    rw [under]
    split
    · next h => subst h; rfl
    · exact lookup_ext_append _ _ _

theorem lookup_under_none (t : Tree b V) (h : ¬ key <+: path) :
    (under key t).lookup path = none := by
  cases t with
  | empty => rfl
  | leaf key' value =>
    rw [under, lookup_leaf, if_neg]
    rintro rfl
    exact h (prefix_append _ _)
  | ext key' child =>
    refine lookup_ext_none child fun hpre => h ?_
    exact (prefix_append _ _).trans hpre
  | branch children =>
    rw [under]
    split
    · next hkey => subst hkey; exact absurd nil_prefix h
    · exact lookup_ext_none _ h

theorem good_under (key : List (Fin b)) (h : t.Good n) : (under key t).Good (key.length + n) := by
  cases t with
  | empty => exact absurd h id
  | leaf key' value =>
    show (key ++ key').length = _
    rw [length_append, show key'.length = n from h]
  | ext key' child =>
    obtain ⟨hne, hbranch, m, rfl, hchild⟩ := h
    refine ⟨by simp [hne], hbranch, m, ?_, hchild⟩
    rw [length_append, add_assoc]
  | branch children =>
    rw [under]
    split
    · next hkey => subst hkey; rw [length_nil, zero_add]; exact h
    · next hkey => exact ⟨hkey, rfl, n, rfl, h⟩

theorem lookup_join_cons (children : Fin b → Tree b V) (n : Fin b) (path : List (Fin b)) :
    (join children).lookup (n :: path) = (children n).lookup path := by
  rw [join]
  split
  · next h =>
    have hempty : children n = empty := by
      by_contra hne
      exact nomatch h ▸ mem_present.mpr hne
    rw [hempty]
    rfl
  · next i h =>
    by_cases hn : n = i
    · subst hn
      exact lookup_under_append [n] path (children n)
    · have hempty : children n = empty := by
        by_contra hne
        exact hn (mem_singleton.mp (h ▸ mem_present.mpr hne))
      rw [hempty, lookup_under_none]
      · rfl
      · rintro ⟨rest, hrest⟩
        exact hn (cons.inj hrest).1.symm
  · rfl

theorem lookup_join_nil (children : Fin b → Tree b V) : (join children).lookup [] = none := by
  rw [join]
  split
  · rfl
  · exact lookup_under_none _ (by simp)
  · rfl

theorem join_ne_empty (hi : children i ≠ empty) : join children ≠ empty := by
  rw [join]
  split
  · next h =>
    rw [← mem_present, h] at hi
    nomatch hi
  · next k h =>
    rw [Ne, under_isEmpty, ← Ne, ← mem_present, h]
    exact mem_singleton.mpr rfl
  · nofun

theorem wf_join (h : ∀ i, children i = empty ∨ (children i).Good m) :
    (join children).WF (m + 1) := by
  rw [join]
  split
  · exact .inl rfl
  · next i hi =>
    have hne : children i ≠ empty := by
      rw [← mem_present, hi]
      exact mem_singleton.mpr rfl
    have hgood := good_under [i] ((h i).resolve_left hne)
    rw [length_singleton, add_comm] at hgood
    exact .inr hgood
  · next hnil hsingle =>
    refine .inr ⟨m, rfl, h, ?_⟩
    match hp : present children, hnil, hsingle with
    | [], hnil, _ => exact absurd rfl hnil
    | [i], _, hsingle => exact absurd rfl (hsingle i)
    | i :: j :: _, _, _ =>
      have hnd : (present children).Nodup := (nodup_finRange b).filter _
      rw [hp] at hnd
      refine ⟨i, j, ?_, ?_, ?_⟩
      · exact fun hij => (nodup_cons.mp hnd).1 (hij ▸ mem_cons_self)
      · exact mem_present.mp (hp ▸ mem_cons_self)
      · exact mem_present.mp (hp ▸ mem_cons_of_mem _ mem_cons_self)

/-! ## Two paths that part -/

/-- The length of what two paths share. -/
def commonLength : List (Fin b) → List (Fin b) → ℕ
  | n :: path, n' :: path' => if n = n' then commonLength path path' + 1 else 0
  | _, _ => 0

theorem commonLength_append (c path path' : List (Fin b)) (hij : i ≠ j) :
    commonLength (c ++ i :: path) (c ++ j :: path') = c.length := by
  induction c with
  | nil => exact if_neg hij
  | cons n c ih =>
    show (if n = n then commonLength (c ++ i :: path) (c ++ j :: path') + 1 else 0) = _
    rw [if_pos rfl, ih, length_cons]

/-- Paths of which none begins with the other share a part, and then differ. -/
theorem exists_part (h : ¬ path <+: path') (h' : ¬ path' <+: path) :
    ∃ c i r j r', path = c ++ i :: r ∧ path' = c ++ j :: r' ∧ i ≠ j := by
  induction path generalizing path' with
  | nil => exact absurd nil_prefix h
  | cons n path ih =>
    cases path' with
    | nil => exact absurd nil_prefix h'
    | cons n' path' =>
      by_cases hn : n = n'
      · subst hn
        rw [cons_prefix_cons] at h h'
        obtain ⟨c, i, r, j, r', rfl, rfl, hij⟩ :=
          ih (fun hp => h ⟨rfl, hp⟩) fun hp => h' ⟨rfl, hp⟩
        exact ⟨n :: c, i, r, j, r', rfl, rfl, hij⟩
      · exact ⟨[], n, path, n', path', rfl, rfl, hn⟩

/-- Two subtrees. -/
def pair (i : Fin b) (s : Tree b V) (j : Fin b) (t : Tree b V) : Fin b → Tree b V :=
  Function.update (Function.update (fun _ => empty) i s) j t

theorem pair_left (hij : i ≠ j) (s t : Tree b V) : pair i s j t i = s := by
  rw [pair, update_of_ne hij, update_self]

theorem pair_right (i j : Fin b) (s t : Tree b V) : pair i s j t j = t :=
  update_self _ _ _

theorem pair_other (hi : m ≠ i) (hj : m ≠ j) (s t : Tree b V) :
    pair i s j t m = empty := by
  rw [pair, update_of_ne hj, update_of_ne hi]

/-- A new leaf beside a tree that has a path on top of it, where the paths part. -/
def fork (key : List (Fin b)) (t : Tree b V) (path : List (Fin b)) (value : V) : Tree b V :=
  match key.drop (commonLength key path), path.drop (commonLength key path) with
  | i :: key', j :: path' =>
    under (key.take (commonLength key path))
      (branch (pair i (under key' t) j (leaf path' value)))
  | _, _ => empty

theorem fork_append (c r r' : List (Fin b)) (hij : i ≠ j) (t : Tree b V) (value : V) :
    fork (c ++ i :: r) t (c ++ j :: r') value =
      under c (branch (pair i (under r t) j (leaf r' value))) := by
  rw [fork, commonLength_append c r r' hij, drop_left, drop_left, take_left]

theorem lookup_fork (hkey : ¬ key <+: path) (hpath : ¬ path <+: key) (t : Tree b V) (value : V)
    (q : List (Fin b)) :
    (fork key t path value).lookup q =
      if q = path then some value else (under key t).lookup q := by
  obtain ⟨c, i, r, j, r', rfl, rfl, hij⟩ := exists_part hkey hpath
  rw [fork_append c r r' hij]
  by_cases hc : c <+: q
  · obtain ⟨q, rfl⟩ := hc
    rw [lookup_under_append, under_append, lookup_under_append]
    simp only [append_cancel_left_eq]
    cases q with
    | nil =>
      rw [lookup_branch_nil, if_neg (by simp), lookup_under_none _ (by simp)]
    | cons m q =>
      rw [lookup_branch_cons, show i :: r = [i] ++ r from rfl, under_append]
      by_cases hj : m = j
      · subst hj
        rw [pair_right, lookup_leaf, lookup_under_none]
        · simp
        · rintro ⟨rest, hrest⟩
          exact hij (cons.inj hrest).1
      · rw [if_neg fun h => hj (cons.inj h).1]
        by_cases hi : m = i
        · subst hi
          rw [pair_left hij]
          exact (lookup_under_append [m] q _).symm
        · rw [pair_other hi hj, lookup_empty, lookup_under_none]
          rintro ⟨rest, hrest⟩
          exact hi (cons.inj hrest).1.symm
  · rw [lookup_under_none _ hc, if_neg, lookup_under_none]
    · exact fun h => hc ((prefix_append _ _).trans h)
    · rintro rfl
      exact hc (prefix_append _ _)

theorem good_fork (hkey : ¬ key <+: path) (hpath : ¬ path <+: key) (ht : t.Good m) (value : V)
    (hlength : path.length = key.length + m) :
    (fork key t path value).Good path.length := by
  obtain ⟨c, i, r, j, r', rfl, rfl, hij⟩ := exists_part hkey hpath
  rw [fork_append c r r' hij]
  rw [length_append, length_append, length_cons, length_cons] at hlength
  rw [length_append]
  refine good_under c ⟨r'.length, rfl, ?_, i, j, hij, ?_, ?_⟩
  · intro n
    by_cases hj : n = j
    · subst hj
      rw [pair_right]
      exact .inr rfl
    · by_cases hi : n = i
      · subst hi
        rw [pair_left hij, show r'.length = r.length + m by omega]
        exact .inr (good_under r ht)
      · exact .inl (pair_other hi hj _ _)
  · rw [pair_left hij, Ne, under_isEmpty]
    exact ht.ne_empty
  · rw [pair_right]
    nofun

/-! ## Changing one binding -/

/-- Bind a path. -/
def insert : Tree b V → List (Fin b) → V → Tree b V
  | empty, path, value => leaf path value
  | leaf key value', path, value =>
    if path = key then leaf path value else fork key (leaf [] value') path value
  | ext key child, path, value =>
    if key <+: path then ext key (child.insert (path.drop key.length) value)
    else fork key child path value
  | branch children, [], _ => branch children
  | branch children, n :: path, value =>
    branch (Function.update children n ((children n).insert path value))

/-- Remove the binding of a path. -/
def delete : Tree b V → List (Fin b) → Tree b V
  | empty, _ => empty
  | leaf key value, path => if path = key then empty else leaf key value
  | ext key child, path =>
    if key <+: path then under key (child.delete (path.drop key.length)) else ext key child
  | branch children, [] => branch children
  | branch children, n :: path => join (Function.update children n ((children n).delete path))

theorem not_prefix_of_length (hlength : path.length = key.length) (hne : path ≠ key) :
    ¬ key <+: path ∧ ¬ path <+: key :=
  ⟨fun h => hne (h.eq_of_length hlength.symm).symm, fun h => hne (h.eq_of_length hlength)⟩

theorem not_prefix_of_longer (hlength : key.length ≤ path.length) (h : ¬ key <+: path) :
    ¬ path <+: key := by
  intro hle
  exact h (hle.eq_of_length (hle.length_le.antisymm hlength) ▸ prefix_rfl)

/-- **INSERTING** keeps a tree good, and changes one binding. -/
theorem insert_spec (value : V) (h : t.WF n) (hlength : path.length = n) :
    (t.insert path value).Good n ∧
      ∀ q, (t.insert path value).lookup q = if q = path then some value else t.lookup q := by
  induction t generalizing n path with
  | empty => exact ⟨hlength, fun q => rfl⟩
  | leaf key value' =>
    have hkey : key.length = n := h.resolve_left nofun
    rw [insert]
    split
    · next heq =>
      subst heq
      refine ⟨hlength, fun q => ?_⟩
      by_cases hq : q = path
      · simp [hq]
      · simp [hq]
    · next hne =>
      obtain ⟨hp, hp'⟩ := not_prefix_of_length (hlength.trans hkey.symm) hne
      have hold : under key (leaf [] value') = leaf key value' := by simp [under]
      refine ⟨?_, fun q => ?_⟩
      · rw [← hlength]
        exact good_fork hp hp' (t := leaf [] value') (m := 0) rfl value (hlength.trans hkey.symm)
      · rw [lookup_fork hp hp', hold]
  | ext key child ih =>
    obtain ⟨hne, hbranch, m, rfl, hchild⟩ := h.resolve_left nofun
    rw [insert]
    split
    · next hp =>
      obtain ⟨rest, rfl⟩ := hp
      rw [drop_left]
      rw [length_append] at hlength
      have hrest : rest.length = m := by omega
      obtain ⟨hgood, hlookup⟩ := ih (.inr hchild) hrest
      refine ⟨⟨hne, ?_, m, rfl, hgood⟩, fun q => ?_⟩
      · cases child with
        | branch children => cases rest <;> rfl
        | _ => nomatch hbranch
      · by_cases hq : key <+: q
        · obtain ⟨q, rfl⟩ := hq
          simp [hlookup]
        · rw [lookup_ext_none _ hq, lookup_ext_none _ hq, if_neg]
          rintro rfl
          exact hq (prefix_append _ _)
    · next hp =>
      have hp' := not_prefix_of_longer (by omega) hp
      have hold := under_of_isBranch hne hbranch
      refine ⟨?_, fun q => ?_⟩
      · rw [← hlength]
        exact good_fork hp hp' hchild value hlength
      · rw [lookup_fork hp hp', hold]
  | branch children ih =>
    obtain ⟨m, rfl, hchildren, i, j, hij, hi, hj⟩ := h.resolve_left nofun
    cases path with
    | nil => nomatch hlength
    | cons k path =>
      obtain ⟨hgood, hlookup⟩ := ih k (hchildren k) (succ.inj hlength)
      have hne : ∀ i, children i ≠ empty →
          update children k ((children k).insert path value) i ≠ empty := by
        intro i hi
        by_cases hik : i = k
        · subst hik
          rw [update_self]
          exact hgood.ne_empty
        · rwa [update_of_ne hik]
      refine ⟨⟨m, rfl, fun i => ?_, i, j, hij, hne i hi, hne j hj⟩, fun q => ?_⟩
      · by_cases hik : i = k
        · subst hik
          rw [update_self]
          exact .inr hgood
        · rw [update_of_ne hik]
          exact hchildren i
      · cases q with
        | nil => simp [insert]
        | cons i q =>
          rw [insert, lookup_branch_cons, lookup_branch_cons]
          by_cases hik : i = k
          · subst hik
            rw [update_self, hlookup]
            simp
          · rw [update_of_ne hik, if_neg]
            exact fun h => hik (cons.inj h).1

/-- **DELETING** keeps a tree compressed, and removes one binding. -/
theorem delete_spec (h : t.WF n) (hlength : path.length = n) :
    (t.delete path).WF n ∧ ∀ q, (t.delete path).lookup q = if q =
      path then none else t.lookup q := by
  induction t generalizing n path with
  | empty => exact ⟨.inl rfl, fun q => by simp [delete]⟩
  | leaf key value =>
    rw [delete]
    split
    · next heq => exact ⟨.inl rfl, fun q => by simp [heq]⟩
    · next hne =>
      refine ⟨h, fun q => ?_⟩
      by_cases hq : q = path
      · simp [hq, hne]
      · simp [hq]
  | ext key child ih =>
    obtain ⟨hne, hbranch, m, rfl, hchild⟩ := h.resolve_left nofun
    rw [delete]
    split
    · next hp =>
      obtain ⟨rest, rfl⟩ := hp
      rw [length_append] at hlength
      rw [drop_left]
      have hrest : rest.length = m := by omega
      obtain ⟨hwf, hlookup⟩ := ih (.inr hchild) hrest
      refine ⟨hwf.imp (fun hnil => by rw [hnil]; rfl) (good_under key), fun q => ?_⟩
      by_cases hq : key <+: q
      · obtain ⟨q, rfl⟩ := hq
        rw [lookup_under_append, lookup_ext_append, hlookup]
        simp only [append_cancel_left_eq]
      · rw [lookup_under_none _ hq, lookup_ext_none _ hq, ite_self]
    · next hp =>
      refine ⟨h, fun q => ?_⟩
      by_cases hq : q = path
      · rw [if_pos hq, hq, lookup_ext_none _ hp]
      · rw [if_neg hq]
  | branch children ih =>
    obtain ⟨m, rfl, hchildren, i, j, hij, hi, hj⟩ := h.resolve_left nofun
    cases path with
    | nil => nomatch hlength
    | cons k path =>
      obtain ⟨hwf, hlookup⟩ := ih k (hchildren k) (succ.inj hlength)
      refine ⟨wf_join fun i => ?_, fun q => ?_⟩
      · by_cases hik : i = k
        · subst hik
          rw [update_self]
          exact hwf
        · rw [update_of_ne hik]
          exact hchildren i
      · cases q with
        | nil => rw [delete, lookup_join_nil, lookup_branch_nil, ite_self]
        | cons i q =>
          rw [delete, lookup_join_cons, lookup_branch_cons]
          by_cases hik : i = k
          · subst hik
            rw [update_self, hlookup]
            simp
          · rw [update_of_ne hik, if_neg]
            exact fun h => hik (cons.inj h).1

theorem delete_branch_ne_empty (h : (branch children).Good n) (path : List (Fin b)) :
    (branch children).delete path ≠ empty := by
  obtain ⟨m, rfl, _, i, j, hij, hi, hj⟩ := h
  cases path with
  | nil => nofun
  | cons k path =>
    rw [delete]
    -- one of the two children is not the one that changes
    by_cases hik : i = k
    · have hjk : j ≠ k := fun h => hij (hik.trans h.symm)
      refine join_ne_empty (i := j) ?_
      rwa [update_of_ne hjk]
    · refine join_ne_empty (i := i) ?_
      rwa [update_of_ne hik]

theorem delete_ext_ne_empty (h : (ext key child).Good n) (path : List (Fin b)) :
    (ext key child).delete path ≠ empty := by
  obtain ⟨_, hbranch, m, rfl, hchild⟩ := h
  cases child with
  | branch children =>
    rw [delete]
    split
    · rw [Ne, under_isEmpty]
      exact delete_branch_ne_empty hchild _
    · nofun
  | _ => nomatch hbranch

/-! ## Subtrees -/

/-- `t.At path u`: the subtree `u` is the node of `t` at a path. -/
inductive At : Tree b V → List (Fin b) → Tree b V → Prop
  | here (t : Tree b V) : At t [] t
  | ext {key path : List (Fin b)} {child u : Tree b V} :
      At child path u → At (ext key child) (key ++ path) u
  | branch {children : Fin b → Tree b V} {i : Fin b} {path : List (Fin b)} {u : Tree b V} :
      children i ≠ empty → At (children i) path u → At (branch children) (i :: path) u

theorem At.trans (h : t.At path u) (h' : u.At path' v) : t.At (path ++ path') v := by
  induction h with
  | here t => exact h'
  | ext _ ih => rw [append_assoc]; exact .ext (ih h')
  | branch hne _ ih => exact .branch hne (ih h')

theorem At.good (h : t.At path u) : ∀ {n}, t.Good n → ∃ m, u.Good m := by
  induction h with
  | here t => exact fun hgood => ⟨_, hgood⟩
  | ext _ ih =>
    intro n hgood
    obtain ⟨_, _, m, _, hchild⟩ := hgood
    exact ih hchild
  | branch hne _ ih =>
    intro n hgood
    obtain ⟨m, _, hchildren, _⟩ := hgood
    exact ih ((hchildren _).resolve_left hne)

/-- The subtree at a path. -/
def subtree : Tree b V → List (Fin b) → Option (Tree b V)
  | empty, path => if path = [] then some empty else none
  | leaf key value, path => if path = [] then some (leaf key value) else none
  | ext key child, path =>
    if path = [] then some (ext key child)
    else if key <+: path then child.subtree (path.drop key.length) else none
  | branch children, [] => some (branch children)
  | branch children, n :: path => (children n).subtree path

theorem At.subtree_eq (h : t.At path u) : ∀ {n}, t.Good n → t.subtree path = some u := by
  induction h with
  | here t => intro n _; cases t <;> simp [subtree]
  | ext _ ih =>
    intro n hgood
    obtain ⟨hkey, _, m, _, hchild⟩ := hgood
    rw [subtree, if_neg (by simp [hkey]), if_pos (prefix_append _ _), drop_left]
    exact ih hchild
  | branch hne _ ih =>
    intro n hgood
    obtain ⟨m, _, hchildren, _⟩ := hgood
    exact ih ((hchildren _).resolve_left hne)

/-! ## Branches -/

/-- The children of the branch at a path. -/
def branchAt : Tree b V → List (Fin b) → Option (Fin b → Tree b V)
  | empty, _ => none
  | leaf _ _, _ => none
  | ext key child, path => if key <+: path then child.branchAt (path.drop key.length) else none
  | branch children, [] => some children
  | branch children, n :: path => (children n).branchAt path

@[simp] theorem branchAt_ext_append (key path : List (Fin b)) (child : Tree b V) :
    (ext key child).branchAt (key ++ path) = child.branchAt path := by
  rw [branchAt, if_pos (prefix_append _ _), drop_left]

theorem branchAt_ext_none (child : Tree b V) (h : ¬ key <+: path) :
    (ext key child).branchAt path = none := by
  rw [branchAt, if_neg h]

theorem branchAt_under_append (key path : List (Fin b)) (t : Tree b V) :
    (under key t).branchAt (key ++ path) = t.branchAt path := by
  cases t with
  | empty | leaf key' value => rfl
  | ext key' child =>
    rw [under]
    by_cases h : key' <+: path
    · obtain ⟨rest, rfl⟩ := h
      rw [← append_assoc, branchAt_ext_append, branchAt_ext_append]
    · rw [branchAt_ext_none child h, branchAt_ext_none]
      rwa [prefix_append_right_inj]
  | branch children =>
    rw [under]
    split
    · next h => subst h; rfl
    · exact branchAt_ext_append _ _ _

theorem branchAt_under_none (t : Tree b V) (h : ¬ key <+: path) :
    (under key t).branchAt path = none := by
  cases t with
  | empty | leaf key' value => rfl
  | ext key' child =>
    exact branchAt_ext_none child fun hpre => h ((prefix_append _ _).trans hpre)
  | branch children =>
    rw [under]
    split
    · next hkey => subst hkey; exact absurd nil_prefix h
    · exact branchAt_ext_none _ h

theorem branchAt_join_cons (children : Fin b → Tree b V) (n : Fin b) (path : List (Fin b)) :
    (join children).branchAt (n :: path) = (children n).branchAt path := by
  rw [join]
  split
  · next h =>
    have hempty : children n = empty := by
      by_contra hne
      exact nomatch h ▸ mem_present.mpr hne
    rw [hempty]
    rfl
  · next i h =>
    by_cases hn : n = i
    · subst hn
      exact branchAt_under_append [n] path (children n)
    · have hempty : children n = empty := by
        by_contra hne
        exact hn (mem_singleton.mp (h ▸ mem_present.mpr hne))
      rw [hempty, branchAt_under_none]
      · rfl
      · rintro ⟨rest, hrest⟩
        exact hn (cons.inj hrest).1.symm
  · rfl

end Tree

end Patricia
