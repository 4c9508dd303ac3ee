import Pasifika.Trie.SparseInsert

/-! # Removing leaves

`remove_leaf` takes the nodes on the path of the key out of the trie, drops the leaf,
and puts the others back from the bottom up: a branch with one child left is merged
with the child, and an extension with what its child became. The trie then stands for
the tree with the key deleted.

  * `Taken` lists the nodes on the path, as they were taken;
  * `Cut` says what changed below a path, and that updates of branches that are no
    longer there were dropped. -/

namespace Trie

open Std OrderedMap Patricia List Option Function Tree Nibbles Outcome Codec Nat

namespace SerialSparseTrie

variable {V B H : Type} {c : Codec V B H} {w : Memory V H}
variable {changed : Nibbles → Bool} {s s' s₀ : SerialSparseTrie V H}
variable {binds : Nibbles → V → Prop} {fullPath : Nibbles}
  {value : V} {nodes : List (RemovedSparseNode H)} {t u : Tree 16 V} {path key q : Nibbles}
variable {fuel m : ℕ} {i j : Fin 16} {vis : Bool} {node : SparseNode H}
variable {children : Fin 16 → Tree 16 V} {store : Option Bool} {hash : Option H}
variable {child : RemovedSparseNode H} {path r : Nibbles}

/-- A value is stored where no hash is on the path of its key. -/
theorem Shows.value_of_open (hshows : Shows c w changed s true path t)
    (hlookup : t.lookup r = some value) :
    (∀ q hash, q <+: path ++ r → s.nodes[q]? ≠ some (.hash hash)) →
      s.values[path ++ r]? = some value := by
  induction t generalizing path r with
  | empty => cases hlookup
  | leaf key value' =>
    intro hopen
    obtain rfl := eq_of_lookup_leaf hlookup
    rcases hshows with (⟨⟨⟩, _⟩ | ⟨hash, hnode, _⟩) | ⟨_, _, hvalue, _⟩
    · exact absurd hnode (hopen path hash (prefix_append _ _))
    · rw [Tree.lookup, if_pos rfl] at hlookup
      exact hvalue.trans hlookup
  | ext key child ih =>
    intro hopen
    obtain ⟨r, rfl⟩ := prefix_of_lookup_ext hlookup
    rw [lookup_ext_append] at hlookup
    rw [← append_assoc] at hopen ⊢
    rcases hshows with ⟨⟨⟨⟩, _⟩ | ⟨hash, hnode, _⟩, _⟩ | ⟨_, _, _, _, hbelow⟩
    · exact absurd hnode (hopen path hash (by simp))
    · exact ih hbelow hlookup hopen
  | branch children ih =>
    intro hopen
    cases r with
    | nil => cases hlookup
    | cons i r =>
      have hi : children i ≠ .empty := by
        intro hempty
        rw [lookup_branch_cons, hempty] at hlookup
        cases hlookup
      rw [append_cons] at hopen ⊢
      rcases hshows with ⟨⟨⟨⟩, _⟩ | ⟨hash, hnode, _⟩, _⟩ | ⟨_, _, _, _, hbelow⟩
      · exact absurd hnode (hopen path hash (by simp))
      · exact ih i (hbelow i hi) hlookup hopen

/-! ## Taking the nodes on a path -/

/-- The nibble of the leaf that is removed, in the branch above it. -/
def leafNibble (i : Fin 16) : Tree 16 V → Option (Fin 16)
  | .leaf _ _ => some i
  | _ => none

/-- The nodes of a subtree on a path, the leaf first. -/
inductive Taken (s : SerialSparseTrie V H) (fullPath : Nibbles) :
    Nibbles → Tree 16 V → List (RemovedSparseNode H) → Prop
  | leaf {path key : Nibbles} {value : V} {hash : Option H} :
      Taken s fullPath path (.leaf key value) [⟨path, .leaf key hash, none⟩]
  | ext {path key : Nibbles} {child : Tree 16 V} {hash : Option H} {store : Option Bool}
      {nodes : List (RemovedSparseNode H)} :
      s.nodes[path]? = some (.extension key hash store) →
      Taken s fullPath (path ++ key) child nodes →
      Taken s fullPath path (.ext key child) (nodes ++ [⟨path, .extension key hash store, none⟩])
  | branch {path : Nibbles} {children : Fin 16 → Tree 16 V} {i : Fin 16} {hash : Option H}
      {store : Option Bool} {nodes : List (RemovedSparseNode H)} :
      s.nodes[path]? = some (.branch (Codec.stateMask children) hash store) →
      path ++ [i] <+: fullPath → Taken s fullPath (path ++ [i]) (children i) nodes →
      Taken s fullPath path (.branch children) (nodes ++
        [⟨path, .branch (Codec.stateMask children) hash store, leafNibble i (children i)⟩])

theorem Taken.ne_nil (h : Taken s fullPath path t nodes) : nodes ≠ [] := by
  cases h <;> simp

theorem Taken.two_le (h : Taken s fullPath path t nodes)
    (hleaf : ∀ key value, t ≠ .leaf key value) :
    2 ≤ nodes.length := by
  cases h with
  | leaf => exact absurd rfl (hleaf _ _)
  | ext _ h | branch _ _ h =>
    have hpos := length_pos_iff.mpr h.ne_nil
    rw [length_append]
    exact succ_le_succ hpos

/-- Only nodes on a path were removed. -/
structure TakenFrom (fullPath : Nibbles) (s s' : SerialSparseTrie V H) : Prop where
  nodes : ∀ q, ¬ q <+: fullPath → s'.nodes[q]? = s.nodes[q]?
  values : s'.values = s.values
  prefixSet : s'.prefixSet = s.prefixSet
  updates : s'.updates = s.updates

theorem TakenFrom.removeNode (h : TakenFrom fullPath (s.removeNode path) s')
    (hpath : path <+: fullPath) : TakenFrom fullPath s s' := by
  refine ⟨fun q hq => (h.nodes q hq).trans (get_erase_ne ?_), h.values, h.prefixSet, h.updates⟩
  rintro rfl
  exact hq hpath

theorem takeNodesForPath_hash {hash : H} {acc nodes : List (RemovedSparseNode H)}
    (hnode : s.nodes[path]? = some (.hash hash)) :
    takeNodesForPath fullPath fuel path s acc ≠ some (.ok nodes, s') := by
  cases fuel with
  | zero => nofun
  | succ fuel =>
    rw [takeNodesForPath, hnode]
    nofun

/-- The nibble that is unset is that of the leaf. -/
theorem unsetBranchNibble_eq (hpath : path ++ [i] ++ r = fullPath)
    (hlookup : t.lookup r = some value) (hshows : Shows c w changed s₀ true (path ++ [i]) t)
    (hhash : ∀ hash, s.nodes[path ++ [i]]? ≠ some (.hash hash))
    (hnodes : s.nodes[path ++ [i]]? = s₀.nodes[path ++ [i]]?) :
    unsetBranchNibble s.nodes path fullPath i = leafNibble i t := by
  rw [unsetBranchNibble]
  have hblinded : ∀ {u}, ¬ Blinded c w s₀ true (path ++ [i]) u := by
    rintro u (⟨⟨⟩, _⟩ | ⟨hash, hnode, _⟩)
    · exact hhash hash (hnodes.trans hnode)
  cases t with
  | empty => nomatch hlookup
  | leaf key value' =>
    rcases hshows with h | ⟨hash, hnode, _⟩
    · exact absurd h hblinded
    · rw [hnodes, hnode]
      dsimp only
      rw [if_pos (eq_of_lookup_leaf hlookup ▸ hpath)]
      rfl
  | ext key child | branch children =>
    rcases hshows with h | ⟨hash, store, hnode, _⟩
    · exact absurd h.1 hblinded
    · rw [hnodes, hnode]
      rfl

variable {n : ℕ} {s₁ s2 : SerialSparseTrie V H} {removed child : RemovedSparseNode H}

/-- **TAKING** the nodes on the path of a key that is bound. -/
theorem takeNodesForPath_spec (hshows : Shows c w changed s₀ true path t) (hgood : t.Good n)
    (hlookup : t.lookup r = some value) :
    path ++ r = fullPath → (∀ q, path <+: q → s.nodes[q]? = s₀.nodes[q]?) →
      takeNodesForPath fullPath fuel path s acc = some (.ok res, s') → ∃ nodes,
      Taken s₀ fullPath path t nodes ∧ res = nodes ++ acc ∧ TakenFrom fullPath s s' := by
  induction t generalizing n path r fuel s s' acc res with
  | empty => nomatch hlookup
  | leaf key value' =>
    intro hpath hnodes hrun
    cases fuel with
    | zero => nomatch hrun
    | succ fuel =>
      rw [takeNodesForPath, hnodes path prefix_rfl] at hrun
      rcases hshows with (⟨⟨⟩, _⟩ | ⟨hash, hnode, _⟩) | ⟨hash, hnode, _⟩
      · rw [hnode] at hrun
        nomatch hrun
      · rw [hnode] at hrun
        cases hrun
        refine ⟨_, .leaf, rfl, ?_⟩
        exact TakenFrom.removeNode ⟨fun _ _ => rfl, rfl, rfl, rfl⟩ (hpath ▸ prefix_append _ _)
  | ext key child ih =>
    intro hpath hnodes hrun
    cases fuel with
    | zero => nomatch hrun
    | succ fuel =>
      obtain ⟨hkey, _, m, _, hchild⟩ := hgood
      obtain ⟨r, rfl⟩ := prefix_of_lookup_ext hlookup
      rw [lookup_ext_append] at hlookup
      rw [takeNodesForPath, hnodes path prefix_rfl] at hrun
      rcases hshows with ⟨⟨⟨⟩, _⟩ | ⟨hash, hnode, _⟩, _⟩ | ⟨hash, store, hnode, _, hbelow⟩
      · rw [hnode] at hrun
        nomatch hrun
      rw [hnode] at hrun
      have hrest : ∀ q, path ++ key <+: q →
          (s.removeNode path).nodes[q]? = s₀.nodes[q]? := by
        intro q hq
        refine (get_erase_ne ?_).trans (hnodes q (extends_of_append hq))
        rintro rfl
        exact not_extends_of_ne_nil hkey hq
      obtain ⟨nodes, htaken, rfl, hfrom⟩ := ih hbelow hchild hlookup
        ((append_assoc path key r).trans hpath) hrest hrun
      exact ⟨_, .ext hnode htaken, append_cons _ _ _, hfrom.removeNode (hpath ▸ prefix_append _ _)⟩
  | branch children ih =>
    intro hpath hnodes hrun
    cases fuel with
    | zero => nomatch hrun
    | succ fuel =>
      obtain ⟨m, _, hchildren, _⟩ := hgood
      cases r with
      | nil => nomatch hlookup
      | cons i r =>
        have hi : children i ≠ .empty := by
          intro hempty
          rw [lookup_branch_cons, hempty] at hlookup
          nomatch hlookup
        rw [takeNodesForPath, hnodes path prefix_rfl] at hrun
        rcases hshows with
          ⟨⟨⟨⟩, _⟩ | ⟨hash, hnode, _⟩, _⟩ | ⟨hash, store, hnode, _, hbelow⟩
        · rw [hnode] at hrun
          nomatch hrun
        have hpath' : path ++ [i] ++ r = fullPath := by
          rw [append_assoc]
          exact hpath
        have hrest : ∀ q, path ++ [i] <+: q →
            (s.removeNode path).nodes[q]? = s₀.nodes[q]? := by
          intro q hq
          refine (get_erase_ne ?_).trans (hnodes q (extends_of_append hq))
          rintro rfl
          exact not_extends_of_ne_nil (cons_ne_nil _ _) hq
        rw [hnode, ← hpath, getElem?_part, hpath] at hrun
        obtain ⟨nodes, htaken, rfl, hfrom⟩ := ih i (hbelow i hi)
          ((hchildren i).resolve_left hi) hlookup hpath' hrest hrun
        rw [unsetBranchNibble_eq hpath' hlookup (hbelow i hi)
          (fun hash hh => takeNodesForPath_hash hh hrun) (hrest _ prefix_rfl)]
        exact ⟨_, .branch hnode (hpath' ▸ prefix_append _ _) htaken, append_cons _ _ _,
          hfrom.removeNode (hpath ▸ prefix_append _ _)⟩

/-! ## Putting nodes back -/

/-- What is not on the path of the key is as it was before the nodes were taken. -/
structure Ghost (fullPath path : Nibbles) (s₀ s : SerialSparseTrie V H) : Prop where
  nodes : ∀ q, path <+: q → ¬ q <+: fullPath → s.nodes[q]? = s₀.nodes[q]?
  values : ∀ q value, q ≠ fullPath → s₀.values[q]? = some value → s.values[q]? = some value
  entry : ∀ q, ¬ q <+: fullPath → s.entry q = s₀.entry q

theorem Ghost.below (h : Ghost fullPath path s₀ s) : Ghost fullPath (path ++ key) s₀ s :=
  ⟨fun q hq => h.nodes q (extends_of_append hq), h.values, h.entry⟩

theorem Ghost.shows (h : Ghost fullPath path s₀ s) (hq : path <+: q) (hnot : ¬ q <+: fullPath)
    (hshows : Shows c w changed s₀ vis q t) : Shows c w changed s vis q t := by
  have hbelow : ∀ q', q <+: q' → ¬ q' <+: fullPath := fun q' hq' hle => hnot (hq'.trans hle)
  refine hshows.congr (fun q' hq' => h.nodes q' (hq.trans hq') (hbelow q' hq')) ?_
    (fun q' hq' => h.entry q' (hbelow q' hq')) fun _ _ => id
  intro q' value hq' hvalue
  refine h.values q' value ?_ hvalue
  rintro rfl
  exact hbelow q' hq' prefix_rfl

/-- **A CUT** below a path: `t` became `t'`. -/
structure Cut (fullPath path : Nibbles) (binds : Nibbles → V → Prop) (t t' : Tree 16 V)
    (s s' : SerialSparseTrie V H) : Prop where
  nodes : ∀ q, ¬ path <+: q → s'.nodes[q]? = s.nodes[q]?
  values : ∀ q, s'.values[q]? = s.values[q]? ∨
    ∃ value, (path <+: q ∧ q ≠ fullPath) ∧ binds q value ∧ s'.values[q]? = some value
  prefixSet : s'.prefixSet = s.prefixSet
  entry : ∀ q, ¬ q <+: fullPath → s'.entry q = s.entry q
  kept : ∀ q, s'.entry q = none ∨ (s'.entry q = s.entry q ∧
    ∀ r, path ++ r = q → (t.branchAt r).isSome → (t'.branchAt r).isSome)
  updates : s'.updates.isSome = s.updates.isSome

theorem Cut.shows (h : Cut fullPath path binds t t' s s') (hq : ∀ q', q <+: q' → ¬ path <+: q')
    (hnot : ¬ q <+: fullPath) (hshows : Shows c w changed s vis q u) :
    Shows c w changed s' vis q u := by
  refine hshows.congr (fun q' hq' => h.nodes q' (hq q' hq')) ?_
    (fun q' hq' => h.entry q' fun hle => hnot (hq'.trans hle)) fun _ _ => id
  intro q' value hq' hvalue
  rcases h.values q' with heq | ⟨_, ⟨hle, _⟩, _⟩
  · exact heq.trans hvalue
  · exact absurd hle (hq q' hq')

theorem entry_dropUpdate (s : SerialSparseTrie V H) (path q : Nibbles) :
    (s.dropUpdate path).entry q = if path = q then none else s.entry q := by
  rw [entry, dropUpdate, entry]
  cases s.updates with
  | none => simp
  | some updates => exact get_erase _ _ _

/-- What collapsing a branch leaves behind. -/
structure Collapsed (path : Nibbles) (j : Fin 16) (binds : Nibbles → V → Prop)
    (s s' : SerialSparseTrie V H) : Prop where
  nodes : ∀ q, ¬ path <+: q → s'.nodes[q]? = s.nodes[q]?
  values : ∀ q, s'.values[q]? = s.values[q]? ∨
    ∃ value, path ++ [j] <+: q ∧ binds q value ∧ s'.values[q]? = some value
  prefixSet : s'.prefixSet = s.prefixSet
  entry : ∀ q, s'.entry q = if path = q then none else s.entry q
  updates : s'.updates.isSome = s.updates.isSome

theorem Collapsed.of_within (h : Within (fun q => path ++ [j] <+: q) binds s s₁)
    (h' : Within (fun q => q = path ++ [j]) (fun _ _ => False) s₁ s2) :
    Collapsed path j binds s (s2.dropUpdate path) := by
  refine ⟨fun q hq => ?_, fun q => ?_, h'.prefixSet.trans h.prefixSet, fun q => ?_, ?_⟩
  · refine (h'.nodes q ?_).trans (h.nodes q fun hle => hq (extends_of_append hle))
    rintro rfl
    exact hq (prefix_append _ _)
  · rcases h'.values q with heq | ⟨_, _, ⟨⟩, _⟩
    · rw [show (s2.dropUpdate path).values[q]? = s₁.values[q]? from heq]
      exact h.values q
  · rw [entry_dropUpdate, h'.entry, h.entry]
  · show (s2.updates.map _).isSome = _
    rw [isSome_map, h'.updates, h.updates]

/-- What is strictly below the child stays when the branch is replaced. -/
theorem Shows.of_collapsed (h : Within (fun q => q = path ++ [j]) (fun _ _ => False) s s2)
    (hq : path ++ [j] <+: q)
    (hnode : s2.nodes[path ++ [j]]? = s.nodes[path ++ [j]]? ∨ q ≠ path ++ [j])
    (hshows : Shows c w changed s vis q t) :
    Shows c w changed ((s2.dropUpdate path).insertNode path node) vis q t := by
  have hne : ∀ q', q <+: q' → path ≠ q' := by
    rintro q' hq' rfl
    exact not_extends_of_ne_nil (cons_ne_nil _ _) (hq.trans hq')
  refine hshows.congr (fun q' hq' => ?_) (fun q' value hq' hvalue => ?_) (fun q' hq' => ?_)
    (fun _ _ => id)
  · rw [nodes_insertNode_ne _ _ (hne q' hq')]
    by_cases hchild : q' = path ++ [j]
    · subst hchild
      rcases hnode with hnode | hnode
      · exact hnode
      · exact absurd (hq'.eq_of_length (hq'.length_le.antisymm hq.length_le)) hnode
    · exact h.nodes q' hchild
  · rcases h.values q' with heq | ⟨_, _, ⟨⟩, _⟩
    · exact heq.trans hvalue
  · show (s2.dropUpdate path).entry q' = _
    rw [entry_dropUpdate, if_neg (hne q' hq'), h.entry]

/-! ## Cuts, level by level -/

namespace Cut

theorem trans (h : Cut fullPath path binds t t' s s') (h' : Cut fullPath path binds t' t'' s' s'') :
    Cut fullPath path binds t t'' s s'' := by
  refine ⟨fun q hq => (h'.nodes q hq).trans (h.nodes q hq), fun q => ?_,
    h'.prefixSet.trans h.prefixSet, fun q hq => (h'.entry q hq).trans (h.entry q hq), fun q => ?_,
    h'.updates.trans h.updates⟩
  · rcases h'.values q with heq | hnew
    · rw [heq]
      exact h.values q
    · exact .inr hnew
  · rcases h'.kept q with hnone | ⟨heq', hbranch'⟩
    · exact .inl hnone
    · rcases h.kept q with hnone | ⟨heq, hbranch⟩
      · exact .inl (heq'.trans hnone)
      · exact .inr ⟨heq'.trans heq, fun r hr hb => hbranch' r hr (hbranch r hr hb)⟩

variable {i : Fin 16} {children : Fin 16 → Tree 16 V} {t t' : Tree 16 V}

theorem above {path key : Nibbles} {child t u u' : Tree 16 V}
    (h : Cut fullPath (path ++ key) binds child t s s')
    (hbranch : ∀ q, (∀ r, path ++ key ++ r = q → (child.branchAt r).isSome → (t.branchAt r).isSome) →
      ∀ r, path ++ r = q → (u.branchAt r).isSome → (u'.branchAt r).isSome) :
    Cut fullPath path binds u u' s s' := by
  refine ⟨fun q hq => h.nodes q fun hle => hq (extends_of_append hle), fun q => ?_,
    h.prefixSet, h.entry, fun q => (h.kept q).imp_right (And.imp_right (hbranch q)), h.updates⟩
  refine (h.values q).imp_right ?_
  rintro ⟨value, ⟨hq, hne⟩, hrest⟩
  exact ⟨value, ⟨extends_of_append hq, hne⟩, hrest⟩

theorem branch (h : Cut fullPath (path ++ [i]) binds (children i) t s s') :
    Cut fullPath path binds (.branch children) (.branch (update children i t)) s s' := by
  refine h.above fun q hbranch r hr hb => ?_
  cases r with
  | nil => rfl
  | cons k r =>
    by_cases hk : k = i
    · subst hk
      rw [branchAt, update_self]
      refine hbranch r ?_ hb
      rw [append_assoc]
      exact hr
    · rw [branchAt, update_of_ne hk]
      exact hb

theorem ext {path key : Nibbles} {child t : Tree 16 V}
    (h : Cut fullPath (path ++ key) binds child t s s') :
    Cut fullPath path binds (.ext key child) (under key t) s s' := by
  refine h.above fun q hbranch r hr hb => ?_
  by_cases hkey : key <+: r
  · obtain ⟨r, rfl⟩ := hkey
    rw [branchAt_ext_append] at hb
    rw [branchAt_under_append]
    exact hbranch r ((append_assoc path key r).trans hr) hb
  · rw [branchAt_ext_none child hkey] at hb
    nomatch hb

/-- Nodes at and below a path are stored or removed. -/
theorem of_within (h : Within (path <+: ·) (fun _ _ => False) s s')
    (hbranch : ∀ r, (t.branchAt r).isSome → (t'.branchAt r).isSome) :
    Cut fullPath path binds t t' s s' := by
  refine ⟨h.nodes, fun q => ?_, h.prefixSet, fun q _ => h.entry q,
    fun q => .inr ⟨h.entry q, fun r _ => hbranch r⟩, by rw [h.updates]⟩
  rcases h.values q with heq | ⟨_, _, ⟨⟩, _⟩
  · exact .inl heq

theorem of_collapsed (hi : path ++ [i] <+: fullPath) (hij : i ≠ j)
    (h : Collapsed path j binds s s') :
    Cut fullPath path binds (.branch children) (join children) s
      (s'.insertNode path node) := by
  refine ⟨fun q hq => (nodes_insertNode_ne _ _ ?_).trans (h.nodes q hq), fun q => ?_,
    h.prefixSet, fun q hq => (h.entry q).trans (if_neg ?_), fun q => ?_, h.updates⟩
  · rintro rfl
    exact hq prefix_rfl
  · refine (h.values q).imp_right ?_
    rintro ⟨value, hq, hrest⟩
    refine ⟨value, ⟨extends_of_append hq, ?_⟩, hrest⟩
    rintro rfl
    exact not_extends_sibling hij hi hq
  · rintro rfl
    exact hq (extends_of_append hi)
  · by_cases hq : path = q
    · exact .inl ((h.entry q).trans (if_pos hq))
    · refine .inr ⟨(h.entry q).trans (if_neg hq), fun r hr hb => ?_⟩
      cases r with
      | nil => exact absurd ((append_nil path).symm.trans hr) hq
      | cons k r => rwa [branchAt_join_cons]

end Cut

variable [DecidableEq H] {provider : TrieNodeProvider B H}

/-- The only child that is left is merged with its branch. -/
theorem collapseBranch_spec (hw : w.Reveals c) (hprovider : w.Provides c provider)
    (hgood : u.Good m)
    (hbinds : ∀ r value, u.lookup r = some value → binds (path ++ [j] ++ r) value)
    (hshows : Shows c w changed s true (path ++ [j]) u)
    (hrun : collapseBranch c fuel provider s path j = some (.ok node, s')) :
    Shows c w changed (s'.insertNode path node) true path (under [j] u) ∧
      Collapsed path j binds s s' := by
  rw [collapseBranch, andThen_eq_ok] at hrun
  obtain ⟨_, s₁, hreveal, hrun⟩ := hrun
  have hrevealed := revealBlinded_spec hw hprovider hgood hbinds hshows hreveal
  have hremove : Within (fun q => q = path ++ [j]) (fun _ _ => False) s₁
      (s₁.removeNode (path ++ [j])) := .removeNode s₁ rfl
  have hkeep : Within (fun q => q = path ++ [j]) (fun _ _ => False) s₁ s₁ := .refl s₁
  have hblinded : ∀ {u}, ¬ Blinded c w s₁ true (path ++ [j]) u := by
    rintro u (⟨⟨⟩, _⟩ | ⟨hash, hnode, _⟩)
    · rw [hnode] at hrun
      nomatch hrun
  cases u with
  | empty => exact absurd hgood id
  | leaf key value =>
    rcases hrevealed.shows with h | ⟨hash, hnode, hvalue, _⟩
    · exact absurd h hblinded
    · rw [hnode] at hrun
      cases hrun
      refine ⟨.of_leaf (nodes_insertNode_self _ _ _) ?_, .of_within hrevealed.within hremove⟩
      rw [← append_assoc]
      exact hvalue
  | ext key child =>
    rcases hrevealed.shows with h | ⟨hash, store, hnode, _, hbelow⟩
    · exact absurd h.1 hblinded
    · rw [hnode] at hrun
      cases hrun
      refine ⟨.of_newExt (nodes_insertNode_self _ _ _) ?_, .of_within hrevealed.within hremove⟩
      rw [← append_assoc]
      refine hbelow.of_collapsed hremove (prefix_append _ _) (.inr ?_)
      exact fun heq => hgood.1 (append_right_eq_self.mp heq)
  | branch children =>
    have hshown := hrevealed.shows
    rcases hrevealed.shows with h | ⟨hash, store, hnode, _, _⟩
    · exact absurd h.1 hblinded
    · rw [hnode] at hrun
      cases hrun
      rw [under, if_neg (cons_ne_nil _ _)]
      exact ⟨.of_newExt (nodes_insertNode_self _ _ _)
        (hshown.of_collapsed hkeep prefix_rfl (.inl rfl)),
        .of_within hrevealed.within hkeep⟩

/-- The bits of the branch above: that of the leaf that is removed is unset. -/
theorem stateMask_leafNibble (hgood : (children i).Good m)
    (hlookup : (children i).lookup r = some value) :
    (leafNibble i (children i)).elim (stateMask children)
      (stateMask children).unsetBit =
        stateMask (update children i ((children i).delete r)) := by
  have hkeep : ∀ {u}, u ≠ .empty → stateMask children = stateMask (update children i u) := fun hu =>
    ((stateMask_update hu).trans (setBit_of_set (stateMask_iff.mpr hgood.ne_empty))).symm
  cases hi : children i with
  | empty => exact absurd hi hgood.ne_empty
  | leaf key value' =>
    rw [hi] at hlookup
    rw [delete, if_pos (eq_of_lookup_leaf hlookup)]
    show (stateMask children).unsetBit i = _
    funext j
    rw [Bool.eq_iff_iff, stateMask_iff, TrieMask.unsetBit]
    by_cases hij : j = i
    · subst hij
      simp
    · simp [hij, stateMask_iff]
  | ext key child =>
    rw [hi] at hgood
    exact hkeep (delete_ext_ne_empty hgood r)
  | branch below =>
    rw [hi] at hgood
    exact hkeep (delete_branch_ne_empty hgood r)

/-- The branch that is put back: with one child left, it is merged with the child. -/
theorem newNode_branch (hw : w.Reveals c) (hprovider : w.Provides c provider)
    {stateMask : TrieMask} (hi : path ++ [i] <+: fullPath)
    (hnode : removed.node = .branch stateMask hash store) (hpath : removed.path = path)
    (hmask : removed.unsetBranchNibble.elim stateMask stateMask.unsetBit =
      Codec.stateMask children) (hgood : ∀ j, children j = .empty ∨ (children j).Good m)
    (hpresent : present children ≠ [] ∧ present children ≠ [i])
    (hchanged : changed path = true)
    (hbinds : ∀ j r value, j ≠ i → (children j).lookup r = some value →
      binds (path ++ [j] ++ r) value)
    (hshows : ∀ j, children j ≠ .empty → Shows c w changed s true (path ++ [j]) (children j))
    (hrun : newNode c fuel provider s removed child = some (.ok node, s')) :
    Shows c w changed (s'.insertNode path node) true path (join children) ∧
      Cut fullPath path binds (.branch children) (join children) s
        (s'.insertNode path node) := by
  have hunset : newNode c fuel provider s removed child =
      if (Codec.stateMask children).countBits = 1 then
        (Codec.stateMask children).firstSetBitIndex.bind (collapseBranch c fuel provider s path)
      else some (.ok (.newBranch (Codec.stateMask children)), s) := by
    rw [newNode, hnode, hpath, ← hmask]
    cases removed.unsetBranchNibble <;> dsimp only [Option.elim] <;>
      cases TrieMask.firstSetBitIndex _ <;> rfl
  rw [hunset] at hrun
  have hbits : (Codec.stateMask children).bits = Tree.present children := rfl
  split at hrun
  · next hcount =>
    rw [TrieMask.countBits, hbits, length_eq_one_iff] at hcount
    obtain ⟨j, hj⟩ := hcount
    rw [TrieMask.firstSetBitIndex, hbits, hj] at hrun
    have hji : j ≠ i := by
      rintro rfl
      exact hpresent.2 hj
    have hne : children j ≠ .empty :=
      mem_present.mp (hj ▸ mem_singleton.mpr rfl)
    have hcollapsed := collapseBranch_spec hw hprovider ((hgood j).resolve_left hne)
      (hbinds j · · hji) (hshows j hne) hrun
    have hjoin : join children = under [j] (children j) := by
      rw [Tree.join, hj]
    exact ⟨hjoin ▸ hcollapsed.1, .of_collapsed hi (Ne.symm hji) hcollapsed.2⟩
  · next hcount =>
    cases hrun
    have hjoin : join children = .branch children := by
      rw [TrieMask.countBits, hbits] at hcount
      rw [Tree.join]
      split
      · next h => exact absurd h hpresent.1
      · next h => rw [h] at hcount; exact absurd rfl hcount
      · rfl
    rw [hjoin]
    have hwithin : Within (· = path) (fun _ _ => False) s
        (s.insertNode path (.newBranch (Codec.stateMask children))) := .insertNode s _ rfl
    refine ⟨.of_branch (nodes_insertNode_self _ _ _) hchanged fun j hj => ?_,
      .of_within (hwithin.mono ?_) fun _ => id⟩
    · refine hwithin.shows ?_ (hshows j hj)
      rintro q hq rfl
      exact not_extends_of_ne_nil (cons_ne_nil _ _) hq
    · rintro q rfl
      exact prefix_rfl

/-- The extension that is put back: it takes over the path of a leaf or an extension. -/
theorem newNode_ext (hkey : key ≠ []) (hnode : removed.node = .extension key hash store)
    (hgood : u.Good m) (hchanged : changed path = true) (hpath : child.path = path ++ key)
    (hchild : s.nodes[path ++ key]? = some child.node)
    (hshows : Shows c w changed s true (path ++ key) u)
    (hrun : newNode c fuel provider s removed child = some (.ok node, s')) :
    Shows c w changed (s'.insertNode path node) true path (under key u) ∧
      Cut fullPath path binds (under key u) (under key u) s (s'.insertNode path node)
      := by
  have hremove : Within (fun q => q = path ++ key) (fun _ _ => False) s
      (s.removeNode (path ++ key)) := .removeNode s rfl
  have hinsert : ∀ (s : SerialSparseTrie V H), Within (fun q => q = path) (fun _ _ => False) s
      (s.insertNode path node) := fun s => .insertNode s _ rfl
  have hcut : ∀ {s' : SerialSparseTrie V H},
      Within (fun q => q = path ++ key) (fun _ _ => False) s s' →
        Cut fullPath path binds (under key u) (under key u) s
          (s'.insertNode path node) := by
    intro s' hwithin
    refine .of_within ((hwithin.mono ?_).trans ((hinsert s').mono ?_)) fun _ => id
    · rintro q rfl
      exact prefix_append _ _
    · rintro q rfl
      exact prefix_rfl
  have hblinded : ∀ {u : Tree 16 V}, ¬ Blinded c w s true (path ++ key) u := by
    rintro u (⟨⟨⟩, _⟩ | ⟨hash, hh, _⟩)
    · rw [newNode, hnode, some.inj (hchild.symm.trans hh)] at hrun
      nomatch hrun
  rw [newNode, hnode, hpath] at hrun
  cases u with
  | empty => exact absurd hgood id
  | leaf key' value =>
    rcases hshows with h | ⟨hash', hh, hvalue, _⟩
    · exact absurd h hblinded
    · rw [some.inj (hchild.symm.trans hh)] at hrun
      cases hrun
      refine ⟨.of_leaf (nodes_insertNode_self _ _ _) ?_, hcut hremove⟩
      rw [← append_assoc]
      exact hvalue
  | ext key' child' =>
    rcases hshows with h | ⟨hash', store', hh, _, hbelow⟩
    · exact absurd h.1 hblinded
    rw [some.inj (hchild.symm.trans hh)] at hrun
    cases hrun
    refine ⟨.of_newExt (nodes_insertNode_self _ _ _) ?_, hcut hremove⟩
    rw [← append_assoc]
    refine (hinsert _).shows ?_ (hremove.shows ?_ hbelow)
    · rintro q hq rfl
      rw [append_assoc] at hq
      exact not_extends_of_ne_nil (by simp [hkey]) hq
    · rintro q hq rfl
      exact not_extends_of_ne_nil hgood.1 hq
  | branch children =>
    have hshows' := hshows
    rcases hshows with h | ⟨hash', store', hh, _, _⟩
    · exact absurd h.1 hblinded
    rw [some.inj (hchild.symm.trans hh)] at hrun
    cases hrun
    rw [under_of_isBranch hkey rfl]
    have hbranch : under key (.branch children) = .ext key (.branch children) :=
      under_of_isBranch hkey rfl
    refine ⟨.of_ext (nodes_insertNode_self _ _ _) hchanged ((hinsert s).shows ?_ hshows'),
      hbranch ▸ hcut (.refl s)⟩
    rintro q hq rfl
    exact not_extends_of_ne_nil hkey hq

/-! ## From the leaf to the root -/

/-- The subtree `t` was replaced by `t'`, and the nodes above it are still to be put back. -/
def Reinserted (c : Codec V B H) (w : Memory V H) (changed : Nibbles → Bool) (fuel : ℕ)
    (provider : TrieNodeProvider B H) (fullPath path : Nibbles) (binds : Nibbles → V → Prop)
    (t t' : Tree 16 V) (nodes : List (RemovedSparseNode H)) (s s' : SerialSparseTrie V H) : Prop :=
  ∃ child s₁, child.path = path ∧ s₁.nodes[path]? = some child.node ∧
    Shows c w changed s₁ true path t' ∧ Cut fullPath path binds t t' s s₁ ∧
      reinsertNodes c fuel provider nodes child s₁ = some (.ok (), s')

/-- A branch is put back above a subtree that changed. -/
theorem reinsertNodes_branch (hw : w.Reveals c) (hprovider : w.Provides c provider) {n m fuel : ℕ}
    {nibble : Option (Fin 16)} (hi : path ++ [i] <+: fullPath)
    (hgood : (branch children).Good n)
    (hchildren : ∀ j, children j = .empty ∨ (children j).Good m) (hu : u = .empty ∨ u.Good m)
    (hmask : nibble.elim (stateMask children) (stateMask children).unsetBit =
      stateMask (update children i u)) (hchanged : changed path = true)
    (hbinds : ∀ r value, (branch children).lookup r = some value → binds (path ++ r) value)
    (hghost : Ghost fullPath path s₀ s)
    (hbelow : ∀ j, children j ≠ .empty → Shows c w changed s₀ true (path ++ [j]) (children j))
    (hshows : u ≠ .empty → Shows c w changed s₁ true (path ++ [i]) u)
    (hcut : Cut fullPath (path ++ [i]) binds (children i) u s s₁)
    (hrun : reinsertNodes c fuel provider
      (⟨path, .branch (stateMask children) hash store, nibble⟩ :: nodes) child s₁ =
        some (.ok (), s')) :
    Reinserted c w changed fuel provider fullPath path binds (.branch children)
      (join (update children i u)) nodes s s' := by
  rw [reinsertNodes, andThen_eq_ok] at hrun
  obtain ⟨node, s2, hnode, hrest⟩ := hrun
  -- one of the two children of the branch is not the one that changed
  obtain ⟨k, hki, hk⟩ : ∃ k, k ≠ i ∧ children k ≠ .empty := by
    obtain ⟨_, _, _, a, b, hab, ha, hb⟩ := hgood
    by_cases hai : a = i
    · exact ⟨b, fun hbi => hab (hai.trans hbi.symm), hb⟩
    · exact ⟨a, hai, ha⟩
  have hkmem : k ∈ present (update children i u) := by
    rw [mem_present, update_of_ne hki]
    exact hk
  have hpresent : present (update children i u) ≠ [] ∧
      present (update children i u) ≠ [i] := by
    refine ⟨ne_nil_of_mem hkmem, fun h => hki ?_⟩
    rw [h] at hkmem
    exact mem_singleton.mp hkmem
  have hgood' : ∀ j, update children i u j = .empty ∨
      (update children i u j).Good m := by
    intro j
    by_cases hj : j = i
    · subst hj
      rw [update_self]
      exact hu
    · rw [update_of_ne hj]
      exact hchildren j
  have hbinds' : ∀ j r value, j ≠ i → (update children i u j).lookup r = some value →
      binds (path ++ [j] ++ r) value := by
    intro j r value hj hlookup
    rw [update_of_ne hj] at hlookup
    rw [append_assoc]
    exact hbinds (j :: r) value hlookup
  have hshows' : ∀ j, update children i u j ≠ .empty →
      Shows c w changed s₁ true (path ++ [j]) (update children i u j) := by
    intro j hj
    by_cases hji : j = i
    · subst hji
      rw [update_self] at hj ⊢
      exact hshows hj
    · rw [update_of_ne hji] at hj ⊢
      have hnot : ¬ path ++ [j] <+: fullPath := fun hle =>
        not_extends_sibling hji hle hi
      refine hcut.shows (fun q hq => ?_) hnot (hghost.shows (prefix_append _ _) hnot (hbelow j hj))
      exact not_extends_sibling hji hq
  obtain ⟨hresult, hcut'⟩ := newNode_branch hw hprovider hi rfl rfl hmask hgood' hpresent hchanged
    hbinds' hshows' hnode
  exact ⟨_, _, rfl, nodes_insertNode_self _ _ _, hresult, hcut.branch.trans hcut', hrest⟩

/-- **PUTTING THE NODES BACK** that were taken above the leaf. -/
theorem reinsertNodes_spec (hw : w.Reveals c) (hprovider : w.Provides c provider)
    (hchanged : ∀ q, q <+: fullPath → changed q = true) (htaken : Taken s₀ fullPath path t nodes) :
    ∀ {n} {r},
    (∀ key value, t ≠ .leaf key value) → path ++ r = fullPath → t.Good n → r.length = n →
    t.lookup r = some value → Shows c w changed s₀ true path t →
    (∀ q value, t.lookup q = some value → binds (path ++ q) value) →
    ∃ leaf rest, nodes = leaf :: rest ∧ ∀ {above s s'}, Ghost fullPath path s₀ s →
      reinsertNodes c fuel provider (rest ++ above) leaf s = some (.ok (), s') →
        Reinserted c w changed fuel provider fullPath path binds t (t.delete r) above s s' := by
  induction htaken with
  | leaf => intro n r hleaf; exact absurd rfl (hleaf _ _)
  | @ext path key child hash store nodes hnode htaken ih =>
    intro n r _ hpath hgood hlength hlookup hshows hbinds
    obtain ⟨hkey, hbranch, m, rfl, hchild⟩ := hgood
    obtain ⟨r, rfl⟩ := prefix_of_lookup_ext hlookup
    rw [lookup_ext_append] at hlookup
    have hbelow : Shows c w changed s₀ true (path ++ key) child := by
      rcases hshows with ⟨⟨⟨⟩, _⟩ | ⟨_, hhash, _⟩, _⟩ | ⟨_, _, _, _, hbelow⟩
      · cases hnode.symm.trans hhash
      · exact hbelow
    have hleaf : ∀ key value, child ≠ .leaf key value := by
      rintro key value rfl
      cases hbranch
    have hr : r.length = m := by
      rw [length_append] at hlength
      exact add_left_cancel hlength
    obtain ⟨leaf, rest, rfl, hput⟩ := ih hleaf ((append_assoc path key r).trans hpath)
      hchild hr hlookup hbelow (fun q v hq => by
        rw [append_assoc]
        exact hbinds (key ++ q) v (lookup_ext_append key q child ▸ hq))
    refine ⟨leaf, _, cons_append, fun {above s s'} hghost hrun => ?_⟩
    rw [append_assoc] at hrun
    obtain ⟨child', s₁, hpath', hnode', hshows', hcut, hrest⟩ := hput hghost.below hrun
    rw [singleton_append, reinsertNodes, andThen_eq_ok] at hrest
    obtain ⟨node, s2, hnew, hrest⟩ := hrest
    have hdelete : (ext key child).delete (key ++ r) = under key (child.delete r) := by
      rw [delete, if_pos (prefix_append _ _), drop_left]
    have hgood' := (delete_spec (.inr hchild) hr).1.resolve_left (by
      cases child with
      | branch children => exact delete_branch_ne_empty hchild r
      | _ => cases hbranch)
    obtain ⟨hresult, hcut'⟩ := newNode_ext hkey rfl hgood'
      (hchanged path (hpath ▸ prefix_append _ _)) hpath' hnode' hshows' hnew
    rw [hdelete]
    exact ⟨_, _, rfl, nodes_insertNode_self _ _ _, hresult, hcut.ext.trans hcut', hrest⟩
  | @branch path children i hash store nodes hnode hi htaken ih =>
    intro n r _ hpath hgood hlength hlookup hshows hbinds
    have hgood' := hgood
    obtain ⟨m, rfl, hchildren, _⟩ := hgood
    cases r with
    | nil => cases hlookup
    | cons j r =>
      obtain rfl : i = j := by
        rw [← hpath, prefix_append_right_inj] at hi
        exact (cons_prefix_cons.mp hi).1
      rw [lookup_branch_cons] at hlookup
      have hne : children i ≠ .empty := by
        intro hempty
        rw [hempty] at hlookup
        cases hlookup
      have hbelow : ∀ j, children j ≠ .empty →
          Shows c w changed s₀ true (path ++ [j]) (children j) := by
        rcases hshows with ⟨⟨⟨⟩, _⟩ | ⟨_, hhash, _⟩, _⟩ | ⟨_, _, _, _, hbelow⟩
        · cases hnode.symm.trans hhash
        · exact hbelow
      have hr : r.length = m := succ.inj hlength
      have hwf := (delete_spec (hchildren i) hr).1
      have hpathChanged := hchanged path (hpath ▸ prefix_append _ _)
      have hmask := stateMask_leafNibble ((hchildren i).resolve_left hne) hlookup
      rw [delete]
      by_cases hleaf : ∀ key value, children i ≠ .leaf key value
      · obtain ⟨leaf, rest, rfl, hput⟩ := ih hleaf
          ((append_assoc path [i] r).trans hpath) ((hchildren i).resolve_left hne) hr
          hlookup (hbelow i hne) (fun q v hq => by
            rw [append_assoc]
            exact hbinds (i :: q) v hq)
        refine ⟨leaf, _, cons_append, fun {above s s'} hghost hrun => ?_⟩
        rw [append_assoc] at hrun
        obtain ⟨child', s₁, hpath', hnode', hshows', hcut, hrest⟩ := hput hghost.below hrun
        exact reinsertNodes_branch hw hprovider hi hgood' hchildren hwf hmask hpathChanged
          hbinds hghost hbelow (fun _ => hshows') hcut hrest
      · push Not at hleaf
        obtain ⟨key, value', hleaf⟩ := hleaf
        rw [hleaf] at htaken hlookup
        have hempty : (children i).delete r = .empty := by
          rw [hleaf, delete, if_pos (eq_of_lookup_leaf hlookup)]
        cases htaken
        refine ⟨_, _, rfl, fun {above s s'} hghost hrun => ?_⟩
        refine reinsertNodes_branch hw hprovider hi hgood' hchildren hwf hmask hpathChanged
          hbinds hghost hbelow (fun hne => absurd hempty hne) (.of_within (.refl s) ?_) hrun
        intro q hq
        rw [hleaf] at hq
        cases hq

/-! ## `remove_leaf` -/

/-- What removing a leaf does to the updates: those on the path may be dropped. -/
structure Forgot (key : Nibbles) (t t' : Tree 16 V) (s s' : SerialSparseTrie V H) : Prop where
  entry : ∀ q, ¬ q <+: key → s'.entry q = s.entry q
  kept : ∀ q, s'.entry q = none ∨
    (s'.entry q = s.entry q ∧ ((t.branchAt q).isSome → (t'.branchAt q).isSome))
  updates : s'.updates.isSome = s.updates.isSome

/-- **REMOVING A LEAF**: a key that is bound is only removed where no hash is on its path. -/
theorem removeLeaf_spec (hw : w.Reveals c) (hprovider : w.Provides c provider)
    (h : Stands c w s t) (hlength : key.length = 64) (hopen : t.lookup key ≠ none → s.Open key)
    (hrun : removeLeaf c fuel provider s key = some (.ok (), s')) :
    Stands c w s' (t.delete key) ∧ Forgot key t (t.delete key) s s' := by
  have hdel := delete_spec h.wf hlength
  rw [removeLeaf] at hrun
  cases hvalue : s.values[key]? with
  | none =>
    rw [hvalue] at hrun
    have hlookup : t.lookup key = none := by
      cases hlookup : t.lookup key with
      | none => rfl
      | some value =>
        have hstored := h.shows.value_of_open hlookup (hopen (by rw [hlookup]; simp))
        cases hvalue.symm.trans hstored
    have heq : t.delete key = t := by
      refine wf_unique hdel.1 h.wf fun q => ?_
      rw [hdel.2]
      split
      · next hq => rw [hq, hlookup]
      · rfl
    obtain rfl : s' = s := by
      cases hnode : s.nodes[key]? with
      | none => rw [hnode] at hrun; cases hrun; rfl
      | some node =>
        rw [hnode] at hrun
        cases node with
        | hash => cases hrun
        | _ => cases hrun; rfl
    rw [heq]
    exact ⟨h, fun _ _ => rfl, fun _ => .inr ⟨rfl, id⟩, rfl⟩
  | some value =>
    obtain ⟨value', hlookup⟩ := ne_none_iff_exists'.mp
      (h.values key (by rw [hvalue]; exact some_ne_none _))
    have hless := s.prefixSet.not_changed_of_insert key
    have hgood := h.wf.resolve_left (by
      rintro rfl
      cases hlookup)
    rw [hvalue] at hrun
    obtain ⟨res, s2, htake, hrest⟩ := andThen_eq_ok.mp hrun
    -- the trie as it was, but for the prefix set
    have hshows : Shows c w (s.prefixSet.insert key).changed s true [] t :=
      h.shows.weaken fun q _ => hless q
    obtain ⟨nodes, htaken, rfl, hfrom⟩ := takeNodesForPath_spec hshows hgood hlookup
      (nil_append key) (by exact fun _ _ => rfl) htake
    have hvalues : ∀ q, s2.values[q]? ≠ none → (t.delete key).lookup q ≠ none := by
      intro q hq
      rw [hfrom.values] at hq
      have hne : q ≠ key := by
        rintro rfl
        exact hq (get_erase_self s.values q)
      rw [hdel.2, if_neg hne]
      exact h.values q fun hnone => hq ((get_erase_ne (Ne.symm hne)).trans hnone)
    have hentry : ∀ q, s2.entry q = s.entry q := fun q => by rw [entry, hfrom.updates, entry]
    by_cases hleaf : ∀ key' value', t ≠ .leaf key' value'
    · have hghost : Ghost key [] s s2 := by
        refine ⟨fun q _ hq => hfrom.nodes q hq, fun q v hq hv => ?_, fun q _ => hentry q⟩
        rw [hfrom.values]
        exact (get_erase_ne (Ne.symm hq)).trans hv
      obtain ⟨leaf, rest, rfl, hput⟩ : ∃ leaf rest, nodes = leaf :: rest ∧
          ∀ {above s₁ s2}, Ghost key [] s s₁ →
            reinsertNodes c fuel provider (rest ++ above) leaf s₁ = some (.ok (), s2) →
              Reinserted c w (s.prefixSet.insert key).changed fuel provider key []
                (t.lookup · = some ·) t (t.delete key) above s₁ s2 :=
        reinsertNodes_spec hw hprovider (s.prefixSet.changed_insert_of_extends key) htaken hleaf
          rfl hgood hlength hlookup hshows fun q v hq => hq
      have htwo := htaken.two_le hleaf
      cases rest with
      | nil => exact absurd htwo (by simp)
      | cons next rest =>
        have hput' : reinsertNodes c fuel provider ((next :: rest) ++ []) leaf s2 =
            some (.ok (), s') := by
          rw [append_nil] at hrest ⊢
          exact hrest
        obtain ⟨child, s3, _, _, hshows', hcut, hdone⟩ := hput hghost hput'
        cases hdone
        refine ⟨⟨hdel.1, ?_, fun q hq => ?_⟩, fun q hq => ?_, fun q => ?_, ?_⟩
        · rw [hcut.prefixSet, hfrom.prefixSet]
          exact hshows'
        · rcases hcut.values q with heq | ⟨v', ⟨_, hne⟩, hbound, _⟩
          · exact hvalues q (heq ▸ hq)
          · rw [hdel.2, if_neg hne, show t.lookup q = some v' from hbound]
            exact Option.some_ne_none _
        · exact (hcut.entry q hq).trans (hentry q)
        · exact (hcut.kept q).imp_right fun h => ⟨h.1.trans (hentry q), h.2 q rfl⟩
        · rw [hcut.updates, hfrom.updates]
    · push Not at hleaf
      obtain ⟨key', value'', rfl⟩ := hleaf
      cases htaken
      cases hrest
      have hempty : (leaf key' value'').delete key = .empty := by
        rw [delete, if_pos (eq_of_lookup_leaf hlookup)]
      rw [hempty] at hvalues ⊢
      refine ⟨⟨.inl rfl, nodes_insertNode_self _ _ _, hvalues⟩, fun q _ => hentry q,
        fun q => .inr ⟨hentry q, fun h => by cases h⟩, ?_⟩
      show s2.updates.isSome = _
      rw [hfrom.updates]

end SerialSparseTrie

end Trie
