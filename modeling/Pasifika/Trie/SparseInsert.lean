import Pasifika.Trie.SparseReveal

/-! # Updating leaves

`update_leaf` of a key that has no value walks down from the root, and puts a new leaf
where the path of the key parts from the trie: the trie then stands for the tree with
the key inserted. All nodes on the way are on the path of a changed key, so that
nothing that is remembered there has to be right. -/

namespace Trie

open Std OrderedMap Patricia List Option Function Nibbles Tree Codec Nat

/-! ## Cutting paths -/

namespace Nibbles

variable (path r : Nibbles)

variable (i : Fin 16)

theorem getElem?_part : (path ++ i :: r)[path.length]? = some i := by
  rw [getElem?_append_right (Nat.le_refl _), Nat.sub_self]
  rfl

theorem take_part : (path ++ i :: r).take (path.length + 1) = path ++ [i] := by
  rw [take_length_add_append]
  rfl

theorem drop_part : (path ++ i :: r).drop (path.length + 1) = r := by
  rw [drop_length_add_append]
  rfl

theorem slice_part (path key rest : Nibbles) :
    slice (path ++ key ++ rest) path.length (path ++ key).length = some key := by
  rw [slice, if_pos (by simp), take_left, drop_left]

end Nibbles

/-- The true nodes: a node that a hash stands for is what the provider returns. -/
def Memory.Provides {V B H : Type} (c : Codec V B H) (w : Memory V H)
    (provider : TrieNodeProvider B H) : Prop :=
  ∀ path t hash, w.origin path t → c.rlpNode t = .word hash →
    ∃ treeMask hashMask, provider path = .ok (some ⟨c.encode (c.trieNode t), treeMask, hashMask⟩)

namespace SerialSparseTrie

variable {V B H : Type} {c : Codec V B H} {w : Memory V H}
variable {changed : Nibbles → Bool} {s s' : SerialSparseTrie V H} {binds : Nibbles → V → Prop}

/-! ## Nodes on the path of a changed key -/

variable {store : Option Bool} {hash : Option H} {child t : Tree 16 V} {path key r : Nibbles}
variable {children : Fin 16 → Tree 16 V} {value : V} {i : Fin 16} {fuel : ℕ}

theorem Shows.of_ext (hnode : s.nodes[path]? = some (.extension key hash store))
    (hchanged : changed path = true) (h : Shows c w changed s true (path ++ key) child) :
    Shows c w changed s true path (.ext key child) := by
  refine .inr ⟨hash, store, hnode, fun hch => ?_, h⟩
  rw [hchanged] at hch
  nomatch hch

theorem Shows.of_newExt (hnode : s.nodes[path]? = some (.newExt key))
    (h : Shows c w changed s true (path ++ key) child) :
    Shows c w changed s true path (.ext key child) :=
  .inr ⟨none, none, hnode, fun _ => w.forgets _ _ _ _, h⟩

theorem Shows.of_branch (hnode : s.nodes[path]? = some (.branch (stateMask children) hash store))
    (hchanged : changed path = true)
    (h : ∀ i, children i ≠ .empty → Shows c w changed s true (path ++ [i]) (children i)) :
    Shows c w changed s true path (.branch children) := by
  refine .inr ⟨hash, store, hnode, fun hch => ?_, h⟩
  rw [hchanged] at hch
  nomatch hch

theorem Shows.of_leaf (hnode : s.nodes[path]? = some (.newLeaf key))
    (hvalue : s.values[path ++ key]? = some value) :
    Shows c w changed s true path (.leaf key value) :=
  .inr ⟨none, hnode, hvalue, nofun⟩

/-- One child of a branch takes the place of another. -/
theorem Shows.update_child
    (hnode : s'.nodes[path]? = some (.branch (stateMask (update children i t)) hash store))
    (hchanged : changed path = true)
    (hchildren : ∀ j, children j ≠ .empty → Shows c w changed s true (path ++ [j]) (children j))
    (hwithin : Within (fun q => path ++ [i] <+: q ∨ q = path) binds s s')
    (ht : t ≠ .empty → Shows c w changed s' true (path ++ [i]) t) :
    Shows c w changed s' true path (.branch (update children i t)) := by
  refine .of_branch hnode hchanged fun j hj => ?_
  by_cases hij : j = i
  · subst hij
    rw [update_self] at hj ⊢
    exact ht hj
  · rw [update_of_ne hij] at hj ⊢
    refine hwithin.shows ?_ (hchildren j hj)
    rintro q hq (hqi | rfl)
    · exact not_extends_sibling (Ne.symm hij) hqi hq
    · exact not_extends_of_ne_nil (cons_ne_nil _ _) hq

theorem stateMask_pair (ht : t ≠ .empty) (hu : u ≠ .empty) :
    (TrieMask.default.setBit i).setBit j = stateMask (pair i t j u) := by
  funext m
  rw [Bool.eq_iff_iff, stateMask_iff, Tree.pair, TrieMask.setBit, TrieMask.setBit]
  by_cases hj : m = j
  · subst hj
    simp [hu]
  · by_cases hi : m = i
    · subst hi
      simp [hj, ht]
    · simp [hi, hj, TrieMask.default]

theorem stateMask_update (ht : t ≠ .empty) : stateMask (update children i t) =
      (stateMask children).setBit i := by
  funext j
  rw [Bool.eq_iff_iff, stateMask_iff, TrieMask.setBit]
  by_cases hij : j = i
  · subst hij
    simp [ht]
  · simp [hij, stateMask_iff]

theorem setBit_of_set {m : TrieMask} (h : m i = true) : m.setBit i = m := by
  rw [TrieMask.setBit, ← h, update_eq_self]

/-- A leaf beside a subtree, where their paths part. -/
theorem shows_fork (hij : i ≠ j) (ht : t ≠ .empty)
    (hext : key ≠ [] → s.nodes[path]? = some (.extension key hash store))
    (hbranch : s.nodes[path ++ key]? = some (.newSplitBranch i j))
    (hleaf : s.nodes[path ++ key ++ [j]]? = some (.newLeaf r'))
    (hvalue : s.values[path ++ key ++ [j] ++ r']? = some value)
    (hchanged : changed (path ++ key) = true) (hpath : changed path = true)
    (hold : Shows c w changed s true (path ++ key ++ [i]) (under r t)) :
    Shows c w changed s true path
      (fork (key ++ i :: r) t (key ++ j :: r') value) := by
  rw [fork_append key r r' hij]
  have hunder : under r t ≠ .empty := by
    rw [Ne, under_isEmpty]
    exact ht
  have hnew : Shows c w changed s true (path ++ key)
      (.branch (pair i (under r t) j (.leaf r' value))) := by
    have hne : leaf r' value ≠ .empty := nofun
    rw [SparseNode.newSplitBranch, stateMask_pair hunder hne] at hbranch
    refine .of_branch hbranch hchanged fun m hm => ?_
    · by_cases hj : m = j
      · subst hj
        rw [pair_right]
        exact .of_leaf hleaf hvalue
      · by_cases hi : m = i
        · subst hi
          rw [pair_left hij]
          exact hold
        · exact absurd (pair_other hi hj _ _) hm
  rw [under]
  split
  · next hkey =>
    subst hkey
    rw [append_nil] at hnew
    exact hnew
  · next hkey => exact .of_ext (hext hkey) hpath hnew

theorem splitNodes_part (s : SerialSparseTrie V H) (path r r' : Nibbles) (i j : Fin 16) :
    s.splitNodes (path ++ j :: r') path.length i j (path ++ i :: r) =
      (s.insertNode path (.newSplitBranch i j)).insertNode (path ++ [j]) (.newLeaf r') := by
  rw [splitNodes, take_left, take_part, drop_part]

/-! ## Splits -/

/-- A key is inserted below a path; its own value stays. -/
structure Inserted (c : Codec V B H) (w : Memory V H) (changed : Nibbles → Bool)
    (binds : Nibbles → V → Prop) (fullPath path : Nibbles) (t : Tree 16 V)
    (s s' : SerialSparseTrie V H) : Prop where
  shows : Shows c w changed s' true path t
  within : Within (fun q => path <+: q) binds s s'
  value : s'.values[fullPath]? = s.values[fullPath]?

/-- A leaf with another path is split. -/
theorem splitLeaf_spec (hchanged : ∀ q, q <+: path ++ r → changed q = true)
    (hlength : r.length = key.length) (hvalue : s.values[path ++ r]? = some value)
    (hvalue' : s.values[path ++ key]? = some value')
    (hrun : splitLeaf s path key (path ++ r) = some s') :
    Inserted c w changed binds (path ++ r) path ((leaf key value').insert r value) s s' := by
  rw [splitLeaf] at hrun
  dsimp only at hrun
  split at hrun
  · cases hrun
  · next hne =>
    have hne : r ≠ key := fun h => hne (by rw [h])
    obtain ⟨hp, hp'⟩ := not_prefix_of_length hlength hne
    rw [Tree.insert, if_neg hne]
    obtain ⟨key, i, ra, j, rb, rfl, rfl, hij⟩ := exists_part hp hp'
    have hlen : path.length = (path ++ (key ++ i :: ra)).length - (key ++ i :: ra).length := by
      rw [length_append, Nat.add_sub_cancel]
    rw [← hlen] at hrun
    rw [← append_assoc] at hvalue hvalue' hchanged ⊢
    rw [← append_assoc, ← append_assoc, commonPrefixLength,
      commonLength_append _ _ _ hij, getElem?_part, getElem?_part,
      slice_part] at hrun
    have hs := some.inj hrun
    rw [splitNodes_part, take_part, drop_part] at hs
    have hext : key ≠ [] → s'.nodes[path]? = some (.extension key none none) := by
      intro hkey
      rw [← hs]
      simp [nodes_insertNode, hkey, SparseNode.newExt]
    subst hs
    refine ⟨shows_fork hij (by simp) hext ?_ ?_ ?_ ?_ ?_ ?_, ?_, rfl⟩
    · simp [nodes_insertNode]
    · simp [nodes_insertNode, hij]
    · show s.values[path ++ key ++ [j] ++ rb]? = some value
      rw [append_assoc]
      exact hvalue
    · exact hchanged _ (prefix_append _ _)
    · exact hchanged _ ((prefix_append _ _).trans (prefix_append _ _))
    · refine .of_leaf ?_ ?_
      · simp
      · show s.values[path ++ key ++ [i] ++ (ra ++ [])]? = some value'
        rw [append_nil, append_assoc]
        exact hvalue'
    · exact (((Within.insertNode s _ prefix_rfl).trans (.insertNode _ _ (prefix_append _ _))).trans
        (.insertNode _ _ (extends_of_append (prefix_append _ _)))).trans
        (.insertNode _ _ (extends_of_append (prefix_append _ _)))

theorem newChild_spec (hpath : changed path = true)
    (hchildren : ∀ j, children j ≠ .empty → Shows c w changed s true (path ++ [j]) (children j))
    (hvalue : s.values[path ++ i :: r]? = some value) :
    Inserted c w changed binds (path ++ i :: r) path (.branch (update children i (.leaf r value))) s
      ((s.insertNode path (.branch ((stateMask children).setBit i) hash store)).insertNode
        (path ++ [i]) (.newLeaf r)) := by
  have hleaf : leaf r value ≠ .empty := nofun
  rw [← stateMask_update hleaf]
  have hwithin : Within (fun q => path ++ [i] <+: q ∨ q = path) binds s
      ((s.insertNode path (.branch (stateMask (update children i (.leaf r value)))
        hash store)).insertNode (path ++ [i]) (.newLeaf r)) :=
    (Within.insertNode s _ (.inr rfl)).trans (.insertNode _ _ (.inl prefix_rfl))
  refine ⟨.update_child ((nodes_insertNode_ne _ _ (by simp)).trans (nodes_insertNode_self _ _ _))
    hpath hchildren hwithin fun _ => .of_leaf (nodes_insertNode_self _ _ _) ?_, ?_, rfl⟩
  · rw [append_assoc]
    exact hvalue
  · refine hwithin.mono ?_
    rintro q (hq | rfl)
    · exact extends_of_append hq
    · exact prefix_rfl

/-- The value of a leaf that is there is written. -/
theorem Shows.overwrite (hshows : Shows c w changed s true path t) (hwf : t.WF n)
    (hlength : r.length = n) (hlookup : t.lookup r = some old) :
    (∀ q, q <+: path ++ r → changed q = true) →
      (∀ q hash, q <+: path ++ r → s.nodes[q]? ≠ some (.hash hash)) →
      Shows c w changed { s with values := s.values.insert (path ++ r) value } true path
      (t.insert r value) := by
  induction t generalizing n path r with
  | empty => cases hlookup
  | leaf key value' =>
    intro hchanged hhash
    have hr : r = key := eq_of_lookup_leaf hlookup
    subst hr
    rw [Tree.insert, if_pos rfl]
    rcases hshows with (⟨⟨⟩, _⟩ | ⟨hash, hnode, _⟩) | ⟨hash, hnode, _, _⟩
    · exact absurd hnode (hhash path hash (prefix_append _ _))
    · refine .inr ⟨hash, hnode, get_insert_self _ _ _, fun hch => ?_⟩
      rw [hchanged _ prefix_rfl] at hch
      cases hch
  | ext key child ih =>
    intro hchanged hhash
    obtain ⟨_, _, m, rfl, hchild⟩ := hwf.resolve_left (by simp)
    obtain ⟨r, rfl⟩ := prefix_of_lookup_ext hlookup
    rw [lookup_ext_append] at hlookup
    rw [Tree.insert, if_pos (prefix_append _ _), drop_left]
    rcases hshows with ⟨⟨⟨⟩, _⟩ | ⟨hash, hnode, _⟩, _⟩ | ⟨hash, store, hnode, _, hbelow⟩
    · exact absurd hnode (hhash path hash (prefix_append _ _))
    · have hr : r.length = m := by
        rw [length_append] at hlength
        omega
      rw [← append_assoc] at hchanged hhash ⊢
      exact .of_ext hnode (hchanged _ (extends_of_append (prefix_append _ _)))
        (ih hbelow (.inr hchild) hr hlookup hchanged hhash)
  | branch children ih =>
    intro hchanged hhash
    obtain ⟨m, rfl, hchildren, _⟩ := hwf.resolve_left (by simp)
    cases r with
    | nil => cases hlookup
    | cons i r =>
      have hlength' := succ.inj hlength
      have hi : children i ≠ .empty := by
        intro hempty
        rw [lookup_branch_cons, hempty] at hlookup
        cases hlookup
      rcases hshows with ⟨⟨⟨⟩, _⟩ | ⟨hash, hnode, _⟩, _⟩ | ⟨hash, store, hnode, _, hbelow⟩
      · exact absurd hnode (hhash path hash (prefix_append _ _))
      have hins := (insert_spec value (hchildren i) hlength').1.ne_empty
      rw [← setBit_of_set (stateMask_iff.mpr hi), ← stateMask_update hins] at hnode
      rw [append_cons] at hchanged hhash ⊢
      have hwithin : Within (fun q => path ++ [i] <+: q ∨ q = path) (fun _ _ => True) s
          { s with values := s.values.insert (path ++ [i] ++ r) value } := by
        refine ⟨fun _ _ => rfl, fun q => ?_, rfl, rfl⟩
        by_cases hq : path ++ [i] ++ r = q
        · subst hq
          exact .inr ⟨value, .inl (prefix_append _ _), trivial, get_insert_self _ _ _⟩
        · exact .inl (get_insert_ne hq)
      exact .update_child hnode (hchanged _ (extends_of_append (prefix_append _ _))) hbelow hwithin
        (fun _ => ih i (hbelow i hi) (hchildren i) hlength' hlookup hchanged hhash)

variable [DecidableEq H] {provider : TrieNodeProvider B H}

/-- A node that is needed is revealed through the provider. -/
theorem revealBlinded_spec (hw : w.Reveals c) (hprovider : w.Provides c provider)
    (hgood : t.Good n) (hbinds : ∀ r value, t.lookup r = some value → binds (path ++ r) value)
    (h : Shows c w changed s true path t)
    (hrun : revealBlinded c fuel provider s path = some (.ok (), s')) :
    RevealedAt c w changed binds path t s s' := by
  rw [revealBlinded] at hrun
  obtain ⟨node, hnode⟩ := h.some_node
  rw [hnode] at hrun
  dsimp only at hrun
  split at hrun
  · next hhash =>
    cases node with
    | hash hash =>
      obtain ⟨hrlp, horigin⟩ := h.of_hash hgood hnode
      obtain ⟨treeMask, hashMask, hprov⟩ := hprovider path t hash horigin hrlp
      rw [hprov] at hrun
      dsimp only at hrun
      rw [c.decode_trieNode] at hrun
      exact (revealNode_spec hw hgood horigin hbinds h hrun).toRevealedAt
    | _ => nomatch hhash
  · cases hrun
    exact ⟨h, .refl s⟩

/-- An extension with another path is split; its child stays where it is. -/
theorem splitExtension_spec (hw : w.Reveals c) (hprovider : w.Provides c provider)
    (hgood : (ext key child).Good n) (hlength : r.length = n) (hkey : ¬ key <+: r)
    (hchanged : ∀ q, q <+: path ++ r → changed q = true)
    (hbinds : ∀ q value, child.lookup q = some value → binds (path ++ key ++ q) value)
    (hvalue : s.values[path ++ r]? = some value)
    (hshows : Shows c w changed s true (path ++ key) child)
    (hrun : splitExtension c fuel provider s path key hash store (path ++ r) = some (.ok (), s')) :
    Inserted c w changed binds (path ++ r) path ((ext key child).insert r value) s s' := by
  obtain ⟨hne, hbranch, m, rfl, hchild⟩ := hgood
  rw [Tree.insert, if_neg hkey]
  obtain ⟨key, i, ra, j, rb, rfl, rfl, hij⟩ :=
    exists_part hkey (not_prefix_of_longer (by omega) hkey)
  have hlen : path.length = (path ++ (key ++ i :: ra)).length - (key ++ i :: ra).length := by
    rw [length_append, Nat.add_sub_cancel]
  rw [splitExtension] at hrun
  dsimp only at hrun
  rw [← hlen] at hrun
  rw [← append_assoc] at hvalue hchanged hshows hbinds ⊢
  rw [← append_assoc, ← append_assoc, commonPrefixLength,
    commonLength_append _ _ _ hij, getElem?_part, getElem?_part,
    slice_part] at hrun
  dsimp only at hrun
  rw [Outcome.andThen_eq_ok] at hrun
  obtain ⟨_, s1, hreveal, hrun⟩ := hrun
  rw [splitNodes_part, take_part, drop_part] at hrun
  -- the child stays where it is, and may be revealed
  have hfirst : Within (· = path) binds s
      (s.insertNode path (.extension key hash store)) := .insertNode s _ rfl
  have hrevealed : RevealedAt c w changed binds (path ++ key ++ i :: ra) child
      (s.insertNode path (.extension key hash store)) s1 := by
    have hshows' : Shows c w changed (s.insertNode path (.extension key hash store)) true
        (path ++ key ++ i :: ra) child := by
      refine hfirst.shows ?_ hshows
      rintro q hq rfl
      rw [append_assoc] at hq
      exact not_extends_of_ne_nil (by simp) hq
    split at hreveal
    · exact revealBlinded_spec hw hprovider hchild hbinds hshows' hreveal
    · cases hreveal
      exact ⟨hshows', .refl _⟩
  -- the branch and the new leaf are not above it
  generalize hs2 : (s1.insertNode (path ++ key) (.newSplitBranch i j)).insertNode
    (path ++ key ++ [j]) (.newLeaf rb) = s2 at hrun
  have hmid : Within (fun q => q = path ++ key ∨ q = path ++ key ++ [j]) binds s1 s2 :=
    hs2 ▸ (Within.insertNode s1 _ (.inl rfl)).trans (.insertNode _ _ (.inr rfl))
  have hchild2 : Shows c w changed s2 true (path ++ key ++ i :: ra) child := by
    refine hmid.shows ?_ hrevealed.shows
    rintro q hq (rfl | rfl)
    · exact not_extends_of_ne_nil (cons_ne_nil _ _) hq
    · rw [append_cons] at hq
      exact not_extends_sibling hij (extends_of_append hq) prefix_rfl
  obtain ⟨hlast, hvalues2, hold⟩ : Within (fun q => q = path ++ key ++ [i]) binds s2 s' ∧
      s'.values = s2.values ∧
      Shows c w changed s' true (path ++ key ++ [i]) (under ra child) := by
    cases ra with
    | nil =>
      cases hrun
      rw [under_nil]
      exact ⟨.refl _, rfl, hchild2⟩
    | cons a ra =>
      cases hrun
      have hwithin : Within (fun q => q = path ++ key ++ [i]) binds s2
          (s2.insertNode (path ++ key ++ [i]) (.newExt (a :: ra))) := .insertNode _ _ rfl
      refine ⟨hwithin, rfl, ?_⟩
      rw [under_of_isBranch (cons_ne_nil _ _) hbranch]
      refine .of_newExt (nodes_insertNode_self _ _ _) (hwithin.shows ?_ ?_)
      · rintro q hq rfl
        exact not_extends_of_ne_nil (cons_ne_nil _ _) hq
      · rw [append_assoc]
        exact hchild2
  have hvalues : s'.values[path ++ key ++ j :: rb]? = s.values[path ++ key ++ j :: rb]? := by
    have hnot : ¬ path ++ key ++ i :: ra <+: path ++ key ++ j :: rb := by
      rw [append_assoc, append_assoc, prefix_append_right_inj]
      exact hkey
    rw [hvalues2, ← hs2]
    exact hrevealed.within.values_of_not hnot
  have hext : key ≠ [] → s'.nodes[path]? = some (.extension key hash store) := by
    intro hkey
    have hnot : ¬ path ++ key ++ i :: ra <+: path := by
      rw [append_assoc]
      exact not_extends_of_ne_nil (by simp)
    rw [hlast.nodes path (by simp), hmid.nodes path (by simp [hkey]),
      hrevealed.within.nodes path hnot]
    exact nodes_insertNode_self _ _ _
  refine ⟨shows_fork hij hchild.ne_empty hext ?_ ?_ ?_ ?_ ?_ hold, ?_, hvalues⟩
  · rw [hlast.nodes _ (by simp), ← hs2]
    simp [nodes_insertNode]
  · rw [hlast.nodes _ (by simp [Ne.symm hij]), ← hs2]
    simp
  · rw [append_assoc _ [j] rb]
    exact hvalues.trans hvalue
  · exact hchanged _ (prefix_append _ _)
  · exact hchanged _ ((prefix_append _ _).trans (prefix_append _ _))
  have hbelow : ∀ {q rest}, path ++ key ++ rest <+: q → path <+: q :=
    fun h => extends_of_append (extends_of_append h)
  refine (((hfirst.mono ?_).trans (hrevealed.within.mono fun q hq => hbelow hq)).trans
    (hmid.mono ?_)).trans (hlast.mono ?_)
  · rintro q rfl
    exact prefix_rfl
  · rintro q (rfl | rfl)
    · exact prefix_append _ _
    · exact hbelow prefix_rfl
  · rintro q rfl
    exact hbelow prefix_rfl

/-! ## The walk -/

/-- **THE WALK** of `update_leaf` inserts the key. -/
theorem updateLeafLoop_spec (hw : w.Reveals c) (hprovider : w.Provides c provider)
    (hchanged : ∀ q, q <+: fullPath → changed q = true) (hwf : t.WF n) (hlength : r.length = n)
    (hpath : path ++ r = fullPath) (hroot : t = .empty → path = [])
    (hbinds : ∀ q value, t.lookup q = some value → binds (path ++ q) value)
    (hvalue : s.values[fullPath]? = some value) (hshows : Shows c w changed s true path t)
    (hrun : updateLeafLoop c provider fullPath fuel path s = some (.ok (), s')) :
    Inserted c w changed binds fullPath path (t.insert r value) s s' := by
  induction t generalizing n path r fuel s s' with
  | empty =>
    cases fuel with
    | zero => cases hrun
    | succ fuel =>
      have hnil := hroot rfl
      subst hnil hpath
      rw [updateLeafLoop, show s.nodes[([] : Nibbles)]? = some .empty from hshows] at hrun
      cases hrun
      exact ⟨.of_leaf (nodes_insertNode_self _ _ _) hvalue, .insertNode s _ prefix_rfl, rfl⟩
  | leaf key value' =>
    cases fuel with
    | zero => cases hrun
    | succ fuel =>
      subst hpath
      have hkey : key.length = n := hwf.resolve_left (by simp)
      rw [updateLeafLoop] at hrun
      rcases hshows with (⟨⟨⟩, _⟩ | ⟨hash, hnode, _⟩) | ⟨hash, hnode, hvalue', _⟩
      · rw [hnode] at hrun
        cases hrun
      · rw [hnode] at hrun
        obtain ⟨s1, hsplit, heq⟩ := map_eq_some_iff.mp hrun
        cases heq
        exact splitLeaf_spec hchanged (hlength.trans hkey.symm) hvalue hvalue' hsplit
  | ext key child ih =>
    cases fuel with
    | zero => cases hrun
    | succ fuel =>
      subst hpath
      have hgood := hwf.resolve_left (by simp)
      have hbinds' : ∀ q value, child.lookup q = some value →
          binds (path ++ key ++ q) value := by
        intro q value hq
        rw [append_assoc]
        exact hbinds _ _ ((lookup_ext_append key q child).trans hq)
      rw [updateLeafLoop] at hrun
      rcases hshows with ⟨⟨⟨⟩, _⟩ | ⟨hash, hnode, _⟩, _⟩ | ⟨hash, store, hnode, _, hbelow⟩
      · rw [hnode] at hrun
        cases hrun
      rw [hnode] at hrun
      dsimp only at hrun
      split at hrun
      · next hpre =>
        -- the path goes on below the extension
        rw [prefix_append_right_inj] at hpre
        obtain ⟨r, rfl⟩ := hpre
        obtain ⟨hne, _, m, rfl, hchild⟩ := hgood
        rw [length_append] at hlength
        have hr : r.length = m := by omega
        have hrest := ih (.inr hchild) hr (append_assoc path key r)
          (absurd · hchild.ne_empty) hbinds' hvalue hbelow hrun
        rw [Tree.insert, if_pos (prefix_append _ _), drop_left]
        rw [← hrest.within.nodes path (not_extends_of_ne_nil hne)] at hnode
        exact ⟨.of_ext hnode (hchanged _ (prefix_append _ _)) hrest.shows,
          hrest.within.mono fun q => extends_of_append, hrest.value⟩
      · next hpre =>
        rw [prefix_append_right_inj] at hpre
        exact splitExtension_spec hw hprovider hgood hlength hpre hchanged hbinds' hvalue
          hbelow hrun
  | branch children ih =>
    cases fuel with
    | zero => cases hrun
    | succ fuel =>
      subst hpath
      obtain ⟨m, rfl, hchildren, _⟩ := hwf.resolve_left (by simp)
      rw [updateLeafLoop] at hrun
      rcases hshows with ⟨⟨⟨⟩, _⟩ | ⟨hash, hnode, _⟩, _⟩ | ⟨hash, store, hnode, _, hbelow⟩
      · rw [hnode] at hrun
        cases hrun
      cases r with
      | nil => cases hlength
      | cons i r =>
        have hlength' := succ.inj hlength
        have hpath : changed path = true := hchanged _ (prefix_append _ _)
        rw [hnode, getElem?_part, drop_part] at hrun
        dsimp only at hrun
        split at hrun
        · next hmask =>
          have hi := stateMask_iff.mp hmask
          have hrest := ih i (hchildren i) hlength' (append_assoc path [i] r)
            (absurd · hi) (fun q value hq => by
              rw [append_assoc]
              exact hbinds (i :: q) value hq) hvalue (hbelow i hi) hrun
          have hins := (insert_spec value (hchildren i) hlength').1.ne_empty
          rw [← hrest.within.nodes path (not_extends_of_ne_nil (cons_ne_nil _ _)),
            ← setBit_of_set hmask, ← stateMask_update hins] at hnode
          exact ⟨.update_child hnode hpath hbelow
            (hrest.within.mono fun q => .inl) fun _ => hrest.shows,
            hrest.within.mono fun q => extends_of_append, hrest.value⟩
        · next hmask =>
          have hempty : children i = .empty := by
            by_contra hne
            exact hmask (stateMask_iff.mpr hne)
          cases hrun
          rw [Tree.insert, hempty, Tree.insert]
          exact newChild_spec hpath hbelow hvalue

/-! ## The call -/

/-- **THE TRIE** stands for a tree that binds keys of 64 nibbles. -/
structure Stands (c : Codec V B H) (w : Memory V H) (s : SerialSparseTrie V H)
    (t : Tree 16 V) : Prop where
  wf : t.WF 64
  shows : Shows c w s.prefixSet.changed s true [] t
  values : ∀ key, s.values[key]? ≠ none → t.lookup key ≠ none

/-- No node on the path of a key is a hash. -/
def Open (s : SerialSparseTrie V H) (key : Nibbles) : Prop :=
  ∀ q hash, q <+: key → s.nodes[q]? ≠ some (.hash hash)

/-- **UPDATING A LEAF**: a key that is bound is only updated where no hash is on its path. -/
theorem updateLeaf_spec (hw : w.Reveals c) (hprovider : w.Provides c provider)
    (h : Stands c w s t) (hlength : key.length = 64) (hopen : t.lookup key ≠ none → s.Open key)
    (hrun : updateLeaf c fuel provider s key value = some (.ok (), s')) :
    Stands c w s' (t.insert key value) ∧ s'.updates = s.updates := by
  have hins := insert_spec value h.wf hlength
  have hchanged := s.prefixSet.changed_insert_of_extends key
  have hless := s.prefixSet.not_changed_of_insert key
  rw [updateLeaf] at hrun
  split at hrun
  · next hexisting =>
    have hbound := h.values key (isSome_iff_ne_none.mp hexisting)
    obtain ⟨old, hlookup⟩ := ne_none_iff_exists'.mp hbound
    cases hrun
    have hshows : Shows c w (s.prefixSet.insert key).changed
        { s with prefixSet := s.prefixSet.insert key } true [] t :=
      h.shows.congr (fun _ _ => rfl) (fun _ _ _ => id) (fun _ _ => rfl) fun q _ => hless q
    refine ⟨⟨.inr hins.1, hshows.overwrite h.wf hlength hlookup hchanged (hopen hbound),
      fun q hq => ?_⟩, rfl⟩
    rw [hins.2]
    by_cases hqk : q = key
    · rw [if_pos hqk]
      nofun
    · rw [if_neg hqk]
      refine h.values q fun hnone => hq ?_
      exact (get_insert_ne (Ne.symm hqk)).trans hnone
  · next hexisting =>
    have hnone : s.values[key]? = none := by
      cases hv : s.values[key]? with
      | none => rfl
      | some old => rw [hv] at hexisting; exact absurd rfl hexisting
    have hshows : Shows c w (s.prefixSet.insert key).changed
        { s with
          prefixSet := s.prefixSet.insert key
          values := s.values.insert key value } true [] t := by
      refine h.shows.congr (fun _ _ => rfl) (fun q v _ hq => ?_) (fun _ _ => rfl)
        (fun q _ => hless q)
      refine (get_insert_ne ?_).trans hq
      rintro rfl
      exact nomatch hnone.symm.trans hq
    have hdone : Inserted c w (s.prefixSet.insert key).changed
        (t.lookup · = some ·) key [] (t.insert key value) _ s' :=
      updateLeafLoop_spec hw hprovider hchanged h.wf hlength rfl (fun _ => rfl)
        (fun q v hq => hq) (get_insert_self s.values key value) hshows hrun
    refine ⟨⟨.inr hins.1, ?_, fun q hq => ?_⟩, hdone.within.updates⟩
    · rw [hdone.within.prefixSet]
      exact hdone.shows
    rw [hins.2]
    by_cases hqk : q = key
    · rw [if_pos hqk]
      nofun
    · rw [if_neg hqk]
      rcases hdone.within.values q with heq | ⟨v', _, hbound, _⟩
      · refine h.values q (fun hnone => hq ?_)
        exact heq.trans ((get_insert_ne (Ne.symm hqk)).trans hnone)
      · rw [show t.lookup q = some v' from hbound]
        nofun

end SerialSparseTrie

end Trie
