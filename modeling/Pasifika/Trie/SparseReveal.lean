import Pasifika.Trie.SparseShape

/-! # Revealing nodes

Revealing the node of a subtree where a hash of it stands, or nothing, keeps what the
trie stands for: the children of the node are found below it, as hashes or revealed
with it, or as they were known before. Only the subtree changes, and the values of
leaves that are revealed are bindings of it. -/

namespace Trie

open OrderedMap Patricia List Codec Nibbles

/-- What a hash stands for: subtrees together with those below them, and whatever is
    remembered of them. -/
structure Memory.Reveals {V B H : Type} (c : Codec V B H) (w : Memory V H) : Prop where
  below : ∀ {path : Nibbles} {t : Tree 16 V} {r : Nibbles} {u : Tree 16 V},
    w.origin path t → t.At r u → w.origin (path ++ r) u
  cached : ∀ {e : Option (BranchNodeCompact H)} {path : Nibbles} {t : Tree 16 V} {hash : H}
    {store : Option Bool},
    w.origin path t → c.rlpNode t = .word hash → w.cached e path t (some hash) store
  fresh : ∀ {e : Option (BranchNodeCompact H)} {path : Nibbles} {t : Tree 16 V},
    w.origin path t → w.cached e path t none none

namespace SerialSparseTrie

variable {V B H : Type} {c : Codec V B H} {w : Memory V H}
variable {changed : Nibbles → Bool} {s s' : SerialSparseTrie V H}

/-! ## Masks are not part of the tree -/

@[simp] theorem nodes_insertMasks (s : SerialSparseTrie V H) (path : Nibbles)
    (masks : TrieMasks) : (s.insertMasks path masks).nodes = s.nodes := by
  obtain ⟨hashMask, treeMask⟩ := masks
  cases hashMask <;> cases treeMask <;> rfl

@[simp] theorem values_insertMasks (s : SerialSparseTrie V H) (path : Nibbles)
    (masks : TrieMasks) : (s.insertMasks path masks).values = s.values := by
  obtain ⟨hashMask, treeMask⟩ := masks
  cases hashMask <;> cases treeMask <;> rfl

theorem within_insertMasks (s : SerialSparseTrie V H) (path : Nibbles) (masks : TrieMasks) :
    Within region binds s (s.insertMasks path masks) := by
  refine ⟨fun q _ => by rw [nodes_insertMasks], fun q => .inl (by rw [values_insertMasks]), ?_, ?_⟩
  · obtain ⟨hashMask, treeMask⟩ := masks
    cases hashMask <;> cases treeMask <;> rfl
  · obtain ⟨hashMask, treeMask⟩ := masks
    cases hashMask <;> cases treeMask <;> rfl

variable {t : Tree 16 V} {vis : Bool} {path key : Nibbles} {children : Fin 16 → Tree 16 V}
variable {hash : H} {n : ℕ} {masks : TrieMasks}

theorem shows_insertMasks (path : Nibbles) (masks : TrieMasks) (h : Shows c w changed s vis q t) :
    Shows c w changed (s.insertMasks path masks) vis q t := by
  have hwithin : Within (fun _ => False) (fun _ _ => False) s (s.insertMasks path masks) :=
    within_insertMasks s path masks
  exact hwithin.shows (fun _ _ => id) h

/-! ## Nodes that are not revealed -/

/-- There is a hash at a path, or nothing. -/
def Hidden (s : SerialSparseTrie V H) (path : Nibbles) : Prop :=
  s.nodes[path]? = none ∨ ∃ hash, s.nodes[path]? = some (.hash hash)

theorem Hidden.ne (h : Hidden s path) (hnode : s.nodes[path]? = some node) :
    node.isHash = true := by
  rcases h with h | ⟨hash, h⟩
  · exact nomatch h.symm.trans hnode
  · cases h.symm.trans hnode
    rfl

theorem Shows.hidden_leaf (hidden : Hidden s path)
    (h : Shows c w changed s vis path (.leaf key value)) :
    Blinded c w s vis path (.leaf key value) := by
  rcases h with h | ⟨hash, hnode, _⟩
  · exact h
  · exact nomatch hidden.ne hnode

theorem Shows.hidden_ext (hidden : Hidden s path)
    (h : Shows c w changed s vis path (.ext key child)) :
    Blinded c w s vis path (.ext key child) ∧
      Shows c w (fun _ => false) s false (path ++ key) child := by
  rcases h with h | ⟨hash, store, hnode, _⟩
  · exact h
  · exact nomatch hidden.ne hnode

theorem Shows.hidden_branch (hidden : Hidden s path)
    (h : Shows c w changed s vis path (.branch children)) :
    Blinded c w s vis path (.branch children) ∧
      ∀ i, children i ≠ .empty →
        Shows c w (fun _ => false) s false (path ++ [i]) (children i) := by
  rcases h with h | ⟨hash, store, hnode, _⟩
  · exact h
  · exact nomatch hidden.ne hnode

theorem Blinded.rlpNode_eq (h : Blinded c w s vis path t)
    (hnode : s.nodes[path]? = some (.hash hash)) :
    c.rlpNode t = .word hash := by
  rcases h with ⟨_, h⟩ | ⟨hash', h, hrlp, _⟩
  · exact nomatch h.symm.trans hnode
  · cases h.symm.trans hnode
    exact hrlp

/-- A hash is that of the subtree it stands for. -/
theorem Shows.of_hash (hgood : t.Good n) (hnode : s.nodes[path]? = some (.hash hash))
    (h : Shows c w changed s vis path t) : c.rlpNode t = .word hash ∧ w.origin path t := by
  have hidden : Hidden s path := .inr ⟨hash, hnode⟩
  have hblinded : Blinded c w s vis path t := by
    cases t with
    | empty => exact absurd hgood id
    | leaf key value => exact h.hidden_leaf hidden
    | ext key child => exact (h.hidden_ext hidden).1
    | branch children => exact (h.hidden_branch hidden).1
  refine ⟨hblinded.rlpNode_eq hnode, ?_⟩
  rcases hblinded with ⟨_, hnone⟩ | ⟨_, _, _, horigin⟩
  · cases hnone.symm.trans hnode
  · exact horigin

theorem Shows.insert_hash (hgood : t.Good n) (hnone : s.nodes[path]? = none)
    (hrlp : c.rlpNode t = .word hash) (horigin : w.origin path t)
    (h : Shows c w changed s false path t) :
    Shows c w changed (s.insertNode path (.hash hash)) true path t := by
  have hblinded : Blinded c w (s.insertNode path (.hash hash)) true path t :=
    .inr ⟨hash, nodes_insertNode_self _ _ _, hrlp, horigin⟩
  -- nothing changes below the path itself
  have hbelow : ∀ {key} {u}, key ≠ [] →
      Shows c w (fun _ => false) s false (path ++ key) u →
        Shows c w (fun _ => false) (s.insertNode path (.hash hash)) false (path ++ key) u := by
    intro key u hkey hu
    have hwithin : Within (· = path) (fun _ _ => False) s
        (s.insertNode path (.hash hash)) := .insertNode s _ rfl
    refine hwithin.shows ?_ hu
    rintro q hq rfl
    exact not_extends_of_ne_nil hkey hq
  cases t with
  | empty => exact absurd hgood id
  | leaf key value => exact .inl hblinded
  | ext key child => exact .inl ⟨hblinded, hbelow hgood.1 (h.hidden_ext (.inl hnone)).2⟩
  | branch children =>
    refine .inl ⟨hblinded, fun i hi => ?_⟩
    exact hbelow (cons_ne_nil _ _) ((h.hidden_branch (.inl hnone)).2 i hi)

/-! ## What revealing leaves behind -/

/-- The subtree is revealed, and nothing else changed. -/
structure RevealedAt (c : Codec V B H) (w : Memory V H) (changed : Nibbles → Bool)
    (binds : Nibbles → V → Prop) (path : Nibbles) (t : Tree 16 V)
    (s s' : SerialSparseTrie V H) : Prop where
  shows : Shows c w changed s' true path t
  within : Within (fun q => path <+: q) binds s s'

/-- The node at the top of the subtree is known. -/
structure OpenedAt (c : Codec V B H) (w : Memory V H) (changed : Nibbles → Bool)
    (binds : Nibbles → V → Prop) (path : Nibbles) (t : Tree 16 V)
    (s s' : SerialSparseTrie V H) : Prop extends RevealedAt c w changed binds path t s s' where
  opened : ∀ hash, s'.nodes[path]? ≠ some (.hash hash)

/-- What `reveal_node` does with a subtree. -/
def RevealsTo (c : Codec V B H) (w : Memory V H) (changed : Nibbles → Bool)
    (binds : Nibbles → V → Prop)
    (reveal : SerialSparseTrie V H → Nibbles → TrieNode V B H → TrieMasks →
      Outcome H (SerialSparseTrie V H) Unit) (path : Nibbles) (t : Tree 16 V) : Prop :=
  ∀ {s s' : SerialSparseTrie V H} {vis : Bool} {masks : TrieMasks},
    Shows c w changed s vis path t → reveal s path (c.trieNode t) masks = some (.ok (), s') →
      OpenedAt c w changed binds path t s s'

variable {binds : Nibbles → V → Prop}

/-- The masks come first. -/
theorem OpenedAt.of_insertMasks (h : OpenedAt c w changed binds path t (s.insertMasks q masks) s') :
    OpenedAt c w changed binds path t s s' :=
  ⟨⟨h.shows, (within_insertMasks s q masks).trans h.within⟩, h.opened⟩

variable {reveal : SerialSparseTrie V H → Nibbles → TrieNode V B H → TrieMasks →
  Outcome H (SerialSparseTrie V H) Unit}

variable [DecidableEq H]

theorem revealNodeOrHash_spec (hgood : t.Good n)
    (hreveal : RevealsTo c w changed binds reveal path t) (horigin : w.origin path t)
    (h : Shows c w changed s false path t)
    (hrun : revealNodeOrHash c reveal s path (c.rlpNode t) = some (.ok (), s')) :
    RevealedAt c w changed binds path t s s' := by
  cases hrlp : c.rlpNode t with
  | word hash =>
    rw [hrlp, revealNodeOrHash] at hrun
    have hknown : ∀ node, s.nodes[path]? = some node → s' = s →
        RevealedAt c w changed binds path t s s' := by
      rintro node hnode rfl
      exact ⟨h.visible (by rw [hnode]; exact fun h => nomatch h), .refl s'⟩
    cases hnode : s.nodes[path]? with
    | none =>
      rw [hnode] at hrun
      cases hrun
      exact ⟨h.insert_hash hgood hnode hrlp horigin, .insertNode s _ prefix_rfl⟩
    | some node =>
      rw [hnode] at hrun
      cases node with
      | hash previousHash =>
        dsimp only at hrun
        split at hrun
        · nomatch hrun
        · exact hknown _ hnode (by cases hrun; rfl)
      | _ => exact hknown _ hnode (by cases hrun; rfl)
  | raw rlp =>
    rw [hrlp, revealNodeOrHash] at hrun
    rw [c.rlpNode_eq hgood.ne_empty] at hrlp
    rw [c.decode_of_rlp hrlp] at hrun
    exact (hreveal h hrun).toRevealedAt

/-- The children of a branch are revealed one after the other. -/
theorem revealChildren_spec (hnodup : bits.Nodup) (hgood : ∀ i ∈ bits, (children i).Good m)
    (hreveal : ∀ i ∈ bits, RevealsTo c w changed binds reveal (path ++ [i]) (children i))
    (horigin : ∀ i ∈ bits, w.origin (path ++ [i]) (children i))
    (hshows : ∀ i ∈ bits, Shows c w changed s false (path ++ [i]) (children i))
    (hrun : revealChildren c reveal path bits (bits.map fun i => c.rlpNode (children i)) s = some
      (.ok (), s')) :
    (∀ i ∈ bits, Shows c w changed s' true (path ++ [i]) (children i)) ∧
      Within (fun q => ∃ i ∈ bits, path ++ [i] <+: q) binds s s' := by
  induction bits generalizing s s' with
  | nil =>
    cases hrun
    exact ⟨nofun, .refl s⟩
  | cons i bits ih =>
    obtain ⟨hi, hnodup⟩ := nodup_cons.mp hnodup
    rw [map_cons, revealChildren, Outcome.andThen_eq_ok] at hrun
    obtain ⟨_, s1, hrun1, hrun⟩ := hrun
    have hfirst := revealNodeOrHash_spec (hgood i mem_cons_self)
      (hreveal i mem_cons_self) (horigin i mem_cons_self)
      (hshows i mem_cons_self) hrun1
    -- the other children are as they were
    have hothers : ∀ j ∈ bits, Shows c w changed s1 false (path ++ [j]) (children j) := by
      intro j hj
      refine hfirst.within.shows (fun q hq => ?_) (hshows j (mem_cons_of_mem _ hj))
      exact not_extends_sibling (fun heq => hi (heq ▸ hj)) hq
    obtain ⟨hrest, hwithin⟩ := ih hnodup (fun j hj => hgood j (mem_cons_of_mem _ hj))
      (fun j hj => hreveal j (mem_cons_of_mem _ hj))
      (fun j hj => horigin j (mem_cons_of_mem _ hj)) hothers hrun
    have hself : Shows c w changed s' true (path ++ [i]) (children i) := by
      refine hwithin.shows ?_ hfirst.shows
      rintro q hq ⟨k, hk, hqk⟩
      have hne : k ≠ i := fun heq => hi (heq ▸ hk)
      exact not_extends_sibling hne hqk hq
    refine ⟨fun j hj => ?_, (hfirst.within.mono ?_).trans (hwithin.mono ?_)⟩
    · rcases mem_cons.mp hj with rfl | hj
      · exact hself
      · exact hrest j hj
    · exact fun q hq => ⟨i, mem_cons_self, hq⟩
    · rintro q ⟨j, hj, hq⟩
      exact ⟨j, mem_cons_of_mem _ hj, hq⟩

/-- A new node is stored, and its subtree is revealed. -/
theorem revealNode_cases (hshows : Shows c w changed s vis path t)
    (hrun : revealNode c (fuel + 1) s path node masks = some (.ok (), s')) :
    OpenedAt c w changed binds path t s s' ∨
      (Hidden (s.insertMasks path masks) path ∧
        revealNewNode c (revealNode c fuel) (s.insertMasks path masks) path node masks =
          some (.ok (), s')) := by
  rw [revealNode] at hrun
  split at hrun
  · next hany =>
    cases hrun
    refine .inl ⟨⟨hshows.visible fun hnone => ?_, .refl s⟩, fun hash hnode => ?_⟩
    · rw [hnone] at hany
      nomatch hany
    · rw [hnode] at hany
      nomatch hany
  · next hany =>
    refine .inr ⟨?_, hrun⟩
    rw [Hidden, nodes_insertMasks]
    cases hnode : s.nodes[path]? with
    | none => exact .inl rfl
    | some node =>
      cases node with
      | hash hash => exact .inr ⟨hash, rfl⟩
      | _ => rw [hnode] at hany; exact absurd rfl hany

theorem revealNewNode_leaf (hbinds : binds (path ++ key) value) (hidden : Hidden s path)
    (hshows : Shows c w changed s vis path (.leaf key value))
    (hrun : revealNewNode c reveal s path (.leaf key value) masks = some (.ok (), s')) :
    OpenedAt c w changed binds path (.leaf key value) s s' := by
  have hblinded := hshows.hidden_leaf hidden
  have hstored : ∀ hash, (∀ h, hash = some h → c.rlpNode (.leaf key value) = .word h) →
      s' = { s.insertNode path (.leaf key hash) with
        values := s.values.insert (path ++ key) value } →
      OpenedAt c w changed binds path (.leaf key value) s s' := by
    rintro hash hhash rfl
    have hnode := nodes_insertNode_self s path (.leaf key hash)
    refine ⟨⟨.inr ⟨hash, hnode, get_insert_self _ _ _, fun _ => hhash⟩, ?_⟩,
      fun h hh => nomatch hnode.symm.trans hh⟩
    refine ⟨fun q hq => get_insert_ne ?_, fun q => ?_, rfl, rfl⟩
    · rintro rfl
      exact hq prefix_rfl
    · by_cases hq : path ++ key = q
      · subst hq
        exact .inr ⟨value, prefix_append _ _, hbinds, get_insert_self _ _ _⟩
      · exact .inl (get_insert_ne hq)
  rw [revealNewNode] at hrun
  rcases hidden with hnone | ⟨hash, hnode⟩
  · rw [hnone] at hrun
    cases hrun
    exact hstored none nofun rfl
  · rw [hnode] at hrun
    cases hrun
    refine hstored (some hash) (fun h hh => ?_) rfl
    cases hh
    exact hblinded.rlpNode_eq hnode

/-- An extension is revealed, and its child with it or as a hash. -/
theorem revealNewNode_ext (hw : w.Reveals c) (hgood : (Tree.ext key child).Good n)
    (horigin : w.origin path (.ext key child))
    (hreveal : RevealsTo c w changed binds reveal (path ++ key) child) (hidden : Hidden s path)
    (hshows : Shows c w changed s vis path (.ext key child))
    (hrun : revealNewNode c reveal s path (c.trieNode (.ext key child)) masks = some (.ok (), s')) :
    OpenedAt c w changed binds path (.ext key child) s s' := by
  obtain ⟨hblinded, hbelow⟩ := hshows.hidden_ext hidden
  obtain ⟨hkey, _, m, _, hchild⟩ := hgood
  have hstored : ∀ hash, (∀ e, w.cached e path (.ext key child) hash none) →
      revealNodeOrHash c reveal (s.insertNode path (.extension key hash none)) (path ++ key)
        (c.rlpNode child) = some (.ok (), s') →
      OpenedAt c w changed binds path (.ext key child) s s' := by
    intro hash hhash hrun
    have hwithin : Within (· = path) binds s
        (s.insertNode path (.extension key hash none)) := .insertNode s _ rfl
    have hbelow' : Shows c w changed (s.insertNode path (.extension key hash none)) false
        (path ++ key) child := by
      refine hwithin.shows ?_ (hbelow.weaken fun _ _ _ => rfl)
      rintro q hq rfl
      exact not_extends_of_ne_nil hkey hq
    have hrest := revealNodeOrHash_spec hchild hreveal
      (by simpa using hw.below horigin (.ext (.here child))) hbelow' hrun
    have hnode : s'.nodes[path]? = some (.extension key hash none) := by
      rw [hrest.within.nodes path (not_extends_of_ne_nil hkey)]
      exact nodes_insertNode_self _ _ _
    refine ⟨⟨.inr ⟨hash, none, hnode, fun _ => hhash _, hrest.shows⟩, ?_⟩,
      fun h hh => nomatch hnode.symm.trans hh⟩
    refine (hwithin.mono ?_).trans (hrest.within.mono fun q => extends_of_append)
    rintro q rfl
    exact prefix_rfl
  rw [trieNode, revealNewNode] at hrun
  rcases hidden with hnone | ⟨hash, hnode⟩
  · rw [hnone] at hrun
    exact hstored none (fun e => hw.fresh horigin) hrun
  · rw [hnode] at hrun
    exact hstored (some hash) (fun e => hw.cached horigin (hblinded.rlpNode_eq hnode)) hrun

/-- A branch is revealed, after its children. -/
theorem revealNewNode_branch (hw : w.Reveals c) (hgood : (Tree.branch children).Good n)
    (horigin : w.origin path (.branch children))
    (hreveal : ∀ i, children i ≠ .empty →
      RevealsTo c w changed binds reveal (path ++ [i]) (children i)) (hidden : Hidden s path)
    (hshows : Shows c w changed s vis path (.branch children))
    (hrun : revealNewNode c reveal s path (c.trieNode (.branch children)) masks =
      some (.ok (), s')) :
    OpenedAt c w changed binds path (.branch children) s s' := by
  obtain ⟨hblinded, hbelow⟩ := hshows.hidden_branch hidden
  obtain ⟨m, _, hchildren, _⟩ := hgood
  have hbits : ∀ i ∈ (stateMask children).bits, children i ≠ .empty :=
    fun i hi => stateMask_iff.mp (TrieMask.mem_bits.mp hi)
  rw [trieNode, revealNewNode, length_map, TrieMask.countBits, if_neg (lt_irrefl _),
    Nat.sub_self, drop_zero, Outcome.andThen_eq_ok] at hrun
  obtain ⟨_, s1, hrun1, hrun⟩ := hrun
  obtain ⟨hshown, hwithin⟩ := revealChildren_spec (TrieMask.nodup_bits _)
    (fun i hi => (hchildren i).resolve_left (hbits i hi)) (fun i hi => hreveal i (hbits i hi))
    (fun i hi => hw.below horigin (.branch (hbits i hi) (.here _)))
    (fun i hi => (hbelow i (hbits i hi)).weaken fun _ _ _ => rfl) hrun1
  -- the children are below the path
  have hpath : s1.nodes[path]? = s.nodes[path]? := by
    refine hwithin.nodes path ?_
    rintro ⟨i, _, hle⟩
    exact not_extends_of_ne_nil (cons_ne_nil _ _) hle
  have hstored : ∀ hash store, (∀ e, w.cached e path (.branch children) hash store) →
      s' = s1.insertNode path (.branch (stateMask children) hash store) →
      OpenedAt c w changed binds path (.branch children) s s' := by
    rintro hash store hhash rfl
    have hlast : Within (· = path) binds s1
        (s1.insertNode path (.branch (stateMask children) hash store)) :=
      .insertNode s1 _ rfl
    have hnode := nodes_insertNode_self s1 path (.branch (stateMask children) hash store)
    refine ⟨⟨.inr ⟨hash, store, hnode, fun _ => hhash _, fun i hi => ?_⟩, ?_⟩,
      fun h hh => nomatch hnode.symm.trans hh⟩
    · refine hlast.shows ?_ (hshown i (TrieMask.mem_bits.mpr (stateMask_iff.mpr hi)))
      rintro q hq rfl
      exact not_extends_of_ne_nil (cons_ne_nil _ _) hq
    · refine (hwithin.mono ?_).trans (hlast.mono ?_)
      · rintro q ⟨i, _, hq⟩
        exact extends_of_append hq
      · rintro q rfl
        exact prefix_rfl
  rw [revealBranch, hpath] at hrun
  rcases hidden with hnone | ⟨hash, hnode⟩
  · rw [hnone] at hrun
    cases hrun
    exact hstored none none (fun e => hw.fresh horigin) rfl
  · rw [hnode] at hrun
    cases hrun
    exact hstored (some hash) _ (fun e => hw.cached horigin (hblinded.rlpNode_eq hnode)) rfl

/-- **REVEALING** the node of a subtree. -/
theorem revealNode_spec (hw : w.Reveals c) (hgood : t.Good n) :
    w.origin path t → (∀ r value, t.lookup r = some value → binds (path ++ r) value) →
      RevealsTo c w changed binds (revealNode c fuel) path t := by
  intro horigin hbinds s s' vis masks hshows hrun
  induction fuel generalizing t n path s s' vis masks with
  | zero => nomatch hrun
  | succ fuel ih =>
    rcases revealNode_cases hshows hrun with h | ⟨hidden, hrun⟩
    · exact h
    have hshows := shows_insertMasks path masks hshows
    cases t with
    | empty => exact absurd hgood id
    | leaf key value =>
      have hvalue := hbinds key value (if_pos rfl)
      exact (revealNewNode_leaf hvalue hidden hshows hrun).of_insertMasks
    | ext key child =>
      obtain ⟨_, _, m, _, hchild⟩ := id hgood
      have hreveal : RevealsTo c w changed binds (revealNode c fuel) (path ++ key) child := by
        refine ih hchild (by simpa using hw.below horigin (.ext (.here child))) ?_
        intro r value hr
        rw [append_assoc]
        exact hbinds _ _ ((Tree.lookup_ext_append key r child).trans hr)
      exact (revealNewNode_ext hw hgood horigin hreveal hidden hshows hrun).of_insertMasks
    | branch children =>
      obtain ⟨m, _, hchildren, _⟩ := id hgood
      have hreveal : ∀ i, children i ≠ .empty →
          RevealsTo c w changed binds (revealNode c fuel) (path ++ [i]) (children i) := by
        intro i hi
        refine ih ((hchildren i).resolve_left hi) (hw.below horigin (.branch hi (.here _))) ?_
        intro r value hr
        rw [append_assoc]
        exact hbinds (i :: r) value hr
      exact (revealNewNode_branch hw hgood horigin hreveal hidden hshows hrun).of_insertMasks

end SerialSparseTrie

end Trie
