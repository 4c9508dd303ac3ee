import Pasifika.Trie.SparseTrie

/-! # What a sparse trie stands for

`Shows` relates the maps of a sparse trie to the Patricia tree that it stands for: at
the path of every node of the tree there is the node, or a hash of it. Below a hash,
nodes may be known or not (`vis` is false there).

A remembered hash has to be right unless a key below the node CHANGED, and below a hash
it is right in any case. What else the trie remembers is a parameter (`Memory`):

  * `cached` — what is remembered at an extension or a branch, and in its update;
  * `typed` — which node types a subtree may have;
  * `origin` — which subtrees a hash may stand for, and at which paths. -/

namespace Trie

open Std OrderedMap Patricia List Nibbles

/-! ## Paths of different subtrees -/

namespace Nibbles

theorem not_extends_of_ne_nil (h : key ≠ []) : ¬ path ++ key <+: path := by
  intro hle
  have hlen := hle.length_le
  rw [List.length_append] at hlen
  have hpos := List.length_pos_iff.mpr h
  omega

theorem not_extends_sibling (hij : i ≠ j) (h : path ++ [i] <+: q) : ¬ path ++ [j] <+: q := by
  obtain ⟨rest, rfl⟩ := h
  rw [List.append_assoc, prefix_append_right_inj]
  rintro ⟨rest', hrest⟩
  exact hij (List.cons.inj hrest).1.symm

theorem extends_of_append (h : path ++ key <+: q) : path <+: q :=
  (prefix_append path key).trans h

end Nibbles

/-! ## The relation -/

/-- What is remembered of subtrees. -/
structure Memory (V H : Type) where
  cached : Option (BranchNodeCompact H) → Nibbles → Tree 16 V → Option H → Option Bool → Prop
  typed : Nibbles → Tree 16 V → SparseNodeType → Prop
  origin : Nibbles → Tree 16 V → Prop
  /-- Nothing need be remembered of an extension. -/
  forgets : ∀ e path key child, cached e path (.ext key child) none none

namespace SerialSparseTrie

variable {V B H : Type} (c : Codec V B H) (w : Memory V H)

/-- The update of a branch node. -/
def entry (s : SerialSparseTrie V H) (path : Nibbles) : Option (BranchNodeCompact H) :=
  s.updates.bind (fun updates => updates.updatedNodes[path]?)

/-- The node is a hash, or not known where it need not be. -/
def Blinded (s : SerialSparseTrie V H) (vis : Bool) (path : Nibbles) (t : Tree 16 V) : Prop :=
  (vis = false ∧ s.nodes[path]? = none) ∨
    ∃ hash, s.nodes[path]? = some (.hash hash) ∧ c.rlpNode t = .word hash ∧ w.origin path t

/-- **THE TREE** below a path. -/
def Shows : (Nibbles → Bool) → SerialSparseTrie V H → Bool → Nibbles → Tree 16 V → Prop
  | _, s, _, path, .empty => s.nodes[path]? = some .empty
  | changed, s, vis, path, .leaf key value =>
    Blinded c w s vis path (.leaf key value) ∨
      ∃ hash, s.nodes[path]? = some (.leaf key hash) ∧ s.values[path ++ key]? = some value ∧
        (changed (path ++ key) = false →
          ∀ h, hash = some h → c.rlpNode (.leaf key value) = .word h)
  | changed, s, vis, path, .ext key child =>
    (Blinded c w s vis path (.ext key child) ∧
      Shows (fun _ => false) s false (path ++ key) child) ∨
      ∃ hash store, s.nodes[path]? = some (.extension key hash store) ∧
        (changed path = false → w.cached (s.entry path) path (.ext key child) hash store) ∧
        Shows changed s true (path ++ key) child
  | changed, s, vis, path, .branch children =>
    (Blinded c w s vis path (.branch children) ∧
      ∀ i, children i ≠ .empty → Shows (fun _ => false) s false (path ++ [i]) (children i)) ∨
      ∃ hash store, s.nodes[path]? = some (.branch (Codec.stateMask children) hash store) ∧
        (changed path = false → w.cached (s.entry path) path (.branch children) hash store) ∧
        ∀ i, children i ≠ .empty → Shows changed s true (path ++ [i]) (children i)

variable {c w} {changed : Nibbles → Bool} {s s' : SerialSparseTrie V H}
  {t : Tree 16 V} {path : Nibbles} {vis : Bool}

theorem Blinded.congr (hnodes : s'.nodes[path]? = s.nodes[path]?) (h : Blinded c w s vis path t) :
    Blinded c w s' vis path t := by
  rw [Blinded, hnodes]
  exact h

/-- **FRAME**: the tree below a path depends on what is stored below the path. -/
theorem Shows.congr (h : Shows c w changed s vis path t)
    (hnodes : ∀ q, path <+: q → s'.nodes[q]? = s.nodes[q]?)
    (hvalues : ∀ q value, path <+: q → s.values[q]? = some value → s'.values[q]? = some value)
    (hentry : ∀ q, path <+: q → s'.entry q = s.entry q)
    (hchanged : ∀ q, path <+: q → changed' q = false → changed q = false) :
    Shows c w changed' s' vis path t := by
  induction t generalizing changed changed' vis path with
  | empty => exact (hnodes path prefix_rfl).trans h
  | leaf key value =>
    have hpath := hnodes path prefix_rfl
    rcases h with h | ⟨hash, hnode, hvalue, hcached⟩
    · exact .inl (h.congr hpath)
    · refine .inr ⟨hash, hpath.trans hnode, hvalues _ _ (prefix_append _ _) hvalue, ?_⟩
      exact fun hch => hcached (hchanged _ (prefix_append _ _) hch)
  | ext key child ih =>
    have hpath := hnodes path prefix_rfl
    have hchild : ∀ {changed changed' : Nibbles → Bool} {vis : Bool},
        (∀ q, path <+: q → changed' q = false → changed q = false) →
        Shows c w changed s vis (path ++ key) child →
          Shows c w changed' s' vis (path ++ key) child :=
      fun hch h => ih h (fun q hq => hnodes q (extends_of_append hq))
        (fun q value hq => hvalues q value (extends_of_append hq))
        (fun q hq => hentry q (extends_of_append hq))
        (fun q hq => hch q (extends_of_append hq))
    rcases h with ⟨h, hbelow⟩ | ⟨hash, store, hnode, hcached, hbelow⟩
    · exact .inl ⟨h.congr hpath, hchild (fun _ _ => id) hbelow⟩
    · refine .inr ⟨hash, store, hpath.trans hnode, fun hch => ?_, hchild hchanged hbelow⟩
      rw [hentry path prefix_rfl]
      exact hcached (hchanged path prefix_rfl hch)
  | branch children ih =>
    have hpath := hnodes path prefix_rfl
    have hchild : ∀ (i : Fin 16) {changed changed' : Nibbles → Bool} {vis : Bool},
        (∀ q, path <+: q → changed' q = false → changed q = false) →
        Shows c w changed s vis (path ++ [i]) (children i) →
          Shows c w changed' s' vis (path ++ [i]) (children i) :=
      fun i _ _ _ hch h => ih i h (fun q hq => hnodes q (extends_of_append hq))
        (fun q value hq => hvalues q value (extends_of_append hq))
        (fun q hq => hentry q (extends_of_append hq))
        (fun q hq => hch q (extends_of_append hq))
    rcases h with ⟨h, hbelow⟩ | ⟨hash, store, hnode, hcached, hbelow⟩
    · exact .inl ⟨h.congr hpath, fun i hi => hchild i (fun _ _ => id) (hbelow i hi)⟩
    · refine .inr ⟨hash, store, hpath.trans hnode, fun hch => ?_,
        fun i hi => hchild i hchanged (hbelow i hi)⟩
      rw [hentry path prefix_rfl]
      exact hcached (hchanged path prefix_rfl hch)

theorem Shows.weaken (h : Shows c w changed s vis path t)
    (hchanged : ∀ q, path <+: q → changed' q = false → changed q = false) :
    Shows c w changed' s vis path t :=
  h.congr (fun _ _ => rfl) (fun _ _ _ => id) (fun _ _ => rfl) hchanged

/-- Only whether the node itself is blinded depends on where it has to be visible. -/
theorem Shows.imp_blinded (h : Shows c w changed s vis path t)
    (himp : ∀ u : Tree 16 V, Blinded c w s vis path u → Blinded c w s vis' path u) :
    Shows c w changed s vis' path t := by
  cases t with
  | empty => exact h
  | leaf key value => exact h.imp_left (himp _)
  | ext key child => exact h.imp_left (fun h => ⟨himp _ h.1, h.2⟩)
  | branch children => exact h.imp_left fun h => ⟨himp _ h.1, h.2⟩

theorem Shows.visible (h : Shows c w changed s vis path t) (hnode : s.nodes[path]? ≠ none) :
    Shows c w changed s true path t :=
  h.imp_blinded fun _ h => .inr (h.resolve_left (hnode ·.2))

theorem Shows.some_node (h : Shows c w changed s true path t) :
    ∃ node, s.nodes[path]? = some node := by
  have hblinded : ∀ {u}, Blinded c w s true path u →
      ∃ node, s.nodes[path]? = some node := by
    rintro u (⟨⟨⟩, _⟩ | ⟨hash, hnode, _⟩)
    · exact ⟨_, hnode⟩
  cases t with
  | empty => exact ⟨_, h⟩
  | leaf key value =>
    rcases h with h | ⟨hash, hnode, _⟩
    · exact hblinded h
    · exact ⟨_, hnode⟩
  | ext key child | branch children =>
    rcases h with h | ⟨hash, store, hnode, _⟩
    · exact hblinded h.1
    · exact ⟨_, hnode⟩

/-! ## Local changes -/

/-- `s'` differs from `s` only below some paths, and has no new values but bindings there. -/
structure Within (region : Nibbles → Prop) (binds : Nibbles → V → Prop)
    (s s' : SerialSparseTrie V H) : Prop where
  nodes : ∀ q, ¬ region q → s'.nodes[q]? = s.nodes[q]?
  values : ∀ q, s'.values[q]? = s.values[q]? ∨
    ∃ value, region q ∧ binds q value ∧ s'.values[q]? = some value
  prefixSet : s'.prefixSet = s.prefixSet
  updates : s'.updates = s.updates

namespace Within

variable {region : Nibbles → Prop} {binds : Nibbles → V → Prop}

theorem refl (s : SerialSparseTrie V H) : Within region binds s s :=
  ⟨fun _ _ => rfl, fun _ => .inl rfl, rfl, rfl⟩

theorem trans (h : Within region binds s s') (h' : Within region binds s' s'') :
    Within region binds s s'' := by
  refine ⟨fun q hq => (h'.nodes q hq).trans (h.nodes q hq), fun q => ?_,
    h'.prefixSet.trans h.prefixSet, h'.updates.trans h.updates⟩
  rcases h'.values q with heq | hnew
  · rw [heq]
    exact h.values q
  · exact .inr hnew

theorem mono (h : Within region binds s s') (hregion : ∀ q, region q → region' q) :
    Within region' binds s s' := by
  refine ⟨fun q hq => h.nodes q fun hr => hq (hregion q hr), fun q => ?_, h.prefixSet, h.updates⟩
  rcases h.values q with heq | ⟨value, hr, hnew⟩
  · exact .inl heq
  · exact .inr ⟨value, hregion q hr, hnew⟩

theorem values_of_not (h : Within region binds s s') (hq : ¬ region q) :
    s'.values[q]? = s.values[q]? := by
  rcases h.values q with heq | ⟨_, hr, _⟩
  · exact heq
  · exact absurd hr hq

theorem entry (h : Within region binds s s') (q : Nibbles) : s'.entry q = s.entry q := by
  rw [SerialSparseTrie.entry, h.updates, SerialSparseTrie.entry]

theorem shows (h : Within region binds s s') (hpath : ∀ q, path <+: q → ¬ region q)
    (ht : Shows c w changed s vis path t) :
    Shows c w changed s' vis path t :=
  ht.congr (fun q hq => h.nodes q (hpath q hq))
    (fun q _ hq hvalue => (h.values_of_not (hpath q hq)).trans hvalue) (fun q _ => h.entry q)
    (fun _ _ => id)

theorem insertNode (s : SerialSparseTrie V H) (node : SparseNode H) (hpath : region path) :
    Within region binds s (s.insertNode path node) := by
  refine ⟨fun q hq => get_insert_ne ?_, fun _ => .inl rfl, rfl, rfl⟩
  rintro rfl
  exact hq hpath

theorem removeNode (s : SerialSparseTrie V H) (hpath : region path) :
    Within region binds s (s.removeNode path) := by
  refine ⟨fun q hq => get_erase_ne ?_, fun _ => .inl rfl, rfl, rfl⟩
  rintro rfl
  exact hq hpath

end Within

@[simp] theorem nodes_insertNode_self (s : SerialSparseTrie V H) (path : Nibbles)
    (node : SparseNode H) : (s.insertNode path node).nodes[path]? = some node :=
  get_insert_self _ _ _

theorem nodes_insertNode (s : SerialSparseTrie V H) (path q : Nibbles) (node : SparseNode H) :
    (s.insertNode path node).nodes[q]? = if path = q then some node else s.nodes[q]? :=
  get_insert _ _ _ _

theorem nodes_insertNode_ne (s : SerialSparseTrie V H) (node : SparseNode H) (h : path ≠ q) :
    (s.insertNode path node).nodes[q]? = s.nodes[q]? :=
  get_insert_ne h

end SerialSparseTrie

end Trie
