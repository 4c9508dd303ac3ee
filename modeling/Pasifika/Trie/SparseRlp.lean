import Pasifika.Trie.SparseRemove

/-! # Hashing a sparse trie

`rlp_node` is a loop over two stacks: paths of nodes that are still to be encoded, and
encoded nodes. A node whose children are not on the second stack goes back to the first
one, after its children. `Reaches` follows the loop, and `reaches_encoded` says what it
does with a subtree: the reference of the subtree comes to the top of the stack, what is
remembered below the path is right, and nothing else changes. -/

namespace Trie

open Std OrderedMap Patricia List Option Function Nibbles PrefixSet TrieMask Codec

variable {V B H : Type} {c : Codec V B H} {w : Memory V H}
variable {changed : Nibbles → Bool} {s s' s'' : SerialSparseTrie V H}

namespace SerialSparseTrie

/-! ## Children of a branch -/

/-- An encoded child of a branch. -/
def childItem (c : Codec V B H) (path : Nibbles) (children : Fin 16 → Tree 16 V)
    (types : Fin 16 → SparseNodeType) (i : Fin 16) : RlpNodeStackItem B H :=
  ⟨path ++ [i], c.rlpNode (children i), types i⟩

/-- The children of a branch, collected from the last one on. -/
def collected (c : Codec V B H) (s : SerialSparseTrie V H) (path : Nibbles) (retain : Bool)
    (children : Fin 16 → Tree 16 V) (types : Fin 16 → SparseNodeType)
    (stack : List (RlpNodeStackItem B H)) : Collected B H :=
  (Codec.stateMask children).bits.foldr
    (fun i acc => collectChild s path retain i (childItem c path children types i) acc)
    ⟨stack, [], .default, .default, []⟩

theorem collected_values (s : SerialSparseTrie V H) (path : Nibbles) (retain : Bool)
    (children : Fin 16 → Tree 16 V) (types : Fin 16 → SparseNodeType)
    (stack : List (RlpNodeStackItem B H)) :
    (collected c s path retain children types stack).values =
      (stateMask children).bits.map (fun i => c.rlpNode (children i)) := by
  rw [collected]
  induction (stateMask children).bits with
  | nil => rfl
  | cons i bits ih => rw [foldr_cons, map_cons, ← ih]; rfl

theorem collected_stack (s : SerialSparseTrie V H) (path : Nibbles) (retain : Bool)
    (children : Fin 16 → Tree 16 V) (types : Fin 16 → SparseNodeType)
    (stack : List (RlpNodeStackItem B H)) :
    (collected c s path retain children types stack).rlpNodeStack = stack := by
  rw [collected]
  induction (stateMask children).bits with
  | nil => rfl
  | cons i bits ih => exact ih

variable {retain : Bool} {path : Nibbles}
  {acc : Collected B H} {bits : List (Fin 16)} {stack : List (RlpNodeStackItem B H)}
variable {types : Fin 16 → SparseNodeType} {children : Fin 16 → Tree 16 V}

/-- All children are on the stack, the last one on top. -/
theorem collectChildren_eq
    (hacc : acc.rlpNodeStack = bits.map (childItem c path children types) ++ stack) :
    collectChildren s path retain bits acc =
      .inr (bits.foldl
        (fun acc i => collectChild s path retain i (childItem c path children types i) acc)
        { acc with rlpNodeStack := stack }) := by
  induction bits generalizing acc with
  | nil =>
    obtain ⟨_, values, treeMask, hashMask, hashes⟩ := acc
    cases hacc
    rfl
  | cons i bits ih =>
    rw [collectChildren, hacc, map_cons, cons_append]
    dsimp only
    have hpath : (childItem c path children types i).path = path ++ [i] := rfl
    rw [if_pos hpath, ih rfl, foldl_cons]
    rfl

theorem collectChildren_collected :
    collectChildren s path retain (stateMask children).bits.reverse
      ⟨(stateMask children).bits.reverse.map (childItem c path children types) ++ stack,
        [], .default, .default, []⟩ =
      .inr (collected c s path retain children types stack) := by
  rw [collectChildren_eq rfl, foldl_reverse]
  rfl

/-! ## What has to be remembered -/

/-- A branch is encoded, with its update or because nothing is remembered of it. -/
def Recomputes (w : Memory V H) (s : SerialSparseTrie V H) (path : Nibbles)
    (children : Fin 16 → Tree 16 V) : Bool → Prop
  | true => s.updates.isSome
  | false => s.updates = none ∨ ∃ hash store,
      w.cached (s.entry path) path (.branch children) hash store ∧ (hash = none ∨ store = none)

end SerialSparseTrie

open SerialSparseTrie in
/-- **WHAT IS REMEMBERED** by the loop is what has to be. -/
structure Memory.Computes (c : Codec V B H) (w : Memory V H) : Prop where
  leaf : ∀ path key value, w.typed path (.leaf key value) .leaf
  hash : ∀ {path t hash}, w.origin path t → c.rlpNode t = .word hash →
    w.typed path t .hash
  extCached : ∀ {e path key child hash store},
    w.cached e path (.ext key child) (some hash) (some store) →
      c.rlpNode (.ext key child) = .word hash ∧
        w.typed path (.ext key child) (.extension (some store))
  branchCached : ∀ {e path children hash store},
    w.cached e path (.branch children) (some hash) (some store) →
      c.rlpNode (.branch children) = .word hash ∧
        w.typed path (.branch children) (.branch (some store))
  ext : ∀ {path key child type}, w.typed (path ++ key) child type →
    w.typed path (.ext key child) (.extension type.storeInDbTrie) ∧
      ∀ e, w.cached e path (.ext key child) (c.rlpNode (.ext key child)).asHash
        type.storeInDbTrie
  branch : ∀ {s : SerialSparseTrie V H} {path children types retain stack updates store},
    (∀ i, children i ≠ .empty → w.typed (path ++ [i]) (children i) (types i)) →
    Recomputes w s path children retain →
    updateBranch s path (Codec.stateMask children) retain
      (collected c s path retain children types stack) = (updates, store) →
    w.typed path (.branch children) (.branch (some store)) ∧
      w.cached ({ s with updates := updates }.entry path) path (.branch children)
        (c.rlpNode (.branch children)).asHash (some store)

namespace SerialSparseTrie

/-! ## Following the loop -/

/-- The loop comes from one state to another. -/
def Reaches (c : Codec V B H) (l l' : RlpLoop V B H) : Prop :=
  ∃ n, ∀ fuel, RlpLoop.run c (fuel + n) l = RlpLoop.run c fuel l'

theorem Reaches.refl (l : RlpLoop V B H) : Reaches c l l := ⟨0, fun _ => rfl⟩

theorem Reaches.trans (h : Reaches c l l') (h' : Reaches c l' l'') :
    Reaches c l l'' := by
  obtain ⟨n, hn⟩ := h
  obtain ⟨n', hn'⟩ := h'
  refine ⟨n' + n, fun fuel => ?_⟩
  rw [← Nat.add_assoc, hn, hn']

variable {rest : List RlpNodePathStackItem} {item : RlpNodePathStackItem} {l l' : RlpLoop V B H}
variable {t : Tree 16 V} {path key : Nibbles} {children : Fin 16 → Tree 16 V}
variable {prefixSet : PrefixSet} {flag store : Option Bool} {hash : Option H} {level : ℕ}
variable {stateMask : TrieMask} {retain : Bool}

/-- The node on top of the path stack is taken. -/
theorem Reaches.step (hstack : l.pathStack = item :: rest)
    (hstep : RlpLoop.step c { l with pathStack := rest } item = some l') : Reaches c l l' := by
  refine ⟨1, fun fuel => ?_⟩
  rw [RlpLoop.run, hstack]
  dsimp only
  rw [hstep]
  rfl

/-- What encoding a subtree does to the trie. -/
structure Hashed (path : Nibbles) (t : Tree 16 V) (s s' : SerialSparseTrie V H) : Prop where
  nodes : ∀ q, ¬ path <+: q → s'.nodes[q]? = s.nodes[q]?
  values : s'.values = s.values
  treeMasks : s'.branchNodeTreeMasks = s.branchNodeTreeMasks
  hashMasks : s'.branchNodeHashMasks = s.branchNodeHashMasks
  prefixSet : s'.prefixSet = s.prefixSet
  updates : s'.updates.isSome = s.updates.isSome
  entry : ∀ q, (∀ r, path ++ r = q → t.branchAt r = none) → s'.entry q = s.entry q

theorem Hashed.refl (path : Nibbles) (t : Tree 16 V) (s : SerialSparseTrie V H) :
    Hashed path t s s :=
  ⟨fun _ _ => rfl, rfl, rfl, rfl, rfl, rfl, fun _ _ => rfl⟩

theorem Hashed.trans (h : Hashed path t s s') (h' : Hashed path t s' s'') : Hashed path t s s'' :=
  ⟨fun q hq => (h'.nodes q hq).trans (h.nodes q hq), h'.values.trans h.values,
    h'.treeMasks.trans h.treeMasks, h'.hashMasks.trans h.hashMasks,
    h'.prefixSet.trans h.prefixSet, h'.updates.trans h.updates,
    fun q hq => (h'.entry q hq).trans (h.entry q hq)⟩

theorem Hashed.insertNode (s : SerialSparseTrie V H) (path : Nibbles) (t : Tree 16 V)
    (node : SparseNode H) : Hashed path t s (s.insertNode path node) := by
  refine ⟨fun q hq => nodes_insertNode_ne _ _ ?_, rfl, rfl, rfl, rfl, rfl, fun _ _ => rfl⟩
  rintro rfl
  exact hq prefix_rfl

variable {child : Tree 16 V} {stack : List (RlpNodeStackItem B H)}
variable {updates : Option (SparseTrieUpdates H)} {n fuel : ℕ}

theorem Hashed.ext (h : Hashed (path ++ key) child s s') : Hashed path (.ext key child) s s' := by
  refine ⟨fun q hq => h.nodes q fun hle => hq (extends_of_append hle), h.values,
    h.treeMasks, h.hashMasks, h.prefixSet, h.updates, fun q hq => h.entry q fun r hr => ?_⟩
  rw [append_assoc] at hr
  rw [← Tree.branchAt_ext_append key r child]
  exact hq _ hr

theorem Hashed.branch (h : Hashed (path ++ [i]) (children i) s s') :
    Hashed path (.branch children) s s' := by
  refine ⟨fun q hq => h.nodes q fun hle => hq (extends_of_append hle), h.values,
    h.treeMasks, h.hashMasks, h.prefixSet, h.updates, fun q hq => h.entry q fun r hr => ?_⟩
  rw [append_assoc] at hr
  exact hq _ hr

theorem Hashed.shows (h : Hashed path t s s') (hq : ∀ q', q <+: q' → ¬ path <+: q')
    (hshows : Shows c w changed s vis q u) : Shows c w changed s' vis q u := by
  refine hshows.congr (fun q' hq' => h.nodes q' (hq q' hq')) ?_ (fun q' hq' => ?_) fun _ _ => id
  · intro q' value _ hvalue
    rw [h.values]
    exact hvalue
  · refine h.entry q' (fun r hr => ?_)
    exact absurd (hr ▸ prefix_append _ _) (hq q' hq')

/-- **ENCODED**: the reference of a subtree is on top of the stack. -/
structure Encoded (c : Codec V B H) (w : Memory V H) (path : Nibbles) (t : Tree 16 V)
    (rest : List RlpNodePathStackItem) (l l' : RlpLoop V B H) : Prop where
  pathStack : l'.pathStack = rest
  prefixSet : l'.prefixSet.changed = l.prefixSet.changed
  stack : ∃ type, w.typed path t type ∧
    l'.rlpNodeStack = ⟨path, c.rlpNode t, type⟩ :: l.rlpNodeStack
  shows : Shows c w (fun _ => false) l'.trie true path t
  hashed : Hashed path t l.trie l'.trie

/-! ## Single steps -/

theorem prefixSetContains_spec (hflag : flag = some false → prefixSet.changed path = false) :
    (prefixSetContains flag prefixSet path).2.changed = prefixSet.changed ∧
      ((prefixSetContains flag prefixSet path).1 = false → prefixSet.changed path = false) := by
  cases flag with
  | none =>
    refine ⟨funext fun q => changed_contains _ _ _, fun h => ?_⟩
    rw [← contains_fst]
    exact h
  | some b =>
    refine ⟨rfl, fun h => hflag ?_⟩
    rw [show b = false from h]

/-- No key below a path changed. -/
theorem unchanged_below (h : prefixSet.changed path = false) (hq : path <+: q) :
    prefixSet.changed q = false := by
  rw [← Bool.not_eq_true] at h ⊢
  refine fun hchanged => h ?_
  cases hall : prefixSet.all with
  | true => rw [PrefixSet.changed, hall]; rfl
  | false =>
    rw [PrefixSet.changed_iff hall] at hchanged ⊢
    obtain ⟨key, hmem, hpre⟩ := hchanged
    exact ⟨key, hmem, hq.trans hpre⟩

/-- A node with a hash is only visited if it is known to have changed. -/
def Flagged (hash : Option H) (store flag : Option Bool) : Prop :=
  hash.isSome → store.isSome → flag = some true

/-- The hash is used again, or the node is visited. -/
theorem reuseHash_cases (l : RlpLoop V B H) (item : RlpNodePathStackItem) (hash : Option H)
    (store : Option Bool) (type : Option Bool → SparseNodeType)
    (visit : RlpLoop V B H → Option Bool → RlpLoop V B H)
    (hflag : item.isInPrefixSet = some false → l.prefixSet.changed item.path = false) :
    (∃ prefixSet h b, prefixSet.changed = l.prefixSet.changed ∧ hash = some h ∧ store = some b ∧
      l.prefixSet.changed item.path = false ∧ l.reuseHash item hash store type visit =
        { l with prefixSet := prefixSet }.push item.path (.word h) (type (some b))) ∨
      ∃ prefixSet flag, prefixSet.changed = l.prefixSet.changed ∧ Flagged hash store flag ∧
        (flag = some false → l.prefixSet.changed item.path = false) ∧
          l.reuseHash item hash store type visit = visit { l with prefixSet := prefixSet } flag := by
  obtain ⟨hset, hfalse⟩ := prefixSetContains_spec hflag
  cases hash with
  | none => exact .inr ⟨l.prefixSet, _, rfl, nofun, hflag, rfl⟩
  | some h =>
    cases store with
    | none => exact .inr ⟨l.prefixSet, _, rfl, nofun, hflag, rfl⟩
    | some b =>
      cases hcontains : (prefixSetContains item.isInPrefixSet l.prefixSet item.path).1 with
      | false =>
        refine .inl ⟨_, h, b, hset, rfl, rfl, hfalse hcontains, ?_⟩
        rw [RlpLoop.reuseHash]
        dsimp only
        rw [hcontains]
        rfl
      | true =>
        refine .inr ⟨_, some true, hset, fun _ _ => rfl, nofun, ?_⟩
        rw [RlpLoop.reuseHash]
        dsimp only
        rw [hcontains]
        rfl

variable {visit : RlpLoop V B H → Option Bool → RlpLoop V B H} {type : Option Bool → SparseNodeType}

theorem reuseHash_again (hflagged : Flagged hash store item.isInPrefixSet) :
    l.reuseHash item hash store type visit = visit l item.isInPrefixSet := by
  cases hash with
  | none => rfl
  | some h =>
    cases store with
    | none => rfl
    | some b =>
      rw [RlpLoop.reuseHash, hflagged rfl rfl]
      rfl

/-! ## Subtrees -/

/-- The loop encodes a subtree, wherever it is. -/
def Encodes (c : Codec V B H) (w : Memory V H) (path : Nibbles) (t : Tree 16 V) : Prop :=
  ∀ {l : RlpLoop V B H} {level : ℕ} {flag : Option Bool} {rest : List RlpNodePathStackItem},
    l.pathStack = ⟨level, path, flag⟩ :: rest →
    Shows c w l.prefixSet.changed l.trie true path t →
    (flag = some false → l.prefixSet.changed path = false) →
    (∀ item ∈ l.rlpNodeStack, ¬ path <+: item.path) →
    ∃ l', Reaches c l l' ∧ Encoded c w path t rest l l'

theorem encoded_push {rlpNode : RlpNode B H} {type : SparseNodeType}
    (hset : prefixSet.changed = l.prefixSet.changed) (hrlp : c.rlpNode t = rlpNode)
    (htyped : w.typed path t type) (hshows : Shows c w (fun _ => false) l.trie true path t) :
    Encoded c w path t rest l
      ({ l with prefixSet := prefixSet, pathStack := rest }.push path rlpNode type) :=
  ⟨rfl, hset, ⟨type, htyped, by rw [hrlp]; rfl⟩, hshows, .refl _ _ _⟩

theorem reaches_hash (hw : w.Computes c) (hstack : l.pathStack = ⟨level, path, flag⟩ :: rest)
    (h : Blinded c w l.trie true path t) (hshows : Shows c w (fun _ => false) l.trie true path t) :
    ∃ l', Reaches c l l' ∧ Encoded c w path t rest l l' := by
  rcases h with ⟨⟨⟩, _⟩ | ⟨hash, hnode, hrlp, horigin⟩
  · refine ⟨_, Reaches.step hstack ?_, encoded_push rfl hrlp (hw.hash horigin hrlp) hshows⟩
    rw [RlpLoop.step, hnode]

theorem encodes_leaf (hw : w.Computes c) (path key : Nibbles) (value : V) :
    Encodes c w path (.leaf key value) := by
  intro l level flag rest hstack hshows hflag _
  rcases hshows with hblinded | ⟨hash, hnode, hvalue, hhash⟩
  · exact reaches_hash hw hstack hblinded (.inl hblinded)
  -- the leaf is encoded, with any prefix set that answers in the same way
  have hencode : ∀ prefixSet : PrefixSet, prefixSet.changed = l.prefixSet.changed →
      RlpLoop.step c { l with pathStack := rest } ⟨level, path, flag⟩ =
        RlpLoop.encodeLeaf c { l with prefixSet := prefixSet, pathStack := rest } path key →
      ∃ l', Reaches c l l' ∧ Encoded c w path (.leaf key value) rest l l' := by
    intro prefixSet hset hstep
    rw [RlpLoop.encodeLeaf] at hstep
    rw [hvalue] at hstep
    refine ⟨_, Reaches.step hstack hstep, rfl, hset, ⟨.leaf, hw.leaf _ _ _, rfl⟩, ?_,
      .insertNode _ _ _ _⟩
    refine .inr ⟨_, nodes_insertNode_self _ _ _, hvalue, fun _ h hh => ?_⟩
    exact RlpNode.asHash_eq_some.mp hh
  have hleaf : RlpLoop.step c { l with pathStack := rest } ⟨level, path, flag⟩ =
      RlpLoop.leafStep c { l with pathStack := rest } ⟨level, path, flag⟩ key hash := by
    rw [RlpLoop.step, hnode]
  cases hash with
  | none => exact hencode l.prefixSet rfl hleaf
  | some hash =>
    obtain ⟨hset, hfalse⟩ := prefixSetContains_spec
      (fun h => unchanged_below (hflag h) (prefix_append path key))
    cases hcontains : (prefixSetContains flag l.prefixSet (path ++ key)).1 with
    | true =>
      refine hencode _ hset (hleaf.trans ?_)
      rw [RlpLoop.leafStep]
      dsimp only
      rw [hcontains]
      rfl
    | false =>
      have hright := hhash (hfalse hcontains) hash rfl
      refine ⟨_, Reaches.step hstack (hleaf.trans ?_), encoded_push hset hright
        (hw.leaf path key value) (.inr ⟨_, hnode, hvalue, fun _ h hh => ?_⟩)⟩
      · rw [RlpLoop.leafStep]
        dsimp only
        rw [hcontains]
        rfl
      · cases hh
        exact hright

/-- An extension or a branch: it is enough that the loop encodes it when it is visited. -/
theorem reaches_inner (hstack : l.pathStack = ⟨level, path, flag⟩ :: rest)
    (hshows : Shows c w l.prefixSet.changed l.trie true path t)
    (hflag : flag = some false → l.prefixSet.changed path = false)
    (hstep : RlpLoop.step c { l with pathStack := rest } ⟨level, path, flag⟩ =
      some (RlpLoop.reuseHash { l with pathStack := rest } ⟨level, path, flag⟩ hash store type
        visit))
    (hcached : l.prefixSet.changed path = false → ∀ h b, hash = some h → store = some b →
      c.rlpNode t = .word h ∧ w.typed path t (type (some b)))
    (hvisit : ∀ prefixSet flag, prefixSet.changed = l.prefixSet.changed → Flagged hash store flag →
      (flag = some false → l.prefixSet.changed path = false) →
      ∃ l', Reaches c (visit { l with prefixSet := prefixSet, pathStack := rest } flag) l' ∧
        Encoded c w path t rest l l') :
    ∃ l', Reaches c l l' ∧ Encoded c w path t rest l l' := by
  rcases reuseHash_cases { l with pathStack := rest } ⟨level, path, flag⟩ hash store type visit
    hflag with ⟨prefixSet, h, b, hset, hh, hb, hch, heq⟩ | ⟨prefixSet, flag', hset, hflagged, hflag', heq⟩
  · obtain ⟨hrlp, htyped⟩ := hcached hch h b hh hb
    exact ⟨_, Reaches.step hstack (hstep.trans (congrArg some heq)), encoded_push hset hrlp htyped
      (hshows.weaken fun q hq _ => unchanged_below hch hq)⟩
  · obtain ⟨l', hreaches, hencoded⟩ := hvisit prefixSet flag' hset hflagged hflag'
    exact ⟨l', (Reaches.step hstack (hstep.trans (congrArg some heq))).trans hreaches, hencoded⟩

theorem step_ext (l : RlpLoop V B H) (level : ℕ) (flag : Option Bool)
    (hnode : l.trie.nodes[path]? = some (.extension key hash store)) :
    RlpLoop.step c l ⟨level, path, flag⟩ =
      some (l.reuseHash ⟨level, path, flag⟩ hash store .extension
        (·.visitExtension c level path key ·)) := by
  rw [RlpLoop.step, hnode]
  rfl

theorem visitExtension_wait (l : RlpLoop V B H)
    (hfree : ∀ item ∈ l.rlpNodeStack, ¬ path <+: item.path) (level : ℕ) (key : Nibbles)
    (flag : Option Bool) :
    l.visitExtension c level path key flag =
      { l with pathStack := ⟨level + 1, path ++ key, none⟩ :: ⟨level, path, flag⟩ ::
          l.pathStack } := by
  rw [RlpLoop.visitExtension]
  cases hitems : l.rlpNodeStack with
  | nil => rfl
  | cons item items =>
    dsimp only
    rw [if_neg]
    intro hpath
    exact hfree item (hitems ▸ mem_cons_self) (hpath ▸ prefix_append _ _)

theorem visitExtension_child (l : RlpLoop V B H) {rlpNode : RlpNode B H} {type : SparseNodeType}
    (hstack : l.rlpNodeStack = ⟨path ++ key, rlpNode, type⟩ :: stack) (level : ℕ)
    (flag : Option Bool) :
    l.visitExtension c level path key flag =
      { l with
        trie := l.trie.insertNode path (.extension key (c.rlp (.extension key rlpNode)).asHash
          type.storeInDbTrie)
        rlpNodeStack := stack }.push path (c.rlp (.extension key rlpNode))
          (.extension type.storeInDbTrie) := by
  rw [RlpLoop.visitExtension, hstack]
  dsimp only
  rw [if_pos rfl]

theorem encodes_ext (hw : w.Computes c) (hkey : key ≠ [])
    (hchild : Encodes c w (path ++ key) child) :
    Encodes c w path (.ext key child) := by
  intro l level flag rest hstack hshows hflag hfree
  have hshows' := hshows
  rcases hshows with ⟨hblinded, hbelow⟩ | ⟨hash, store, hnode, hcached, hbelow⟩
  · exact reaches_hash hw hstack hblinded (.inl ⟨hblinded, hbelow⟩)
  refine reaches_inner hstack hshows' hflag (step_ext { l with pathStack := rest } level flag hnode)
    (fun hch h b hh hb => hw.extCached (by rw [← hh, ← hb]; exact hcached hch))
    (fun prefixSet flag' hset hflagged _ => ?_)
  rw [visitExtension_wait { l with prefixSet := prefixSet, pathStack := rest } hfree]
  obtain ⟨l1, hreaches, henc⟩ := hchild (l := { l with
      prefixSet := prefixSet
      pathStack := ⟨level + 1, path ++ key, none⟩ :: ⟨level, path, flag'⟩ :: rest }) rfl
    (by rw [hset]; exact hbelow) nofun
    (fun item hitem hle => hfree item hitem (extends_of_append hle))
  obtain ⟨type, htyped, hitems⟩ := henc.stack
  have hnode1 : l1.trie.nodes[path]? = some (.extension key hash store) :=
    (henc.hashed.nodes path (not_extends_of_ne_nil hkey)).trans hnode
  have hstep := step_ext (c := c) { l1 with pathStack := rest } level flag' hnode1
  rw [reuseHash_again hflagged] at hstep
  rw [visitExtension_child { l1 with pathStack := rest } hitems] at hstep
  obtain ⟨htyped', hcached'⟩ : w.typed path (.ext key child) (.extension type.storeInDbTrie) ∧ _ :=
    hw.ext htyped
  refine ⟨_, hreaches.trans (Reaches.step henc.pathStack hstep), rfl, henc.prefixSet.trans hset,
    ⟨_, htyped', rfl⟩, .inr ⟨_, _, nodes_insertNode_self _ _ _, fun _ => hcached' _, ?_⟩,
    henc.hashed.ext.trans (.insertNode _ _ _ _)⟩
  have hwithin : Within (· = path) (fun _ _ => False) l1.trie
      (l1.trie.insertNode path (.extension key (c.rlp (.extension key (c.rlpNode child))).asHash
        type.storeInDbTrie)) := .insertNode _ _ rfl
  refine hwithin.shows ?_ henc.shows
  rintro q hq rfl
  exact not_extends_of_ne_nil hkey hq

/-! ## Branches -/

/-- The children of a branch were encoded. -/
structure EncodedChildren (c : Codec V B H) (w : Memory V H) (path : Nibbles)
    (children : Fin 16 → Tree 16 V) (types : Fin 16 → SparseNodeType) (bits : List (Fin 16))
    (rest : List RlpNodePathStackItem) (l l' : RlpLoop V B H) : Prop where
  pathStack : l'.pathStack = rest
  prefixSet : l'.prefixSet.changed = l.prefixSet.changed
  typed : ∀ i ∈ bits, w.typed (path ++ [i]) (children i) (types i)
  stack : l'.rlpNodeStack =
    bits.reverse.map (childItem c path children types) ++ l.rlpNodeStack
  shows : ∀ i ∈ bits, Shows c w (fun _ => false) l'.trie true (path ++ [i]) (children i)
  others : ∀ i, i ∉ bits → ∀ {changed : Nibbles → Bool} {u : Tree 16 V},
    Shows c w changed l.trie true (path ++ [i]) u → Shows c w changed l'.trie true (path ++ [i]) u
  hashed : Hashed path (.branch children) l.trie l'.trie
  node : l'.trie.nodes[path]? = l.trie.nodes[path]?
  entry : l'.trie.entry path = l.trie.entry path

theorem reaches_children {bits : List (Fin 16)} (hnodup : bits.Nodup)
    (hencodes : ∀ i ∈ bits, Encodes c w (path ++ [i]) (children i))
    (hstack : l.pathStack = bits.map (fun bit => ⟨level, path ++ [bit], none⟩) ++ rest)
    (hshows : ∀ i ∈ bits, Shows c w l.prefixSet.changed l.trie true (path ++ [i]) (children i))
    (hfree : ∀ item ∈ l.rlpNodeStack, ∀ i ∈ bits, ¬ path ++ [i] <+: item.path) :
    ∃ l' types, Reaches c l l' ∧ EncodedChildren c w path children types bits rest l l' := by
  induction bits generalizing l rest with
  | nil =>
    exact ⟨l, fun _ => .empty, .refl l, hstack, rfl, nofun, rfl,
      nofun, fun _ _ => id, .refl _ _ _, rfl, rfl⟩
  | cons i bits ih =>
    obtain ⟨hi, hnodup⟩ := nodup_cons.mp hnodup
    have hne : ∀ j ∈ bits, j ≠ i := by
      rintro j hj rfl
      exact hi hj
    obtain ⟨l1, hreaches, henc⟩ := hencodes i mem_cons_self hstack (hshows i mem_cons_self) nofun
      (hfree · · i mem_cons_self)
    obtain ⟨type, htyped, hitems⟩ := henc.stack
    -- the other children are as they were
    have hothers : ∀ j, j ≠ i → ∀ {changed : Nibbles → Bool} {u : Tree 16 V},
        Shows c w changed l.trie true (path ++ [j]) u →
          Shows c w changed l1.trie true (path ++ [j]) u := by
      intro j hji changed u hu
      exact henc.hashed.shows (fun q hq => not_extends_sibling hji hq) hu
    have hfree1 : ∀ item ∈ l1.rlpNodeStack, ∀ j ∈ bits, ¬ path ++ [j] <+: item.path := by
      rw [hitems]
      intro item hitem j hj
      rcases mem_cons.mp hitem with rfl | hitem
      · exact not_extends_sibling (Ne.symm (hne j hj)) prefix_rfl
      · exact hfree item hitem j (mem_cons_of_mem _ hj)
    obtain ⟨l', types, hreaches', hrest⟩ := ih hnodup
      (fun j hj => hencodes j (mem_cons_of_mem _ hj)) henc.pathStack
      (fun j hj => henc.prefixSet ▸ hothers j (hne j hj) (hshows j (mem_cons_of_mem _ hj)))
      hfree1
    have hupdate : ∀ j ∈ bits, update types i type j = types j :=
      fun j hj => update_of_ne (hne j hj) _ _
    have hpath : ¬ path ++ [i] <+: path :=
      not_extends_of_ne_nil (cons_ne_nil _ _)
    refine ⟨l', update types i type, hreaches.trans hreaches', hrest.pathStack,
      hrest.prefixSet.trans henc.prefixSet, fun j hj => ?_, ?_, fun j hj => ?_,
      fun j hj changed u hu => ?_, henc.hashed.branch.trans hrest.hashed,
      hrest.node.trans (henc.hashed.nodes path hpath), hrest.entry.trans ?_⟩
    · rcases mem_cons.mp hj with rfl | hj
      · rw [update_self]
        exact htyped
      · rw [hupdate j hj]
        exact hrest.typed j hj
    · rw [hrest.stack, hitems, reverse_cons, map_append, append_assoc]
      congr 1
      · refine map_congr_left (fun j hj => ?_)
        rw [childItem, childItem, hupdate j (mem_reverse.mp hj)]
      · rw [map_singleton, childItem, update_self]
        rfl
    · rcases mem_cons.mp hj with rfl | hj
      · exact hrest.others j hi henc.shows
      · exact hrest.shows j hj
    · obtain ⟨hji, hj⟩ := not_or.mp (mem_cons.not.mp hj)
      exact hrest.others j hj (hothers j hji hu)
    · refine henc.hashed.entry path (fun r hr => ?_)
      have hle := prefix_append (path ++ [i]) r
      rw [hr] at hle
      exact absurd hle hpath

/-- Whether the updates are retained, and what is known then. -/
theorem retainUpdates_spec (l : RlpLoop V B H)
    (hflag : flag = some false → l.prefixSet.changed path = false) :
    ∃ retain flag' prefixSet, l.retainUpdates path flag = (retain, flag', prefixSet) ∧
      prefixSet.changed = l.prefixSet.changed ∧
      (flag' = some false → l.prefixSet.changed path = false) ∧
      (flag = some true → flag' = some true) ∧ (retain = true → l.trie.updates.isSome) ∧
      (retain = false → l.trie.updates = none ∨
        (l.prefixSet.changed path = false ∧ flag ≠ some true)) := by
  rw [RlpLoop.retainUpdates]
  cases hupdates : l.trie.updates with
  | none =>
    exact ⟨_, _, _, rfl, rfl, hflag, id, nofun, fun _ => .inl rfl⟩
  | some updates =>
    obtain ⟨hset, hfalse⟩ := prefixSetContains_spec hflag
    refine ⟨_, _, _, rfl, hset, fun h => hfalse (some.inj h), ?_, fun _ => rfl,
      fun h => .inr ⟨hfalse h, ?_⟩⟩
    · rintro rfl
      rfl
    · rintro rfl
      nomatch h

theorem step_branch (l : RlpLoop V B H) (level : ℕ) (flag : Option Bool)
    (hnode : l.trie.nodes[path]? = some (.branch stateMask hash store)) :
    RlpLoop.step c l ⟨level, path, flag⟩ =
      some (l.reuseHash ⟨level, path, flag⟩ hash store .branch
        (·.visitBranch c level path stateMask ·)) := by
  rw [RlpLoop.step, hnode]
  rfl

theorem visitBranch_wait (l : RlpLoop V B H) (hbits : stateMask.bits ≠ [])
    (hfree : ∀ item ∈ l.rlpNodeStack, ¬ path <+: item.path)
    (hretain : l.retainUpdates path flag = (retain, flag', prefixSet)) :
    l.visitBranch c level path stateMask flag =
      { l with
        prefixSet := prefixSet
        pathStack := stateMask.bits.map (fun bit => ⟨level + 1, path ++ [bit], none⟩) ++
          ⟨level, path, flag'⟩ :: l.pathStack } := by
  rw [RlpLoop.visitBranch, hretain]
  dsimp only
  obtain ⟨i, bits, hcons⟩ := exists_cons_of_ne_nil (reverse_ne_nil_iff.mpr hbits)
  rw [hcons, collectChildren]
  cases hstack : l.rlpNodeStack with
  | nil => rfl
  | cons child stack =>
    dsimp only
    rw [if_neg]
    intro hpath
    exact hfree child (hstack ▸ mem_cons_self) (hpath ▸ prefix_append _ _)

theorem visitBranch_children (l : RlpLoop V B H) {types : Fin 16 → SparseNodeType}
    {flag flag' : Option Bool} {retain store : Bool}
    (hstack : l.rlpNodeStack =
      (Codec.stateMask children).bits.reverse.map (childItem c path children types) ++ stack)
    (hretain : l.retainUpdates path flag = (retain, flag', prefixSet))
    (hupdate : updateBranch l.trie path (Codec.stateMask children) retain
      (collected c l.trie path retain children types stack) = (updates, store)) :
    l.visitBranch c level path (Codec.stateMask children) flag =
      { l with
        trie := { l.trie.insertNode path (.branch (Codec.stateMask children)
            (c.rlpNode (.branch children)).asHash (some store)) with updates := updates }
        prefixSet := prefixSet
        rlpNodeStack := stack }.push path (c.rlpNode (.branch children)) (.branch (some store)) := by
  rw [RlpLoop.visitBranch, hretain]
  dsimp only
  rw [hstack, collectChildren_collected]
  dsimp only
  rw [collected_values, collected_stack, hupdate]
  rfl

/-- Only the update of the branch itself changes. -/
theorem updateBranch_spec {retain store : Bool}
    (h : updateBranch s path stateMask retain acc = (updates, store)) :
    updates.isSome = s.updates.isSome ∧
      ∀ q, q ≠ path → { s with updates := updates }.entry q = s.entry q := by
  rw [updateBranch] at h
  cases hupdates : s.updates with
  | none =>
    rw [hupdates] at h
    cases h
    refine ⟨rfl, fun q _ => ?_⟩
    rw [entry, entry, hupdates]
  | some old =>
    rw [hupdates] at h
    dsimp only at h
    split at h
    · cases h
      refine ⟨rfl, fun q hq => ?_⟩
      rw [entry, entry, hupdates]
      rw [saveUpdate]
      split
      · exact get_insert_ne (Ne.symm hq)
      · split <;> exact get_erase_ne (Ne.symm hq)
    · cases h
      refine ⟨rfl, fun q _ => ?_⟩
      rw [entry, entry, hupdates]

theorem encodes_branch (hw : w.Computes c) (hgood : (Tree.branch children).Good n)
    (hchildren : ∀ i, children i ≠ .empty → Encodes c w (path ++ [i]) (children i)) :
    Encodes c w path (.branch children) := by
  intro l level flag rest hstack hshows hflag hfree
  have hshows' := hshows
  rcases hshows with ⟨hblinded, hbelow⟩ | ⟨hash, store, hnode, hcached, hbelow⟩
  · exact reaches_hash hw hstack hblinded (.inl ⟨hblinded, hbelow⟩)
  refine reaches_inner hstack hshows' hflag
    (step_branch { l with pathStack := rest } level flag hnode)
    (fun hch h b hh hb => hw.branchCached (by rw [← hh, ← hb]; exact hcached hch))
    (fun prefixSet flag' hset hflagged hflag' => ?_)
  have hmem : ∀ i, i ∈ (stateMask children).bits ↔ children i ≠ .empty :=
    fun i => mem_bits.trans stateMask_iff
  have hbits : (stateMask children).bits ≠ [] := by
    obtain ⟨_, _, _, i, _, _, hi, _⟩ := hgood
    exact ne_nil_of_mem ((hmem i).mpr hi)
  rw [← hset] at hflag'
  -- first it waits for its children
  obtain ⟨_, flag1, prefixSet1, hretain, hset1, hflag1, hflagged1, _, _⟩ :=
    retainUpdates_spec { l with prefixSet := prefixSet, pathStack := rest } hflag'
  rw [visitBranch_wait { l with prefixSet := prefixSet, pathStack := rest } hbits hfree hretain]
  obtain ⟨l1, types, hreaches, henc⟩ := reaches_children (nodup_bits _)
    (fun i hi => hchildren i ((hmem i).mp hi))
    (l := { l with
      prefixSet := prefixSet1
      pathStack := (stateMask children).bits.map
        (fun bit => ⟨level + 1, path ++ [bit], none⟩) ++ ⟨level, path, flag1⟩ :: rest }) rfl
    (fun i hi => by rw [hset1, hset]; exact hbelow i ((hmem i).mp hi))
    (fun item hitem i _ hle => hfree item hitem (extends_of_append hle))
  have hset' : l1.prefixSet.changed = l.prefixSet.changed :=
    henc.prefixSet.trans (hset1.trans hset)
  have hnode1 : l1.trie.nodes[path]? = some (.branch (stateMask children) hash store) :=
    henc.node.trans hnode
  -- then it is encoded
  have hstep := step_branch (c := c) { l1 with pathStack := rest } level flag1 hnode1
  rw [reuseHash_again fun hh hb => hflagged1 (hflagged hh hb)] at hstep
  dsimp only at hstep
  obtain ⟨retain, flag2, prefixSet2, hretain2, hset2, _, _, hsome, hnone⟩ :=
    retainUpdates_spec { l1 with pathStack := rest }
      (show flag1 = some false → l1.prefixSet.changed path = false from
        fun h => by rw [hset', ← hset]; exact hflag1 h)
  obtain ⟨updates, store', hupdate⟩ : ∃ updates store', updateBranch l1.trie path
      (stateMask children) retain (collected c l1.trie path retain children types
        l.rlpNodeStack) = (updates, store') := ⟨_, _, rfl⟩
  rw [visitBranch_children { l1 with pathStack := rest } henc.stack hretain2 hupdate] at hstep
  have hrecomputes : Recomputes w l1.trie path children retain := by
    cases retain with
    | true => exact hsome rfl
    | false =>
      refine (hnone rfl).imp_right fun ⟨hch, hne⟩ => ⟨hash, store, ?_, ?_⟩
      · rw [henc.entry]
        exact hcached (hset' ▸ hch)
      · cases hash with
        | none => exact .inl rfl
        | some h =>
          cases store with
          | none => exact .inr rfl
          | some b => exact absurd (hflagged1 (hflagged rfl rfl)) hne
  obtain ⟨htyped, hcached'⟩ :=
    hw.branch (fun i hi => henc.typed i ((hmem i).mpr hi)) hrecomputes hupdate
  obtain ⟨hsome', hentry⟩ := updateBranch_spec hupdate
  have hne : ∀ {i q}, path ++ [i] <+: q → q ≠ path := by
    rintro i q hq rfl
    exact not_extends_of_ne_nil (cons_ne_nil _ _) hq
  refine ⟨_, hreaches.trans (Reaches.step henc.pathStack hstep), rfl, hset2.trans hset',
    ⟨_, htyped, rfl⟩, .inr ⟨_, _, nodes_insertNode_self _ _ _, fun _ => hcached', fun i hi => ?_⟩,
    henc.hashed.trans ?_⟩
  · refine (henc.shows i ((hmem i).mpr hi)).congr (fun q hq => ?_) (fun _ _ _ => id)
      (fun q hq => hentry q (hne hq)) fun _ _ => id
    exact nodes_insertNode_ne _ _ (Ne.symm (hne hq))
  · refine ⟨fun q hq => nodes_insertNode_ne _ _ ?_, rfl, rfl, rfl, rfl, hsome', fun q hq => ?_⟩
    · rintro rfl
      exact hq prefix_rfl
    · refine hentry q ?_
      rintro rfl
      exact nomatch hq [] (append_nil q)

/-- **THE LOOP** encodes every subtree. -/
theorem encodes (hw : w.Computes c) (path : Nibbles) (hgood : t.Good n) : Encodes c w path t := by
  induction t generalizing n path with
  | empty => exact absurd hgood id
  | leaf key value => exact encodes_leaf hw path key value
  | ext key child ih =>
    obtain ⟨hkey, _, m, _, hchild⟩ := hgood
    exact encodes_ext hw hkey (ih _ hchild)
  | branch children ih =>
    obtain ⟨m, _, hchildren, _⟩ := id hgood
    exact encodes_branch hw hgood fun i hi => ih i _ ((hchildren i).resolve_left hi)

/-! ## `rlp_node` and `root` -/

theorem run_mono : ∀ {fuel}, RlpLoop.run c fuel l = some l' →
    ∀ k, RlpLoop.run c (fuel + k) l = some l' := by
  intro fuel
  induction fuel generalizing l with
  | zero => intro h; nomatch h
  | succ fuel ih =>
    intro h k
    rw [Nat.add_right_comm]
    rw [RlpLoop.run] at h ⊢
    cases hstack : l.pathStack with
    | nil => rw [hstack] at h; exact h
    | cons item rest =>
      rw [hstack] at h
      dsimp only at h ⊢
      cases hstep : RlpLoop.step c { l with pathStack := rest } item with
      | none => rw [hstep] at h; nomatch h
      | some l1 => rw [hstep] at h; exact ih h k

theorem rlpNode_mono (h : rlpNode c fuel s prefixSet item = some res) (k : ℕ) :
    rlpNode c (fuel + k) s prefixSet item = some res := by
  obtain ⟨l, hrun, hres⟩ := bind_eq_some_iff.mp h
  exact bind_eq_some_iff.mpr ⟨l, run_mono hrun k, hres⟩

theorem Reaches.rlpNode (h : Reaches c ⟨s, prefixSet, [item], []⟩ l) (hstack : l.pathStack = [])
    (htop : l.rlpNodeStack = [top]) :
    ∃ N, ∀ fuel, N ≤ fuel → SerialSparseTrie.rlpNode c fuel s prefixSet item =
      some (top.rlpNode, l.trie, l.prefixSet) := by
  obtain ⟨n, hn⟩ := h
  refine ⟨n + 1, fun fuel hfuel => ?_⟩
  obtain ⟨k, rfl⟩ := Nat.exists_eq_add_of_le hfuel
  have hrun : RlpLoop.run c (n + 1 + k) ⟨s, prefixSet, [item], []⟩ = some l := by
    rw [show n + 1 + k = (k + 1) + n by omega, hn, RlpLoop.run, hstack]
  rw [SerialSparseTrie.rlpNode, hrun]
  simp [htop]

/-- **`rlp_node`** of a subtree. -/
theorem rlpNode_spec (hw : w.Computes c) (level : ℕ) (hgood : t.Good n)
    (hshows : Shows c w prefixSet.changed s true path t)
    (hflag : flag = some false → prefixSet.changed path = false) :
    ∃ N s' prefixSet', (∀ fuel, N ≤ fuel →
        rlpNode c fuel s prefixSet ⟨level, path, flag⟩ = some (c.rlpNode t, s', prefixSet')) ∧
      prefixSet'.changed = prefixSet.changed ∧ Shows c w (fun _ => false) s' true path t ∧
        Hashed path t s s' := by
  obtain ⟨l, hreaches, henc⟩ := encodes hw path hgood (l := ⟨s, prefixSet, [⟨level, path, flag⟩], []⟩)
    rfl hshows hflag nofun
  obtain ⟨type, _, hstack⟩ := henc.stack
  obtain ⟨N, hN⟩ := hreaches.rlpNode henc.pathStack hstack
  exact ⟨N, l.trie, l.prefixSet, hN, henc.prefixSet, henc.shows, henc.hashed⟩

theorem rlpNode_empty (hnode : s.nodes[path]? = some .empty) (prefixSet : PrefixSet) (level : ℕ)
    (flag : Option Bool) :
    ∃ N, ∀ fuel, N ≤ fuel → rlpNode c fuel s prefixSet ⟨level, path, flag⟩ =
      some (.word c.emptyRootHash, s, prefixSet) := by
  have hreaches : Reaches c ⟨s, prefixSet, [⟨level, path, flag⟩], []⟩
      (RlpLoop.push ⟨s, prefixSet, [], []⟩ path (.word c.emptyRootHash) .empty) := by
    refine Reaches.step rfl ?_
    rw [RlpLoop.step, hnode]
  exact hreaches.rlpNode rfl rfl

theorem root_mono (h : s.root c fuel = some res) (k : ℕ) :
    s.root c (fuel + k) = some res := by
  obtain ⟨r, hrlp, hres⟩ := bind_eq_some_iff.mp h
  exact bind_eq_some_iff.mpr ⟨r, rlpNode_mono hrlp k, hres⟩

/-- The update of a path that is no branch of the tree stays. -/
def KeepsEntries (t : Tree 16 V) (s s' : SerialSparseTrie V H) : Prop :=
  s'.updates.isSome = s.updates.isSome ∧
    ∀ q, t.branchAt q = none → s'.entry q = s.entry q

/-- **`root`** is the hash of the tree that the trie stands for. -/
theorem root_spec (hw : w.Computes c) (h : Stands c w s t) :
    ∃ N s', (∀ fuel, N ≤ fuel → s.root c fuel = some (c.rootHash t, s')) ∧ Stands c w s' t ∧
      s'.prefixSet = .default ∧ KeepsEntries t s s' := by
  have hchanged : s.prefixSet.freeze.changed = s.prefixSet.changed :=
    funext s.prefixSet.changed_freeze
  have hroot : ∀ {N s' prefixSet}, (∀ fuel, N ≤ fuel →
      rlpNode c fuel { s with prefixSet := .default } s.prefixSet.freeze ⟨0, [], none⟩ =
        some (c.rlpNode t, s', prefixSet)) →
      ∀ fuel, N ≤ fuel → s.root c fuel = some (c.rootHash t, s') := by
    intro N s' prefixSet hN fuel hfuel
    rw [root, hN fuel hfuel, rootHash]
    cases c.rlpNode t <;> rfl
  rcases h.wf with rfl | hgood
  · have hnode : { s with prefixSet := .default }.nodes[([] : Nibbles)]? = some .empty := h.shows
    obtain ⟨N, hN⟩ := rlpNode_empty (c := c) hnode s.prefixSet.freeze 0 none
    exact ⟨N, _, hroot hN, ⟨h.wf, h.shows, h.values⟩, rfl, rfl, fun _ _ => rfl⟩
  · have hshows : Shows c w s.prefixSet.freeze.changed { s with prefixSet := .default } true [] t := by
      rw [hchanged]
      exact h.shows.congr (fun _ _ => rfl) (fun _ _ _ => id) (fun _ _ => rfl) fun _ _ => id
    obtain ⟨N, s', prefixSet, hN, _, hshows', hhashed⟩ :=
      rlpNode_spec hw 0 hgood hshows (fun h : none = some false => nomatch h)
    refine ⟨N, s', hroot hN, ⟨h.wf, hshows'.weaken fun _ _ _ => rfl, ?_⟩, hhashed.prefixSet,
      hhashed.updates, fun q hq => hhashed.entry q fun r hr => ?_⟩
    · rw [hhashed.values]
      exact h.values
    · rw [show r = q from hr]
      exact hq

end SerialSparseTrie

end Trie
