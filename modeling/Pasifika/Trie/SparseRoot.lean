import Pasifika.Runs
import Pasifika.Trie.SparseLevels
import Pasifika.Trie.TermCodec

/-! # The root of a sparse trie

A sparse trie that reveals some nodes of the trie of a map is updated, and its root is
compared with the root of the map after the same updates.

  * `Stands` holds after any reveals, and every call that returns `Ok` keeps it, if a key
    that is bound is only updated or removed where no hash is on its path;
  * `root_eq_mptRoot` — in a run of such calls, `root` is the root of the map;
  * a removal below a hash returns `Ok` as if the key were not bound. -/

namespace Trie

open Std OrderedMap Patricia List Tree Nibbles

variable {V B H : Type}

/-! ## The tree of a map -/

/-- All keys have 64 nibbles. -/
def Keyed (m : ExtTreeMap Nibbles V) : Prop :=
  ∀ (key : Nibbles) (value : V), m[key]? = some value → key.length = 64

/-- The tree of a map. -/
def treeOf (m : ExtTreeMap Nibbles V) : Tree 16 V := Tree.build 64 m.toList

variable {m : ExtTreeMap Nibbles V} {key : Nibbles}

theorem treeOf_spec (hm : Keyed m) : (treeOf m).WF 64 ∧ ∀ q, (treeOf m).lookup q = m[q]? := by
  have hlength : ∀ e ∈ m.toList, e.1.length = 64 := fun e he => hm e.1 e.2 (mem_toList.mp he)
  obtain ⟨hwf, hbinds⟩ := build_spec hlength (nodup_keys m)
  refine ⟨hwf, fun q => Option.ext fun value => ?_⟩
  rw [treeOf, hbinds, mem_toList]

theorem eq_treeOf (hm : Keyed m) (hwf : t.WF 64) (hlookup : ∀ q, t.lookup q = m[q]?) :
    t = treeOf m := by
  refine wf_unique hwf (treeOf_spec hm).1 fun q => ?_
  rw [hlookup, (treeOf_spec hm).2]

theorem Keyed.insert (hm : Keyed m) (hkey : key.length = 64) (value : V) :
    Keyed (m.insert key value) := by
  intro q v hq
  rw [get_insert] at hq
  split at hq
  · next h => exact h ▸ hkey
  · exact hm q v hq

theorem Keyed.erase (hm : Keyed m) (key : Nibbles) : Keyed (m.erase key) := by
  intro q v hq
  rw [get_erase] at hq
  split at hq
  · nomatch hq
  · exact hm q v hq

theorem treeOf_insert (hm : Keyed m) (hkey : key.length = 64) (value : V) :
    (treeOf m).insert key value = treeOf (m.insert key value) := by
  obtain ⟨hgood, hlookup⟩ := insert_spec value (treeOf_spec hm).1 hkey
  refine eq_treeOf (hm.insert hkey value) (.inr hgood) fun q => ?_
  rw [hlookup, get_insert, (treeOf_spec hm).2]
  simp only [eq_comm]

theorem treeOf_erase (hm : Keyed m) (hkey : key.length = 64) :
    (treeOf m).delete key = treeOf (m.erase key) := by
  obtain ⟨hwf, hlookup⟩ := delete_spec (treeOf_spec hm).1 hkey
  refine eq_treeOf (hm.erase key) hwf fun q => ?_
  rw [hlookup, get_erase, (treeOf_spec hm).2]
  simp only [eq_comm]

/-! ## What the hashes stand for -/

/-- Hashes stand for subtrees of a tree, and a hash that may be used again is right. -/
def subtreesOf (c : Codec V B H) (t : Tree 16 V) : Memory V H where
  cached _ _ u hash store := ∀ h b, hash = some h → store = some b → c.rlpNode u = .word h
  typed _ _ _ := True
  origin path u := t.At path u ∧ ∃ n, u.Good n
  forgets _ _ _ _ _ _ h := nomatch h

variable {c : Codec V B H} {t : Tree 16 V}

theorem subtreesOf_reveals : (subtreesOf c t).Reveals c where
  below h hr := ⟨h.1.trans hr, h.2.elim fun _ hgood => hr.good hgood⟩
  cached _ hrlp h b hh _ := by rw [← Option.some.inj hh]; exact hrlp
  fresh _ _ _ h := nomatch h

theorem subtreesOf_computes : (subtreesOf c t).Computes c where
  leaf _ _ _ := trivial
  hash _ _ := trivial
  extCached h := ⟨h _ _ rfl rfl, trivial⟩
  branchCached h := ⟨h _ _ rfl rfl, trivial⟩
  ext _ := ⟨trivial, fun _ _ _ hh _ => RlpNode.asHash_eq_some.mp hh⟩
  branch _ _ _ := ⟨trivial, fun _ _ hh _ => RlpNode.asHash_eq_some.mp hh⟩

namespace SerialSparseTrie

variable {w : Memory V H} {changed : Nibbles → Bool} {s s' : SerialSparseTrie V H}
variable {binds : Nibbles → V → Prop}

/-! ## Revealing nodes anywhere -/

variable {path key : Nibbles} {provider : TrieNodeProvider B H}
variable {st : SerialSparseTrie V H × ExtTreeMap Nibbles V} {masks : TrieMasks} {fuel : ℕ}

theorem Shows.unknown (hnodes : ∀ q : Nibbles, s.nodes[q]? = none) (hgood : t.Good n) :
    Shows c w changed s false path t := by
  induction t generalizing n changed path with
  | empty => exact absurd hgood id
  | leaf key value => exact .inl (.inl ⟨rfl, hnodes path⟩)
  | ext key child ih =>
    obtain ⟨_, _, m, _, hchild⟩ := hgood
    exact .inl ⟨.inl ⟨rfl, hnodes path⟩, ih hchild⟩
  | branch children ih =>
    obtain ⟨m, _, hchildren, _⟩ := hgood
    exact .inl ⟨.inl ⟨rfl, hnodes path⟩, fun i hi => ih i ((hchildren i).resolve_left hi)⟩

/-- A subtree is revealed in a trie that stands for a tree. -/
theorem Stands.of_within (h : ∀ key, s.values[key]? ≠ none → t.lookup key ≠ none) (hwf : t.WF 64)
    (hshows : Shows c w s.prefixSet.changed s' true [] t)
    (hwithin : Within region (t.lookup · = some ·) s s') : Stands c w s' t := by
  refine ⟨hwf, hwithin.prefixSet ▸ hshows, fun key hvalue => ?_⟩
  rcases hwithin.values key with heq | ⟨value', _, hbound, _⟩
  · exact h key (heq ▸ hvalue)
  · rw [hbound]
    nofun

/-- The provider returns the nodes of the trie of a map. -/
def TrueNodes (c : Codec V B H) (m : ExtTreeMap Nibbles V) (provider : TrieNodeProvider B H) :
    Prop :=
  ∀ path u, (treeOf m).At path u → u ≠ .empty → ∃ treeMask hashMask,
    provider path = .ok (some ⟨c.encode (c.trieNode u), treeMask, hashMask⟩)

/-- The provider that reads the nodes from the tree. -/
def providerOf (c : Codec V B H) (t : Tree 16 V) : TrieNodeProvider B H := fun path =>
  .ok ((t.subtree path).map (fun u => ⟨c.encode (c.trieNode u), none, none⟩))

theorem trueNodes_providerOf (c : Codec V B H) (hm : Keyed m) :
    TrueNodes c m (providerOf c (treeOf m)) := by
  intro path u hat hne
  refine ⟨none, none, ?_⟩
  rcases (treeOf_spec hm).1 with hempty | hgood
  · rw [hempty] at hat
    cases hat
    exact absurd rfl hne
  · rw [providerOf, hat.subtree_eq hgood]
    rfl

theorem TrueNodes.provides (h : TrueNodes c m provider) :
    (subtreesOf c (treeOf m)).Provides c provider := by
  rintro path u hash ⟨hat, n, hgood⟩ _
  exact h path u hat hgood.ne_empty

/-! ## Calls -/

/-- A key of 64 nibbles. -/
abbrev Key := { path : Nibbles // path.length = 64 }

/-- A call. -/
inductive Call (V : Type)
  | updateLeaf (key : Key) (value : V)
  | removeLeaf (key : Key)
  | updateSubtrieHashes
  | root

/-- No node on the path of a key is a hash. -/
def isOpen (s : SerialSparseTrie V H) (key : Nibbles) : Bool :=
  key.inits.all (fun q => !s.nodes[q]?.any (fun node => node.isHash))

/-- A key that is bound is only updated or removed where its path is revealed. -/
def admits (st : SerialSparseTrie V H × ExtTreeMap Nibbles V) : Call V → Bool
  | .updateLeaf key _ | .removeLeaf key => st.2[key.val]?.isNone || st.1.isOpen key.val
  | .updateSubtrieHashes | .root => true

/-- The trie stands for the map. -/
def Agrees (c : Codec V B H) (w : Memory V H)
    (st : SerialSparseTrie V H × ExtTreeMap Nibbles V) : Prop :=
  Keyed st.2 ∧ Stands c w st.1 (treeOf st.2)

theorem open_of_admits (hm : Keyed st.2) (h : (st.2[key]?.isNone || st.1.isOpen key) = true) :
    (treeOf st.2).lookup key ≠ none → st.1.Open key := by
  intro hlookup
  rw [(treeOf_spec hm).2] at hlookup
  rcases Bool.or_eq_true_iff.mp h with hnone | hopen
  · exact absurd (Option.isNone_iff_eq_none.mp hnone) hlookup
  · intro q hash hq hnode
    have hnot := all_eq_true.mp hopen q ((mem_inits q key).mpr hq)
    rw [hnode] at hnot
    nomatch hnot

variable [DecidableEq H]

/-- **A NODE** anywhere in the tree is revealed. -/
theorem revealNode_at (hw : w.Reveals c) (h : t.At r u) :
    ∀ {n : ℕ} {changed : Nibbles → Bool} {vis : Bool}
    {path : Nibbles}, t.Good n → w.origin path t →
    (∀ q value, t.lookup q = some value → binds (path ++ q) value) →
    Shows c w changed s vis path t →
    revealNode c fuel s (path ++ r) (c.trieNode u) masks = some (.ok (), s') →
    Shows c w changed s' vis path t ∧ Within (path ++ r <+: ·) binds s s' := by
  induction h with
  | here t =>
    intro n changed vis path hgood horigin hbinds hshows hrun
    rw [append_nil] at hrun ⊢
    have hrevealed := revealNode_spec hw hgood horigin hbinds hshows hrun
    -- what is visible is right where it need not be
    exact ⟨hrevealed.shows.imp_blinded fun _ h => .inr (h.resolve_left (nomatch ·.1)),
      hrevealed.within⟩
  | @ext key r child u hat ih =>
    intro n changed vis path hgood horigin hbinds hshows hrun
    obtain ⟨hkey, _, m, _, hchild⟩ := hgood
    rw [← append_assoc] at hrun ⊢
    have hbelow : ∀ {changed : Nibbles → Bool} {vis : Bool},
        Shows c w changed s vis (path ++ key) child →
        Shows c w changed s' vis (path ++ key) child ∧
          Within (path ++ key ++ r <+: ·) binds s s' := by
      intro changed vis hshows
      refine ih hchild (by simpa using hw.below horigin (.ext (.here child)))
        (fun q value hq => ?_) hshows hrun
      rw [append_assoc]
      exact hbinds _ _ ((lookup_ext_append key q child).trans hq)
    have hnode : ∀ {s'},
        Within (path ++ key ++ r <+: ·) binds s s' →
          s'.nodes[path]? = s.nodes[path]? := fun hwithin =>
      hwithin.nodes path (fun hle => not_extends_of_ne_nil hkey (extends_of_append hle))
    rcases hshows with ⟨hblinded, hchild'⟩ | ⟨hash, store, hn, hcached, hchild'⟩
    · obtain ⟨hresult, hwithin⟩ := hbelow hchild'
      exact ⟨.inl ⟨hblinded.congr (hnode hwithin), hresult⟩, hwithin⟩
    · obtain ⟨hresult, hwithin⟩ := hbelow hchild'
      refine ⟨.inr ⟨hash, store, (hnode hwithin).trans hn, fun hch => ?_, hresult⟩, hwithin⟩
      rw [hwithin.entry]
      exact hcached hch
  | @branch children i r u hi hat ih =>
    intro n changed vis path hgood horigin hbinds hshows hrun
    obtain ⟨m, _, hchildren, _⟩ := hgood
    rw [append_cons] at hrun ⊢
    have hbelow : ∀ {changed : Nibbles → Bool} {vis : Bool},
        Shows c w changed s vis (path ++ [i]) (children i) →
        Shows c w changed s' vis (path ++ [i]) (children i) ∧
          Within (fun q => path ++ [i] ++ r <+: q) binds s s' := by
      intro changed vis hshows
      refine ih ((hchildren i).resolve_left hi) (hw.below horigin (.branch hi (.here _)))
        (fun q value hq => ?_) hshows hrun
      rw [append_assoc]
      exact hbinds (i :: q) value hq
    have hnode : ∀ {s'},
        Within (fun q => path ++ [i] ++ r <+: q) binds s s' →
          s'.nodes[path]? = s.nodes[path]? := fun hwithin =>
      hwithin.nodes path (fun hle => not_extends_of_ne_nil (cons_ne_nil _ _)
        (extends_of_append hle))
    -- the other children are as they were
    have hothers : ∀ {changed : Nibbles → Bool} {vis : Bool},
        Within (fun q => path ++ [i] ++ r <+: q) binds s s' →
        Shows c w changed s' vis (path ++ [i]) (children i) →
        (∀ j, children j ≠ .empty → Shows c w changed s vis (path ++ [j]) (children j)) →
        ∀ j, children j ≠ .empty → Shows c w changed s' vis (path ++ [j]) (children j) := by
      intro changed vis hwithin hself hall j hj
      by_cases hji : j = i
      · exact hji ▸ hself
      · exact hwithin.shows (fun q hq hle => not_extends_sibling hji hq
          (extends_of_append hle)) (hall j hj)
    rcases hshows with ⟨hblinded, hall⟩ | ⟨hash, store, hn, hcached, hall⟩
    · obtain ⟨hresult, hwithin⟩ := hbelow (hall i hi)
      exact ⟨.inl ⟨hblinded.congr (hnode hwithin), hothers hwithin hresult hall⟩, hwithin⟩
    · obtain ⟨hresult, hwithin⟩ := hbelow (hall i hi)
      refine ⟨.inr ⟨hash, store, (hnode hwithin).trans hn, fun hch => ?_,
        hothers hwithin hresult hall⟩, hwithin⟩
      rw [hwithin.entry]
      exact hcached hch

/-! ## Tries that reveal a map -/

/-- **A SPARSE TRIE** that reveals the root and some other nodes of the trie of a map. -/
inductive Revealed (c : Codec V B H) (m : ExtTreeMap Nibbles V) : SerialSparseTrie V H → Prop
  | root {fuel : ℕ} {masks : TrieMasks} {retainUpdates : Bool} {s : SerialSparseTrie V H} :
      fromRoot c fuel (c.trieNode (treeOf m)) masks retainUpdates = some (.ok (), s) →
      Revealed c m s
  | node {fuel : ℕ} {path : Nibbles} {u : Tree 16 V} {masks : TrieMasks}
      {s s' : SerialSparseTrie V H} :
      Revealed c m s → (treeOf m).At path u → u ≠ .empty →
      revealNode c fuel s path (c.trieNode u) masks = some (.ok (), s') → Revealed c m s'

theorem stands_fromRoot (hm : Keyed m)
    (hrun : fromRoot c fuel (c.trieNode (treeOf m)) masks retainUpdates = some (.ok (), s)) :
    Stands c (subtreesOf c (treeOf m)) s (treeOf m) := by
  have hwf := (treeOf_spec hm).1
  have hnodes : ∀ q : Nibbles,
      (((default : SerialSparseTrie V H).withUpdates retainUpdates).removeNode []).nodes[q]? =
        none := by
    intro q
    cases retainUpdates <;> simp [withUpdates, default, removeNode]
  have hvalues : ∀ q : Nibbles,
      (((default : SerialSparseTrie V H).withUpdates retainUpdates).removeNode []).values[q]? ≠
        none → (treeOf m).lookup q ≠ none := by
    intro q hq
    cases retainUpdates <;> simp [withUpdates, default, removeNode] at hq
  rw [fromRoot] at hrun
  rcases hwf with hempty | hgood
  · rw [hempty] at hrun hvalues ⊢
    cases fuel with
    | zero => nomatch hrun
    | succ fuel =>
      rw [revealNode, hnodes, if_neg (by simp), Codec.trieNode, revealNewNode] at hrun
      cases hrun
      have hinsert : ∀ s : SerialSparseTrie V H, Within (fun _ => True)
          (lookup .empty · = some ·) s (s.insertNode [] .empty) :=
        fun s => .insertNode s _ trivial
      exact .of_within hvalues (.inl rfl) (nodes_insertNode_self _ _ _)
        ((within_insertMasks _ [] masks).trans (hinsert _))
  · have hrevealed : OpenedAt c (subtreesOf c (treeOf m)) (fun _ => false)
        (fun q value => (treeOf m).lookup q = some value) [] (treeOf m) _ s :=
      revealNode_spec subtreesOf_reveals hgood ⟨.here _, _, hgood⟩ (fun _ _ => id)
        (Shows.unknown hnodes hgood) hrun
    exact .of_within hvalues (.inr hgood) (hrevealed.shows.weaken fun _ _ _ => rfl) hrevealed.within

theorem Revealed.stands (hm : Keyed m) (h : Revealed c m s) :
    Stands c (subtreesOf c (treeOf m)) s (treeOf m) := by
  induction h with
  | root hrun => exact stands_fromRoot hm hrun
  | @node fuel path u masks s s' _ hat hne hrun ih =>
    have hgood := ih.wf.resolve_left (fun hempty => by
      rw [hempty] at hat
      cases hat
      exact hne rfl)
    obtain ⟨hshows, hwithin⟩ : _ ∧ Within (fun q => [] ++ path <+: q)
        (fun q value => (treeOf m).lookup q = some value) s s' :=
      revealNode_at subtreesOf_reveals hat hgood ⟨.here _, _, hgood⟩ (fun _ _ => id) ih.shows hrun
    exact .of_within ih.values ih.wf hshows hwithin

/-! ## Runs -/

/-- A call that returns `Ok`, and what it means for the map. -/
def apply (c : Codec V B H) (provider : TrieNodeProvider B H) (fuel : ℕ) :
    SerialSparseTrie V H × ExtTreeMap Nibbles V → Call V →
      Option (SerialSparseTrie V H × ExtTreeMap Nibbles V)
  | (s, m), .updateLeaf key value =>
    match updateLeaf c fuel provider s key.val value with
    | some (.ok (), s) => some (s, m.insert key.val value)
    | _ => none
  | (s, m), .removeLeaf key =>
    match removeLeaf c fuel provider s key.val with
    | some (.ok (), s) => some (s, m.erase key.val)
    | _ => none
  | (s, m), .updateSubtrieHashes => (s.updateSubtrieHashes c fuel).map (fun s => (s, m))
  | (s, m), .root => (s.root c fuel).map (fun res => (res.2, m))

/-- A step of a run. -/
def Step (c : Codec V B H) (provider : TrieNodeProvider B H)
    (st : SerialSparseTrie V H × ExtTreeMap Nibbles V) (call : Call V)
    (st' : SerialSparseTrie V H × ExtTreeMap Nibbles V) : Prop :=
  ∃ fuel, apply c provider fuel st call = some st'

/-- **ONE CALL** keeps the trie and the map together. -/
theorem Agrees.step (hreveals : w.Reveals c) (hcomputes : w.Computes c)
    (hprovider : w.Provides c provider) (h : Agrees c w st) (hadmits : admits st call = true)
    (hstep : Step c provider st call st') :
    Agrees c w st' := by
  obtain ⟨fuel, hstep⟩ := hstep
  obtain ⟨s, m⟩ := st
  obtain ⟨hm, hstands⟩ := h
  cases call with
  | updateLeaf key value =>
    rw [apply] at hstep
    split at hstep
    · next s' hrun =>
      cases hstep
      refine ⟨hm.insert key.property value, ?_⟩
      rw [← treeOf_insert hm key.property]
      exact (updateLeaf_spec hreveals hprovider hstands key.property
        (open_of_admits hm hadmits) hrun).1
    · nomatch hstep
  | removeLeaf key =>
    rw [apply] at hstep
    split at hstep
    · next s' hrun =>
      cases hstep
      refine ⟨hm.erase key.val, ?_⟩
      rw [← treeOf_erase hm key.property]
      exact (removeLeaf_spec hreveals hprovider hstands key.property
        (open_of_admits hm hadmits) hrun).1
    · nomatch hstep
  | updateSubtrieHashes =>
    obtain ⟨s', hrun, heq⟩ := Option.map_eq_some_iff.mp hstep
    obtain ⟨N, s'', hN, hstands', _⟩ := updateSubtrieHashes_spec hcomputes hstands
    cases heq
    have heq := (updateSubtrieHashes_mono hrun N).symm.trans (hN _ (Nat.le_add_left N fuel))
    rw [Option.some.inj heq]
    exact ⟨hm, hstands'⟩
  | root =>
    obtain ⟨res, hrun, heq⟩ := Option.map_eq_some_iff.mp hstep
    obtain ⟨N, s'', hN, hstands', _⟩ := root_spec hcomputes hstands
    cases heq
    have heq := (root_mono hrun N).symm.trans (hN _ (Nat.le_add_left N fuel))
    rw [Option.some.inj heq]
    exact ⟨hm, hstands'⟩

/-- **THE ROOT** of a sparse trie is that of the map, in a run in which a bound key is only updated
    or removed where its path is revealed. -/
theorem root_eq_mptRoot (c : Codec V B H) (provider : TrieNodeProvider B H)
    (m : ExtTreeMap Nibbles V) (hm : Keyed m) (hprovider : TrueNodes c m provider)
    (s₀ : SerialSparseTrie V H) (hrevealed : Revealed c m s₀) (s : SerialSparseTrie V H)
    (m' : ExtTreeMap Nibbles V)
    (h : Runs.ReachedBy (Step c provider) (fun st call => admits st call = true) (s₀, m) (s, m')) :
    ∃ N, ∀ fuel, N ≤ fuel → ∃ s', s.root c fuel = some (c.mptRoot m', s') := by
  have hagrees : Agrees c (subtreesOf c (treeOf m)) (s, m') :=
    h.invariant (I := Agrees c (subtreesOf c (treeOf m))) ⟨hm, hrevealed.stands hm⟩
      (fun st call st' _ hst hadmits hstep =>
        hst.step subtreesOf_reveals subtreesOf_computes hprovider.provides hadmits hstep)
  obtain ⟨N, s', hN, _⟩ := root_spec subtreesOf_computes hagrees.2
  exact ⟨N, fun fuel hfuel => ⟨s', hN fuel hfuel⟩⟩

/-- A key, by its first nibble. -/
def sampleKey (n : Fin 16) : Key := ⟨n :: List.replicate 63 0, rfl⟩

/-- A map with two keys. -/
def sampleMap : ExtTreeMap Nibbles ℕ :=
  ((∅ : ExtTreeMap Nibbles ℕ).insert (sampleKey 0).val 5).insert (sampleKey 1).val 6

theorem keyed_sampleMap : Keyed sampleMap :=
  Keyed.insert (Keyed.insert (fun _ _ h => by simp at h) (sampleKey 0).property 5)
    (sampleKey 1).property 6

/-- The codec that refers to every node by its hash. -/
def hashCodec : Codec ℕ Term Term := termCodec (fun _ => false)

/-- A trie that reveals only the root of the map. -/
def sampleTrie : Option (SerialSparseTrie ℕ Term) :=
  match fromRoot hashCodec 2 (hashCodec.trieNode (treeOf sampleMap)) .none false with
  | some (.ok (), s) => some s
  | _ => none

theorem revealed_sampleTrie {s : SerialSparseTrie ℕ Term} (h : sampleTrie = some s) :
    Revealed hashCodec sampleMap s := by
  rw [sampleTrie] at h
  split at h
  · next s' hrun =>
    cases h
    exact .root hrun
  · nomatch h

/-- **A REMOVAL** of a key below a hash returns `Ok` and changes nothing. -/
theorem remove_below_hash_ignored :
    ∃ (provider : TrieNodeProvider Term Term) (s₀ s : SerialSparseTrie ℕ Term)
      (m' : ExtTreeMap Nibbles ℕ), Keyed sampleMap ∧ TrueNodes hashCodec sampleMap provider ∧
      Revealed hashCodec sampleMap s₀ ∧
      Runs.Reachable (Step hashCodec provider) (s₀, sampleMap) (s, m') ∧
      ∃ fuel h s', s.root hashCodec fuel = some (h, s') ∧ h ≠ hashCodec.mptRoot m' := by
  have hrun : (sampleTrie.bind fun s₀ => (apply hashCodec (providerOf hashCodec (treeOf sampleMap)) 2
      (s₀, sampleMap) (.removeLeaf (sampleKey 0))).map fun st =>
        (st.1.root hashCodec 9).any fun res => res.1 ≠ hashCodec.mptRoot st.2) = some true := by
    decide +kernel
  obtain ⟨s₀, hs0, hrun⟩ := Option.bind_eq_some_iff.mp hrun
  obtain ⟨⟨s, m'⟩, hstep, hroot⟩ := Option.map_eq_some_iff.mp hrun
  obtain ⟨⟨h, s'⟩, hres, hne⟩ := (Option.any_eq_true _ _).mp hroot
  exact ⟨_, s₀, s, m', keyed_sampleMap, trueNodes_providerOf _ keyed_sampleMap,
    revealed_sampleTrie hs0, .step .init trivial ⟨2, hstep⟩, 9, h, s', hres, of_decide_eq_true hne⟩

/-- A key is inserted beside hashes, a subtrie is hashed, and the key is removed again. -/
theorem root_eq_mptRoot_sample : ∃ (s : SerialSparseTrie ℕ Term) (m' : ExtTreeMap Nibbles ℕ),
    m'.toList ≠ sampleMap.toList ∧
      ∃ N, ∀ fuel, N ≤ fuel → ∃ s', s.root hashCodec fuel = some (hashCodec.mptRoot m', s') := by
  have hrun : (sampleTrie.map fun s₀ => (Runs.run (apply hashCodec
      (providerOf hashCodec (treeOf sampleMap)) 9) admits
        [.updateLeaf (sampleKey 2) 7, .updateSubtrieHashes, .updateLeaf (sampleKey 3) 8, .root,
          .removeLeaf (sampleKey 2)] (s₀, sampleMap)).any
        (fun st => st.2.toList ≠ sampleMap.toList)) = some true := by
    decide +kernel
  obtain ⟨s₀, hs0, hrun⟩ := Option.map_eq_some_iff.mp hrun
  obtain ⟨⟨s, m'⟩, hreached, hne⟩ := Runs.exists_of_apply _ _ 9 _ _ _ hrun
  exact ⟨s, m', of_decide_eq_true hne, root_eq_mptRoot hashCodec _ sampleMap keyed_sampleMap
    (trueNodes_providerOf _ keyed_sampleMap) s₀ (revealed_sampleTrie hs0) s m' hreached⟩

end SerialSparseTrie

end Trie
