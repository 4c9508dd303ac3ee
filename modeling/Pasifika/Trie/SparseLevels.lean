import Pasifika.Trie.SparseRlp

/-! # Hashing below a level

`update_subtrie_hashes` looks for nodes at a depth that changed, encodes them, and keeps
the paths above them as the new prefix set. `targetsAt` and `marksAt` say which nodes
these are, over the tree that the trie stands for:

  * the loop of `get_changed_nodes_at_depth` finds them (`visits`);
  * once the targets are encoded, the trie stands for the same tree with the marks as
    its changed paths (`updateTargets_spec`). -/

namespace Trie

open Std OrderedMap Patricia List Option PrefixSet Codec TrieMask Nibbles Nat

variable {V B H : Type} {c : Codec V B H} {w : Memory V H}
variable {changed : Nibbles → Bool} {s s₀ s' : SerialSparseTrie V H}

namespace SerialSparseTrie

/-! ## Which nodes are targets -/

/-- What becomes of a node: it is passed over, encoded, or its children are looked at. -/
inductive Stage
  | skip
  | target
  | descend

/-- The stage of a node at a level. -/
def stage (s : SerialSparseTrie V H) (changed : Nibbles → Bool) (depth : ℕ) (path : Nibbles)
    (level : ℕ) : Stage :=
  match s.nodes[path]? with
  | some (.leaf _ hash) => if hash.isSome && !changed path then .skip else .target
  | some (.extension _ hash _) | some (.branch _ hash _) =>
    if hash.isSome && !changed path then .skip
    else if depth ≤ level then .target else .descend
  | _ => .skip

/-- The targets at and below a node. -/
def Stage.targets (stage : Stage) (node : ℕ × Nibbles) (below : List (ℕ × Nibbles)) :
    List (ℕ × Nibbles) :=
  match stage with
  | .skip => []
  | .target => [node]
  | .descend => below

/-- The paths that stay changed. -/
def Stage.marks (stage : Stage) (path : Nibbles) (below : List Nibbles) : List Nibbles :=
  match stage with
  | .descend => path :: below
  | _ => []

/-- The targets of a subtree. -/
def targetsAt (s : SerialSparseTrie V H) (changed : Nibbles → Bool) (depth : ℕ) :
    Tree 16 V → Nibbles → ℕ → List (ℕ × Nibbles)
  | .empty, _, _ => []
  | .leaf _ _, path, level => (s.stage changed depth path level).targets (level, path) []
  | .ext key child, path, level => (s.stage changed depth path level).targets (level, path)
      (targetsAt s changed depth child (path ++ key) (level + 1))
  | .branch children, path, level => (s.stage changed depth path level).targets (level, path)
      ((Codec.stateMask children).bits.flatMap
        (fun i => targetsAt s changed depth (children i) (path ++ [i]) (level + 1)))

/-- The paths of a subtree that stay changed. -/
def marksAt (s : SerialSparseTrie V H) (changed : Nibbles → Bool) (depth : ℕ) :
    Tree 16 V → Nibbles → ℕ → List Nibbles
  | .empty, _, _ => []
  | .leaf _ _, _, _ => []
  | .ext key child, path, level => (s.stage changed depth path level).marks path
      (marksAt s changed depth child (path ++ key) (level + 1))
  | .branch children, path, level => (s.stage changed depth path level).marks path
      ((Codec.stateMask children).bits.flatMap
        (fun i => marksAt s changed depth (children i) (path ++ [i]) (level + 1)))

/-! ## Finding the targets -/

/-- The paths become changed. -/
def mark (unchanged : PrefixSetMut) (marks : List Nibbles) : PrefixSetMut :=
  marks.foldl (fun unchanged path => unchanged.insert path) unchanged

theorem isUnchanged_spec (prefixSet : PrefixSet) (path : Nibbles) (hash : Option H) :
    (isUnchanged prefixSet path hash).1 = (hash.isSome && !prefixSet.changed path) ∧
      (isUnchanged prefixSet path hash).2.changed = prefixSet.changed := by
  cases hash with
  | none => exact ⟨rfl, rfl⟩
  | some hash =>
    refine ⟨?_, funext fun q => changed_contains _ _ _⟩
    show (!(prefixSet.contains path).1) = _
    rw [contains_fst]
    rfl

/-- The loop looks at the subtrees of some paths. -/
def Finds (s : SerialSparseTrie V H) (changed : Nibbles → Bool) (depth : ℕ)
    (next : List (Nibbles × ℕ)) (marks : List Nibbles) (found : List (ℕ × Nibbles)) : Prop :=
  ∀ ⦃prefixSet : PrefixSet⦄, prefixSet.changed = changed →
    ∀ (paths : List (Nibbles × ℕ)) (unchanged : PrefixSetMut) (targets : List (ℕ × Nibbles)),
      ∃ n prefixSet', prefixSet'.changed = changed ∧ ∀ fuel,
        getChangedNodesAtDepth s depth (fuel + n) (next ++ paths) prefixSet unchanged targets =
          getChangedNodesAtDepth s depth fuel paths prefixSet' (mark unchanged marks)
            (targets ++ found)

/-- The loop looks at a subtree. -/
def Visits (s : SerialSparseTrie V H) (changed : Nibbles → Bool) (depth : ℕ) (t : Tree 16 V)
    (path : Nibbles) (level : ℕ) : Prop :=
  Finds s changed depth [(path, level)] (s.marksAt changed depth t path level)
    (s.targetsAt changed depth t path level)

variable {depth level : ℕ} {t : Tree 16 V} {path : Nibbles} {hash : Option H}
variable {marks : List Nibbles} {prefixSet : PrefixSet}

theorem Finds.nil : Finds s changed depth [] [] [] := by
  intro prefixSet hset paths unchanged targets
  refine ⟨0, prefixSet, hset, fun fuel => ?_⟩
  rw [append_nil]
  rfl

theorem Finds.append {next next' : List (Nibbles × ℕ)} {marks marks' : List Nibbles}
    {found found' : List (ℕ × Nibbles)} (h : Finds s changed depth next marks found)
    (h' : Finds s changed depth next' marks' found') :
    Finds s changed depth (next ++ next') (marks ++ marks') (found ++ found') := by
  intro prefixSet hset paths unchanged targets
  obtain ⟨n, prefixSet1, hset1, hn⟩ := h hset (next' ++ paths) unchanged targets
  obtain ⟨n', prefixSet2, hset2, hn'⟩ := h' hset1 paths (mark unchanged marks) (targets ++ found)
  refine ⟨n' + n, prefixSet2, hset2, fun fuel => ?_⟩
  rw [append_assoc, ← add_assoc, hn, hn', ← append_assoc, mark, mark, mark, foldl_append]

variable {bits : List (Fin 16)} {path key : Nibbles} {below : List (ℕ × Nibbles)}
variable {next : List (Nibbles × ℕ)} {n : ℕ}

/-- The children of a branch, one after the other. -/
theorem Finds.flatMap {next : Fin 16 → Nibbles × ℕ} {marks : Fin 16 → List Nibbles}
    {found : Fin 16 → List (ℕ × Nibbles)}
    (h : ∀ i ∈ bits, Finds s changed depth [next i] (marks i) (found i)) :
    Finds s changed depth (bits.map next) (bits.flatMap marks) (bits.flatMap found) := by
  induction bits with
  | nil => exact .nil
  | cons i bits ih =>
    exact (h i mem_cons_self).append (ih fun j hj => h j (mem_cons_of_mem _ hj))

theorem visits_hash {hash : H} (hnode : s.nodes[path]? = some (.hash hash)) :
    Visits s changed depth t path level := by
  intro prefixSet hset paths unchanged targets
  have hstage : s.stage changed depth path level = .skip := by rw [stage, hnode]
  have htargets : s.targetsAt changed depth t path level = [] := by
    cases t <;> simp [targetsAt, hstage, Stage.targets]
  have hmarks : s.marksAt changed depth t path level = [] := by
    cases t <;> simp [marksAt, hstage, Stage.marks]
  refine ⟨1, prefixSet, hset, fun fuel => ?_⟩
  rw [singleton_append, getChangedNodesAtDepth, hnode, htargets, hmarks, append_nil]
  rfl

theorem visits_leaf (hnode : s.nodes[path]? = some (.leaf key hash)) :
    Visits s changed depth (.leaf key value) path level := by
  intro prefixSet hset paths unchanged targets
  obtain ⟨hskip, hset'⟩ := isUnchanged_spec prefixSet path hash
  refine ⟨1, _, hset'.trans hset, fun fuel => ?_⟩
  rw [singleton_append, getChangedNodesAtDepth, hnode, targetsAt, stage, hnode, ← hset]
  dsimp only
  rw [hskip]
  split
  · exact congrArg _ (append_nil _).symm
  · rfl

/-- An extension or a branch, from what lies below it. -/
theorem visits_inner
    (hstage : s.stage changed depth path level =
      if hash.isSome && !changed path then .skip else if depth ≤ level then .target else .descend)
    (htargets : s.targetsAt changed depth t path level =
      (s.stage changed depth path level).targets (level, path) below)
    (hmarks : s.marksAt changed depth t path level =
      (s.stage changed depth path level).marks path marks)
    (hloop : ∀ fuel paths prefixSet unchanged targets,
      getChangedNodesAtDepth s depth (fuel + 1) ((path, level) :: paths) prefixSet unchanged
        targets =
        if (isUnchanged prefixSet path hash).1 then
          getChangedNodesAtDepth s depth fuel paths (isUnchanged prefixSet path hash).2 unchanged
            targets
        else if depth ≤ level then
          getChangedNodesAtDepth s depth fuel paths (isUnchanged prefixSet path hash).2 unchanged
            (targets ++ [(level, path)])
        else
          getChangedNodesAtDepth s depth fuel (next ++ paths) (isUnchanged prefixSet path hash).2
            (unchanged.insert path) targets) (hbelow : Finds s changed depth next marks below) :
    Visits s changed depth t path level := by
  intro prefixSet hset paths unchanged targets
  obtain ⟨hskip, hset'⟩ := isUnchanged_spec prefixSet path hash
  rw [hset] at hskip hset'
  rw [htargets, hmarks, hstage]
  by_cases hunchanged : (hash.isSome && !changed path) = true
  · refine ⟨1, _, hset', fun fuel => ?_⟩
    rw [singleton_append, hloop, if_pos (hskip.trans hunchanged), if_pos hunchanged]
    exact congrArg _ (append_nil _).symm
  · by_cases hdepth : depth ≤ level
    · refine ⟨1, _, hset', fun fuel => ?_⟩
      rw [singleton_append, hloop, hskip, if_neg hunchanged, if_neg hunchanged, if_pos hdepth,
        if_pos hdepth]
      rfl
    · obtain ⟨n, prefixSet', hset'', hn⟩ := hbelow hset' paths (unchanged.insert path) targets
      refine ⟨n + 1, prefixSet', hset'', fun fuel => ?_⟩
      rw [singleton_append, ← add_assoc, hloop, hskip, if_neg hunchanged,
        if_neg hunchanged, if_neg hdepth, if_neg hdepth, hn]
      rfl

/-- **THE SEARCH** finds the targets of a subtree. -/
theorem visits : ∀ {t} {n} {path} level, t.Good n →
    Shows c w changed s true path t → Visits s changed depth t path level := by
  have hblinded : ∀ {u} {path} {level},
      Blinded c w s true path u → Visits s changed depth u path level := by
    rintro u path level (⟨⟨⟩, _⟩ | ⟨hash, hnode, _⟩)
    · exact visits_hash hnode
  intro t
  induction t with
  | empty => intro n path level hgood; exact absurd hgood id
  | leaf key value =>
    intro n path level _ hshows
    rcases hshows with h | ⟨hash, hnode, _⟩
    · exact hblinded h
    · exact visits_leaf hnode
  | ext key child ih =>
    intro n path level hgood hshows
    obtain ⟨_, _, m, _, hchild⟩ := hgood
    rcases hshows with h | ⟨hash, store, hnode, _, hbelow⟩
    · exact hblinded h.1
    · refine visits_inner (by rw [stage, hnode]) rfl rfl (fun fuel paths P unchanged targets => ?_)
        (ih (level + 1) hchild hbelow)
      rw [getChangedNodesAtDepth, hnode]
      rfl
  | branch children ih =>
    intro n path level hgood hshows
    obtain ⟨m, _, hchildren, _⟩ := hgood
    rcases hshows with h | ⟨hash, store, hnode, _, hbelow⟩
    · exact hblinded h.1
    have hvisits : ∀ i ∈ (stateMask children).bits,
        Visits s changed depth (children i) (path ++ [i]) (level + 1) := by
      intro i hi
      have hne := stateMask_iff.mp (mem_bits.mp hi)
      exact ih i (level + 1) ((hchildren i).resolve_left hne) (hbelow i hne)
    refine visits_inner (by rw [stage, hnode]) rfl rfl (fun fuel paths P unchanged targets => ?_)
      (Finds.flatMap hvisits)
    rw [getChangedNodesAtDepth, hnode]

/-! ## Encoding the targets -/

/-- The targets of a subtree are encoded, and what is not marked is right. -/
def Refreshed (c : Codec V B H) (w : Memory V H) (changed : Nibbles → Bool) (path : Nibbles)
    (t : Tree 16 V) (targets : List (ℕ × Nibbles)) (marks : List Nibbles)
    (s : SerialSparseTrie V H) (prefixSet : PrefixSet) : Prop :=
  ∃ N s' prefixSet', prefixSet'.changed = changed ∧ Hashed path t s s' ∧
    (∀ changed' : Nibbles → Bool, (∀ m ∈ marks, changed' m = true) →
      Shows c w changed' s' true path t) ∧
    ∀ fuel, N ≤ fuel → ∀ more, updateTargets c fuel (targets ++ more) s prefixSet =
      updateTargets c fuel more s' prefixSet'

/-- The same for every trie with the nodes that were searched. -/
def Refreshes (c : Codec V B H) (w : Memory V H) (s₀ : SerialSparseTrie V H)
    (changed : Nibbles → Bool) (depth : ℕ) (t : Tree 16 V) (path : Nibbles) (level : ℕ) : Prop :=
  ∀ ⦃s : SerialSparseTrie V H⦄ ⦃prefixSet : PrefixSet⦄, prefixSet.changed = changed →
    (∀ q, path <+: q → s.nodes[q]? = s₀.nodes[q]?) → Shows c w changed s true path t →
    Refreshed c w changed path t (s₀.targetsAt changed depth t path level)
      (s₀.marksAt changed depth t path level) s prefixSet

/-- What is remembered of a subtree without changes is right. -/
theorem Shows.of_unchanged (hset : prefixSet.changed = changed)
    (hunchanged : (hash.isSome && !changed path) = true)
    (hshows : Shows c w changed s true path t) : Shows c w (fun _ => false) s true path t := by
  have hpath : prefixSet.changed path = false := by
    rw [hset]
    simpa using (Bool.and_eq_true_iff.mp hunchanged).2
  exact hshows.weaken fun q hq _ => hset ▸ unchanged_below hpath hq

theorem refreshed_skip (hset : prefixSet.changed = changed)
    (hshows : Shows c w (fun _ => false) s true path t) :
    Refreshed c w changed path t [] [] s prefixSet :=
  ⟨0, s, prefixSet, hset, .refl _ _ _, fun _ _ => hshows.weaken fun _ _ _ => rfl, fun _ _ _ => rfl⟩

theorem refreshed_target (hw : w.Computes c) (level : ℕ) (hset : prefixSet.changed = changed)
    (hgood : t.Good n) (hshows : Shows c w changed s true path t) :
    Refreshed c w changed path t [(level, path)] [] s prefixSet := by
  rw [← hset] at hshows
  obtain ⟨N, s', prefixSet', hN, hset', hshows', hhashed⟩ :=
    rlpNode_spec hw level hgood hshows (fun h : some true = some false => nomatch h)
  refine ⟨N, s', prefixSet', hset'.trans hset, hhashed,
    fun _ _ => hshows'.weaken fun _ _ _ => rfl, fun fuel hfuel more => ?_⟩
  rw [singleton_append, updateTargets, hN fuel hfuel]
  rfl

theorem refreshed_inner (hw : w.Computes c) (hset : prefixSet.changed = changed)
    (hgood : t.Good n) (hshows : Shows c w changed s true path t)
    (hbelow : Refreshed c w changed path t below (path :: marks) s prefixSet) :
    let stage := if hash.isSome && !changed path then Stage.skip
      else if depth ≤ level then .target else .descend
    Refreshed c w changed path t (stage.targets (level, path) below) (stage.marks path marks) s
      prefixSet := by
  by_cases hunchanged : (hash.isSome && !changed path) = true
  · dsimp only
    rw [if_pos hunchanged]
    exact refreshed_skip hset (hshows.of_unchanged hset hunchanged)
  · by_cases hdepth : depth ≤ level
    · dsimp only
      rw [if_neg hunchanged, if_pos hdepth]
      exact refreshed_target hw level hset hgood hshows
    · dsimp only
      rw [if_neg hunchanged, if_neg hdepth]
      exact hbelow

variable {targets : List (ℕ × Nibbles)} {fuel : ℕ}

theorem refreshed_ext (hkey : key ≠ [])
    (hnode : s.nodes[path]? = some (.extension key hash store))
    (h : Refreshed c w changed (path ++ key) child targets marks s prefixSet) :
    Refreshed c w changed path (.ext key child) targets (path :: marks) s prefixSet := by
  obtain ⟨N, s', prefixSet', hset, hhashed, hshows, hupdate⟩ := h
  refine ⟨N, s', prefixSet', hset, hhashed.ext, fun changed' hmarks => ?_, hupdate⟩
  refine .of_ext ((hhashed.nodes path (not_extends_of_ne_nil hkey)).trans hnode)
    (hmarks path mem_cons_self) (hshows changed' fun m hm => ?_)
  exact hmarks m (mem_cons_of_mem _ hm)

theorem refreshed_children (hnodup : bits.Nodup) (hset : prefixSet.changed = changed)
    (hrefreshes : ∀ i ∈ bits, Refreshes c w s₀ changed depth (children i) (path ++ [i]) level)
    (hnodes : ∀ i ∈ bits, ∀ q, path ++ [i] <+: q → s.nodes[q]? = s₀.nodes[q]?)
    (hshows : ∀ i ∈ bits, Shows c w changed s true (path ++ [i]) (children i)) :
    ∃ N s' prefixSet', prefixSet'.changed = changed ∧ Hashed path (.branch children) s s' ∧
      s'.nodes[path]? = s.nodes[path]? ∧
      (∀ i, i ∉ bits → ∀ {changed' : Nibbles → Bool} {u : Tree 16 V},
      Shows c w changed' s true (path ++ [i]) u → Shows c w changed' s' true (path ++ [i]) u) ∧
      (∀ changed' : Nibbles → Bool,
      (∀ m ∈ bits.flatMap fun i => s₀.marksAt changed depth (children i) (path ++ [i]) level,
      changed' m = true) → ∀ i ∈ bits, Shows c w changed' s' true (path ++ [i]) (children i)) ∧
      ∀ fuel, N ≤ fuel → ∀ more, updateTargets c fuel
      (bits.flatMap (fun i => s₀.targetsAt changed depth (children i) (path ++ [i]) level) ++
      more) s prefixSet = updateTargets c fuel more s' prefixSet' := by
  induction bits generalizing s prefixSet with
  | nil =>
    exact ⟨0, s, prefixSet, hset, .refl _ _ _, rfl, fun _ _ => id, nofun, fun _ _ _ => rfl⟩
  | cons i bits ih =>
    obtain ⟨hi, hnodup⟩ := nodup_cons.mp hnodup
    have hne : ∀ j ∈ bits, j ≠ i := by
      rintro j hj rfl
      exact hi hj
    obtain ⟨N, s1, prefixSet1, hset1, hhashed, hshows1, hupdate⟩ :=
      hrefreshes i mem_cons_self hset (hnodes i mem_cons_self) (hshows i mem_cons_self)
    -- the other children are as they were
    have hothers : ∀ j, j ≠ i → ∀ {changed' : Nibbles → Bool} {u : Tree 16 V},
        Shows c w changed' s true (path ++ [j]) u →
          Shows c w changed' s1 true (path ++ [j]) u := by
      intro j hji changed' u hu
      exact hhashed.shows (fun q hq => not_extends_sibling hji hq) hu
    obtain ⟨N', s', prefixSet', hset', hhashed', hnode, hkept, hshows', hupdate'⟩ := ih hnodup hset1
      (fun j hj => hrefreshes j (mem_cons_of_mem _ hj))
      (fun j hj q hq => (hhashed.nodes q (not_extends_sibling (hne j hj) hq)).trans
        (hnodes j (mem_cons_of_mem _ hj) q hq))
      (fun j hj => hothers j (hne j hj) (hshows j (mem_cons_of_mem _ hj)))
    refine ⟨max N N', s', prefixSet', hset', hhashed.branch.trans hhashed', hnode.trans ?_,
      fun j hj changed' u hu => ?_, fun changed' hmarks j hj => ?_, fun fuel hfuel more => ?_⟩
    · exact hhashed.nodes path (not_extends_of_ne_nil (cons_ne_nil _ _))
    · obtain ⟨hji, hj⟩ := not_or.mp (mem_cons.not.mp hj)
      exact hkept j hj (hothers j hji hu)
    · rw [flatMap_cons] at hmarks
      rcases mem_cons.mp hj with rfl | hj
      · exact hkept j hi (hshows1 changed' fun m hm => hmarks m (mem_append_left _ hm))
      · exact hshows' changed' (fun m hm => hmarks m (mem_append_right _ hm)) j hj
    · rw [flatMap_cons, append_assoc,
        hupdate fuel (le_of_max_le_left hfuel), hupdate' fuel (le_of_max_le_right hfuel)]

/-- **THE TARGETS** of a subtree are encoded. -/
theorem refreshes (hw : w.Computes c) : ∀ {t} {n} {path} level, t.Good n → Refreshes c w s₀ changed depth t path level := by
  -- a hash is right, and is no target
  have hblinded : ∀ {u} {path} {level} {s} {prefixSet}, prefixSet.changed = changed → s.nodes[path]? = s₀.nodes[path]? →
      Blinded c w s true path u → Shows c w (fun _ => false) s true path u →
      Refreshed c w changed path u (s₀.targetsAt changed depth u path level)
        (s₀.marksAt changed depth u path level) s prefixSet := by
    rintro u path level s prefixSet hset hnodes (⟨⟨⟩, _⟩ | ⟨hash, hnode, _⟩) hshows
    · have hstage : s₀.stage changed depth path level = .skip := by
        rw [stage, ← hnodes, hnode]
      have htargets : s₀.targetsAt changed depth u path level = [] := by
        cases u <;> simp [targetsAt, hstage, Stage.targets]
      have hmarks : s₀.marksAt changed depth u path level = [] := by
        cases u <;> simp [marksAt, hstage, Stage.marks]
      rw [htargets, hmarks]
      exact refreshed_skip hset hshows
  intro t
  induction t with
  | empty => intro n path level hgood; exact absurd hgood id
  | leaf key value =>
    intro n path level hgood s prefixSet hset hnodes hshows
    have hshows' := hshows
    rcases hshows with h | ⟨hash, hnode, _⟩
    · exact hblinded hset (hnodes path prefix_rfl) h (.inl h)
    rw [targetsAt, marksAt, stage, ← hnodes path prefix_rfl, hnode]
    by_cases hunchanged : (hash.isSome && !changed path) = true
    · dsimp only
      rw [if_pos hunchanged]
      exact refreshed_skip hset (hshows'.of_unchanged hset hunchanged)
    · dsimp only
      rw [if_neg hunchanged]
      exact refreshed_target hw level hset hgood hshows'
  | ext key child ih =>
    intro n path level hgood s prefixSet hset hnodes hshows
    have hshows' := hshows
    obtain ⟨hkey, _, m, _, hchild⟩ := id hgood
    rcases hshows with h | ⟨hash, store, hnode, _, hbelow⟩
    · exact hblinded hset (hnodes path prefix_rfl) h.1 (.inl h)
    · have hstage : s₀.stage changed depth path level =
          if hash.isSome && !changed path then .skip
          else if depth ≤ level then .target else .descend := by
        rw [stage, ← hnodes path prefix_rfl, hnode]
      rw [targetsAt, marksAt, hstage]
      refine refreshed_inner hw hset hgood hshows' (refreshed_ext hkey hnode ?_)
      exact ih (level + 1) hchild hset (fun q hq => hnodes q (extends_of_append hq)) hbelow
  | branch children ih =>
    intro n path level hgood s prefixSet hset hnodes hshows
    have hshows' := hshows
    obtain ⟨m, _, hchildren, _⟩ := id hgood
    rcases hshows with h | ⟨hash, store, hnode, _, hbelow⟩
    · exact hblinded hset (hnodes path prefix_rfl) h.1 (.inl h)
    have hstage : s₀.stage changed depth path level =
        if hash.isSome && !changed path then .skip
        else if depth ≤ level then .target else .descend := by
      rw [stage, ← hnodes path prefix_rfl, hnode]
    rw [targetsAt, marksAt, hstage]
    refine refreshed_inner hw hset hgood hshows' ?_
    have hne : ∀ i ∈ (stateMask children).bits, children i ≠ .empty :=
      fun i hi => stateMask_iff.mp (mem_bits.mp hi)
    obtain ⟨N, s', prefixSet', hset', hhashed, hnode', _, hshows'', hupdate⟩ :=
      refreshed_children (nodup_bits _) hset
        (fun i hi => ih i (level + 1) ((hchildren i).resolve_left (hne i hi)))
        (fun i _ q hq => hnodes q (extends_of_append hq))
        (fun i hi => hbelow i (hne i hi))
    refine ⟨N, s', prefixSet', hset', hhashed, fun changed' hmarks => ?_, hupdate⟩
    refine .of_branch (hnode'.trans hnode) (hmarks path mem_cons_self) fun i hi => ?_
    exact hshows'' changed' (fun m hm => hmarks m (mem_cons_of_mem _ hm)) i
      (mem_bits.mpr (stateMask_iff.mpr hi))

/-! ## `update_subtrie_hashes` -/

theorem changed_mark (unchanged : PrefixSetMut) (h : m ∈ marks) :
    (mark unchanged marks).changed m = true := by
  have hmono : ∀ marks unchanged, unchanged.changed m = true →
      (mark unchanged marks).changed m = true := by
    intro marks
    induction marks with
    | nil => intro unchanged h; exact h
    | cons path marks ih =>
      intro unchanged h
      refine ih _ ?_
      rw [PrefixSetMut.changed_insert, h, Bool.true_or]
  induction marks generalizing unchanged with
  | nil => nomatch h
  | cons path marks ih =>
    rcases mem_cons.mp h with rfl | h
    · exact hmono marks _ (unchanged.changed_insert_of_extends m m prefix_rfl)
    · exact ih _ h

theorem getChangedNodesAtDepth_mono
    (h : getChangedNodesAtDepth s depth fuel paths prefixSet unchanged targets = some res) :
    ∀ k, getChangedNodesAtDepth s depth (fuel + k) paths prefixSet unchanged targets =
      some res := by
  induction fuel generalizing paths prefixSet unchanged targets with
  | zero => nomatch h
  | succ fuel ih =>
    intro k
    rw [add_right_comm]
    cases paths with
    | nil => exact h
    | cons item paths =>
      obtain ⟨path, level⟩ := item
      rw [getChangedNodesAtDepth] at h ⊢
      cases hnode : s.nodes[path]? with
      | none => rw [hnode] at h; nomatch h
      | some node =>
        rw [hnode] at h
        cases node with
        | empty | hash => exact ih h k
        | leaf key hash =>
          dsimp only at h ⊢
          by_cases hskip : (isUnchanged prefixSet path hash).1 = true
          · rw [if_pos hskip] at h ⊢
            exact ih h k
          · rw [if_neg hskip] at h ⊢
            exact ih h k
        | extension key hash store | branch stateMask hash store =>
          dsimp only at h ⊢
          by_cases hskip : (isUnchanged prefixSet path hash).1 = true
          · rw [if_pos hskip] at h ⊢
            exact ih h k
          · rw [if_neg hskip] at h ⊢
            split at h
            · next hdepth => rw [if_pos hdepth]; exact ih h k
            · next hdepth => rw [if_neg hdepth]; exact ih h k

theorem updateTargets_mono (k : ℕ) (h : updateTargets c fuel targets s prefixSet = some s') :
    updateTargets c (fuel + k) targets s prefixSet = some s' := by
  induction targets generalizing s prefixSet with
  | nil => exact h
  | cons target targets ih =>
    obtain ⟨level, path⟩ := target
    obtain ⟨res, hrlp, hrest⟩ := bind_eq_some_iff.mp h
    exact bind_eq_some_iff.mpr ⟨res, rlpNode_mono hrlp k, ih hrest⟩

theorem updateSubtrieHashes_mono (h : s.updateSubtrieHashes c fuel = some s') (k : ℕ) :
    s.updateSubtrieHashes c (fuel + k) = some s' := by
  obtain ⟨⟨targets, unchanged, prefixSet⟩, hfind, hupdate⟩ := bind_eq_some_iff.mp h
  exact bind_eq_some_iff.mpr ⟨_, getChangedNodesAtDepth_mono hfind k, updateTargets_mono k hupdate⟩

theorem updateSubtrieHashes_eq (hfinds : Finds s s.prefixSet.changed 2 [([], 0)] marks targets)
    (hrefreshed : ∀ {prefixSet}, prefixSet.changed = s.prefixSet.changed →
      Refreshed c w s.prefixSet.changed [] t targets marks
        { s with prefixSet := mark .default marks } prefixSet) :
    ∃ N s', (∀ fuel, N ≤ fuel → s.updateSubtrieHashes c fuel = some s') ∧
      Shows c w s'.prefixSet.changed s' true [] t ∧
      Hashed [] t { s with prefixSet := mark .default marks } s' := by
  obtain ⟨n, prefixSet, hset, hn⟩ := hfinds (funext s.prefixSet.changed_freeze) [] .default []
  obtain ⟨N, s', prefixSet', _, hhashed, hshows, hupdate⟩ := hrefreshed hset
  refine ⟨max N (n + 1), s', fun fuel hfuel => ?_, ?_, hhashed⟩
  · obtain ⟨k, rfl⟩ := Nat.exists_eq_add_of_le (le_of_max_le_right hfuel)
    have hsearch : getChangedNodesAtDepth s 2 (n + 1 + k) [([], 0)] s.prefixSet.freeze .default []
        = some (targets, mark .default marks, prefixSet) := by
      rw [show n + 1 + k = (k + 1) + n by omega]
      exact hn (k + 1)
    rw [updateSubtrieHashes, updateRlpNodeLevel, hsearch]
    have hdone := hupdate (n + 1 + k) (le_of_max_le_left hfuel) []
    rw [append_nil] at hdone
    exact hdone
  · refine hshows s'.prefixSet.changed (fun m hm => ?_)
    rw [hhashed.prefixSet]
    exact changed_mark _ hm

/-- **`update_subtrie_hashes`** keeps the tree. -/
theorem updateSubtrieHashes_spec (hw : w.Computes c) (h : Stands c w s t) :
    ∃ N s', (∀ fuel, N ≤ fuel → s.updateSubtrieHashes c fuel = some s') ∧ Stands c w s' t ∧
      KeepsEntries t s s' := by
  obtain ⟨N, s', prefixSet, hN, hshows, hhashed⟩ : ∃ N s' prefixSet,
      (∀ fuel, N ≤ fuel → s.updateSubtrieHashes c fuel = some s') ∧
      Shows c w s'.prefixSet.changed s' true [] t ∧
      Hashed [] t { s with prefixSet := prefixSet } s' := by
    rcases h.wf with rfl | hgood
    · have hfinds : Finds s s.prefixSet.changed 2 [([], 0)] [] [] := by
        intro prefixSet hset paths unchanged targets
        refine ⟨1, prefixSet, hset, fun fuel => ?_⟩
        rw [singleton_append, getChangedNodesAtDepth,
          show s.nodes[([] : Nibbles)]? = some .empty from h.shows, append_nil]
        rfl
      have hempty : ∀ prefixSet, Shows c w (fun _ => false) { s with prefixSet := prefixSet } true []
          .empty := fun _ => h.shows
      obtain ⟨N, s', hrest⟩ := updateSubtrieHashes_eq hfinds
        (fun hset => refreshed_skip hset (hempty _))
      exact ⟨N, s', _, hrest⟩
    · have hshows : ∀ prefixSet, Shows c w s.prefixSet.changed { s with prefixSet := prefixSet }
          true [] t := fun _ => h.shows.congr (fun _ _ => rfl) (fun _ _ _ => id) (fun _ _ => rfl)
            (fun _ _ => id)
      obtain ⟨N, s', hrest⟩ := updateSubtrieHashes_eq (visits 0 hgood h.shows)
        (fun hset => refreshes hw 0 hgood hset (fun _ _ => rfl) (hshows _))
      exact ⟨N, s', _, hrest⟩
  refine ⟨N, s', hN, ⟨h.wf, hshows, ?_⟩, hhashed.updates, fun q hq => hhashed.entry q ?_⟩
  · rw [hhashed.values]
    exact h.values
  · rintro r rfl
    exact hq

end SerialSparseTrie

end Trie
