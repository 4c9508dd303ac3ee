import Mathlib

/-! # Syncing a DNS tree

`poll` and `update_root` of `SyncTree` (`dns/src/sync.rs`). Instants are `Nat`,
the linked hash sets of unresolved hashes are lists, front first. -/

namespace Dns

inductive SyncState
  | pending | enr | link | active | rootUpdate
  deriving DecidableEq

inductive SyncAction
  | updateRoot
  | enr (hash : String)
  | link (hash : String)

structure TreeRoot where
  enrRoot : String
  linkRoot : String

structure SyncTree where
  root : TreeRoot
  rootUpdated : Nat
  syncState : SyncState
  unresolvedLinks : List String
  unresolvedNodes : List String

namespace SyncTree

variable {t : SyncTree} {root : TreeRoot} {now timeout : Nat}

def poll (t : SyncTree) (now timeout : Nat) : Option SyncAction × SyncTree :=
  match t.syncState with
  | .pending => (some (.link t.root.linkRoot), { t with syncState := .enr })
  | .enr => (some (.enr t.root.enrRoot), { t with syncState := .active })
  | .link => (some (.link t.root.linkRoot), { t with syncState := .active })
  | .rootUpdate => (none, t)
  | .active =>
    if now > t.rootUpdated + timeout then (some .updateRoot, { t with syncState := .rootUpdate })
    else match t.unresolvedLinks, t.unresolvedNodes with
      | l :: ls, _ => (some (.link l), { t with unresolvedLinks := ls })
      | [], n :: ns => (some (.enr n), { t with unresolvedNodes := ns })
      | [], [] => (none, t)

def updateRoot (t : SyncTree) (root : TreeRoot) (now : Nat) : SyncTree :=
  let enr := root.enrRoot == t.root.enrRoot
  let link := root.linkRoot == t.root.linkRoot
  let t := { t with root, rootUpdated := now }
  match enr, link with
  | true, true => { t with unresolvedNodes := [], unresolvedLinks := [], syncState := .pending }
  | true, _ => { t with unresolvedNodes := [], syncState := .enr }
  | _, true => { t with unresolvedLinks := [], syncState := .link }
  | _, _ => t

/-- The actions of polls at the given instants, and the tree they leave. -/
def polls (timeout : Nat) : List Nat → SyncTree → List SyncAction × SyncTree
  | [], t => ([], t)
  | now :: times, t =>
    let (action, t) := t.poll now timeout
    let (actions, t) := polls timeout times t
    (action.toList ++ actions, t)

/-- The first polls after an update request exactly the changed roots, and leave the tree active
    without the unresolved hashes of a changed root. -/
def SyncsChanged (t : SyncTree) (root : TreeRoot) (now timeout : Nat) : Prop :=
  ∃ n, ∀ times : List Nat, times.length = n →
    let (actions, t') := polls timeout times (t.updateRoot root now)
    (.enr root.enrRoot ∈ actions ↔ root.enrRoot ≠ t.root.enrRoot) ∧
    (.link root.linkRoot ∈ actions ↔ root.linkRoot ≠ t.root.linkRoot) ∧
    t' = { root, rootUpdated := now, syncState := .active
           unresolvedLinks := if root.linkRoot = t.root.linkRoot then t.unresolvedLinks else []
           unresolvedNodes := if root.enrRoot = t.root.enrRoot then t.unresolvedNodes else [] }

theorem polls_rootUpdate (h : t.syncState = .rootUpdate) (times : List Nat) :
    polls timeout times t = ([], t) := by
  induction times with
  | nil => rfl
  | cons now times ih => simp only [polls, poll, h, ih, Option.toList, List.append_nil]

theorem changed_of_syncs (h : t.SyncsChanged root now timeout) :
    root.enrRoot ≠ t.root.enrRoot ∧ root.linkRoot ≠ t.root.linkRoot ∧
      t.syncState = .pending ∧ t.unresolvedLinks = [] ∧ t.unresolvedNodes = [] := by
  obtain ⟨n, h⟩ := h
  -- polls after the timeout resolve no hash, and stop at the request for the next root
  have hlate := h (List.replicate n (now + timeout + 1)) List.length_replicate
  by_cases he : root.enrRoot = t.root.enrRoot <;> by_cases hl : root.linkRoot = t.root.linkRoot
  -- an unchanged root is requested by the first poll
  iterate 3 cases n <;> simp [updateRoot, he, hl, polls, poll, List.replicate_succ] at hlate
  rcases n with _ | _ | _ | n <;> cases hs : t.syncState <;>
    simp [updateRoot, he, hl, polls, poll, hs, List.replicate_succ, polls_rootUpdate] at hlate
  exact ⟨he, hl, rfl, hlate⟩

/-- **RESYNC**: `update_root` takes the roots that stayed for those that changed. Exactly the
    changed subtrees are synced only if both changed before the first poll. -/
theorem syncsChanged_iff : t.SyncsChanged root now timeout ↔
    root.enrRoot ≠ t.root.enrRoot ∧ root.linkRoot ≠ t.root.linkRoot ∧
      t.syncState = .pending ∧ t.unresolvedLinks = [] ∧ t.unresolvedNodes = [] := by
  refine ⟨changed_of_syncs, ?_⟩
  rintro ⟨he, hl, hs, hlinks, hnodes⟩
  refine ⟨2, fun times hlen => ?_⟩
  obtain ⟨_, _, rfl⟩ := List.length_eq_two.mp hlen
  simp [updateRoot, polls, poll, he, hl, hs, hlinks, hnodes]

/-- Both roots change while the next root is awaited: no poll requests anything again. -/
theorem update_lost : ¬SyncsChanged ⟨⟨"A", "B"⟩, 0, .rootUpdate, [], []⟩ ⟨"C", "D"⟩ 1 1800 := by
  intro h
  exact SyncState.noConfusion (changed_of_syncs h).2.2.1

end SyncTree

end Dns
