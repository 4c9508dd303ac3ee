import Pasifika.Trie.PostState

/-! # Composing post states

A post state ACTS on states: it destroys and sets accounts, wipes storages, and sets
and deletes slots. `extend` merges a later post state into an earlier one. The two
agree: the merged post state acts as the earlier one followed by the later one.

The account map, the wiped flag and the slots are merged by different code, and the
storages of the other post state come owned or borrowed. -/

namespace Trie

open Std OrderedMap

variable {K A : Type} [Ord K] [TransOrd K]

/-! ## Merging post states -/

/-- `Cow`: a value that is borrowed or owned. -/
inductive Cow (T : Type) where
  | borrowed (value : T)
  | owned (value : T)

namespace Cow

/-- `into_owned`: a borrowed value is cloned. -/
def intoOwned {T : Type} : Cow T → T
  | borrowed value => value
  | owned value => value

def deref {T : Type} : Cow T → T
  | borrowed value => value
  | owned value => value

end Cow

def HashedStorage.extend (s other : HashedStorage K) : HashedStorage K :=
  let s := if other.wiped then { s with wiped := true, storage := ∅ } else s
  { s with storage := OrderedMap.extend s.storage other.storage }

namespace HashedPostState

def extendStorages (s : HashedPostState K A) (storages : List (K × Cow (HashedStorage K))) :
    HashedPostState K A :=
  { s with
    storages := upsert
      (fun entry storage =>
        match entry with
        | none => storage.intoOwned
        | some entry => entry.extend storage.deref)
      s.storages storages }

def extendInner (s : HashedPostState K A) (other : Cow (HashedPostState K A)) :
    HashedPostState K A :=
  let s := { s with accounts := OrderedMap.extend s.accounts other.deref.accounts }
  match other with
  | .borrowed other =>
    s.extendStorages (other.storages.toList.map (fun e => (e.1, .borrowed e.2)))
  | .owned other =>
    s.extendStorages (other.storages.toList.map (fun e => (e.1, .owned e.2)))

def extend (s other : HashedPostState K A) : HashedPostState K A := s.extendInner (.owned other)

def extendRef (s other : HashedPostState K A) : HashedPostState K A :=
  s.extendInner (.borrowed other)

end HashedPostState

/-! ## The action on states -/

/-- A state: the accounts, and the slots of every storage that are not zero. -/
@[ext] structure HashedState (K A : Type) [Ord K] where
  accounts : ExtTreeMap K A
  storage : K → ExtTreeMap K Nat

/-- The slots after a storage has been applied: a wiped one clears all before, and 0 deletes a slot.
    -/
def HashedStorage.applyTo (s : HashedStorage K) (slots : ExtTreeMap K Nat) : ExtTreeMap K Nat :=
  applyUpdates slotUpdate s.storage (if s.wiped then ∅ else slots)

/-- The state after a post state has been applied. -/
def HashedPostState.applyTo (post : HashedPostState K A) (state : HashedState K A) :
    HashedState K A where
  accounts := applyUpdates id post.accounts state.accounts
  storage hashedAddress :=
    match post.storages[hashedAddress]? with
    | none => state.storage hashedAddress
    | some s => s.applyTo (state.storage hashedAddress)

/-- The state that a database holds. -/
def Database.state (db : Database K A) : HashedState K A where
  accounts := db.accounts
  storage hashedAddress := db.storages[hashedAddress]?.getD ∅

/-! ## Composition -/

theorem HashedPostState.accounts_extendInner (a : HashedPostState K A)
    (other : Cow (HashedPostState K A)) :
    (a.extendInner other).accounts = OrderedMap.extend a.accounts other.deref.accounts := by
  cases other <;> rfl

section

variable [LawfulEqOrd K] [DecidableEq K]

/-- A later update of a key hides an earlier one. -/
theorem applyUpdates_extend {U V : Type} (g : U → Option V) (a b : ExtTreeMap K U)
    (m : ExtTreeMap K V) :
    applyUpdates g (OrderedMap.extend a b) m = applyUpdates g b (applyUpdates g a m) := by
  refine ExtTreeMap.ext_getElem? fun {k} => ?_
  simp only [get_applyUpdates, get_extend]
  cases b[k]? with
  | some u | none => rfl

theorem HashedStorage.applyTo_extend (a b : HashedStorage K) (slots : ExtTreeMap K Nat) :
    (a.extend b).applyTo slots = b.applyTo (a.applyTo slots) := by
  cases hwiped : b.wiped with
  | false =>
    simp only [applyTo, extend, hwiped, Bool.false_eq_true, if_false]
    exact applyUpdates_extend slotUpdate a.storage b.storage _
  | true =>
    -- the wipe erases the slots of `a`, and keeps those of `b`
    simp only [applyTo, extend, hwiped, if_true]
    rw [applyUpdates_extend]
    rfl

namespace HashedPostState

variable (a b : HashedPostState K A)

/-- A storage of the other post state is merged into the one that is there, whether it is
    owned or borrowed. -/
theorem storages_extendInner (other : Cow (HashedPostState K A)) (hashedAddress : K) :
    (a.extendInner other).storages[hashedAddress]? =
      match other.deref.storages[hashedAddress]? with
      | none => a.storages[hashedAddress]?
      | some s => some ((a.storages[hashedAddress]?.map (·.extend s)).getD s) := by
  have hlist : ∀ (cow : HashedStorage K → Cow (HashedStorage K)) (other : HashedPostState K A),
      (∀ s, (cow s).intoOwned = s) → (∀ s, (cow s).deref = s) →
      (extendStorages { a with accounts := OrderedMap.extend a.accounts other.accounts }
        (other.storages.toList.map fun e => (e.1, cow e.2))).storages =
      extendWith (fun entry s => (entry.map (HashedStorage.extend · s)).getD s) a.storages
        other.storages := by
    intro cow other howned hderef
    rw [extendWith, upsert, extendStorages, upsert, List.foldl_map]
    refine congrArg (List.foldl · a.storages other.storages.toList) ?_
    funext m e
    cases m[e.1]? with
    | none => simp [howned]
    | some s => simp [hderef]
  have hext : (a.extendInner other).storages =
      extendWith (fun entry s => (entry.map (HashedStorage.extend · s)).getD s) a.storages
        other.deref.storages := by
    cases other with
    | borrowed other => exact hlist .borrowed other (fun _ => rfl) (fun _ => rfl)
    | owned other => exact hlist .owned other (fun _ => rfl) fun _ => rfl
  rw [hext, get_extendWith]
  cases other.deref.storages[hashedAddress]? <;> rfl

theorem extendRef_eq_extend : a.extendRef b = a.extend b := by
  have hstorages : (a.extendRef b).storages = (a.extend b).storages := by
    refine ExtTreeMap.ext_getElem? fun {k} => ?_
    rw [extendRef, extend, storages_extendInner, storages_extendInner]
    rfl
  have haccounts : (a.extendRef b).accounts = (a.extend b).accounts := by
    rw [extendRef, extend, accounts_extendInner, accounts_extendInner]
    rfl
  exact congrArg₂ HashedPostState.mk haccounts hstorages

theorem applyTo_extend (state : HashedState K A) :
    (a.extend b).applyTo state = b.applyTo (a.applyTo state) := by
  refine HashedState.ext ?_ (funext fun hashedAddress => ?_)
  · show applyUpdates id (a.extend b).accounts state.accounts = _
    rw [extend, accounts_extendInner]
    exact applyUpdates_extend id a.accounts b.accounts state.accounts
  · simp only [applyTo]
    rw [extend, storages_extendInner]
    cases hb : b.storages[hashedAddress]? with
    | none => simp [Cow.deref, hb]
    | some s =>
      cases ha : a.storages[hashedAddress]? with
      | none => simp [Cow.deref, hb]
      | some t => simp [Cow.deref, hb, HashedStorage.applyTo_extend]

/-- **EXTEND IS COMPOSITION**: a merged post state applies as its parts one after the other; merging
    is associative up to this effect, and the same for a borrowed one. -/
theorem extend_composes :
    (∀ (a b : HashedPostState K A) (state : HashedState K A),
      (a.extend b).applyTo state = b.applyTo (a.applyTo state)) ∧
    (∀ (a b c : HashedPostState K A) (state : HashedState K A),
      ((a.extend b).extend c).applyTo state = (a.extend (b.extend c)).applyTo state) ∧
    ∀ a b : HashedPostState K A, a.extend b = a.extendRef b := by
  refine ⟨applyTo_extend, ?_, fun a b => (extendRef_eq_extend a b).symm⟩
  intro a b c state
  calc ((a.extend b).extend c).applyTo state
      = c.applyTo ((a.extend b).applyTo state) := applyTo_extend _ _ _
    _ = c.applyTo (b.applyTo (a.applyTo state)) := by rw [applyTo_extend a b]
    _ = (b.extend c).applyTo (a.applyTo state) := (applyTo_extend b c _).symm
    _ = (a.extend (b.extend c)).applyTo state := (applyTo_extend _ _ _).symm

end HashedPostState

end

/-- Destroys the account 1 of the sample, wipes its storage and sets a slot again. -/
def sampleWipe : HashedPostState Nat Nat where
  accounts := (∅ : ExtTreeMap Nat (Option Nat)).insert 1 none
  storages := (∅ : ExtTreeMap Nat (HashedStorage Nat)).insert 1
    ⟨true, (∅ : ExtTreeMap Nat Nat).insert 7 70⟩

theorem extend_composes_sample :
    (((samplePost.extend sampleWipe).applyTo sampleDatabase.state).storage 1).toList = [(7, 70)] ∧
    (samplePost.extend sampleWipe).applyTo sampleDatabase.state =
      sampleWipe.applyTo (samplePost.applyTo sampleDatabase.state) ∧
    samplePost.extend sampleWipe = samplePost.extendRef sampleWipe :=
  ⟨by decide +kernel, HashedPostState.extend_composes.1 _ _ _,
    HashedPostState.extend_composes.2.2 _ _⟩

end Trie
