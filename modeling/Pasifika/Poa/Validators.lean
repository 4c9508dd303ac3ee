import Mathlib

/-! # The validators of a PoA node

`PoAConsensus` keeps the validators that have registered. Nothing takes one off the list or
makes it inactive, and a second registration of an address is ignored. So the list is
determined by the registrations that the node has seen, and two nodes that have seen them
in different orders may still keep different node ids for an address. -/

namespace Poa

open List

/-- `Validator`; an address is a number. -/
structure Validator where
  address : ℕ
  nodeId : String
  active : Bool
deriving DecidableEq

structure PoAConsensus where
  validators : List Validator

namespace PoAConsensus

def new : PoAConsensus := ⟨[]⟩

def registerValidator (c : PoAConsensus) (address : ℕ) (nodeId : String) : PoAConsensus :=
  if c.validators.any (·.address == address) then c
  else ⟨c.validators ++ [⟨address, nodeId, true⟩]⟩

def getValidators (c : PoAConsensus) : List Validator := c.validators.filter (·.active)

def isValidator (c : PoAConsensus) (address : ℕ) : Bool :=
  c.validators.any fun v => v.active && v.address == address

def validatorCount (c : PoAConsensus) : ℕ := (c.validators.filter (·.active)).length

variable {c : PoAConsensus} (regs regs' : List (ℕ × String))

/-- A node after the registrations that it has seen. -/
def registerAll : PoAConsensus := regs.foldl (fun c r => c.registerValidator r.1 r.2) new

/-- The validator that a registration makes. -/
def ofRegistration (r : ℕ × String) : Validator := ⟨r.1, r.2, true⟩

/-- **REGISTERED**: one active validator for each address, from its first registration. -/
structure Registered (c : PoAConsensus) : Prop where
  distinct : (c.validators.map (·.address)).Nodup
  active : c.getValidators = c.validators
  find : ∀ a, c.validators.find? (·.address == a) = (regs.find? (·.1 == a)).map ofRegistration

variable {regs regs'}

/-- **STEP**: only the first registration of an address counts. -/
theorem Registered.register (h : Registered regs c) (a : ℕ) (n : String) :
    Registered (regs ++ [(a, n)]) (c.registerValidator a n) := by
  rw [registerValidator]
  split
  next hany =>
    refine ⟨h.distinct, h.active, fun b => ?_⟩
    rw [h.find, find?_append]
    by_cases hb : a = b
    · have hsome : (regs.find? (·.1 == b)).isSome := by
        rw [← Option.isSome_map, ← h.find]
        simpa [hb] using hany
      rw [Option.or_of_isSome hsome]
    · simp [hb]
  next hnone =>
    refine ⟨by simpa [nodup_append, h.distinct] using hnone, ?_, fun b => ?_⟩
    · simpa [getValidators] using h.active
    · rw [find?_append, find?_append, h.find, Option.map_or]
      by_cases hb : a = b <;> simp [hb, ofRegistration]

theorem registered_registerAll (regs) : Registered regs (registerAll regs) := by
  induction regs using List.reverseRecOn with
  | nil => exact ⟨nodup_nil, rfl, fun _ => rfl⟩
  | append_singleton regs r ih =>
    rw [registerAll, foldl_append]
    exact ih.register r.1 r.2

theorem Registered.mem_iff (h : Registered regs c) :
    v ∈ c.validators ↔ (regs.find? (·.1 == v.address)).map ofRegistration = some v := by
  rw [← h.find]
  refine ⟨fun hv => ?_, mem_of_find?_eq_some⟩
  obtain ⟨w, hw⟩ := Option.isSome_iff_exists.mp (find?_isSome (p := (·.address == v.address)).mpr
    ⟨v, hv, beq_self_eq_true _⟩)
  have hwv : w.address = v.address := by simpa using find?_some hw
  rw [hw, inj_on_of_nodup_map h.distinct (mem_of_find?_eq_some hw) hv hwv]

theorem Registered.find_of_subset (h : Registered regs c) (h' : Registered regs' c')
    (hsub : c.validators ⊆ c'.validators) (hr : regs.find? (·.1 == a) = some r) :
    regs'.find? (·.1 == a) = some r := by
  obtain rfl : r.1 = a := by simpa using find?_some hr
  have hv : ofRegistration r ∈ c.validators :=
    h.mem_iff.mpr (congrArg (Option.map ofRegistration) hr)
  obtain ⟨s, hs, hsr⟩ := Option.map_eq_some_iff.mp (h'.mem_iff.mp (hsub hv))
  have hsr : s = r := Prod.ext (congrArg (·.address) hsr) (congrArg (·.nodeId) hsr)
  rwa [hsr] at hs

/-- **WHO IS A VALIDATOR**: each address that has registered, once, with its first node id. -/
theorem validators_of_registrations (regs) :
    (∀ v, v ∈ (registerAll regs).getValidators ↔
      (regs.find? (·.1 == v.address)).map ofRegistration = some v) ∧
    (∀ a, (registerAll regs).isValidator a = true ↔ a ∈ regs.map Prod.fst) ∧
    (registerAll regs).validatorCount = (regs.map Prod.fst).toFinset.card := by
  have h := registered_registerAll regs
  have hmem : ∀ a, a ∈ (registerAll regs).validators.map (·.address) ↔ a ∈ regs.map Prod.fst := by
    intro a
    have hsome := congrArg Option.isSome (h.find a)
    rw [Option.isSome_map, Bool.eq_iff_iff, find?_isSome, find?_isSome] at hsome
    simpa using hsome
  refine ⟨fun v => by rw [h.active, h.mem_iff], fun a => ?_, ?_⟩
  · rw [← hmem, ← h.active, isValidator]
    simp [getValidators, and_assoc]
  · rw [validatorCount, ← getValidators, h.active, ← length_map (·.address),
      ← toFinset_card_of_nodup h.distinct]
    exact congrArg _ (toFinset.ext hmem)

/-- **AGREEMENT**: two nodes keep the same validators exactly if they saw the same first
    registration of each address. -/
theorem validators_perm_iff (regs regs') :
    (registerAll regs).getValidators ~ (registerAll regs').getValidators ↔
      ∀ a, regs.find? (·.1 == a) = regs'.find? (·.1 == a) := by
  have h := registered_registerAll regs
  have h' := registered_registerAll regs'
  rw [h.active, h'.active, perm_ext_iff_of_nodup h.distinct.of_map h'.distinct.of_map]
  constructor
  · intro hmem a
    exact Option.ext fun r => ⟨h.find_of_subset h' fun v => (hmem v).mp,
      h'.find_of_subset h fun v => (hmem v).mpr⟩
  · intro hfind v
    rw [h.mem_iff, h'.mem_iff, hfind]

end PoAConsensus

end Poa
