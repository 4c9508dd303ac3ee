import Pasifika.Trie.Node

/-! # A codec over terms

Nodes are encoded as terms, and the hash of an encoding is the encoding itself, so that
no two encodings have the same hash. `short` says which encodings are embedded. -/

namespace Trie

/-- Terms over numbers. -/
inductive Term
  | atom (n : ℕ)
  | pair (a b : Term)
  deriving DecidableEq

namespace Term

/-- A path as a term. -/
def ofNibbles : Nibbles → Term
  | [] => atom 0
  | n :: path => pair (atom n.val) (ofNibbles path)

/-- The path of a term. -/
def toNibbles : Term → Option Nibbles
  | atom _ => some []
  | pair (atom n) t =>
    if h : n < 16 then (toNibbles t).map (fun path => (⟨n, h⟩ : Fin 16) :: path) else none
  | pair (pair _ _) _ => none

theorem toNibbles_ofNibbles (path : Nibbles) : toNibbles (ofNibbles path) = some path := by
  induction path with
  | nil => rfl
  | cons n path ih => simp [ofNibbles, toNibbles, ih]

/-- References as a term: embedded ones and hashes are told apart by a number. -/
def ofRlpNodes : List (RlpNode Term Term) → Term
  | [] => atom 0
  | .raw t :: refs => pair (pair (atom 0) t) (ofRlpNodes refs)
  | .word t :: refs => pair (pair (atom 1) t) (ofRlpNodes refs)

/-- The references of a term. -/
def toRlpNodes : Term → Option (List (RlpNode Term Term))
  | pair (pair (atom 0) t) u => (toRlpNodes u).map (fun refs => .raw t :: refs)
  | pair (pair (atom _) t) u => (toRlpNodes u).map (fun refs => .word t :: refs)
  | _ => some []

theorem toRlpNodes_ofRlpNodes (refs : List (RlpNode Term Term)) :
    toRlpNodes (ofRlpNodes refs) = some refs := by
  induction refs with
  | nil => rfl
  | cons r refs ih => cases r <;> simp [ofRlpNodes, toRlpNodes, ih]

/-- The mask with the given bits. -/
def maskOf (bits : List (Fin 16)) : TrieMask := fun i => decide (i ∈ bits)

theorem maskOf_bits (m : TrieMask) : maskOf m.bits = m := by
  funext i
  rw [maskOf, Bool.eq_iff_iff, decide_eq_true_iff, TrieMask.mem_bits]

/-- A node as a term. -/
def encode : TrieNode ℕ Term Term → Term
  | .emptyRoot => atom 0
  | .leaf key value => pair (atom 1) (pair (ofNibbles key) (atom value))
  | .extension key child => pair (atom 2) (pair (ofNibbles key) (ofRlpNodes [child]))
  | .branch stack stateMask =>
    pair (atom 3) (pair (ofRlpNodes stack) (ofNibbles stateMask.bits))

/-- The node of a term. -/
def decode : Term → Option (TrieNode ℕ Term Term)
  | atom _ => some .emptyRoot
  | pair (atom 1) (pair k (atom value)) => (toNibbles k).map (fun key => .leaf key value)
  | pair (atom 2) (pair k u) =>
    (toNibbles k).bind fun key => (toRlpNodes u).bind fun refs =>
      refs.head?.map fun child => .extension key child
  | pair (atom 3) (pair u m) =>
    (toRlpNodes u).bind fun stack => (toNibbles m).map fun bits => .branch stack (maskOf bits)
  | _ => none

theorem decode_encode (node : TrieNode ℕ Term Term) : decode (encode node) = some node := by
  cases node with
  | emptyRoot => rfl
  | leaf key value => simp [encode, decode, toNibbles_ofNibbles]
  | extension key child => simp [encode, decode, toNibbles_ofNibbles, toRlpNodes_ofRlpNodes]
  | branch stack stateMask =>
    simp [encode, decode, toNibbles_ofNibbles, toRlpNodes_ofRlpNodes, maskOf_bits]

end Term

/-- **A CODEC** without collisions. -/
def termCodec (short : Term → Bool) : Codec ℕ Term Term where
  encode := Term.encode
  decode := Term.decode
  isShort := short
  keccak256 := id
  emptyRootHash := .atom 0
  decode_encode node _ := Term.decode_encode node

end Trie
