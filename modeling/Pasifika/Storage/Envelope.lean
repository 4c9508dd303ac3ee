import Mathlib

/-! # Stored transactions

The compact envelope of a signed transaction (`codecs/src/alloy/transaction/ethereum.rs`),
with the codecs of its type, its signature and of signed authorizations. The derived
codecs and the compression are parameters that carry their round trips. A decoder
that would panic gives `none`. -/

namespace Compact

open List

abbrev Bytes := List UInt8

abbrev U256 := BitVec 256

structure Codec (T : Type) where
  toCompact : T → Bytes
  fromCompact : Bytes → Nat → Option (T × Bytes)

/-- A field codec, which leaves what follows the field. -/
structure FieldCodec (T : Type) extends Codec T where
  round_trip : ∀ t rest len, fromCompact (toCompact t ++ rest) len = some (t, rest)

/-- The codec of a transaction body, which may read all it is given. -/
structure TxCodec (T : Type) extends Codec T where
  round_trip : ∀ t, (fromCompact (toCompact t) (toCompact t).length).map Prod.fst = some t

structure Zstd where
  compress : Bytes → Bytes
  decompress : Bytes → Bytes
  round_trip : ∀ bytes, decompress (compress bytes) = bytes

/-! ## Numbers and signatures -/

def leBytes : Nat → Nat → Bytes
  | 0, _ => []
  | n + 1, x => .ofNat x :: leBytes n (x / 256)

def fromLe : Bytes → Nat
  | [] => 0
  | byte :: bytes => byte.toNat + 256 * fromLe bytes

theorem fromLe_leBytes (n x : Nat) : fromLe (leBytes n x) = x % 256 ^ n := by
  induction n generalizing x with
  | zero => rw [pow_zero, Nat.mod_one]; rfl
  | succ n ih => rw [leBytes, fromLe, ih, pow_succ', Nat.mod_mul, UInt8.toNat_ofNat']

theorem length_leBytes (n x : Nat) : (leBytes n x).length = n := by
  induction n generalizing x with
  | zero => rfl
  | succ n ih => rw [leBytes, length_cons, ih]

def fromLeSlice (buf : Bytes) : U256 := .ofNat 256 (fromLe (buf.take 32))

theorem fromLeSlice_leBytes (x : U256) (rest : Bytes) :
    fromLeSlice (leBytes 32 x.toNat ++ rest) = x := by
  rw [fromLeSlice, take_left' (length_leBytes _ _), fromLe_leBytes,
    show 256 ^ 32 = 2 ^ 256 by norm_num, Nat.mod_eq_of_lt x.isLt, BitVec.ofNat_toNat,
    BitVec.setWidth_eq]

/-- The numbers of a `Signature` or a `SignedAuthorization`. -/
def putPair (r s : U256) : Bytes := leBytes 32 r.toNat ++ leBytes 32 s.toNat

def getPair (buf : Bytes) : Option (U256 × U256 × Bytes) :=
  if 64 ≤ buf.length then some (fromLeSlice buf, fromLeSlice (buf.drop 32), buf.drop 64) else none

theorem getPair_putPair (r s : U256) (rest : Bytes) :
    getPair (putPair r s ++ rest) = some (r, s, rest) := by
  have hlen : (putPair r s).length = 64 := by simp [putPair, length_leBytes]
  rw [getPair, if_pos (by rw [length_append, hlen]; omega), drop_left' hlen, putPair,
    append_assoc, drop_left' (length_leBytes _ _), fromLeSlice_leBytes, fromLeSlice_leBytes]

structure Signature where
  r : U256
  s : U256
  v : Bool

structure SignedAuthorization (A : Type) where
  inner : A
  yParity : UInt8
  r : U256
  s : U256

/-- The inner authorization comes last, and is given the length of the whole. -/
def signedAuthorization {A : Type} (inner : FieldCodec A) : FieldCodec (SignedAuthorization A) where
  toCompact a := a.yParity :: putPair a.r a.s ++ inner.toCompact a.inner
  fromCompact buf len := do
    let yParity ← buf.head?
    let (r, s, rest) ← getPair buf.tail
    let (a, rest) ← inner.fromCompact rest len
    some (⟨a, yParity, r, s⟩, rest)
  round_trip a rest len := by simp [getPair_putPair, inner.round_trip]

/-! ## The envelope -/

inductive TxType
  | legacy | eip2930 | eip1559 | eip4844 | eip7702

/-- The identifier, and the byte that extends it. -/
def TxType.toCompact : TxType → UInt8 × Bytes
  | legacy => (0, [])
  | eip2930 => (1, [])
  | eip1559 => (2, [])
  | eip4844 => (3, [3])
  | eip7702 => (3, [4])

def TxType.fromCompact : Bytes → UInt8 → Option (TxType × Bytes)
  | buf, 0 => some (legacy, buf)
  | buf, 1 => some (eip2930, buf)
  | buf, 2 => some (eip1559, buf)
  | 3 :: buf, 3 => some (eip4844, buf)
  | 4 :: buf, 3 => some (eip7702, buf)
  | _, _ => none

structure Envelope (Tx : TxType → Type) where
  txType : TxType
  tx : Tx txType
  signature : Signature

/-- The derived codecs; those of the transactions use the one of signed authorizations. -/
structure Derived (Tx : TxType → Type) (A : Type) where
  input : ∀ txType, Tx txType → Bytes
  authorization : FieldCodec A
  tx : FieldCodec (SignedAuthorization A) → ∀ txType, TxCodec (Tx txType)

def flags (v : Bool) (txBits : UInt8) (zstd : Bool) : UInt8 :=
  v.toUInt8 ||| txBits <<< 1 ||| zstd.toUInt8 <<< 3

/-- The type, the parity and the compression share a byte. -/
theorem flags_split (v zstd : Bool) (txType : TxType) (rest : Bytes) :
    let f := flags v txType.toCompact.1 zstd
    (f &&& 1 != 0) = v ∧ (f >>> 3 = 0 ↔ zstd = false) ∧
      TxType.fromCompact (txType.toCompact.2 ++ rest) ((f &&& 6) >>> 1) = some (txType, rest) := by
  cases v <;> cases zstd <;> cases txType <;> exact ⟨rfl, by decide, rfl⟩

namespace Envelope

variable {Tx : TxType → Type} {A : Type} (z : Zstd) (d : Derived Tx A)

abbrev codec (txType : TxType) : TxCodec (Tx txType) :=
  d.tx (signedAuthorization d.authorization) txType

def toCompact (e : Envelope Tx) : Bytes :=
  let zstd : Bool := 32 ≤ (d.input e.txType e.tx).length
  let (txBits, extended) := e.txType.toCompact
  let body := extended ++ (codec d e.txType).toCompact e.tx
  flags e.signature.v txBits zstd :: putPair e.signature.r e.signature.s ++
    if zstd then z.compress body else body

def fromCompact (buf : Bytes) : Option (Envelope Tx × Bytes) := do
  let flags ← buf.head?
  let (r, s, buf) ← getPair buf.tail
  let zstd := flags >>> 3 != 0
  let body := if zstd then z.decompress buf else buf
  let (txType, body) ← TxType.fromCompact body ((flags &&& 6) >>> 1)
  let (tx, rest) ← (codec d txType).fromCompact body body.length
  some (⟨txType, tx, r, s, flags &&& 1 != 0⟩, if zstd then buf else rest)

/-- **ENVELOPE ROUND TRIP**: a stored transaction is read back, compressed or not. -/
theorem fromCompact_toCompact (e : Envelope Tx) :
    (fromCompact z d (e.toCompact z d)).map Prod.fst = some e := by
  obtain ⟨txType, tx, r, s, v⟩ := e
  obtain ⟨⟨tx', rest⟩, hread, htx⟩ := Option.map_eq_some_iff.mp ((codec d txType).round_trip tx)
  obtain rfl : tx' = tx := htx
  by_cases hlong : 32 ≤ (d.input txType tx').length
  · obtain ⟨hv, hzstd, htype⟩ := flags_split v true txType ((codec d txType).toCompact tx')
    simp [fromCompact, toCompact, getPair_putPair, hlong, hv, hzstd, htype, hread, z.round_trip]
  · obtain ⟨hv, hzstd, htype⟩ := flags_split v false txType ((codec d txType).toCompact tx')
    simp [fromCompact, toCompact, getPair_putPair, hlong, hv, hzstd, htype, hread]

/-- A frame with the magic number of `zstd` in front. -/
def sampleZstd : Zstd := ⟨([0x28, 0xb5, 0x2f, 0xfd] ++ ·), (·.drop 4), fun _ => rfl⟩

/-- Transactions of one authorization and an input, which is read to the end. -/
def sampleDerived : Derived (fun _ => SignedAuthorization UInt8 × Bytes) UInt8 where
  input _ := Prod.snd
  authorization := ⟨⟨([·]), fun buf _ => buf.head?.map (·, buf.tail)⟩, fun _ _ _ => rfl⟩
  tx auth _ :=
    { toCompact := fun tx => auth.toCompact tx.1 ++ tx.2
      fromCompact := fun buf len => (auth.fromCompact buf len).map (·, [])
      round_trip := fun tx => by simp [auth.round_trip] }

/-- A transaction of a type with the byte that extends it. -/
def sampleEnvelope (input : Bytes) : Envelope fun _ => SignedAuthorization UInt8 × Bytes :=
  ⟨.eip7702, (⟨9, 1, 2, 3⟩, input), 4, 5, true⟩

/-- An input of 40 bytes is compressed, one of a byte is not. -/
theorem fromCompact_toCompact_sample :
    let long := (sampleEnvelope (replicate 40 7)).toCompact sampleZstd sampleDerived
    let short := (sampleEnvelope [7]).toCompact sampleZstd sampleDerived
    long.head? = some 0b1111 ∧ short.head? = some 0b0111 ∧
      (fromCompact sampleZstd sampleDerived long).map Prod.fst =
        some (sampleEnvelope (replicate 40 7)) ∧
      (fromCompact sampleZstd sampleDerived short).map Prod.fst = some (sampleEnvelope [7]) :=
  ⟨rfl, rfl, fromCompact_toCompact _ _ _, fromCompact_toCompact _ _ _⟩

end Envelope

end Compact
