import Pasifika.Pool.Reachable

/-! # Prioritized senders

`BestTransactionsWithPrioritizedSenders` of `pool/best.rs` lets the transactions of
some senders through ahead of the others, up to an amount of gas. One that does not
fit waits in the buffer, but a later and smaller one of its sender may still fit. -/

namespace TransactionPool

open List Nat

/-- `BestTransactionsWithPrioritizedSenders`; `inner` is what the inner iterator has left. -/
structure BestTransactionsWithPrioritizedSenders where
  inner : List ValidPoolTransaction
  prioritizedSenders : List Address
  maxPrioritizedGas : Nat
  buffer : List ValidPoolTransaction
  prioritizedGas : Nat

namespace BestTransactionsWithPrioritizedSenders

def new (prioritizedSenders : List Address) (maxPrioritizedGas : Nat)
    (inner : List ValidPoolTransaction) : BestTransactionsWithPrioritizedSenders :=
  ⟨inner, prioritizedSenders, maxPrioritizedGas, [], 0⟩

variable (b : BestTransactionsWithPrioritizedSenders)

/-- Whether a transaction is let through; the sum is one of `u64`. -/
def fits (item : ValidPoolTransaction) : Bool :=
  b.prioritizedSenders.contains item.sender &&
    (b.prioritizedGas + item.gasLimit) % 2 ^ 64 ≤ b.maxPrioritizedGas

/-- The loop of `next` over the inner iterator. -/
def prioritize : List ValidPoolTransaction → List ValidPoolTransaction →
    Option ValidPoolTransaction × BestTransactionsWithPrioritizedSenders
  | [], buffer => (none, { b with inner := [], buffer })
  | item :: inner, buffer =>
    if b.fits item then
      (some item, { b with
        inner, buffer, prioritizedGas := (b.prioritizedGas + item.gasLimit) % 2 ^ 64 })
    else prioritize inner (buffer ++ [item])

/-- The end of `next`: the buffer, then the inner iterator. -/
def popFront : Option ValidPoolTransaction × BestTransactionsWithPrioritizedSenders :=
  match b.buffer, b.inner with
  | item :: buffer, _ => (some item, { b with buffer })
  | [], item :: inner => (some item, { b with inner })
  | [], [] => (none, b)

def next : Option ValidPoolTransaction × BestTransactionsWithPrioritizedSenders :=
  if b.prioritizedGas < b.maxPrioritizedGas then
    match b.prioritize b.inner b.buffer with
    | (some item, b) => (some item, b)
    | (none, b) => b.popFront
  else b.popFront

/-- The transactions of the first `n` calls. -/
def take : Nat → BestTransactionsWithPrioritizedSenders → List ValidPoolTransaction
  | 0, _ => []
  | n + 1, b =>
    match b.next with
    | (some item, b) => item :: take n b
    | (none, _) => []

variable {b}

variable {senders : List Address} {maxGas gas n : Nat} {txs buffer : List ValidPoolTransaction}

end BestTransactionsWithPrioritizedSenders

end TransactionPool
