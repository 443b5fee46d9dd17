import Wasm.Reader

/-!
# Wasm.Decoder

Where decoders run. A decoder of modules is written once, for every monad that can run readers and
has the operations of `Decoder`: those that would go wrong if a decoder were careless, and those
that say what it is about to read. In readers, which are the monad that decoders are for, the latter
do nothing. Another monad can use them to look more closely at what a decoder does.
-/

namespace Wasm

/-- The operations of decoders beside the primitive readers. -/
class Decoder (m : Type → Type) where
  /-- The difference of two numbers, the first of which is the larger. -/
  subtract (a b : Nat) : m Nat
  /-- Run with the bytes cut off at `stop`, which is not behind their end. -/
  within (stop : Nat) (r : m α) : m α
  /-- Run and return the bytes that were passed over. -/
  captured (r : m α) : m (Array UInt8)
  /-- Read a vector: its count and its items. -/
  vector (r : m α) : m α
  /-- Read the item with the given number of a vector. -/
  item (number : Nat) (r : m α) : m α
  /-- Read what stands for so many items. -/
  tally (weight : α → Nat) (r : m α) : m α
  /-- There has to be nothing left to read. -/
  finished : m Unit

/-- In readers a difference is what numbers make of it, and what is about to be read has no say. -/
instance : Decoder Reader where
  subtract a b := return a - b
  within := Reader.within
  captured := Reader.captured
  vector r := r
  item _ r := r
  tally _ r := r
  finished := return ()

end Wasm
