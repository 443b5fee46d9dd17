import Wasm.Leb128

/-!
# Wasm.Reader.Compound

Readers for what a length or a count introduces: byte strings, names and vectors.
-/

namespace Wasm.Reader

variable {m : Type → Type} [Monad m] [MonadLiftT Reader m] [Decoder m]

/-- Bytes after their length. -/
def lengthPrefixed : m (Array UInt8) := do
  let length ← u32
  Decoder.tally Array.size (bytes length.toNat)

/-- A UTF-8 text after its length in bytes. A text that is not UTF-8 is blamed on the place where
its length stands. -/
def name : m String := do
  let start ← offset
  let text ← lengthPrefixed
  match String.fromUTF8? ⟨text⟩ with
  | some s => return s
  | none => fail (.invalidUtf8 start)

/-- Read `n` items in a row, after those already read. -/
def repeated (item : m α) : (n : Nat) → Array α → m (Array α)
  | 0, items => return items
  | n + 1, items => do repeated item n (items.push (← Decoder.item (items.size + 1) item))

/-- A vector: items after their count. -/
def vec (item : m α) : m (Array α) :=
  Decoder.vector do repeated item (← u32).toNat #[]

end Wasm.Reader
