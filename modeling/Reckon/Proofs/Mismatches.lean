import Reckon.Proofs.Respelling
import Reckon.Proofs.Texts

namespace Reckon

/-! What can be asked for in front of which token.

A rule ends only in front of a token that it could not have gone on with, and the
rule around it goes on with all of those that it can.  A fault therefore stands at a
token that none of the rules could have taken, except where a limit is passed.
-/

section

variable {mode : Mode} {text : String} {room : Nat} {start : Cursor} {token found : Token}
  {expected : Expectation} {position : Nat}

end

end Reckon
