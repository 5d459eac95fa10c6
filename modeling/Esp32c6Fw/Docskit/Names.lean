import Esp32c6Fw.Docskit.Acceptance
import Esp32c6Fw.Docskit.Python
import Esp32c6Fw.Docskit.Stems

namespace Esp32c6Fw.Docskit

open Fallible Naming Numeral Unicode

def Member.isRsvd : Member → Bool
  | rsvd _ _ => true
  | field _ _ => false

def Block.rsvdCnt (b : Block) : ℕ := b.members.countP Member.isRsvd

section Distinct

variable [Unicode] {reg : Reg} {expanded : List Field} {namePrefix ofsPostfix : String}
  {emitReg : Bool} {b : Block} {lastLsb : ℤ} {idx : ℕ}

section Expanded

end Expanded

section Macros

end Macros

section Members

end Members

variable {hash : Data → String} {data : Data} {header : Header}

end Distinct

section Examples

open scoped Python

end Examples

end Esp32c6Fw.Docskit
