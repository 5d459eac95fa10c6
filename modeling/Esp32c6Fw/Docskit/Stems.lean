import Esp32c6Fw.Docskit.Header
import Esp32c6Fw.Lib.Constant
import Esp32c6Fw.Lib.Naming
import Mathlib.Data.List.Flatten

namespace Esp32c6Fw.Docskit

open Naming Numeral

def Block.defines (namePrefix ofsPostfix : String) (emitReg : Bool) (b : Block) : List Define :=
  regDefines namePrefix ofsPostfix emitReg b.reg ++ b.macros.flatMap FieldMacros.defines

def Header.defines (h : Header) : List Define :=
  h.offsetDefines ++ (if h.emitReg then h.regDefines else []) ++
    h.blocks.flatMap (Block.defines (optText h.namePrefix) h.ofsPostfix h.emitReg)

namespace Reg

end Reg

variable {namePrefix ofsPostfix : String} {emitReg : Bool}

end Esp32c6Fw.Docskit
