import Esp32c6Fw.Boot.Linking
import Esp32c6Fw.Espctl.Sequence
import Esp32c6Fw.Imager.Loader
import Esp32c6Fw.Lib.Decode

namespace Esp32c6Fw.Boot

open Espctl Imager Rv32 Script Soc Stub StateTransition

def defaultEntryPoint : ℕ := 0x40800000

def binFiles (bin : Bytes) : Files := fun name ↦
  if name = "out.bin.pad" then some (pad bin) else none

/-- `out.img`, by the rule of the Makefile. -/
def image (bin : Bytes) : Option Bytes :=
  (createFirmwareImage "out.bin.pad" "out.img" defaultEntryPoint (binFiles bin)).bind fun r ↦
    r.1 "out.img"

variable {p : Linked} {bin contents : Bytes} {address : ℕ → Addr} {cpu : Core → Option Core}
  {m : Mem} {start : ℕ}

end Esp32c6Fw.Boot
