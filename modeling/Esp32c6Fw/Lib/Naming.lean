import Mathlib.Data.List.Nodup

namespace Esp32c6Fw.Naming

variable {s t : String}

def Apart (s t : String) : Prop := ¬s.toList <:+ t.toList ∧ ¬t.toList <:+ s.toList

instance (s t : String) : Decidable (Apart s t) := inferInstanceAs (Decidable (_ ∧ _))

structure Family where
  stems : List String
  suffix : String

def Family.names (F : Family) : List String := F.stems.map (· ++ F.suffix)

end Esp32c6Fw.Naming
