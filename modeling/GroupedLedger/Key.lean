import GroupedLedger.Text.Lossy
import Std.Data.ExtTreeMap
import Std.Data.ExtTreeSet

namespace GroupedLedger

/-- The name of one piece of state. Keys are ordered by their bytes, a shorter one before its
extensions. -/
structure Key where
  bytes : Bytes
  deriving DecidableEq

namespace Key

instance : Ord Key := ⟨fun a b => compare a.bytes b.bytes⟩

instance : Std.TransOrd Key where
  eq_swap {a b} := (Std.OrientedCmp.eq_swap : compare a.bytes b.bytes = _)
  isLE_trans {a b c} below above :=
    (Std.TransCmp.isLE_trans (below : (compare a.bytes b.bytes).isLE) above :
      (compare a.bytes c.bytes).isLE)

instance : Std.LawfulEqOrd Key where
  compare_self {a} := (Std.ReflCmp.compare_self : compare a.bytes a.bytes = .eq)
  eq_of_compare {a b} same := by
    cases a; cases b
    exact congrArg Key.mk (Std.LawfulEqCmp.eq_of_compare same)

def ofText (text : String) : Key := ⟨Bytes.ofText text⟩

def text (key : Key) : String := Text.lossy key.bytes

end Key

abbrev Value := Bytes

abbrev KeyMap (β : Type) := Std.ExtTreeMap Key β

instance : DecidableEq (KeyMap Value) := inferInstance

abbrev KeySet := Std.ExtTreeSet Key

end GroupedLedger
