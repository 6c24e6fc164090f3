import Breadboard.Machine.Memory
import Breadboard.Text.Quoted

namespace Breadboard

structure Settings where
  fill : Fill := .zeroed
  yieldInterval : UInt32 := 10000
  decimalMode : Bool := true
  /-- Whether a cycle is charged when indexing or branching leaves the page. It is charged
  for every operation with an indexed absolute or indirect operand, also for those whose
  cycles in the table count it already. -/
  pageCrossPenalty : Bool := true
deriving DecidableEq, Repr, Inhabited

def Settings.describe (s : Settings) : String :=
  Text.record "SimFlags"
    [("machine_init", s.fill.describe),
      ("yield_interval", toString s.yieldInterval.toNat),
      ("decimal_mode", Text.boolean s.decimalMode),
      ("page_cross_penalty", Text.boolean s.pageCrossPenalty)]

end Breadboard
