import PickleTrial.Graph.Basic
import PickleTrial.Text.Displayed
import PickleTrial.Text.Numeral

/-! Why a value cannot be encoded. -/

namespace PickleTrial

inductive EncodeError
  | unsupportedProtocol (version : Nat)
  /-- A position that holds nothing. -/
  | danglingNode (id : NodeId)
  | invalidInteger (literal : String)
  | invalidDecimal (literal : String)
  /-- A duration beyond the microseconds that 64 bits count. -/
  | durationOutOfRange
  /-- A value within itself with nothing on the way that could be referred back to. -/
  | endless
deriving DecidableEq

namespace EncodeError

def message : EncodeError → String
  | unsupportedProtocol version =>
      "unsupported pickle protocol " ++ String.ofList (Numeral.decimal version)
  | danglingNode id =>
      "node #" ++ String.ofList (Numeral.decimal id) ++ " does not exist in this graph"
  | invalidInteger literal => "invalid integer literal " ++ Displayed.text literal
  | invalidDecimal literal => "invalid decimal literal " ++ Displayed.text literal
  | durationOutOfRange => "timedelta out of range"
  | endless => "a value contains itself without end"

end EncodeError

end PickleTrial
