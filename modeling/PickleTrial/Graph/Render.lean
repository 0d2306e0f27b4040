import PickleTrial.Graph.Basic
import PickleTrial.Number.FloatText
import PickleTrial.Text.Quoted
import Std.Data.ExtTreeSet

/-! Values as text, in the notation in which they would be written down: quoted strings, bracketed
containers, constructor calls for everything else. A container that is already being rendered
further out is shown by an ellipsis between its brackets. -/

namespace PickleTrial

def commaSeparated (items : List String) : String :=
  ", ".intercalate items

def bracketed (items : List String) : String :=
  "[" ++ commaSeparated items ++ "]"

def braced (items : List String) : String :=
  "\x7b" ++ commaSeparated items ++ "\x7d"

def call (name : String) (arguments : List String) : String :=
  name ++ "(" ++ commaSeparated arguments ++ ")"

def Numeral.natural (value : Nat) : String :=
  String.ofList (Numeral.decimal value)

def Numeral.integer (value : Int) : String :=
  String.ofList (Numeral.signedDecimal value)

namespace Binary64

def render (number : Binary64) : String :=
  String.ofList (FloatText.text number)

/-- The text of a number without `.0` at the end. -/
def renderPart (number : Binary64) : String :=
  let text := FloatText.text number
  String.ofList (if ['.', '0'].isSuffixOf text then text.take (text.length - 2) else text)

/-- A complex number. The real part is left out where it is the positive zero. -/
def renderComplex (re im : Binary64) : String :=
  if re = positiveZero then im.renderPart ++ "j"
  else
    "(" ++ re.renderPart ++ (if im.negative then "-" else "+") ++ im.abs.renderPart ++ "j)"

example : renderComplex ⟨0x3ff0000000000000⟩ ⟨0xc000000000000000⟩ = "(1-2j)" := by
  decide +kernel

end Binary64

namespace Date

def fields (date : Date) : List String :=
  [Numeral.integer date.year, Numeral.natural date.month, Numeral.natural date.day]

def render (date : Date) : String :=
  call "datetime.date" date.fields

end Date

namespace Time

/-- The hour and the minute, and from there on as far as a field is not zero. -/
def fields (time : Time) : List String :=
  let seconds := [Numeral.natural time.second]
  let microseconds := [Numeral.natural time.microsecond]
  [Numeral.natural time.hour, Numeral.natural time.minute] ++
    (if time.second ≠ 0 ∨ time.microsecond ≠ 0 then seconds else []) ++
    (if time.microsecond ≠ 0 then microseconds else [])

def render (time : Time) : String :=
  call "datetime.time" time.fields

end Time

def Moment.render (moment : Moment) : String :=
  call "datetime.datetime" (moment.date.fields ++ moment.time.fields)

namespace Duration

def Parts.fields (parts : Parts) : List String :=
  (if parts.days ≠ 0 then ["days=" ++ Numeral.integer parts.days] else []) ++
    (if parts.seconds ≠ 0 then ["seconds=" ++ Numeral.natural parts.seconds] else []) ++
    (if parts.microseconds ≠ 0 then ["microseconds=" ++ Numeral.natural parts.microseconds]
      else [])

def Parts.render (parts : Parts) : String :=
  call "datetime.timedelta" (if parts.fields = [] then ["0"] else parts.fields)

def render (duration : Duration) : String :=
  match duration.microseconds? with
  | some count => (parts count).render
  | none => "datetime.timedelta(<out of range>)"

end Duration

namespace TypedArray

/-- The items of an array, a text as one quoted string. -/
def renderItems : TypedArray → String
  | text characters => Quoted.text characters
  | integers code words => bracketed (words.map fun word => Numeral.integer (code.value word))
  | singles items => bracketed (items.map fun item => item.widen.render)
  | doubles items => bracketed (items.map Binary64.render)

def render (array : TypedArray) : String :=
  let letter := String.ofList ['\'', array.letter, '\'']
  call "array" (if array.length = 0 then [letter] else [letter, array.renderItems])

end TypedArray

/-- A node that holds no other nodes. -/
def Node.renderLeaf : Node → String
  | .none => "None"
  | .bool value => if value then "True" else "False"
  | .int value => Numeral.integer value.toInt
  | .bigInt literal => literal
  | .float value => value.render
  | .text value => Quoted.text value
  | .bytes value => "b" ++ Quoted.bytes value
  | .byteArray value => "bytearray(b" ++ Quoted.bytes value ++ ")"
  | .complex re im => Binary64.renderComplex re im
  | .moment value => value.render
  | .date value => value.render
  | .time value => value.render
  | .duration value => value.render
  | .decimal literal => "Decimal(" ++ Quoted.text literal ++ ")"
  | .array value => value.render
  | .tuple _ | .list _ | .set _ | .dict _ => ""

/-- What is shown of a node where it lies within itself. Only containers do, and an empty set is
shown as it is anywhere. -/
def Node.ellipsis? : Node → Option String
  | .tuple _ => some "(...)"
  | .list _ => some "[...]"
  | .set items => if items = [] then Option.none else some "\x7b...\x7d"
  | .dict _ => some "\x7b...\x7d"
  | _ => Option.none

/-- Texts of keys and values in turn, as entries. -/
def entryTexts : List String → List String
  | key :: value :: rest => (key ++ ": " ++ value) :: entryTexts rest
  | _ => []

/-- The text of a node around the texts of the nodes that it holds. -/
def Node.enclose : Node → List String → String
  | .tuple _, [item] => "(" ++ item ++ ",)"
  | .tuple _, items => "(" ++ commaSeparated items ++ ")"
  | .list _, items => bracketed items
  | .set _, [] => "set()"
  | .set _, items => braced items
  | .dict _, items => braced (entryTexts items)
  | leaf, _ => leaf.renderLeaf

/-- Rendering keeps the containers that are being rendered further out. It gives no text where it
runs out of depth. -/
abbrev Rendering :=
  StateT (Std.ExtTreeSet NodeId) Option

namespace Graph

/-- The text of the value at a position, with nodes within each other to this depth. -/
def renderNode (graph : Graph) : (depth : Nat) → NodeId → Rendering String
  | 0, _ => failure
  | depth + 1, id => do
      match graph.node? id with
      | none => return "<dangling #" ++ Numeral.natural id ++ ">"
      | some node =>
          match node.ellipsis? with
          | none => return node.enclose []
          | some ellipsis =>
              if id ∈ (← get) then return ellipsis
              else
                modify (·.insert id)
                let texts ← node.children.mapM (graph.renderNode depth)
                modify (·.erase id)
                return node.enclose texts

/-- The text of the value at a position. Containers within each other are different nodes until
one of them is met again, so there are never more of them than the graph has nodes. -/
def render (graph : Graph) (id : NodeId) : String :=
  ((graph.renderNode (graph.size + 1) id).run' ∅).getD ""

/-- A list that holds itself behind one integer. -/
example : render ⟨#[.int 7, .list [0, 1]]⟩ 1 = "[7, [...]]" := by decide +kernel

/-- A tuple of one item ends in a comma. -/
example : render ⟨#[.tuple [5]]⟩ 0 = "(<dangling #5>,)" := by decide +kernel

end Graph

end PickleTrial
