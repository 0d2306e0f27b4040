/-! Text in lines. A line ends at a line feed, which may have a carriage return in front; what
follows the last line feed is a line only where it is not empty, and keeps a carriage return. -/

namespace PickleTrial.Lines

/-- The parts of a text between its line feeds, with the last one apart. -/
def pieces : List Char → List (List Char) × List Char
  | [] => ([], [])
  | head :: tail =>
      let (complete, last) := pieces tail
      if head = '\n' then ([] :: complete, last)
      else
        match complete with
        | [] => ([], head :: last)
        | line :: rest => ((head :: line) :: rest, last)

/-- A line without the carriage return in front of its end. -/
def withoutReturn (line : List Char) : List Char :=
  if line.getLast? = some '\r' then line.dropLast else line

def split (text : List Char) : List (List Char) :=
  let (complete, last) := pieces text
  complete.map withoutReturn ++ (if last = [] then [] else [last])

example : split ['a', '\r', '\n', 'b', '\r'] = [['a'], ['b', '\r']] := by decide

example : split ['a', '\n', '\n'] = [['a'], []] := by decide

end PickleTrial.Lines
