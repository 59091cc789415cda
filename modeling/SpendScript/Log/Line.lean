import SpendScript.Log

/-!
# Log lines

An entry is shown as one line: its level in five columns, the time of day with four decimals, and
the message. Times are microseconds since the epoch, possibly before it.

* `Level.label`: the five columns; a number that is no level shows question marks;
* `clock`, `fraction`: the time of day and its decimals;
* `LogLine.format`: the whole line.
-/

namespace SpendScript

def Level.label : Level → String
  | .none => "     "
  | .error => "ERROR"
  | .warn => "WARN "
  | .info => "INFO "
  | .debug => "DEBUG"

namespace LogLine

/-- Spaces or zeros before a text that is too narrow. -/
def padLeft (width : Nat) (fill : Char) (text : String) : String :=
  String.ofList (List.replicate (width - text.length) fill ++ text.toList)

/-- Hours, minutes and seconds of the day in which the given second lies. -/
def clock (seconds : Int) : String :=
  let second := (seconds % 86400).toNat
  let two (n : Nat) : String := padLeft 2 '0' (toString n)
  s!"{two (second / 3600)}:{two (second / 60 % 60)}:{two (second % 60)}"

/-- Ten-thousandths of a second; the zeros of a negative count stand before its sign. -/
def fraction (time : Int) : String :=
  padLeft 4 '0' (toString ((Int.tmod time 1000000).tdiv 100))

/-- The line that shows a message; the whole seconds of its time are cut toward zero. -/
def format (rank time : Int) (message : String) : String :=
  let label := ((Level.ofRank? rank).map Level.label).getD "?????"
  s!"[{label} {clock (time.tdiv 1000000)}.{fraction time}] {message}"

end LogLine

end SpendScript
