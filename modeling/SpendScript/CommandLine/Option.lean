import SpendScript.Failure
import SpendScript.Wire.IntType

/-!
# Options of the command line

An option has a name, a text of help and a type of values. A value is one token of its type after
optional blanks, with nothing after it; a switch takes no value at all.

* `Key`, `Key.name`, `Key.help`, `Key.all`;
* `word?`, `integer?`: the values of options;
* `Setting`, `Key.read`: an option with its value;
* `Key.refusal`: what is said of a text that is no value.
-/

namespace SpendScript.CommandLine

inductive Key
  | amount
  | input
  | locking
  | logfile
  | quiet
  | trace
  | tx
  | unlocking
  deriving DecidableEq, Repr

inductive Setting
  | amount (value : Int)
  | input (index : Int)
  | locking (hex : String)
  | logfile (name : String)
  | quiet
  | trace
  | tx (hex : String)
  | unlocking (hex : String)
  deriving DecidableEq, Repr

/-! ## Values -/

def isBlank (c : Char) : Bool := c == ' ' || ('\t' ≤ c && c ≤ '\r')

/-- The one word of a text: blanks may stand before it, and nothing may follow. -/
def word? (text : String) : Option String :=
  let word := text.toList.dropWhile isBlank
  if word.isEmpty || word.any isBlank then none else some (String.ofList word)

/-- The number that a sequence of decimal digits stands for. -/
def decimal? (digits : List Char) : Option Nat :=
  if digits.isEmpty || digits.any (fun c => !c.isDigit) then none
  else some (digits.foldl (fun n c => 10 * n + (c.toNat - '0'.toNat)) 0)

/-- The one decimal integer of a text, if the type has it: blanks and a sign may stand before the
digits, and nothing may follow. -/
def integer? (t : IntType) (text : String) : Option Int := do
  let value ← match text.toList.dropWhile isBlank with
    | '-' :: digits => (decimal? digits).map fun n => -(n : Int)
    | '+' :: digits => (decimal? digits).map Int.ofNat
    | digits => (decimal? digits).map Int.ofNat
  if t.Holds value then some value else none

/-! ## Options -/

namespace Key

/-- Every option, in the order of the names. -/
def all : List Key := [.amount, .input, .locking, .logfile, .quiet, .trace, .tx, .unlocking]

def name : Key → String
  | .amount => "amount"
  | .input => "input"
  | .locking => "locking"
  | .logfile => "logfile"
  | .quiet => "quiet"
  | .trace => "trace"
  | .tx => "tx"
  | .unlocking => "unlocking"

def ofName? (name : String) : Option Key := all.find? fun key => key.name == name

/-- Whether an option is a switch, which takes no value. -/
def isSwitch : Key → Bool
  | .quiet | .trace => true
  | _ => false

/-- The text of the value that holds if an option is not given. -/
def initialText : Key → String
  | .amount | .input => "0"
  | _ => ""

def help : Key → String
  | .amount => "Value of the spent output in satoshis"
  | .input => "Index of the input of --tx to verify"
  | .locking => "Locking script of the spent output in hex"
  | .logfile => "Append log output to the given file"
  | .quiet => "Do not write log output to stdout"
  | .trace => "Print every execution step"
  | .tx => "Spending transaction in hex; enables verification"
  | .unlocking => "Unlocking script in hex (default: the input's script from --tx)"

/-- The option with the value that a text stands for. -/
def read (key : Key) (text : String) : Option Setting :=
  match key with
  | .amount => (integer? .i64 text).map .amount
  | .input => (integer? .i32 text).map .input
  | .locking => (word? text).map .locking
  | .logfile => (word? text).map .logfile
  | .quiet => if text.isEmpty then some .quiet else none
  | .trace => if text.isEmpty then some .trace else none
  | .tx => (word? text).map .tx
  | .unlocking => (word? text).map .unlocking

/-- What is said of a text that is no value of the option. -/
def refusal (key : Key) (text : String) : String :=
  if key.isSwitch then s!"Flag --{key.name} does not take a value"
  else s!"Invalid value '{text}' for option --{key.name}"

def refusalFailure (key : Key) (text : String) : Failure :=
  ⟨.invalidArgument, some (key.refusal text)⟩

def helpLines (key : Key) : String :=
  let value := if key.isSwitch then "" else s!"=<value> (default: {key.initialText})"
  s!"  --{key.name}{value}\n    {key.help}\n"

end Key

end SpendScript.CommandLine
