import SpendScript.CommandLine.Option

/-!
# Arguments of the command line

Arguments are read from left to right. A setting is noted and the reading goes on; a request for
help or for the version, a name that is no option's, and a text that is no value end it.

* `Argument`, `Argument.ofText`;
* `Options`, `Options.initial`, `Options.set`;
* `Decision`, `Decision.ofArguments`.
-/

namespace SpendScript.CommandLine

inductive Argument
  | help
  | version
  | setting (s : Setting)
  | unknown (name : String)
  | refused (key : Key) (text : String)
  deriving DecidableEq, Repr

namespace Argument

/-- A name without the one or two dashes before it. -/
def stripDashes : List Char → List Char
  | '-' :: '-' :: name => name
  | '-' :: name => name
  | name => name

/-- The name in an argument: what stands before the first equals sign, without dashes. -/
def nameOf (text : String) : String :=
  String.ofList (stripDashes (text.toList.takeWhile (· != '=')))

/-- The value in an argument: what stands after the first equals sign. -/
def valueOf (text : String) : String :=
  String.ofList ((text.toList.dropWhile (· != '=')).drop 1)

def ofText (text : String) : Argument :=
  if text = "--help" ∨ text = "-h" then .help
  else if text = "--version" then .version
  else
    match Key.ofName? (nameOf text) with
    | none => .unknown (nameOf text)
    | some key =>
      match key.read (valueOf text) with
      | none => .refused key (valueOf text)
      | some s => .setting s

end Argument

structure Options where
  amount : Int
  input : Int
  locking : String
  logfile : String
  quiet : Bool
  trace : Bool
  tx : String
  unlocking : String
  deriving DecidableEq, Repr

namespace Options

/-- The values that hold if nothing is said. -/
def initial : Options := ⟨0, 0, "", "", false, false, "", ""⟩

def set (o : Options) : Setting → Options
  | .amount amount => { o with amount }
  | .input input => { o with input }
  | .locking locking => { o with locking }
  | .logfile logfile => { o with logfile }
  | .quiet => { o with quiet := true }
  | .trace => { o with trace := true }
  | .tx tx => { o with tx }
  | .unlocking unlocking => { o with unlocking }

end Options

inductive Decision
  | proceed (o : Options)
  | help
  | version
  | unknown (name : String)
  | refused (key : Key) (text : String)
  deriving DecidableEq, Repr

namespace Decision

/-- Reads arguments on top of options that are already set. -/
def ofArguments (o : Options) : List String → Decision
  | [] => .proceed o
  | text :: texts =>
    match Argument.ofText text with
    | .setting s => ofArguments (o.set s) texts
    | .help => .help
    | .version => .version
    | .unknown name => .unknown name
    | .refused key text => .refused key text

end Decision

end SpendScript.CommandLine
