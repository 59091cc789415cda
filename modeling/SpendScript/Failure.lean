import SpendScript.Log

/-!
# Failures

An operation that refuses its arguments says what kind of mistake was made and, unless the kind
says it all, in which words. A failure that has words is logged when it arises.

* `Failure`, `FailureKind`;
* `Failure.log`: the entry that announces it.
-/

namespace SpendScript

inductive FailureKind
  | outOfRange
  | invalidArgument
  | tooLong
  | conflict
  | malformed
  deriving DecidableEq, Repr

def FailureKind.label : FailureKind → String
  | .outOfRange => "out-of-range"
  | .invalidArgument => "invalid-argument"
  | .tooLong => "length"
  | .conflict => "logic"
  | .malformed => "runtime"

/-- A refusal: its kind and its words, if it has any. -/
structure Failure where
  kind : FailureKind
  message? : Option String
  deriving DecidableEq, Repr

/-- A failure with words is announced by one error entry, one without words by none. -/
def Failure.log (f : Failure) : Log :=
  match f.message? with
  | none => []
  | some message => [⟨.error, s!"Throwing {f.kind.label} error: {message}"⟩]

end SpendScript
