/-!
# Notifications

A notification is a list of keyed values. A query looks at the first entry with its key only: if
that entry holds a value of another type, nothing is found.

* `Notification.find?` and its three typed forms;
* `Notification.size`, `isEmpty`, `keys`: the entries as they were given, repetitions included.
-/

namespace SpendScript

inductive Datum
  | int (value : Int)
  | text (value : String)
  | real (value : Float)
  deriving Repr

structure Notification where
  entries : List (String × Datum)
  deriving Repr

namespace Notification

variable (n : Notification)

def size : Nat := n.entries.length

def isEmpty : Bool := n.entries.isEmpty

def keys : List String := n.entries.map Prod.fst

/-- The value of the first entry with this key. -/
def find? (key : String) : Option Datum := n.entries.lookup key

def int? (key : String) : Option Int :=
  match n.find? key with
  | some (.int value) => some value
  | _ => none

def text? (key : String) : Option String :=
  match n.find? key with
  | some (.text value) => some value
  | _ => none

def real? (key : String) : Option Float :=
  match n.find? key with
  | some (.real value) => some value
  | _ => none

end Notification

end SpendScript
