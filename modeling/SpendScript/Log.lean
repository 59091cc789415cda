/-!
# Log entries

A computation that reports on itself returns the entries it made, in order, beside its value.
Whether and where they are shown is decided later, by a level and a sink.

* `Level`, `Level.covers`: an entry is shown when its level is within the level in force;
* `LogEntry`, `Log`, `Log.upTo`.
-/

namespace SpendScript

/-- How much is logged, from nothing to everything. -/
inductive Level
  | none
  | error
  | warn
  | info
  | debug
  deriving DecidableEq, Repr

namespace Level

/-- The place of a level in the order from nothing to everything. -/
def rank : Level → Nat
  | .none => 0
  | .error => 1
  | .warn => 2
  | .info => 3
  | .debug => 4

def ofRank? : Int → Option Level
  | 0 => some .none
  | 1 => some .error
  | 2 => some .warn
  | 3 => some .info
  | 4 => some .debug
  | _ => Option.none

/-- Whether an entry of level `entry` is logged while `inForce` is the level in force. -/
def covers (inForce entry : Level) : Bool := entry.rank ≤ inForce.rank

theorem ofRank?_rank (l : Level) : ofRank? l.rank = some l := by
  cases l <;> rfl

end Level

structure LogEntry where
  level : Level
  message : String
  deriving DecidableEq, Repr

/-- Entries in the order in which they were made. -/
abbrev Log := List LogEntry

namespace Log

/-- A log with a single entry for close inspection. -/
def debug (message : String) : Log := [⟨.debug, message⟩]

/-- A log with a single entry for the user. -/
def info (message : String) : Log := [⟨.info, message⟩]

def upTo (level : Level) (log : Log) : Log := log.filter fun entry => level.covers entry.level

end Log

end SpendScript
