import SpendScript.Log.Line
import SpendScript.Log.Notification

/-!
# The default sink

The sink shows log notifications on the console and appends them to a file, each only if it is
switched on. A notification that lacks its level, message or time is dropped without a word, and
trace notifications are not shown at all.

* `Sink.line?`: the line of a notification;
* `Sink.deliver`: what goes where;
* `Sink.showLog`: a whole log.
-/

namespace SpendScript

structure Sink where
  console : Bool
  file? : Option String
  deriving Repr

/-- The text that one notification adds to the console and to the named file. -/
structure Delivery where
  console : String
  file? : Option (String × String)
  deriving Repr

namespace Sink

def initial : Sink := ⟨true, none⟩

/-- The same sink with file output to `name`, or to no file if the name is empty. -/
def withFile (sink : Sink) (name : String) : Sink :=
  { sink with file? := if name.isEmpty then none else some name }

/-- The line of a log notification; its level is a 32-bit number. -/
def line? (n : Notification) : Option String := do
  let level ← n.int? "level"
  let message ← n.text? "msg"
  let time ← n.int? "time_us"
  return LogLine.format (level.bmod 0x100000000) time message ++ "\n"

def deliver (sink : Sink) (n : Notification) : Delivery :=
  match line? n with
  | none => ⟨"", none⟩
  | some line => ⟨if sink.console then line else "", sink.file?.map fun name => (name, line)⟩

/-- The notification that carries a log entry made at the given time. -/
def notification (time : Int) (entry : LogEntry) : Notification :=
  ⟨[("time_us", .int time), ("level", .int entry.level.rank), ("msg", .text entry.message)]⟩

/-- The texts that a log adds to the console and to the file, all at one time. -/
def showLog (sink : Sink) (time : Int) (log : Log) : String × String :=
  let deliveries := log.map fun entry => sink.deliver (notification time entry)
  (String.join (deliveries.map Delivery.console),
    String.join (deliveries.map fun d => (d.file?.map Prod.snd).getD ""))

end Sink

end SpendScript
