/-!
# Log events

What a run tells about its steps. Events are collected as data; whoever runs the program decides
which of them are shown.

## Main definitions

* `LogLevel`, `LogEvent`
* `LogEvent.isShown`: whether an event is shown under a limit
* `LogLevel.ofVerbosity?`: the limit that a repeated flag asks for
-/

namespace DeclGen

/-- How important an event is. -/
inductive LogLevel where
  | error | warn | info | debug | trace
deriving DecidableEq, Repr, Inhabited

namespace LogLevel

def text : LogLevel → String
  | error => "ERROR"
  | warn => "WARN"
  | info => "INFO"
  | debug => "DEBUG"
  | trace => "TRACE"

def rank : LogLevel → Nat
  | error => 0
  | warn => 1
  | info => 2
  | debug => 3
  | trace => 4

/-- The limit that a flag asks for which is given a number of times. -/
def ofVerbosity? : Nat → Option LogLevel
  | 0 => none
  | 1 => some info
  | _ => some debug

end LogLevel

/-- Something that a part of the program tells about its work. -/
structure LogEvent where
  level : LogLevel
  /-- The part of the program. -/
  target : String
  message : String
deriving DecidableEq, Repr, Inhabited

namespace LogEvent

/-- Whether the event is at least as important as a limit. -/
def isShown (limit : LogLevel) (e : LogEvent) : Bool := e.level.rank ≤ limit.rank

def content (e : LogEvent) : String := e.target ++ " - " ++ e.message

/-- The event in one line, where the level takes five columns. -/
def line (e : LogEvent) : String :=
  "[" ++ e.level.text ++ String.ofList (List.replicate (5 - e.level.text.length) ' ') ++ "] "
    ++ e.content

end LogEvent

end DeclGen
