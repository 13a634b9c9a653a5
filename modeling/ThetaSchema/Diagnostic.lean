import ThetaSchema.Location

/-!
# Diagnostics

A diagnostic is a message with a severity and the stretch of source it is about.  A log is the list of
diagnostics in the order in which they were reported.
-/

namespace ThetaSchema

/-- How serious a diagnostic is. -/
inductive Severity where
  | note
  | warning
  | error
  deriving DecidableEq, Repr

namespace Severity

/-- Severities in increasing order. -/
def rank : Severity → Nat
  | note => 0
  | warning => 1
  | error => 2

/-- The word written for a severity. -/
def word : Severity → Text
  | note => "note"
  | warning => "warning"
  | error => "error"

end Severity

/-- A message about a stretch of source, `length` bytes long. -/
structure Diagnostic where
  severity : Severity
  location : Location
  message : Text
  length : UInt32
  deriving DecidableEq, Repr

namespace Diagnostic

/-- A diagnostic as a log keeps it: it covers at least one byte. -/
def recorded (d : Diagnostic) : Diagnostic :=
  { d with length := max 1 d.length }

/-- The written form of a diagnostic, `location: severity: message`. -/
def render (d : Diagnostic) : Text :=
  d.location.render ++ ": " ++ d.severity.word ++ ": " ++ d.message

end Diagnostic

/-- Diagnostics in the order of their reports. -/
abbrev Log := List Diagnostic

namespace Log

/-- A log with one more report. -/
def report (log : Log) (d : Diagnostic) : Log :=
  log ++ [d.recorded]

/-- Whether an error was reported. -/
def hasErrors (log : Log) : Bool :=
  log.any (·.severity = .error)

/-- The diagnostics of a log that are at least as serious as `minimum`, one after the other, each ended
by a newline. -/
def render (minimum : Severity) (log : Log) : Text :=
  (log.filter fun d => minimum.rank ≤ d.severity.rank).flatMap fun d => d.render ++ "\n"

end Log

end ThetaSchema
