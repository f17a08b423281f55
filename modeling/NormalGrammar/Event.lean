import NormalGrammar.Symbol

/-!
# What is reported while a grammar is brought into normal form

Every event has a level, the topic that it belongs to and a message.  A reader who asks for a level sees the events of
that level and of all more urgent ones.
-/

namespace NormalGrammar

/-- How urgent an event is, the most urgent first. -/
inductive Level
  | error
  | info
  | debug
  | trace
  deriving DecidableEq

inductive Topic
  | demonstration
  | run
  | erasure
  | units
  | accessibility
  | productivity
  | binarization
  | isolation
  deriving DecidableEq

structure Event where
  level : Level
  topic : Topic
  message : String
  deriving DecidableEq

namespace Level

def rank : Level → Nat
  | error => 0
  | info => 1
  | debug => 2
  | trace => 3

/-- The level as it stands in a log, always five characters wide. -/
def label : Level → String
  | error => "ERROR"
  | info => "INFO "
  | debug => "DEBUG"
  | trace => "TRACE"

/-- Whether someone who asks for the level `asked` sees events of the level `l`. -/
def shows (asked l : Level) : Bool := decide (l.rank ≤ asked.rank)

end Level

/-- The name under which a topic appears in a log. -/
def Topic.path : Topic → String
  | demonstration => "exercises"
  | run => "chomsky::normalize::pipeline"
  | erasure => "chomsky::normalize::epsilon"
  | units => "chomsky::normalize::unit"
  | accessibility => "chomsky::normalize::accessible"
  | productivity => "chomsky::normalize::productive"
  | binarization => "chomsky::normalize::binarize"
  | isolation => "chomsky::normalize::terminals"

namespace Event

/-- The message with further lines set in by four columns. -/
def indented (message : String) : String := "\n    ".intercalate (message.splitOn "\n")

/-- The event as it stands in a log. -/
def line (e : Event) : String := s!"[{e.level.label} {e.topic.path}] {indented e.message}"

end Event

end NormalGrammar
