import NormalGrammar.Demo

/-!
# The command line

Runs the demonstration.  The only argument is the level of the events that are logged, errors alone by default.
-/

open NormalGrammar

def askedLevel : List String → Level
  | ["info"] => .info
  | ["debug"] => .debug
  | ["trace"] => .trace
  | _ => .error

def main (args : List String) : IO UInt32 := do
  let t := Demo.transcript Demo.exercises
  (← IO.getStdout).putStr t.output
  (← IO.getStderr).putStr (t.log (askedLevel args))
  return t.exitCode.toUInt32
