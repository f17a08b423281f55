import NormalGrammar.NormalForm.TableText
import NormalGrammar.Normalization
import NormalGrammar.Reader

/-!
# A demonstration

Two grammars are brought into normal form, and some words are tried on each.  The grammar is shown as it is given,
after every pass and in normal form, and then the table of every word.
-/

namespace NormalGrammar.Demo

/-- A grammar to be shown with some words. -/
structure Exercise where
  name : String
  title : String
  start : String
  lines : List String
  words : List String

def exercises : List Exercise := [
  { name := "variant 13"
    title := "Variant 13"
    start := "S"
    lines := ["S → aB | DA", "A → a | BD | bDAB", "B → b | BA", "D → ε | BA", "C → BA"]
    words := ["ab", "ba", "bab", "abab"] },
  { name := "balanced words"
    title := "Balanced words"
    start := "S"
    lines := ["S → aSb | SS | ε"]
    words := ["", "aabb", "abab", "aab"] }]

/-- What is printed, what is reported, and why it ended early if it did. -/
structure Transcript where
  paragraphs : List String
  events : List Event
  error? : Option NormalizationError

namespace Transcript

def empty : Transcript := ⟨[], [], none⟩

/-- Goes on with `next`, unless the transcript has ended early. -/
def followedBy (t next : Transcript) : Transcript :=
  match t.error? with
  | some _ => t
  | none => ⟨t.paragraphs ++ next.paragraphs, t.events ++ next.events, next.error?⟩

def print (paragraph : String) : Transcript := ⟨[paragraph], [], none⟩

def report (events : List Event) : Transcript := ⟨[], events, none⟩

def failure (e : NormalizationError) : Transcript := ⟨[], [], some e⟩

end Transcript

open Transcript

def showGrammar (title : String) (definition : String) : Transcript := print s!"{title}:\n{definition}"

/-- The normal form of a run, and the table of every word. -/
def showNormalForm (result : Grammar) (words : List String) : Transcript :=
  match NormalForm.ofGrammar result with
  | .error e => failure (.notNormal e)
  | .ok N =>
    (showGrammar "Chomsky Normal Form" N.definition).followedBy
      ⟨words.map fun w => (N.table (Word.ofString w)).text, [], none⟩

def showRun (G : Grammar) (words : List String) : Transcript :=
  match G.run with
  | .error e => failure (.invalid e)
  | .ok run =>
    let passes := run.passes.map fun p => s!"After {p.stage.title}:\n{p.result.definition}"
    Transcript.followedBy ⟨passes, run.events, none⟩ (showNormalForm run.result words)

def Exercise.transcript (x : Exercise) : Transcript :=
  (report [⟨.info, .demonstration, s!"Running {x.name}"⟩]).followedBy <|
    match Grammar.read x.start x.lines with
    | .error e => failure (.misread e)
    | .ok G => (showGrammar x.title G.definition).followedBy (showRun G x.words)

/-- Does one exercise after the other up to the first that fails. -/
def transcript : List Exercise → Transcript
  | [] => .empty
  | x :: rest =>
    let t := x.transcript
    match t.error? with
    | none => t.followedBy (transcript rest)
    | some e => { t with events := t.events ++ [⟨.error, .demonstration, s!"{x.name} failed: {e.message}"⟩] }

/-- What goes to the output. -/
def Transcript.output (t : Transcript) : String := String.join (t.paragraphs.map (· ++ "\n"))

/-- What goes to the log of a reader who asks for events of the level `asked`. -/
def Transcript.log (t : Transcript) (asked : Level) : String :=
  String.join ((t.events.filter fun e => asked.shows e.level).map (Event.line · ++ "\n"))

def Transcript.exitCode (t : Transcript) : Nat := if t.error?.isNone then 0 else 1

end NormalGrammar.Demo
