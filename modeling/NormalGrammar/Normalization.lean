import NormalGrammar.NormalForm
import NormalGrammar.Run
import NormalGrammar.Reader.Misread

/-!
# From a grammar to its normal form

A run on a valid grammar ends with a grammar that can be read as one in normal form.
-/

namespace NormalGrammar

/-- Why a text or a grammar has no normal form. -/
inductive NormalizationError
  | misread (e : Misread)
  | invalid (e : ValidationError)
  | notNormal (e : NormalFormError)
  deriving DecidableEq

def NormalizationError.message : NormalizationError → String
  | misread e => e.message
  | invalid e => e.message
  | notNormal e => e.message

namespace Grammar

def toNormalForm (G : Grammar) : Except NormalizationError NormalForm :=
  match G.run with
  | .error e => .error (.invalid e)
  | .ok run => (NormalForm.ofGrammar run.result).mapError .notNormal

end Grammar

end NormalGrammar
