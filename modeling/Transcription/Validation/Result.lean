/-
Transcription.Validation.Result — what a validation finds: issues, and the
result that they make.

A document is valid when no issue is an error; warnings do not count
against it.
-/
import Transcription.Text.Basic

namespace Transcription.Validation

/-- A finding, with its place if that is known. -/
structure Issue where
  message : Text
  line : Option Int
  column : Option Int
  isWarning : Bool
  deriving DecidableEq, Repr

/-- The result of validating one document against one schema. -/
structure Result where
  valid : Bool
  schemaName : Text
  issues : List Issue
  errorCount : Nat
  warningCount : Nat
  deriving DecidableEq, Repr

/-- The result of some findings. -/
def Result.ofIssues (schemaName : Text) (issues : List Issue) : Result :=
  let warnings := issues.countP fun i => i.isWarning
  let errors := issues.length - warnings
  { valid := errors = 0
    schemaName := schemaName
    issues := issues
    errorCount := errors
    warningCount := warnings }

/-- The result where nothing was found. -/
def Result.success (schemaName : Text) : Result :=
  ofIssues schemaName []

end Transcription.Validation
