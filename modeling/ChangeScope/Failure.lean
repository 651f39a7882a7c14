import ChangeScope.Abort
import ChangeScope.FileTree

/-!
# Failures

The causes for which an operation of the library gives no result, and their wording.
-/

set_option autoImplicit false

namespace ChangeScope

/-- Why an operation failed. -/
inductive Failure where
  /-- The configuration cannot be read. -/
  | config (message : String)
  /-- A source file cannot be indexed. -/
  | parse (file : Path) (message : String)
  /-- The difference to an earlier state cannot be found. -/
  | diff (message : String)
  /-- A file cannot be read or written, or its path not be told. -/
  | io (cause : FileError)
  /-- The tracer runtime does not start. -/
  | tracerStart (message : String)
  /-- The tracer runtime does not end in time. -/
  | tracerTimeout (millis : Nat)
  /-- The tracer runtime does not keep to its protocol. -/
  | tracerProtocol (message : String)
  /-- The parameters of a function cannot be found out. -/
  | signatureLookup (functionId message : String)
  /-- A text is no function id. -/
  | invalidFunctionId (id : String)
deriving DecidableEq, Repr

namespace Failure

/-- The wording of a failure. -/
def message : Failure → String
  | .config m => "Configuration error: " ++ m
  | .parse file m => "Parse error in " ++ file.text ++ ": " ++ m
  | .diff m => "Diff error: " ++ m
  | .io .pathNotText => "Serialization error: " ++ FileError.pathNotText.message
  | .io cause => "IO error: " ++ cause.message
  | .tracerStart m => "Failed to start tracer runtime: " ++ m
  | .tracerTimeout millis => "Tracer did not finish within " ++ toString millis ++ " ms"
  | .tracerProtocol m => "Tracer protocol error: " ++ m
  | .signatureLookup id m => "Signature lookup failed for " ++ id ++ ": " ++ m
  | .invalidFunctionId id => "Invalid function id '" ++ id ++ "', expected <file>::<function>"

/-- The result of a file operation as one of the library. -/
def ofFile {α : Type} : Except FileError α → Except Failure α
  | .ok x => .ok x
  | .error cause => .error (.io cause)

end Failure

/-- Why there is no result: an operation failed, or the run was aborted. -/
inductive Stop where
  | failed (failure : Failure)
  | aborted (cause : Abort)
deriving DecidableEq, Repr

/-- The result of an operation that can fail. -/
def Stop.ofFailure {α : Type} : Except Failure α → Except Stop α
  | .ok x => .ok x
  | .error failure => .error (.failed failure)

/-- The result of an operation that can be aborted. -/
def Stop.ofAbort {α : Type} : Except Abort α → Except Stop α
  | .ok x => .ok x
  | .error cause => .error (.aborted cause)

end ChangeScope
