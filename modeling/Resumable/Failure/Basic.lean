import Resumable.Failure.Exception
import Resumable.Failure.Fault

/-!
# Failures

A run that produces no value ends in a `Failure`: a fault, an exception that handlers may catch, or
an exception that bypasses every handler because a resource is used up.
-/

namespace Resumable

/-- Why a run produced no value. -/
inductive Failure where
  /-- A breach of contract; it never reaches a handler. -/
  | fatal (fault : Fault)
  /-- An exception that handlers may catch. -/
  | raised (error : Raised)
  /-- An exception that bypasses every handler. -/
  | uncatchable (error : Raised)
  deriving DecidableEq, Repr

namespace Failure

/-- The exception of a failure, if it is not a fault. -/
def error? : Failure → Option Raised
  | fatal _ => none
  | raised e | uncatchable e => some e

/-- A handler for `kind` would stop this failure. -/
def isCaughtBy (kind : ExceptionKind) : Failure → Bool
  | raised e => e.isCaughtBy kind
  | fatal _ | uncatchable _ => false

/-- The wording of a failure, with the traceback of its exception. -/
def message : Failure → String
  | fatal f => "fatal: " ++ f.message
  | raised e | uncatchable e => e.text

end Failure

end Resumable
