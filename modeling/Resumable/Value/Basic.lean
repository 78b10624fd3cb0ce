import Resumable.Bytecode.Code
import Resumable.Failure.Exception

/-!
# Values

A `Value` is what stacks, variables and cells hold.  Immutable data is part of the value; strings,
tuples, functions and code objects carry an identity, by which `is` tells equal ones apart.
Mutable objects are named by a `Ref` into the heap, so that several values can share one.

* `Value.same` is identity, the relation `is`;
* `Unwind` are the reasons for which a frame unwinds its blocks; a suspended reason is a value.
-/

namespace Resumable

/-- The kinds of mutable objects. -/
inductive ObjectKind where
  | mapping | cell | iterator | generator
  deriving DecidableEq, Repr

/-- The name of a mutable object of a given kind. -/
structure Ref (kind : ObjectKind) where
  index : Nat
  deriving DecidableEq, Repr, Inhabited

/-- The name of a mutable object of any kind. -/
structure SharedRef where
  kind : ObjectKind
  index : Nat
  deriving DecidableEq, Repr

/-- A name whose kind is kept beside it. -/
def Ref.shared {k : ObjectKind} (r : Ref k) : SharedRef := ⟨k, r.index⟩

/-- The native functions. -/
inductive Builtin where
  | len
  | range
  deriving DecidableEq, Repr

/-- The name a native function is bound to. -/
def Builtin.name : Builtin → String
  | len => "len"
  | range => "range"

/-- A function: code and the environment it was made in. -/
structure FunctionOf (ν : Type) where
  code : CodeObject
  globals : Ref .mapping
  /-- Values of the last parameters when they are not given. -/
  defaults : List ν
  /-- One cell for each free variable of the code. -/
  closure : List (Ref .cell)
  deriving Inhabited

/-- Why a frame unwinds its blocks. -/
inductive Unwind (ν : Type) where
  | returning (value : ν)
  | breaking
  /-- Back to the start of a loop. -/
  | continuing (target : Nat)
  | raising (error : Raised)

/-- The word for a reason in messages. -/
def Unwind.word {ν : Type} : Unwind ν → String
  | returning _ => "return"
  | breaking => "break"
  | continuing _ => "continue"
  | raising _ => "exception"

/-- What stacks, variables and cells hold. -/
inductive Value where
  | none
  | bool (b : Bool)
  | int (i : Int64)
  | float (x : Binary64)
  | str (identity : Identity) (text : String)
  | tuple (identity : Identity) (items : List Value)
  /-- An exception class. -/
  | exceptionKind (kind : ExceptionKind)
  /-- An exception instance. -/
  | exception (e : Exception)
  | function (identity : Identity) (f : FunctionOf Value)
  | builtin (b : Builtin)
  | generator (r : Ref .generator)
  | iterator (r : Ref .iterator)
  | cell (r : Ref .cell)
  | code (c : CodeObject)
  /-- A reason that waits while a handler runs. -/
  | suspended (reason : Unwind Value)
  deriving Inhabited

/-- A function over values. -/
abbrev Function := FunctionOf Value

namespace Value

/-- The value that stands for no value. -/
def isNone : Value → Bool
  | none => true
  | _ => false

/-- The name of the type of a value; that of an exception is its class. -/
def typeName : Value → String
  | none => "NoneType"
  | bool _ => "bool"
  | int _ => "int"
  | float _ => "float"
  | str _ _ => "str"
  | tuple _ _ => "tuple"
  | exceptionKind _ => "type"
  | exception e => e.kind.name
  | function _ _ => "function"
  | builtin _ => "builtin_function_or_method"
  | generator _ => "generator"
  | iterator _ => "iterator"
  | cell _ => "cell"
  | code _ => "code"
  | suspended _ => "unroller"

/-- Identity.  Small data is one with its equals; floats, exceptions, native functions and
suspended reasons are never the same, not even as themselves. -/
def same : Value → Value → Bool
  | none, none => true
  | bool a, bool b => a == b
  | exceptionKind a, exceptionKind b => a == b
  | str a _, str b _ => a == b
  | tuple a _, tuple b _ => a == b
  | function a _, function b _ => a == b
  | generator a, generator b => a == b
  | iterator a, iterator b => a == b
  | cell a, cell b => a == b
  | code a, code b => a.identity == b.identity
  | int a, int b => a == b
  | _, _ => false

/-- The value as an integer; `True` counts as one and `False` as zero. -/
def asInt? : Value → Option Int64
  | int i => some i
  | bool b => some (if b then 1 else 0)
  | _ => Option.none

/-- The value as a floating point number. -/
def asFloat? : Value → Option Binary64
  | float x => some x
  | v => v.asInt?.map fun i => Binary64.ofInt i.toInt

/-- The truth of a value: zeros, `None` and what is empty are false. -/
def isTrue : Value → Bool
  | none => false
  | bool b => b
  | int i => i != 0
  | float x => !x.eq (Binary64.zero false)
  | str _ s => !s.isEmpty
  | tuple _ items => !items.isEmpty
  | _ => true

end Value

end Resumable
