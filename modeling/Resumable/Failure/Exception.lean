/-!
# Exceptions

`ExceptionKind` are the exception classes, `Exception` an instance of one with an optional message,
and `Raised` an exception in flight with the frames it has passed through.

Classes form a tree; `ExceptionKind.isSubclassOf` is its order (`ExceptionKind.isSubclassOf_refl`,
`ExceptionKind.isSubclassOf_trans`), and a handler for a class catches the classes below it.
-/

namespace Resumable

/-- The exception classes. -/
inductive ExceptionKind where
  | baseException | exception | generatorExit | stopIteration
  | arithmeticError | overflowError | zeroDivisionError
  | lookupError | indexError | keyError
  | nameError | unboundLocalError
  | runtimeError | recursionError | timeoutError
  | typeError | valueError
  deriving DecidableEq, Repr, Inhabited

namespace ExceptionKind

/-- Every class, in the order in which they are numbered and bound. -/
def all : List ExceptionKind :=
  [baseException, exception, generatorExit, stopIteration, arithmeticError, overflowError,
    zeroDivisionError, lookupError, indexError, keyError, nameError, unboundLocalError,
    runtimeError, recursionError, timeoutError, typeError, valueError]

theorem mem_all (k : ExceptionKind) : k ∈ all := by
  cases k <;> decide

/-- The position of a class in `all`. -/
def number (k : ExceptionKind) : Nat := all.idxOf k

/-- The class with a given number. -/
def ofNumber? (n : Nat) : Option ExceptionKind := all[n]?

theorem ofNumber?_number (k : ExceptionKind) : ofNumber? k.number = some k := by
  cases k <;> rfl

/-- The name a class is bound to. -/
def name : ExceptionKind → String
  | baseException => "BaseException"
  | exception => "Exception"
  | generatorExit => "GeneratorExit"
  | stopIteration => "StopIteration"
  | arithmeticError => "ArithmeticError"
  | overflowError => "OverflowError"
  | zeroDivisionError => "ZeroDivisionError"
  | lookupError => "LookupError"
  | indexError => "IndexError"
  | keyError => "KeyError"
  | nameError => "NameError"
  | unboundLocalError => "UnboundLocalError"
  | runtimeError => "RuntimeError"
  | recursionError => "RecursionError"
  | timeoutError => "TimeoutError"
  | typeError => "TypeError"
  | valueError => "ValueError"

/-- The class with a given name. -/
def ofName? (s : String) : Option ExceptionKind := all.find? fun k => k.name == s

/-- The class directly above another. -/
def parent? : ExceptionKind → Option ExceptionKind
  | baseException => none
  | exception | generatorExit => some baseException
  | overflowError | zeroDivisionError => some arithmeticError
  | indexError | keyError => some lookupError
  | unboundLocalError => some nameError
  | recursionError => some runtimeError
  | stopIteration | arithmeticError | lookupError | nameError | runtimeError | timeoutError
  | typeError | valueError => some exception

/-- An exception of class `k` is caught by a handler for `handler`. -/
def isSubclassOf (k handler : ExceptionKind) : Bool :=
  k == handler ||
    match handler with
    | baseException => true
    | exception => k != baseException && k != generatorExit
    | arithmeticError => k == overflowError || k == zeroDivisionError
    | lookupError => k == indexError || k == keyError
    | nameError => k == unboundLocalError
    | runtimeError => k == recursionError
    | _ => false

theorem isSubclassOf_refl (k : ExceptionKind) : k.isSubclassOf k = true := by
  simp [isSubclassOf]

theorem isSubclassOf_trans {a b c : ExceptionKind} (h : a.isSubclassOf b = true)
    (h' : b.isSubclassOf c = true) : a.isSubclassOf c = true := by
  have closed : ∀ a ∈ all, ∀ b ∈ all, ∀ c ∈ all,
      a.isSubclassOf b = true → b.isSubclassOf c = true → a.isSubclassOf c = true := by
    decide +kernel
  exact closed a (mem_all a) b (mem_all b) c (mem_all c) h h'

theorem isSubclassOf_parent {k p : ExceptionKind} (h : k.parent? = some p) :
    k.isSubclassOf p = true := by
  cases k <;> cases h <;> rfl

end ExceptionKind

/-- An exception instance: its class and the argument it was made with. -/
structure Exception where
  kind : ExceptionKind
  message : Option String := none
  deriving DecidableEq, Repr, Inhabited

/-- The class, followed by the message if there is one. -/
def Exception.text (e : Exception) : String :=
  match e.message with
  | some m => e.kind.name ++ ": " ++ m
  | none => e.kind.name

/-- One frame an exception passed through: its code, and where it was. -/
structure TracebackEntry where
  code : String
  line : Nat
  offset : Nat
  deriving DecidableEq, Repr, Inhabited

/-- The line of a traceback that shows one entry. -/
def TracebackEntry.text (t : TracebackEntry) : String :=
  s!"  in {t.code}, line {t.line} (offset {t.offset})\n"

/-- An exception in flight.  Entries are appended as it leaves frames, innermost frame first. -/
structure Raised where
  exception : Exception
  traceback : List TracebackEntry := []
  deriving DecidableEq, Repr, Inhabited

namespace Raised

/-- An exception with a message, not yet raised anywhere. -/
def new (kind : ExceptionKind) (message : String) : Raised := ⟨⟨kind, some message⟩, []⟩

/-- An exception without a message. -/
def bare (kind : ExceptionKind) : Raised := ⟨⟨kind, none⟩, []⟩

/-- The class of the exception. -/
def kind (e : Raised) : ExceptionKind := e.exception.kind

/-- A handler for `handler` would catch this exception. -/
def isCaughtBy (e : Raised) (handler : ExceptionKind) : Bool := e.kind.isSubclassOf handler

/-- Records that the exception was raised in, or passed through, another frame. -/
def through (e : Raised) (entry : TracebackEntry) : Raised :=
  { e with traceback := e.traceback ++ [entry] }

/-- A use of a value of the wrong type. -/
def typeError (message : String) : Raised := new .typeError message

/-- An integer result that does not fit. -/
def overflow : Raised := new .overflowError "integer overflow"

/-- A name bound in no scope. -/
def nameError (name : String) : Raised := new .nameError s!"name '{name}' is not defined"

/-- A local variable that has no value yet. -/
def unboundLocal (name : String) : Raised :=
  new .unboundLocalError s!"local variable '{name}' referenced before assignment"

/-- A variable of an enclosing scope that has no value yet. -/
def unboundFree (name : String) : Raised :=
  new .nameError s!"free variable '{name}' referenced before assignment in enclosing scope"

/-- The traceback, outermost frame first, and the exception.  An exception that was never raised
shows no traceback. -/
def text (e : Raised) : String :=
  let lines := e.traceback.reverse.map TracebackEntry.text
  (if lines.isEmpty then "" else "Traceback (most recent call last):\n") ++
    String.join lines ++ e.exception.text

end Raised

end Resumable
