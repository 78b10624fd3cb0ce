import Resumable.Value.Basic
import Resumable.Number.Shortest

/-!
# The text of values

Strings stand between quotes as they are, without escapes; a tuple of one item has a comma after
it.  The name of a generator is kept in the heap, so the text of a value depends on a function that
gives these names.
-/

namespace Resumable

/-- The text of an exception instance. -/
def Exception.valueText (e : Exception) : String :=
  match e.message with
  | some m => s!"{e.kind.name}('{m}')"
  | none => s!"{e.kind.name}()"

mutual

/-- The text of a value, with the names of generators given. -/
def Value.textWith (generatorName : Ref .generator → String) : Value → String
  | .none => "None"
  | .bool true => "True"
  | .bool false => "False"
  | .int i => toString i.toInt
  | .float x => x.text
  | .str _ s => s!"'{s}'"
  | .tuple _ [item] => s!"({Value.textWith generatorName item},)"
  | .tuple _ items => "(" ++ ", ".intercalate (Value.textsWith generatorName items) ++ ")"
  | .exceptionKind k => s!"<class '{k.name}'>"
  | .exception e => e.valueText
  | .function _ f => s!"<function {f.code.body.name}>"
  | .builtin b => s!"<built-in function {b.name}>"
  | .generator r => s!"<generator object {generatorName r}>"
  | .iterator _ => "<iterator>"
  | .cell _ => "<cell>"
  | .code c => s!"<code object {c.body.name}>"
  | .suspended u => s!"<unroller {u.word}>"

/-- The texts of several values. -/
def Value.textsWith (generatorName : Ref .generator → String) : List Value → List String
  | [] => []
  | v :: rest => Value.textWith generatorName v :: Value.textsWith generatorName rest

end

end Resumable
