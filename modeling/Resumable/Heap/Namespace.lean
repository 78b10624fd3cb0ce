import Resumable.Value.Equality

/-!
# Namespaces

A `Namespace` maps names to values and keeps the order in which names were first bound: binding a
bound name again changes its value in place, and removing it closes the gap.
-/

namespace Resumable

/-- A mapping from names to values in insertion order. -/
structure Namespace where
  entries : List (String × Value) := []
  deriving Inhabited

namespace Namespace

/-- Binds a name in a list of bindings. -/
def bind (name : String) (v : Value) : List (String × Value) → List (String × Value)
  | [] => [(name, v)]
  | (n, w) :: rest => if n = name then (n, v) :: rest else (n, w) :: bind name v rest

variable (ns : Namespace)

/-- The value bound to a name. -/
def get? (name : String) : Option Value := ns.entries.lookup name

/-- Binds a name. -/
def set (name : String) (v : Value) : Namespace := ⟨bind name v ns.entries⟩

/-- Unbinds a name. -/
def erase (name : String) : Namespace := ⟨ns.entries.filter fun (n, _) => n ≠ name⟩

/-- Whether a name is bound. -/
def contains (name : String) : Bool := (ns.get? name).isSome

/-- How many names are bound. -/
def size : Nat := ns.entries.length

/-- The bound names, in their order. -/
def keys : List String := ns.entries.map Prod.fst

/-- Binds names in order, a later binding of a name replacing an earlier one. -/
def ofList (entries : List (String × Value)) : Namespace :=
  entries.foldl (fun ns (n, v) => ns.set n v) {}

/-- Equality as mappings: the order of the names does not matter. -/
def eq (a b : Namespace) : Bool :=
  a.size == b.size &&
    a.entries.all fun (n, v) =>
      match b.get? n with
      | some w => v.eq w
      | none => false

@[simp]
theorem get?_set_self (name : String) (v : Value) : (ns.set name v).get? name = some v := by
  obtain ⟨entries⟩ := ns
  induction entries with
  | nil => simp [get?, set, bind]
  | cons e rest ih =>
    obtain ⟨n, w⟩ := e
    simp only [get?, set, bind] at ih ⊢
    split
    · simp [*]
    · rename_i h
      rw [List.lookup_cons, beq_false_of_ne (Ne.symm h)]
      exact ih

theorem get?_set_ne {name other : String} (h : other ≠ name) (v : Value) :
    (ns.set name v).get? other = ns.get? other := by
  obtain ⟨entries⟩ := ns
  induction entries with
  | nil => simp [get?, set, bind, List.lookup_cons, beq_false_of_ne h]
  | cons e rest ih =>
    obtain ⟨n, w⟩ := e
    simp only [get?, set, bind] at ih ⊢
    split
    · rename_i hn
      subst hn
      simp [List.lookup_cons, beq_false_of_ne h]
    · simp only [List.lookup_cons, ih]

/-- The bindings every frame finds when it is given no others: the native functions, then the
exception classes. -/
def builtins : Namespace :=
  ofList <|
    [Builtin.len, Builtin.range].map (fun b => (b.name, .builtin b)) ++
      ExceptionKind.all.map fun k => (k.name, .exceptionKind k)

end Namespace

end Resumable
