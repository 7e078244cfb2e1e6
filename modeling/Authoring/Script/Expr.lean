import Authoring.Decimal.Binary64
import Authoring.Keyword

/-!
# Expressions of a script

The syntax in which a script writes values: constants, containers, calls of the authoring functions, names
of earlier results, and the two kinds of delayed expression. A delayed expression is kept as it is written
and evaluated each time it is called, in the context of the call, so that it can refer to what does not exist
yet.

A value can hold a delayed expression, so the syntax comes before the values.
-/

namespace Authoring

/-- How a naming function makes an IRI from a name: between a `lead` and a `trail`, and reversed if so
asked. A rule can also be made to fail. -/
structure NamingRule where
  lead : String
  trail : String
  reversed : Bool
  asIri : Bool
  fails : Option String
  deriving DecidableEq, Repr, Inhabited

/-- What a script can write where a value is wanted. -/
inductive Expr where
  | null
  | bool (value : Bool)
  | int (value : Int)
  | float (value : Decimal.Binary64)
  | text (value : String)
  | iri (value : String)
  | keyword (value : Keyword)
  /-- The shared entity of a kind, given by its word, and an IRI. -/
  | entity (kind iri : String)
  | literal (text : String) (language datatype : Option String)
  | naming (rule : NamingRule)
  | hook (name : String) (fails : Bool)
  | list (items : List Expr)
  | tuple (items : List Expr)
  | frames (entries : List (Expr × Expr))
  /-- The value of a variable of the script. -/
  | variable (name : String)
  /-- An entry of the mapping that a constructor was called with. -/
  | bound (name : String)
  /-- Fails whenever it is evaluated. -/
  | fail (message : String)
  /-- A delayed expression that takes no argument. -/
  | producer (body : Expr)
  /-- A delayed expression that takes the mapping of what is bound so far. -/
  | construct (body : Expr)
  /-- A call: the operation's name, what it is called on, if anything, and its arguments. -/
  | call (operation : String) (subject : Option Expr) (arguments : List Expr)
      (named : List (String × Expr))
  deriving Inhabited

end Authoring
