import Authoring.World

/-!
# One object or two

Two values can be equal, and even look the same, and yet be two objects. Of some values there is only one
object: constants such as null, small numbers and short texts, keywords, and all that is known by a number.
Any other value is an object of its own each time it is made.

Values do not carry their making with them, so it is read off the expressions (`Origin.of`): one that writes a
value down makes it, and so do all operations but those that hand on what they were given or have found. A name
stands for the object that was named, and a number for the making of that object is kept with the name. Where
the making of an object is not known, two objects are taken for one if they cannot be told apart.
-/

namespace Authoring.Script

/-- Where the object comes from that an expression denotes. -/
inductive Origin where
  /-- The expression makes it. -/
  | made
  /-- It was made before, and named. -/
  | named (making : Nat)
  /-- It was made before. -/
  | found
  deriving DecidableEq, Repr

/-- Whether an operation answers with its first argument, if that is already what is asked for. -/
def handsOn (operation : String) : Bool :=
  ["add_axiom", "remove_axiom", "resolve", "resolve_ontology", "ensure_class", "ensure_object_property",
    "ensure_annotation_property", "ensure_individual", "str", "with_ontology", "in_namespace"].contains
    operation

/-- Whether an operation answers with the value of its arguments, if they have but one. -/
def joins (operation : String) : Bool := ["owland", "owlor"].contains operation

/-- Whether an operation answers with what it has found. -/
def finds (operation : String) : Bool :=
  ["item", "get_current_namespace", "get_namespace_ontology", "get_current_ontology", "get_prefix",
    "get_iri"].contains operation

namespace Origin

/-- The origin of what several expressions denote, if it is one object. -/
def common (origins : List Origin) : Origin :=
  match origins.eraseDups with
  | [o] => o
  | _ => .made

section
variable (births : List (String × Nat))

mutual
/-- Where the object of an expression comes from, given the makings of what is named. -/
def of : Expr → Origin
  | .variable name => ((births.lookup name).map Origin.named).getD .found
  | .bound _ => .found
  | .call operation _ arguments _ =>
    if finds operation then .found
    else if handsOn operation then ofFirst arguments
    else if joins operation then common (ofItems arguments)
    else .made
  | _ => .made
termination_by e => (sizeOf e, 0)
def ofFirst : List Expr → Origin
  | [] => .found
  | e :: _ => of e
termination_by es => (sizeOf es, 0)
/-- Where the objects of several expressions come from. The items of lists and tuples among them count one by
one, and nulls not at all. -/
def ofItems : List Expr → List Origin
  | [] => []
  | e :: es => ofItem e ++ ofItems es
termination_by es => (sizeOf es, 0)
def ofItem : Expr → List Origin
  | .list es | .tuple es => ofItems es
  | .null => []
  | e => [of e]
termination_by e => (sizeOf e, 1)
end

end

end Origin

/-- Whether there is only one object of a value. -/
def isUnique : Term → Bool
  | .null | .bool _ | .keyword _ | .entity .. | .handle _ | .closure .. | .naming .. | .hook ..
  | .settings _ => true
  | .int n => -5 ≤ n && n ≤ 256
  | .float x => !x.isFinite
  | .text s =>
    match s.toList with
    | [] => true
    | [c] => c.toNat < 256
    | _ => false
  | .tuple ts => ts.isEmpty
  | _ => false

/-- Whether two values cannot be told apart. An entity is made once by each factory. -/
def isAlike (a b : Term) : Bool :=
  match a, b with
  | .entity m e, .entity n f => m == n && e == f
  | .keyword k, .keyword j => k == j
  | a, b => a.ctorIdx == b.ctorIdx && a == b

/-- Whether two values of known origins are one object. -/
def isSame (origin : Origin) (a : Term) (origin' : Origin) (b : Term) : Bool :=
  isAlike a b &&
    (isUnique a ||
      match origin, origin' with
      | .made, _ | _, .made => false
      | .named m, .named n => m == n
      | _, _ => true)

end Authoring.Script
