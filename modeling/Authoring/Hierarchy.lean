import Authoring.Query
import Authoring.Reference

/-!
# The asserted hierarchy

Which classes stand above and below a class, and which properties above and below an object property. Nothing
is concluded beyond the asserted axioms and their chains; cycles are harmless, and what lies on a cycle is
its own ancestor.

A chain goes through entities only: a class expression can end it, but has nothing above or below it. The
closure (`Hierarchy.closure`) is a worklist: each member is expanded once, and there are no more members than
axioms, so the number of axioms bounds the expansions.

A query takes references. The first, or only, one that is no entity is read as a class, and a second one as
an entity of the kind of the first.
-/

namespace Authoring

/-- The two ways through the hierarchy. -/
inductive Direction where
  | up
  | down
  deriving DecidableEq, Repr, Inhabited

namespace Ontology

/-- What is one step above or below an entity: over subclass axioms for a class, over subproperty axioms for
an object property. Entities of the other kinds have no hierarchy. -/
def step (o : Ontology) (d : Direction) (t : Term) : List Term :=
  let along (k : AxiomKind) : List Term :=
    match d with
    | .up => o.seconds k t
    | .down => o.firsts k t
  match t with
  | .entity _ e =>
    match e.kind with
    | .cls => along .subclassOf
    | .objectProperty => along .subObjectPropertyOf
    | _ => []
  | _ => []

end Ontology

namespace Hierarchy

open Act

/-- What a reference denotes in a query: an entity itself, and anything else read as a class. -/
def reference (t ontology : Term) : Act Term := do
  match t with
  | .entity _ e => Reference.resolve t e.kind ontology
  | t => Reference.resolve t .cls ontology

/-- What two references denote: the second is read as an entity of the kind of the first. -/
def pair (first second ontology : Term) : Act (Term × Term) := do
  let a ← reference first ontology
  let kind := match a with
    | .entity _ e => e.kind
    | _ => .cls
  return (a, ← Reference.resolve second kind ontology)

/-- One step from what a reference denotes. -/
def direct (d : Direction) (t ontology : Term) : Act (List Term) := do
  let o ← Current.orGiven ontology
  let entity ← reference t o
  match entity with
  | .entity _ ⟨.cls, _⟩ | .entity _ ⟨.objectProperty, _⟩ =>
    return (← Query.current o).step d entity
  | _ => return []

/-- Works through a list of members still to be expanded. A member that has been visited is passed over; any
other is visited and its own next steps are worked through first. -/
def closureFrom (d : Direction) (ontology : Term) : Nat → List Term → List Term → Act (List Term)
  | _, visited, [] => return visited
  | 0, visited, t :: rest =>
    if visited.contains t then closureFrom d ontology 0 visited rest else throw .tooDeep
  | fuel + 1, visited, t :: rest => do
    if visited.contains t then closureFrom d ontology (fuel + 1) visited rest
    else
      requireStable t
      let next ← direct d t ontology
      closureFrom d ontology fuel (visited ++ [t]) (next ++ rest)
termination_by fuel _ rest => (fuel, rest.length)

/-- How many members can be expanded: each is an operand of an axiom, and no axiom has two. -/
def expansions (w : World) : Term → Nat
  | .handle (.ontology id) => (w.ontology id).axioms.length
  | _ => 0

/-- **All that is reached** by one or more steps from what a reference denotes. -/
def closure (d : Direction) (t ontology : Term) : Act (List Term) := do
  let o ← Current.orGiven ontology
  let first ← direct d t o
  closureFrom d o (expansions (← get) o) [] first

/-- Whether the second of two references is reached from the first. -/
def reaches (d : Direction) (first second ontology : Term) : Act Bool := do
  let o ← Current.orGiven ontology
  let (a, b) ← pair first second o
  let members ← closure d a o
  requireStable b
  return members.contains b

/-- Whether two references denote members of one symmetric axiom of a kind. -/
def related (k : AxiomKind) (first second ontology : Term) : Act Bool := do
  let o ← Current.orGiven ontology
  let (a, b) ← pair first second o
  let partners ← Query.partners k o a
  requireStable b
  return partners.contains b

/-- Whether two classes are asserted to be disjoint. -/
def isDisjoint (first second ontology : Term) : Act Bool := related .disjointClasses first second ontology

/-- Whether two classes are asserted to be equivalent. -/
def isEquivalent (first second ontology : Term) : Act Bool :=
  related .equivalentClasses first second ontology

end Hierarchy

end Authoring
