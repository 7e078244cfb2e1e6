import Authoring.Literal

/-!
# Graphs

An RDF graph: a set of triples over IRIs, blank nodes and literals. Blank nodes are numbered, and a graph
knows the number of its next one, so a new blank node occurs in no triple yet. Triples are kept in the order
in which they were added, each once.
-/

namespace Authoring

inductive Node where
  | iri (value : String)
  | blank (id : Nat)
  | literal (value : Literal)
  deriving DecidableEq, Repr, Inhabited

namespace Node

/-- Of a literal's language the case does not count. -/
instance : BEq Node where
  beq
    | .iri a, .iri b => a == b
    | .blank a, .blank b => a == b
    | .literal a, .literal b => a.agrees b
    | _, _ => false

end Node

structure Triple where
  subject : Node
  predicate : String
  object : Node
  deriving DecidableEq, Repr, Inhabited

namespace Triple

instance : BEq Triple where
  beq a b := a.subject == b.subject && a.predicate == b.predicate && a.object == b.object

end Triple

structure Graph where
  triples : List Triple
  next : Nat
  deriving Repr, Inhabited

namespace Graph

def empty : Graph := ⟨[], 0⟩

def add (g : Graph) (t : Triple) : Graph :=
  if g.triples.contains t then g else { g with triples := g.triples ++ [t] }

/-- The triples with a given subject. -/
def about (g : Graph) (n : Node) : List Triple := g.triples.filter fun t => t.subject == n

/-- Whether a node is the object of some triple. -/
def isObject (g : Graph) (n : Node) : Bool := g.triples.any fun t => t.object == n

end Graph

end Authoring
