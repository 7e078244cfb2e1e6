import Authoring.Literal
import Authoring.Script.Expr

/-!
# Terms

The values of the authoring language. It is a dynamic language: a reference may be given as a name, an IRI,
an entity, an expression or something that produces one, and whatever else stands in such a place has to be
reported with the value that stands there. So there is one type of values, and the operations say which of
them they accept.

* **Atoms**: numbers, texts, IRIs, literals, keywords.
* **The domain**: entities, class expressions, annotations, facts and axioms. An operand of an expression or
  axiom is any term; which terms belong there is decided where they are used.
* **Containers**: tuples, lists, sets and maps. A set holds no two equal members (`Term.setOf`).
* **Handles**: ontologies, stores and other things that change; two handles are equal when they denote the
  same thing.
* **Callables**: delayed expressions, naming functions and remove hooks.
-/

namespace Authoring

/-- Something that changes over time, known by its number. -/
inductive Handle where
  | ontology (id : Nat)
  | store (id : Nat)
  | factory (id : Nat)
  | options (id : Nat)
  | window (id : Nat)
  deriving DecidableEq, Repr, Inhabited

/-- What an ontology contains, in numbers. -/
structure Stats where
  classes : Nat
  objectProperties : Nat
  annotationProperties : Nat
  individuals : Nat
  axioms : Nat
  imports : Nat
  deriving DecidableEq, Repr, Inhabited

/-- The settings that the environment of a run provides: the language of annotations, and the text between
the IRI of an ontology and a name. -/
structure Settings where
  language : String
  separator : String
  deriving DecidableEq, Repr, Inhabited

/-- A graph, listed: the number of its triples, one line for each named subject and predicate and one for
each root, and the prefix that stands for the namespace of its ontology. -/
structure Listing where
  size : Nat
  lines : List String
  abbreviation : Option String
  deriving DecidableEq, Repr, Inhabited

/-- The values of the authoring language. -/
inductive Term where
  | null
  | bool (value : Bool)
  | int (value : Int)
  | float (value : Decimal.Binary64)
  | text (value : String)
  | iri (value : String)
  | literal (value : Literal)
  | keyword (value : Keyword)
  /-- An entity, with the number of the factory that made it: equal entities of two factories are two
  objects. -/
  | entity (maker : Nat) (value : Entity)
  | expression (operator : Term) (operands : List Term) (cardinality : Term)
  | note (property : Term) (value : Literal)
  | fact (property target : Term) (negated : Bool)
  | statement (kind : AxiomKind) (operands : List Term)
  | tuple (items : List Term)
  | list (items : List Term)
  | set (frozen : Bool) (members : List Term)
  | map (entries : List (Term × Term))
  | handle (value : Handle)
  /-- A delayed expression, the number of arguments it takes (none or one), and the mapping that was bound
  where it was written. -/
  | closure (serial arity : Nat) (body : Expr) (bound : Term)
  | naming (serial : Nat) (rule : NamingRule)
  | hook (name : String) (fails : Bool)
  | stats (value : Stats)
  | settings (value : Settings)
  | listing (value : Listing)
  deriving Inhabited

namespace Term

/-- The content of a term that counts as a text. -/
def content? : Term → Option String
  | .text s => some s
  | .iri s => some s
  | .literal l => some l.text
  | .keyword k => some k.word
  | _ => none

/-- Whether a term can be called. -/
def isCallable : Term → Bool
  | .closure .. | .naming .. | .hook .. => true
  | _ => false

def isExpression : Term → Bool
  | .expression .. => true
  | _ => false

def isEntity : Term → Bool
  | .entity .. => true
  | _ => false

/-- Whether a term counts as true: all do but null, false, the zeros and what is empty. -/
def isTruthy : Term → Bool
  | .null => false
  | .bool b => b
  | .int n => n != 0
  | .float x => x.isNonzero
  | .text s => s != ""
  | .iri s => s != ""
  | .literal l => l.isTruthy
  | .keyword k => k.word != ""
  | .tuple ts => !ts.isEmpty
  | .list ts => !ts.isEmpty
  | .set _ ts => !ts.isEmpty
  | .map es => !es.isEmpty
  | _ => true

def ofEntityKind (k : EntityKind) : Term := .keyword (.entityKind k)

def ofTag (t : FrameTag) : Term := .keyword (.tag t)

def ofOperator (o : Operator) : Term := .keyword (.operator o)

def ofOption (f : α → Term) : Option α → Term
  | some a => f a
  | none => .null

mutual
/-- Whether a term can be a member of a set or a key of a map. What can still change cannot, nor can
anything that holds such a thing. -/
def isStable : Term → Bool
  | .list _ | .map _ | .set false _ => false
  | .stats _ | .settings _ | .listing _ => false
  | .handle (.options _) | .handle (.window _) => false
  | .tuple ts => areStable ts
  | .expression o ts c => o.isStable && areStable ts && c.isStable
  | .note p _ => p.isStable
  | .fact p t _ => p.isStable && t.isStable
  | .statement _ ts => areStable ts
  | _ => true
def areStable : List Term → Bool
  | [] => true
  | t :: ts => t.isStable && areStable ts
end

end Term

end Authoring
