import Authoring.Decimal.Whole
import Authoring.Fault
import Authoring.Graph
import Authoring.World

/-!
# Drawing an ontology

The graph of an ontology, after the mapping of OWL to RDF graphs. An entity is drawn as its IRI. A class
expression is drawn as a blank node of its own with the triples that describe it, each time that it occurs:
equal expressions never share a node. The members of a set are drawn in a fixed order, entities before
expressions and each in the order of their display.

Drawing reads the world only for the handles that occur in axioms, and changes nothing but the graph. It
fails for what the mapping does not cover.
-/

namespace Authoring

/-- A step of drawing. -/
abbrev Draw := StateT Graph (Except Fault)

namespace Draw

open Vocabulary

/-- A blank node that occurs nowhere yet. -/
def fresh : Draw Node := fun g => .ok (.blank g.next, { g with next := g.next + 1 })

def emit (subject : Node) (predicate : String) (object : Node) : Draw Unit :=
  modify fun g => g.add ⟨subject, predicate, object⟩

/-- The cells of a list after its head: each node under the first of its cell, and the rest of the last cell
is nil. -/
def cells (head : Node) : List Node → Draw Unit
  | [] => pure ()
  | [n] => do
    emit head (rdf "first") n
    emit head (rdf "rest") (.iri (rdf "nil"))
  | n :: m :: rest => do
    emit head (rdf "first") n
    let next ← fresh
    emit head (rdf "rest") next
    cells next (m :: rest)

/-- A list of what is drawn, headed by a blank node. -/
def list (items : List (Draw Node)) : Draw Node := do
  let head ← fresh
  let nodes ← items.mapM id
  cells head nodes
  return head

/-- The place of a member in the drawing of its set: entities first, then by display. -/
structure Rank where
  isExpression : Bool
  display : String

namespace Rank

def le (a b : Rank) : Bool :=
  if a.isExpression == b.isExpression then !(b.display < a.display) else b.isExpression

end Rank

/-- Drawings of members in the order of their ranks. -/
def inOrder (members : List (Rank × α)) : List α :=
  (members.mergeSort fun a b => a.1.le b.1).map (·.2)

/-- The predicate that leads from an intersection, union or enumeration to the list of its members; other
operators have none. -/
def listPredicate? : Operator → Option String
  | .and => some (owl "intersectionOf")
  | .or => some (owl "unionOf")
  | .oneOf => some (owl "oneOf")
  | _ => none

/-- The predicate that leads from a restriction to its filler or, if it counts, to its number. -/
def restrictionPredicate? : Operator → Option String
  | .some => some (owl "someValuesFrom")
  | .only => some (owl "allValuesFrom")
  | .min => some (owl "minQualifiedCardinality")
  | .max => some (owl "maxQualifiedCardinality")
  | .exactly => some (owl "qualifiedCardinality")
  | _ => none

/-- The operator that is found when one looks for a term among the operators. -/
def operator? (t : Term) : Option Operator := Operator.all.find? fun o => t == .ofOperator o

section
variable (w : World)

/-- The IRI of an entity or of an ontology; nothing else has one. -/
def iriOf : Term → Draw String
  | .entity _ e => pure e.iri
  | .handle (.ontology id) => pure (w.ontology id).iri
  | _ => throw .missingPart

def rank (t : Term) : Rank := ⟨t.isExpression, t.display w.names⟩

/-- The number of a counting restriction. What stands there as a text is written as the whole number that it
reads as, and a literal keeps its text and language. -/
def cardinalityLiteral (t : Term) : Literal :=
  let number (text : String) (language : Option Language) : Literal :=
    ⟨text, language, some (xsd "nonNegativeInteger")⟩
  match t with
  | .bool b => number (if b then "true" else "false") none
  | .text s | .iri s => number (((Decimal.readWhole s).map toString).getD s) none
  | .literal l => number l.text l.language
  | t => number (t.display w.names) none

/-- The predicate of what is given as the operator of a restriction. -/
def predicateOf (operator : Term) : Draw String :=
  match (operator? operator).bind restrictionPredicate? with
  | some predicate => pure predicate
  | none => throw (.missingKey (operator.display w.names))

/-- The description of a restriction, whose property and filler are its two operands. -/
def restriction (operator : Term) (operands : List Term) (drawings : List (Draw Node))
    (cardinality : Term) : Draw Node := do
  let node ← fresh
  match operands, drawings with
  | [property, _], [_, filler] =>
    emit node (rdf "type") (.iri (owl "Restriction"))
    let p ← iriOf w property
    emit node (owl "onProperty") (.iri p)
    let predicate ← predicateOf w operator
    match cardinality with
    | .null =>
      let n ← filler
      emit node predicate n
    | c =>
      emit node predicate (.literal (cardinalityLiteral w c))
      let n ← filler
      emit node (owl "onClass") n
    return node
  | ts, _ =>
    throw (.badValue (if ts.length < 2 then .tooFew 2 ts.length else .tooMany 2))

/-- The description of an intersection, union or enumeration. -/
def groupOf (predicate : String) (members : List (Rank × Draw Node)) : Draw Node := do
  let node ← fresh
  emit node (rdf "type") (.iri (owl "Class"))
  let head ← list (inOrder members)
  emit node predicate head
  return node

/-- The description of a complement. -/
def complement (drawings : List (Draw Node)) : Draw Node := do
  let node ← fresh
  emit node (rdf "type") (.iri (owl "Class"))
  match drawings with
  | [] => throw .outOfRange
  | d :: _ =>
    let n ← d
    emit node (owl "complementOf") n
    return node

mutual
/-- **The node of an entity or class expression**, with the triples that describe it. -/
def node : Term → Draw Node
  | .entity _ e => pure (.iri e.iri)
  | .expression o ts c =>
    match (operator? o).bind listPredicate? with
    | some predicate => groupOf predicate (members ts)
    | none =>
      if o.equals (.ofOperator .not) then complement (nodes ts)
      else restriction w o ts (nodes ts) c
  | t => throw (.rejected (.notDrawable (t.inspect w.names)))
/-- The drawings of several terms. -/
def nodes : List Term → List (Draw Node)
  | [] => []
  | t :: ts => node t :: nodes ts
/-- The drawings of the members of an expression with their ranks. A fixed set among the operands stands for
its members. -/
def members : List Term → List (Rank × Draw Node)
  | [] => []
  | .set true ms :: ts => ranked ms ++ members ts
  | t :: ts => (rank w t, node t) :: members ts
def ranked : List Term → List (Rank × Draw Node)
  | [] => []
  | t :: ts => (rank w t, node t) :: ranked ts
end

/-- The members of a set in the order in which they are drawn. -/
def ordered (ts : List Term) : List Term := inOrder (ts.map fun t => (rank w t, t))

/-! ## Axioms -/

/-- The class of a kind of entity. -/
def declarationType : EntityKind → String
  | .cls => owl "Class"
  | .objectProperty => owl "ObjectProperty"
  | .annotationProperty => owl "AnnotationProperty"
  | .individual => owl "NamedIndividual"

/-- Relates each of the drawn terms to the next. -/
def chain (predicate : String) : List Term → Draw Unit
  | s :: o :: rest => do
    let subject ← node w s
    let object ← node w o
    emit subject predicate object
    chain predicate (o :: rest)
  | _ => pure ()

/-- Relates the members of a set pairwise; a single one to itself. -/
def pairwise (predicate : String) (ts : List Term) : Draw Unit :=
  match ordered w ts with
  | [t] => chain w predicate [t, t]
  | ts => chain w predicate ts

/-- A blank node of a type whose members are listed. -/
def membership (type : String) (ts : List Term) : Draw Unit := do
  let node' ← fresh
  emit node' (rdf "type") (.iri type)
  let head ← list (ts.map (node w))
  emit node' (owl "members") head

/-- A relation between two terms that have IRIs. -/
def relate (s : Term) (predicate : String) (o : Term) : Draw Unit := do
  let subject ← iriOf w s
  let object ← iriOf w o
  emit (.iri subject) predicate (.iri object)

/-- A type of something that has an IRI. -/
def typed (t : Term) (type : String) : Draw Unit := do
  let subject ← iriOf w t
  emit (.iri subject) (rdf "type") (.iri type)

/-- The subject of an annotation: an IRI or a literal. -/
def subjectOf : Term → Draw Node
  | .iri s => pure (.iri s)
  | .literal l => pure (.literal l)
  | _ => throw .notANode

/-- **The triples of an axiom.** -/
def ofAxiom (a : Axiom) : Draw Unit :=
  match a.kind, a.operands with
  | .declaration, [t] =>
    match t with
    | .entity _ e => emit (.iri e.iri) (rdf "type") (.iri (declarationType e.kind))
    | _ => throw .missingPart
  | .subclassOf, [sub, super] => do
    let s ← node w sub
    let o ← node w super
    emit s (rdfs "subClassOf") o
  | .equivalentClasses, [.set _ ts] => pairwise w (owl "equivalentClass") ts
  | .disjointClasses, [.set _ ts] =>
    match ordered w ts with
    | [a, b] => do
      let s ← node w a
      let o ← node w b
      emit s (owl "disjointWith") o
    | ts => membership w (owl "AllDisjointClasses") ts
  | .disjointUnion, [owner, .set _ ts] => do
    let s ← iriOf w owner
    let head ← list ((ordered w ts).map (node w))
    emit (.iri s) (owl "disjointUnionOf") head
  | .objectPropertyDomain, [p, c] => do
    let s ← iriOf w p
    let o ← node w c
    emit (.iri s) (rdfs "domain") o
  | .objectPropertyRange, [p, c] => do
    let s ← iriOf w p
    let o ← node w c
    emit (.iri s) (rdfs "range") o
  | .inverseObjectProperties, [.set _ ts] => pairwise w (owl "inverseOf") ts
  | .subObjectPropertyOf, [sub, super] => relate w sub (rdfs "subPropertyOf") super
  | .subAnnotationPropertyOf, [sub, super] => relate w sub (rdfs "subPropertyOf") super
  | .transitiveObjectProperty, [p] => typed w p (owl "TransitiveProperty")
  | .functionalObjectProperty, [p] => typed w p (owl "FunctionalProperty")
  | .inverseFunctionalObjectProperty, [p] => typed w p (owl "InverseFunctionalProperty")
  | .annotationAssertion, [subject, .note p l] => do
    let predicate ← iriOf w p
    let s ← subjectOf subject
    emit s predicate (.literal l)
  | .classAssertion, [c, i] => do
    let s ← iriOf w i
    let o ← node w c
    emit (.iri s) (rdf "type") o
  | .objectPropertyAssertion, [p, subject, target] => do
    let s ← iriOf w subject
    let predicate ← iriOf w p
    let o ← iriOf w target
    emit (.iri s) predicate (.iri o)
  | .negativeObjectPropertyAssertion, [p, subject, target] => do
    let node' ← fresh
    emit node' (rdf "type") (.iri (owl "NegativePropertyAssertion"))
    let s ← iriOf w subject
    emit node' (owl "sourceIndividual") (.iri s)
    let predicate ← iriOf w p
    emit node' (owl "assertionProperty") (.iri predicate)
    let o ← iriOf w target
    emit node' (owl "targetIndividual") (.iri o)
  | .sameIndividual, [.set _ ts] => pairwise w (owl "sameAs") ts
  | .differentIndividuals, [.set _ ts] =>
    match ordered w ts with
    | [a, b] => relate w a (owl "differentFrom") b
    | ts => membership w (owl "AllDifferent") ts
  | _, _ => throw .missingPart

/-- An annotation of the ontology itself. -/
def ofNote (subject : String) (a : Note) : Draw Unit := do
  let predicate ← iriOf w a.property
  emit (.iri subject) predicate (.literal a.value)

/-- **The triples of an ontology**: its own, its imports and annotations, then those of its axioms. -/
def ofOntology (o : Ontology) : Draw Unit := do
  emit (.iri o.iri) (rdf "type") (.iri (owl "Ontology"))
  o.imports.forM fun i => emit (.iri o.iri) (owl "imports") (.iri i)
  o.annotations.forM (ofNote w o.iri)
  o.axioms.forM (ofAxiom w)

end

end Draw

namespace Graph

/-- The graph of an ontology. -/
def ofOntology (w : World) (o : Ontology) : Except Fault Graph :=
  (fun r => r.2) <$> (Draw.ofOntology w o).run empty

end Graph

end Authoring
