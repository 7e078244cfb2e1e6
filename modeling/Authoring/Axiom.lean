import Authoring.Term.Equality
import Authoring.Vocabulary

/-!
# Axioms

An axiom is a kind and its operands. The constructors below fix the order of the operands of each kind; the
symmetric kinds keep their members in one set, so that neither order nor repetition of the members
distinguishes two axioms.

An axiom *refers to* the entities that occur in it at any depth (`Axiom.signature`), and it *mentions* an
entity if it refers to it or is an annotation of its IRI (`Axiom.mentions`).
-/

namespace Authoring

/-- An atomic assertion. -/
structure Axiom where
  kind : AxiomKind
  operands : List Term
  deriving Inhabited

namespace Axiom

def toTerm (a : Axiom) : Term := .statement a.kind a.operands

/-- The axiom that a term is, if it is one. -/
def ofTerm? : Term → Option Axiom
  | .statement k ts => some ⟨k, ts⟩
  | _ => none

/-- Looking for the first axiom one finds the second: axioms are compared as terms. -/
instance : BEq Axiom where
  beq a b := a.toTerm == b.toTerm

instance : ReflBEq Axiom where
  rfl {a} := BEq.rfl (a := a.toTerm)

/-! ## The constructors -/

/-- The operand of a symmetric kind: the set of its members. -/
def group (ts : List Term) : Term := Term.setOf true ts

def declaration (e : Term) : Axiom := ⟨.declaration, [e]⟩

def subclassOf (sub super : Term) : Axiom := ⟨.subclassOf, [sub, super]⟩

def equivalentClasses (cs : List Term) : Axiom := ⟨.equivalentClasses, [group cs]⟩

def disjointClasses (cs : List Term) : Axiom := ⟨.disjointClasses, [group cs]⟩

def disjointUnion (owner : Term) (cs : List Term) : Axiom := ⟨.disjointUnion, [owner, group cs]⟩

def objectPropertyDomain (p c : Term) : Axiom := ⟨.objectPropertyDomain, [p, c]⟩

def objectPropertyRange (p c : Term) : Axiom := ⟨.objectPropertyRange, [p, c]⟩

def inverseObjectProperties (p q : Term) : Axiom := ⟨.inverseObjectProperties, [group [p, q]]⟩

def subObjectPropertyOf (sub super : Term) : Axiom := ⟨.subObjectPropertyOf, [sub, super]⟩

def transitiveObjectProperty (p : Term) : Axiom := ⟨.transitiveObjectProperty, [p]⟩

def functionalObjectProperty (p : Term) : Axiom := ⟨.functionalObjectProperty, [p]⟩

def inverseFunctionalObjectProperty (p : Term) : Axiom := ⟨.inverseFunctionalObjectProperty, [p]⟩

def subAnnotationPropertyOf (sub super : Term) : Axiom := ⟨.subAnnotationPropertyOf, [sub, super]⟩

def annotationAssertion (subject note : Term) : Axiom :=
  ⟨.annotationAssertion, [subject, note]⟩

def classAssertion (c i : Term) : Axiom := ⟨.classAssertion, [c, i]⟩

def objectPropertyAssertion (p subject target : Term) : Axiom :=
  ⟨.objectPropertyAssertion, [p, subject, target]⟩

def negativeObjectPropertyAssertion (p subject target : Term) : Axiom :=
  ⟨.negativeObjectPropertyAssertion, [p, subject, target]⟩

def sameIndividual (is : List Term) : Axiom := ⟨.sameIndividual, [group is]⟩

def differentIndividuals (is : List Term) : Axiom := ⟨.differentIndividuals, [group is]⟩

/-- The axiom that gives an object property a characteristic. -/
def ofCharacteristic : Characteristic → Term → Axiom
  | .transitive => transitiveObjectProperty
  | .functional => functionalObjectProperty
  | .inverseFunctional => inverseFunctionalObjectProperty

end Axiom

/-! ## What an axiom refers to -/

namespace Term

mutual
/-- The entities that occur in a term, at any depth of its expressions, tuples and fixed sets. An annotation
counts for its property, whatever that is. -/
def referents : Term → List Term
  | .entity m e => [.entity m e]
  | .expression _ ts _ => referentsAll ts
  | .note p _ => [p]
  | .tuple ts => referentsAll ts
  | .set true ts => referentsAll ts
  | _ => []
def referentsAll : List Term → List Term
  | [] => []
  | t :: ts => t.referents ++ referentsAll ts
end

theorem referentsAll_eq_flatMap (ts : List Term) : referentsAll ts = ts.flatMap referents := by
  induction ts with
  | nil => rfl
  | cons t ts ih => simp [referentsAll, ih]

end Term

namespace Axiom

/-- All that the axiom refers to, at any depth, each once. -/
def signature (a : Axiom) : List Term := (Term.referentsAll a.operands).eraseDups

/-- Whether the axiom has the given IRI as the subject of an annotation. -/
def annotates (a : Axiom) (iri : String) : Bool :=
  a.kind == .annotationAssertion && a.operands.head?.any (·.equals (.iri iri))

/-- Whether the axiom refers to the entity or, as the subject of an annotation, to its IRI. -/
def mentions (a : Axiom) (e : Entity) (maker : Nat) : Bool :=
  a.signature.contains (.entity maker e) || a.annotates e.iri

end Axiom

/-- An annotation: a literal along an annotation property. -/
structure Note where
  property : Term
  value : Literal
  deriving Inhabited

namespace Note

def toTerm (a : Note) : Term := .note a.property a.value

def ofTerm? : Term → Option Note
  | .note p l => some ⟨p, l⟩
  | _ => none

end Note

end Authoring
