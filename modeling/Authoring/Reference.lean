import Authoring.Current
import Authoring.Factory

/-!
# References

A reference denotes an entity of an expected kind. It may be the entity itself, an IRI, a name (whose IRI the
ontology's naming policy makes), or a producer of any of these; where a class is expected it may also be a
class expression, which denotes itself.

Reading a reference takes two steps. `Reference.force` calls producers until something else is left, and
`Reference.denote` says what that denotes. So a reference and a producer of it denote the same thing, and a
refusal shows what was left in the end.
-/

namespace Authoring.Reference

open Act

/-- The form of a reference to an entity of a kind. What counts as a text is a name if it counts as true: a text
that is not empty, and a literal but those of zero and of the truth value false. -/
def form (t : Term) (kind : EntityKind) : ReferenceForm :=
  match t with
  | .entity _ e => if e.kind = kind then .entity else .invalid
  | .expression .. => if kind = .cls then .expression else .invalid
  | .iri _ => .iri
  | t =>
    match t.content? with
    | some _ => if t.isTruthy then .name else .invalid
    | none => if t.isCallable then .producer else .invalid

/-- The form of a reference where what is expected is given as a term: the kind of an entity is asked about it,
and it is asked about the kind of classes. -/
def formAs (t expected : Term) : ReferenceForm :=
  match t with
  | .entity _ e => if (Term.ofEntityKind e.kind).equals expected then .entity else .invalid
  | .expression .. => if expected.equals (Term.ofEntityKind .cls) then .expression else .invalid
  | t => form t .cls

/-- Calls a term, and what it produces, until what is left cannot be called. -/
def forceWithin : Nat → Term → Act Term
  | n, t =>
    if t.isCallable then
      match n with
      | 0 => throw .tooDeep
      | n + 1 => do forceWithin n (← invoke t [])
    else return t

/-- What is left of a reference after all calls. -/
def force (t : Term) : Act Term := do forceWithin (← read).depth t

/-- What a term that cannot be called denotes, as a reference to an entity of a kind. -/
def denote (t : Term) (kind : EntityKind) (ontology : Term) (maker : Nat) : Act Term := do
  match form t kind with
  | .entity | .expression => return t
  | .iri => Factory.entity maker kind t
  | .name =>
    let iri ← Current.iriForName t ontology
    return .entity maker ⟨kind, iri⟩
  | .producer | .invalid => refuse kind.word t

/-- **What a reference denotes**: the entity of the expected kind or, for a class, a class expression. -/
def resolve (t : Term) (kind : EntityKind) (ontology : Term) (maker : Nat := Factory.shared) : Act Term := do
  denote (← force t) kind ontology maker

/-- Makes the entity of a reference, if there is a factory to make it. -/
def make (maker : Option Nat) (expected : Term) (iri : Act Term) : Act Term := do
  match maker with
  | none => throw .missingPart
  | some maker => Factory.entityOf maker expected (← iri)

/-- What a reference denotes where what is expected is given as a term, which may be no kind, and where there
may be no factory. -/
def resolveAs (t expected ontology : Term) (maker : Option Nat) : Act Term := do
  let left ← force t
  match formAs left expected with
  | .entity | .expression => return left
  | .iri => make maker expected (pure left)
  | .name => make maker expected do return .iri (← Current.iriForName left ontology)
  | .producer | .invalid => refuse (← expectedName expected) left

/-- The class, or class expression, that a reference denotes. -/
def resolveClass (t ontology : Term) : Act Term := resolve t .cls ontology

def resolveObjectProperty (t ontology : Term) : Act Term := resolve t .objectProperty ontology

def resolveAnnotationProperty (t ontology : Term) : Act Term := resolve t .annotationProperty ontology

def resolveIndividual (t ontology : Term) : Act Term := resolve t .individual ontology

end Authoring.Reference
