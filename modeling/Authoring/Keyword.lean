import Authoring.Entity

/-!
# Keywords

The closed vocabularies of the authoring language: the operators of class expressions, the kinds of axiom,
the tags of frames, the characteristics of object properties, and the forms of reference. With the kinds of
entity they make up the keywords.

A keyword counts as a text: it equals its `word`, and can stand wherever a text can. Its `memberName` shows
which member of which vocabulary it is.
-/

namespace Authoring

/-- The operators of anonymous class expressions. -/
inductive Operator where
  | some
  | only
  | and
  | or
  | not
  | min
  | max
  | exactly
  | oneOf
  deriving DecidableEq, Repr, Inhabited

namespace Operator

def word : Operator → String
  | .some => "some"
  | .only => "only"
  | .and => "and"
  | .or => "or"
  | .not => "not"
  | .min => "min"
  | .max => "max"
  | .exactly => "exactly"
  | .oneOf => "oneof"

def memberName : Operator → String
  | .some => "SOME"
  | .only => "ONLY"
  | .and => "AND"
  | .or => "OR"
  | .not => "NOT"
  | .min => "MIN"
  | .max => "MAX"
  | .exactly => "EXACTLY"
  | .oneOf => "ONE_OF"

def all : List Operator := [.some, .only, .and, .or, .not, .min, .max, .exactly, .oneOf]

def code : Operator → Nat
  | .some => 0
  | .only => 1
  | .and => 2
  | .or => 3
  | .not => 4
  | .min => 5
  | .max => 6
  | .exactly => 7
  | .oneOf => 8

/-- The operators whose operands form one unordered set. -/
def takesSet : Operator → Bool
  | .and | .or | .oneOf => true
  | _ => false

end Operator

/-- The kinds of axiom. -/
inductive AxiomKind where
  | declaration
  | subclassOf
  | equivalentClasses
  | disjointClasses
  | disjointUnion
  | objectPropertyDomain
  | objectPropertyRange
  | inverseObjectProperties
  | subObjectPropertyOf
  | transitiveObjectProperty
  | functionalObjectProperty
  | inverseFunctionalObjectProperty
  | subAnnotationPropertyOf
  | annotationAssertion
  | classAssertion
  | objectPropertyAssertion
  | negativeObjectPropertyAssertion
  | sameIndividual
  | differentIndividuals
  deriving DecidableEq, Repr, Inhabited

namespace AxiomKind

def word : AxiomKind → String
  | .declaration => "declaration"
  | .subclassOf => "subclass_of"
  | .equivalentClasses => "equivalent_classes"
  | .disjointClasses => "disjoint_classes"
  | .disjointUnion => "disjoint_union"
  | .objectPropertyDomain => "object_property_domain"
  | .objectPropertyRange => "object_property_range"
  | .inverseObjectProperties => "inverse_object_properties"
  | .subObjectPropertyOf => "sub_object_property_of"
  | .transitiveObjectProperty => "transitive_object_property"
  | .functionalObjectProperty => "functional_object_property"
  | .inverseFunctionalObjectProperty => "inverse_functional_object_property"
  | .subAnnotationPropertyOf => "sub_annotation_property_of"
  | .annotationAssertion => "annotation_assertion"
  | .classAssertion => "class_assertion"
  | .objectPropertyAssertion => "object_property_assertion"
  | .negativeObjectPropertyAssertion => "negative_object_property_assertion"
  | .sameIndividual => "same_individual"
  | .differentIndividuals => "different_individuals"

def all : List AxiomKind := [
  .declaration, .subclassOf, .equivalentClasses, .disjointClasses, .disjointUnion, .objectPropertyDomain,
  .objectPropertyRange, .inverseObjectProperties, .subObjectPropertyOf, .transitiveObjectProperty,
  .functionalObjectProperty, .inverseFunctionalObjectProperty, .subAnnotationPropertyOf,
  .annotationAssertion, .classAssertion, .objectPropertyAssertion, .negativeObjectPropertyAssertion,
  .sameIndividual, .differentIndividuals]

/-- A member of this vocabulary is named by its word in capitals. -/
def memberName (k : AxiomKind) : String := k.word.toUpper

def code : AxiomKind → Nat
  | .declaration => 0
  | .subclassOf => 1
  | .equivalentClasses => 2
  | .disjointClasses => 3
  | .disjointUnion => 4
  | .objectPropertyDomain => 5
  | .objectPropertyRange => 6
  | .inverseObjectProperties => 7
  | .subObjectPropertyOf => 8
  | .transitiveObjectProperty => 9
  | .functionalObjectProperty => 10
  | .inverseFunctionalObjectProperty => 11
  | .subAnnotationPropertyOf => 12
  | .annotationAssertion => 13
  | .classAssertion => 14
  | .objectPropertyAssertion => 15
  | .negativeObjectPropertyAssertion => 16
  | .sameIndividual => 17
  | .differentIndividuals => 18

end AxiomKind

/-- The tags of frames: each names one facet of an entity. -/
inductive FrameTag where
  | name
  | subclass
  | equivalent
  | disjoint
  | domain
  | range
  | inverse
  | superproperty
  | characteristic
  | type
  | fact
  | same
  | different
  | note
  | comment
  | label
  deriving DecidableEq, Repr, Inhabited

namespace FrameTag

def word : FrameTag → String
  | .name => "name"
  | .subclass => "subclass"
  | .equivalent => "equivalent"
  | .disjoint => "disjoint"
  | .domain => "domain"
  | .range => "range"
  | .inverse => "inverse"
  | .superproperty => "superproperty"
  | .characteristic => "characteristic"
  | .type => "type"
  | .fact => "fact"
  | .same => "same"
  | .different => "different"
  | .note => "annotation"
  | .comment => "comment"
  | .label => "label"

/-- The tags in the order in which their frames are compiled. -/
def all : List FrameTag := [
  .name, .subclass, .equivalent, .disjoint, .domain, .range, .inverse, .superproperty, .characteristic,
  .type, .fact, .same, .different, .note, .comment, .label]

def memberName (t : FrameTag) : String := t.word.toUpper

/-- Every tag has its turn in the compilation. -/
theorem mem_all (t : FrameTag) : t ∈ all := by cases t <;> decide

end FrameTag

/-- The characteristics that an object property can be given. -/
inductive Characteristic where
  | transitive
  | functional
  | inverseFunctional
  deriving DecidableEq, Repr, Inhabited

namespace Characteristic

def word : Characteristic → String
  | .transitive => "transitive"
  | .functional => "functional"
  | .inverseFunctional => "inversefunctional"

def memberName : Characteristic → String
  | .transitive => "TRANSITIVE"
  | .functional => "FUNCTIONAL"
  | .inverseFunctional => "INVERSE_FUNCTIONAL"

def all : List Characteristic := [.transitive, .functional, .inverseFunctional]

end Characteristic

/-- The shapes that a reference to an entity can take. -/
inductive ReferenceForm where
  | entity
  | expression
  | producer
  | name
  | iri
  | invalid
  deriving DecidableEq, Repr, Inhabited

namespace ReferenceForm

def word : ReferenceForm → String
  | .entity => "entity"
  | .expression => "expression"
  | .producer => "producer"
  | .name => "name"
  | .iri => "iri"
  | .invalid => "invalid"

def memberName (f : ReferenceForm) : String := f.word.toUpper

end ReferenceForm

/-- A member of one of the vocabularies. -/
inductive Keyword where
  | entityKind (kind : EntityKind)
  | operator (operator : Operator)
  | axiomKind (kind : AxiomKind)
  | tag (tag : FrameTag)
  | characteristic (characteristic : Characteristic)
  | form (form : ReferenceForm)
  deriving DecidableEq, Repr, Inhabited

namespace Keyword

/-- The text that a keyword equals. -/
def word : Keyword → String
  | .entityKind k => k.word
  | .operator o => o.word
  | .axiomKind k => k.word
  | .tag t => t.word
  | .characteristic c => c.word
  | .form f => f.word

/-- The vocabulary and the member, as messages name a keyword. -/
def qualified : Keyword → String
  | .entityKind k => "EntityKind." ++ k.memberName
  | .operator o => "ExpressionOperator." ++ o.memberName
  | .axiomKind k => "AxiomKind." ++ k.memberName
  | .tag t => "FrameTag." ++ t.memberName
  | .characteristic c => "Characteristic." ++ c.memberName
  | .form f => "ReferenceForm." ++ f.memberName

end Keyword

end Authoring
