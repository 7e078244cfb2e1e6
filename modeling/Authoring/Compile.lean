import Authoring.Reference

/-!
# Compiling frames

An entity and its frames become a list of axioms: the declaration of the entity, then one axiom for each
value, the tags in their fixed order and the values of a tag in the order in which they are given, defaults
first. Nothing is added to any ontology here, so a bad frame is found out before the first axiom is added.

First every tag is checked against those that are allowed (`checkTags`), then the values are read one by one
(`axiomFor`). A few values add nothing: names, which are used up in naming the entity, and the entity itself
as its own equal or opposite.
-/

namespace Authoring.Compile

open Act

/-- Which tags are allowed: those of a kind of entity, or those in a given container. -/
inductive Schema where
  | ofKind (kind : EntityKind)
  | within (container : Term)

namespace Schema

/-- The schema that is given, or that of the kind of the entity for null. -/
def given (owner : Term) : Term → Act Schema
  | .null => do return .ofKind (← entityKindOf owner)
  | container => pure (.within container)

def allows (tag : FrameTag) : Schema → Act Bool
  | .ofKind k => pure ((FrameTag.allowed k).contains tag)
  | .within container => contains container (Term.ofTag tag)

end Schema

/-- The fault of a frame that is not allowed. -/
def refuseTag (owner tag : Term) : Act Unit := do
  let kind ← kindOf owner
  throw (.unknownFrame tag (← display tag) (some kind.word))

/-- Checks one key: it has to be a tag, and allowed. -/
def checkTag (owner : Term) (schema : Schema) (key : Term) : Act Unit := do
  match key with
  | .keyword (.tag t) => if ← schema.allows t then pure () else refuseTag owner key
  | key => refuseTag owner key

/-- Checks every key, in the order of the keys. -/
def checkTags (owner schema : Term) (frames : FrameMap) : Act Unit := do
  let schema ← Schema.given owner schema
  frames.forM fun e => checkTag owner schema e.1

/-- The annotation that a value of a comment or label frame gives: an annotation along that property, or a
text in the language of the settings. -/
def annotationAlong (property value : Term) : Act Note := do
  match value with
  | .note p l =>
    if p.equals property then return ⟨p, l⟩
    else refuse ("annotation along " ++ (← iriOf property)) value
  | t =>
    if t.content?.isSome then
      Factory.note property t (.text (← get).settings.language)
    else refuse "annotation literal" t

/-- An axiom between the entity and another, unless they are the same. -/
def unlessSelf (owner other : Term) (make : List Term → Axiom) : Act (Option Axiom) := do
  if other.equals owner then return none
  else
    requireStable owner
    requireStable other
    return some (make [owner, other])

/-- What a fact says about the entity. -/
def relation (owner value ontology : Term) (maker : Nat) : Act Axiom := do
  match value with
  | .fact property target negated =>
    let p ← Reference.resolve property .objectProperty ontology maker
    let t ← Reference.resolve target .individual ontology maker
    return if negated then .negativeObjectPropertyAssertion p owner t
      else .objectPropertyAssertion p owner t
  | t => refuse "fact" t

/-- **The axiom for one value of a tag**, if the value adds one. -/
def axiomFor (owner ontology : Term) (maker : Nat) (tag : FrameTag) (value : Term) :
    Act (Option Axiom) := do
  let read (kind : EntityKind) : Act Term := Reference.resolve value kind ontology maker
  match tag with
  | .name => return none
  | .subclass => return some (.subclassOf owner (← read .cls))
  | .equivalent => unlessSelf owner (← read .cls) .equivalentClasses
  | .disjoint => unlessSelf owner (← read .cls) .disjointClasses
  | .domain => return some (.objectPropertyDomain owner (← read .cls))
  | .range => return some (.objectPropertyRange owner (← read .cls))
  | .inverse =>
    let other ← read .objectProperty
    requireStable owner
    return some (.inverseObjectProperties owner other)
  | .superproperty =>
    if (← kindOf owner) == .entityKind .annotationProperty then
      return some (.subAnnotationPropertyOf owner (← read .annotationProperty))
    else return some (.subObjectPropertyOf owner (← read .objectProperty))
  | .characteristic =>
    match Characteristic.ofTerm? value with
    | some c => return some (.ofCharacteristic c owner)
    | none => throw (.unknownCharacteristic value (← inspect value))
  | .type => return some (.classAssertion (← read .cls) owner)
  | .fact => return some (← relation owner value ontology maker)
  | .same => unlessSelf owner (← read .individual) .sameIndividual
  | .different => unlessSelf owner (← read .individual) .differentIndividuals
  | .note =>
    match value with
    | .note .. => return some (.annotationAssertion (.iri (← iriOf owner)) value)
    | t => refuse "annotation" t
  | .comment =>
    let subject ← iriOf owner
    let a ← annotationAlong (Factory.comment maker) value
    return some (.annotationAssertion (.iri subject) a.toTerm)
  | .label =>
    let subject ← iriOf owner
    let a ← annotationAlong (Factory.label maker) value
    return some (.annotationAssertion (.iri subject) a.toTerm)

/-- The axioms for the values of one tag. -/
def axiomsFor (owner ontology : Term) (maker : Nat) (frames : FrameMap) (tag : FrameTag) :
    Act (List Axiom) := do
  let made ← (frames.valuesOf (Term.ofTag tag)).mapM (axiomFor owner ontology maker tag)
  return made.filterMap id

/-- The axioms of an entity with checked frames. -/
def compileFrames (owner ontology : Term) (maker : Nat) (frames : FrameMap) : Act (List Axiom) := do
  let made ← FrameTag.all.mapM (axiomsFor owner ontology maker frames)
  return .declaration owner :: made.flatten

/-- Default and explicit frames in one shape, with their tags checked. -/
def checked (owner : Term) (explicit defaults : List (Term × Term)) (schema : Term) : Act FrameMap := do
  let frames := FrameMap.merge defaults explicit
  checkTags owner schema frames
  return frames

/-- **The axioms of an entity** with default and explicit frames, both as they are written. -/
def compile (owner : Term) (explicit defaults : List (Term × Term)) (schema ontology : Term)
    (maker : Nat := Factory.shared) : Act (List Axiom) := do
  compileFrames owner ontology maker (← checked owner explicit defaults schema)

end Authoring.Compile
