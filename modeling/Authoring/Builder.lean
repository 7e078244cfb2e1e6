import Authoring.Change
import Authoring.Compile
import Authoring.Expression
import Authoring.Window

/-!
# Builders

A builder makes an entity of one kind and declares it: it reads the reference, compiles the frames together
with the default frames that are in force, adds the axioms to the ontology, and records the entity in the
active window. All that can be wrong with the reference and the frames is found out before the first axiom
is added.

`Builder.refine` adds further frames to an entity, and the frame helpers (`Builder.addFrame`) do so for one
tag, without declaring or recording the entity. The group axioms relate several classes at once.
-/

namespace Authoring.Builder

open Act

/-- Makes and declares the entity of a kind that a reference denotes. -/
def build (kind : EntityKind) (name : Term) (frames : FrameMap) (ontology : Term) : Act Term := do
  let o ← Current.orGiven ontology
  let entity ← Reference.resolve name kind o
  let axioms ← Compile.compile entity frames.entries (← Window.defaults).entries .null o
  Change.addAxioms axioms o
  Window.record entity
  let _ ← iriOf o
  return entity

/-- Frames that are given as a map together with frames that are given one by one. -/
def gather (frames : Term) (more : List (String × Term)) : Act FrameMap := do
  let es ← framesOf (← entriesOf frames)
  return FrameMap.merge es (← framesOf (more.map fun e => (.text e.1, e.2)))

/-- The name of a new class: the first value of the name frame, if there is one, and the affixes that are in
force around a name. References of the other forms are left as they are. -/
def className (name : Term) (frames : FrameMap) : Act Term := do
  let chosen := (frames.valuesOf (Term.ofTag .name)).head?.getD name
  match chosen with
  | .text _ | .literal _ | .keyword _ =>
    let (lead, trail) := (← context).affixes
    return .text (lead ++ (← display chosen) ++ trail)
  | t => return t

/-- Builds a class. -/
def owlClass (name frames ontology : Term) (more : List (String × Term)) : Act Term := do
  let all ← gather frames more
  build .cls (← className name all) all ontology

/-- Builds an entity of any kind. -/
def ofKind (kind : EntityKind) (name frames ontology : Term) (more : List (String × Term)) :
    Act Term := do
  match kind with
  | .cls => owlClass name frames ontology more
  | k => build k name (← gather frames more) ontology

/-- Adds frames to an entity, declaring it if it is not declared yet. -/
def refine (entity frames ontology : Term) (more : List (String × Term)) : Act Term := do
  match entity with
  | .entity _ e => ofKind e.kind entity frames ontology more
  | t => throw (.notAnEntity (← inspect t))

/-- Builds a class for each name. -/
def declareClasses (names : List Term) (ontology : Term) : Act (List Term) := do
  (← leaves names).mapM fun t => owlClass t .null ontology []

/-- Builds a class for each item: a name, or a pair of a name and frames. -/
def defineClasses (items : List Term) (ontology : Term) : Act (List Term) :=
  items.mapM fun t => do
    match t with
    | .tuple _ =>
      let (name, frames) ← pairOf t
      owlClass name frames ontology []
    | t => owlClass t .null ontology []

/-! ## Frames of one tag -/

/-- Adds the values of one tag to an entity, and answers with the axioms. -/
def addFrame (kind : EntityKind) (tag : FrameTag) (entity : Term) (values : List Term)
    (ontology : Term) : Act (List Term) := do
  let o ← Current.orGiven ontology
  let e ← Reference.resolve entity kind o
  let frames ← framesOf [(Term.ofTag tag, .tuple values)]
  let axioms ← Compile.compile e frames [] .null o
  Change.addEach ((axioms.drop 1).map Axiom.toTerm) o

/-- The kind of an entity, or a kind to read other references by. -/
def kindOr (other : EntityKind) : Term → EntityKind
  | .entity _ e => e.kind
  | _ => other

/-! ## Group axioms -/

/-- Makes classes mutually disjoint by one axiom; fewer than two different classes need none. -/
def disjointClasses (classes : List Term) (ontology : Term) : Act Term := do
  let o ← Current.orGiven ontology
  let members ← (← leaves classes).mapM fun t => do
    let c ← Reference.resolveClass t o
    requireStable c
    return c
  let different := members.eraseDups
  if different.length < 2 then return .null
  else Change.add (Axiom.disjointClasses different).toTerm o

/-- Makes a class the disjoint union of others. -/
def addDisjointUnion (owner : Term) (parts : List Term) (ontology : Term) : Act Term := do
  let o ← Current.orGiven ontology
  let c ← Reference.resolveClass owner o
  let members ← (← leaves parts).mapM fun t => Reference.resolveClass t o
  members.forM requireStable
  Change.add (Axiom.disjointUnion c members).toTerm o

end Authoring.Builder
