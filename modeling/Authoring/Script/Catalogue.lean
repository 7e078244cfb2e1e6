import Authoring.Demo
import Authoring.Script.Arguments

/-!
# The operations of a script

The catalogue of what a script can call, by name: for each operation its parameters and the act that it
stands for. A catalogue entry only takes the arguments apart and gives the answer as a term; what is done is
done by the modules of the authoring language.

The operations that start with `store` or `factory` work on a store or a factory, the installed or shared one
unless the call names another. Some operations open scopes; these stand in a catalogue of their own.
-/

namespace Authoring.Script

open Act

/-- An operation: its parameters, and what it does with the arguments. -/
structure Operation (α : Type) where
  signature : Signature
  act : Arguments → Act α

/-- Calls an operation. Arguments that do not fit are a fault of their sort. -/
def Operation.call (op : Operation α) (byPosition : List Term) (byName : List (String × Term)) :
    Act α :=
  match op.signature.fit byPosition byName with
  | some arguments => op.act arguments
  | none => throw .wrongSort

/-- Operations by name. -/
abbrev Catalogue (α : Type) := List (String × Operation α)

section
variable {α : Type}

def nullary (f : Act α) : Operation α := ⟨usually [], fun _ => f⟩

def unary (p : Parameter) (f : Term → Act α) : Operation α where
  signature := usually [p]
  act a := match a.given with
    | [t] => f t
    | _ => throw .wrongSort

def binary (p q : Parameter) (f : Term → Term → Act α) : Operation α where
  signature := usually [p, q]
  act a := match a.given with
    | [t, u] => f t u
    | _ => throw .wrongSort

def ternary (p q r : Parameter) (f : Term → Term → Term → Act α) : Operation α where
  signature := usually [p, q, r]
  act a := match a.given with
    | [t, u, v] => f t u v
    | _ => throw .wrongSort

end

/-! ## Answers as terms -/

def answerBool (x : Act Bool) : Act Term := do return .bool (← x)

def answerList (x : Act (List Term)) : Act Term := do return .list (← x)

def answerSet (x : Act (List Term)) : Act Term := do return Term.setOf false (← x)

def answerAxioms (x : Act (List Axiom)) : Act Term := do return .list ((← x).map Axiom.toTerm)

def answerNothing (x : Act Unit) : Act Term := do
  x
  return .null

/-! ## Frames and frame values -/

def frames : Catalogue Term := [
  ("parse_tag", unary (needs "tag") fun t => return Term.ofOption Term.ofTag (FrameTag.ofTerm? t)),
  ("parse_characteristic", unary (needs "value") fun t =>
    return Term.ofOption (fun c => .keyword (.characteristic c)) (Characteristic.ofTerm? t)),
  ("flatten", unary (needs "values") fun t => do return .tuple (← leaves [t])),
  ("normalize_frames", unary (needs "frames") fun t => do
    return (FrameMap.normalize (← framesOf (← entriesOf t))).toTerm),
  ("merge_frames", binary (needs "defaults") (needs "explicit") fun t u => do
    let defaults ← framesOf (← entriesOf t)
    return (FrameMap.merge defaults (← framesOf (← entriesOf u))).toTerm)]

/-- An operation on a property and any number of classes. -/
def restricting (f : Term → List Term → Act Term) : Operation Term where
  signature := andMore [needs "property"]
  act a := match a.given with
    | [p] => f p a.rest
    | _ => throw .wrongSort

def gathering (f : List Term → Act Term) : Operation Term := ⟨andMore [], fun a => f a.rest⟩

def counting (o : Operator) : Operation Term where
  signature := andMore [needs "cardinality", needs "property"]
  act a := match a.given with
    | [n, p] => Expression.count o n p a.rest
    | _ => throw .wrongSort

/-- An operation that makes an annotation along a property of the vocabulary. -/
def annotating (property : Term) : Operation Term :=
  binary (needs "literal") (takes "language") (Expression.note property)

def expressions : Catalogue Term := [
  ("owlsome", restricting Expression.some),
  ("only", restricting Expression.only),
  ("owlonly", restricting Expression.only),
  ("someonly", restricting Expression.someOnly),
  ("owland", gathering Expression.and),
  ("owlor", gathering Expression.or),
  ("owlnot", gathering Expression.not),
  ("oneof", gathering Expression.oneOf),
  ("atleast", counting .min),
  ("atmost", counting .max),
  ("exactly", counting .exactly),
  ("owlthing", nullary (return Factory.thing Factory.shared)),
  ("owlnothing", nullary (return Factory.nothing Factory.shared)),
  ("annotation", ternary (needs "property") (needs "literal") (takes "language") Expression.note),
  ("label", annotating (Factory.label Factory.shared)),
  ("owlcomment", annotating (Factory.comment Factory.shared)),
  ("isdefinedby", annotating (Factory.isDefinedBy Factory.shared)),
  ("seealso", annotating (Factory.seeAlso Factory.shared)),
  ("versioninfo", annotating (Factory.versionInfo Factory.shared)),
  ("backwardcompatiblewith", annotating (Factory.backwardCompatibleWith Factory.shared)),
  ("incompatiblewith", annotating (Factory.incompatibleWith Factory.shared)),
  ("fact", binary (needs "property") (needs "to") fun p t => return Expression.fact false p t),
  ("fact_not", binary (needs "property") (needs "to") fun p t => return Expression.fact true p t)]

/-! ## Compiling and building -/

/-- The factory that an operation uses unless it is given another. -/
def usualFactory (name : String) : Parameter := ⟨name, some (.handle (.factory Factory.shared))⟩

/-- The number of the factory that a term denotes, if it denotes one. -/
def factoryOf? : Term → Option Nat
  | .handle (.factory id) => some id
  | _ => none

/-- Compiles the frames of an entity, as they are written. Without a factory nothing is made, which is found
out when the frames have been checked. -/
def compileFrames (entity explicit defaults schema ontology factory : Term) : Act Term := do
  let ds ← framesOf (← entriesOf defaults)
  let es ← framesOf (← entriesOf explicit)
  match factoryOf? factory with
  | some maker => answerAxioms (Compile.compile entity es ds schema ontology maker)
  | none =>
    let _ ← Compile.checked entity es ds schema
    throw .missingPart

def compiling : Catalogue Term := [
  ("compile_frames", {
    signature := usually [needs "entity", takes "explicit_frames", takes "default_frames",
      takes "schema", takes "ontology"]
    act := fun a => match a.given with
      | [e, explicit, defaults, schema, o] =>
        compileFrames e explicit defaults schema o (.handle (.factory Factory.shared))
      | _ => throw .wrongSort }),
  ("compile", {
    signature := usually [needs "entity", takes "explicit", takes "default", takes "schema",
      takes "ontology", usualFactory "factory"]
    act := fun a => match a.given with
      | [e, explicit, defaults, schema, o, f] => compileFrames e explicit defaults schema o f
      | _ => throw .wrongSort })]

/-- A builder: a reference, frames in a map, the ontology, and frames by name. -/
def building (first : String) (f : Term → Term → Term → List (String × Term) → Act Term) :
    Operation Term where
  signature := ⟨[needs first, takes "frames"], [takes "ontology"], false, [], true⟩
  act a := match a.given with
    | [name, frames, o] => f name frames o a.others
    | _ => throw .wrongSort

/-- A helper that adds the frames of one tag. -/
def adding (first : String) (kind : Term → EntityKind) (tag : FrameTag) : Operation Term where
  signature := andMore [needs first] [takes "ontology"]
  act a := match a.given with
    | [t, o] => answerList (Builder.addFrame (kind t) tag t a.rest o)
    | _ => throw .wrongSort

/-- An operation on any number of terms and an ontology. -/
def grouping (f : List Term → Term → Act Term) : Operation Term where
  signature := andMore [] [takes "ontology"]
  act a := match a.given with
    | [o] => f a.rest o
    | _ => throw .wrongSort

def builders : Catalogue Term := [
  ("owlclass", building "name" Builder.owlClass),
  ("object_property", building "name" (Builder.ofKind .objectProperty)),
  ("annotation_property", building "name" (Builder.ofKind .annotationProperty)),
  ("individual", building "name" (Builder.ofKind .individual)),
  ("refine", building "entity" Builder.refine),
  ("declare_classes", grouping fun ts o => answerList (Builder.declareClasses ts o)),
  ("define_classes", grouping fun ts o => answerList (Builder.defineClasses ts o)),
  ("add_subclass", adding "cls" (fun _ => .cls) .subclass),
  ("add_equivalent", adding "cls" (fun _ => .cls) .equivalent),
  ("add_disjoint", adding "cls" (fun _ => .cls) .disjoint),
  ("add_annotation", adding "entity" (Builder.kindOr .cls) .note),
  ("add_domain", adding "property" (fun _ => .objectProperty) .domain),
  ("add_range", adding "property" (fun _ => .objectProperty) .range),
  ("add_inverse", adding "property" (fun _ => .objectProperty) .inverse),
  ("add_superproperty", adding "property" (Builder.kindOr .objectProperty) .superproperty),
  ("add_characteristics", adding "property" (fun _ => .objectProperty) .characteristic),
  ("add_type", adding "individual" (fun _ => .individual) .type),
  ("add_fact", adding "individual" (fun _ => .individual) .fact),
  ("add_same", adding "individual" (fun _ => .individual) .same),
  ("add_different", adding "individual" (fun _ => .individual) .different),
  ("disjoint_classes", grouping Builder.disjointClasses),
  ("add_disjoint_union", {
    signature := andMore [needs "cls"] [takes "ontology"]
    act := fun a => match a.given with
      | [c, o] => Builder.addDisjointUnion c a.rest o
      | _ => throw .wrongSort })]

def collecting : Catalogue Term := [
  ("record", unary (needs "entity") fun t => answerNothing (Window.record t)),
  ("current_list", nullary do return .tuple (← Window.current)),
  ("current_default_frames", nullary do return (← Window.defaults).toTerm),
  ("is_collecting", nullary (answerBool Window.isCollecting))]

/-! ## Ontologies, references and changes -/

/-- The parameters of the description of a new ontology. -/
def describing (first : List Parameter) : List Parameter :=
  first ++ [takes "prefix", takes "iri_gen", takes "comment", takes "versioninfo", takes "annotation"]

def ontologies : Catalogue Term := [
  ("ontology", {
    signature := usually (describing [needs "iri"])
    act := fun a => match a.given with
      | [iri, p, g, c, v, l] => Creation.create iri p g c v l
      | _ => throw .wrongSort }),
  ("defontology", {
    signature := ⟨[], [needs "iri", takes "namespace"], false, describing [], false⟩
    act := fun a => match a.given with
      | [iri, s, p, g, c, v, l] => Creation.define iri s p g c v l
      | _ => throw .wrongSort }),
  ("remove_ontology", unary (needs "ontology") fun t => do
    answerBool (Store.remove (← Current.store) t)),
  ("ontology_options", unary (takes "ontology") fun t => do
    return .handle (.options (← Current.options t))),
  ("ontology_to_namespace", binary (needs "ontology") (takes "namespace") fun t s =>
    answerNothing (Current.register t s)),
  ("get_namespace_ontology", unary (takes "namespace") Current.registered),
  ("get_current_ontology", unary (takes "namespace") Current.ontology),
  ("get_current_namespace", nullary do return (← context).space),
  ("resolve_ontology", unary (takes "ontology") Current.orGiven),
  ("get_iri", unary (takes "ontology") fun t => do
    return .iri (← iriOf (← Current.orGiven t))),
  ("get_prefix", unary (takes "ontology") fun t => do
    return (← Query.current (← Current.orGiven t)).abbreviation),
  ("owlimport", binary (needs "imported") (takes "into") fun t into => answerNothing do
    let o ← Current.orGiven into
    Store.addImport (← Current.store) o t),
  ("get_store", nullary do return .handle (.store (← Current.store))),
  ("set_default_store", unary (needs "store") fun t => do
    match t with
    | .handle (.store id) => return .handle (.store (← Current.install id))
    | _ => throw .missingPart),
  ("get_settings", nullary do return .settings (← get).settings),
  ("set_iri_gen", binary (needs "ontology") (needs "gen") fun t g =>
    answerNothing (Current.assignNaming t g)),
  ("ontology_axioms", unary (needs "o") fun t => answerAxioms (Query.axioms t .null)),
  ("ontology_imports", unary (needs "o") fun t => do
    return .list ((← Query.current t).imports.map .iri)),
  ("ontology_annotations", unary (needs "o") fun t => do
    return .list ((← Query.current t).annotations.map Note.toTerm))]

/-- A reference to an entity of a fixed kind. -/
def ensuring (kind : EntityKind) : Operation Term :=
  binary (needs "ref") (takes "ontology") fun t o => Reference.resolve t kind o

def references : Catalogue Term := [
  ("resolve", {
    signature := usually [needs "ref", needs "kind", takes "ontology", usualFactory "factory"]
    act := fun a => match a.given with
      | [t, k, o, f] => Reference.resolveAs t k o (factoryOf? f)
      | _ => throw .wrongSort }),
  ("classify_reference", binary (needs "ref") (needs "kind") fun t k =>
    return .keyword (.form (Reference.formAs t k))),
  ("iri_for_name", binary (needs "name") (takes "ontology") fun t o => do
    return .iri (← Current.iriForName t o)),
  ("ensure_class", ensuring .cls),
  ("ensure_object_property", ensuring .objectProperty),
  ("ensure_annotation_property", ensuring .annotationProperty),
  ("ensure_individual", ensuring .individual)]

def changes : Catalogue Term := [
  ("add_axiom", binary (needs "axiom") (takes "ontology") Change.add),
  ("add_axioms", binary (needs "axioms") (takes "ontology") fun t o => do
    let o ← Current.orGiven o
    answerList (Change.addEach (← itemsOf t) o)),
  ("remove_axiom", binary (needs "axiom") (takes "ontology") Change.remove),
  ("remove_entity", binary (needs "entity") (takes "ontology") fun t o =>
    answerAxioms (Change.removeEntity t o))]

/-! ## Queries -/

def stepping (d : Direction) : Operation Term :=
  binary (needs "entity") (takes "ontology") fun t o => answerSet (Hierarchy.direct d t o)

def closing (d : Direction) : Operation Term :=
  binary (needs "entity") (takes "ontology") fun t o => answerSet (Hierarchy.closure d t o)

def reaching (d : Direction) : Operation Term :=
  ternary (needs "entity") (needs "candidate") (takes "ontology") fun t u o =>
    answerBool (Hierarchy.reaches d t u o)

def relating (f : Term → Term → Term → Act Bool) : Operation Term :=
  ternary (needs "first") (needs "second") (takes "ontology") fun t u o => answerBool (f t u o)

def hierarchy : Catalogue Term := [
  ("direct_supers", stepping .up),
  ("direct_subs", stepping .down),
  ("ancestors", closing .up),
  ("descendants", closing .down),
  ("is_ancestor", reaching .up),
  ("is_descendant", reaching .down),
  ("direct_superclasses", stepping .up),
  ("direct_subclasses", stepping .down),
  ("superclasses", closing .up),
  ("subclasses", closing .down),
  ("is_superclass", reaching .up),
  ("is_subclass", reaching .down),
  ("is_disjoint", relating Hierarchy.isDisjoint),
  ("is_equivalent", relating Hierarchy.isEquivalent)]

/-! ## Stores -/

/-- A query of the terms that stand in a relation to a term. -/
def querying (second : String) (f : Ontology → Term → List Term) : Operation Term :=
  binary (needs "ontology") (needs second) fun o t => do
    return Term.setOf false (f (← Query.current o) t)

def storeOperations (store : Nat) : Catalogue Term := [
  ("create_ontology", binary (needs "iri") (takes "prefix") fun iri p => do
    return .handle (.ontology (← Store.create store iri p))),
  ("get_ontology", unary (needs "iri") (Store.find store)),
  ("contains", unary (needs "ontology") fun t => answerBool (Store.contains store t)),
  ("list_ontologies", nullary do
    return .list (((← get).listed store).map fun id => .handle (.ontology id))),
  ("remove_ontology", unary (needs "ontology") fun t => answerBool (Store.remove store t)),
  ("add_remove_hook", unary (needs "hook") fun t =>
    answerNothing (Store.addHook store (.user t))),
  ("apply_add", binary (needs "ontology") (needs "axiom") fun o t =>
    answerBool (Store.add store o t)),
  ("apply_remove", binary (needs "ontology") (needs "axiom") fun o t =>
    answerBool (Store.discard store o t)),
  ("add_import", binary (needs "ontology") (needs "imported") fun o t =>
    answerNothing (Store.addImport store o t)),
  ("add_ontology_annotation", binary (needs "ontology") (needs "annotation") fun o t =>
    answerNothing (Store.annotate store o t)),
  ("get_axioms", binary (needs "ontology") (takes "kind") fun o k =>
    answerAxioms (Query.axioms o k)),
  ("referencing_axioms", binary (needs "ontology") (needs "entity") fun o t =>
    answerAxioms (Query.referencing o t)),
  ("get_entities", binary (needs "ontology") (takes "kind") fun o k =>
    answerList (Query.entities o k)),
  ("is_declared", binary (needs "ontology") (needs "entity") fun o t =>
    answerBool (Query.isDeclared o t)),
  ("super_classes", querying "cls" (·.seconds .subclassOf)),
  ("sub_classes", querying "cls" (·.firsts .subclassOf)),
  ("super_properties", querying "property" (·.seconds .subObjectPropertyOf)),
  ("sub_properties", querying "property" (·.firsts .subObjectPropertyOf)),
  ("disjoint_classes", binary (needs "ontology") (needs "cls") fun o t =>
    answerSet (Query.partners .disjointClasses o t)),
  ("equivalent_classes", binary (needs "ontology") (needs "cls") fun o t =>
    answerSet (Query.partners .equivalentClasses o t)),
  ("get_stats", unary (needs "ontology") fun o => do return .stats (← Query.stats o))]

/-! ## Factories -/

def making (maker : Nat) (kind : EntityKind) : Operation Term :=
  unary (needs "iri") (Factory.entity maker kind)

def stating1 (p : String) (f : Term → Axiom) : Operation Term :=
  unary (needs p) fun t => return (f t).toTerm

def stating2 (p q : String) (f : Term → Term → Axiom) : Operation Term :=
  binary (needs p) (needs q) fun t u => return (f t u).toTerm

def stating3 (p q r : String) (f : Term → Term → Term → Axiom) : Operation Term :=
  ternary (needs p) (needs q) (needs r) fun t u v => return (f t u v).toTerm

def statingGroup (p : String) (f : List Term → Axiom) : Operation Term :=
  unary (needs p) fun t => do return (f (← Factory.membersOf t)).toTerm

def factoryOperations (maker : Nat) : Catalogue Term := [
  ("get_entity", binary (needs "kind") (needs "iri") (Factory.entityOf maker)),
  ("get_class", making maker .cls),
  ("get_object_property", making maker .objectProperty),
  ("get_annotation_property", making maker .annotationProperty),
  ("get_individual", making maker .individual),
  ("get_annotation",
    ternary (needs "property") (needs "literal") ⟨"language", some (.text "en")⟩ fun p t g => do
      return (← Factory.note p t g).toTerm),
  ("owl_thing", nullary (return Factory.thing maker)),
  ("owl_nothing", nullary (return Factory.nothing maker)),
  ("rdfs_label", nullary (return Factory.label maker)),
  ("rdfs_comment", nullary (return Factory.comment maker)),
  ("rdfs_is_defined_by", nullary (return Factory.isDefinedBy maker)),
  ("rdfs_see_also", nullary (return Factory.seeAlso maker)),
  ("owl_version_info", nullary (return Factory.versionInfo maker)),
  ("owl_backward_compatible_with", nullary (return Factory.backwardCompatibleWith maker)),
  ("owl_incompatible_with", nullary (return Factory.incompatibleWith maker)),
  ("expression", {
    signature := andMore [needs "operator"] [takes "cardinality"]
    act := fun a => match a.given with
      | [o, c] => Factory.expressionOf o a.rest c
      | _ => throw .wrongSort }),
  ("declaration", stating1 "entity" .declaration),
  ("subclass_of", stating2 "subclass" "superclass" .subclassOf),
  ("equivalent_classes", statingGroup "classes" .equivalentClasses),
  ("disjoint_classes", statingGroup "classes" .disjointClasses),
  ("disjoint_union", binary (needs "owner") (needs "classes") fun t u => do
    return (Axiom.disjointUnion t (← Factory.membersOf u)).toTerm),
  ("object_property_domain", stating2 "property" "domain" .objectPropertyDomain),
  ("object_property_range", stating2 "property" "range" .objectPropertyRange),
  ("inverse_object_properties", binary (needs "first") (needs "second") fun t u => do
    requireStable t
    requireStable u
    return (Axiom.inverseObjectProperties t u).toTerm),
  ("sub_object_property_of",
    stating2 "subproperty" "superproperty" .subObjectPropertyOf),
  ("transitive_object_property", stating1 "property" .transitiveObjectProperty),
  ("functional_object_property", stating1 "property" .functionalObjectProperty),
  ("inverse_functional_object_property",
    stating1 "property" .inverseFunctionalObjectProperty),
  ("sub_annotation_property_of",
    stating2 "subproperty" "superproperty" .subAnnotationPropertyOf),
  ("annotation_assertion", stating2 "subject" "annotation" .annotationAssertion),
  ("class_assertion", stating2 "cls" "individual" .classAssertion),
  ("object_property_assertion",
    stating3 "property" "subject" "target" .objectPropertyAssertion),
  ("negative_object_property_assertion",
    stating3 "property" "subject" "target" .negativeObjectPropertyAssertion),
  ("same_individual", statingGroup "individuals" .sameIndividual),
  ("different_individuals", statingGroup "individuals" .differentIndividuals)]

/-! ## Values -/

/-- The name of an entity or of a keyword; nothing else has one. -/
def nameOf : Term → Act Term
  | .entity _ e => return .text e.localName
  | .keyword k => return .text (((k.qualified.splitOn ".").getLast?).getD "")
  | _ => throw .missingPart

/-- The members of an expression: its operands, a fixed set among them standing for its members. -/
def membersOf : Term → Act Term
  | .expression _ ts _ =>
    answerSet do
      let ms := ts.flatMap fun t => match t with
        | .set true us => us
        | t => [t]
      ms.forM requireStable
      return ms
  | _ => throw .missingPart

def axiomOf (t : Term) : Act Axiom :=
  match Axiom.ofTerm? t with
  | some a => pure a
  | none => throw .missingPart

/-- The index that a number or truth value is. -/
def indexOf : Term → Act Int
  | .int n => pure n
  | .bool b => pure (if b then 1 else 0)
  | _ => throw .wrongSort

/-- An item of a sequence by its number, from the end if that is negative, or of a map by its key. -/
def itemOf (sequence index : Term) : Act Term := do
  match sequence with
  | .map es =>
    requireStable index
    match es.lookup index with
    | some t => return t
    | none => throw (.missingKey (← display index))
  | .set _ _ | .settings _ | .handle (.options _) => throw .wrongSort
  | s =>
    let ts ← itemsOf s
    let n ← indexOf index
    let at' := if n < 0 then n + ts.length else n
    if at' < 0 then throw .outOfRange
    else match ts[at'.toNat]? with
      | some t => return t
      | none => throw .outOfRange

/-- The message of a fault that is declared with any number of arguments. -/
def declaredMessage (ts : List Term) : Act String := do
  match ts with
  | [] => return ""
  | [t] => display t
  | ts => inspect (.tuple ts)

/-- Fails with a named fault about the given terms. -/
def fail (name : Term) (ts : List Term) : Act Term := do
  let some name := name.content? | throw .wrongSort
  match name, ← ts.mapM settle with
  | "InvalidReferenceError", [expected, t] => refuse (← expectedName expected) t
  | "UnknownFrameError", [tag] => throw (.unknownFrame tag (← display tag) none)
  | "UnknownFrameError", [tag, .null] => throw (.unknownFrame tag (← display tag) none)
  | "UnknownFrameError", [tag, kind] => do
    let shown ← expectedName kind
    throw (.unknownFrame tag (← display tag) (some shown))
  | "UnknownCharacteristicError", [t] => throw (.unknownCharacteristic t (← inspect t))
  | "InverseArityError", [n] => throw (.inverseArity (← display n))
  | "ProbeCleanupError", [t] => do
    let causes ← itemsOf t
    throw (if causes.isEmpty then .probeCleanup [] else .wrongSort)
  | "StoreChangeRejectedError", ts => do throw (.declared .rejected (← declaredMessage ts))
  | "CurrentOntologyUnsetError", ts => do
    throw (.declared .noCurrentOntology (← declaredMessage ts))
  | "OntologyError", ts => do throw (.declared .general (← declaredMessage ts))
  | "InvalidReferenceError", _ | "UnknownFrameError", _ | "UnknownCharacteristicError", _
  | "InverseArityError", _ | "ProbeCleanupError", _ => throw .wrongSort
  | _, _ => throw .missingPart

def drawing (ontology : Term) : Act Term := do
  let o ← Query.current ontology
  let abbreviation ← settle o.abbreviation
  return .listing (← liftExcept (Graph.list (← get) { o with abbreviation := abbreviation }))

def values : Catalogue Term := [
  ("new_store", nullary do
    let w ← get
    set { w with stores := w.stores ++ [Store.mk [] []] }
    return .handle (.store w.stores.length)),
  ("new_factory", nullary do
    let w ← get
    set { w with factories := w.factories + 1 }
    return .handle (.factory w.factories)),
  ("entity_name", unary (needs "e") nameOf),
  ("str", unary (needs "v") fun t => do return .text (← display t)),
  ("repr", unary (needs "v") fun t => do return .text (← inspect t)),
  ("members", unary (needs "expr") membersOf),
  ("signature", unary (needs "axiom") fun t => do
    let a ← axiomOf t
    a.signature.forM requireStable
    return Term.setOf true a.signature),
  ("mentions", binary (needs "axiom") (needs "entity") fun t u => do
    answerBool (Query.mentions (← axiomOf t) u)),
  ("eq", binary (needs "a") (needs "b") fun t u => do
    match t, u with
    | .handle (.options i), .handle (.options j) =>
      answerBool (equals ((← get).namingOf i) ((← get).namingOf j))
    | t, u => answerBool (equals t u)),
  ("item", binary (needs "seq") (needs "i") itemOf),
  ("contains", binary (needs "seq") (needs "v") fun s t => answerBool (contains s t)),
  ("raise_error", {
    signature := andMore [needs "name"]
    act := fun a => match a.given with
      | [name] => fail name a.rest
      | _ => throw .wrongSort }),
  ("graph", unary (needs "ontology") drawing),
  ("graph_of_store", binary (needs "store") (needs "ontology") fun s o => do
    match s with
    | .handle (.store _) => drawing o
    | _ => throw .missingPart)]

def demonstrations : Catalogue Term := [
  ("demo_classes_and_groups", nullary Demo.classesAndGroups),
  ("demo_queries", ternary (needs "pizza") (needs "cheese") (needs "tomato") Demo.queries),
  ("demo_main", nullary Demo.tour)]

/-! ## Scopes -/

def scopes : Catalogue Entered := [
  ("with_ontology", unary (needs "ontology") Scope.withOntology),
  ("in_namespace", unary (needs "namespace") Scope.inNamespace),
  ("with_collection", nullary Scope.withCollection),
  ("with_default_frames", unary (needs "frames") Scope.withDefaultFrames),
  ("with_prefix", unary (needs "prefix") Scope.withPrefix),
  ("with_suffix", unary (needs "suffix") Scope.withSuffix),
  ("as_disjoint", unary (takes "ontology") Scope.asDisjoint),
  ("as_inverse", unary (takes "ontology") Scope.asInverse),
  ("as_subclasses", {
    signature := usually [needs "superclass", ⟨"disjoint", some (.bool false)⟩,
      ⟨"cover", some (.bool false)⟩, takes "ontology"]
    act := fun a => match a.given with
      | [t, d, c, o] => Scope.asSubclasses t d c o
      | _ => throw .wrongSort }),
  ("as_disjoint_subclasses", binary (needs "superclass") (takes "ontology") fun t o =>
    Scope.asSubclasses t (.bool true) (.bool false) o),
  ("with_probe_entities", binary (needs "bindings") (takes "ontology") fun t o => do
    let o ← Current.orGiven o
    Probe.withEntities (← Probe.bindingsOf t) o),
  ("with_probe_axioms", binary (needs "bindings") (takes "ontology") fun t o => do
    let o ← Current.orGiven o
    Probe.withAxioms (← Probe.bindingsOf t) o)]

/-- All operations but those on stores and factories, and the scopes. -/
def general : Catalogue Term :=
  frames ++ expressions ++ compiling ++ builders ++ collecting ++ ontologies ++ references ++ changes ++
    hierarchy ++ values ++ demonstrations

end Authoring.Script
