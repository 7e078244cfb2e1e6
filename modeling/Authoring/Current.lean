import Authoring.Store

/-!
# The current ontology

Operations that are not given an ontology work on the current one: the ontology that a scope has bound or,
where none is bound, the one that is registered for the namespace. Each ontology has options, made when they
are first asked for; their naming function, if there is one, decides which IRI a name stands for.

Registrations and options are keyed by any term that can be a key, and kept until the store that is installed
removes the ontology.
-/

namespace Authoring.Current

open Act

/-- The store that all operations work on. -/
def store : Act Nat := do return (← get).installed

/-- The namespace that is given, or the current one. -/
def spaceOr (t : Term) : Act Term := do
  if ← isTruthy t then return t else return (← context).space

/-- The ontology registered for a namespace; null if there is none. -/
def registered (space : Term) : Act Term := do
  let s ← spaceOr space
  requireStable s
  return ((← get).namespaces.lookup s).getD .null

/-- Registers an ontology for a namespace. What has no IRI cannot be an ontology, which is found out after
the registration. -/
def register (ontology space : Term) : Act Unit := do
  let s ← spaceOr space
  requireStable s
  modify fun w => { w with namespaces := Keyed.put s ontology w.namespaces }
  let _ ← iriOf ontology

/-- The current ontology: the bound one, or that of the namespace. -/
def ontology (space : Term) : Act Term := do
  let bound := (← context).ontology
  match bound with
  | .null =>
    match ← registered space with
    | .null => throw (.noCurrentOntology (← display (← spaceOr space)))
    | t => return t
  | t => return t

/-- What is given as an ontology, or the current ontology for null. -/
def orGiven (t : Term) : Act Term := do
  match t with
  | .null => ontology .null
  | t => return t

/-! ## Options -/

/-- The options of what is given, or of the current ontology; they are made if there are none. -/
def options (t : Term) : Act Nat := do
  let subject ← orGiven t
  requireStable subject
  let w ← get
  match w.optionsOf.lookup subject with
  | some id => return id
  | none =>
    let id := w.options.length
    set { w with
      options := w.options ++ [Term.null]
      optionsOf := Keyed.put subject id w.optionsOf }
    return id

/-- Sets the naming function of an options record. -/
def setNaming (id : Nat) (naming : Term) : Act Unit :=
  modify fun w => { w with options := w.options.set id naming }

/-- Sets the naming function of an ontology, which has to be one that can be called, or null. -/
def assignNaming (t naming : Term) : Act Unit := do
  let id ← options t
  match naming with
  | .null => setNaming id .null
  | f =>
    if f.isCallable then setNaming id f
    else throw (.invalidConfig [(.naming, .notCallable)])

/-- The IRI that a name stands for in an ontology: what the ontology's naming function makes of it or, if it
has none, the ontology's IRI, the separator and the name. -/
def iriForName (name ontology : Term) : Act String := do
  let o ← orGiven ontology
  let id ← options o
  match (← get).namingOf id with
  | .null =>
    let iri ← iriOf o
    return iri ++ (← get).settings.separator ++ (← display name)
  | f => display (← invoke f [name])

/-- Installs a store. What is registered belongs to ontologies of the former one, and is forgotten. -/
def install (id : Nat) : Act Nat := do
  let former ← store
  Store.addHook id .forget
  modify fun w => { w with installed := id, optionsOf := [], namespaces := [] }
  return former

end Authoring.Current
