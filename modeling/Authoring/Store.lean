import Authoring.Act

/-!
# Stores

A store holds ontologies, at most one for each IRI, and is what changes them. It changes only ontologies that
it holds: under its IRI it must have that very ontology, so that a handle to an ontology that has been removed
or replaced changes nothing.

An ontology is removed by its IRI or by a handle. Right after a removal the store calls its remove hooks with
the ontology, in the order of their registration. Creating an ontology first removes the one that has its
IRI.
-/

namespace Authoring

namespace Ontology

/-- Adds an axiom at the end, unless an equal one is there. -/
def add (o : Ontology) (a : Axiom) : Ontology :=
  if o.axioms.contains a then o else { o with axioms := o.axioms ++ [a] }

/-- Takes away the axiom that is found when one looks for an axiom. -/
def remove (o : Ontology) (a : Axiom) : Ontology :=
  { o with axioms := o.axioms.eraseP fun b => a == b }

end Ontology

namespace World

/-- Forgets the options of an ontology and the namespaces that it is registered for. -/
def forget (w : World) (id : Nat) : World :=
  { w with
    optionsOf := Keyed.erase (.handle (.ontology id)) w.optionsOf
    namespaces := w.namespaces.filter fun e => !(e.2 == .handle (.ontology id)) }

/-- Takes the ontology under an IRI out of a store. -/
def detach (w : World) (store : Nat) (iri : String) : World :=
  let s := w.store store
  w.setStore store { s with entries := Keyed.erase iri s.entries }

/-- Puts an ontology into a store, under its IRI. -/
def attach (w : World) (store : Nat) (id : Nat) : World :=
  let s := w.store store
  w.setStore store { s with entries := Keyed.put (w.ontology id).iri id s.entries }

/-- A new ontology, in no store yet, and its number. -/
def allocate (w : World) (iri : String) (abbreviation : Term) : World × Nat :=
  ({ w with ontologies := w.ontologies ++ [⟨iri, abbreviation, [], [], []⟩] }, w.ontologies.length)

end World

namespace Store

open Act

/-- Whether a store contains what a term denotes: an ontology that it holds, or an IRI under which it holds
one. -/
def contains (store : Nat) (t : Term) : Act Bool := do
  match t with
  | .handle (.ontology id) => return (← get).holds store id
  | t =>
    let iri ← display t
    return ((← get).located store iri).isSome

/-- Calls a remove hook. -/
def runHook (removed : Nat) : Hook → Act Unit
  | .forget => modify fun w => w.forget removed
  | .user callee => do
    let _ ← invoke callee [.handle (.ontology removed)]

/-- Takes an ontology out of a store and calls the hooks that were registered then. -/
def detach (store : Nat) (iri : String) (id : Nat) : Act Unit := do
  let hooks := ((← get).store store).hooks
  modify fun w => w.detach store iri
  hooks.forM (runHook id)

/-- Removes an ontology by its handle, or the one under an IRI. Answers whether there was one. -/
def remove (store : Nat) (t : Term) : Act Bool := do
  match t with
  | .handle (.ontology id) =>
    let w ← get
    if w.holds store id then
      detach store (w.ontology id).iri id
      return true
    else return false
  | t =>
    let iri ← display t
    match (← get).located store iri with
    | some id =>
      detach store iri id
      return true
    | none => return false

/-- Creates an ontology in place of the one that has its IRI. -/
def create (store : Nat) (iri : Term) (abbreviation : Term) : Act Nat := do
  let name ← display iri
  let _ ← remove store (.iri name)
  let (w, id) := (← get).allocate name abbreviation
  set (w.attach store id)
  return id

/-- The ontology under an IRI, or null. -/
def find (store : Nat) (iri : Term) : Act Term := do
  let name ← display iri
  return Term.ofOption (fun id => .handle (.ontology id)) ((← get).located store name)

/-- Whether a registered hook equals another. -/
def isHook (w : World) (h : Hook) : Hook → Bool
  | .forget => match h with
    | .forget => true
    | .user _ => false
  | .user t => match h with
    | .forget => false
    | .user u => (w.settle t).agrees false false (w.settle u)

/-- Registers a remove hook, unless an equal one is registered. -/
def addHook (store : Nat) (h : Hook) : Act Unit :=
  modify fun w =>
    let s := w.store store
    if s.hooks.any (isHook w h) then w else w.setStore store { s with hooks := s.hooks ++ [h] }

/-! ## Changes -/

/-- Refuses a change to an ontology that the store does not hold. -/
def requireManaged (store : Nat) (t : Term) : Act Unit := do
  if ← contains store t then pure ()
  else throw (.rejected (.unmanaged (← inspect t)))

/-- The axiom that a term is; anything else cannot be added or removed. -/
def requireAxiom (t : Term) : Act Axiom := do
  match Axiom.ofTerm? t with
  | some a => return a
  | none => throw (.rejected (.notAxiom (← inspect t)))

/-- Adds an axiom. Answers whether it was new. -/
def add (store : Nat) (ontology : Term) (t : Term) : Act Bool := do
  requireManaged store ontology
  let a ← requireAxiom t
  let id ← asOntology ontology
  requireStable t
  let o := (← get).ontology id
  modify fun w => w.setOntology id (o.add a)
  return !o.axioms.contains a

/-- Removes an axiom. Answers whether it was there. -/
def discard (store : Nat) (ontology : Term) (t : Term) : Act Bool := do
  requireManaged store ontology
  let a ← requireAxiom t
  let id ← asOntology ontology
  requireStable t
  let o := (← get).ontology id
  modify fun w => w.setOntology id (o.remove a)
  return o.axioms.contains a

/-- Records that an ontology imports another, once. -/
def addImport (store : Nat) (ontology imported : Term) : Act Unit := do
  requireManaged store ontology
  let iri ← iriOf imported
  let id ← asOntology ontology
  modify fun w =>
    let o := w.ontology id
    if o.imports.contains iri then w
    else w.setOntology id { o with imports := o.imports ++ [iri] }

/-- Adds an annotation of the ontology itself, unless an equal one is there. -/
def annotate (store : Nat) (ontology t : Term) : Act Unit := do
  requireManaged store ontology
  match Note.ofTerm? t with
  | none => throw (.rejected (.notANote (← inspect t)))
  | some a =>
    let id ← asOntology ontology
    modify fun w =>
      let o := w.ontology id
      let new := w.settle a.toTerm
      if o.annotations.any (fun b => (w.settle b.toTerm).agrees false false new) then w
      else w.setOntology id { o with annotations := o.annotations ++ [a] }

end Store

end Authoring
