import Authoring.Current
import Authoring.Query

/-!
# Changes

Adding and removing axioms of the given ontology or, if none is given, of the current one. Every change goes
through the installed store, which refuses ontologies that it does not hold.

Removing an entity removes every axiom that mentions it. The axioms are collected before the first one is
removed.
-/

namespace Authoring.Change

open Act

/-- Adds an axiom and answers with it. -/
def add (t ontology : Term) : Act Term := do
  let o ← Current.orGiven ontology
  let _ ← Store.add (← Current.store) o t
  return t

/-- Adds terms in order. Those added before a fault stay. -/
def addEach (ts : List Term) (ontology : Term) : Act (List Term) := do
  let o ← Current.orGiven ontology
  ts.mapM fun t => add t o

/-- Adds axioms in order. -/
def addAxioms (as : List Axiom) (ontology : Term) : Act Unit := do
  let _ ← addEach (as.map Axiom.toTerm) ontology

/-- Removes an axiom and answers with it. -/
def remove (t ontology : Term) : Act Term := do
  let o ← Current.orGiven ontology
  let _ ← Store.discard (← Current.store) o t
  return t

/-- Removes every axiom that mentions an entity, and answers with them. What has no IRI cannot be an entity,
which is found out in the end. -/
def removeEntity (t ontology : Term) : Act (List Axiom) := do
  let o ← Current.orGiven ontology
  let store ← Current.store
  let doomed ← Query.referencing o t
  doomed.forM fun a => do
    let _ ← Store.discard store o a.toTerm
  let _ ← iriOf t
  let _ ← iriOf o
  return doomed

end Authoring.Change
