import Authoring.Scope

/-!
# Probes

A probe is an entity or axiom that exists for the body of a scope and is removed when the scope is left. The
scope is given pairs of a name and a constructor. Each constructor is called with the mapping of the probes
that are bound so far, and its value is bound to its name.

Leaving the scope tries to remove every bound probe, the last one first, whatever the outcome of the body and
of the other removals. The faults of the removals are reported together, but never in place of a fault of the
body or of a constructor.
-/

namespace Authoring.Probe

open Act

/-- The mapping of names to probes, in the order in which the names were first bound. -/
abbrev Bound := List (Term × Term)

/-- What makes a probe, given those that are bound so far. -/
abbrev Constructor := Bound → Act Term

/-- A name and a constructor, which are found out when it is their turn. -/
abbrev Binding := Act (Term × Constructor)

/-- The binding that a term gives: a pair of a name and something to call with the mapping. -/
def Binding.ofTerm (t : Term) : Binding := do
  let (name, construct) ← pairOf t
  return (name, fun bound => invoke construct [.map bound])

/-- Calls the constructor of a binding and binds its value. -/
def bind (bound : Bound) (binding : Binding) : Act Bound := do
  let (name, construct) ← binding
  let value ← construct bound
  requireStable name
  return Keyed.put name value bound

/-- Binds probes in order. A fault is answered together with what was bound before it. -/
def bindAll : Bound → List Binding → Act (Bound × Option Fault)
  | bound, [] => return (bound, none)
  | bound, b :: bs => do
    match ← attempt (bind bound b) with
    | .ok bound' => bindAll bound' bs
    | .error f => return (bound, some f)

/-- Tries to remove each value, and answers with the faults in their order. -/
def removeAll (remover : Term → Act Unit) : List Term → Act (List Fault)
  | [] => return []
  | t :: ts => do
    match ← attempt (remover t) with
    | .ok () => removeAll remover ts
    | .error f => return f :: (← removeAll remover ts)

/-- Removes all probes, the last one first. The faults of the removals count only if there is no other. -/
def cleanUp (remover : Term → Act Unit) (bound : Bound) (outcome : Option Fault) : Act Unit := do
  let faults ← removeAll remover (bound.map (·.2)).reverse
  match outcome, faults with
  | some _, _ | none, [] => return ()
  | none, fs => throw (.probeCleanup fs)

/-- A scope of probes, for a way of removing them. -/
def scope (remover : Term → Term → Act Unit) (bindings : List Binding) (ontology : Term) :
    Act Entered := do
  let o ← Current.orGiven ontology
  let (bound, fault) ← bindAll [] bindings
  match fault with
  | some f =>
    cleanUp (remover · o) bound (some f)
    throw f
  | none =>
    return ⟨← context, .map bound, cleanUp (remover · o) bound⟩

/-- Removes a probe that is an entity, with all axioms that mention it. -/
def removeEntity (t ontology : Term) : Act Unit := do
  let _ ← Change.removeEntity t ontology

/-- Removes a probe that is an axiom. -/
def removeAxiom (t ontology : Term) : Act Unit := do
  let _ ← Change.remove t ontology

/-- A scope of probe entities. -/
def withEntities (bindings : List Binding) (ontology : Term) : Act Entered :=
  scope removeEntity bindings ontology

/-- A scope of probe axioms. -/
def withAxioms (bindings : List Binding) (ontology : Term) : Act Entered :=
  scope removeAxiom bindings ontology

/-- The bindings that a term lists. -/
def bindingsOf (t : Term) : Act (List Binding) := do
  return (← itemsOf t).map Binding.ofTerm

end Authoring.Probe
