import Authoring.Builder

/-!
# Scopes

A scope changes the context for its body and may do work when it is left. Opening one answers with an
`Entered`: the context for the body, what the scope yields, and what leaving it does, given the fault of the
body if it had one. The context is not part of the world, so when a scope is left by any path the context is
that from before: nothing has to be put back.

* `withOntology`, `inNamespace`, `withDefaultFrames`, `withPrefix` and `withSuffix` only change the context.
* `withCollection` opens a window.
* The group scopes `asDisjoint`, `asInverse` and `asSubclasses` open a window too, and relate what it has
  collected by axioms when the body has ended without a fault.
-/

namespace Authoring

/-- A scope that has been opened. -/
structure Entered where
  context : Context
  yields : Term
  leave : Option Fault → Act Unit

namespace Scope

open Act

/-- **Runs a body inside a scope.** The body runs in the scope's context. Leaving the scope is outside it
again, and a fault of leaving takes the place of the body's. -/
def run (opening : Act Entered) (body : Term → Act α) : Act α := do
  let entered ← opening
  match ← attempt (within (fun _ => entered.context) (body entered.yields)) with
  | .ok a =>
    entered.leave none
    return a
  | .error f =>
    entered.leave (some f)
    throw f

/-- A scope that changes the context and does nothing else. -/
def pure (context : Context) (yields : Term) : Entered := ⟨context, yields, fun _ => Pure.pure ()⟩

/-- What is done only when the body has ended without a fault. -/
def onSuccess (work : Act Unit) : Option Fault → Act Unit
  | none => work
  | some _ => Pure.pure ()

/-- Makes an ontology current. -/
def withOntology (t : Term) : Act Entered := do
  return pure { ← context with ontology := t } t

/-- Makes a namespace current. -/
def inNamespace (t : Term) : Act Entered := do
  return pure { ← context with space := t } t

/-- Collects new entities in a window of its own. -/
def withCollection : Act Entered := do
  let id ← Window.openNew
  return pure { ← context with window := some id } (.handle (.window id))

/-- Adds default frames to every entity that is built, in place of those that are in force. -/
def withDefaultFrames (frames : Term) : Act Entered := do
  let m := FrameMap.normalize (← framesOf (← entriesOf frames))
  return pure { ← context with defaults := some m } m.toTerm

/-- The content of a term that is joined to a name. -/
def affix (t : Term) : Act String :=
  match t.content? with
  | some s => Pure.pure s
  | none => throw .wrongSort

/-- Puts a text before the names of new classes, after what stands before them already. -/
def withPrefix (t : Term) : Act Entered := do
  let c ← context
  return pure { c with affixes := (c.affixes.1 ++ (← affix t), c.affixes.2) } .null

/-- Puts a text after the names of new classes, before what stands after them already. -/
def withSuffix (t : Term) : Act Entered := do
  let c ← context
  return pure { c with affixes := (c.affixes.1, (← affix t) ++ c.affixes.2) } .null

/-! ## Group scopes -/

/-- What a window has collected. -/
def collected (id : Nat) : Act (List Term) := do return (← get).window id

/-- Makes the classes of the body mutually disjoint. -/
def asDisjoint (ontology : Term) : Act Entered := do
  let o ← Current.orGiven ontology
  let id ← Window.openNew
  return {
    context := { ← context with window := some id }
    yields := .handle (.window id)
    leave := onSuccess do
      let _ ← Builder.disjointClasses (← collected id) o }

/-- The axiom that two collected properties are inverses; any other number of them is refused. -/
def relateInverses (ts : List Term) (o : Term) : Act Unit := do
  match ts with
  | [first, second] =>
    let p ← Reference.resolveObjectProperty first o
    let q ← Reference.resolveObjectProperty second o
    let _ ← Change.add (Axiom.inverseObjectProperties p q).toTerm o
  | ts => throw (.inverseArity (toString ts.length))

/-- Makes the two properties of the body inverses of each other. -/
def asInverse (ontology : Term) : Act Entered := do
  let o ← Current.orGiven ontology
  let id ← Window.openNew
  return {
    context := { ← context with window := some id }
    yields := .handle (.window id)
    leave := onSuccess do relateInverses (← collected id) o }

/-- The axiom that a class is covered by those that are collected, if there are any. -/
def coverBy (super : Term) (ts : List Term) (o : Term) : Act Unit := do
  match ts with
  | [] => Pure.pure ()
  | ts =>
    let union ← Expression.or ts
    requireStable super
    requireStable union
    let _ ← Change.add (Axiom.equivalentClasses [super, union]).toTerm o

/-- Makes the classes of the body subclasses of a class and, if so asked, mutually disjoint and a cover of
it. -/
def asSubclasses (super disjoint cover ontology : Term) : Act Entered := do
  let o ← Current.orGiven ontology
  let c ← Reference.resolveClass super o
  let id ← Window.openNew
  let m := FrameMap.normalize [(Term.ofTag .subclass, c)]
  return {
    context := { ← context with window := some id, defaults := some m }
    yields := .handle (.window id)
    leave := onSuccess do
      if ← isTruthy disjoint then
        let _ ← Builder.disjointClasses (← collected id) o
      if ← isTruthy cover then coverBy c (← collected id) o }

end Scope

end Authoring
