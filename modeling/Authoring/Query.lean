import Authoring.Act

/-!
# Queries of one ontology

What an ontology asserts, read off its axioms: the axioms of a kind, those that mention an entity, the
declared entities, the direct relations of the hierarchy, and what shares a symmetric axiom with a member.
No query draws a conclusion from two axioms; that is `Hierarchy`'s work.
-/

namespace Authoring

namespace Ontology

/-- The axioms of a kind, in their order. -/
def ofKind (o : Ontology) (k : AxiomKind) : List Axiom := o.axioms.filter fun a => a.kind == k

/-- What stands second in the two-place axioms of a kind that have a given term first. -/
def seconds (o : Ontology) (k : AxiomKind) (first : Term) : List Term :=
  ((o.ofKind k).filterMap fun a =>
    match a.operands with
    | [x, y] => if x.equals first then some y else none
    | _ => none).eraseDups

/-- What stands first in the two-place axioms of a kind that have a given term second. -/
def firsts (o : Ontology) (k : AxiomKind) (second : Term) : List Term :=
  ((o.ofKind k).filterMap fun a =>
    match a.operands with
    | [x, y] => if y.equals second then some x else none
    | _ => none).eraseDups

/-- What shares the set of an axiom of a kind with a given member, that member apart. -/
def partners (o : Ontology) (k : AxiomKind) (member : Term) : List Term :=
  ((o.ofKind k).flatMap fun a =>
    match a.operands with
    | [.set _ ms] => if ms.contains member then ms.filter fun t => !t.equals member else []
    | _ => []).eraseDups

/-- The operands of the declarations, in their order. -/
def declared (o : Ontology) : List Term := (o.ofKind .declaration).flatMap fun a => a.operands.take 1

end Ontology

namespace Query

open Act

/-- The ontology that a term denotes, as it is now. -/
def current (t : Term) : Act Ontology := do
  let id ← asOntology t
  return (← get).ontology id

/-- The axioms of a kind, or all of them for null. -/
def axioms (ontology kind : Term) : Act (List Axiom) := do
  let o ← current ontology
  match kind with
  | .null => return o.axioms
  | k => return o.axioms.filter fun a => (Term.keyword (.axiomKind a.kind)).equals k

/-- Whether an axiom mentions what a term denotes. -/
def mentions (a : Axiom) (t : Term) : Act Bool := do
  a.signature.forM requireStable
  requireFindable t
  if a.signature.contains t then return true
  else if a.kind == .annotationAssertion then return a.annotates (← iriOf t)
  else return false

/-- The axioms that mention what a term denotes, in their order. -/
def referencing (ontology t : Term) : Act (List Axiom) := do
  (← current ontology).axioms.filterM fun a => mentions a t

/-- The declared entities, of one kind or of all for null. -/
def entities (ontology kind : Term) : Act (List Term) := do
  let o ← current ontology
  match kind with
  | .null => return o.declared
  | k => o.declared.filterM fun t => do return (Term.keyword (← kindOf t)).equals k

/-- Whether the declaration of what a term denotes is asserted. -/
def isDeclared (ontology t : Term) : Act Bool := do
  let o ← current ontology
  requireStable t
  return o.axioms.contains (Axiom.declaration t)

/-- What a member shares an axiom of a kind with. -/
def partners (k : AxiomKind) (ontology member : Term) : Act (List Term) := do
  let o ← current ontology
  unless (o.ofKind k).isEmpty do requireFindable member
  return o.partners k member

/-- What an ontology contains, in numbers. -/
def stats (ontology : Term) : Act Stats := do
  let o ← current ontology
  let kinds ← o.declared.mapM entityKindOf
  return {
    classes := kinds.count .cls
    objectProperties := kinds.count .objectProperty
    annotationProperties := kinds.count .annotationProperty
    individuals := kinds.count .individual
    axioms := o.axioms.length
    imports := o.imports.length }

end Query

end Authoring
