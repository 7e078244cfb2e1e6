import Authoring.Proofs.Builder
import Authoring.Scope

/-!
# Programs of the authoring layer

A program of the authoring layer makes calls, one after the other, and may use what a call has answered in those that
follow; it may also run a part of itself inside a scope (`Service.Program`). Its calls are those of the builders, of the
helpers that add frames to entities that there are, of the group axioms, and of the operations that make the values of
frames (`Service.Call`); its scopes are those of `Service.Block`.

Delayed expressions may run programs, too (`Env.producing`).
-/

namespace Authoring

open Act

/-- What is joined to a name is only read. -/
theorem Scope.affix_reads (t : Term) : Reads (affix t) := by
  unfold affix
  split
  · exact .pure _
  · exact .throw _

namespace Service

/-- An operation that makes a value for frames. -/
inductive Value where
  | some (property : Term) (fillers : List Term)
  | only (property : Term) (fillers : List Term)
  | someOnly (property : Term) (fillers : List Term)
  | and (classes : List Term)
  | or (classes : List Term)
  | not (classes : List Term)
  | count (o : Operator) (cardinality : Term) (property : Term) (classes : List Term)
  | oneOf (individuals : List Term)
  | note (property value language : Term)
  | fact (negated : Bool) (property target : Term)

namespace Value

def run : Value → Act Term
  | some p ts => Expression.some p ts
  | only p ts => Expression.only p ts
  | someOnly p ts => Expression.someOnly p ts
  | and ts => Expression.and ts
  | or ts => Expression.or ts
  | not ts => Expression.not ts
  | count o n p ts => Expression.count o n p ts
  | oneOf ts => Expression.oneOf ts
  | note p t language => Expression.note p t language
  | fact negated p t => pure (Expression.fact negated p t)

end Value

/-- A call of the authoring layer. -/
inductive Call where
  | build (c : Builder.Call)
  | declare (names : List Term) (ontology : Term)
  | define (items : List Term) (ontology : Term)
  | frame (kind : EntityKind) (tag : FrameTag) (entity : Term) (values : List Term) (ontology : Term)
  | disjoint (classes : List Term) (ontology : Term)
  | union (owner : Term) (parts : List Term) (ontology : Term)
  | value (v : Value)

namespace Call

def run : Call → Act Term
  | build c => c.run
  | declare ts o => do return .list (← Builder.declareClasses ts o)
  | define ts o => do return .list (← Builder.defineClasses ts o)
  | frame kind tag t ts o => do return .list (← Builder.addFrame kind tag t ts o)
  | disjoint ts o => Builder.disjointClasses ts o
  | union t ts o => Builder.addDisjointUnion t ts o
  | value v => v.run

end Call

/-- A scope, by what opens it. -/
inductive Block where
  | ontology (t : Term)
  | space (t : Term)
  | collection
  | defaults (frames : Term)
  | lead (t : Term)
  | trail (t : Term)
  | disjoint (ontology : Term)
  | inverse (ontology : Term)
  | subclasses (super disjoint cover ontology : Term)

namespace Block

def enter : Block → Act Entered
  | ontology t => Scope.withOntology t
  | space t => Scope.inNamespace t
  | collection => Scope.withCollection
  | defaults frames => Scope.withDefaultFrames frames
  | lead t => Scope.withPrefix t
  | trail t => Scope.withSuffix t
  | disjoint o => Scope.asDisjoint o
  | inverse o => Scope.asInverse o
  | subclasses t d c o => Scope.asSubclasses t d c o

end Block

/-- **A program of the authoring layer**: calls and scopes, each of which may use what those before it have answered.
The body of a scope is given what the scope yields. -/
inductive Program where
  | done (answer : Term)
  | call (c : Call) (next : Term → Program)
  | within (b : Block) (body next : Term → Program)

namespace Program

def run : Program → Act Term
  | done t => pure t
  | call c next => do (next (← c.run)).run
  | within b body next => do (next (← Scope.run b.enter fun t => (body t).run)).run

end Program

end Service

/-- An environment in which delayed expressions run programs. -/
def Env.producing (env : Env) (p : Expr → Term → Service.Program) : Env :=
  { env with eval := fun body bound c => (p body bound).run { env with context := c } }

end Authoring
