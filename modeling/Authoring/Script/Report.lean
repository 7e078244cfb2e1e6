import Authoring.World

/-!
# Reports of changes

What has changed since the last report: the list of the installed store's ontologies, the axioms of each
ontology, and the entries of the log. An ontology is followed by its IRI, so one that has been replaced is
compared with the one whose place it took.

If the former axioms are still there in the same order, what follows them is new. Otherwise the axioms are
compared one by one, whatever their order.
-/

namespace Authoring.Script

/-- What a report compares: the ontologies of the installed store with their numbers and axioms, and the
length of the log. -/
structure Snapshot where
  ontologies : List (String × Nat × List Axiom)
  logged : Nat
  deriving Inhabited

/-- How the axioms of one ontology have changed. -/
structure Difference where
  added : List Axiom
  removed : List Axiom
  deriving Inhabited

/-- What has changed. The list of ontologies is there only if it has changed. -/
structure Changes where
  ontologies : Option (List String)
  axioms : List (String × Difference)
  log : List String
  /-- How the handles in axioms were shown at that time. -/
  names : Naming
  deriving Inhabited

namespace Snapshot

def of (w : World) : Snapshot where
  ontologies := (w.store w.installed).entries.map fun e => (e.1, e.2, (w.ontology e.2).axioms)
  logged := w.log.length

/-- The IRIs and numbers of the ontologies. -/
def list (s : Snapshot) : List (String × Nat) := s.ontologies.map fun e => (e.1, e.2.1)

/-- The axioms under an IRI; none if there is no such ontology. -/
def axiomsOf (s : Snapshot) (iri : String) : List Axiom :=
  ((s.ontologies.lookup iri).map (·.2)).getD []

end Snapshot

namespace Difference

/-- The rest of a list after another, if that comes first in it. -/
def after? : List Axiom → List Axiom → Option (List Axiom)
  | [], bs => some bs
  | _ :: _, [] => none
  | a :: as, b :: bs => if a == b then after? as bs else none

def between (old new : List Axiom) : Difference :=
  match after? old new with
  | some rest => ⟨rest, []⟩
  | none =>
    ⟨new.filter fun a => !old.contains a, old.filter fun a => !new.contains a⟩

def isEmpty (d : Difference) : Bool := d.added.isEmpty && d.removed.isEmpty

end Difference

namespace Changes

/-- What has changed between a snapshot and a world, if anything has. -/
def since (old : Snapshot) (w : World) : Option Changes :=
  let new := Snapshot.of w
  let iris := (new.list.map (·.1) ++ old.list.map (·.1)).eraseDups
  let axioms := (iris.map fun iri =>
    (iri, Difference.between (old.axiomsOf iri) (new.axiomsOf iri))).filter fun e => !e.2.isEmpty
  let ontologies := if new.list == old.list then none else some (new.list.map (·.1))
  let log := w.log.drop old.logged
  if ontologies.isNone && axioms.isEmpty && log.isEmpty then none
  else some ⟨ontologies, axioms, log, w.names⟩

end Changes

end Authoring.Script
