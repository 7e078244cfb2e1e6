import Authoring.Axiom
import Authoring.Frame
import Authoring.Keyed
import Authoring.Term.Written

/-!
# The world

All that a run of the authoring language can change: the ontologies and the stores that hold them, the
options and namespaces that belong to ontologies, the windows that collect new entities, and what a script
has named, logged and printed.

A window is a list that grows. A term can hold a window, and then it changes with it; whoever looks into a
term sees the windows as they are at that moment (`World.settle`).

Ontologies are kept in a table by their numbers, and a number is never used again: an ontology that is
removed from its store stays in the table, so that a handle to it still denotes it, and one that is created
anew under the same IRI has another number.

A `Context` is what the scopes change, and what is put back when a scope is left: the ontology and the
namespace that are current, the window, the default frames, and what is added to the names of classes.
-/

namespace Authoring

/-- A named collection of axioms. `abbreviation` is the prefix for its namespace in a rendering; it is a
text, or null, unless it was given to a store directly. -/
structure Ontology where
  iri : String
  abbreviation : Term
  axioms : List Axiom
  imports : List String
  annotations : List Note
  deriving Inhabited

/-- An ontology as messages show it. -/
def Ontology.inspect (o : Ontology) : String :=
  "Ontology(iri=" ++ Text.quote o.iri ++ ", axioms=" ++ toString o.axioms.length ++ ")"

/-- What is called with an ontology right after its removal from a store: the forgetting of its options and
namespaces, or something that a script has registered. -/
inductive Hook where
  | forget
  | user (callee : Term)
  deriving Inhabited

/-- The ontologies of a store, each under its IRI in the order of creation, and its remove hooks in the
order of registration. -/
structure Store where
  entries : List (String × Nat)
  hooks : List Hook
  deriving Inhabited

structure World where
  ontologies : List Ontology
  stores : List Store
  /-- The store that all operations work on unless they are given another. -/
  installed : Nat
  /-- The naming function of each options record; null if it has none. -/
  options : List Term
  /-- The number of the options record of a subject. -/
  optionsOf : List (Term × Nat)
  /-- The ontology registered for a namespace. -/
  namespaces : List (Term × Term)
  windows : List (List Term)
  factories : Nat
  /-- The number for the next callable. -/
  serial : Nat
  settings : Settings
  /-- What the script has named. -/
  named : List (String × Term)
  /-- The making of each named value: names that share a number name one object. -/
  births : List (String × Nat)
  /-- The remove hooks that the script has written, by name; true if the hook fails. -/
  hooks : List (String × Bool)
  log : List String
  printed : String
  deriving Inhabited

namespace World

/-- The world before anything has been done: one empty store, which forgets what belongs to an ontology that
it removes. -/
def initial (settings : Settings) : World where
  ontologies := []
  stores := [⟨[], [.forget]⟩]
  installed := 0
  options := []
  optionsOf := []
  namespaces := []
  windows := []
  factories := 1
  serial := 0
  settings := settings
  named := []
  births := []
  hooks := []
  log := []
  printed := ""

def ontology (w : World) (id : Nat) : Ontology := w.ontologies.getD id default

def setOntology (w : World) (id : Nat) (o : Ontology) : World :=
  { w with ontologies := w.ontologies.set id o }

def store (w : World) (id : Nat) : Store := w.stores.getD id default

def setStore (w : World) (id : Nat) (s : Store) : World := { w with stores := w.stores.set id s }

def window (w : World) (id : Nat) : List Term := w.windows.getD id []

/-- The naming function of an options record. -/
def namingOf (w : World) (id : Nat) : Term := w.options.getD id .null

/-- How the handles are shown. A window is replaced by its list before it is shown (`World.settle`). -/
def names (w : World) : Naming where
  inspect
    | .ontology id => (w.ontology id).inspect
    | .options id => "OntologyOptions(iri_gen=" ++ (w.namingOf id).inspect default ++ ")"
    | .store _ => "<store>"
    | .factory _ => "<factory>"
    | .window _ => "[]"
  display
    | .ontology id => (w.ontology id).inspect
    | .options id => "iri_gen=" ++ (w.namingOf id).inspect default
    | .store _ => "<store>"
    | .factory _ => "<factory>"
    | .window _ => "[]"

/-- The ontologies of a store, in its order. -/
def listed (w : World) (store : Nat) : List Nat := (w.store store).entries.map (·.2)

/-- The ontology that a store has under an IRI. -/
def located (w : World) (store : Nat) (iri : String) : Option Nat := (w.store store).entries.lookup iri

/-- Whether a store holds an ontology: under its IRI it has this very one. -/
def holds (w : World) (store : Nat) (id : Nat) : Bool :=
  w.located store (w.ontology id).iri == some id

end World

/-! ## Windows as they are now -/

namespace Term

section
variable (deep : Bool) (contents : Nat → List Term)

mutual
/-- A term with its windows replaced by the lists of what they hold: those in the places of items of nested
lists and tuples, and if it goes `deep` those in values of the domain and in maps too. -/
def expand : Term → Term
  | .handle (.window id) => .list (contents id)
  | .tuple ts => .tuple (expandAll ts)
  | .list ts => .list (expandAll ts)
  | .map es => if deep then .map (expandEntries es) else .map es
  | .expression o ts c =>
    if deep then .expression o.expand (expandAll ts) c.expand else .expression o ts c
  | .note p l => if deep then .note p.expand l else .note p l
  | .fact p t b => if deep then .fact p.expand t.expand b else .fact p t b
  | .statement k ts => if deep then .statement k (expandAll ts) else .statement k ts
  | t => t
def expandAll : List Term → List Term
  | [] => []
  | t :: ts => t.expand :: expandAll ts
def expandEntries : List (Term × Term) → List (Term × Term)
  | [] => []
  | e :: es => expandEntry e :: expandEntries es
def expandEntry : Term × Term → Term × Term
  | (k, v) => (k, v.expand)
end

end

end Term

namespace World

/-- What a window holds, the windows in it replaced by what they hold, down to a number of levels. -/
def contents (w : World) (deep : Bool) : Nat → Nat → List Term
  | 0, _ => []
  | n + 1, id => (w.window id).map (Term.expand deep (w.contents deep n))

/-- A term as it is now: every window in it is replaced by the list of what it holds. -/
def settle (w : World) (t : Term) : Term := t.expand true (w.contents true w.windows.length)

/-- A term whose nested lists and tuples hold no window: what windows hold stands there in lists. -/
def spread (w : World) (t : Term) : Term := t.expand false (w.contents false w.windows.length)

end World

/-- What the scopes change. -/
structure Context where
  /-- The ontology that a scope has made current; null if none has. -/
  ontology : Term
  /-- The current namespace. -/
  space : Term
  /-- The window that collects new entities. -/
  window : Option Nat
  defaults : Option FrameMap
  /-- What stands before and after the names of new classes. -/
  affixes : String × String
  deriving Inhabited

namespace Context

/-- The context outside all scopes. -/
def outermost : Context where
  ontology := .null
  space := .text "user"
  window := none
  defaults := none
  affixes := ("", "")

end Context

end Authoring
