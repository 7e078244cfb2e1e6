import Authoring.Current
import Authoring.Factory

/-!
# Creating ontologies

A new ontology is described by its IRI and, if wanted, by an abbreviation, a naming function, a comment, a
version and further annotations. The description is checked as a whole before anything is done, and all that
is unfit is reported at once (`Config.check`). Then the ontology is created in the installed store, in place
of one with the same IRI, and its annotations are added one by one.
-/

namespace Authoring

/-- A description of a new ontology that has been checked. -/
structure Config where
  iri : String
  abbreviation : Option String
  naming : Term
  comment : Option String
  versionInfo : Option String
  annotations : List Term
  deriving Inhabited

namespace Config

/-- What is unfit in a term that has to be a text, or null if it may be left out. -/
def textProblems (field : ConfigField) (required : Bool) (t : Term) : List (ConfigField × Violation) :=
  match t with
  | .null => if required then [(field, .notText)] else []
  | t =>
    match t.content? with
    | none => [(field, .notText)]
    | some s => if required && s == "" then [(field, .emptyText)] else []

def namingProblems : Term → List (ConfigField × Violation)
  | .null => []
  | t => if t.isCallable then [] else [(.naming, .notCallable)]

/-- The items of the list of annotations. What is empty or null counts as an empty list. -/
def annotationItems? (t : Term) : Option (List Term) :=
  match t with
  | .list ts | .tuple ts | .set _ ts => some ts
  | t => if t.isTruthy then none else some []

/-- All that is unfit in a description, in the order of its fields. -/
def problems (iri abbreviation naming comment versionInfo annotations : Term) :
    List (ConfigField × Violation) :=
  textProblems .iri true iri ++ textProblems .abbreviation false abbreviation ++
    namingProblems naming ++ textProblems .comment false comment ++
    textProblems .versionInfo false versionInfo ++
    if (annotationItems? annotations).isNone then [(.note, .notList)] else []

/-- Checks a description. -/
def check (iri abbreviation naming comment versionInfo annotations : Term) : Except Fault Config :=
  match problems iri abbreviation naming comment versionInfo annotations with
  | [] => .ok {
      iri := iri.content?.getD ""
      abbreviation := abbreviation.content?
      naming := naming
      comment := comment.content?
      versionInfo := versionInfo.content?
      annotations := (annotationItems? annotations).getD [] }
  | ps => .error (.invalidConfig ps)

end Config

namespace Creation

open Act

/-- The annotation that a text of the description becomes, in the language of the settings. -/
def describe (property : Term) : Option String → Act (List Term)
  | none => pure []
  | some s => do
    let language := (← get).settings.language
    return [(← Factory.note property (.text s) (.text language)).toTerm]

/-- Creates the ontology of a checked description. -/
def build (c : Config) : Act Term := do
  let store ← Current.store
  let id ← Store.create store (.text c.iri) (Term.ofOption .text c.abbreviation)
  let created : Term := .handle (.ontology id)
  match c.naming with
  | .null => pure ()
  | f => Current.setNaming (← Current.options created) f
  let comments ← describe (Factory.comment Factory.shared) c.comment
  let versions ← describe (Factory.versionInfo Factory.shared) c.versionInfo
  (c.annotations ++ comments ++ versions).forM (Store.annotate store created)
  return created

/-- **A new ontology** from its description. -/
def create (iri abbreviation naming comment versionInfo annotations : Term) : Act Term := do
  let now := (← get).spread annotations
  build (← ofExcept (Config.check iri abbreviation naming comment versionInfo now))

/-- A new ontology that is registered for a namespace. -/
def define (iri space abbreviation naming comment versionInfo annotations : Term) : Act Term := do
  let created ← create iri abbreviation naming comment versionInfo annotations
  Current.register created space
  return created

end Creation

end Authoring
