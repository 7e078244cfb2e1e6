import Authoring.Script.Evaluate
import Authoring.Script.Report

/-!
# Scripts

A script is a list of steps. A step is a value, which is evaluated and may be named, or a scope with a body of
steps. Running a script answers for every step that has run with what came of it: its value or its fault, what
it printed, and what changed since the last answer.

A step that fails does not stop the script, unless it is asked to: then its fault leaves the body that the
step stands in, passes through the scope of that body, and becomes the fault of the scope's step. It goes
further out only if that step too is asked to let it.
-/

namespace Authoring.Script

/-- A step of a script. A step that `escapes` lets its fault leave the body that it stands in. -/
inductive Step where
  | value (expr : Expr) (name : Option String) (escapes : Bool)
  | scope (opening : String) (arguments : List Expr) (named : List (String × Expr))
      (name : Option String) (body : List Step) (escapes : Bool)
  deriving Inhabited

/-- A value together with the world in which it is to be read. -/
structure Shown where
  term : Term
  world : World

/-- What entering a scope came to: its changes, and the answers of the body. -/
inductive Answer where
  | mk (value : Option Shown) (fault : Option Fault) (entered : Option (Option Changes × List Answer))
      (printed : String) (changes : Option Changes)

/-- The state of a run: the world, and the last report. -/
structure Run where
  world : World
  reported : Snapshot

namespace Run

/-- Reports what has changed, and takes down that it is reported. -/
def report (r : Run) : Option Changes × Run :=
  (Changes.since r.reported r.world, { r with reported := Snapshot.of r.world })

/-- What has been printed; it is handed over once. -/
def takePrinted (r : Run) : String × Run :=
  (r.world.printed, { r with world := { r.world with printed := "" } })

/-- Runs an act in a context. -/
def act (r : Run) (c : Context) (x : Act α) : Except Fault α × Run :=
  let (result, w) := x (environment c) r.world
  (result, { r with world := w })

/-- Names a value of a known origin. -/
def assign (r : Run) (name : Option String) (t : Term) (origin : Origin) : Run :=
  match name with
  | none => r
  | some s =>
    let w := r.world
    let births := match origin with
      | .made => Keyed.put s w.serial w.births
      | .named n => Keyed.put s n w.births
      | .found => Keyed.erase s w.births
    { r with world := { w with
        named := Keyed.put s t w.named
        births := births
        serial := w.serial + 1 } }

end Run

/-- Evaluates the arguments of a scope and opens it. -/
def openScope (name : String) (byPosition : List Expr) (byName : List (String × Expr)) :
    Act Entered := do
  let args ← evalAll .null byPosition
  let named ← evalNamed .null byName
  match scopes.lookup name with
  | some op => op.call args named
  | none => throw .missingPart

/-- The answer of a step that has come to its end. -/
def conclude (r : Run) (value : Option Term) (fault : Option Fault)
    (entered : Option (Option Changes × List Answer)) : Answer × Run :=
  let shown := value.map fun t => ⟨r.world.settle t, r.world⟩
  let (printed, r) := r.takePrinted
  let (changes, r) := r.report
  (.mk shown fault entered printed changes, r)

mutual
/-- Runs a step in a context. Answers also with the fault that leaves the enclosing body, if one does. -/
def runStep (c : Context) (r : Run) : Step → (Answer × Option Fault) × Run
  | .value expr name escapes =>
    match r.act c (eval .null expr) with
    | (.ok t, r) =>
      let r := r.assign name t (Origin.of r.world.births expr)
      let (answer, r) := conclude r (some t) none none
      ((answer, none), r)
    | (.error f, r) =>
      let (answer, r) := conclude r none (some f) none
      ((answer, if escapes then some f else none), r)
  | .scope opening args named name body escapes =>
    match r.act c (openScope opening args named) with
    | (.error f, r) =>
      let (answer, r) := conclude r none (some f) none
      ((answer, if escapes then some f else none), r)
    | (.ok entered, r) =>
      let origin := Origin.of r.world.births (.call opening none args named)
      let (changes, r) := (r.assign name entered.yields origin).report
      let ((answers, inner), r) := runSteps entered.context r body
      let (left, r) := r.act c (entered.leave inner)
      let fault := match left with
        | .error f => some f
        | .ok () => inner
      let value := if fault.isNone then some entered.yields else none
      let (answer, r) := conclude r value fault (some (changes, answers))
      ((answer, if escapes then fault else none), r)
/-- Runs steps until one lets its fault escape. -/
def runSteps (c : Context) (r : Run) : List Step → (List Answer × Option Fault) × Run
  | [] => (([], none), r)
  | s :: ss =>
    match runStep c r s with
    | ((answer, some f), r) => (([answer], some f), r)
    | ((answer, none), r) =>
      let ((answers, f), r) := runSteps c r ss
      ((answer :: answers, f), r)
end

/-- A script: its settings, whether it starts inside an ontology of its own, and its steps. -/
structure Program where
  settings : Settings
  withOntology : Bool
  steps : List Step

/-- The ontology that a script can start with. -/
def startOntology : Act Term :=
  Creation.create (.text "http://example.org/test") (.text "test:") .null .null .null .null

/-- The context and the state in which a script starts. -/
def start (p : Program) : Context × Run :=
  let w := World.initial p.settings
  let c := Context.outermost
  if p.withOntology then
    match startOntology (environment c) w with
    | (.ok t, w) =>
      let w := { w with named := [("onto", t)] }
      ({ c with ontology := t }, ⟨w, Snapshot.of w⟩)
    | (.error _, w) => (c, ⟨w, Snapshot.of w⟩)
  else (c, ⟨w, Snapshot.of w⟩)

/-- **Runs a script**: the answers of its steps, and the world in the end. -/
def run (p : Program) : List Answer × World :=
  let (c, r) := start p
  let ((answers, _), r) := runSteps c r p.steps
  (answers, r.world)

end Authoring.Script
