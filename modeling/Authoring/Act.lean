import Authoring.Fault
import Authoring.World

/-!
# Acts

An act is a step of the authoring language: it reads the environment, may change the world, and answers with
a value or a fault. A fault does not undo what was changed before it.

The environment holds the context and the meaning of delayed expressions. An act knows a delayed expression
only as something that can be evaluated (`Env.eval`), so a law about acts holds whatever delayed expressions
do, or for all of which something is assumed. `Env.depth` bounds the nesting of calls.

The acts of this module read the parts of terms that other acts need, and call what can be called.
-/

namespace Authoring

/-- What an evaluation does in a context. -/
abbrev Effect (α : Type) := Context → World → Except Fault α × World

structure Env where
  context : Context
  /-- How deeply calls may still nest. -/
  depth : Nat
  /-- The meaning of an expression, given the mapping that is bound where it stands. -/
  eval : Expr → Term → Effect Term

abbrev Act := ReaderT Env (ExceptT Fault (StateM World))

namespace Act

/-- The act that has a given effect. -/
def ofEffect (f : Effect α) : Act α := fun env w => f env.context w

def context : Act Context := do return (← read).context

/-- Runs an act in a changed context. -/
def within (f : Context → Context) (x : Act α) : Act α := fun env w =>
  x { env with context := f env.context } w

/-- Runs an act and keeps its fault, if it has one, as a value. -/
def attempt (x : Act α) : Act (Except Fault α) := fun env w =>
  let (r, w') := x env w
  (.ok r, w')

/-! ## Terms as they are now -/

/-- A term with its windows replaced by what they hold now. -/
def settle (t : Term) : Act Term := do return (← get).settle t

/-- The leaves of nested lists and tuples, and of the windows among them. -/
def leaves (ts : List Term) : Act (List Term) := do
  let w ← get
  return Term.flattenAll (ts.map w.spread)

/-- Whether a term counts as true now. -/
def isTruthy (t : Term) : Act Bool := do return (← settle t).isTruthy

/-- What the first term answers when asked about the second. -/
def equals (t u : Term) : Act Bool := do return (← settle t).equals (← settle u)

def inspect (t : Term) : Act String := do return (← settle t).inspect (← get).names

def display (t : Term) : Act String := do return (← settle t).display (← get).names

/-- How a message names what is expected: a keyword by its word, what has a literal by that literal, and a
literal by its text, which is null for a datatype that only names the text. -/
def expectedName : Term → Act String
  | .keyword k => pure k.word
  | .note _ l => pure l.text
  | .literal l =>
    match l.datatype with
    | none => pure l.text
    | some d => display (if d == Vocabulary.xsd "string" then .text l.text else .null)
  | t => display t

/-- The fault of a reference that is not what is expected. -/
def refuse (expected : String) (value : Term) : Act α := do
  throw (.invalidReference expected value (← inspect value))

/-! ## The parts of terms -/

/-- The ontology that a term is. -/
def asOntology : Term → Act Nat
  | .handle (.ontology id) => pure id
  | _ => throw .missingPart

/-- The IRI of an entity or of an ontology; nothing else has one. -/
def iriOf : Term → Act String
  | .entity _ e => pure e.iri
  | .handle (.ontology id) => do return ((← get).ontology id).iri
  | _ => throw .missingPart

/-- The kind of an entity or of an axiom; nothing else has one. -/
def kindOf : Term → Act Keyword
  | .entity _ e => pure (.entityKind e.kind)
  | .statement k _ => pure (.axiomKind k)
  | _ => throw .missingPart

/-- The kind of an entity; an axiom has a kind too, but none that counts. -/
def entityKindOf (t : Term) : Act EntityKind := do
  match ← kindOf t with
  | .entityKind k => return k
  | k => throw (.missingKey k.qualified)

/-- The entries of a map. What is empty or null counts as an empty map. -/
def entriesOf (t : Term) : Act (List (Term × Term)) := do
  match t with
  | .map es => return es
  | t => if ← isTruthy t then throw .missingPart else return []

/-- Frames as they are written, given one by one: no value holds a window in the place of a list. -/
def framesOf (es : List (Term × Term)) : Act (List (Term × Term)) := do
  let w ← get
  return es.map fun e => (e.1, w.spread e.2)

/-- A part of a record, under its name. -/
def field (name : String) (value : Term) : Term := .tuple [.text name, value]

/-- The items of a term that can be gone through: those of a container, the keys of a map, the named parts of
settings and options, the characters of a text. -/
def itemsOf : Term → Act (List Term)
  | .tuple ts | .list ts | .set _ ts => pure ts
  | .map es => pure (es.map (·.1))
  | .settings s =>
    pure [field "annotation_language" (.text s.language), field "iri_separator" (.text s.separator)]
  | .handle (.options id) => do return [field "iri_gen" ((← get).namingOf id)]
  | .handle (.window id) => do return (← get).window id
  | t =>
    match t.content? with
    | some s => pure (s.toList.map fun c => .text (String.singleton c))
    | none => throw .wrongSort

/-- The two items of a term that is taken apart into two. -/
def pairOf (t : Term) : Act (Term × Term) := do
  match ← itemsOf t with
  | [a, b] => return (a, b)
  | [] => throw (.badValue (.tooFew 2 0))
  | [_] => throw (.badValue (.tooFew 2 1))
  | _ => throw (.badValue (.tooMany 2))

/-- Fails for a term that can be no member of a set. -/
def requireStable (t : Term) : Act Unit := if t.isStable then pure () else throw .wrongSort

/-- Fails for a term that cannot be looked for in a set. A set that can change can be looked for, although it
can be no member: its members are compared. -/
def requireFindable : Term → Act Unit
  | .set .. => pure ()
  | t => requireStable t

/-- The fixed set of the given terms. -/
def setOf (frozen : Bool) (ts : List Term) : Act Term := do
  ts.forM requireStable
  return Term.setOf frozen ts

/-- Whether a term occurs in a container, or a text in a text. -/
def contains (container t : Term) : Act Bool := do
  let t ← settle t
  match ← settle container with
  | .set _ ts => requireFindable t; return ts.contains t
  | .map es => requireStable t; return (Keyed.keys es).contains t
  | c =>
    match c.content?, t.content? with
    | some whole, some part => return part == "" || (whole.splitOn part).length != 1
    | some _, none => throw .wrongSort
    | none, _ => return (← itemsOf c).any fun s => s.agrees false false t

/-! ## Calls -/

/-- What a naming function makes of a name. -/
def applyNaming (rule : NamingRule) (name : Term) : Act Term := do
  match rule.fails with
  | some message => throw (.runtime message)
  | none => pure ()
  match name.content? with
  | none => throw .wrongSort
  | some s =>
    let middle := if rule.reversed then String.ofList s.toList.reverse else s
    let whole := rule.lead ++ middle ++ rule.trail
    return if rule.asIri then .iri whole else .text whole

/-- What a remove hook of a script does: it logs the ontology, and fails if it is to. -/
def runHook (name : String) (fails : Bool) (removed : Term) : Act Term := do
  let id ← asOntology removed
  let o := (← get).ontology id
  let entry := name ++ ":" ++ o.iri ++ ":" ++ toString o.axioms.length
  modify fun w => { w with log := w.log ++ [entry] }
  if fails then throw (.runtime ("hook " ++ name)) else return .null

/-- The value of a delayed expression. -/
def evaluate (body : Expr) (bound : Term) : Act Term := do ofEffect ((← read).eval body bound)

/-- Calls a term with arguments. A delayed expression takes none, or the mapping to evaluate it in; the other
callables take one argument. -/
def invoke (callee : Term) (args : List Term) : Act Term :=
  match callee, args with
  | .closure _ 0 body bound, [] => evaluate body bound
  | .closure _ 1 body _, [bound] => evaluate body bound
  | .naming _ rule, [name] => applyNaming rule name
  | .hook name fails, [removed] => runHook name fails removed
  | _, _ => throw .wrongSort

end Act

end Authoring
