import Authoring.Script.Catalogue
import Authoring.Script.Identity

/-!
# Evaluating expressions

The meaning of a script's expressions. Before a call its parts are evaluated from left to right: what the
operation is called on, which decides the operation, then the arguments by position, then those by name. In
the same way the entries of a map are made one after the other, so that a key that cannot be one is found
out before the next entry is evaluated.

Whether two values are one object is asked of the expressions too, and so it is answered here.

A delayed expression is not evaluated but wrapped up with the mapping that is bound where it stands. When it
is called, its body is evaluated one level deeper (`Script.meaning`), and the number of levels is limited: a
script can make a producer that produces itself.
-/

namespace Authoring.Script

open Act

/-- The number for a new callable. -/
def nextSerial : Act Nat := do
  let w ← get
  set { w with serial := w.serial + 1 }
  return w.serial

/-- A literal as a script writes it: a language and a datatype exclude each other. -/
def literalOf (text : String) (language datatype : Option String) : Act Term := do
  let language := language.filter (· != "")
  match language, datatype with
  | some _, some _ => throw .wrongSort
  | some g, none =>
    if Literal.isLanguage g then return .literal ⟨text, some (.ofText g), none⟩
    else throw (.badValue (.language g))
  | none, d => return .literal ⟨text, none, d⟩

/-- The remove hook of a name. A name stands for one hook throughout a script. -/
def hookOf (name : String) (fails : Bool) : Act Term := do
  let w ← get
  match w.hooks.lookup name with
  | some f => return .hook name f
  | none =>
    set { w with hooks := w.hooks ++ [(name, fails)] }
    return .hook name fails

/-- The value of a variable. -/
def variableOf (name : String) : Act Term := do
  match (← get).named.lookup name with
  | some t => return t
  | none => throw (.missingKey name)

/-- An entry of the mapping that is bound. -/
def boundOf (bound : Term) (name : String) : Act Term := do
  match bound with
  | .map es =>
    match es.lookup (.text name) with
    | some t => return t
    | none => throw (.missingKey name)
  | _ => throw .wrongSort

/-- The operation of a name. The name of an operation of a store or a factory has two parts, and it is the
subject of the call that decides what the second part means; without a subject the first part decides, and
the installed store or the shared factory is meant. -/
def operationOf (name : String) (subject : Option Term) : Act (Operation Term) := do
  let installed ← Current.store
  let found := match name.splitOn ".", subject with
    | [_, method], some (.handle (.store id)) => (storeOperations id).lookup method
    | [_, method], some (.handle (.factory id)) => (factoryOperations id).lookup method
    | [_, _], some _ => none
    | ["store", method], none => (storeOperations installed).lookup method
    | ["factory", method], none => (factoryOperations Factory.shared).lookup method
    | _, _ => general.lookup name
  match found with
  | some op => return op
  | none => throw .missingPart

/-- Whether the two arguments of a call are one object. -/
def areSame (births : List (String × Nat)) (exprs : List Expr) (terms : List Term) : Act Term := do
  match exprs, terms with
  | [d, e], [t, u] => return .bool (isSame (Origin.of births d) t (Origin.of births e) u)
  | _, _ => throw .wrongSort

section
variable (bound : Term)

mutual
/-- **The value of an expression**, given the mapping that is bound where it stands. -/
def eval : Expr → Act Term
  | .null => return .null
  | .bool b => return .bool b
  | .int n => return .int n
  | .float x => return .float x
  | .text s => return .text s
  | .iri s => return .iri s
  | .keyword k => return .keyword k
  | .entity kind iri => Factory.entityOf Factory.shared (.text kind) (.iri iri)
  | .literal text language datatype => literalOf text language datatype
  | .naming rule => do return .naming (← nextSerial) rule
  | .hook name fails => hookOf name fails
  | .list es => do return .list (← evalAll es)
  | .tuple es => do return .tuple (← evalAll es)
  | .frames es => do return .map (← evalEntries [] es)
  | .variable name => variableOf name
  | .bound name => boundOf bound name
  | .fail message => throw (.runtime message)
  | .producer body => do return .closure (← nextSerial) 0 body bound
  | .construct body => do return .closure (← nextSerial) 1 body bound
  | .call name subject byPosition byName => do
    let subject ← evalOption subject
    if name == "same_object" then
      let terms ← evalAll byPosition
      let named ← evalNamed byName
      areSame (← get).births (byPosition ++ byName.map (·.2)) (terms ++ named.map (·.2))
    else
      let operation ← operationOf name subject
      let terms ← evalAll byPosition
      operation.call terms (← evalNamed byName)
def evalAll : List Expr → Act (List Term)
  | [] => return []
  | e :: es => do
    let t ← eval e
    return t :: (← evalAll es)
def evalEntries (entries : List (Term × Term)) : List (Expr × Expr) → Act (List (Term × Term))
  | [] => return entries
  | e :: es => do
    let (key, value) ← evalEntry e
    requireStable key
    evalEntries (Keyed.put key value entries) es
def evalEntry : Expr × Expr → Act (Term × Term)
  | (k, v) => do
    let t ← eval k
    return (t, ← eval v)
def evalNamed : List (String × Expr) → Act (List (String × Term))
  | [] => return []
  | e :: es => do
    let t ← evalName e
    return t :: (← evalNamed es)
def evalName : String × Expr → Act (String × Term)
  | (s, e) => do return (s, ← eval e)
def evalOption : Option Expr → Act (Option Term)
  | none => return none
  | some e => do return some (← eval e)
end

end

/-- How deeply calls of delayed expressions may nest. -/
def depthLimit : Nat := 1000

/-- The meaning of an expression, down to a number of levels of delayed expressions. -/
def meaning : Nat → Expr → Term → Effect Term
  | 0, _, _ => fun _ w => (.error .tooDeep, w)
  | n + 1, e, bound => fun c w => eval bound e ⟨c, n, meaning n⟩ w

/-- The environment of a script in a context. -/
def environment (c : Context) : Env := ⟨c, depthLimit, meaning depthLimit⟩

end Authoring.Script
