import Authoring.Term

/-!
# Arguments

How the arguments of a call meet the parameters of an operation. Arguments are given by position or by name.
A parameter takes at most one of them, and one that is left over is in place only if the operation takes any
number more, by position or by name.
-/

namespace Authoring.Script

/-- A parameter: its name, and what it is if it is not given, unless it must be. -/
structure Parameter where
  name : String
  fallback : Option Term

/-- A parameter that must be given. -/
def needs (name : String) : Parameter := ⟨name, none⟩

/-- A parameter that is null if it is not given. -/
def takes (name : String) : Parameter := ⟨name, some .null⟩

structure Signature where
  /-- Parameters that cannot be given by name. -/
  unnamed : List Parameter
  /-- Parameters that can be given by position or by name. -/
  usual : List Parameter
  /-- Whether any number of further arguments can be given by position. -/
  more : Bool
  /-- Parameters that can be given only by name. -/
  named : List Parameter
  /-- Whether any number of further arguments can be given by name. -/
  others : Bool

/-- Arguments in the places of the parameters: one for each, then those that are left over. -/
structure Arguments where
  given : List Term
  rest : List Term
  others : List (String × Term)

namespace Signature

/-- The arguments of the parameters that take them by position, as far as these go, and the rest of them. A
parameter takes an argument by position or by name, but not both. -/
def fill (byName : List (String × Term)) (nameable : Bool) :
    List Parameter → List Term → Option (List Term × List Term)
  | [], ts => some ([], ts)
  | p :: ps, t :: ts =>
    if nameable && (byName.lookup p.name).isSome then none
    else (fill byName nameable ps ts).map fun r => (t :: r.1, r.2)
  | p :: ps, [] =>
    match (if nameable then byName.lookup p.name else none).or p.fallback with
    | none => none
    | some t => (fill byName nameable ps []).map fun r => (t :: r.1, r.2)

/-- Brings arguments into the places of the parameters, if they fit. -/
def fit (s : Signature) (byPosition : List Term) (byName : List (String × Term)) :
    Option Arguments := do
  let (first, left) ← fill byName false s.unnamed byPosition
  let (second, left) ← fill byName true s.usual left
  let (third, _) ← fill byName true s.named []
  let known := (s.usual ++ s.named).map (·.name)
  let others := byName.filter fun e => !known.contains e.1
  if (s.more || left.isEmpty) && (s.others || others.isEmpty) then
    some ⟨first ++ second ++ third, left, others⟩
  else none

end Signature

/-- The signature of parameters that can be given in either way. -/
def usually (ps : List Parameter) : Signature := ⟨[], ps, false, [], false⟩

/-- The signature of parameters followed by any number of arguments, and of parameters given by name. -/
def andMore (ps : List Parameter) (named : List Parameter := []) : Signature := ⟨[], ps, true, named, false⟩

end Authoring.Script
