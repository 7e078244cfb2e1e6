import Authoring.Reference

/-!
# Frame values

What is put into frames: class expressions, annotations and facts. The arguments of an expression are
references, given one by one, in lists or in nested lists, and nulls among them do not count.

A restriction along a property takes several fillers and then makes one expression for each. An intersection
or union of one class, however often it is given, is that class itself (`Expression.combine`), so there is no
intersection or union of fewer than two.
-/

namespace Authoring.Expression

open Act

/-- A single expression stands for itself, several for their list. -/
def oneOrMany : List Term → Term
  | [t] => t
  | ts => .list ts

/-- One restriction of a property for each filler. -/
def restrictEach (o : Operator) (property : Term) (fillers : List Term) : Act (List Term) := do
  let p ← Reference.resolveObjectProperty property .null
  (← leaves fillers).mapM fun t => do
    Factory.expression o [p, ← Reference.resolveClass t .null] .null

/-- The restrictions of a property to some member of each filler. -/
def some (property : Term) (fillers : List Term) : Act Term := do
  return oneOrMany (← restrictEach .some property fillers)

/-- The restrictions of a property to members of each filler only. -/
def only (property : Term) (fillers : List Term) : Act Term := do
  return oneOrMany (← restrictEach .only property fillers)

/-- An expression over the set of what is given; the one member itself if there is just one. -/
def combine (o : Operator) (members : List Term) : Act Term := do
  match members with
  | [] => throw (.badValue (.noMembers o))
  | t :: _ =>
    members.forM requireStable
    if members.eraseDups.length = 1 then return t
    else Factory.expression o members .null

/-- The intersection of classes. -/
def and (classes : List Term) : Act Term := do
  combine .and (← (← leaves classes).mapM fun t => Reference.resolveClass t .null)

/-- The union of classes. -/
def or (classes : List Term) : Act Term := do
  combine .or (← (← leaves classes).mapM fun t => Reference.resolveClass t .null)

/-- The restrictions to some of each filler, and to nothing but their union. -/
def someOnly (property : Term) (fillers : List Term) : Act Term := do
  let each ← some property fillers
  let each := match each with
    | .list ts => ts
    | t => [t]
  let closed ← only property [← or fillers]
  return .list (each ++ [closed])

/-- The one class among the arguments. -/
def singleFiller (classes : List Term) : Act Term := do
  match ← leaves classes with
  | [t] => Reference.resolveClass t .null
  | ts => throw (.badValue (.fillerCount ts.length))

/-- The complement of a class. -/
def not (classes : List Term) : Act Term := do
  Factory.expression .not [← singleFiller classes] .null

/-- Whether a number is negative; nothing but a number can be asked that. -/
def isNegative : Term → Act Bool
  | .bool _ => pure false
  | .int n => pure (n < 0)
  | .float x => pure x.isBelowZero
  | _ => throw .wrongSort

/-- A restriction of how many members of a class a property leads to. -/
def count (o : Operator) (cardinality property : Term) (classes : List Term) : Act Term := do
  if ← isNegative cardinality then
    throw (.badValue (.negativeCardinality (← display cardinality)))
  let p ← Reference.resolveObjectProperty property .null
  Factory.expression o [p, ← singleFiller classes] cardinality

/-- The class of the given individuals. -/
def oneOf (individuals : List Term) : Act Term := do
  let members ← (← leaves individuals).mapM fun t => Reference.resolveIndividual t .null
  match members with
  | [] => throw (.badValue (.noMembers .oneOf))
  | _ => Factory.expression .oneOf members .null

/-! ## Annotations and facts -/

/-- The language of an annotation: the one that is given, or else that of the settings. -/
def languageFor (value language : Term) : Act Term := do
  match language, value with
  | .null, .literal _ => return .null
  | .null, _ => return .text (← get).settings.language
  | t, _ => return t

/-- An annotation along an annotation property. -/
def note (property value language : Term) : Act Term := do
  let tag ← languageFor value language
  let p ← Reference.resolveAnnotationProperty property .null
  return (← Factory.note p value tag).toTerm

/-- A relation of an individual, yet to be named, to a target; or the lack of it. -/
def fact (negated : Bool) (property target : Term) : Term := .fact property target negated

end Authoring.Expression
