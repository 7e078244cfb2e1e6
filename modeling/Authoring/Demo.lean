import Authoring.Creation
import Authoring.Graph.Listing
import Authoring.Hierarchy
import Authoring.Probe

/-!
# A demonstration

A small ontology of pizzas, built with frames and group scopes, then queried, and probed. It prints what it
does, and what it has printed counts only once it has come to its end: a part that fails prints nothing. The
ancestors of a class are computed but not printed, for they come in no fixed order.
-/

namespace Authoring.Demo

open Act

/-- Prints a line. -/
def print (s : String) : Act Unit := modify fun w => { w with printed := w.printed ++ s ++ "\n" }

/-- A heading between two rules. -/
def heading (lead title : String) : Act Unit := do
  let rule := String.ofList (List.replicate 70 '=')
  print (lead ++ rule)
  print title
  print rule

/-- Runs a part of the demonstration. If it fails, what it has printed is taken back. -/
def part (body : Act α) : Act α := do
  let before := (← get).printed
  try body
  catch e =>
    modify fun w => { w with printed := before }
    throw e

/-- A class of the current ontology with frames. -/
def owlClass (name : String) (frames : List (String × Term) := []) : Act Term :=
  Builder.owlClass (.text name) .null .null frames

/-- An entity of the current ontology with frames. -/
def entity (kind : EntityKind) (name : String) (frames : List (String × Term)) : Act Term :=
  Builder.ofKind kind (.text name) .null .null frames

/-- Declares the hierarchy of pizzas; answers with the pizza and two of its toppings. -/
def classesAndGroups : Act Term := part do
  heading "" "1. CLASSES AND GROUPS"
  let german ← Expression.note (Factory.label Factory.shared) (.text "Essen") (.text "de")
  let food ← owlClass "Food" [("label", .list [.text "Food", german])]
  let hasTopping ← Scope.run (Scope.asInverse .null) fun _ => do
    let p ← entity .objectProperty "hasTopping"
      [("domain", .text "Pizza"), ("characteristic", .text "inversefunctional")]
    let _ ← entity .objectProperty "isToppingOf" []
    return p
  print "✓ hasTopping and isToppingOf declared as inverses"
  let topping ← owlClass "PizzaTopping" [("subclass", food)]
  let (cheese, tomato) ← Scope.run (Scope.withSuffix (.text "Topping")) fun _ =>
    Scope.run (Scope.asSubclasses topping (.bool true) (.bool true) .null) fun _ => do
      let cheese ← owlClass "Cheese"
      let tomato ← owlClass "Tomato"
      let _ ← owlClass "Ham"
      return (cheese, tomato)
  print "✓ Toppings declared as disjoint, covering subclasses of PizzaTopping"
  let pizza ← Scope.run (Scope.asDisjoint .null) fun _ => do
    let topped ← Expression.some hasTopping [topping]
    let pizza ← owlClass "Pizza" [("subclass", .list [food, topped])]
    let _ ← owlClass "PizzaBase" [("subclass", food)]
    return pizza
  let closed ← Expression.someOnly hasTopping [cheese, tomato]
  let note ← Expression.note (Factory.comment Factory.shared) (.text "Cheese and tomato only") .null
  let _ ← owlClass "Margherita" [("subclass", .list [pizza, closed]), ("comment", note)]
  print "✓ Margherita declared with a closure restriction"
  let topped := Expression.fact false (.text "hasTopping") (.text "someMozzarella")
  let _ ← entity .individual "myDinner" [("type", .text "Margherita"), ("fact", topped)]
  let _ ← entity .individual "someMozzarella" [("type", cheese)]
  return .tuple [pizza, cheese, tomato]

/-- Queries the asserted hierarchy, and probes it. -/
def queries (pizza cheese tomato : Term) : Act Term := part do
  heading "\n" "2. HIERARCHY QUERIES"
  let margherita ← owlClass "Margherita"
  let _ ← Hierarchy.closure .up margherita .null
  let isPizza ← Hierarchy.reaches .up margherita pizza .null
  print ("Margherita is a Pizza: " ++ Term.inspectBool isPizza)
  let apart ← Hierarchy.isDisjoint cheese tomato .null
  print ("Cheese and Tomato disjoint: " ++ Term.inspectBool apart)
  let probe : Probe.Binding := return (.text "probe", fun _ => owlClass "ProbePizza" [("subclass", margherita)])
  Scope.run (Probe.withEntities [probe] .null) fun bound => do
    let es ← entriesOf bound
    let isPizza ← Hierarchy.reaches .up ((es.lookup (.text "probe")).getD .null) pizza .null
    print ("Probe is a Pizza: " ++ Term.inspectBool isPizza)
  print "✓ Probe removed again"
  return .null

/-- **The whole demonstration**, in a namespace and an ontology of its own. -/
def tour : Act Term := part do
  heading "" "FRAME-BASED AUTHORING DEMO"
  Scope.run (Scope.inNamespace (.text "pizza")) fun _ => do
    let onto ← Creation.define (.text "http://example.org/pizza") .null (.text "pizza:") .null
      (.text "Demo pizza ontology") .null .null
    match ← classesAndGroups with
    | .tuple [pizza, cheese, tomato] => let _ ← queries pizza cheese tomato
    | _ => pure ()
    let s ← Query.stats onto
    print ("\n📊 " ++ toString s.classes ++ " classes, " ++ toString s.objectProperties ++
      " properties, " ++ toString s.individuals ++ " individuals, " ++ toString s.axioms ++ " axioms")
    let o ← Query.current onto
    let _ ← liftExcept (Graph.list (← get) o)
    return .null

end Authoring.Demo
