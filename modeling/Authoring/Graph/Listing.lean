import Authoring.Graph.Abbreviation
import Authoring.Graph.Draw

/-!
# Listing a graph

A graph as lines of text: one line for each triple whose subject is an IRI, and one for each blank node that
is the object of no triple. A blank node is written by what it stands for: as the list that it heads, if it
heads a well-formed one, and else as the predicates and objects of its triples. In the graph of an ontology
blank nodes form trees, so this ends; the number of triples bounds the depth.
-/

namespace Authoring

namespace Graph

open Vocabulary

/-- The items of the list that a node heads. A well-formed list has one first and one rest in each cell, and
nothing else, and ends in nil. -/
def listItems? (g : Graph) : Nat → Node → Option (List Node)
  | 0, _ => none
  | fuel + 1, n =>
    match g.about n with
    | [a, b] =>
      let cell :=
        if a.predicate == rdf "first" && b.predicate == rdf "rest" then some (a.object, b.object)
        else if a.predicate == rdf "rest" && b.predicate == rdf "first" then some (b.object, a.object)
        else none
      match cell with
      | none => none
      | some (item, rest) =>
        if rest == .iri (rdf "nil") then some [item]
        else (g.listItems? fuel rest).map (item :: ·)
    | _ => none

/-- The text of a node. -/
def nodeText (g : Graph) : Nat → Node → String
  | _, .iri s => "<" ++ s ++ ">"
  | _, .literal l => l.written
  | 0, .blank _ => "[]"
  | fuel + 1, .blank id =>
    match g.listItems? (g.triples.length + 1) (.blank id) with
    | some items => "(" ++ " ".intercalate (items.map (g.nodeText fuel)) ++ ")"
    | none =>
      let parts := (g.about (.blank id)).map fun t =>
        "<" ++ t.predicate ++ "> " ++ g.nodeText fuel t.object
      "[" ++ "; ".intercalate (sortTexts parts) ++ "]"

/-- The line of a triple, if its subject is an IRI. -/
def tripleLine? (g : Graph) (t : Triple) : Option String :=
  match t.subject with
  | .iri s =>
    some ("<" ++ s ++ "> <" ++ t.predicate ++ "> " ++ g.nodeText (g.triples.length + 1) t.object)
  | _ => none

/-- The blank nodes that no triple leads to. -/
def roots (g : Graph) : List Node :=
  ((g.triples.map (·.subject)).filter fun n =>
    match n with
    | .blank _ => !g.isObject n
    | _ => false).eraseDups

/-- The lines of a graph, in order. -/
def lines (g : Graph) : List String :=
  sortTexts (g.triples.filterMap g.tripleLine? ++ g.roots.map (g.nodeText (g.triples.length + 1)))

/-- The prefixes of the graph of an ontology: the standard ones and that of the ontology for its own
namespace, without the colons at its end. -/
def abbreviations (o : Ontology) : Except Fault Abbreviation.Table :=
  if o.abbreviation.isTruthy then
    match o.abbreviation.content? with
    | none => .error .missingPart
    | some s =>
      let stem := String.ofList (s.toList.reverse.dropWhile (· == ':')).reverse
      Abbreviation.bind Abbreviation.standard stem (o.iri ++ "#")
  else .ok Abbreviation.standard

/-- **The listing of an ontology's graph.** -/
def list (w : World) (o : Ontology) : Except Fault Listing := do
  let table ← abbreviations o
  let g ← ofOntology w o
  return ⟨g.triples.length, g.lines, Abbreviation.prefixOf table (o.iri ++ "#")⟩

end Graph

end Authoring
