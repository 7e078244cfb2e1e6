/-!
# Entities

A named entity is a kind together with an IRI. Two entities with the same kind and IRI are the same entity,
and the same IRI may name one entity of each kind.
-/

namespace Authoring

/-- The closed set of kinds of named entity. -/
inductive EntityKind where
  | cls
  | objectProperty
  | annotationProperty
  | individual
  deriving DecidableEq, Repr, Inhabited

namespace EntityKind

/-- The word for a kind, in texts and as a key. -/
def word : EntityKind → String
  | .cls => "class"
  | .objectProperty => "object_property"
  | .annotationProperty => "annotation_property"
  | .individual => "individual"

/-- The name of a kind as a member of the enumeration of kinds. -/
def memberName : EntityKind → String
  | .cls => "CLASS"
  | .objectProperty => "OBJECT_PROPERTY"
  | .annotationProperty => "ANNOTATION_PROPERTY"
  | .individual => "INDIVIDUAL"

def all : List EntityKind := [.cls, .objectProperty, .annotationProperty, .individual]

def ofWord? (s : String) : Option EntityKind := all.find? (·.word == s)

def code : EntityKind → Nat
  | .cls => 0
  | .objectProperty => 1
  | .annotationProperty => 2
  | .individual => 3

theorem mem_all (k : EntityKind) : k ∈ all := by cases k <;> decide

/-- A word names at most one kind. -/
theorem ofWord?_word (k : EntityKind) : ofWord? k.word = some k := by cases k <;> decide

theorem code_injective {a b : EntityKind} (h : a.code = b.code) : a = b := by
  cases a <;> cases b <;> simp_all [code]

end EntityKind

/-- A named entity: a class, an object property, an annotation property or an individual. -/
structure Entity where
  kind : EntityKind
  iri : String
  deriving DecidableEq, Repr, Inhabited

namespace Entity

/-- The part of a text after its last occurrence of a character, if it occurs. -/
def afterLast (c : Char) (s : List Char) : Option (List Char) :=
  if s.contains c then some (s.reverse.takeWhile (· != c)).reverse else none

/-- The local name: what follows the last hash, or else the last slash, of the IRI; all of it if it has
neither. -/
def localName (e : Entity) : String :=
  let s := e.iri.toList
  String.ofList (((afterLast '#' s).orElse fun _ => afterLast '/' s).getD s)

/-- The text of an entity: its kind, then its IRI as it stands between angle brackets. -/
def text (e : Entity) : String := e.kind.word ++ "<" ++ e.iri ++ ">"

end Entity

end Authoring
