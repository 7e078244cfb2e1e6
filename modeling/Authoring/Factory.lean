import Authoring.Act

/-!
# Making values

Entities, literals, annotations and class expressions from what a script gives for their parts. A factory is
known by its number, and every entity carries the number of its maker; the shared factory is number zero.

Making a value adds nothing to any ontology.
-/

namespace Authoring.Factory

open Act

/-- The factory that all operations use unless they are given another. -/
def shared : Nat := 0

/-! ## Entities -/

/-- The entity of a kind and an IRI. -/
def entity (maker : Nat) (kind : EntityKind) (iri : Term) : Act Term := do
  return .entity maker ⟨kind, ← display iri⟩

/-- The kind that a term denotes: a kind itself, or its word. -/
def kindOf? (t : Term) : Option EntityKind := EntityKind.all.find? fun k => t == .text k.word

/-- The entity of a kind that is given as a term. -/
def entityOf (maker : Nat) (kind iri : Term) : Act Term := do
  match kindOf? kind with
  | some k => entity maker k iri
  | none => throw (.badValue (.entityKind (← inspect kind)))

/-- A class of the OWL vocabulary. -/
def owlClass (maker : Nat) (name : String) : Term := .entity maker ⟨.cls, Vocabulary.owl name⟩

def owlProperty (maker : Nat) (name : String) : Term :=
  .entity maker ⟨.annotationProperty, Vocabulary.owl name⟩

def rdfsProperty (maker : Nat) (name : String) : Term :=
  .entity maker ⟨.annotationProperty, Vocabulary.rdfs name⟩

def thing (maker : Nat) : Term := owlClass maker "Thing"

def nothing (maker : Nat) : Term := owlClass maker "Nothing"

def label (maker : Nat) : Term := rdfsProperty maker "label"

def comment (maker : Nat) : Term := rdfsProperty maker "comment"

def isDefinedBy (maker : Nat) : Term := rdfsProperty maker "isDefinedBy"

def seeAlso (maker : Nat) : Term := rdfsProperty maker "seeAlso"

def versionInfo (maker : Nat) : Term := owlProperty maker "versionInfo"

def backwardCompatibleWith (maker : Nat) : Term := owlProperty maker "backwardCompatibleWith"

def incompatibleWith (maker : Nat) : Term := owlProperty maker "incompatibleWith"

/-! ## Literals and annotations -/

/-- The language that a term gives: none for null and for the empty text, but an empty IRI or literal is no
language. -/
def languageOf (t : Term) : Act (Option Language) := do
  match t with
  | .null | .text "" => return none
  | t =>
    match t.content? with
    | none => throw .wrongSort
    | some s =>
      if Literal.isLanguage s then return some ⟨s, ← display t, ← inspect t⟩
      else throw (.badValue (.language (← display t)))

/-- The literal of a value. Numbers and truth values have datatypes of their own and no language; everything
else is the text that it is displayed as. The language is checked in every case. -/
def literal (value language : Term) : Act Literal := do
  let tag ← languageOf language
  match value with
  | .bool b => return ⟨if b then "true" else "false", none, some (Vocabulary.xsd "boolean")⟩
  | .int n => return ⟨toString n, none, some (Vocabulary.xsd "integer")⟩
  | .float x => return ⟨x.toText, none, some (Vocabulary.xsd "double")⟩
  | t => return ⟨← display t, tag, none⟩

/-- An annotation along a property. A literal is taken as it is; any other value is made one. -/
def note (property value language : Term) : Act Note := do
  match value with
  | .literal l => return ⟨property, l⟩
  | t => return ⟨property, ← literal t language⟩

/-! ## Class expressions -/

/-- Whether the operands of what is given as an operator form one set. -/
def takesSet (operator : Term) : Bool :=
  Operator.all.any fun o => o.takesSet && operator == .ofOperator o

theorem takesSet_ofOperator (o : Operator) : takesSet (.ofOperator o) = o.takesSet := by
  cases o <;> decide

/-- A class expression whose operator is given as a term. It need not be one of the operators. -/
def expressionOf (operator : Term) (operands : List Term) (cardinality : Term) : Act Term := do
  requireFindable operator
  if takesSet operator then return .expression operator [← setOf true operands] cardinality
  else return .expression operator operands cardinality

/-- A class expression. The operators on sets hold their operands as one set. -/
def expression (o : Operator) (operands : List Term) (cardinality : Term) : Act Term :=
  expressionOf (.ofOperator o) operands cardinality

/-! ## Axioms over sets -/

/-- The items of a term as members of a symmetric axiom. -/
def membersOf (t : Term) : Act (List Term) := do
  let ts ← itemsOf t
  ts.forM requireStable
  return ts

end Authoring.Factory
