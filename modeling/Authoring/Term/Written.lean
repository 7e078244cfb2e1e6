import Authoring.Term

/-!
# The written forms of a term

* `Term.inspect` is how messages show a term: every part is named, and texts are quoted.
* `Term.display` is how a term stands inside another text, such as a name or a message that needs no quotes: a
  text is its own content, and a term with no shorter form is inspected.
* `Term.written` is how a value of the domain is listed: `subclass_of(class<..> class<..>)`. It is also the form
  in which axioms are reported. The members of a set come in the order of their texts.
* `Term.plain` is how a map is listed, and all that is in it: by brackets, commas and quoted texts.

Some of these show an ontology with the number of its axioms, which changes. So they take a `Naming` of the
handles, which the world provides.
-/

namespace Authoring

/-- Texts in the order of their code points. -/
def sortTexts (ss : List String) : List String := ss.mergeSort fun a b => !(b < a)

/-- How the handles are shown in messages, and how they stand inside other texts. -/
structure Naming where
  inspect : Handle → String
  display : Handle → String
  deriving Inhabited

namespace Term

/-- An IRI as messages show it. -/
def inspectIri (s : String) : String := "rdflib.term.URIRef(" ++ Text.quote s ++ ")"

def inspectKeyword (k : Keyword) : String :=
  "<" ++ k.qualified ++ ": " ++ Text.quote k.word ++ ">"

def inspectEntity (e : Entity) : String :=
  "Entity(kind=" ++ inspectKeyword (.entityKind e.kind) ++ ", iri=" ++ inspectIri e.iri ++ ")"

/-- Several inspected terms in parentheses; a single one is followed by a comma. -/
def inTuple : List String → String
  | [s] => "(" ++ s ++ ",)"
  | ss => "(" ++ ", ".intercalate ss ++ ")"

def inSet (frozen : Bool) (ss : List String) : String :=
  match frozen, ss with
  | true, [] => "frozenset()"
  | false, [] => "set()"
  | true, ss => "frozenset(\x7b" ++ ", ".intercalate ss ++ "\x7d)"
  | false, ss => "\x7b" ++ ", ".intercalate ss ++ "\x7d"

def inspectBool (b : Bool) : String := if b then "True" else "False"

def inspectStats (s : Stats) : String :=
  "OntologyStats(total_classes=" ++ toString s.classes ++
    ", total_object_properties=" ++ toString s.objectProperties ++
    ", total_annotation_properties=" ++ toString s.annotationProperties ++
    ", total_individuals=" ++ toString s.individuals ++
    ", total_axioms=" ++ toString s.axioms ++ ", total_imports=" ++ toString s.imports ++ ")"

def inspectSettings (s : Settings) : String :=
  "AuthoringSettings(annotation_language=" ++ Text.quote s.language ++
    ", iri_separator=" ++ Text.quote s.separator ++ ")"

def displaySettings (s : Settings) : String :=
  "annotation_language=" ++ Text.quote s.language ++ " iri_separator=" ++ Text.quote s.separator

section
variable (names : Naming)

mutual
/-- A term as messages show it. -/
def inspect : Term → String
  | .null => "None"
  | .bool b => inspectBool b
  | .int n => toString n
  | .float x => x.toText
  | .text s => Text.quote s
  | .iri s => inspectIri s
  | .literal l => l.inspect
  | .keyword k => inspectKeyword k
  | .entity _ e => inspectEntity e
  | .expression o ts c =>
    "ClassExpression(operator=" ++ o.inspect ++ ", operands=" ++
      inTuple (inspectAll ts) ++ ", cardinality=" ++ c.inspect ++ ")"
  | .note p l => "Annotation(property=" ++ p.inspect ++ ", value=" ++ l.inspect ++ ")"
  | .fact p t b =>
    "Fact(property=" ++ p.inspect ++ ", target=" ++ t.inspect ++ ", negated=" ++ inspectBool b ++ ")"
  | .statement k ts =>
    "Axiom(kind=" ++ inspectKeyword (.axiomKind k) ++ ", operands=" ++ inTuple (inspectAll ts) ++ ")"
  | .tuple ts => inTuple (inspectAll ts)
  | .list ts => "[" ++ ", ".intercalate (inspectAll ts) ++ "]"
  | .set frozen ts => inSet frozen (inspectAll ts)
  | .map es => "\x7b" ++ ", ".intercalate (inspectEntries es) ++ "\x7d"
  | .handle h => names.inspect h
  | .closure .. => "<producer>"
  | .naming .. => "<naming>"
  | .hook s _ => "<hook " ++ s ++ ">"
  | .stats s => inspectStats s
  | .settings s => inspectSettings s
  | .listing _ => "<graph>"
def inspectAll : List Term → List String
  | [] => []
  | t :: ts => t.inspect :: inspectAll ts
def inspectEntries : List (Term × Term) → List String
  | [] => []
  | e :: es => inspectEntry e :: inspectEntries es
def inspectEntry : Term × Term → String
  | (k, v) => k.inspect ++ ": " ++ v.inspect
end

/-- A term as it stands inside another text. -/
def display : Term → String
  | .text s => s
  | .iri s => s
  | .literal l => l.text
  | .keyword k => k.qualified
  | .entity _ e => e.text
  | .handle h => names.display h
  | .settings s => displaySettings s
  | t => t.inspect names

/-! ## Listed values -/

/-- A key of a listed map, before it is quoted. -/
def plainKey : Term → String
  | .null => "null"
  | .bool b => if b then "true" else "false"
  | .int n => toString n
  | .float x => x.listed
  | t => t.content?.getD ""

mutual
/-- A map as it is listed, and what it holds. -/
def plain : Term → String
  | .null => "null"
  | .bool b => if b then "true" else "false"
  | .int n => toString n
  | .float x => x.listed
  | .text s => Text.quoteDouble s
  | .iri s => Text.quoteDouble s
  | .literal l => Text.quoteDouble l.text
  | .keyword k => Text.quoteDouble k.word
  | .tuple ts => "[" ++ ", ".intercalate (plainAll ts) ++ "]"
  | .list ts => "[" ++ ", ".intercalate (plainAll ts) ++ "]"
  | .map es => "\x7b" ++ ", ".intercalate (plainEntries es) ++ "\x7d"
  | _ => "null"
def plainAll : List Term → List String
  | [] => []
  | t :: ts => t.plain :: plainAll ts
def plainEntries : List (Term × Term) → List String
  | [] => []
  | e :: es => plainEntry e :: plainEntries es
def plainEntry : Term × Term → String
  | (k, v) => Text.quoteDouble (plainKey k) ++ ": " ++ v.plain
end

mutual
/-- A term as a value of the domain is listed. -/
def written : Term → String
  | .entity _ e => e.text
  | .iri s => "<" ++ s ++ ">"
  | .literal l => l.written
  | .expression o ts c =>
    let number := match c with
      | .null => ""
      | c => "[" ++ c.display names ++ "]"
    o.content?.getD (o.display names) ++ number ++ "(" ++ " ".intercalate (writtenAll ts) ++ ")"
  | .note p l => "annotation(" ++ p.written ++ " " ++ l.written ++ ")"
  | .fact p t b => (if b then "fact_not(" else "fact(") ++ p.written ++ " " ++ t.written ++ ")"
  | .statement k ts => k.word ++ "(" ++ " ".intercalate (writtenAll ts) ++ ")"
  | .tuple ts => "(" ++ " ".intercalate (writtenAll ts) ++ ")"
  | .list ts => "(" ++ " ".intercalate (writtenAll ts) ++ ")"
  | .set _ ts => "\x7b" ++ ", ".intercalate (sortTexts (writtenAll ts)) ++ "\x7d"
  | .closure .. => "<producer>"
  | t => t.plain
def writtenAll : List Term → List String
  | [] => []
  | t :: ts => t.written :: writtenAll ts
end

end

/-- A text stands for itself. -/
theorem display_text (names : Naming) (s : String) : display names (.text s) = s := rfl

end Term

end Authoring
