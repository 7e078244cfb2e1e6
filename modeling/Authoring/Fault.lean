import Authoring.Term.Written

/-!
# Faults

What can go wrong, by cause. A fault keeps the term that it is about, and with it the form in which messages
show that term: this form can depend on the world at the time of the fault.

`Fault.message?` words a fault. The faults at the end of the list have no wording of their own: they report
that a term was used where its like cannot be, and nothing more is said about them.
-/

namespace Authoring

/-- The parts of the description of a new ontology. -/
inductive ConfigField where
  | iri
  | abbreviation
  | naming
  | comment
  | versionInfo
  | note
  deriving DecidableEq, Repr, Inhabited

/-- How a part of a description can be unfit. -/
inductive Violation where
  | notText
  | emptyText
  | notCallable
  | notList
  deriving DecidableEq, Repr, Inhabited

/-- Why a store refuses a change. -/
inductive Rejection where
  | unmanaged (shown : String)
  | notAxiom (shown : String)
  | notANote (shown : String)
  | notDrawable (shown : String)
  deriving DecidableEq, Repr, Inhabited

namespace Rejection

def message : Rejection → String
  | .unmanaged s => "Ontology is not managed by this store: " ++ s
  | .notAxiom s => "Not an axiom: " ++ s
  | .notANote s => "Not an annotation: " ++ s
  | .notDrawable s => "Cannot render " ++ s ++ " as RDF"

end Rejection

/-- Values that an operation cannot take although they are of the right sort. -/
inductive BadValue where
  | language (shown : String)
  | entityKind (shown : String)
  | negativeCardinality (shown : String)
  | fillerCount (count : Nat)
  | noMembers (operator : Operator)
  | tooFew (expected count : Nat)
  | tooMany (expected : Nat)
  deriving DecidableEq, Repr, Inhabited

namespace BadValue

def message : BadValue → String
  | .language s => "'" ++ s ++ "' is not a valid language tag!"
  | .entityKind s => s ++ " is not a valid EntityKind"
  | .negativeCardinality s => "Cardinality must not be negative: " ++ s
  | .fillerCount n => "Expecting exactly one class, got " ++ toString n
  | .noMembers .oneOf => "oneof must have at least one individual"
  | .noMembers o => "owl" ++ o.word ++ " must have at least one class"
  | .tooFew e n =>
    "not enough values to unpack (expected " ++ toString e ++ ", got " ++ toString n ++ ")"
  | .tooMany e => "too many values to unpack (expected " ++ toString e ++ ")"

end BadValue

/-- The faults that a script can declare with a message of its own. -/
inductive Declared where
  | general
  | rejected
  | noCurrentOntology
  deriving DecidableEq, Repr, Inhabited

inductive Fault where
  /-- A reference does not denote what is expected. -/
  | invalidReference (expected : String) (value : Term) (shown : String)
  /-- A frame is not allowed for the kind of entity. -/
  | unknownFrame (tag : Term) (shown : String) (kind : Option String)
  | unknownCharacteristic (value : Term) (shown : String)
  /-- A scope of inverses did not collect two properties. -/
  | inverseArity (count : String)
  | rejected (reason : Rejection)
  /-- No ontology is bound, and the namespace has none. -/
  | noCurrentOntology (space : String)
  /-- Probes that could not be removed, each with its own fault. -/
  | probeCleanup (causes : List Fault)
  | invalidConfig (problems : List (ConfigField × Violation))
  | runtime (message : String)
  | declared (which : Declared) (message : String)
  | badValue (cause : BadValue)
  | missingKey (shown : String)
  /-- Only an entity can be refined. -/
  | notAnEntity (shown : String)
  /-- The term has no such part. -/
  | missingPart
  /-- The term is not of the sort that the operation takes, or the arguments do not fit. -/
  | wrongSort
  /-- The term is no node of a graph. -/
  | notANode
  /-- A sequence has no item of that number. -/
  | outOfRange
  /-- Calls are nested too deeply. -/
  | tooDeep
  deriving Inhabited

namespace Fault

mutual
/-- The wording of a fault, if it has one. A clean-up fault has one if all its causes do. -/
def message? : Fault → Option String
  | .invalidReference expected _ shown => some ("Expecting " ++ expected ++ ". Got: " ++ shown)
  | .unknownFrame _ shown (some kind) => some ("Unknown frame for " ++ kind ++ ": " ++ shown)
  | .unknownFrame _ shown none => some ("Unknown frame: " ++ shown)
  | .unknownCharacteristic _ shown => some ("Characteristic is not recognised: " ++ shown)
  | .inverseArity n => some ("Can only have two properties in as_inverse, got " ++ n)
  | .rejected r => some r.message
  | .noCurrentOntology s => some ("Current ontology has not been set for namespace " ++ s)
  | .probeCleanup fs =>
    (messages? fs).map fun ms =>
      toString fs.length ++ " probe cleanup failure(s): " ++ "; ".intercalate ms
  | .runtime s => some s
  | .declared _ s => some s
  | .badValue c => some c.message
  | .missingKey s => some s
  | .notAnEntity s => some ("refine expects an entity, got " ++ s)
  | .invalidConfig _ | .missingPart | .wrongSort | .notANode | .outOfRange | .tooDeep => none
def messages? : List Fault → Option (List String)
  | [] => some []
  | f :: fs => f.message?.bind fun m => (messages? fs).map (m :: ·)
end

end Fault

end Authoring
