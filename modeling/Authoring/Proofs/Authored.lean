import Authoring.Proofs.Frame
import Authoring.Proofs.Store
import Authoring.Proofs.Term.Description

/-!
# What is authored

The values that are handed to the authoring layer are terms of any sort, and most mistakes in them are found out
when they are used. A term is *authored* (`Term.IsAuthored`) if the class expressions and annotations in it are of
the shapes that the operations on them make, and if it calls nothing but delayed expressions of a set `S`. An axiom
is authored (`Axiom.IsAuthored`) if it is of one of the forms that the operations store, and a world if all axioms
of one ontology are, and what it keeps of values besides: the windows hold entities only, and the naming functions
call nothing outside the set.

An act *keeps* what is authored (`Act.Keeps`) if it leaves every such world as one and answers with a value of a
known property. Unlike a calm act it may change the ontologies. To be authored is an invariant of the authoring layer,
so its operations keep what is authored.

**What is assumed.** Evaluating a delayed expression of the set keeps what is authored (`Env.Authors`). So a producer
may itself use the authoring layer. Delayed expressions outside the set may do anything.

**What it does not establish.** An act that keeps may fail, and may have changed the world by then.
-/

namespace Authoring

/-! ## Terms -/

namespace Term

mutual
/-- A term as it is handed to the authoring layer. -/
def IsAuthored (S : Expr → Prop) : Term → Prop
  | .expression o ts c => IsClass (.expression o ts c)
  | .note p _ => IsOfKind .annotationProperty p
  | .fact p t _ => p.IsAuthored S ∧ t.IsAuthored S
  | .closure _ _ body _ => S body
  | .tuple ts => AreAuthored S ts
  | .list ts => AreAuthored S ts
  | .map es => AreEntriesAuthored S es
  | _ => True
def AreAuthored (S : Expr → Prop) : List Term → Prop
  | [] => True
  | t :: ts => t.IsAuthored S ∧ AreAuthored S ts
def AreEntriesAuthored (S : Expr → Prop) : List (Term × Term) → Prop
  | [] => True
  | e :: es => IsEntryAuthored S e ∧ AreEntriesAuthored S es
/-- The key of an entry is only compared. -/
def IsEntryAuthored (S : Expr → Prop) : Term × Term → Prop
  | (_, v) => v.IsAuthored S
end

variable {S : Expr → Prop} {t : Term} {ts : List Term}

/-- A term that has a node of its own: an entity, or a class expression. -/
def HasNode (t : Term) : Prop := t.isEntity = true ∨ t.IsClass

theorem IsOfKind.hasNode {kind : EntityKind} (h : IsOfKind kind t) : t.HasNode := .inl h.isEntity

end Term

/-! ## Axioms -/

/-- **The forms of the axioms that are stored.** The owner of a disjoint union is a class or a class expression;
wherever else an axiom is about something, this is an entity. -/
inductive Axiom.IsAuthored : Axiom → Prop
  | declaration {t : Term} (h : t.isEntity = true) : IsAuthored (.declaration t)
  | subclassOf {s t : Term} (hs : s.isEntity = true) (ht : t.IsClass) : IsAuthored (.subclassOf s t)
  | group {k : AxiomKind} {ts : List Term}
    (hk : k ∈ [.equivalentClasses, .disjointClasses, .inverseObjectProperties, .sameIndividual])
    (h : ∀ t ∈ ts, t.HasNode) : IsAuthored ⟨k, [Axiom.group ts]⟩
  | differentIndividuals {ts : List Term} (h : ∀ t ∈ ts, t.isEntity = true) : IsAuthored (.differentIndividuals ts)
  | disjointUnion {c : Term} {ts : List Term} (hc : c.IsClass) (h : ∀ t ∈ ts, t.IsClass) :
    IsAuthored (.disjointUnion c ts)
  | ofProperty {k : AxiomKind} {p c : Term} (hk : k ∈ [.objectPropertyDomain, .objectPropertyRange])
    (hp : p.isEntity = true) (hc : c.IsClass) : IsAuthored ⟨k, [p, c]⟩
  | subproperty {k : AxiomKind} {p q : Term} (hk : k ∈ [.subObjectPropertyOf, .subAnnotationPropertyOf])
    (hp : p.isEntity = true) (hq : q.isEntity = true) : IsAuthored ⟨k, [p, q]⟩
  | characteristic (c : Characteristic) {p : Term} (hp : p.isEntity = true) : IsAuthored (.ofCharacteristic c p)
  | annotationAssertion (iri : String) {p : Term} (hp : p.isEntity = true) (l : Literal) :
    IsAuthored (.annotationAssertion (.iri iri) (.note p l))
  | classAssertion {c i : Term} (hc : c.IsClass) (hi : i.isEntity = true) : IsAuthored (.classAssertion c i)
  | assertion {k : AxiomKind} {p s t : Term} (hk : k ∈ [.objectPropertyAssertion, .negativeObjectPropertyAssertion])
    (hp : p.isEntity = true) (hs : s.isEntity = true) (ht : t.isEntity = true) : IsAuthored ⟨k, [p, s, t]⟩

/-- A set of two terms that have nodes. -/
theorem Axiom.IsAuthored.pair {k : AxiomKind} {s t : Term}
    (hk : k ∈ [.equivalentClasses, .disjointClasses, .inverseObjectProperties, .sameIndividual]) (hs : s.HasNode)
    (ht : t.HasNode) : Axiom.IsAuthored ⟨k, [Axiom.group [s, t]]⟩ :=
  .group hk (List.forall_mem_cons.mpr ⟨hs, List.forall_mem_singleton.mpr ht⟩)

/-! ## Worlds, contexts and environments -/

/-- The prefix of an ontology is a text without a space, or there is none. -/
def Ontology.HasPlainPrefix (o : Ontology) : Prop :=
  o.abbreviation = .null ∨ ∃ s, o.abbreviation = .text s ∧ ' ' ∉ s.toList

/-- A world in which all that an ontology holds is authored. -/
structure World.IsAuthored (S : Expr → Prop) (id : Nat) (w : World) : Prop where
  axioms : ∀ a ∈ (w.ontology id).axioms, a.IsAuthored
  annotations : ∀ n ∈ (w.ontology id).annotations, n.property.isEntity = true
  abbreviation : (w.ontology id).HasPlainPrefix
  windows : ∀ ts ∈ w.windows, ∀ t ∈ ts, t.isEntity = true
  naming : w.NamesWithin S

/-- The default frames of a context are authored. -/
def Context.IsAuthored (S : Expr → Prop) (c : Context) : Prop := FrameMap.All (·.IsAuthored S) (c.defaults.getD [])

/-- What is assumed of an environment: its default frames are authored, and to evaluate a delayed expression of the
set, in whatever context with authored default frames, keeps what is authored. -/
structure Env.Authors (env : Env) (S : Expr → Prop) (id : Nat) : Prop where
  context : env.context.IsAuthored S
  evaluated : ∀ body, S body → ∀ (bound : Term) (c : Context), c.IsAuthored S → ∀ w : World, w.IsAuthored S id →
    (env.eval body bound c w).2.IsAuthored S id ∧ ∀ t, (env.eval body bound c w).1 = .ok t → t.IsAuthored S

namespace World.IsAuthored

variable {S : Expr → Prop} {id : Nat} {w w' : World}

theorem of_untouched (h : w.IsAuthored S id) (hw : w.Untouched w') : w'.IsAuthored S id where
  axioms := hw.ontology id ▸ h.axioms
  annotations := hw.ontology id ▸ h.annotations
  abbreviation := hw.ontology id ▸ h.abbreviation
  windows := hw.windows ▸ h.windows
  naming := h.naming.of_untouched hw

/-- Adding an authored axiom to some ontology keeps the world authored. -/
theorem add (h : w.IsAuthored S id) {a : Axiom} (ha : a.IsAuthored) (j : Nat) :
    (w.setOntology j ((w.ontology j).add a)).IsAuthored S id := by
  rcases World.ontology_setOntology_or w j id ((w.ontology j).add a) with hsame | ⟨rfl, hadded⟩
  · exact ⟨hsame ▸ h.axioms, hsame ▸ h.annotations, hsame ▸ h.abbreviation, h.windows, h.naming⟩
  · rw [Ontology.add_eq] at hadded
    refine ⟨World.forall_axioms_add h.axioms ha _, ?_, ?_, h.windows, h.naming⟩
    · rw [Ontology.add_eq, hadded]
      exact h.annotations
    · rw [Ontology.add_eq, hadded]
      exact h.abbreviation

end World.IsAuthored

/-! ## Acts -/

namespace Act

/-- **An act that keeps what is authored**, and whose value has a property. -/
def Keeps (S : Expr → Prop) (id : Nat) (x : Act α) (P : α → Prop) : Prop :=
  ∀ env : Env, env.Authors S id → ∀ w : World, w.IsAuthored S id →
    (x env w).2.IsAuthored S id ∧ ∀ a, (x env w).1 = .ok a → P a

end Act

end Authoring
