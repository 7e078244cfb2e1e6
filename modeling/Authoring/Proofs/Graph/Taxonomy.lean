import Authoring.Proofs.Graph.Drawing
import Authoring.Proofs.Hierarchy.Closure

/-!
# The hierarchy in the graph

The classes above a class can be found in two ways: by the closure over the subclass axioms of an ontology, and
by following the subclass triples between IRIs in the graph of the ontology. They agree (`Graph.ancestors_agree`).

**What carries the proof.** The graph has a subclass triple between two IRIs exactly where the ontology has a
subclass axiom between two entities with these IRIs (`Graph.subclass_mem_iff`). No axiom of another kind can bring
such a triple in: it has another predicate, a blank subject, or a literal for its object
(`Draw.ofAxiom_subclass`).

**What is assumed.** Subclass axioms are about classes and class expressions. And no assertion relates two
individuals along a property that has the IRI of the predicate of subclass triples, for such an assertion could
not be told from a subclass axiom in the graph.
-/

namespace Authoring

open Relation (TransGen)
open Vocabulary

/-- The triple of a subclass axiom between named classes. -/
def Triple.subclass (sub super : String) : Triple := ⟨.iri sub, rdfs "subClassOf", .iri super⟩

namespace Ontology

variable {o : Ontology} {m : Nat} {iri : String} {t u : Term}

/-- Whether a term is a class, or a class expression that can be compared. -/
def IsClassOrExpression (t : Term) : Prop :=
  (∃ m iri, t = .entity m ⟨.cls, iri⟩) ∨ t.isExpression = true ∧ t.isStable = true

/-- The operands of the subclass axioms are classes and class expressions. -/
def IsTaxonomy (o : Ontology) : Prop :=
  ∀ a ∈ o.axioms, a.kind = .subclassOf → ∀ t ∈ a.operands, IsClassOrExpression t

/-- No assertion relates individuals along what the graph has for subclass axioms. -/
def KeepsSubclasses (w : World) (o : Ontology) : Prop :=
  ∀ p s t, (⟨.objectPropertyAssertion, [p, s, t]⟩ : Axiom) ∈ o.axioms → Draw.iri? w p ≠ some (rdfs "subClassOf")

theorem IsClassOrExpression.isNode (h : IsClassOrExpression t) : t.IsNode := by
  rcases h with ⟨m, iri, rfl⟩ | ⟨he, hs⟩
  · exact ⟨.inl rfl, rfl⟩
  · exact ⟨.inr he, hs⟩

/-- A step up from a class or class expression leads to one. -/
theorem IsTaxonomy.step (ho : o.IsTaxonomy) (ht : IsClassOrExpression t) (hu : u ∈ o.step .up t) :
    IsClassOrExpression u := by
  obtain ⟨m, e, k, n, rfl, hk, ha⟩ := mem_step hu
  rcases ht with ⟨m', iri, ht⟩ | ⟨ht, -⟩
  · cases ht
    cases hk
    exact ho _ ha rfl u (List.mem_cons_of_mem _ List.mem_cons_self)
  · cases ht

/-- Whether a subclass axiom between two entities with these IRIs is stored. -/
def HasSubclass (o : Ontology) (sub super : String) : Prop :=
  ∃ m e n f, Axiom.subclassOf (.entity m e) (.entity n f) ∈ o.axioms ∧ e.iri = sub ∧ f.iri = super

/-- An entity among the operands of a subclass axiom is a class. -/
theorem IsTaxonomy.kind_eq (ho : o.IsTaxonomy) {ts : List Term} (ha : (⟨.subclassOf, ts⟩ : Axiom) ∈ o.axioms)
    {e : Entity} (he : .entity m e ∈ ts) : e = ⟨.cls, e.iri⟩ := by
  rcases ho _ ha rfl _ he with ⟨_, _, h⟩ | ⟨h, -⟩
  · cases h
    rfl
  · cases h

theorem HasSubclass.leads (ho : o.IsTaxonomy) {sub super : String} (h : o.HasSubclass sub super) (m n : Nat) :
    o.Leads .up (.entity m ⟨.cls, sub⟩) (.entity n ⟨.cls, super⟩) := by
  obtain ⟨m', e, n', f, ha, rfl, rfl⟩ := h
  rw [ho.kind_eq ha List.mem_cons_self, ho.kind_eq ha (List.mem_cons_of_mem _ List.mem_cons_self)] at ha
  exact leads_entity.mpr ⟨_, rfl, asserts_entity.mpr ⟨m', _, ha, Term.entity_agrees.mpr ⟨n', rfl⟩⟩⟩

/-- What is led to from a class, if it is an entity, is a class that a subclass axiom names. -/
theorem IsTaxonomy.hasSubclass (ho : o.IsTaxonomy) {sub : String} {n : Nat} {e : Entity}
    (h : o.Leads .up (.entity m ⟨.cls, sub⟩) (.entity n e)) : e = ⟨.cls, e.iri⟩ ∧ o.HasSubclass sub e.iri := by
  obtain ⟨k, hk, ha⟩ := leads_entity.mp h
  cases hk
  obtain ⟨m', u, ha, hu⟩ := asserts_entity.mp ha
  obtain ⟨n', rfl⟩ := Term.entity_agrees.mp hu
  exact ⟨ho.kind_eq ha (List.mem_cons_of_mem _ List.mem_cons_self), m', _, n', _, ha, rfl, rfl⟩

/-- What is reached from a class, if it is an entity, is a class that is reached over subclass axioms between
named classes: nothing leads on from an expression. -/
theorem IsTaxonomy.reached (ho : o.IsTaxonomy) (h : TransGen (o.Leads .up) (.entity m ⟨.cls, iri⟩) t) :
    ∀ n e, t = .entity n e → e = ⟨.cls, e.iri⟩ ∧ TransGen o.HasSubclass iri e.iri := by
  induction h with
  | single hs =>
    rintro n e rfl
    exact (ho.hasSubclass hs).imp_right .single
  | tail _ hs ih =>
    rintro n e rfl
    obtain ⟨k, f, rfl⟩ := hs.exists_entity
    obtain ⟨hf, hreach⟩ := ih k f rfl
    rw [hf] at hs
    exact (ho.hasSubclass hs).imp_right hreach.tail

theorem reached_iff (ho : o.IsTaxonomy) (n : Nat) {super : String} :
    TransGen (o.Leads .up) (.entity m ⟨.cls, iri⟩) (.entity n ⟨.cls, super⟩) ↔ TransGen o.HasSubclass iri super := by
  constructor
  · exact fun h => (ho.reached h n _ rfl).2
  · intro h
    induction h generalizing n with
    | single hs => exact .single (hs.leads ho m n)
    | tail _ hs ih => exact (ih 0).tail (hs.leads ho 0 n)

end Ontology

/-! ## The triples of an ontology -/

namespace Draw

variable {w : World} {a : Axiom} {o : Ontology}

/-- **No axiom but a subclass axiom** is drawn as a subclass triple between IRIs. -/
theorem ofAxiom_subclass (a : Axiom)
    (h : ∀ p s t, a = ⟨.objectPropertyAssertion, [p, s, t]⟩ → iri? w p ≠ some (rdfs "subClassOf")) :
    Adds (fun t => ∀ sub super, t = .subclass sub super →
      ∃ m e n f, a = .subclassOf (.entity m e) (.entity n f) ∧ e.iri = sub ∧ f.iri = super)
      (ofAxiom w a) fun _ => True := by
  generalize hE : (fun t : Triple => ∀ sub super, t = .subclass sub super →
      ∃ m e n f, a = .subclassOf (.entity m e) (.entity n f) ∧ e.iri = sub ∧ f.iri = super) = E
  have hinner : ∀ t : Triple, t.IsInner → E t := by
    rintro t ⟨id, hid⟩
    subst hE
    rintro sub super rfl
    cases hid
  have hother : ∀ {p : String}, p ≠ rdfs "subClassOf" → ∀ s o, E ⟨s, p, o⟩ := by
    intro p hp s o
    subst hE
    intro sub super heq
    exact absurd (Triple.mk.inj heq).2.1 hp
  have hliteral : ∀ s p l, E ⟨s, p, .literal l⟩ := by
    intro s p l
    subst hE
    intro sub super heq
    cases (Triple.mk.inj heq).2.2
  have hform := ofAxiom_form w a
  generalize ofAxiom w a = d at hform ⊢
  cases hform with
  | declaration => exact .emit (hother (by decide) _ _)
  | subclass sub super =>
    refine .bind (node_adds_of w hinner sub) fun s hs => .bind (node_adds_of w hinner super) fun t ht => .emit ?_
    subst hE
    intro x y heq
    obtain ⟨hx, -, hy⟩ := Triple.mk.inj heq
    cases hs <;> cases hx
    cases ht <;> cases hy
    exact ⟨_, _, _, _, rfl, rfl, rfl⟩
  | pairwise hk =>
    have hp : ∀ q ∈ pairing, q.2 ≠ rdfs "subClassOf" := by decide
    exact pairwise_adds w hinner (hother (hp _ hk))
  | disjoint =>
    refine .bind (node_adds_of w hinner _) fun _ _ => .bind (node_adds_of w hinner _) fun _ _ => ?_
    exact .emit (hother (by decide) _ _)
  | different => exact relate_adds w fun _ _ _ _ => hother (by decide) _ _
  | members => exact membership_adds w hinner
  | union owner _ ts =>
    refine .bind (iriOf_adds w owner) fun _ _ => .bind (.list hinner ?_) fun _ _ => .emit (hother (by decide) _ _)
    intro d hd
    obtain ⟨t, -, rfl⟩ := List.mem_map.mp hd
    exact (node_adds_of w hinner t).any
  | bound hk q c =>
    have hp : ∀ q ∈ bounding, q.2 ≠ rdfs "subClassOf" := by decide
    exact .bind (iriOf_adds w q) fun _ _ => .bind (node_adds_of w hinner c) fun _ _ => .emit (hother (hp _ hk) _ _)
  | subproperty => exact relate_adds w fun _ _ _ _ => hother (by decide) _ _
  | characteristic => exact typed_adds w fun _ _ => hother (by decide) _ _
  | note subject q l =>
    refine .bind (iriOf_adds w q) fun _ _ => .bind (P := fun _ => True) ?_ fun _ _ => .emit (hliteral _ _ _)
    unfold subjectOf
    split
    · exact .pure trivial
    · exact .pure trivial
    · exact .throw
  | membership c i =>
    exact .bind (iriOf_adds w i) fun _ _ => .bind (node_adds_of w hinner c) fun _ _ => .emit (hother (by decide) _ _)
  | relation q subject target =>
    refine .bind (iriOf_adds w subject) fun _ _ => .bind (iriOf_adds w q) fun predicate hp => ?_
    refine .bind (iriOf_adds w target) fun _ _ => .emit (hother ?_ _ _)
    rintro rfl
    exact h q subject target rfl hp
  | denial q subject target =>
    refine .bind .fresh fun node' hnode => ?_
    obtain ⟨id, rfl⟩ := hnode
    have hblank : ∀ predicate o, E ⟨.blank id, predicate, o⟩ := fun _ _ => hinner _ ⟨id, rfl⟩
    refine .bind (.emit (hblank _ _)) fun _ _ => .bind (iriOf_adds w subject) fun _ _ => ?_
    refine .bind (.emit (hblank _ _)) fun _ _ => .bind (iriOf_adds w q) fun _ _ => ?_
    refine .bind (.emit (hblank _ _)) fun _ _ => .bind (iriOf_adds w target) fun _ _ => ?_
    exact .emit (hblank _ _)
  | refused => exact .throw

/-- What an ontology is drawn from has no subclass triples between IRIs but for its subclass axioms. -/
theorem ofOntology_subclass (ho : o.KeepsSubclasses w) :
    Adds (fun t => ∀ sub super, t = .subclass sub super → o.HasSubclass sub super) (ofOntology w o)
      fun _ => True := by
  refine .bind (.emit ?_) fun _ _ => .bind (.forM fun i _ => .emit ?_) fun _ _ => .bind (.forM fun note _ => ?_)
    fun _ _ => .forM fun a ha => ?_
  · exact fun _ _ h => absurd (Triple.mk.inj h).2.1 (by decide)
  · exact fun _ _ h => absurd (Triple.mk.inj h).2.1 (by decide)
  · exact .bind (iriOf_adds w _) fun _ _ => .emit fun _ _ h => nomatch (Triple.mk.inj h).2.2
  · refine (ofAxiom_subclass a fun p s t heq => ?_).mono (fun t ht sub super heq => ?_) fun _ h => h
    · exact ho p s t (heq ▸ ha)
    · obtain ⟨m, e, n, f, rfl, he, hf⟩ := ht sub super heq
      exact ⟨m, e, n, f, ha, he, hf⟩

end Draw

namespace Graph

variable {w : World} {id : Nat} {o : Ontology} {g : Graph} {sub super : String}

/-- **A subclass triple between IRIs** is in the graph of an ontology exactly where the ontology has a subclass
axiom between entities with these IRIs. -/
theorem subclass_mem_iff (ho : o.KeepsSubclasses w) (h : ofOntology w o = .ok g) :
    .subclass sub super ∈ g.triples ↔ o.HasSubclass sub super := by
  obtain ⟨u, hrun⟩ := exists_drawn h
  constructor
  · intro hmem
    rcases ((Draw.ofOntology_subclass ho) _ _ _ hrun).2.2 _ hmem with hempty | hfrom
    · cases hempty
    · exact hfrom _ _ rfl
  · rintro ⟨m, e, n, f, ha, rfl, rfl⟩
    obtain ⟨_, g₁, -, hrun⟩ := Draw.bind_ok hrun
    obtain ⟨_, g₂, -, hrun⟩ := Draw.bind_ok hrun
    obtain ⟨_, g₃, -, hrun⟩ := Draw.bind_ok hrun
    obtain ⟨_, g₄, g₅, hdrawn, hsub⟩ := Draw.Adds.forM_ran
      (E := fun _ => True) (fun a ha => (Draw.ofAxiom_subclass a fun p s t heq => ho p s t (heq ▸ ha)).mono
        (fun _ _ => trivial) fun _ h => h) hrun ha
    cases hdrawn
    exact hsub (mem_add _ nofun nofun)

/-- **Ancestors in the ontology and in its graph.** The classes among the ancestors of a class are those whose
IRIs are reached in the graph by one or more subclass triples between IRIs. -/
theorem ancestors_agree (ho : (w.ontology id).IsTaxonomy) (hk : (w.ontology id).KeepsSubclasses w)
    (h : ofOntology w (w.ontology id) = .ok g) (m : Nat) (iri : String) (env : Env) :
    ∃ members, Hierarchy.closure .up (.entity m ⟨.cls, iri⟩) (.handle (.ontology id)) env w = (.ok members, w) ∧
      ∀ super, (∃ n, .entity n ⟨.cls, super⟩ ∈ members) ↔
        TransGen (fun sub super => .subclass sub super ∈ g.triples) iri super := by
  obtain ⟨members, hrun, hclosure⟩ := Hierarchy.run_closure_within
    (C := Ontology.IsClassOrExpression) (fun t ht => ⟨ht.isNode, fun u hu => ho.step ht hu⟩)
    (.inl ⟨m, iri, rfl⟩) env
  refine ⟨members, hrun, fun super => ?_⟩
  have hfound : (∃ n, .entity n ⟨.cls, super⟩ ∈ members) ↔ members.contains (.entity 0 ⟨.cls, super⟩) = true := by
    rw [List.contains_iff_exists_mem_beq]
    constructor
    · rintro ⟨n, hn⟩
      exact ⟨_, hn, Term.entity_agrees.mpr ⟨n, rfl⟩⟩
    · rintro ⟨t, ht, hfind⟩
      obtain ⟨n, rfl⟩ := Term.entity_agrees.mp hfind
      exact ⟨n, ht⟩
  have hedges : (fun sub super => .subclass sub super ∈ g.triples) = (w.ontology id).HasSubclass := by
    funext sub super
    exact propext (subclass_mem_iff hk h)
  rw [hfound, hclosure.exact _ rfl, Ontology.reached_iff ho, hedges]

/-- The two ways agree on two classes on a cycle with an expression above one of them. -/
theorem ancestors_agree_cyclic :
    let o := Hierarchy.cyclic.ontology 0
    o.IsTaxonomy ∧ o.KeepsSubclasses Hierarchy.cyclic ∧ ∃ g, ofOntology Hierarchy.cyclic o = .ok g ∧ ∃ members,
      Hierarchy.closure .up (.entity 0 ⟨.cls, "a"⟩) (.handle (.ontology 0)) .plain Hierarchy.cyclic =
        (.ok members, Hierarchy.cyclic) ∧
      ∀ super, (∃ n, .entity n ⟨.cls, super⟩ ∈ members) ↔
        TransGen (fun sub super => .subclass sub super ∈ g.triples) "a" super := by
  have axioms : ∀ a ∈ (Hierarchy.cyclic.ontology 0).axioms, a.kind = .subclassOf ∧
      ∀ t ∈ a.operands, t.isExpression = true ∧ t.isStable = true ∨ t = .entity 0 ⟨.cls, "a"⟩ ∨
        t = .entity 0 ⟨.cls, "b"⟩ := by
    intro a ha
    simp only [Hierarchy.cyclic, World.ontology, List.getD_cons_zero, List.mem_cons, List.not_mem_nil, or_false] at ha
    rcases ha with rfl | rfl | rfl
    all_goals simp [Axiom.subclassOf, Term.isExpression, Term.isStable, Term.areStable, Term.ofOperator]
  have ho : (Hierarchy.cyclic.ontology 0).IsTaxonomy := by
    intro a ha _ t ht
    rcases (axioms a ha).2 t ht with h | rfl | rfl
    · exact .inr h
    · exact .inl ⟨_, _, rfl⟩
    · exact .inl ⟨_, _, rfl⟩
  have hk : (Hierarchy.cyclic.ontology 0).KeepsSubclasses Hierarchy.cyclic :=
    fun p s t ha => by cases (axioms _ ha).1
  have hg : ∃ g, ofOntology Hierarchy.cyclic (Hierarchy.cyclic.ontology 0) = .ok g := ⟨_, rfl⟩
  obtain ⟨g, hg⟩ := hg
  exact ⟨ho, hk, g, hg, ancestors_agree ho hk hg 0 "a" .plain⟩

end Graph

end Authoring
