import Authoring.Proofs.Graph.Drawing
import Authoring.Proofs.Occurrence

/-!
# Which IRIs a graph names

A drawing writes the IRIs of the mapping (`Draw.mapping`), and no others but those of what it draws: of the entities and
ontologies that occur in an axiom, of the subjects of annotations, and of the ontology itself with what it imports and
what it is annotated along. So whatever holds of all of these holds of every IRI in the graph of an ontology
(`Draw.ofOntology_within`).

**What carries the proof.** `Triple.Within A` says that each IRI of a triple has the property `A`. A term is drawn by
triples within `A` if `A` holds of each IRI that occurs in it (`Draw.node_within`), and so is an axiom
(`Draw.ofAxiom_within`).

**What is assumed.** The axioms can be compared. Their sets are fixed ones then, in which the members occur.
-/

namespace Authoring

section
variable (A : String → Prop)

/-- The node is no IRI, or one with the property. -/
def Node.Within : Node → Prop
  | .iri s => A s
  | _ => True

/-- Each IRI of the triple has the property. -/
structure Triple.Within (t : Triple) : Prop where
  subject : t.subject.Within A
  predicate : A t.predicate
  object : t.object.Within A

variable (w : World)

/-- Each IRI of what occurs in the term has the property. -/
def Term.Within (t : Term) : Prop := ∀ u s, u.Occurs t → Draw.iri? w u = some s → A s

/-- Each IRI of what occurs in the axiom has the property, and so has the IRI that it annotates. -/
structure Axiom.Within (a : Axiom) : Prop where
  operands : ∀ t ∈ a.operands, t.Within A w
  subject : ∀ s ts, a = ⟨.annotationAssertion, .iri s :: ts⟩ → A s

/-- Each IRI that an ontology speaks of has the property: its own, those of its imports and of the properties it is
annotated along, and those in its axioms. -/
structure Ontology.Within (o : Ontology) : Prop where
  iri : A o.iri
  imports : ∀ i ∈ o.imports, A i
  annotations : ∀ n ∈ o.annotations, ∀ s, Draw.iri? w n.property = some s → A s
  axioms : ∀ a ∈ o.axioms, a.Within A w

end

theorem Node.within_blank {A : String → Prop} {n : Node} (h : ∃ id, n = .blank id) : n.Within A := by
  obtain ⟨id, rfl⟩ := h
  trivial

namespace Term.Within

variable {A : String → Prop} {w : World} {t : Term} {ts : List Term}

theorem operand {o c : Term} (h : Within A w (.expression o ts c)) (ht : t ∈ ts) : t.Within A w :=
  fun u s hu hs => h u s (.operand ht hu) hs

theorem member (h : Within A w (.set true ts)) (ht : t ∈ ts) : t.Within A w :=
  fun u s hu hs => h u s (.member ht hu) hs

theorem iri {s : String} (h : t.Within A w) (hs : Draw.iri? w t = some s) : A s := h t s .self hs

end Term.Within

namespace Draw

open Vocabulary

/-- **The IRIs of the mapping**, which a drawing writes whatever it draws. -/
def mapping : List String :=
  [rdf "type", rdf "first", rdf "rest", rdf "nil",
    rdfs "subClassOf", rdfs "subPropertyOf", rdfs "domain", rdfs "range",
    owl "Ontology", owl "imports",
    owl "Class", owl "ObjectProperty", owl "AnnotationProperty", owl "NamedIndividual",
    owl "Restriction", owl "onProperty", owl "onClass", owl "someValuesFrom", owl "allValuesFrom",
    owl "minQualifiedCardinality", owl "maxQualifiedCardinality", owl "qualifiedCardinality",
    owl "intersectionOf", owl "unionOf", owl "oneOf", owl "complementOf",
    owl "equivalentClass", owl "disjointWith", owl "AllDisjointClasses", owl "members", owl "disjointUnionOf",
    owl "inverseOf", owl "TransitiveProperty", owl "FunctionalProperty", owl "InverseFunctionalProperty",
    owl "NegativePropertyAssertion", owl "sourceIndividual", owl "assertionProperty", owl "targetIndividual",
    owl "sameAs", owl "differentFrom", owl "AllDifferent"]

theorem mem_mapping_of_listPredicate? {o : Operator} {p : String} (h : listPredicate? o = some p) : p ∈ mapping := by
  cases o <;> cases h <;> simp [mapping]

theorem mem_mapping_of_restrictionPredicate? {o : Operator} {p : String} (h : restrictionPredicate? o = some p) :
    p ∈ mapping := by
  cases o <;> cases h <;> simp [mapping]

theorem declarationType_mem_mapping (k : EntityKind) : declarationType k ∈ mapping := by
  cases k <;> simp [declarationType, mapping]

section
variable {A : String → Prop} {w : World}

/-! ## Nodes -/

theorem fresh_within : Adds (Triple.Within A) fresh (Node.Within A) :=
  Adds.fresh.mono (fun _ => id) fun _ => Node.within_blank

theorem iriOf_within {t : Term} (h : t.Within A w) : Adds (Triple.Within A) (iriOf w t) A :=
  (iriOf_adds w t).mono (fun _ => id) fun _ => h.iri

variable (hA : ∀ s ∈ mapping, A s)
include hA

theorem type_within : A (rdf "type") := hA _ List.mem_cons_self

theorem cells_within : ∀ {head : Node} {ns : List Node}, head.Within A → (∀ n ∈ ns, n.Within A) →
    Adds (Triple.Within A) (cells head ns) fun _ => True
  | _, [], _, _ => .pure trivial
  | _, [n], hhead, hns =>
    .bind (.emit ⟨hhead, hA _ (by simp [mapping]), hns n List.mem_cons_self⟩) fun _ _ =>
      .emit ⟨hhead, hA _ (by simp [mapping]), hA _ (by simp [mapping])⟩
  | _, n :: m :: rest, hhead, hns =>
    .bind (.emit ⟨hhead, hA _ (by simp [mapping]), hns n List.mem_cons_self⟩) fun _ _ =>
      .bind fresh_within fun _ hnext =>
        .bind (.emit ⟨hhead, hA _ (by simp [mapping]), hnext⟩) fun _ _ =>
          cells_within hnext fun k hk => hns k (List.mem_cons_of_mem _ hk)

theorem list_within {ds : List (Draw Node)} (h : ∀ d ∈ ds, Adds (Triple.Within A) d (Node.Within A)) :
    Adds (Triple.Within A) (list ds) (Node.Within A) :=
  .bind fresh_within fun _ hhead => .bind (.mapM_id h) fun _ hns =>
    .bind (cells_within hA hhead hns) fun _ _ => .pure hhead

theorem predicateOf_within (operator : Term) : Adds (Triple.Within A) (predicateOf w operator) A := by
  unfold predicateOf
  split
  next predicate h =>
    obtain ⟨o, -, ho⟩ := Option.bind_eq_some_iff.mp h
    exact .pure (hA _ (mem_mapping_of_restrictionPredicate? ho))
  · exact .throw

theorem groupOf_within {predicate : String} (hp : A predicate) {members : List (Rank × Draw Node)}
    (h : ∀ d ∈ members, Adds (Triple.Within A) d.2 (Node.Within A)) :
    Adds (Triple.Within A) (groupOf predicate members) (Node.Within A) := by
  refine .bind fresh_within fun node hnode => ?_
  refine .bind (.emit ⟨hnode, type_within hA, hA _ (by simp [mapping])⟩) fun _ _ => ?_
  refine .bind (list_within hA fun d hd => ?_) fun head hhead => ?_
  · obtain ⟨r, hr, rfl⟩ := List.mem_map.mp hd
    exact h r ((List.mergeSort_perm members _).mem_iff.mp hr)
  · exact .bind (.emit ⟨hnode, hp, hhead⟩) fun _ _ => .pure hnode

theorem complement_within {drawings : List (Draw Node)}
    (h : ∀ d ∈ drawings, Adds (Triple.Within A) d (Node.Within A)) :
    Adds (Triple.Within A) (complement drawings) (Node.Within A) := by
  refine .bind fresh_within fun node hnode => ?_
  refine .bind (.emit ⟨hnode, type_within hA, hA _ (by simp [mapping])⟩) fun _ _ => ?_
  split
  · exact .throw
  · refine .bind (h _ List.mem_cons_self) fun n hn => ?_
    exact .bind (.emit ⟨hnode, hA _ (by simp [mapping]), hn⟩) fun _ _ => .pure hnode

theorem restriction_within (operator : Term) {operands : List Term} {drawings : List (Draw Node)} (cardinality : Term)
    (hoperands : ∀ t ∈ operands, t.Within A w) (h : ∀ d ∈ drawings, Adds (Triple.Within A) d (Node.Within A)) :
    Adds (Triple.Within A) (restriction w operator operands drawings cardinality) (Node.Within A) := by
  refine .bind fresh_within fun node hnode => ?_
  split
  next property _ _ filler =>
    have hfiller := h filler (List.mem_cons_of_mem _ List.mem_cons_self)
    refine .bind (.emit ⟨hnode, type_within hA, hA _ (by simp [mapping])⟩) fun _ _ => ?_
    refine .bind (iriOf_within (hoperands property List.mem_cons_self)) fun p hp => ?_
    refine .bind (.emit ⟨hnode, hA _ (by simp [mapping]), hp⟩) fun _ _ => ?_
    refine .bind (predicateOf_within hA operator) fun predicate hpredicate => ?_
    dsimp only
    split
    · exact .bind hfiller fun n hn => .bind (.emit ⟨hnode, hpredicate, hn⟩) fun _ _ => .pure hnode
    · refine .bind (.emit ⟨hnode, hpredicate, trivial⟩) fun _ _ => .bind hfiller fun n hn => ?_
      exact .bind (.emit ⟨hnode, hA _ (by simp [mapping]), hn⟩) fun _ _ => .pure hnode
  · exact .throw

/-- **The node of a term**: it and its description name nothing but what occurs in the term. -/
theorem node_within (t : Term) : t.Within A w → Adds (Triple.Within A) (node w t) (Node.Within A) := by
  induction t using node_induction with
  | entity m e => exact fun h => .pure (h _ e.iri .self rfl)
  | expression o ts c ih =>
    intro h
    have hnodes : ∀ d ∈ nodes w ts, Adds (Triple.Within A) d (Node.Within A) := by
      intro d hd
      rw [nodes_eq] at hd
      obtain ⟨t, ht, rfl⟩ := List.mem_map.mp hd
      exact ih t (.inl ht) (h.operand ht)
    have hmembers : ∀ d ∈ members w ts, Adds (Triple.Within A) d.2 (Node.Within A) := by
      intro d hd
      obtain ⟨t, ht, rfl⟩ := mem_members hd
      refine ih t ht ?_
      rcases ht with ht | ⟨ms, hms, ht⟩
      · exact h.operand ht
      · exact (h.operand hms).member ht
    rw [node]
    split
    next predicate hpredicate =>
      obtain ⟨op, -, hop⟩ := Option.bind_eq_some_iff.mp hpredicate
      exact groupOf_within hA (hA _ (mem_mapping_of_listPredicate? hop)) hmembers
    · split
      · exact complement_within hA hnodes
      · exact restriction_within hA o c (fun t ht => h.operand ht) hnodes
  | other t h =>
    rw [h w]
    exact fun _ => .throw

/-! ## Axioms -/

variable {ts : List Term}

theorem chain_within {predicate : String} (hp : A predicate) : ∀ {ts : List Term}, (∀ t ∈ ts, t.Within A w) →
    Adds (Triple.Within A) (chain w predicate ts) fun _ => True
  | [], _ => .pure trivial
  | [_], _ => .pure trivial
  | s :: o :: _, h => by
    obtain ⟨hs, hrest⟩ := List.forall_mem_cons.mp h
    refine .bind (node_within hA s hs) fun x hx => .bind (node_within hA o (hrest o List.mem_cons_self)) fun y hy => ?_
    exact .bind (.emit ⟨hx, hp, hy⟩) fun _ _ => chain_within hp hrest

theorem pairwise_within {predicate : String} (hp : A predicate) (h : ∀ t ∈ ts, t.Within A w) :
    Adds (Triple.Within A) (pairwise w predicate ts) fun _ => True := by
  have hordered : ∀ t ∈ ordered w ts, t.Within A w := fun t ht => h t ((ordered_perm w ts).mem_iff.mp ht)
  unfold pairwise
  split
  next t heq =>
    have ht : t.Within A w := hordered t (heq ▸ List.mem_cons_self)
    exact chain_within hA hp (List.forall_mem_cons.mpr ⟨ht, List.forall_mem_singleton.mpr ht⟩)
  · exact chain_within hA hp hordered

theorem nodes_within (h : ∀ t ∈ ts, t.Within A w) :
    ∀ d ∈ ts.map (node w), Adds (Triple.Within A) d (Node.Within A) := by
  intro d hd
  obtain ⟨t, ht, rfl⟩ := List.mem_map.mp hd
  exact node_within hA t (h t ht)

theorem membership_within {type : String} (htype : A type) (h : ∀ t ∈ ts, t.Within A w) :
    Adds (Triple.Within A) (membership w type ts) fun _ => True :=
  .bind fresh_within fun _ hnode => .bind (.emit ⟨hnode, type_within hA, htype⟩) fun _ _ =>
    .bind (list_within hA (nodes_within hA h)) fun _ hhead => .emit ⟨hnode, hA _ (by simp [mapping]), hhead⟩

theorem typed_within {t : Term} {type : String} (htype : A type) (h : t.Within A w) :
    Adds (Triple.Within A) (typed w t type) fun _ => True :=
  .bind (iriOf_within h) fun _ hx => .emit ⟨hx, type_within hA, htype⟩

omit hA in
theorem relate_within {predicate : String} {s o : Term} (hp : A predicate) (hs : s.Within A w) (ho : o.Within A w) :
    Adds (Triple.Within A) (relate w s predicate o) fun _ => True :=
  .bind (iriOf_within hs) fun _ hx => .bind (iriOf_within ho) fun _ hy => .emit ⟨hx, hp, hy⟩

/-- **An axiom names nothing but what occurs in it**, what it annotates, and the terms of the mapping. -/
theorem ofAxiom_within {a : Axiom} (hs : a.toTerm.isStable = true) (h : a.Within A w) :
    Adds (Triple.Within A) (ofAxiom w a) fun _ => True := by
  have hterm : ∀ {s}, s ∈ mapping → A s := fun hs => hA _ hs
  have hop : ∀ {t}, t ∈ a.operands → t.Within A w := fun ht => h.operands _ ht
  have hset : ∀ (f : Bool) (ts : List Term), .set f ts ∈ a.operands → ∀ t ∈ ts, t.Within A w := by
    intro f ts hmem t ht
    have hf : (Term.set f ts).isStable = true := Term.areStable_iff.mp hs _ hmem
    cases f with
    | false => cases hf
    | true => exact (hop hmem).member ht
  have hmembers : ∀ (f : Bool) (ts : List Term), .set f ts ∈ a.operands → ∀ t ∈ ordered w ts, t.Within A w :=
    fun f ts hmem t ht => hset f ts hmem t ((ordered_perm w ts).mem_iff.mp ht)
  have hform := ofAxiom_form w a
  generalize ofAxiom w a = d at hform ⊢
  cases hform with
  | declaration m e =>
    have he : (Term.entity m e).Within A w := hop List.mem_cons_self
    exact .emit ⟨he.iri rfl, type_within hA, hterm (declarationType_mem_mapping e.kind)⟩
  | subclass sub super =>
    refine .bind (node_within hA sub (hop (by simp))) fun s hs => ?_
    exact .bind (node_within hA super (hop (by simp))) fun o ho => .emit ⟨hs, hterm (by simp [mapping]), ho⟩
  | @pairwise k p hk f ts =>
    have hp : ∀ q ∈ pairing, q.2 ∈ mapping := by simp [pairing, mapping]
    exact pairwise_within hA (hterm (hp _ hk)) (hset f ts List.mem_cons_self)
  | @disjoint f ts s o heq =>
    have hordered := heq ▸ hmembers f ts List.mem_cons_self
    refine .bind (node_within hA s (hordered s (by simp))) fun x hx => ?_
    exact .bind (node_within hA o (hordered o (by simp))) fun y hy => .emit ⟨hx, hterm (by simp [mapping]), hy⟩
  | @different f ts s o heq =>
    have hordered := heq ▸ hmembers f ts List.mem_cons_self
    exact relate_within (hterm (by simp [mapping])) (hordered s (by simp)) (hordered o (by simp))
  | @members k type hk f ts =>
    have htype : ∀ q ∈ memberships, q.2 ∈ mapping := by simp [memberships, mapping]
    exact membership_within hA (hterm (htype _ hk)) (hmembers f ts List.mem_cons_self)
  | union owner f ts =>
    refine .bind (iriOf_within (hop (t := owner) (by simp))) fun s hs => ?_
    refine .bind (list_within hA (nodes_within hA (hmembers f ts (by simp)))) fun head hhead => ?_
    exact .emit ⟨hs, hterm (by simp [mapping]), hhead⟩
  | @bound k p hk q c =>
    have hp : ∀ q ∈ bounding, q.2 ∈ mapping := by simp [bounding, mapping]
    refine .bind (iriOf_within (hop (t := q) (by simp))) fun s hs => ?_
    exact .bind (node_within hA c (hop (by simp))) fun o ho => .emit ⟨hs, hterm (hp _ hk), ho⟩
  | subproperty hk sub super =>
    exact relate_within (hterm (by simp [mapping])) (hop (by simp)) (hop (by simp))
  | @characteristic k type hk q =>
    have htype : ∀ q ∈ characteristics, q.2 ∈ mapping := by simp [characteristics, mapping]
    exact typed_within hA (hterm (htype _ hk)) (hop List.mem_cons_self)
  | note subject q l =>
    have hnote : (Term.note q l).Within A w := hop (by simp)
    refine .bind ((iriOf_adds w q).mono (fun _ => id) fun s => hnote q s (.property l)) fun predicate hp => ?_
    refine .bind (P := Node.Within A) ?_ fun s hs => .emit ⟨hs, hp, trivial⟩
    unfold subjectOf
    split
    next s => exact .pure (h.subject s [.note q l] rfl)
    · exact .pure trivial
    · exact .throw
  | membership c i =>
    refine .bind (iriOf_within (hop (t := i) (by simp))) fun s hs => ?_
    exact .bind (node_within hA c (hop (by simp))) fun o ho => .emit ⟨hs, type_within hA, ho⟩
  | relation q subject target =>
    refine .bind (iriOf_within (hop (t := subject) (by simp))) fun s hs => ?_
    refine .bind (iriOf_within (hop (t := q) (by simp))) fun predicate hp => ?_
    exact .bind (iriOf_within (hop (t := target) (by simp))) fun o ho => .emit ⟨hs, hp, ho⟩
  | denial q subject target =>
    refine .bind fresh_within fun node hnode => ?_
    refine .bind (.emit ⟨hnode, type_within hA, hterm (by simp [mapping])⟩) fun _ _ => ?_
    refine .bind (iriOf_within (hop (t := subject) (by simp))) fun s hs => ?_
    refine .bind (.emit ⟨hnode, hterm (by simp [mapping]), hs⟩) fun _ _ => ?_
    refine .bind (iriOf_within (hop (t := q) (by simp))) fun predicate hp => ?_
    refine .bind (.emit ⟨hnode, hterm (by simp [mapping]), hp⟩) fun _ _ => ?_
    refine .bind (iriOf_within (hop (t := target) (by simp))) fun o ho => ?_
    exact .emit ⟨hnode, hterm (by simp [mapping]), ho⟩
  | refused => exact .throw

/-- **An ontology's graph names nothing but what the ontology speaks of**, and the terms of the mapping. -/
theorem ofOntology_within {o : Ontology} (hs : ∀ a ∈ o.axioms, a.toTerm.isStable = true) (h : o.Within A w) :
    Adds (Triple.Within A) (ofOntology w o) fun _ => True := by
  have hiri : (Node.iri o.iri).Within A := h.iri
  refine .bind (.emit ⟨hiri, type_within hA, hA _ (by simp [mapping])⟩) fun _ _ => ?_
  refine .bind (.forM fun i hi => .emit ⟨hiri, hA _ (by simp [mapping]), h.imports i hi⟩) fun _ _ => ?_
  refine .bind (.forM fun n hn => ?_) fun _ _ => .forM fun a ha => ofAxiom_within hA (hs a ha) (h.axioms a ha)
  refine .bind ((iriOf_adds w n.property).mono (fun _ => id) (h.annotations n hn)) fun p hp => ?_
  exact .emit ⟨hiri, hp, trivial⟩

end

end Draw

end Authoring
