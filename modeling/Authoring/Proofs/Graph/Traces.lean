import Authoring.Graph.Listing
import Authoring.Proofs.Graph.Naming
import Authoring.Proofs.Graph.Settled
import Authoring.Proofs.Removal

/-!
# No trace of what has been removed

When an entity has been removed from an ontology that could be rendered, the ontology can still be rendered, and its
graph has the IRI of the entity nowhere: in no subject, no predicate and no object (`Change.removeEntity_untraced`).

**What carries the proof.** The graph names only what the ontology speaks of (`Draw.ofOntology_within`), and what is
left of the ontology does not speak of the IRI (`World.Without.within`). That the graph can still be drawn is not
obvious, because the removal shows in how ontologies are displayed, and so in the order in which members of sets are
drawn. But the order does not matter for this (`Graph.ofOntology_ok`).

**What is assumed.** The IRI stands for the entity alone (`World.Reserves`). The mapping has no use for it, and neither
has the ontology itself; no entity of another kind has it, nor has an ontology that an axiom holds in the place of an
entity. Else what is left could be drawn with the IRI.
-/

namespace Authoring

namespace Graph

/-- The IRI stands somewhere in the graph. -/
def Names (g : Graph) (s : String) : Prop :=
  ∃ t ∈ g.triples, t.subject = .iri s ∨ t.predicate = s ∨ t.object = .iri s

variable {w : World} {o : Ontology} {g : Graph} {s : String}

/-- A graph does not name what its ontology does not speak of. -/
theorem not_names (h : ofOntology w o = .ok g) (hs : s ∉ Draw.mapping)
    (hstable : ∀ a ∈ o.axioms, a.toTerm.isStable = true) (ho : o.Within (· ≠ s) w) : ¬g.Names s := by
  obtain ⟨u, hrun⟩ := exists_drawn h
  have hterms : ∀ t ∈ Draw.mapping, t ≠ s := fun t ht heq => hs (heq ▸ ht)
  obtain ⟨-, -, hadded⟩ := Draw.ofOntology_within hterms hstable ho _ _ _ hrun
  rintro ⟨t, ht, hnamed⟩
  rcases hadded t ht with hempty | hwithin
  · cases hempty
  · rcases hnamed with hsubject | hpredicate | hobject
    · have h := hwithin.subject
      rw [hsubject] at h
      exact h rfl
    · exact hwithin.predicate hpredicate
    · have h := hwithin.object
      rw [hobject] at h
      exact h rfl

/-- What is listed has been drawn. -/
theorem exists_of_list {l : Listing} (h : list w o = .ok l) :
    (∃ table, abbreviations o = .ok table) ∧ ∃ g, ofOntology w o = .ok g := by
  unfold list at h
  cases ht : abbreviations o with
  | error e =>
    rw [ht] at h
    cases h
  | ok table =>
    rw [ht] at h
    cases hg : ofOntology w o with
    | error e =>
      rw [hg] at h
      cases h
    | ok g => exact ⟨⟨table, rfl⟩, g, rfl⟩

/-- And what has been drawn is listed, if its prefix can be given away. -/
theorem list_ok {table : Abbreviation.Table} (ht : abbreviations o = .ok table) (hg : ofOntology w o = .ok g) :
    ∃ l, list w o = .ok l := by
  unfold list
  rw [ht, hg]
  exact ⟨_, rfl⟩

end Graph

namespace World

variable {w w' : World} {id : Nat} {e : Entity}

/-- **The IRI of an entity stands for the entity alone**, as far as an ontology is concerned. -/
structure Reserves (id : Nat) (e : Entity) (w : World) : Prop where
  mapping : e.iri ∉ Draw.mapping
  iri : (w.ontology id).iri ≠ e.iri
  imports : e.iri ∉ (w.ontology id).imports
  annotations : ∀ n ∈ (w.ontology id).annotations, Draw.iri? w n.property ≠ some e.iri
  entities : ∀ a ∈ (w.ontology id).axioms, ∀ m f, a.Has (.entity m f) → f.iri = e.iri → f.kind = e.kind
  ontologies : ∀ a ∈ (w.ontology id).axioms, ∀ j, a.Has (.handle (.ontology j)) → (w.ontology j).iri ≠ e.iri

/-- What has the IRI in an axiom is the entity. -/
theorem Reserves.eq_entity (h : w.Reserves id e) {a : Axiom} (ha : a ∈ (w.ontology id).axioms) {u : Term} (hu : a.Has u)
    (hs : Draw.iri? w u = some e.iri) : ∃ m, u = .entity m e := by
  unfold Draw.iri? at hs
  split at hs
  next m f =>
    have hiri : f.iri = e.iri := Option.some.inj hs
    have hkind : f.kind = e.kind := h.entities a ha m f hu hiri
    obtain ⟨k, i⟩ := e
    obtain ⟨k', i'⟩ := f
    cases hiri
    cases hkind
    exact ⟨m, rfl⟩
  next j => exact absurd (Option.some.inj hs) (h.ontologies a ha j hu)
  next => cases hs

namespace Without

/-- The ontologies have the IRIs that they had. -/
theorem iri?_eq (h : w.Without id e w') (t : Term) : Draw.iri? w' t = Draw.iri? w t := by
  unfold Draw.iri?
  split
  next => rfl
  next j =>
    by_cases hj : j = id
    · rw [hj, h.iri]
    · rw [h.others j hj]
  next => rfl

/-- **What is left does not speak of the IRI.** -/
theorem within (h : w.Without id e w') (hr : w.Reserves id e) : (w'.ontology id).Within (· ≠ e.iri) w' := by
  constructor
  case iri => exact h.iri ▸ hr.iri
  case imports =>
    rw [h.imports]
    rintro i hi rfl
    exact hr.imports hi
  case annotations =>
    rw [h.annotations]
    rintro n hn s hs rfl
    exact hr.annotations n hn (h.iri?_eq _ ▸ hs)
  case axioms =>
    intro a ha
    rw [h.axioms] at ha
    obtain ⟨ha, hnot⟩ := List.mem_filter.mp ha
    have hnot : ¬a.Involves e := of_decide_eq_true hnot
    constructor
    · rintro t ht u s hu hs rfl
      have hhas : a.Has u := ⟨t, ht, hu⟩
      rw [h.iri?_eq] at hs
      obtain ⟨m, rfl⟩ := hr.eq_entity ha hhas hs
      exact hnot (.occurs hhas)
    · rintro s ts rfl rfl
      exact hnot (.annotates (by simp [Term.equals, Term.agrees_refl, Term.isNaN]))

end Without

end World

namespace Change

variable {w : World} {id : Nat} {e : Entity}

/-- **A removed entity leaves no trace**: the ontology is still rendered, and its graph has the IRI of the entity
nowhere. -/
theorem removeEntity_untraced (hm : w.Manages id) (hl : (w.ontology id).Lawful) (hr : w.Reserves id e)
    (hg : ∃ l, Graph.list w (w.ontology id) = .ok l) (m : Nat) (env : Env) :
    ∃ as w', removeEntity (.entity m e) (.handle (.ontology id)) env w = (.ok as, w') ∧
      ∃ l g, Graph.list w' (w'.ontology id) = .ok l ∧ Graph.ofOntology w' (w'.ontology id) = .ok g ∧
        ¬g.Names e.iri := by
  obtain ⟨w', hrun, hw⟩ := exists_run_removeEntity hm hl m e env
  obtain ⟨l, hlisted⟩ := hg
  obtain ⟨⟨table, htable⟩, g, hdrawn⟩ := Graph.exists_of_list hlisted
  obtain ⟨g', hdrawn'⟩ : ∃ g', Graph.ofOntology w' (w'.ontology id) = .ok g' := by
    refine Graph.ofOntology_ok hdrawn ?_ ?_
    · rw [hw.annotations]
      exact List.Subset.refl _
    · rw [hw.axioms]
      exact List.filter_sublist.subset
  have htable' : Graph.abbreviations (w'.ontology id) = .ok table := by
    rw [← htable, Graph.abbreviations, Graph.abbreviations, hw.iri, hw.abbreviation]
  obtain ⟨l', hlisted'⟩ := Graph.list_ok htable' hdrawn'
  have hstable := fun a ha => ((hw.lawful hl).stable a ha).1
  have huntraced : ¬g'.Names e.iri := Graph.not_names hdrawn' hr.mapping hstable (hw.within hr)
  exact ⟨_, w', hrun, l', g', hlisted', hdrawn', huntraced⟩

/-- Axioms about another class, one of which is about the first one too. -/
def aboutPair : List Axiom :=
  [.declaration (.entity 0 ⟨.cls, "d"⟩),
    .disjointClasses [.entity 0 ⟨.cls, "c"⟩, .entity 0 ⟨.cls, "d"⟩],
    .equivalentClasses [.entity 0 ⟨.cls, "d"⟩, .entity 0 ⟨.cls, "f"⟩]]

/-- The world with both in one ontology, which has a prefix, an import and an annotation besides. -/
def rendered : World :=
  World.single.setOntology 0 ⟨"o", .text "o:", aboutClass ++ aboutPair, ["i"],
    [⟨.entity 0 ⟨.annotationProperty, "l"⟩, ⟨"text", none, none⟩⟩]⟩

theorem removeEntity_untraced_rendered :
    rendered.Reserves 0 ⟨.cls, "c"⟩ ∧ (∃ l, Graph.list rendered (rendered.ontology 0) = .ok l) ∧
    ∃ as w', removeEntity (.entity 0 ⟨.cls, "c"⟩) (.handle (.ontology 0)) .plain rendered = (.ok as, w') ∧
      ∃ l g, Graph.list w' (w'.ontology 0) = .ok l ∧ Graph.ofOntology w' (w'.ontology 0) = .ok g ∧ ¬g.Names "c" := by
  have manages : rendered.Manages 0 := World.single_manages.setOntology rfl
  have axioms : (rendered.ontology 0).axioms = aboutClass ++ aboutPair := rfl
  have lawful : (rendered.ontology 0).Lawful := by
    refine ⟨fun a ha => ?_, ?_⟩
    · rw [axioms] at ha
      simp only [aboutClass, aboutPair, List.mem_append, List.mem_cons, List.not_mem_nil, or_false] at ha
      rcases ha with (rfl | rfl | rfl) | rfl | rfl | rfl
      all_goals exact ⟨by decide, by decide⟩
    · rw [axioms]
      unfold Distinct
      decide
  have authored : ∀ a ∈ (rendered.ontology 0).axioms, a.IsAuthored := by
    have both : Term.IsClass
        (.expression (.ofOperator .and) [.set true [.entity 0 ⟨.cls, "d"⟩, .entity 1 ⟨.cls, "c"⟩]] .null) := by
      refine .combination (.inl rfl) (List.cons_ne_nil _ _) (by unfold Distinct; decide) ?_
      exact List.forall_mem_cons.mpr ⟨.named 0 "d", List.forall_mem_singleton.mpr (.named 1 "c")⟩
    rw [axioms]
    intro a ha
    simp only [aboutClass, aboutPair, List.mem_append, List.mem_cons, List.not_mem_nil, or_false] at ha
    rcases ha with (rfl | rfl | rfl) | rfl | rfl | rfl
    · exact .declaration rfl
    · exact .subclassOf rfl (.restriction (o := .some) rfl ⟨0, "p", rfl⟩ both)
    · exact .annotationAssertion "c" rfl _
    · exact .declaration rfl
    · exact .pair (by decide) (.inl rfl) (.inl rfl)
    · exact .pair (by decide) (.inl rfl) (.inl rfl)
  have disjoint : Axiom.group [.entity 0 ⟨.cls, "c"⟩, .entity 0 ⟨.cls, "d"⟩] =
      .set true [.entity 0 ⟨.cls, "c"⟩, .entity 0 ⟨.cls, "d"⟩] := by rfl
  have equivalent : Axiom.group [.entity 0 ⟨.cls, "d"⟩, .entity 0 ⟨.cls, "f"⟩] =
      .set true [.entity 0 ⟨.cls, "d"⟩, .entity 0 ⟨.cls, "f"⟩] := by rfl
  have occurring : ∀ a ∈ (rendered.ontology 0).axioms, ∀ u, a.Has u →
      (∀ m f, u = .entity m f → f.iri = "c" → f.kind = .cls) ∧ ∀ j, u ≠ .handle (.ontology j) := by
    rw [axioms]
    intro a ha u hu
    simp only [aboutClass, aboutPair, List.mem_append, List.mem_cons, List.not_mem_nil, or_false] at ha
    rcases ha with (rfl | rfl | rfl) | rfl | rfl | rfl
    all_goals
      simp only [Axiom.Has, Axiom.declaration, Axiom.subclassOf, Axiom.annotationAssertion, Axiom.disjointClasses,
        Axiom.equivalentClasses, disjoint, equivalent, List.mem_cons, List.not_mem_nil, or_false, exists_eq_or_imp,
        exists_eq_left, Term.occurs_entity, Term.occurs_iri, Term.occurs_note, Term.occurs_expression,
        Term.occurs_set] at hu
      grind
  have reserves : rendered.Reserves 0 ⟨.cls, "c"⟩ := by
    constructor
    case mapping => decide
    case iri => decide
    case imports => decide
    case annotations => decide
    case entities => exact fun a ha m f hf => (occurring a ha _ hf).1 m f rfl
    case ontologies => exact fun a ha j hj => absurd rfl ((occurring a ha _ hj).2 j)
  have listed : ∃ l, Graph.list rendered (rendered.ontology 0) = .ok l := by
    refine (Graph.list_ok_iff authored ?_ (.inr ⟨"o:", rfl, by decide⟩)).mpr ?_
    · exact List.forall_mem_singleton.mpr rfl
    · decide
  exact ⟨reserves, listed, removeEntity_untraced manages lawful reserves listed 0 .plain⟩

end Change

end Authoring
