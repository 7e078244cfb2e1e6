import Authoring.Proofs.Change
import Authoring.Proofs.Occurrence

/-!
# What a removal of an entity leaves

A removal of an entity from an ontology that the store holds answers with the axioms that involve the entity, in their
order, and leaves the others in theirs. Nothing else is touched: neither what else belongs to the ontology, nor any
other ontology, nor the rest of the world (`World.Without`). When it is done, there is nothing left to remove
(`Change.removeEntity_exact`).

**What carries the proof.** The run of a removal as one equation (`Change.run_removeEntity`), and that what an axiom
mentions is what it involves (`Axiom.mentions_iff`).

**What is assumed.** The installed store holds the ontology, and the axioms of the ontology can be compared and are
different, as they are in a collection that finds them by comparing them (`Ontology.Lawful`).
-/

namespace Authoring

/-- **A world without an entity**: the second world is the first but for the axioms of one ontology that involve the
entity, which are not there. -/
structure World.Without (id : Nat) (e : Entity) (w w' : World) : Prop where
  axioms : (w'.ontology id).axioms = (w.ontology id).axioms.filter fun a => ¬a.Involves e
  iri : (w'.ontology id).iri = (w.ontology id).iri
  abbreviation : (w'.ontology id).abbreviation = (w.ontology id).abbreviation
  imports : (w'.ontology id).imports = (w.ontology id).imports
  annotations : (w'.ontology id).annotations = (w.ontology id).annotations
  others : ∀ j, j ≠ id → w'.ontology j = w.ontology j
  count : w'.ontologies.length = w.ontologies.length
  rest : w' = { w with ontologies := w'.ontologies }

namespace World

variable {w w' : World} {id m : Nat} {e : Entity}

/-- The axioms that mention an entity are those that involve it. -/
theorem filter_mentions (as : List Axiom) (e : Entity) (m : Nat) :
    (as.filter fun a => a.mentions e m) = as.filter fun a => a.Involves e := by
  refine List.filter_congr fun a _ => ?_
  rw [Bool.eq_iff_iff, decide_eq_true_iff]
  exact Axiom.mentions_iff

/-- And the axioms that do not mention it are those that do not involve it. -/
theorem filter_not_mentions (as : List Axiom) (e : Entity) (m : Nat) :
    (as.filter fun a => !a.mentions e m) = as.filter fun a => ¬a.Involves e := by
  refine List.filter_congr fun a _ => ?_
  rw [Bool.eq_iff_iff, decide_eq_true_iff, Bool.not_eq_true', ← Bool.not_eq_true, Axiom.mentions_iff]

namespace Without

theorem of_setOntology (h : id < w.ontologies.length) :
    w.Without id e (w.setOntology id { w.ontology id with
      axioms := (w.ontology id).axioms.filter fun a => ¬a.Involves e }) := by
  constructor
  case others => exact fun j hj => ontology_setOntology_of_ne hj
  case count => exact List.length_set
  case rest => rfl
  all_goals rw [ontology_setOntology h]

theorem manages (h : w.Without id e w') (hm : w.Manages id) : w'.Manages id := by
  refine ⟨h.count ▸ hm.exists_ontology, ?_⟩
  have hs : w'.holds w'.installed id = w.holds w.installed id := by
    rw [holds, holds, located, located, store, store, h.iri, h.rest]
  rw [hs]
  exact hm.holds

theorem lawful (h : w.Without id e w') (hl : (w.ontology id).Lawful) : (w'.ontology id).Lawful := by
  refine hl.of_sublist ?_
  rw [h.axioms]
  exact List.filter_sublist

/-- What is not there is not found. -/
theorem filter_involves (h : w.Without id e w') : ((w'.ontology id).axioms.filter fun a => a.Involves e) = [] := by
  refine List.filter_eq_nil_iff.mpr fun a ha => ?_
  rw [h.axioms] at ha
  simpa using (List.mem_filter.mp ha).2

/-- And all that is there is kept. -/
theorem filter_not_involves (h : w.Without id e w') :
    ((w'.ontology id).axioms.filter fun a => ¬a.Involves e) = (w'.ontology id).axioms := by
  refine List.filter_eq_self.mpr fun a ha => ?_
  rw [h.axioms] at ha
  exact (List.mem_filter.mp ha).2

end Without

end World

namespace Change

variable {w w' : World} {id : Nat} {e : Entity}

/-- A removal answers with the axioms that involve the entity, and leaves a world without it. -/
theorem exists_run_removeEntity (hm : w.Manages id) (hl : (w.ontology id).Lawful) (m : Nat) (e : Entity) (env : Env) :
    ∃ w', removeEntity (.entity m e) (.handle (.ontology id)) env w =
      (.ok ((w.ontology id).axioms.filter fun a => a.Involves e), w') ∧ w.Without id e w' := by
  refine ⟨_, ?_, .of_setOntology hm.exists_ontology⟩
  rw [run_removeEntity hm hl, World.filter_mentions, World.filter_not_mentions]

/-- Where the entity is not there any more, a removal does nothing. -/
theorem run_removeEntity_again (h : w.Without id e w') (hm : w'.Manages id) (hl : (w'.ontology id).Lawful) (m : Nat)
    (env : Env) : removeEntity (.entity m e) (.handle (.ontology id)) env w' = (.ok [], w') := by
  rw [run_removeEntity hm hl, World.filter_mentions, World.filter_not_mentions, h.filter_involves,
    h.filter_not_involves]
  exact congrArg _ World.setOntology_ontology

/-- **A removal is complete and exact.** It answers with the axioms that involve the entity and leaves a world without
them. Whoever asks again, for this entity as any factory made it, is answered with nothing and changes nothing. -/
theorem removeEntity_exact (hm : w.Manages id) (hl : (w.ontology id).Lawful) (m : Nat) (e : Entity) (env : Env) :
    ∃ w', removeEntity (.entity m e) (.handle (.ontology id)) env w =
        (.ok ((w.ontology id).axioms.filter fun a => a.Involves e), w') ∧
      w.Without id e w' ∧
      ∀ (n : Nat) (env' : Env), removeEntity (.entity n e) (.handle (.ontology id)) env' w' = (.ok [], w') := by
  obtain ⟨w', hrun, hw⟩ := exists_run_removeEntity hm hl m e env
  exact ⟨w', hrun, hw, fun n env' => run_removeEntity_again hw (hw.manages hm) (hw.lawful hl) n env'⟩

/-- Axioms in which a class occurs: as an operand, and in a set inside of an expression. The third annotates its IRI. -/
def aboutClass : List Axiom :=
  let both : Term := .expression (.ofOperator .and) [.set true [.entity 0 ⟨.cls, "d"⟩, .entity 1 ⟨.cls, "c"⟩]] .null
  [.declaration (.entity 0 ⟨.cls, "c"⟩),
    .subclassOf (.entity 0 ⟨.cls, "d"⟩)
      (.expression (.ofOperator .some) [.entity 0 ⟨.objectProperty, "p"⟩, both] .null),
    .annotationAssertion (.iri "c") (.note (.entity 0 ⟨.annotationProperty, "l"⟩) ⟨"text", none, none⟩)]

/-- Axioms about another class, and about an individual of the IRI of the first. -/
def aboutOthers : List Axiom :=
  [.declaration (.entity 0 ⟨.cls, "d"⟩),
    .classAssertion (.entity 0 ⟨.cls, "d"⟩) (.entity 0 ⟨.individual, "c"⟩),
    .annotationAssertion (.iri "d") (.note (.entity 0 ⟨.annotationProperty, "l"⟩) ⟨"text", none, none⟩)]

/-- The world with both in one ontology, those of the class in front. -/
def mixed : World := World.single.setOntology 0 ⟨"o", .null, aboutClass ++ aboutOthers, [], []⟩

theorem removeEntity_exact_mixed :
    ∃ w', removeEntity (.entity 0 ⟨.cls, "c"⟩) (.handle (.ontology 0)) .plain mixed = (.ok aboutClass, w') ∧
      mixed.Without 0 ⟨.cls, "c"⟩ w' ∧ (w'.ontology 0).axioms = aboutOthers ∧
      ∀ n env', removeEntity (.entity n ⟨.cls, "c"⟩) (.handle (.ontology 0)) env' w' = (.ok [], w') := by
  have manages : mixed.Manages 0 := World.single_manages.setOntology rfl
  have lawful : (mixed.ontology 0).Lawful := by
    refine ⟨fun a ha => ?_, ?_⟩
    · have ha : a ∈ aboutClass ++ aboutOthers := ha
      simp only [aboutClass, aboutOthers, List.mem_append, List.mem_cons, List.not_mem_nil, or_false] at ha
      rcases ha with (rfl | rfl | rfl) | rfl | rfl | rfl
      all_goals exact ⟨by decide, by decide⟩
    · show Distinct (aboutClass ++ aboutOthers)
      unfold Distinct
      decide
  have involving : ((mixed.ontology 0).axioms.filter fun a => a.Involves ⟨.cls, "c"⟩) = aboutClass := by rfl
  have others : ((mixed.ontology 0).axioms.filter fun a => ¬a.Involves ⟨.cls, "c"⟩) = aboutOthers := by rfl
  obtain ⟨w', hrun, hw, hagain⟩ := removeEntity_exact manages lawful 0 ⟨.cls, "c"⟩ .plain
  exact ⟨w', involving ▸ hrun, hw, hw.axioms.trans others, hagain⟩

end Change

end Authoring
