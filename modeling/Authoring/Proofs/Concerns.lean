import Authoring.Proofs.Ontology
import Authoring.Proofs.Reference

/-!
# Axioms about an entity

An axiom *concerns* an entity if it can be stored and mentions the entity. One whose operands are built does, if
one of them is or holds the entity (`Axiom.Concerns.of_built`), because it refers to it; and so does an
annotation along an entity of the entity's IRI (`Axiom.Concerns.of_note`), although it need not refer to it.
-/

namespace Authoring

namespace Term

mutual
/-- A built term refers to entities only. -/
theorem isEntity_of_mem_referents : ∀ {t u : Term}, t.isBuilt = true → u ∈ t.referents → u.isEntity = true
  | .entity .., u, _, hu => by
    rw [List.mem_singleton.mp hu]
    rfl
  | .expression (.keyword (.operator _)) ts c, u, h, hu =>
    isEntity_of_mem_referentsAll (Bool.and_eq_true_iff.mp h).1 hu
  | .set true ts, u, h, hu => isEntity_of_mem_referentsAll h hu
theorem isEntity_of_mem_referentsAll : ∀ {ts : List Term} {u : Term}, areBuilt ts = true →
    u ∈ referentsAll ts → u.isEntity = true
  | [], u, _, hu => by cases hu
  | t :: ts, u, h, hu => by
    obtain ⟨ht, hts⟩ := Bool.and_eq_true_iff.mp h
    rcases List.mem_append.mp hu with hu | hu
    · exact isEntity_of_mem_referents ht hu
    · exact isEntity_of_mem_referentsAll hts hu
end

theorem isStable_of_isEntity {t : Term} (h : t.isEntity = true) : t.isStable = true := by
  cases t <;> cases h
  rfl

/-- A set of built terms is built. -/
theorem isBuilt_group {ts : List Term} (h : ∀ t ∈ ts, t.isBuilt = true) : (Axiom.group ts).isBuilt = true :=
  areBuilt_iff.mpr fun t ht => h t (Distinct.mem_of_mem_eraseDups ht)

/-- A set that an entity is put into refers to it. -/
theorem exists_mem_referents_group {ts : List Term} {m : Nat} {e : Entity} (h : Term.entity m e ∈ ts) :
    ∃ n, Term.entity n e ∈ (Axiom.group ts).referents := by
  obtain ⟨t, ht, hm⟩ := Distinct.exists_mem_eraseDups h
  obtain ⟨n, rfl⟩ := entity_agrees.mp hm
  refine ⟨n, ?_⟩
  show Term.entity n e ∈ referentsAll ts.eraseDups
  rw [referentsAll_eq_flatMap]
  exact List.mem_flatMap.mpr ⟨_, ht, List.mem_singleton.mpr rfl⟩

end Term

namespace Axiom

variable {a : Axiom} {m : Nat} {e : Entity}

/-- Whether an axiom can be stored and mentions an entity. -/
def Concerns (a : Axiom) (m : Nat) (e : Entity) : Prop := a.IsStable ∧ a.mentions e m = true

namespace Concerns

/-- An axiom over built terms that refers to the entity. -/
theorem of_built {k : AxiomKind} {ts : List Term} (hts : ∀ t ∈ ts, t.isBuilt = true)
    (he : ∃ t ∈ ts, ∃ n, Term.entity n e ∈ t.referents) : Concerns ⟨k, ts⟩ m e := by
  have hbuilt : Term.areBuilt ts = true := Term.areBuilt_iff.mpr hts
  refine ⟨⟨Term.areStable_of_areBuilt hbuilt, ?_⟩, ?_⟩
  · intro t ht
    exact Term.isStable_of_isEntity (Term.isEntity_of_mem_referentsAll hbuilt (Distinct.mem_of_mem_eraseDups ht))
  · obtain ⟨t, ht, n, hn⟩ := he
    rw [mentions, signature_contains_entity.mpr ⟨n, ?_⟩, Bool.true_or]
    rw [Term.referentsAll_eq_flatMap]
    exact List.mem_flatMap.mpr ⟨t, ht, hn⟩

/-- An axiom with the entity and other built terms as operands. -/
theorem of_mem {k : AxiomKind} {ts : List Term} (hts : ∀ t ∈ ts, t.isBuilt = true)
    (he : Term.entity m e ∈ ts) : Concerns ⟨k, ts⟩ m e :=
  of_built hts ⟨_, he, m, List.mem_singleton.mpr rfl⟩

/-- An axiom between two built terms, one of which is the entity. -/
theorem of_pair {k : AxiomKind} {t u : Term} (ht : t.isBuilt = true) (hu : u.isBuilt = true)
    (he : Term.entity m e ∈ [t, u]) : Concerns ⟨k, [t, u]⟩ m e := by
  apply of_mem _ he
  intro v hv
  rcases List.mem_cons.mp hv with rfl | hv
  · exact ht
  · rwa [List.mem_singleton.mp hv]

/-- An axiom with a set as its operand that holds the entity and another built term. -/
theorem of_group {k : AxiomKind} {t : Term} (ht : t.isBuilt = true) :
    Concerns ⟨k, [group [.entity m e, t]]⟩ m e := by
  refine of_built ?_ ⟨_, List.mem_singleton.mpr rfl, Term.exists_mem_referents_group List.mem_cons_self⟩
  intro u hu
  rw [List.mem_singleton.mp hu]
  apply Term.isBuilt_group
  intro v hv
  rcases List.mem_cons.mp hv with rfl | hv
  · rfl
  · rwa [List.mem_singleton.mp hv]

/-- An annotation of the IRI of the entity. -/
theorem of_note {p : Term} (hp : p.isEntity = true) (l : Literal) :
    Concerns (annotationAssertion (.iri e.iri) (.note p l)) m e := by
  have hstable := Term.isStable_of_isEntity hp
  refine ⟨⟨?_, ?_⟩, ?_⟩
  · simp [annotationAssertion, toTerm, Term.isStable, Term.areStable, hstable]
  · intro t ht
    have ht := Distinct.mem_of_mem_eraseDups ht
    rw [annotationAssertion, Term.referentsAll_eq_flatMap] at ht
    have : t = p := by simpa [Term.referents] using ht
    rwa [this]
  · simp [mentions, annotates, annotationAssertion, Term.equals, Term.agrees, Term.atomAgrees, Term.isNaN]

end Concerns

end Axiom

end Authoring
