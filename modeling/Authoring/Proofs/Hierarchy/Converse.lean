import Authoring.Proofs.Graph.Taxonomy
import Authoring.Proofs.Hierarchy.Forms

/-!
# Above and below are converse

What stands above a class or an object property is what it stands below: one step away, after any number of steps, and
by the verdict on two of them (`Hierarchy.above_iff_below`). Cycles may be asserted, and expressions may stand on either
side of a subclass axiom.

**What carries the proof.** One axiom is behind a step up and the step back down (`Ontology.swap_steps`). Both closures
have exactly what is reached by steps (`IsClosure.exact`), so all depends on whether a way can be gone back. Nothing leads
from an expression, and so every term on the way from an entity to an entity is an entity. It is of the same kind, for
the axioms of a hierarchy are sorted (`Ontology.IsSorted`); so the way is one of steps between entities of one kind
(`IsSorted.reached_iff`), and these turn round.

**What is assumed.** Subclass axioms are about classes and class expressions, and subproperty axioms about object
properties. Otherwise a property could stand between two classes: it would be above the one, but the other not above it.
-/

namespace Authoring

open Act
open Relation (TransGen)

namespace Ontology

variable {o : Ontology} {d : Direction} {kind : EntityKind} {m n : Nat} {e f : Entity} {x y : String} {t : Term}

instance (t : Term) : Decidable (IsClassOrExpression t) :=
  inferInstanceAs (Decidable (t.IsOfKind .cls ∨ t.isExpression = true ∧ t.isStable = true))

/-- The axioms of a hierarchy are about terms of one sort: classes and class expressions, or object properties. -/
structure IsSorted (o : Ontology) : Prop where
  classes : o.IsTaxonomy
  properties : ∀ a ∈ o.axioms, a.kind = .subObjectPropertyOf → ∀ t ∈ a.operands, t.IsOfKind .objectProperty

theorem IsSorted.isHierarchy (ho : o.IsSorted) : o.IsHierarchy := by
  intro a ha hk t ht
  rcases hk with hk | hk
  · exact (ho.classes a ha hk t ht).isNode
  · have hp := ho.properties a ha hk t ht
    exact ⟨.inl hp.isEntity, hp.isStable⟩

/-- An entity leads to entities of its own kind only. -/
theorem IsSorted.kind_eq (ho : o.IsSorted) (h : o.Leads d (.entity m e) (.entity n f)) : f.kind = e.kind := by
  obtain ⟨k, hk, hasserts⟩ := leads_entity.mp h
  obtain ⟨m', u, ha, hu⟩ := asserts_entity.mp hasserts
  obtain ⟨n', rfl⟩ := Term.entity_agrees.mp hu
  have hmem : Term.entity n' f ∈ d.operands (.entity m' e) (.entity n' f) := by
    cases d <;> simp [Direction.operands]
  cases hkind : e.kind <;> rw [hkind] at hk <;> cases hk
  · rw [ho.classes.kind_eq ha hmem]
  · obtain ⟨n'', iri, heq⟩ := ho.properties _ ha rfl _ hmem
    cases heq
    rfl

/-- One step from an entity to another of the same kind, by their IRIs. -/
def Steps (o : Ontology) (kind : EntityKind) (d : Direction) (x y : String) : Prop :=
  o.Leads d (.entity 0 ⟨kind, x⟩) (.entity 0 ⟨kind, y⟩)

/-- The factories that made the entities make no difference. -/
theorem steps_iff (m n : Nat) : o.Steps kind d x y ↔ o.Leads d (.entity m ⟨kind, x⟩) (.entity n ⟨kind, y⟩) := by
  simp only [Steps, leads_entity, asserts_entity, Term.entity_agrees (k := true) (b := true), BEq.beq]

/-- **Every step can be gone back**, for the same axiom asserts both. -/
theorem swap_steps (o : Ontology) (kind : EntityKind) : Function.swap (o.Steps kind .up) = o.Steps kind .down := by
  funext x y
  simp only [Function.swap, Steps, leads_entity, Asserts, Direction.operands]

/-- What is reached from an entity, if it is an entity, is of the same kind and is reached by steps between such
entities. -/
theorem IsSorted.reached (ho : o.IsSorted) (h : TransGen (o.Leads d) (.entity m ⟨kind, x⟩) t) :
    ∀ n f, t = .entity n f → f.kind = kind ∧ TransGen (o.Steps kind d) x f.iri := by
  induction h with
  | single hs =>
    rintro n ⟨j, y⟩ rfl
    obtain rfl := ho.kind_eq hs
    exact ⟨rfl, .single ((steps_iff m n).mpr hs)⟩
  | tail _ hs ih =>
    rintro n ⟨j, y⟩ rfl
    obtain ⟨l, ⟨i, z⟩, rfl⟩ := hs.exists_entity
    obtain ⟨rfl, hreach⟩ := ih l _ rfl
    obtain rfl := ho.kind_eq hs
    exact ⟨rfl, hreach.tail ((steps_iff l n).mpr hs)⟩

theorem IsSorted.reached_iff (ho : o.IsSorted) (m n : Nat) :
    TransGen (o.Leads d) (.entity m ⟨kind, x⟩) (.entity n ⟨kind, y⟩) ↔ TransGen (o.Steps kind d) x y := by
  constructor
  · exact fun h => (ho.reached h n _ rfl).2
  · intro h
    induction h generalizing n with
    | single hs => exact .single ((steps_iff m n).mp hs)
    | tail _ hs ih => exact (ih 0).tail ((steps_iff 0 n).mp hs)

/-- **What is reached by going up is reached by going down from the other end.** -/
theorem IsSorted.reached_converse (ho : o.IsSorted) (m n : Nat) :
    TransGen (o.Leads .up) (.entity m ⟨kind, x⟩) (.entity n ⟨kind, y⟩) ↔
      TransGen (o.Leads .down) (.entity n ⟨kind, y⟩) (.entity m ⟨kind, x⟩) := by
  rw [ho.reached_iff, ho.reached_iff, ← swap_steps, Relation.transGen_swap]

end Ontology

namespace Hierarchy

variable {env : Env} {w : World} {id : Nat} {ontology s t : Term} {d : Direction}

/-- **The answers about what is above a first term and below a second one are converse**, and asking changes nothing. -/
structure Converse (env : Env) (ontology : Term) (w : World) (s t : Term) : Prop where
  direct : ∃ supers subs, direct .up s ontology env w = (.ok supers, w) ∧ direct .down t ontology env w = (.ok subs, w) ∧
    supers.contains t = subs.contains s
  closure : ∃ ancestors descendants, closure .up s ontology env w = (.ok ancestors, w) ∧
    closure .down t ontology env w = (.ok descendants, w) ∧ ancestors.contains t = descendants.contains s
  reaches : ∃ b, reaches .up s t ontology env w = (.ok b, w) ∧ reaches .down t s ontology env w = (.ok b, w)

/-- Whether an entity is reached from another of the same kind is whether it is found in the closure. -/
theorem run_reaches (ho : (w.ontology id).IsHierarchy) (d : Direction) (m n : Nat) (kind : EntityKind) (x y : String)
    (env : Env) : ∃ members, closure d (.entity m ⟨kind, x⟩) (.handle (.ontology id)) env w = (.ok members, w) ∧
      IsClosure (w.ontology id) d (.entity m ⟨kind, x⟩) members ∧
      reaches d (.entity m ⟨kind, x⟩) (.entity n ⟨kind, y⟩) (.handle (.ontology id)) env w =
        (.ok (members.contains (.entity n ⟨kind, y⟩)), w) := by
  have hnode : (Term.entity m ⟨kind, x⟩).IsNode := ⟨.inl rfl, rfl⟩
  obtain ⟨members, hrun, hmembers⟩ :=
    run_closure_within (d := d) (fun t ht => ⟨ht, fun u hu => ho.isNode hu⟩) hnode env
  refine ⟨members, hrun, hmembers, ?_⟩
  have hpair : pair (.entity m ⟨kind, x⟩) (.entity n ⟨kind, y⟩) (.handle (.ontology id)) env w =
      (.ok (.entity m ⟨kind, x⟩, .entity n ⟨kind, y⟩), w) := by
    have hfirst := Reference.resolve_entity m kind x (.handle (.ontology id)) Factory.shared
    have hsecond := Reference.resolve_entity n kind y (.handle (.ontology id)) Factory.shared
    rw [pair_eq, run_bind, Builder.kindOr, hfirst]
    dsimp only
    rw [run_bind, Builder.kindOr, hsecond]
    rfl
  rw [reaches, Current.orGiven_handle, pure_bind, run_bind, hpair]
  dsimp only
  rw [run_bind, hrun]
  dsimp only
  rw [run_bind, run_requireStable rfl]
  rfl

/-- **Above and below are converse** between any two classes, and between any two object properties. -/
theorem above_iff_below (hgiven : Current.orGiven ontology env w = (.ok (.handle (.ontology id)), w))
    (ho : (w.ontology id).IsSorted) (kind : EntityKind) (m n : Nat) (x y : String) :
    Converse env ontology w (.entity m ⟨kind, x⟩) (.entity n ⟨kind, y⟩) := by
  obtain ⟨ancestors, hup, habove, hreachup⟩ := run_reaches ho.isHierarchy .up m n kind x y env
  obtain ⟨descendants, hdown, hbelow, hreachdown⟩ := run_reaches ho.isHierarchy .down n m kind y x env
  have hmembers : ancestors.contains (.entity n ⟨kind, y⟩) = descendants.contains (.entity m ⟨kind, x⟩) := by
    rw [Bool.eq_iff_iff, habove.exact _ rfl, hbelow.exact _ rfl]
    exact ho.reached_converse m n
  refine ⟨⟨(w.ontology id).step .up (.entity m ⟨kind, x⟩), (w.ontology id).step .down (.entity n ⟨kind, y⟩), ?_, ?_, ?_⟩,
    ⟨ancestors, descendants, ?_, ?_, hmembers⟩, ⟨ancestors.contains (.entity n ⟨kind, y⟩), ?_, ?_⟩⟩
  · exact (Current.run_given hgiven _).trans (run_direct ⟨.inl rfl, rfl⟩ .up id env w)
  · exact (Current.run_given hgiven _).trans (run_direct ⟨.inl rfl, rfl⟩ .down id env w)
  · rw [Bool.eq_iff_iff, Ontology.step_contains_iff rfl, Ontology.step_contains_iff rfl, ← Ontology.steps_iff,
      ← Ontology.steps_iff, ← Ontology.swap_steps]
  · exact (Current.run_given hgiven _).trans hup
  · exact (Current.run_given hgiven _).trans hdown
  · exact (Current.run_given hgiven _).trans hreachup
  · rw [hmembers]
    exact (Current.run_given hgiven _).trans hreachdown

/-- On a cycle of two classes, one of which has an expression above it, each is above and below the other, whichever
factory made it. -/
theorem above_iff_below_cyclic :
    Current.orGiven (.handle (.ontology 0)) .plain cyclic = (.ok (.handle (.ontology 0)), cyclic) ∧
      (cyclic.ontology 0).IsSorted ∧
      Converse .plain (.handle (.ontology 0)) cyclic (.entity 1 ⟨.cls, "b"⟩) (.entity 0 ⟨.cls, "a"⟩) := by
  have hsorted : (cyclic.ontology 0).IsSorted := by
    refine ⟨?_, ?_⟩
    · unfold Ontology.IsTaxonomy
      decide
    · decide
  exact ⟨rfl, hsorted, above_iff_below rfl hsorted .cls 1 0 "b" "a"⟩

end Hierarchy

end Authoring
