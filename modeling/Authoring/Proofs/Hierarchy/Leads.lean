import Authoring.Hierarchy
import Authoring.Proofs.Distinct
import Authoring.Proofs.Term.Built
import Mathlib.Logic.Relation

/-!
# One step of the hierarchy, as a relation

`Ontology.Leads` is what the hierarchy of an ontology is about: from a class to what is asserted to be directly
above it or, the other way, directly below it, by subclass axioms; and from an object property likewise, by
subproperty axioms. An axiom counts as asserted if it is found among those that are stored, so a class made by
another factory, or an expression with its operands in another order, stands for its equal.

`Ontology.step` computes this relation from an entity, up to equality of what it leads to: everything in a step
is led to (`leads_of_mem_step`), and everything that is led to finds something in the step
(`exists_mem_step`). Equality of expressions need not compose, so the latter is a chain of findings
(`Term.Linked`); it is one finding where the term is built (`Linked.beq_of_isBuilt`).
-/

namespace Authoring

/-! ## Terms that find each other -/

namespace Term

/-- Looking for a term one finds the next, and so on to the last. -/
def Linked : Term → Term → Prop := Relation.ReflTransGen fun t u => (t == u) = true

namespace Linked

theorem single {t u : Term} (h : (t == u) = true) : Linked t u := Relation.ReflTransGen.single h

theorem trans {t u v : Term} (h : Linked t u) (h' : Linked u v) : Linked t v := Relation.ReflTransGen.trans h h'

/-- An entity is linked to itself alone, of whatever maker. -/
theorem exists_entity {m : Nat} {e : Entity} {t : Term} (h : Linked (.entity m e) t) :
    ∃ n, t = .entity n e := by
  induction h with
  | refl => exact ⟨m, rfl⟩
  | tail _ hst ih =>
    obtain ⟨n, rfl⟩ := ih
    exact entity_agrees.mp hst

/-- From a built term a chain of findings is one finding. -/
theorem beq_of_isBuilt {t u : Term} (h : Linked t u) (ht : t.isBuilt = true) : (t == u) = true := by
  induction h with
  | refl => exact BEq.rfl
  | tail _ hst ih => exact agrees_trans ht ih hst

end Linked

end Term

/-- Looking for an axiom with two operands one finds such axioms, operand by operand. -/
theorem Axiom.pair_beq {k : AxiomKind} {x y : Term} {a : Axiom} :
    ((⟨k, [x, y]⟩ : Axiom) == a) = true ↔ ∃ u v, a = ⟨k, [u, v]⟩ ∧ (x == u) = true ∧ (y == v) = true := by
  obtain ⟨j, ts⟩ := a
  show Term.agrees true true (.statement k [x, y]) (.statement j ts) = true ↔ _
  simp only [Term.agrees, Bool.and_eq_true, beq_iff_eq]
  constructor
  · rintro ⟨rfl, h⟩
    rcases ts with _ | ⟨u, _ | ⟨v, ts⟩⟩
    · cases h
    · simp [Term.agreeAll] at h
    · simp only [Term.agreeAll, Bool.and_eq_true, List.isEmpty_iff] at h
      exact ⟨u, v, by rw [h.2.2], h.1, h.2.1⟩
  · rintro ⟨u, v, h, hx, hy⟩
    cases h
    exact ⟨rfl, by simpa only [Term.agreeAll, Bool.and_eq_true] using ⟨hx, hy, rfl⟩⟩

/-! ## The relation -/

namespace Direction

/-- The operands of an axiom that leads from the first term to the second. -/
def operands (d : Direction) (x y : Term) : List Term :=
  match d with
  | .up => [x, y]
  | .down => [y, x]

end Direction

/-- The axioms that the hierarchy of entities of a kind consists of. -/
def EntityKind.hierarchy? : EntityKind → Option AxiomKind
  | .cls => some .subclassOf
  | .objectProperty => some .subObjectPropertyOf
  | _ => none

namespace Ontology

variable {o : Ontology} {d : Direction} {k : AxiomKind} {m : Nat} {e : Entity} {s t u : Term}

/-- Whether an axiom that leads from the first term to the second is stored. -/
def Asserts (o : Ontology) (k : AxiomKind) (d : Direction) (x y : Term) : Prop :=
  o.axioms.contains ⟨k, d.operands x y⟩ = true

/-- **One step of the hierarchy**: from a class along a subclass axiom, or from an object property along a
subproperty axiom. Nothing leads from an expression. -/
def Leads (o : Ontology) (d : Direction) (x y : Term) : Prop :=
  ∃ m iri, (x = .entity m ⟨.cls, iri⟩ ∧ o.Asserts .subclassOf d x y) ∨
    (x = .entity m ⟨.objectProperty, iri⟩ ∧ o.Asserts .subObjectPropertyOf d x y)

theorem Leads.exists_entity (h : o.Leads d s t) : ∃ m e, s = .entity m e := by
  obtain ⟨m, iri, ⟨h, _⟩ | ⟨h, _⟩⟩ := h
  · exact ⟨m, _, h⟩
  · exact ⟨m, _, h⟩

/-- What leads from an entity: an axiom of its hierarchy, stored with the entity in its place. -/
theorem leads_entity : o.Leads d (.entity m e) t ↔ ∃ k, e.kind.hierarchy? = some k ∧
    o.Asserts k d (.entity m e) t := by
  obtain ⟨kind, iri⟩ := e
  constructor
  · rintro ⟨n, i, ⟨h, ha⟩ | ⟨h, ha⟩⟩
    · cases h
      exact ⟨_, rfl, ha⟩
    · cases h
      exact ⟨_, rfl, ha⟩
  · rintro ⟨k, hk, ha⟩
    cases kind <;> cases hk
    · exact ⟨m, iri, .inl ⟨rfl, ha⟩⟩
    · exact ⟨m, iri, .inr ⟨rfl, ha⟩⟩

theorem asserts_entity : o.Asserts k d (.entity m e) t ↔
    ∃ n u, (⟨k, d.operands (.entity n e) u⟩ : Axiom) ∈ o.axioms ∧ (t == u) = true := by
  rw [Asserts, List.contains_iff_exists_mem_beq]
  constructor
  · rintro ⟨a, ha, h⟩
    cases d
    · obtain ⟨x, u, rfl, hx, hu⟩ := Axiom.pair_beq.mp h
      obtain ⟨n, rfl⟩ := Term.entity_agrees.mp hx
      exact ⟨n, u, ha, hu⟩
    · obtain ⟨u, x, rfl, hu, hx⟩ := Axiom.pair_beq.mp h
      obtain ⟨n, rfl⟩ := Term.entity_agrees.mp hx
      exact ⟨n, u, ha, hu⟩
  · rintro ⟨n, u, ha, hu⟩
    have hx : (Term.entity m e == Term.entity n e) = true := Term.entity_agrees.mpr ⟨n, rfl⟩
    cases d
    · exact ⟨_, ha, Axiom.pair_beq.mpr ⟨_, _, rfl, hx, hu⟩⟩
    · exact ⟨_, ha, Axiom.pair_beq.mpr ⟨_, _, rfl, hu, hx⟩⟩

/-- Equal entities lead to the same terms. -/
theorem Leads.of_maker {n : Nat} (h : o.Leads d (.entity m e) t) : o.Leads d (.entity n e) t := by
  obtain ⟨k, hk, ha⟩ := leads_entity.mp h
  exact leads_entity.mpr ⟨k, hk, asserts_entity.mpr (asserts_entity.mp ha)⟩

/-! ## What a step finds -/

/-- The other operands of the axioms of a kind that have an entity in its place, before repetitions are
left out. -/
def along (o : Ontology) (k : AxiomKind) : Direction → Term → List Term
  | .up, t => (o.ofKind k).filterMap fun a =>
    match a.operands with
    | [x, y] => if x.equals t then some y else none
    | _ => none
  | .down, t => (o.ofKind k).filterMap fun a =>
    match a.operands with
    | [x, y] => if y.equals t then some x else none
    | _ => none

theorem mem_along : u ∈ o.along k d (.entity m e) ↔
    ∃ n, (⟨k, d.operands (.entity n e) u⟩ : Axiom) ∈ o.axioms := by
  have pair : ∀ (a : Axiom), a ∈ o.ofKind k ↔ a ∈ o.axioms ∧ a.kind = k := by
    intro a
    rw [ofKind, List.mem_filter, beq_iff_eq]
  cases d <;> simp only [along, List.mem_filterMap, pair]
  all_goals
    constructor
    · rintro ⟨⟨j, ts⟩, ⟨ha, rfl⟩, h⟩
      split at h
      case h_1 x y hxy =>
        cases hxy
        split at h
        case isTrue heq =>
          obtain ⟨n, rfl⟩ := Term.equals_entity.mp heq
          cases h
          exact ⟨n, ha⟩
        case isFalse => cases h
      case h_2 => cases h
    · rintro ⟨n, ha⟩
      refine ⟨_, ⟨ha, rfl⟩, ?_⟩
      simp only [Direction.operands]
      rw [if_pos (Term.equals_entity.mpr ⟨n, rfl⟩)]

theorem step_entity : o.step d (.entity m e) =
    match e.kind.hierarchy? with
    | some k => (o.along k d (.entity m e)).eraseDups
    | none => [] := by
  obtain ⟨kind, iri⟩ := e
  cases kind <;> cases d <;> rfl

/-- Nothing but an entity of a kind with a hierarchy has a step. -/
theorem mem_step (h : t ∈ o.step d s) : ∃ m e k n, s = .entity m e ∧ e.kind.hierarchy? = some k ∧
    (⟨k, d.operands (.entity n e) t⟩ : Axiom) ∈ o.axioms := by
  cases s
  case entity m e =>
    rw [step_entity] at h
    cases hk : e.kind.hierarchy? with
    | none =>
      rw [hk] at h
      cases h
    | some k =>
      rw [hk] at h
      obtain ⟨n, ha⟩ := mem_along.mp (Distinct.mem_of_mem_eraseDups h)
      exact ⟨m, e, k, n, rfl, hk, ha⟩
  all_goals cases h

/-- A step leads to all that it has, and to what finds something that it has. -/
theorem leads_of_mem_step (h : u ∈ o.step d s) (htu : (t == u) = true) : o.Leads d s t := by
  obtain ⟨m, e, k, n, rfl, hk, ha⟩ := mem_step h
  exact leads_entity.mpr ⟨k, hk, asserts_entity.mpr ⟨n, u, ha, htu⟩⟩

/-- Whatever is led to finds something that the step has. -/
theorem exists_mem_step (h : o.Leads d s t) : ∃ u ∈ o.step d s, Term.Linked t u := by
  obtain ⟨m, e, rfl⟩ := h.exists_entity
  obtain ⟨k, hk, ha⟩ := leads_entity.mp h
  obtain ⟨n, u, ha, htu⟩ := asserts_entity.mp ha
  obtain ⟨v, hv, huv⟩ := Distinct.exists_mem_eraseDups (mem_along (m := m).mpr ⟨n, ha⟩)
  rw [step_entity, hk]
  exact ⟨v, hv, (Term.Linked.single htu).trans (.single huv)⟩

/-- So an entity or built expression is found in a step if and only if it is led to. -/
theorem step_contains_iff (ht : t.isBuilt = true) : (o.step d s).contains t = true ↔ o.Leads d s t := by
  rw [List.contains_iff_exists_mem_beq]
  constructor
  · rintro ⟨u, hu, htu⟩
    exact leads_of_mem_step hu htu
  · intro h
    obtain ⟨u, hu, htu⟩ := exists_mem_step h
    exact ⟨u, hu, htu.beq_of_isBuilt ht⟩

end Ontology

end Authoring
