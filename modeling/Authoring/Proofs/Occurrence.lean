import Authoring.Proofs.Ontology

/-!
# What occurs in an axiom

A term *occurs* in another if it is that term, or occurs in an operand of an expression, in an item of a tuple or in a
member of a fixed set; and the property of an annotation occurs in the annotation (`Term.Occurs`). An axiom *involves*
an entity if the entity occurs in one of its operands, or if it is an annotation of the entity's IRI
(`Axiom.Involves`).

These two say what is meant. What is computed is the list of all that an axiom refers to, in which the entity is then
looked for; it comes to the same (`Axiom.mentions_iff`).
-/

namespace Authoring

namespace Term

/-- **Where a term occurs**, at any depth. -/
inductive Occurs (u : Term) : Term → Prop
  | self : Occurs u u
  | operand {o c t : Term} {ts : List Term} (ht : t ∈ ts) (h : Occurs u t) : Occurs u (.expression o ts c)
  | property (l : Literal) : Occurs u (.note u l)
  | item {t : Term} {ts : List Term} (ht : t ∈ ts) (h : Occurs u t) : Occurs u (.tuple ts)
  | member {t : Term} {ts : List Term} (ht : t ∈ ts) (h : Occurs u t) : Occurs u (.set true ts)

section
variable {u : Term}

@[simp] theorem occurs_entity {m : Nat} {e : Entity} : u.Occurs (.entity m e) ↔ u = .entity m e :=
  ⟨fun h => by cases h; rfl, fun h => h ▸ .self⟩

@[simp] theorem occurs_iri {s : String} : u.Occurs (.iri s) ↔ u = .iri s :=
  ⟨fun h => by cases h; rfl, fun h => h ▸ .self⟩

@[simp] theorem occurs_note {p : Term} {l : Literal} : u.Occurs (.note p l) ↔ u = .note p l ∨ u = p := by
  constructor
  · rintro (_ | _)
    · exact .inl rfl
    · exact .inr rfl
  · rintro (rfl | rfl)
    · exact .self
    · exact .property l

@[simp] theorem occurs_expression {o c : Term} {ts : List Term} :
    u.Occurs (.expression o ts c) ↔ u = .expression o ts c ∨ ∃ t ∈ ts, u.Occurs t := by
  constructor
  · rintro (_ | ⟨ht, h⟩)
    · exact .inl rfl
    · exact .inr ⟨_, ht, h⟩
  · rintro (rfl | ⟨t, ht, h⟩)
    · exact .self
    · exact .operand ht h

@[simp] theorem occurs_set {ts : List Term} : u.Occurs (.set true ts) ↔ u = .set true ts ∨ ∃ t ∈ ts, u.Occurs t := by
  constructor
  · rintro (_ | _ | _ | _ | ⟨ht, h⟩)
    · exact .inl rfl
    · exact .inr ⟨_, ht, h⟩
  · rintro (rfl | ⟨t, ht, h⟩)
    · exact .self
    · exact .member ht h

end

theorem referents_subset_referentsAll {t : Term} {ts : List Term} (ht : t ∈ ts) : t.referents ⊆ referentsAll ts := by
  intro u hu
  rw [referentsAll_eq_flatMap]
  exact List.mem_flatMap.mpr ⟨t, ht, hu⟩

theorem Occurs.mem_referents {m : Nat} {e : Entity} {t : Term} (h : Occurs (.entity m e) t) :
    .entity m e ∈ t.referents := by
  induction h with
  | self => exact List.mem_cons_self
  | property => exact List.mem_cons_self
  | operand ht _ ih => exact referents_subset_referentsAll ht ih
  | item ht _ ih => exact referents_subset_referentsAll ht ih
  | member ht _ ih => exact referents_subset_referentsAll ht ih

mutual
theorem occurs_of_mem_referents {u : Term} : ∀ {t : Term}, u ∈ t.referents → u.Occurs t
  | .entity .., h => List.mem_singleton.mp h ▸ .self
  | .note _ l, h => List.mem_singleton.mp h ▸ .property l
  | .expression .., h =>
    have ⟨_, ht, hu⟩ := occurs_of_mem_referentsAll h
    .operand ht hu
  | .tuple _, h =>
    have ⟨_, ht, hu⟩ := occurs_of_mem_referentsAll h
    .item ht hu
  | .set true _, h =>
    have ⟨_, ht, hu⟩ := occurs_of_mem_referentsAll h
    .member ht hu
theorem occurs_of_mem_referentsAll {u : Term} : ∀ {ts : List Term}, u ∈ referentsAll ts → ∃ t ∈ ts, u.Occurs t
  | _ :: _, h => by
    rcases List.mem_append.mp h with h | h
    · exact ⟨_, List.mem_cons_self, occurs_of_mem_referents h⟩
    · obtain ⟨t, ht, hu⟩ := occurs_of_mem_referentsAll h
      exact ⟨t, List.mem_cons_of_mem _ ht, hu⟩
end

end Term

namespace Axiom

variable {a : Axiom} {e : Entity}

/-- Whether a term occurs in an operand of the axiom. -/
def Has (a : Axiom) (u : Term) : Prop := ∃ t ∈ a.operands, u.Occurs t

/-- **Which entities an axiom is about**: those that occur in it, made by whatever factory, and those whose IRI it
annotates. -/
inductive Involves (e : Entity) : Axiom → Prop
  | occurs {a : Axiom} {m : Nat} (h : a.Has (.entity m e)) : Involves e a
  | annotates {s : Term} {ts : List Term} (h : s.equals (.iri e.iri) = true) :
    Involves e ⟨.annotationAssertion, s :: ts⟩

/-- An axiom refers to the entities that occur in it. -/
theorem signature_contains_iff {m : Nat} : a.signature.contains (.entity m e) = true ↔ ∃ n, a.Has (.entity n e) := by
  rw [signature_contains_entity]
  constructor
  · rintro ⟨n, hn⟩
    exact ⟨n, Term.occurs_of_mem_referentsAll hn⟩
  · rintro ⟨n, t, ht, hn⟩
    exact ⟨n, Term.referents_subset_referentsAll ht hn.mem_referents⟩

theorem annotates_iff {iri : String} : a.annotates iri = true ↔
    ∃ s ts, a = ⟨.annotationAssertion, s :: ts⟩ ∧ s.equals (.iri iri) = true := by
  constructor
  · intro h
    obtain ⟨k, _ | ⟨s, ts⟩⟩ := a
    · simp [annotates] at h
    · obtain ⟨rfl, hs⟩ : k = .annotationAssertion ∧ s.equals (.iri iri) = true := by simpa [annotates] using h
      exact ⟨s, ts, rfl, hs⟩
  · rintro ⟨s, ts, rfl, hs⟩
    simpa [annotates] using hs

/-- **What is mentioned is what an axiom is about.** -/
theorem mentions_iff {m : Nat} : a.mentions e m = true ↔ a.Involves e := by
  rw [mentions, Bool.or_eq_true, signature_contains_iff, annotates_iff]
  constructor
  · rintro (⟨n, h⟩ | ⟨s, ts, rfl, h⟩)
    · exact .occurs h
    · exact .annotates h
  · rintro (h | h)
    · exact .inl ⟨_, h⟩
    · exact .inr ⟨_, _, rfl, h⟩

instance (a : Axiom) (e : Entity) : Decidable (a.Involves e) := decidable_of_iff _ (mentions_iff (m := 0))

end Axiom

end Authoring
