import Authoring.Proofs.Ontology
import Authoring.Proofs.Policy

/-!
# The forms of axioms

An axiom is a kind and operands, and nothing in this keeps a property from standing where a class belongs.
`AxiomKind.places` says what belongs where: the places of each kind, in order, and `Place.Admits` which terms may stand
at a place. An axiom *has its form* if its operands are admitted one by one (`Axiom.HasForm`).

What counts as the description of a class, and as the property of an annotation, is left open here, for it depends on
what is let through.

The sizes of the sets are part of the form: disjointness, sameness and difference are between two members at least, and
an axiom on inverses has one member or two.
-/

namespace Authoring

/-- What may stand at a place of an axiom. -/
inductive Place where
  /-- An entity of whatever kind. -/
  | entity
  | named (kind : EntityKind)
  /-- A class or class expression. -/
  | description
  /-- The IRI of what is annotated. -/
  | subject
  | note
  /-- A set of so many members. -/
  | members (least : Nat) (most : Option Nat) (place : Place)
  deriving Repr, Inhabited

/-- **What belongs where** in an axiom of a kind. -/
def AxiomKind.places : AxiomKind → List Place
  | .declaration => [.entity]
  | .subclassOf => [.named .cls, .description]
  | .equivalentClasses => [.members 1 none .description]
  | .disjointClasses => [.members 2 none .description]
  | .disjointUnion => [.description, .members 0 none .description]
  | .objectPropertyDomain | .objectPropertyRange => [.named .objectProperty, .description]
  | .inverseObjectProperties => [.members 1 (some 2) (.named .objectProperty)]
  | .subObjectPropertyOf => [.named .objectProperty, .named .objectProperty]
  | .transitiveObjectProperty | .functionalObjectProperty | .inverseFunctionalObjectProperty =>
    [.named .objectProperty]
  | .subAnnotationPropertyOf => [.named .annotationProperty, .named .annotationProperty]
  | .annotationAssertion => [.subject, .note]
  | .classAssertion => [.description, .named .individual]
  | .objectPropertyAssertion | .negativeObjectPropertyAssertion =>
    [.named .objectProperty, .named .individual, .named .individual]
  | .sameIndividual | .differentIndividuals => [.members 2 none (.named .individual)]

/-- A place for something that is no set. -/
def Place.IsSingle : Place → Prop
  | .members .. => False
  | _ => True

instance : DecidablePred Place.IsSingle := fun p => by cases p <;> unfold Place.IsSingle <;> infer_instance

/-- Which terms may stand at a place, if it is known what describes a class and what annotates. -/
def Place.Admits (E N : Term → Prop) : Place → Term → Prop
  | .entity, t => t.isEntity = true
  | .named kind, t => t.IsOfKind kind
  | .description, t => E t
  | .subject, t => ∃ iri, t = .iri iri
  | .note, t => ∃ p l, t = .note p l ∧ N p
  | .members least most place, t => ∃ ms, t = .set true ms ∧ Distinct ms ∧ least ≤ ms.length ∧
    (∀ n ∈ most, ms.length ≤ n) ∧ ∀ m ∈ ms, place.Admits E N m

/-- **An axiom has its form** if each of its operands may stand at its place. -/
def Axiom.HasForm (E N : Term → Prop) (a : Axiom) : Prop :=
  List.Forall₂ (Place.Admits E N) a.kind.places a.operands

section
variable {E E' N N' : Term → Prop}

/-- The more terms describe classes and annotate, the more are admitted. -/
theorem Place.Admits.mono (hE : ∀ t, E t → E' t) (hN : ∀ t, N t → N' t) : ∀ {p : Place} {t : Term},
    p.Admits E N t → p.Admits E' N' t
  | .entity, _, ht | .named _, _, ht | .subject, _, ht => ht
  | .description, t, ht => hE t ht
  | .note, _, ⟨p, l, ht, hp⟩ => ⟨p, l, ht, hN p hp⟩
  | .members .., _, ⟨ms, hset, hd, hleast, hmost, hms⟩ =>
    ⟨ms, hset, hd, hleast, hmost, fun m hm => Place.Admits.mono hE hN (hms m hm)⟩

theorem Axiom.HasForm.mono {a : Axiom} (hE : ∀ t, E t → E' t) (hN : ∀ t, N t → N' t) (ha : a.HasForm E N) :
    a.HasForm E' N' :=
  List.Forall₂.imp (fun _ _ => .mono hE hN) ha

/-- No set stands where something single belongs, if none describes a class. -/
theorem Place.IsSingle.not_set {p : Place} (hp : p.IsSingle) (hE : ∀ ms, ¬E (.set true ms)) (ms : List Term) :
    ¬p.Admits E N (.set true ms) := by
  cases p with
  | description => exact hE ms
  | members => cases hp
  | entity => nofun
  | named => rintro ⟨m, iri, h⟩; cases h
  | subject => rintro ⟨iri, h⟩; cases h
  | note => rintro ⟨p, l, h, -⟩; cases h

/-- Each operand stands at a place that admits it. -/
theorem Axiom.HasForm.exists_place {a : Axiom} (ha : a.HasForm E N) {t : Term} (ht : t ∈ a.operands) :
    ∃ p ∈ a.kind.places, p.Admits E N t := by
  have aux : ∀ {ps : List Place} {ts : List Term}, List.Forall₂ (Place.Admits E N) ps ts → t ∈ ts →
      ∃ p ∈ ps, p.Admits E N t := by
    intro ps ts h
    induction h with
    | nil => exact fun ht => nomatch ht
    | cons hp _ ih =>
      intro ht
      rcases List.mem_cons.mp ht with rfl | ht
      · exact ⟨_, List.mem_cons_self, hp⟩
      · obtain ⟨p, hmem, hadmits⟩ := ih ht
        exact ⟨p, List.mem_cons_of_mem _ hmem, hadmits⟩
  exact aux ha ht

namespace Axiom

variable {k : AxiomKind} {p q : Place} {ts : List Term} {s t u : Term} {least : Nat}

/-! ### Axioms by their places -/

theorem HasForm.one (hk : k.places = [p]) (h : p.Admits E N t) : HasForm E N ⟨k, [t]⟩ := by
  rw [HasForm, hk]
  exact .cons h .nil

theorem HasForm.two (hk : k.places = [p, q]) (ht : p.Admits E N t) (hu : q.Admits E N u) : HasForm E N ⟨k, [t, u]⟩ := by
  rw [HasForm, hk]
  exact .cons ht (.cons hu .nil)

/-- What a fact says: something of an individual and another, along an object property. -/
theorem HasForm.assertion (hk : k = .objectPropertyAssertion ∨ k = .negativeObjectPropertyAssertion)
    (hs : s.IsOfKind .objectProperty) (ht : t.IsOfKind .individual) (hu : u.IsOfKind .individual) :
    HasForm E N ⟨k, [s, t, u]⟩ := by
  rcases hk with rfl | rfl <;> exact .cons hs (.cons ht (.cons hu .nil))

/-! ### Sets -/

/-- A set of admitted terms, of any number of them but so many different ones. -/
theorem admits_group (h : ∀ t ∈ ts, p.Admits E N t) (hleast : least ≤ ts.eraseDups.length) :
    (Place.members least none p).Admits E N (group ts) :=
  ⟨ts.eraseDups, rfl, .eraseDups ts, hleast, nofun, fun t ht => h t (Distinct.mem_of_mem_eraseDups ht)⟩

/-- There is one of several terms at least that is different from the others. -/
theorem one_le_eraseDups (h : ts ≠ []) : 1 ≤ ts.eraseDups.length := by
  cases ts with
  | nil => exact absurd rfl h
  | cons t ts =>
    rw [List.eraseDups_cons]
    exact Nat.le_add_left ..

/-- Two terms are two if the second does not find the first. -/
theorem two_le_eraseDups (h : (u == t) = false) : 2 ≤ [t, u].eraseDups.length := by
  rw [List.eraseDups_cons, List.filter_cons_of_pos (by rw [h]; rfl)]
  exact Nat.succ_le_succ (one_le_eraseDups (List.cons_ne_nil _ _))

/-- The set of two terms has one member or two. -/
theorem admits_couple (ht : p.Admits E N t) (hu : p.Admits E N u) :
    (Place.members 1 (some 2) p).Admits E N (group [t, u]) := by
  refine ⟨_, rfl, .eraseDups _, one_le_eraseDups (List.cons_ne_nil _ _), ?_, fun v hv => ?_⟩
  · rintro n ⟨⟩
    exact (Distinct.eraseDups_sublist _).length_le
  · rcases List.mem_cons.mp (Distinct.mem_of_mem_eraseDups hv) with rfl | hv
    · exact ht
    · exact List.mem_singleton.mp hv ▸ hu

/-- A set of an entity and something that is not it. -/
theorem admits_others {m : Nat} {e : Entity} (he : p.Admits E N (.entity m e)) (ht : p.Admits E N t)
    (hne : t.equals (.entity m e) = false) : (Place.members 2 none p).Admits E N (group [.entity m e, t]) := by
  refine admits_group (List.forall_mem_cons.mpr ⟨he, List.forall_mem_singleton.mpr ht⟩) (two_le_eraseDups ?_)
  rw [Bool.eq_false_iff] at hne ⊢
  exact fun h => hne (Term.equals_entity.mpr (Term.agrees_entity.mp h))

end Axiom

end

end Authoring
