import Authoring.Proofs.Graph.Drawing

/-!
# What is said of blank nodes as a graph grows

What is drawn of a term adds triples about blank nodes that are new, and about no others (`Graph.Grows`). What is
drawn of an axiom may also relate older blank nodes to one another, but describes none of them any further
(`Graph.Extends`). So what a predicate leads to from a blank node is settled by the drawing that describes the node:
whatever is drawn before or after, the triples of the graph say the same of it (`Graph.Extends.settles`).

**What carries the proof.** Blank nodes are numbered, and a new one has the next number. Those of one drawing have the
numbers from one counter up to another, so that drawings in a row speak of numbers that do not overlap.

**What it does not establish.** Literals that are found to be equal are not told apart, and a triple with such a
literal for its object may be missing; nothing is said of these.
-/

namespace Authoring

open Vocabulary

namespace Reading

/-- The triples about a blank node. -/
def triplesOf (ts : List Triple) (id : Nat) : List Triple := ts.filter fun t => t.subject == .blank id

/-- The predicates by which expressions and lists are described. -/
def describing : List String :=
  [rdf "type", rdf "first", rdf "rest", owl "intersectionOf", owl "unionOf", owl "oneOf", owl "members",
    owl "complementOf", owl "onProperty", owl "onClass", owl "someValuesFrom", owl "allValuesFrom",
    owl "minQualifiedCardinality", owl "maxQualifiedCardinality", owl "qualifiedCardinality"]

/-- Everything that a predicate leads to from a blank node. -/
def objects (ts : List Triple) (id : Nat) (p : String) : List Node :=
  ((triplesOf ts id).filter (·.predicate == p)).map (·.object)

/-- What has been said about the blank nodes from one number up to another is what a drawing says. -/
def Settles (ts drawn : List Triple) (lo hi : Nat) : Prop :=
  ∀ id, lo ≤ id → id < hi → ∀ p ∈ describing, objects ts id p = objects drawn id p

/-- All triples are about blank nodes from one number up to another. -/
def Within (drawn : List Triple) (lo hi : Nat) : Prop :=
  ∀ t ∈ drawn, ∃ id, t.subject = .blank id ∧ lo ≤ id ∧ id < hi

section
variable {ts us : List Triple} {t : Triple} {id lo hi : Nat} {p : String}


/-- What is said along a predicate is there as a triple, and the other way round. -/
theorem mem_objects {n : Node} : n ∈ objects ts id p ↔ ⟨.blank id, p, n⟩ ∈ ts := by
  constructor
  · intro h
    obtain ⟨⟨s, q, o⟩, hmem, rfl⟩ := List.mem_map.mp h
    obtain ⟨hmem, hq⟩ := List.mem_filter.mp hmem
    obtain ⟨ht, hs⟩ := List.mem_filter.mp hmem
    rw [← eq_of_beq hq]
    cases s with
    | blank j =>
      rw [← eq_of_beq (show (j == id) = true from hs)]
      exact ht
    | iri => cases hs
    | literal => cases hs
  · intro h
    refine List.mem_map.mpr ⟨_, List.mem_filter.mpr ⟨List.mem_filter.mpr ⟨h, ?_⟩, ?_⟩, rfl⟩
    · exact beq_self_eq_true id
    · exact beq_self_eq_true p

theorem objects_eq_nil (h : ∀ t ∈ ts, t.predicate = p → t.subject ≠ .blank id) : objects ts id p = [] :=
  List.eq_nil_iff_forall_not_mem.mpr fun _ hn => h _ (mem_objects.mp hn) rfl rfl

theorem objects_append (ts us : List Triple) (id : Nat) (p : String) :
    objects (ts ++ us) id p = objects ts id p ++ objects us id p := by
  simp only [objects, triplesOf, List.filter_append, List.map_append]

/-- Triples about the node itself are looked through by their predicates. -/
theorem objects_own (h : ∀ t ∈ ts, t.subject = .blank id) (p : String) :
    objects ts id p = (ts.filter (·.predicate == p)).map (·.object) := by
  have hall : triplesOf ts id = ts := List.filter_eq_self.mpr fun t ht => by
    rw [h t ht]
    exact beq_self_eq_true id
  rw [objects, hall]

namespace Within

theorem nil : Within [] lo hi := nofun

theorem append (h : Within ts lo hi) (h' : Within us lo hi) : Within (ts ++ us) lo hi :=
  List.forall_mem_append.mpr ⟨h, h'⟩

theorem mono {lo' hi' : Nat} (h : Within ts lo hi) (hlo : lo' ≤ lo) (hhi : hi ≤ hi') : Within ts lo' hi' := by
  intro t ht
  obtain ⟨id, hid, h₁, h₂⟩ := h t ht
  exact ⟨id, hid, Nat.le_trans hlo h₁, Nat.lt_of_lt_of_le h₂ hhi⟩

theorem own (h : ∀ t ∈ ts, t.subject = .blank id) (hlo : lo ≤ id) (hhi : id < hi) : Within ts lo hi :=
  fun t ht => ⟨id, h t ht, hlo, hhi⟩

theorem bounds (h : Within ts lo hi) (ht : t ∈ ts) (hid : t.subject = .blank id) : lo ≤ id ∧ id < hi := by
  obtain ⟨j, hj, hrange⟩ := h t ht
  exact Node.blank.inj (hj.symm.trans hid) ▸ hrange

/-- Nothing is said about a node that lies outside. -/
theorem objects_eq (h : Within ts lo hi) (hid : id < lo ∨ hi ≤ id) (p : String) : objects ts id p = [] := by
  refine objects_eq_nil fun t ht _ hs => ?_
  have := h.bounds ht hs
  omega

end Within

end

end Reading

namespace Graph

open Reading

/-- What is described as a blank node has a number below that of the next one. -/
def Below (g : Graph) : Prop := ∀ t ∈ g.triples, ∀ id, t.subject = .blank id → id < g.next

/-- The second graph is the first with further triples, all of them about blank nodes that are new. -/
structure Grows (g : Graph) (drawn : List Triple) (g' : Graph) : Prop where
  triples : g'.triples = g.triples ++ drawn
  next : g.next ≤ g'.next
  within : Within drawn g.next g'.next

/-- The second graph is the first with further triples, which describe none of the blank nodes that there were. -/
structure Extends (g : Graph) (added : List Triple) (g' : Graph) : Prop where
  triples : g'.triples = g.triples ++ added
  next : g.next ≤ g'.next
  since : ∀ t ∈ added, t.predicate ∈ describing → ∀ id, t.subject = .blank id → g.next ≤ id
  bounded : ∀ t ∈ added, ∀ id, t.subject = .blank id → id < g'.next

variable {g g' g'' : Graph} {ts added more : List Triple} {id : Nat} {p : String}

theorem Below.objects_eq (hg : g.Below) (hid : g.next ≤ id) (p : String) : objects g.triples id p = [] :=
  Reading.objects_eq_nil fun t ht _ hs => absurd (hg t ht id hs) (by omega)

theorem Below.fresh (hg : g.Below) : (⟨g.triples, g.next + 1⟩ : Graph).Below :=
  fun t ht id hid => Nat.lt_succ_of_lt (hg t ht id hid)

namespace Extends

theorem refl (g : Graph) : g.Extends [] g := ⟨(List.append_nil _).symm, Nat.le_refl _, nofun, nofun⟩

theorem trans (h : g.Extends added g') (h' : g'.Extends more g'') : g.Extends (added ++ more) g'' where
  triples := by rw [h'.triples, h.triples, List.append_assoc]
  next := Nat.le_trans h.next h'.next
  since := List.forall_mem_append.mpr
    ⟨h.since, fun t ht hp id hid => Nat.le_trans h.next (h'.since t ht hp id hid)⟩
  bounded := List.forall_mem_append.mpr
    ⟨fun t ht id hid => Nat.lt_of_lt_of_le (h.bounded t ht id hid) h'.next, h'.bounded⟩

theorem below (h : g.Extends added g') (hg : g.Below) : g'.Below := by
  intro t ht id hid
  rw [h.triples] at ht
  rcases List.mem_append.mp ht with ht | ht
  · exact Nat.lt_of_lt_of_le (hg t ht id hid) h.next
  · exact h.bounded t ht id hid

/-- Nothing that was there before is described any further. -/
theorem objects_eq_nil (h : g.Extends added g') (hid : id < g.next) (hp : p ∈ describing) : objects added id p = [] :=
  Reading.objects_eq_nil fun t ht heq hs => absurd (h.since t ht (heq ▸ hp) id hs) (by omega)

theorem objects_eq_nil_of_le (h : g.Extends added g') (hid : g'.next ≤ id) (p : String) : objects added id p = [] :=
  Reading.objects_eq_nil fun t ht _ hs => absurd (h.bounded t ht id hs) (by omega)

/-- What two drawings in a row say is said by the first, as far as it goes. -/
theorem settles_left (h : g'.Extends more g'') (hts : Settles ts (added ++ more) g.next g''.next) :
    Settles ts added g.next g'.next := by
  intro id hlo hhi p hp
  rw [hts id hlo (Nat.lt_of_lt_of_le hhi h.next) p hp, objects_append, h.objects_eq_nil hhi hp, List.append_nil]

theorem settles_right (h : g.Extends added g') (hts : Settles ts (added ++ more) g.next g''.next) :
    Settles ts more g'.next g''.next := by
  intro id hlo hhi p hp
  rw [hts id (Nat.le_trans h.next hlo) hhi p hp, objects_append, h.objects_eq_nil_of_le hlo, List.nil_append]

/-- What all triples say of the nodes of a drawing is what the drawing says. -/
theorem settles (h : g.Extends added g') (hg : g.Below) (h' : g'.Extends more g'') :
    Settles g''.triples added g.next g'.next := by
  intro id hlo hhi p hp
  rw [h'.triples, h.triples, objects_append, objects_append, hg.objects_eq hlo, h'.objects_eq_nil hhi hp,
    List.nil_append, List.append_nil]

end Extends

/-- A triple about an IRI, a literal or an old blank node that it does not describe. -/
theorem exists_extends_add {u : Triple} (hu : ∀ id, u.subject = .blank id → id < g.next ∧ u.predicate ∉ describing) :
    ∃ added, g.Extends added (g.add u) ∧ ∀ t ∈ added, t = u := by
  unfold add
  split
  · exact ⟨[], .refl g, nofun⟩
  · refine ⟨[u], ⟨rfl, Nat.le_refl _, ?_, ?_⟩, fun t => List.mem_singleton.mp⟩
    · exact List.forall_mem_singleton.mpr fun hp id hid => absurd hp (hu id hid).2
    · exact List.forall_mem_singleton.mpr fun id hid => (hu id hid).1

theorem Grows.extends (h : g.Grows added g') : g.Extends added g' where
  triples := h.triples
  next := h.next
  since := fun _ ht _ _ hid => (h.within.bounds ht hid).1
  bounded := fun _ ht _ hid => (h.within.bounds ht hid).2

namespace Grows

theorem refl (g : Graph) : g.Grows [] g := ⟨(List.append_nil _).symm, Nat.le_refl _, .nil⟩

theorem trans (h : g.Grows added g') (h' : g'.Grows more g'') : g.Grows (added ++ more) g'' where
  triples := by rw [h'.triples, h.triples, List.append_assoc]
  next := Nat.le_trans h.next h'.next
  within := (h.within.mono (Nat.le_refl _) h'.next).append (h'.within.mono h.next (Nat.le_refl _))

theorem below (h : g.Grows added g') (hg : g.Below) : g'.Below := h.extends.below hg

end Grows

end Graph

namespace Draw

open Authoring.Graph Reading

variable {g g₂ : Graph} {before inner after : List Triple}

/-- A triple about a blank node that does not have the predicate yet is added at the end. -/
theorem emit_new {id : Nat} {p : String} (h : ∀ t ∈ g.triples, t.subject = .blank id → t.predicate ≠ p) (o : Node) :
    emit (.blank id) p o g = .ok ((), ⟨g.triples ++ [⟨.blank id, p, o⟩], g.next⟩) := by
  have hnot : ¬g.triples.contains ⟨.blank id, p, o⟩ = true := by
    intro hc
    obtain ⟨⟨s, q, n⟩, hmem, heq⟩ := List.contains_iff_exists_mem_beq.mp hc
    obtain ⟨hsp, -⟩ := Bool.and_eq_true_iff.mp heq
    obtain ⟨hs, hp⟩ := Bool.and_eq_true_iff.mp hsp
    exact h _ hmem (Node.eq_of_found hs nofun).symm (eq_of_beq hp).symm
  rw [run_emit, Graph.add, if_neg hnot]

theorem below_described (hg : g.Below) (hbefore : ∀ t ∈ before, t.subject = .blank g.next) :
    (⟨g.triples ++ before, g.next + 1⟩ : Graph).Below := by
  intro t ht id hid
  rcases List.mem_append.mp ht with ht | ht
  · exact Nat.lt_succ_of_lt (hg t ht id hid)
  · rw [hbefore t ht] at hid
    exact Node.blank.inj hid ▸ Nat.lt_succ_self _

/-- What is drawn of an expression: some triples about its own node, then its parts, and then again triples about its
own node. -/
theorem grows_around (hbefore : ∀ t ∈ before, t.subject = .blank g.next)
    (h : Graph.Grows ⟨g.triples ++ before, g.next + 1⟩ inner g₂) (hafter : ∀ t ∈ after, t.subject = .blank g.next) :
    g.Grows (before ++ inner ++ after) ⟨g₂.triples ++ after, g₂.next⟩ := by
  have hnext : g.next + 1 ≤ g₂.next := h.next
  refine ⟨?_, Nat.le_of_succ_le hnext, ?_⟩
  · show g₂.triples ++ after = _
    rw [h.triples]
    simp only [List.append_assoc]
  · have own : ∀ {ts}, (∀ t ∈ ts, t.subject = .blank g.next) → Within ts g.next g₂.next :=
      fun hts => .own hts (Nat.le_refl _) hnext
    exact ((own hbefore).append (h.within.mono (Nat.le_succ _) (Nat.le_refl _))).append (own hafter)

/-- A triple with a new predicate about the node of an expression, before or after its parts have been drawn. -/
theorem emit_around (hg : g.Below) (h : Graph.Grows ⟨g.triples ++ before, g.next + 1⟩ inner g₂) (p : String)
    (hp : ∀ t ∈ before, t.predicate ≠ p) (o : Node) : emit (.blank g.next) p o g₂ =
      .ok ((), ⟨g₂.triples ++ [⟨.blank g.next, p, o⟩], g₂.next⟩) := by
  refine emit_new (fun t ht hs => ?_) o
  rw [h.triples] at ht
  rcases List.mem_append.mp ht with ht | ht
  · rcases List.mem_append.mp ht with ht | ht
    · exact absurd (hg t ht _ hs) (Nat.lt_irrefl _)
    · exact hp t ht
  · exact absurd (h.within.bounds ht hs).1 (Nat.not_succ_le_self _)

/-- Before the parts. -/
theorem emit_before (hg : g.Below) (before : List Triple) (p : String) (hp : ∀ t ∈ before, t.predicate ≠ p)
    (o : Node) :
    emit (.blank g.next) p o ⟨g.triples ++ before, g.next + 1⟩ =
      .ok ((), ⟨g.triples ++ (before ++ [⟨.blank g.next, p, o⟩]), g.next + 1⟩) := by
  rw [emit_around hg (.refl _) p hp, List.append_assoc]

end Draw

end Authoring
