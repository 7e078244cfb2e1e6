import Authoring.Proofs.Graph.Accounts
import Authoring.Proofs.Kinds
import Authoring.Proofs.Occurrence

/-!
# The mapping of descriptions to nodes

Each description is drawn as a node that stands for it: `Draw.Maps` is the mapping of OWL 2 to RDF graphs, read as a
relation between terms and nodes of a set of triples. A named class stands for itself by its IRI, and an expression is
a blank node whose triples say what it is, down to its last part (`Draw.node_shows`).

**What carries the proof.** An induction on the description. Complements, groups and restrictions are drawn as
descriptions of a new node, and what their parts show is still shown by the whole. A group needs one thing more: its
list visits each member once (`Draw.Visits`), since different entities of one kind have different IRIs, and no two
blank nodes are the same.

**What is assumed.** The members of a set are distinct, and entities among them are of one kind.
-/

namespace Authoring

open Vocabulary Reading

namespace Draw

open Term (IsDescription)

section
variable (w : World) (ts : List Triple)

/-- **The mapping of OWL to RDF graphs**: which node stands for a term, by what the triples say. An entity is its IRI,
and an expression a blank node that is described as what it is: as the complement of something, as the intersection,
union or enumeration of the members of a list, or as a restriction. -/
inductive Maps : Term → Node → Prop
  | entity (m : Nat) (e : Entity) : Maps (.entity m e) (.iri e.iri)
  | complement {f : Term} {id : Nat} {n : Node}
    (hown : Says ts id [(rdf "type", .iri (owl "Class")), (owl "complementOf", n)]) (hf : Maps f n) :
    Maps (.expression (.ofOperator .not) [f] .null) (.blank id)
  | group {o : Operator} {p : String} {ms order : List Term} {id : Nat} {head : Node} {ns : List Node}
    (hp : listPredicate? o = some p) (hown : Says ts id [(rdf "type", .iri (owl "Class")), (p, head)])
    (hlist : IsList ts head ns) (horder : order.Perm ms) (hms : List.Forall₂ Maps order ns) :
    Maps (.expression (.ofOperator o) [.set true ms] .null) (.blank id)
  | quantifier {o : Operator} {p iri : String} {m id : Nat} {f : Term} {n : Node} (hp : restrictionPredicate? o = some p)
    (hown : Says ts id (restricting iri ++ [(p, n)])) (hf : Maps f n) :
    Maps (.expression (.ofOperator o) [.entity m ⟨.objectProperty, iri⟩, f] .null) (.blank id)
  | counter {o : Operator} {p iri : String} {m id : Nat} {f c : Term} {n : Node} (hp : restrictionPredicate? o = some p)
    (hc : c ≠ .null) (hown : Says ts id (counting iri p (cardinalityLiteral w c) ++ [(owl "onClass", n)]))
    (hf : Maps f n) : Maps (.expression (.ofOperator o) [.entity m ⟨.objectProperty, iri⟩, f] c) (.blank id)

/-- **A list visits the members of a set** if it is well-formed and has one node for each of them, in some order. -/
def Visits (head : Node) (ms : List Term) : Prop :=
  ∃ ns order, IsList ts head ns ∧ ns.Nodup ∧ order.Perm ms ∧ List.Forall₂ (Maps w ts) order ns

end

variable {w : World} {ts : List Triple} {x : Term} {n : Node}

/-- An entity that describes a class is one. -/
theorem isOfKind_of_isDescription (h : x.IsDescription) (hentity : x.isEntity = true) : x.IsOfKind .cls := by
  cases h with
  | named h => exact h
  | _ => cases hentity

/-! ## One node for each member -/

/-- No two of the terms are entities with the same IRI. -/
def Dispersed (ms : List Term) : Prop :=
  ms.Pairwise fun t u => ∀ m e m' e', t = .entity m e → u = .entity m' e' → e.iri ≠ e'.iri

/-- Different entities of one kind have different IRIs. -/
theorem dispersed {ms : List Term} (hd : Distinct ms) {kind : EntityKind}
    (hms : ∀ t ∈ ms, t.isEntity = true → t.IsOfKind kind) : Dispersed ms := by
  refine List.Pairwise.imp_of_mem (fun {t u} ht hu hne => ?_) hd
  rintro m e m' e' rfl rfl heq
  obtain ⟨_, iri, h⟩ := hms _ ht rfl
  obtain ⟨_, iri', h'⟩ := hms _ hu rfl
  cases h
  cases h'
  have hfound : (Term.entity m' ⟨kind, iri'⟩ == Term.entity m ⟨kind, iri⟩) = true :=
    Term.entity_agrees.mpr ⟨m, congrArg (fun iri => Term.entity m ⟨kind, iri⟩) heq⟩
  rw [hne] at hfound
  cases hfound

theorem Dispersed.perm {ms order : List Term} (h : Dispersed ms) (hperm : order.Perm ms) : Dispersed order :=
  List.Pairwise.perm h hperm.symm fun hne m e m' e' ht hu heq => hne m' e' m e hu ht heq.symm

theorem maps_iri {s : String} (h : Maps w ts x (.iri s)) : ∃ m e, x = .entity m e ∧ e.iri = s := by
  cases h
  exact ⟨_, _, rfl, rfl⟩

/-- No two members have the same node, if no two blank nodes are the same. -/
theorem nodup_of_maps {order : List Term} {ns : List Node} (h : List.Forall₂ (Maps w ts) order ns)
    (hd : Dispersed order) (hapart : Apart ns) : ns.Nodup := by
  induction h with
  | nil => exact .nil
  | @cons t n order ns hn hrest ih =>
    obtain ⟨hfirst, hd⟩ := List.pairwise_cons.mp hd
    obtain ⟨hblank, hapart⟩ := List.pairwise_cons.mp hapart
    refine List.nodup_cons.mpr ⟨fun hmem => ?_, ih hd hapart⟩
    cases n with
    | blank id => exact hblank _ hmem id rfl rfl
    | literal l => cases hn
    | iri s =>
      obtain ⟨m, e, rfl, rfl⟩ := maps_iri hn
      obtain ⟨u, hu, hmaps⟩ := exists_mem_of_forall₂ hrest hmem
      obtain ⟨m', e', rfl, heq⟩ := maps_iri hmaps
      exact hfirst _ hu m e m' e' rfl rfl heq.symm

/-! ## Descriptions are mapped -/

/-- **What a triple of an expression lists**: the members of a group that occurs in a term, if its subject stands for
the group, and it leads to a list of these. -/
structure ListsIn (w : World) (ts : List Triple) (x : Term) (u : Triple) (o : Operator) (ms : List Term) : Prop where
  occurs : Term.Occurs (.expression (.ofOperator o) [.set true ms] .null) x
  predicate : listPredicate? o = some u.predicate
  subject : Maps w ts (.expression (.ofOperator o) [.set true ms] .null) u.subject
  visits : Visits w ts u.object ms
  nonempty : ms ≠ []

theorem ListsIn.within {x y : Term} {u : Triple} {o : Operator} {ms : List Term} (h : ListsIn w ts x u o ms)
    (hxy : ∀ z : Term, z.Occurs x → z.Occurs y) : ListsIn w ts y u o ms :=
  ⟨hxy _ h.occurs, h.predicate, h.subject, h.visits, h.nonempty⟩

/-- A triple of the drawing of a term: it describes a node, and if it leads to a list, then to that of a group. -/
def Belongs (w : World) (ts : List Triple) (x : Term) (u : Triple) : Prop :=
  u.predicate ∈ describing ∧ (u.predicate ∈ listing → ∃ o ms, ListsIn w ts x u o ms)

theorem Belongs.within {x y : Term} {u : Triple} (h : Belongs w ts x u) (hxy : ∀ z : Term, z.Occurs x → z.Occurs y) :
    Belongs w ts y u :=
  ⟨h.1, fun hp => (h.2 hp).imp fun _ => Exists.imp fun _ hlist => hlist.within hxy⟩

theorem Belongs.of_not_listing {u : Triple} (h : u.predicate ∈ describing) (hp : u.predicate ∉ listing) :
    Belongs w ts x u := ⟨h, fun h => absurd h hp⟩

/-- A term is drawn as its node, by triples that belong to it. -/
def Shows (w : World) (x : Term) (ts drawn : List Triple) (n : Node) : Prop :=
  Maps w ts x n ∧ ∀ u ∈ drawn, Belongs w ts x u

theorem entity_shows (w : World) (m : Nat) (e : Entity) : Draws (Shows w (.entity m e)) (node w (.entity m e)) := by
  intro g n g' _ hrun
  cases hrun
  exact ⟨nofun, [], .refl g, fun _ _ => ⟨.entity m e, nofun⟩⟩

/-- What is said about the node of an expression belongs to it. -/
theorem saying_belongs {id : Nat} {said : List (String × Node)}
    (h : ∀ p ∈ said.map (·.1), p ∈ describing ∧ p ∉ listing) : ∀ u ∈ saying id said, Belongs w ts x u := by
  intro u hu
  obtain ⟨s, hs, rfl⟩ := List.mem_map.mp hu
  obtain ⟨hp, hp'⟩ := h s.1 (List.mem_map_of_mem hs)
  exact .of_not_listing hp hp'

/-- What describes a node that stands for an expression belongs to it, if what is drawn of the part does. -/
theorem described_shows {said : List (String × Node)} {p : String} {id : Nat} {o : Node} {inner : List Triple}
    (hsaid : ∀ q ∈ said.map (·.1), q ∈ describing ∧ q ∉ listing) (hinner : ∀ u ∈ inner, Belongs w ts x u)
    (hp : p ∈ describing) (hlist : p ∈ listing → ∃ o' ms, ListsIn w ts x ⟨.blank id, p, o⟩ o' ms) :
    ∀ u ∈ saying id said ++ inner ++ saying id [(p, o)], Belongs w ts x u :=
  List.forall_mem_append.mpr ⟨List.forall_mem_append.mpr ⟨saying_belongs hsaid, hinner⟩,
    List.forall_mem_singleton.mpr ⟨hp, hlist⟩⟩

theorem complement_shows {f : Term} (h : Draws (Shows w f) (node w f)) :
    Draws (Shows w (.expression (.ofOperator .not) [f] .null)) (node w (.expression (.ofOperator .not) [f] .null)) := by
  refine (complement_draws h).mono ?_
  rintro ts _ _ ⟨id, n, inner, rfl, hown, rfl, hf, hinner⟩
  refine ⟨.complement hown hf, described_shows (show ∀ q ∈ [rdf "type"], _ by decide) (fun u hu => ?_) (by decide)
    fun h => absurd h (by decide)⟩
  exact (hinner u hu).within fun _ => .operand (List.mem_singleton_self f)

/-- The predicate of a restriction describes, and leads to no list. -/
theorem restrictionPredicate?_describes {o : Operator} {p : String} (h : restrictionPredicate? o = some p) :
    p ∈ describing ∧ p ∉ listing := by
  cases o <;> cases h <;> decide

/-- The predicate of a group describes, and leads to a list. -/
theorem listPredicate?_describes {o : Operator} {p : String} (h : listPredicate? o = some p) :
    p ∈ describing ∧ p ∈ listing := by
  cases o <;> cases h <;> decide

theorem restriction_shows {o : Operator} {m : Nat} {iri : String} {f c : Term} (h : Draws (Shows w f) (node w f)) :
    let p : Term := .entity m ⟨.objectProperty, iri⟩
    Draws (Shows w (.expression (.ofOperator o) [p, f] c))
      (restriction w (.ofOperator o) [p, f] [node w p, node w f] c) := by
  intro property
  refine (restriction_draws_pair _ h).mono ?_
  rintro ts drawn n ⟨_, _, _, p, ⟨⟩, ⟨⟩, hp, hdrawn⟩
  rw [operator?_ofOperator, Option.bind_some] at hp
  have hp' := restrictionPredicate?_describes hp
  have hopened : ∀ q ∈ [rdf "type", owl "onProperty"], q ∈ describing ∧ q ∉ listing := by decide
  have hpart : ∀ {z : Term}, z.Occurs f → z.Occurs (.expression (.ofOperator o) [property, f] c) :=
    .operand (List.mem_cons_of_mem _ List.mem_cons_self)
  rcases hdrawn with ⟨rfl, id, n, inner, rfl, hown, rfl, hf, hinner⟩ | ⟨hc, id, n, inner, rfl, hown, rfl, hf, hinner⟩
  · refine ⟨.quantifier hp hown hf, described_shows hopened (fun u hu => ?_) hp'.1 fun h => absurd h hp'.2⟩
    exact (hinner u hu).within fun _ => hpart
  · refine ⟨.counter hp hc hown hf, described_shows ?_ (fun u hu => ?_) (by decide) fun h => absurd h (by decide)⟩
    · exact show ∀ q ∈ [rdf "type", owl "onProperty"] ++ [p], _ from
        List.forall_mem_append.mpr ⟨hopened, List.forall_mem_singleton.mpr hp'⟩
    · exact (hinner u hu).within fun _ => hpart

/-- A list of what is drawn as its nodes visits the members of the set, if there are any. -/
theorem Listed.visits {R : Term → List Triple → List Triple → Node → Prop} {drawn : List Triple} {zs : List Term}
    {head : Node} {ns : List Node} (h : Listed R (ordered w zs) ts drawn head ns)
    (hR : ∀ z ∈ zs, ∀ part n, R z ts part n → Maps w ts z n) (hd : Dispersed zs) :
    (zs ≠ [] → Visits w ts head zs) ∧ (zs = [] → ∀ ns, ¬IsList ts head ns) := by
  obtain ⟨parts, -, -, hparts, -⟩ := h.parts
  have hperm := ordered_perm w zs
  have hmaps : List.Forall₂ (Maps w ts) (ordered w zs) ns :=
    hparts.forall₂ fun z hz => hR z (hperm.mem_iff.mp hz)
  have hlength : ns.length = zs.length := hmaps.length_eq.symm.trans hperm.length_eq
  constructor
  · intro hne
    have hns : ns ≠ [] := fun h => hne (List.length_eq_zero_iff.mp (by rw [← hlength, h]; rfl))
    exact ⟨ns, _, h.isList hns, nodup_of_maps hmaps (hd.perm hperm) h.apart, hperm, hmaps⟩
  · rintro rfl ns' hlist
    obtain ⟨id, rfl, hnone⟩ := h.empty (List.length_eq_zero_iff.mp hlength)
    cases hlist with
    | cell hfirst =>
      rw [hnone _ (by decide)] at hfirst
      cases hfirst

theorem group_shows {o : Operator} {p : String} {ms : List Term} (hp : listPredicate? o = some p) (hne : ms ≠ [])
    (hd : Dispersed ms) (hms : ∀ t ∈ ms, Draws (Shows w t) (node w t)) :
    Draws (Shows w (.expression (.ofOperator o) [.set true ms] .null))
      (node w (.expression (.ofOperator o) [.set true ms] .null)) := by
  refine (group_draws hp hms).mono ?_
  rintro ts _ _ ⟨id, head, inner, rfl, hown, rfl, ns, hlist⟩
  have hvisits : Visits w ts head ms := (hlist.visits (fun _ _ _ _ h => h.1) hd).1 hne
  have hself : Maps w ts (.expression (.ofOperator o) [.set true ms] .null) (.blank id) := by
    obtain ⟨ns', order, hcells, -, horder, hmaps⟩ := hvisits
    exact .group hp hown hcells horder hmaps
  refine ⟨hself, described_shows (show ∀ p ∈ [rdf "type"], _ by decide) ?_ (listPredicate?_describes hp).1 ?_⟩
  · refine hlist.forall_mem (fun t ht part n hshows u hu => ?_) fun u hu => ?_
    · exact (hshows.2 u hu).within fun _ hz => .operand List.mem_cons_self (.member (mem_ordered.mp ht) hz)
    · exact .of_not_listing (hu.elim (fun h => h ▸ by decide) fun h => h ▸ by decide) (not_listing_of_cell hu)
  · exact fun _ => ⟨o, ms, .self, hp, hself, hvisits, hne⟩

/-- **Every description is drawn as its node.** -/
theorem node_shows {x : Term} (h : IsDescription x) : Draws (Shows w x) (node w x) := by
  induction h with
  | @named t h =>
    obtain ⟨m, iri, rfl⟩ := h
    exact entity_shows w m _
  | @quantified o p f ho hp _ ih =>
    obtain ⟨m, iri, rfl⟩ := hp
    rcases ho with rfl | rfl <;> exact restriction_shows ih
  | @counted o p f c ho hp _ _ ih =>
    obtain ⟨m, iri, rfl⟩ := hp
    simp only [List.mem_cons, List.not_mem_nil, or_false] at ho
    rcases ho with rfl | rfl | rfl <;> exact restriction_shows ih
  | complement _ ih => exact complement_shows ih
  | @combination o ms ho hne hd hms ih =>
    have hdispersed : Dispersed ms := dispersed hd fun t ht hentity => isOfKind_of_isDescription (hms t ht) hentity
    rcases ho with rfl | rfl
    · exact group_shows rfl hne hdispersed ih
    · exact group_shows rfl hne hdispersed ih
  | @enumeration ms hne hd hms =>
    refine group_shows rfl hne (dispersed hd fun t ht _ => hms t ht) fun t ht => ?_
    obtain ⟨m, iri, rfl⟩ := hms t ht
    exact entity_shows w m _

end Draw

end Authoring
