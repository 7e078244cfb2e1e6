import Authoring.Proofs.Graph.Mapping
import Authoring.Proofs.Graph.Rendering

/-!
# Lists in a graph

The members of groups, of disjoint classes, of different individuals and of disjoint unions are written into the graph
as lists. Every such list is well-formed and visits each member once, however deep it is nested in other lists. The
one exception is a disjoint union of no classes: it can be stored, and its triple leads to a blank node of which
nothing is said, and not to nil (`Plan.run_lists`).

**What carries the proof.** A list is drawn for a set that stands in an axiom, or in an expression that does. Axioms
that are built by calls are well-kinded (`Plan.run_upholds`), so sets hold distinct members of one kind, and those of
groups and of axioms that set things apart are not empty. `Draw.ofAxiom_lists` goes through the axioms by what
accounts for their lists.

**What is assumed.** The ontology starts without axioms, and the other code keeps to the rules that calls keep to.
What is asserted or annotated along a predicate that leads to lists is a triple of its own, and no list
(`Draw.IsWritten`).
-/

namespace Authoring

open Vocabulary Reading

namespace Draw

open Term (IsDescription)

variable {w : World} {a : Axiom} {t : Term}

/-- **Which members a triple lists**, and for what: those of a group that occurs in an axiom, those of an axiom that
sets several things apart, or the parts of a disjoint union. -/
inductive Lists (w : World) (ts : List Triple) (a : Axiom) : Triple → List Term → Prop
  | group {u : Triple} {o : Operator} {ms : List Term} (h : a.Has (.expression (.ofOperator o) [.set true ms] .null))
    (hp : listPredicate? o = some u.predicate)
    (hs : Maps w ts (.expression (.ofOperator o) [.set true ms] .null) u.subject) : Lists w ts a u ms
  | members {type : String} {id : Nat} {head : Node} {ms : List Term} (h : a.operands = [.set true ms])
    (hkind : a.kind = .disjointClasses ∧ type = owl "AllDisjointClasses" ∨
      a.kind = .differentIndividuals ∧ type = owl "AllDifferent")
    (hown : Says ts id [(rdf "type", .iri type), (owl "members", head)]) :
    Lists w ts a ⟨.blank id, owl "members", head⟩ ms
  | union {m : Nat} {e : Entity} {head : Node} {ms : List Term} (h : a = ⟨.disjointUnion, [.entity m e, .set true ms]⟩) :
    Lists w ts a ⟨.iri e.iri, owl "disjointUnionOf", head⟩ ms

/-- What the predicate of disjoint unions leads to lists the parts of one. -/
theorem Lists.exists_union {ts : List Triple} {u : Triple} {ms : List Term} (h : Lists w ts a u ms)
    (hp : u.predicate = owl "disjointUnionOf") : ∃ owner, a = ⟨.disjointUnion, [owner, .set true ms]⟩ := by
  cases h with
  | @group _ o _ _ hlist _ =>
    rw [hp] at hlist
    cases o <;> exact absurd hlist (by decide)
  | members => exact absurd hp (show owl "members" ≠ owl "disjointUnionOf" by decide)
  | union h => exact ⟨_, h⟩

/-- The triple leads to a list that visits the members, if there are any; and only a disjoint union may have none. -/
structure IsListOf (w : World) (ts : List Triple) (u : Triple) (ms : List Term) : Prop where
  visits_iff : Visits w ts u.object ms ↔ ms ≠ []
  headless : ms = [] → u.predicate = owl "disjointUnionOf" ∧ ∀ ns, ¬IsList ts u.object ns

/-! ## What stands in well-kinded axioms -/

/-- What may be a member of a set that stands in an axiom. -/
theorem exists_member_place {k : AxiomKind} {least : Nat} {most : Option Nat} {q : Place}
    (h : .members least most q ∈ k.places) : q = .description ∨ ∃ kind, q = .named kind := by
  cases k <;> simp [AxiomKind.places] at h <;> simp [h]

/-- A set that stands in a well-kinded axiom. -/
theorem set_of_isKinded (ha : a.IsKinded) {f : Bool} {ms : List Term} (h : .set f ms ∈ a.operands) :
    f = true ∧ Dispersed ms ∧ ∀ t ∈ ms, t.isEntity = true ∨ IsDescription t := by
  obtain ⟨p, hp, hadmits⟩ := ha.exists_place h
  cases p with
  | members least most q =>
    obtain ⟨ms', heq, hd, -, -, hms⟩ := hadmits
    cases heq
    rcases exists_member_place hp with rfl | ⟨kind, rfl⟩
    · exact ⟨rfl, dispersed hd fun t ht => isOfKind_of_isDescription (hms t ht), fun t ht => .inr (hms t ht)⟩
    · exact ⟨rfl, dispersed hd fun t ht _ => hms t ht, fun t ht => .inl (hms t ht).isEntity⟩
  | entity => cases hadmits
  | named => obtain ⟨m, iri, h⟩ := hadmits; cases h
  | description => cases hadmits with | named h => obtain ⟨m, iri, h⟩ := h; cases h
  | subject => obtain ⟨iri, h⟩ := hadmits; cases h
  | note => obtain ⟨p, l, h, -⟩ := hadmits; cases h

/-- Whatever stands in a well-kinded axiom is drawn as its node, if at all. -/
theorem node_shows_of_isKinded (ha : a.IsKinded) (ht : a.Holds t) : Draws (Shows w t) (node w t) := by
  have hnamed : t.isEntity = true → Draws (Shows w t) (node w t) := by
    intro h
    cases t <;> cases h
    exact entity_shows w _ _
  rcases ht with ht | ⟨f, ms, hset, ht⟩
  · obtain ⟨p, -, hadmits⟩ := ha.exists_place ht
    cases p with
    | entity => exact hnamed hadmits
    | named kind => exact hnamed (Term.IsOfKind.isEntity hadmits)
    | description => exact node_shows hadmits
    | subject =>
      obtain ⟨iri, rfl⟩ := hadmits
      exact fun g n g' _ hrun => nomatch hrun
    | note =>
      obtain ⟨p, l, rfl, -⟩ := hadmits
      exact fun g n g' _ hrun => nomatch hrun
    | members =>
      obtain ⟨ms, rfl, -⟩ := hadmits
      exact fun g n g' _ hrun => nomatch hrun
  · exact ((set_of_isKinded ha hset).2.2 t ht).elim hnamed node_shows

/-- What occurs in a term that stands in a well-kinded axiom occurs in the axiom. -/
theorem has_of_holds (ha : a.IsKinded) (ht : a.Holds t) {u : Term} (hu : u.Occurs t) : a.Has u := by
  rcases ht with ht | ⟨f, ms, hset, ht⟩
  · exact ⟨t, ht, hu⟩
  · obtain ⟨rfl, -⟩ := set_of_isKinded ha hset
    exact ⟨_, hset, .member ht hu⟩

/-- What sets things apart in a well-kinded axiom has members. -/
theorem members_ne_nil (ha : a.IsKinded) {f : Bool} {ms : List Term} (hms : a.operands = [.set f ms])
    (hkind : a.kind = .disjointClasses ∨ a.kind = .differentIndividuals) : ms ≠ [] := by
  rintro rfl
  have hform : List.Forall₂ (Place.Admits IsDescription (Term.IsOfKind .annotationProperty)) a.kind.places
    a.operands := ha
  rw [hms] at hform
  rcases hkind with hk | hk
  all_goals
    rw [hk] at hform
    obtain ⟨hadmits, -⟩ := List.forall₂_cons.mp hform
    obtain ⟨ms', heq, -, hleast, -⟩ := hadmits
    cases heq
    exact absurd hleast (by decide)

/-- What is drawn of the list of a set visits its members. -/
theorem isListOf_of_listed (ha : a.IsKinded) {f : Bool} {ms : List Term} (hset : .set f ms ∈ a.operands)
    {ts drawn : List Triple} {s head : Node} {ns : List Node} {p : String}
    (hlist : Listed (Shows w) (ordered w ms) ts drawn head ns) (hp : ms = [] → p = owl "disjointUnionOf") :
    IsListOf w ts ⟨s, p, head⟩ ms := by
  obtain ⟨hfull, hempty⟩ := hlist.visits (fun _ _ _ _ h => h.1) (set_of_isKinded ha hset).2.1
  refine ⟨⟨?_, hfull⟩, fun h => ⟨hp h, hempty h⟩⟩
  rintro ⟨ns, order, hcells, -⟩ rfl
  exact hempty rfl ns hcells

/-- **The lists of a well-kinded axiom.** -/
theorem ofAxiom_lists (ha : a.IsKinded) (k : Nat) : Accounts (fun ts u => Asserts w a u ∨
    ∃ ms, Lists w ts a u ms ∧ IsListOf w ts u ms) k (ofAxiom w a) fun _ _ => True := by
  refine ofAxiom_accounts (R := Shows w) ⟨fun t => node_shows_of_isKinded ha, ?_, ?_, ?_, fun u h ts => .inl h⟩ k
  · intro t ht ts drawn n hshows u hu hlisting
    obtain ⟨o, ms, hlist⟩ := (hshows.2 u hu).2 hlisting
    refine .inr ⟨ms, .group (has_of_holds ha ht hlist.occurs) hlist.predicate hlist.subject, ⟨?_, ?_⟩⟩
    · exact iff_of_true hlist.visits hlist.nonempty
    · exact fun h => absurd h hlist.nonempty
  · intro type f ms hms hkind ts drawn id head ns hown hlist
    have hset : .set f ms ∈ a.operands := hms ▸ List.mem_cons_self
    have hne : ms ≠ [] := members_ne_nil ha hms (hkind.imp And.left And.left)
    obtain ⟨rfl, -⟩ := set_of_isKinded ha hset
    exact .inr ⟨ms, .members hms hkind hown, isListOf_of_listed ha hset hlist fun h => absurd h hne⟩
  · intro owner f ms s heq hs ts drawn head ns hlist
    have hset : .set f ms ∈ a.operands := heq ▸ List.mem_cons_of_mem _ List.mem_cons_self
    obtain ⟨rfl, -⟩ := set_of_isKinded ha hset
    have hlisted : IsListOf w ts ⟨.iri s, owl "disjointUnionOf", head⟩ ms :=
      isListOf_of_listed ha hset hlist fun _ => rfl
    subst heq
    have howner : IsDescription owner := (List.forall₂_cons.mp ha).1
    -- Of the descriptions only entities have an IRI.
    cases howner with
    | named h =>
      obtain ⟨m, iri, rfl⟩ := h
      cases hs
      exact .inr ⟨ms, .union rfl, hlisted⟩
    | _ => cases hs

/-- The triple is an annotation of the ontology, or an assertion in it. -/
def IsWritten (w : World) (o : Ontology) (u : Triple) : Prop :=
  (∃ n ∈ o.annotations, ∃ p, iri? w n.property = some p ∧ u = ⟨.iri o.iri, p, .literal n.value⟩) ∨
    ∃ a ∈ o.axioms, Asserts w a u

end Draw

namespace Graph

open Draw

variable {w : World} {o : Ontology} {g : Graph} {u : Triple}

/-- What accounts for the drawing of an ontology accounts for its graph. -/
theorem accounted {L : List Triple → Triple → Prop} (h : Accounts L 0 (Draw.ofOntology w o) fun _ _ => True)
    (hg : ofOntology w o = .ok g) : ∀ u ∈ g.triples, u.predicate ∈ listing → L g.triples u := by
  obtain ⟨v, hrun⟩ := exists_drawn hg
  obtain ⟨-, added, hext, hlists⟩ := h empty v g (Nat.le_refl 0) nofun hrun
  have hadded : g.triples = added := hext.triples
  rw [hadded]
  exact hlists added fun _ _ _ _ _ => rfl

/-- **The lists in the graph of an ontology** whose axioms are well-kinded. -/
theorem ofOntology_lists (ho : ∀ a ∈ o.axioms, a.IsKinded) (hg : ofOntology w o = .ok g) (hu : u ∈ g.triples)
    (hp : u.predicate ∈ listing) : IsWritten w o u ∨
      ∃ a ∈ o.axioms, ∃ ms, Lists w g.triples a u ms ∧ IsListOf w g.triples u ms := by
  let L : List Triple → Triple → Prop := fun ts u =>
    IsWritten w o u ∨ ∃ a ∈ o.axioms, ∃ ms, Lists w ts a u ms ∧ IsListOf w ts u ms
  have haxioms : ∀ a ∈ o.axioms, ∀ k, Accounts L k (ofAxiom w a) fun _ _ => True := by
    refine fun a ha k => (ofAxiom_lists (ho a ha) k).mono (fun ts u h => ?_) fun _ _ => id
    exact h.imp (fun h => .inr ⟨a, ha, h⟩) fun h => ⟨a, ha, h⟩
  have hnotes : ∀ n ∈ o.annotations, ∀ p, iri? w n.property = some p → ∀ us, L us ⟨.iri o.iri, p, .literal n.value⟩ :=
    fun n hn p hp us => .inl (.inl ⟨n, hn, p, hp, rfl⟩)
  exact accounted (ofOntology_accounts hnotes haxioms) hg u hu hp

end Graph

namespace Plan

open Draw

/-- **Every rendered list is well-formed, but for that of a disjoint union without parts.** -/
theorem run_lists {S : Expr → Prop} {id : Nat} {p : Plan} {env : Env} {w : World} (hp : p.Meets (.kinded S))
    (henv : env.Serves (.kinded S) (World.Kinded S id)) (hempty : (w.ontology id).axioms = []) (hw : w.Collected)
    (hnaming : w.NamesWithin S) {g : Graph} :
    let w' := (p.run env w).2
    Graph.ofOntology w' (w'.ontology id) = .ok g → ∀ u ∈ g.triples, u.predicate ∈ listing →
      IsWritten w' (w'.ontology id) u ∨ ∃ a ∈ (w'.ontology id).axioms, ∃ ms,
        Lists w' g.triples a u ms ∧ IsListOf w' g.triples u ms := by
  intro w' hg u hu
  have hkinded : w.Kinded S id := ⟨hempty ▸ List.forall_mem_nil _, hw, hnaming⟩
  exact Graph.ofOntology_lists (run_upholds Policy.kinded_closed hp env henv w hkinded).1.axioms hg hu

/-- Three classes that are set apart, one of them a complement of an intersection with a union and an enumeration in it;
a disjoint union of two of them, and one without parts. -/
def listed : Plan :=
  .step (Service.Call.value (.oneOf [.text "i", .text "j"])).run fun one =>
  .step (Service.Call.value (.or [.text "B", one])).run fun either =>
  .step (Service.Call.value (.and [.text "C", either])).run fun both =>
  .step (Service.Call.value (.not [both])).run fun rest =>
  .calling (.disjoint [.text "A", .text "B", rest] .null)
    [.union (.text "D") [.text "A", rest] .null, .union (.text "E") [] .null]

theorem listed_meets : listed.Meets (.kinded fun _ => True) := by
  have hpair : ∀ {s t : Term}, s.Meets (.kinded fun _ => True) → t.Meets (.kinded fun _ => True) →
      ∀ u ∈ [s, t], u.Meets (.kinded fun _ => True) :=
    fun hs ht => List.forall_mem_cons.mpr ⟨hs, List.forall_mem_singleton.mpr ht⟩
  refine ⟨⟨_, rfl, hpair trivial trivial⟩, fun one hone => ⟨⟨_, rfl, hpair trivial hone⟩, fun either heither =>
    ⟨⟨_, rfl, hpair trivial heither⟩, fun both hboth => ⟨⟨_, rfl, List.forall_mem_singleton.mpr hboth⟩,
      fun rest hrest => calling_meets ⟨Policy.targets_null, ?_⟩ ?_⟩⟩⟩⟩
  · exact List.forall_mem_cons.mpr ⟨trivial, hpair trivial hrest⟩
  · refine List.forall_mem_cons.mpr ⟨⟨Policy.targets_null, trivial, hpair trivial hrest⟩, ?_⟩
    exact List.forall_mem_singleton.mpr ⟨Policy.targets_null, trivial, nofun⟩

/-- The complement in them. -/
def outside : Term :=
  let one : Term := .expression (.ofOperator .oneOf)
    [.set true [.entity 0 ⟨.individual, "o#i"⟩, .entity 0 ⟨.individual, "o#j"⟩]] .null
  let either : Term := .expression (.ofOperator .or) [.set true [.entity 0 ⟨.cls, "o#B"⟩, one]] .null
  let both : Term := .expression (.ofOperator .and) [.set true [.entity 0 ⟨.cls, "o#C"⟩, either]] .null
  .expression (.ofOperator .not) [both] .null

theorem outside_isClass : outside.IsClass := by
  have hone : Term.IsClass (.expression (.ofOperator .oneOf)
      [.set true [.entity 0 ⟨.individual, "o#i"⟩, .entity 0 ⟨.individual, "o#j"⟩]] .null) :=
    .enumeration nofun (by unfold Distinct; decide)
      (List.forall_mem_cons.mpr ⟨⟨0, _, rfl⟩, List.forall_mem_singleton.mpr ⟨0, _, rfl⟩⟩)
  have heither := Term.IsClass.combination (.inr rfl) (List.cons_ne_nil _ _) (by unfold Distinct; decide)
    (List.forall_mem_cons.mpr ⟨.named 0 "o#B", List.forall_mem_singleton.mpr hone⟩)
  have hboth := Term.IsClass.combination (.inl rfl) (List.cons_ne_nil _ _) (by unfold Distinct; decide)
    (List.forall_mem_cons.mpr ⟨.named 0 "o#C", List.forall_mem_singleton.mpr heither⟩)
  exact .complement hboth

theorem listed_axioms : ((listed.run .single unwritten).2.ontology 0).axioms =
    [.disjointClasses [.entity 0 ⟨.cls, "o#A"⟩, .entity 0 ⟨.cls, "o#B"⟩, outside],
      .disjointUnion (.entity 0 ⟨.cls, "o#D"⟩) [.entity 0 ⟨.cls, "o#A"⟩, outside],
      .disjointUnion (.entity 0 ⟨.cls, "o#E"⟩) []] := rfl

theorem listed_drawn : let w' := (listed.run .single unwritten).2
    ∃ g, Graph.ofOntology w' (w'.ontology 0) = .ok g := by
  intro w'
  have hnamed : ∀ name, (Term.entity 0 ⟨.cls, name⟩).HasNode := fun _ => .inl rfl
  refine Graph.ok_of_ends (Graph.ofOntology_ends ?_ (show ∀ n ∈ [], _ from nofun) ?_)
  · rw [listed_axioms]
    simp only [List.forall_mem_cons]
    refine ⟨.group (by decide) ?_, .disjointUnion (.named 0 _) ?_, .disjointUnion (.named 0 _) nofun, nofun⟩
    · simp only [List.forall_mem_cons]
      exact ⟨hnamed _, hnamed _, .inr outside_isClass, nofun⟩
    · exact List.forall_mem_cons.mpr ⟨.named 0 _, List.forall_mem_singleton.mpr outside_isClass⟩
  · rw [listed_axioms]
    decide

theorem run_lists_listed : let w' := (listed.run .single unwritten).2
    (listed.run .single unwritten).1.isOk = true ∧ ∃ g, Graph.ofOntology w' (w'.ontology 0) = .ok g ∧
      ∀ u ∈ g.triples, u.predicate ∈ listing → IsWritten w' (w'.ontology 0) u ∨
        ∃ a ∈ (w'.ontology 0).axioms, ∃ ms, Lists w' g.triples a u ms ∧ IsListOf w' g.triples u ms := by
  intro w'
  obtain ⟨g, hg⟩ := listed_drawn
  have hwindows : unwritten.Collected := List.forall_mem_singleton.mpr nofun
  exact ⟨by decide +kernel, g, hg, run_lists listed_meets (single_serves trivial) rfl hwindows nofun hg⟩

/-- The disjoint union of a class that has no parts. -/
def partless : Plan := .calling (.union (.text "A") [] .null) []

theorem partless_meets : partless.Meets (.kinded fun _ => True) :=
  calling_meets ⟨Policy.targets_null, trivial, nofun⟩ nofun

theorem partless_axioms : ((partless.run .single unwritten).2.ontology 0).axioms =
    [.disjointUnion (.entity 0 ⟨.cls, "o#A"⟩) []] := rfl

/-- The triple of a disjoint union is drawn. -/
theorem union_drawn {w : World} {m : Nat} {e : Entity} {f : Bool} {ms : List Term} {u : Unit} {g g' : Graph}
    (h : ofAxiom w ⟨.disjointUnion, [.entity m e, .set f ms]⟩ g = .ok (u, g')) :
    ∃ head, ⟨.iri e.iri, owl "disjointUnionOf", head⟩ ∈ g'.triples := by
  obtain ⟨s, _, hs, h₁⟩ := bind_ok h
  cases hs
  obtain ⟨head, g₁, hlist, h₂⟩ := bind_ok h₁
  cases h₂
  refine ⟨head, Graph.mem_add _ nofun fun l hl => ?_⟩
  have hblank : Adds (fun _ => True) (list ((ordered w ms).map (node w))) fun n => ∃ id, n = .blank id := by
    refine .list (fun _ _ => trivial) fun d hd => ?_
    obtain ⟨t, -, rfl⟩ := List.mem_map.mp hd
    exact (node_adds_of w (fun _ _ => trivial) t).any
  obtain ⟨⟨id, hid⟩, -⟩ := hblank _ _ _ hlist
  cases hid.symm.trans hl

/-- The call succeeds, and the ontology is rendered, with a triple that leads to no list at all. -/
theorem run_lists_partless : let w' := (partless.run .single unwritten).2
    partless.Meets (.kinded fun _ => True) ∧ (partless.run .single unwritten).1.isOk = true ∧
      ∃ g, Graph.ofOntology w' (w'.ontology 0) = .ok g ∧
        ∃ head, ⟨.iri "o#A", owl "disjointUnionOf", head⟩ ∈ g.triples ∧ ∀ ns, ¬IsList g.triples head ns := by
  intro w'
  have haxioms : (w'.ontology 0).axioms = [.disjointUnion (.entity 0 ⟨.cls, "o#A"⟩) []] := partless_axioms
  obtain ⟨g, hg⟩ : ∃ g, Graph.ofOntology w' (w'.ontology 0) = .ok g := by
    refine Graph.ok_of_ends (Graph.ofOntology_ends ?_ (show ∀ n ∈ [], _ from nofun) ?_)
    · exact haxioms ▸ List.forall_mem_singleton.mpr (.disjointUnion (.named 0 _) nofun)
    · rw [haxioms]
      decide
  refine ⟨partless_meets, by decide +kernel, g, hg, ?_⟩
  -- The one axiom is drawn at some point, and its triple is there from then on.
  obtain ⟨g₁, g₂, -, -, -, hdrawn, rest, hext⟩ :=
    Graph.exists_axiom_drawn hg (show (w'.ontology 0).axioms = [] ++ _ :: [] from haxioms)
  obtain ⟨head, hhead⟩ := union_drawn hdrawn
  have hmem : ⟨.iri "o#A", owl "disjointUnionOf", head⟩ ∈ g.triples := hext.triples ▸ List.mem_append_left _ hhead
  refine ⟨head, hmem, ?_⟩
  have hkinded : ∀ a ∈ (w'.ontology 0).axioms, a.IsKinded :=
    haxioms ▸ List.forall_mem_singleton.mpr (.two rfl (.named ⟨0, _, rfl⟩) ⟨[], rfl, .nil, Nat.zero_le _, nofun, nofun⟩)
  rcases Graph.ofOntology_lists hkinded hg hmem (show owl "disjointUnionOf" ∈ listing by decide) with
    (⟨n, hn, -⟩ | ⟨a, ha, hasserts⟩) | ⟨a, ha, ms, hlists, hlist⟩
  · cases hn
  · rw [haxioms] at ha
    obtain rfl := List.mem_singleton.mp ha
    cases hasserts
  · rw [haxioms] at ha
    obtain rfl := List.mem_singleton.mp ha
    obtain ⟨owner, h⟩ := hlists.exists_union rfl
    cases h
    exact (hlist.headless rfl).2

end Plan

end Authoring
