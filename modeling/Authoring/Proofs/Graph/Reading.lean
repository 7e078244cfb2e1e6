import Authoring.Proofs.Graph.Rendering
import Authoring.Proofs.Graph.Shape

/-!
# Reading a drawn class expression back

What is drawn for a class expression says what the expression is. `Reading.class?` reads a node after the mapping of
RDF graphs to OWL, from nothing but triples: a blank node is a complement, an enumeration, an intersection, a union or
a restriction by the predicates that it has, and the list of members is followed from its head. For a class or class
expression of any depth the triples that its drawing adds read as an equal term, and no subject among them occurred in
the graph before (`Draw.node_reads`).

**What carries the proof.** An induction on the class expression. What is drawn of it is a description of a new node
(`Draw.complement_draws`, `Draw.group_draws`, `Draw.restriction_draws`), and from what such a description says, in
whatever larger set of triples it is looked up, the node reads as what it is if the parts read as what they are
(`Draw.Reads`).

**What is assumed.** A new blank node is one that occurs in no triple of the graph (`Graph.IsFresh`).

**What it does not establish.** The members of a set are read in the order in which they were drawn, and entities as
those of the shared factory; so what is read equals the expression and need not be it.
-/

namespace Authoring

open Vocabulary

/-! ## The reading -/

namespace Reading

section
variable (ts : List Triple)

/-- What a predicate leads to from a blank node. -/
def object? (id : Nat) (predicate : String) : Option Node :=
  ((triplesOf ts id).find? (·.predicate == predicate)).map (·.object)

/-- What the first of some predicates that a blank node has leads to, and what the predicate stands for. -/
def firstOf? (id : Nat) (predicates : List (String × Operator)) : Option (Operator × Node) :=
  predicates.findSome? fun p => (object? ts id (owl p.1)).map fun n => (p.2, n)

/-- The items of a list. -/
def items? : Nat → Node → Option (List Node)
  | _, .iri s => if s = rdf "nil" then some [] else none
  | fuel + 1, .blank id => do
    let item ← object? ts id (rdf "first")
    let rest ← object? ts id (rdf "rest")
    return item :: (← items? fuel rest)
  | _, _ => none

/-- The natural number of a literal. -/
def number? : Node → Option Nat
  | .literal l =>
    if l.datatype = some (xsd "nonNegativeInteger") ∧ l.text.toList.all Char.isDigit = true ∧ l.text ≠ "" then
      some (Nat.ofDigitChars 10 l.text.toList 0)
    else none
  | _ => none

/-- The entity of a kind that a node is. -/
def entity? (kind : EntityKind) : Node → Option Term
  | .iri s => some (.entity 0 ⟨kind, s⟩)
  | _ => none

def quantifiers : List (String × Operator) := [("someValuesFrom", .some), ("allValuesFrom", .only)]

def counters : List (String × Operator) :=
  [("minQualifiedCardinality", .min), ("maxQualifiedCardinality", .max), ("qualifiedCardinality", .exactly)]

def combinations : List (String × Operator) := [("intersectionOf", .and), ("unionOf", .or)]

/-- An expression over the set of what some nodes are read as. -/
def group? (o : Operator) (read : Node → Option Term) (members : Option (List Node)) : Option Term := do
  let ms ← (← members).mapM read
  return .expression (.ofOperator o) [Term.setOf true ms] .null

/-- **The class that a node stands for**: an IRI is a class, and a blank node is the expression that its triples
describe. -/
def class? : Nat → Node → Option Term
  | _, .iri s => entity? .cls (.iri s)
  | fuel + 1, .blank id =>
    match object? ts id (owl "complementOf"), object? ts id (owl "oneOf"), firstOf? ts id combinations,
      object? ts id (owl "onProperty") with
    | some n, _, _, _ => (class? fuel n).map fun f => .expression (.ofOperator .not) [f] .null
    | none, some head, _, _ => group? .oneOf (entity? .individual) (items? ts fuel head)
    | none, none, some (o, head), _ => group? o (class? fuel) (items? ts fuel head)
    | none, none, none, some property => do
      let p ← entity? .objectProperty property
      match firstOf? ts id quantifiers, firstOf? ts id counters with
      | some (o, n), _ => return .expression (.ofOperator o) [p, ← class? fuel n] .null
      | none, some (o, n) =>
        let count ← number? n
        return .expression (.ofOperator o) [p, ← class? fuel (← object? ts id (owl "onClass"))] (.int count)
      | none, none => none
    | none, none, none, none => none
  | _, _ => none

end

/-! ## What the descriptions of expressions read as -/

section
variable {ts : List Triple} {id fuel : Nat} {said : List (String × Node)} {c n : Node} {y : Term}

/-- What is read of a node is the first of what is said. -/
theorem object?_eq (ts : List Triple) (id : Nat) (p : String) : object? ts id p = (objects ts id p).head? := by
  rw [object?, objects, List.head?_map, List.head?_filter]

theorem Says.object?_eq (h : Says ts id said) {p : String} (hp : p ∈ describing) :
    object? ts id p = (said.find? (·.1 == p)).map (·.2) := by
  rw [Reading.object?_eq, h p hp, List.head?_map, List.head?_filter]

theorem Says.firstOf?_eq (h : Says ts id said) {ps : List (String × Operator)} (hps : ∀ q ∈ ps, owl q.1 ∈ describing) :
    firstOf? ts id ps = ps.findSome? fun q => ((said.find? (·.1 == owl q.1)).map (·.2)).map fun n => (q.2, n) := by
  induction ps with
  | nil => rfl
  | cons q ps ih =>
    have hrest := ih fun r hr => hps r (List.mem_cons_of_mem _ hr)
    rw [firstOf?] at hrest ⊢
    rw [List.findSome?_cons, List.findSome?_cons, h.object?_eq (hps q List.mem_cons_self), hrest]

theorem class?_complement (h : Says ts id [(rdf "type", c), (owl "complementOf", n)]) (hn : class? ts fuel n = some y) :
    class? ts (fuel + 1) (.blank id) = some (.expression (.ofOperator .not) [y] .null) := by
  have hfilled : object? ts id (owl "complementOf") = some n := (h.object?_eq (by decide)).trans rfl
  rw [class?, hfilled]
  show (class? ts fuel n).map _ = _
  rw [hn]
  rfl

theorem class?_enumeration {ms : List Term} (h : Says ts id [(rdf "type", c), (owl "oneOf", n)])
    (hn : ∃ ns, items? ts fuel n = some ns ∧ ns.mapM (entity? .individual) = some ms) :
    class? ts (fuel + 1) (.blank id) = some (.expression (.ofOperator .oneOf) [Term.setOf true ms] .null) := by
  have hnone : object? ts id (owl "complementOf") = none := (h.object?_eq (by decide)).trans rfl
  have hlisted : object? ts id (owl "oneOf") = some n := (h.object?_eq (by decide)).trans rfl
  obtain ⟨ns, hitems, hmembers⟩ := hn
  rw [class?, hnone, hlisted]
  simp [group?, hitems, hmembers]

theorem class?_combination {o : Operator} {p : String} {ms : List Term}
    (ho : o = .and ∧ p = owl "intersectionOf" ∨ o = .or ∧ p = owl "unionOf") (h : Says ts id [(rdf "type", c), (p, n)])
    (hn : ∃ ns, items? ts fuel n = some ns ∧ ns.mapM (class? ts fuel) = some ms) :
    class? ts (fuel + 1) (.blank id) = some (.expression (.ofOperator o) [Term.setOf true ms] .null) := by
  obtain ⟨ns, hitems, hmembers⟩ := hn
  have hlisted : object? ts id (owl "complementOf") = none ∧ object? ts id (owl "oneOf") = none ∧
      firstOf? ts id combinations = some (o, n) := by
    rw [h.object?_eq (by decide), h.object?_eq (by decide), h.firstOf?_eq (by decide)]
    rcases ho with ⟨rfl, rfl⟩ | ⟨rfl, rfl⟩
    · exact ⟨rfl, rfl, rfl⟩
    · exact ⟨rfl, rfl, rfl⟩
  rw [class?, hlisted.1, hlisted.2.1, hlisted.2.2]
  simp [group?, hitems, hmembers]

theorem class?_quantifier {o : Operator} {p iri : String}
    (ho : o = .some ∧ p = owl "someValuesFrom" ∨ o = .only ∧ p = owl "allValuesFrom")
    (h : Says ts id [(rdf "type", c), (owl "onProperty", .iri iri), (p, n)])
    (hn : class? ts fuel n = some y) : class? ts (fuel + 1) (.blank id) =
      some (.expression (.ofOperator o) [.entity 0 ⟨.objectProperty, iri⟩, y] .null) := by
  have hfound : object? ts id (owl "complementOf") = none ∧ object? ts id (owl "oneOf") = none ∧
      firstOf? ts id combinations = none ∧ object? ts id (owl "onProperty") = some (.iri iri) ∧
      firstOf? ts id quantifiers = some (o, n) := by
    rw [h.object?_eq (by decide), h.object?_eq (by decide), h.firstOf?_eq (by decide), h.object?_eq (by decide),
      h.firstOf?_eq (by decide)]
    rcases ho with ⟨rfl, rfl⟩ | ⟨rfl, rfl⟩
    · exact ⟨rfl, rfl, rfl, rfl, rfl⟩
    · exact ⟨rfl, rfl, rfl, rfl, rfl⟩
  obtain ⟨h₁, h₂, h₃, h₄, h₅⟩ := hfound
  rw [class?, h₁, h₂, h₃, h₄]
  simp [entity?, h₅, hn]

theorem class?_counter {o : Operator} {p iri : String} {value : Node} {count : Nat}
    (ho : o = .min ∧ p = owl "minQualifiedCardinality" ∨ o = .max ∧ p = owl "maxQualifiedCardinality" ∨
      o = .exactly ∧ p = owl "qualifiedCardinality")
    (h : Says ts id [(rdf "type", c), (owl "onProperty", .iri iri), (p, value), (owl "onClass", n)])
    (hvalue : number? value = some count) (hn : class? ts fuel n = some y) : class? ts (fuel + 1) (.blank id) =
      some (.expression (.ofOperator o) [.entity 0 ⟨.objectProperty, iri⟩, y] (.int count)) := by
  have hfound : object? ts id (owl "complementOf") = none ∧ object? ts id (owl "oneOf") = none ∧
      firstOf? ts id combinations = none ∧ object? ts id (owl "onProperty") = some (.iri iri) ∧
      firstOf? ts id quantifiers = none ∧ firstOf? ts id counters = some (o, value) ∧
      object? ts id (owl "onClass") = some n := by
    rw [h.object?_eq (by decide), h.object?_eq (by decide), h.firstOf?_eq (by decide), h.object?_eq (by decide),
      h.firstOf?_eq (by decide), h.firstOf?_eq (by decide), h.object?_eq (by decide)]
    rcases ho with ⟨rfl, rfl⟩ | ⟨rfl, rfl⟩ | ⟨rfl, rfl⟩
    · exact ⟨rfl, rfl, rfl, rfl, rfl, rfl, rfl⟩
    · exact ⟨rfl, rfl, rfl, rfl, rfl, rfl, rfl⟩
    · exact ⟨rfl, rfl, rfl, rfl, rfl, rfl, rfl⟩
  obtain ⟨h₁, h₂, h₃, h₄, h₅, h₆, h₇⟩ := hfound
  rw [class?, h₁, h₂, h₃, h₄]
  simp [entity?, h₅, h₆, h₇, hvalue, hn]

/-- The literal of a natural number reads as the number. -/
theorem number?_natural (n : Nat) :
    number? (.literal ⟨toString (n : Int), none, some (xsd "nonNegativeInteger")⟩) = some n := by
  have htext : toString (n : Int) = n.repr := rfl
  have hdigits : (Nat.repr n).toList.all Char.isDigit = true := by
    rw [Nat.toList_repr, List.all_eq_true]
    exact fun c hc => Nat.isDigit_of_mem_toDigits (by decide) (by decide) hc
  have hne : Nat.repr n ≠ "" := by
    intro h
    have := congrArg String.toList h
    rw [Nat.toList_repr] at this
    exact Nat.toDigits_ne_nil this
  rw [number?, htext, if_pos ⟨rfl, hdigits, hne⟩, Nat.toList_repr, Nat.ofDigitChars_toDigits (by decide) (by decide)]

/-- A well-formed list is read as its items. -/
theorem IsList.items?_eq {ns : List Node} (h : IsList ts n ns) (hfuel : ns.length ≤ fuel) :
    items? ts fuel n = some ns := by
  induction h generalizing fuel with
  | nil => rw [items?, if_pos rfl]
  | @cell id item rest ns hfirst hrest _ ih =>
    obtain ⟨fuel, rfl⟩ : ∃ k, fuel = k + 1 := ⟨fuel - 1, by simp at hfuel; omega⟩
    have hitem : object? ts id (rdf "first") = some item := by rw [object?_eq, hfirst]; rfl
    have hnext : object? ts id (rdf "rest") = some rest := by rw [object?_eq, hrest]; rfl
    simp [items?, hitem, hnext, ih (Nat.le_of_succ_le_succ hfuel)]

end

end Reading

namespace Graph

/-- A new blank node of the graph occurs in none of its triples. -/
def IsFresh (g : Graph) : Prop := ∀ t ∈ g.triples, ∀ id, t.subject = .blank id ∨ t.object = .blank id → id < g.next

end Graph

namespace Draw

open Authoring.Graph Reading
open Term (IsClass Same)

variable {g : Graph} {w : World} {read : List Triple → Nat → Node → Option Term}

/-- **Reading back**: from what is drawn, or any triples that say the same, a node reads as an equal term. -/
def Reads (read : List Triple → Nat → Node → Option Term) (x : Term) (ts drawn : List Triple) (n : Node) : Prop :=
  ∀ fuel, drawn.length ≤ fuel → ∃ y, read ts fuel n = some y ∧ Same x y

/-! ## Lists -/

theorem Parts.reads {ts parts : List Triple} {zs : List Term} {ns : List Node} {fuel : Nat}
    (h : Parts (fun z => Reads read z ts) zs parts ns) (hfuel : parts.length ≤ fuel) :
    ∃ ys, ns.mapM (read ts fuel) = some ys ∧ List.Forall₂ Same zs ys := by
  induction h with
  | nil => exact ⟨[], rfl, .nil⟩
  | cons hpart _ ih =>
    rw [List.length_append] at hfuel
    obtain ⟨y, hy, hsame⟩ := hpart fuel (by omega)
    obtain ⟨ys, hys, hsames⟩ := ih (by omega)
    exact ⟨y :: ys, by simp [List.mapM_cons, hy, hys], .cons hsame hsames⟩

/-- The list of what reads as some terms is read as the list of equal terms. -/
theorem Listed.reads {ts drawn : List Triple} {zs : List Term} {head : Node} {ns : List Node} {fuel : Nat}
    (h : Listed (Reads read) zs ts drawn head ns) (hne : zs ≠ []) (hfuel : drawn.length ≤ fuel) :
    ∃ ys, (∃ ns, items? ts fuel head = some ns ∧ ns.mapM (read ts fuel) = some ys) ∧ List.Forall₂ Same zs ys := by
  obtain ⟨parts, links, rfl, hparts, hlinks, -⟩ := h.parts
  rw [List.length_append] at hfuel
  have hlength : List.Forall₂ (fun _ _ => True) zs ns := hparts.forall₂ fun _ _ _ _ _ => trivial
  have hns : ns ≠ [] := by
    rintro rfl
    exact hne (List.forall₂_nil_right_iff.mp hlength)
  obtain ⟨ys, hys, hsame⟩ := hparts.reads (show parts.length ≤ fuel by omega)
  exact ⟨ys, ⟨ns, (h.isList hns).items?_eq (by omega), hys⟩, hsame⟩

/-! ## Expressions -/

/-- There is more of a description than of its part. -/
theorem exists_fuel {said : List (String × Node)} {p : String} {id fuel : Nat} {o : Node} {inner : List Triple}
    (h : (saying id said ++ inner ++ saying id [(p, o)]).length ≤ fuel) : ∃ k, fuel = k + 1 ∧ inner.length ≤ k := by
  simp only [saying, List.length_append, List.length_map, List.length_cons, List.length_nil] at h
  exact ⟨fuel - 1, by omega, by omega⟩

/-- The complement of what reads as a class reads as a class. -/
theorem complement_reads {f : Term} (h : Draws (Reads class? f) (node w f)) :
    Draws (Reads class? (.expression (.ofOperator .not) [f] .null))
      (node w (.expression (.ofOperator .not) [f] .null)) := by
  refine (complement_draws h).mono ?_
  rintro ts _ _ ⟨id, n, inner, rfl, hown, rfl, hf⟩ _ hfuel
  obtain ⟨fuel, rfl, hinner⟩ := exists_fuel hfuel
  obtain ⟨y, hy, hsame⟩ := hf fuel hinner
  exact ⟨_, class?_complement hown hy, .expression (.cons hsame .nil)⟩

/-- A group reads as an expression over the set of what its members read as. -/
theorem group_reads {o : Operator} {p : String} {ms : List Term} (hp : listPredicate? o = some p)
    (hms : ∀ t ∈ ms, Draws (Reads read t) (node w t)) (hne : ms ≠ []) (hbuilt : ∀ t ∈ ms, t.isBuilt = true)
    (hd : Distinct ms) (hsymm : ∀ t ∈ ms, ∀ u ∈ ms, (t == u) = true → (u == t) = true)
    (hclass : ∀ ts id fuel n ys, Says ts id [(rdf "type", .iri (owl "Class")), (p, n)] →
      (∃ ns, items? ts fuel n = some ns ∧ ns.mapM (read ts fuel) = some ys) →
      class? ts (fuel + 1) (.blank id) = some (.expression (.ofOperator o) [Term.setOf true ys] .null)) :
    Draws (Reads class? (.expression (.ofOperator o) [.set true ms] .null))
      (node w (.expression (.ofOperator o) [.set true ms] .null)) := by
  have hperm : (ordered w ms).Perm ms := ordered_perm w ms
  refine (group_draws hp hms).mono ?_
  rintro ts _ _ ⟨id, head, inner, rfl, hown, rfl, ns, hlist⟩ _ hfuel
  obtain ⟨fuel, rfl, hinner⟩ := exists_fuel hfuel
  obtain ⟨ys, hread, hsame⟩ := hlist.reads (fun h => hne (List.nil_perm.mp (h ▸ hperm))) hinner
  exact ⟨_, hclass ts id fuel head ys hown hread, .expression (.cons (.setOf hbuilt hd hsymm hperm hsame) .nil)⟩

/-- A restriction reads as one by what its filler reads as. -/
theorem restriction_reads {o : Operator} {m : Nat} {iri : String} {f c : Term} (ho : Term.Restricts o c)
    (h : Draws (Reads class? f) (node w f)) :
    let property : Term := .entity m ⟨.objectProperty, iri⟩
    Draws (Reads class? (.expression (.ofOperator o) [property, f] c))
      (restriction w (.ofOperator o) [property, f] [node w property, node w f] c) := by
  intro property
  refine (restriction_draws_pair _ h).mono ?_
  rintro ts drawn n ⟨_, _, _, p, ⟨⟩, ⟨⟩, hp, hdrawn⟩ _ hfuel
  rw [operator?_ofOperator, Option.bind_some] at hp
  have hparts : ∀ {y}, Same f y → List.Forall₂ Same [property, f] [.entity 0 ⟨.objectProperty, iri⟩, y] :=
    fun hsame => .cons (.entity m 0 _) (.cons hsame .nil)
  rcases hdrawn with ⟨rfl, id, n, inner, rfl, hown, rfl, hf⟩ | ⟨hc, id, n, inner, rfl, hown, rfl, hf⟩
  · obtain ⟨fuel, rfl, hinner⟩ := exists_fuel hfuel
    obtain ⟨y, hy, hsame⟩ := hf fuel hinner
    have hquantifier : o = .some ∧ p = owl "someValuesFrom" ∨ o = .only ∧ p = owl "allValuesFrom" := by
      cases o <;> cases hp <;> simp [Term.Restricts] at ho ⊢
    exact ⟨_, class?_quantifier hquantifier hown hy, .expression (hparts hsame)⟩
  · obtain ⟨fuel, rfl, hinner⟩ := exists_fuel hfuel
    obtain ⟨y, hy, hsame⟩ := hf fuel hinner
    have hcounter : (o = .min ∧ p = owl "minQualifiedCardinality" ∨ o = .max ∧ p = owl "maxQualifiedCardinality" ∨
        o = .exactly ∧ p = owl "qualifiedCardinality") ∧ ∃ count : Nat, c = .int count := by
      cases o <;> cases hp <;> simp_all [Term.Restricts]
    obtain ⟨hoperator, count, rfl⟩ := hcounter
    exact ⟨_, class?_counter hoperator hown (number?_natural count) hy, .expression (hparts hsame)⟩

/-- What is an IRI is read without any triples. -/
theorem entity_reads {m : Nat} {e : Entity} (h : ∀ ts fuel, read ts fuel (.iri e.iri) = some (.entity 0 e)) :
    Draws (Reads read (.entity m e)) (node w (.entity m e)) := by
  intro g n g' _ hrun
  cases hrun
  exact ⟨nofun, [], .refl g, fun ts _ fuel _ => ⟨_, h ts fuel, .entity m 0 e⟩⟩

/-- **Every class is drawn as what reads as a class**, to any depth. -/
theorem node_draws_class {x : Term} (h : IsClass x) : Draws (Reads class? x) (node w x) := by
  induction h with
  | named m iri => exact entity_reads fun ts fuel => by rw [class?]; rfl
  | @restriction o p f c ho hp hf ih =>
    obtain ⟨m, iri, rfl⟩ := hp
    rw [node_restriction w ho]
    exact restriction_reads ho ih
  | complement _ ih => exact complement_reads ih
  | @combination o ms ho hne hd hms ih =>
    have hbuilt : ∀ t ∈ ms, t.isBuilt = true := fun t ht => (hms t ht).isBuilt
    have hsymm : ∀ t ∈ ms, ∀ u ∈ ms, (t == u) = true → (u == t) = true :=
      fun t ht u hu htu => ((hms t ht).same (hms u hu) htu).symm.beq
    rcases ho with rfl | rfl
    · exact group_reads rfl ih hne hbuilt hd hsymm fun _ _ _ _ _ => class?_combination (.inl ⟨rfl, rfl⟩)
    · exact group_reads rfl ih hne hbuilt hd hsymm fun _ _ _ _ _ => class?_combination (.inr ⟨rfl, rfl⟩)
  | @enumeration ms hne hd hms =>
    have hmember : ∀ t ∈ ms, Draws (Reads (fun _ _ => entity? .individual) t) (node w t) := by
      intro t ht
      obtain ⟨m, iri, rfl⟩ := hms t ht
      exact entity_reads fun ts fuel => rfl
    have hsymm : ∀ t ∈ ms, ∀ u ∈ ms, (t == u) = true → (u == t) = true :=
      fun t ht u _ htu => ((hms t ht).same htu).symm.beq
    exact group_reads rfl hmember hne (fun t ht => (hms t ht).isBuilt) hd hsymm fun _ _ _ _ _ => class?_enumeration

/-- **A drawn class expression can be read back.** Drawing a class or class expression of any depth into any graph
ends with a node. It adds triples about subjects that occur in no triple of the graph, and the node reads as an equal
term, from the added triples alone as well as from all triples. -/
theorem node_reads {x : Term} (h : IsClass x) (hg : g.IsFresh) (w : World) : ∃ n g' added,
    node w x g = .ok (n, g') ∧ g'.triples = g.triples ++ added ∧
    (∀ t ∈ added, ∀ u ∈ g.triples, u.subject ≠ t.subject ∧ u.object ≠ t.subject) ∧
    (∃ y, class? added added.length n = some y ∧ Same x y) ∧
    ∃ y, class? g'.triples added.length n = some y ∧ Same x y := by
  have hbelow : g.Below := fun t ht id hid => hg t ht id (.inl hid)
  obtain ⟨n, g', hrun⟩ := node_ends (w := w) h g
  obtain ⟨-, added, hgrows, hread⟩ := node_draws_class h g n g' hbelow hrun
  refine ⟨n, g', added, hrun, hgrows.triples, fun t ht u hu => ?_, hread added (fun _ _ _ _ _ => rfl) _ (Nat.le_refl _),
    hread g'.triples (hgrows.extends.settles hbelow (.refl g')) _ (Nat.le_refl _)⟩
  obtain ⟨id, hid, hlo, -⟩ := hgrows.within t ht
  rw [hid]
  exact ⟨fun hs => absurd (hg u hu id (.inl hs)) (by omega), fun ho => absurd (hg u hu id (.inr ho)) (by omega)⟩

/-- Those in `A` that are in `B` along `p` at least twice, and not along `p` to anything but `a`. -/
def layered : Term :=
  let a : Term := .entity 0 ⟨.cls, "A"⟩
  let b : Term := .entity 0 ⟨.cls, "B"⟩
  let p : Term := .entity 0 ⟨.objectProperty, "p"⟩
  let one : Term := .expression (.ofOperator .oneOf) [.set true [.entity 0 ⟨.individual, "a"⟩]] .null
  .expression (.ofOperator .and) [.set true [a, .expression (.ofOperator .min) [p, b] (.int 2),
    .expression (.ofOperator .not) [.expression (.ofOperator .only) [p, one] .null] .null]] .null

theorem layered_isClass : IsClass layered := by
  have hp : Term.IsOfKind .objectProperty (.entity 0 ⟨.objectProperty, "p"⟩) := ⟨0, "p", rfl⟩
  have hone : IsClass (.expression (.ofOperator .oneOf) [.set true [.entity 0 ⟨.individual, "a"⟩]] .null) :=
    .enumeration nofun (Distinct.cons_iff.mpr ⟨nofun, .nil⟩) (List.forall_mem_singleton.mpr ⟨0, "a", rfl⟩)
  have hmin : IsClass (.expression (.ofOperator .min) [.entity 0 ⟨.objectProperty, "p"⟩, .entity 0 ⟨.cls, "B"⟩]
      (.int 2)) := .restriction ⟨2, rfl⟩ hp (.named 0 "B")
  refine .combination (.inl rfl) nofun (by unfold Distinct; decide) ?_
  simp only [List.forall_mem_cons]
  exact ⟨.named 0 "A", hmin, .complement (.restriction (o := .only) rfl hp hone), nofun⟩

/-- Into a graph that has one blank node already. -/
theorem node_reads_layered :
    let g : Graph := ⟨[⟨.blank 0, rdf "type", .iri (owl "Class")⟩], 1⟩
    IsClass layered ∧ g.IsFresh ∧ ∃ n g' added,
      node (.initial ⟨"en", "#"⟩) layered g = .ok (n, g') ∧ g'.triples = g.triples ++ added ∧
      (∀ t ∈ added, ∀ u ∈ g.triples, u.subject ≠ t.subject ∧ u.object ≠ t.subject) ∧
      (∃ y, class? added added.length n = some y ∧ Same layered y) ∧
      ∃ y, class? g'.triples added.length n = some y ∧ Same layered y := by
  intro g
  have hg : g.IsFresh := by
    intro t ht id hid
    rw [List.mem_singleton.mp ht] at hid
    rcases hid with hid | hid
    · exact Node.blank.inj hid ▸ Nat.one_pos
    · cases hid
  exact ⟨layered_isClass, hg, node_reads layered_isClass hg _⟩

end Draw

end Authoring
