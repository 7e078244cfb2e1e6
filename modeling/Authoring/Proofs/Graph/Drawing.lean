import Authoring.Graph.Draw
import Authoring.Proofs.Term.Description

/-!
# What a drawing adds

A drawing only adds triples, and what it adds can be read off its text. `Draw.Adds E x P` says that whenever `x`
ends, everything drawn before is still there, everything else is of the form `E`, and what `x` answers has the
property `P`. There is one rule for each way of building a drawing, so a law about all triples of a graph is
proved by following the text of the drawing.

The one thing that all drawings share is how a term becomes a node (`Draw.node_adds`): an entity is its IRI and
adds nothing, an expression is a blank node, and only blank nodes are described on the way. An axiom is drawn in one of a
few forms (`Draw.Form`), and a law about all axioms has a case for each of them.

**What it does not establish.** A drawing may fail, and then nothing is said.
-/

namespace Authoring

/-- A node that is found is the one that is looked for, unless this is a literal. -/
theorem Node.eq_of_found {m n : Node} (h : (m == n) = true) (hm : ∀ l, m ≠ .literal l) : m = n := by
  cases m with
  | literal l => exact absurd rfl (hm l)
  | iri i =>
    cases n with
    | iri j => exact congrArg Node.iri (eq_of_beq (show (i == j) = true from h))
    | _ => cases h
  | blank i =>
    cases n with
    | blank j => exact congrArg Node.blank (eq_of_beq (show (i == j) = true from h))
    | _ => cases h

namespace Graph

variable {g : Graph} {t u : Triple}

theorem subset_add (g : Graph) (u : Triple) : g.triples ⊆ (g.add u).triples := by
  intro t ht
  unfold add
  split
  · exact ht
  · exact List.mem_append_left _ ht

theorem mem_of_mem_add (h : t ∈ (g.add u).triples) : t ∈ g.triples ∨ t = u := by
  unfold add at h
  split at h
  · exact .inl h
  · exact (List.mem_append.mp h).imp_right List.mem_singleton.mp

/-- What has been added is there, unless a literal has been taken for another. -/
theorem mem_add (g : Graph) (hs : ∀ l, u.subject ≠ .literal l) (ho : ∀ l, u.object ≠ .literal l) :
    u ∈ (g.add u).triples := by
  unfold add
  split
  next h =>
    obtain ⟨⟨s, p, o⟩, hmem, heq⟩ := List.contains_iff_exists_mem_beq.mp h
    obtain ⟨hsp, ho'⟩ := Bool.and_eq_true_iff.mp heq
    obtain ⟨hs', hp'⟩ := Bool.and_eq_true_iff.mp hsp
    obtain ⟨us, up, uo⟩ := u
    obtain rfl : us = s := Node.eq_of_found hs' hs
    obtain rfl : uo = o := Node.eq_of_found ho' ho
    obtain rfl : up = p := eq_of_beq hp'
    exact hmem
  next => exact List.mem_append_right _ List.mem_cons_self

end Graph

/-- The subject of the triple is a blank node. -/
def Triple.IsInner (t : Triple) : Prop := ∃ id, t.subject = .blank id

namespace Draw

variable {α β : Type} {E F : Triple → Prop} {g g' : Graph}

@[simp] theorem run_bind (x : Draw α) (f : α → Draw β) (g : Graph) :
    (x >>= f) g = match x g with
      | .ok (a, g') => f a g'
      | .error e => .error e := by
  show Except.bind (x g) _ = _
  cases x g <;> rfl

@[simp] theorem run_pure (a : α) (g : Graph) : (pure a : Draw α) g = .ok (a, g) := rfl

@[simp] theorem run_throw (e : Fault) (g : Graph) : (throw e : Draw α) g = .error e := rfl

@[simp] theorem run_emit (s : Node) (p : String) (o : Node) (g : Graph) :
    emit s p o g = .ok ((), g.add ⟨s, p, o⟩) := rfl

@[simp] theorem run_fresh (g : Graph) : fresh g = .ok (.blank g.next, { g with next := g.next + 1 }) := rfl

/-- A sequence that ends has a graph at the point between its parts. -/
theorem bind_ok {x : Draw α} {f : α → Draw β} {b : β} (h : (x >>= f) g = .ok (b, g')) :
    ∃ a g₁, x g = .ok (a, g₁) ∧ f a g₁ = .ok (b, g') := by
  rw [run_bind] at h
  cases hx : x g with
  | error e =>
    rw [hx] at h
    cases h
  | ok r =>
    rw [hx] at h
    exact ⟨r.1, r.2, rfl, h⟩

/-- Whenever the drawing ends, it has added triples of a form only, and answers something with a property. -/
def Adds (E : Triple → Prop) (x : Draw α) (P : α → Prop) : Prop :=
  ∀ g a g', x g = .ok (a, g') → P a ∧ g.triples ⊆ g'.triples ∧ ∀ t ∈ g'.triples, t ∈ g.triples ∨ E t

namespace Adds

variable {P Q : α → Prop} {R : β → Prop} {x : Draw α}

theorem mono (h : Adds E x P) (hE : ∀ t, E t → F t) (hP : ∀ a, P a → Q a) : Adds F x Q := by
  intro g a g' hx
  obtain ⟨ha, hsub, hadd⟩ := h g a g' hx
  exact ⟨hP a ha, hsub, fun t ht => (hadd t ht).imp_right (hE t)⟩

theorem any (h : Adds E x P) : Adds E x fun _ => True := h.mono (fun _ => id) fun _ _ => trivial

/-- A drawing that leaves the graph as it is adds nothing. -/
theorem of_same (h : ∀ g a g', x g = .ok (a, g') → P a ∧ g'.triples = g.triples) : Adds E x P := by
  intro g a g' hx
  obtain ⟨ha, heq⟩ := h g a g' hx
  exact ⟨ha, heq ▸ List.Subset.refl _, fun t ht => .inl (heq ▸ ht)⟩

theorem pure {a : α} (h : P a) : Adds E (pure a : Draw α) P :=
  of_same fun g b g' hx => by
    cases hx
    exact ⟨h, rfl⟩

theorem throw {e : Fault} : Adds E (throw e : Draw α) P := of_same nofun

theorem fresh : Adds E fresh fun n => ∃ id, n = .blank id :=
  of_same fun g n g' hx => by
    cases hx
    exact ⟨⟨_, rfl⟩, rfl⟩

theorem emit {s o : Node} {p : String} (h : E ⟨s, p, o⟩) : Adds E (emit s p o) fun _ => True := by
  intro g a g' hx
  cases hx
  refine ⟨trivial, g.subset_add _, fun t ht => (Graph.mem_of_mem_add ht).imp_right ?_⟩
  rintro rfl
  exact h

theorem bind {f : α → Draw β} (hx : Adds E x P) (hf : ∀ a, P a → Adds E (f a) R) : Adds E (x >>= f) R := by
  intro g b g' h
  obtain ⟨a, g₁, hrun, h⟩ := bind_ok h
  obtain ⟨ha, hsub, hadd⟩ := hx g a g₁ hrun
  obtain ⟨hb, hsub', hadd'⟩ := hf a ha g₁ b g' h
  exact ⟨hb, fun t ht => hsub' (hsub ht), fun t ht => (hadd' t ht).elim (hadd t) .inr⟩

/-- What several drawings add, one after the other. -/
theorem mapM_id {ds : List (Draw α)} (h : ∀ d ∈ ds, Adds E d P) : Adds E (ds.mapM id) fun as => ∀ a ∈ as, P a := by
  induction ds with
  | nil => exact pure nofun
  | cons d ds ih =>
    rw [List.mapM_cons]
    refine bind (h d List.mem_cons_self) fun a ha => ?_
    refine bind (ih fun d hd => h d (List.mem_cons_of_mem _ hd)) fun as has => pure ?_
    exact List.forall_mem_cons.mpr ⟨ha, has⟩

theorem forM {γ : Type} {f : γ → Draw PUnit} {l : List γ} (h : ∀ c ∈ l, Adds E (f c) fun _ => True) :
    Adds E (l.forM f) fun _ => True := by
  induction l with
  | nil => exact pure trivial
  | cons c l ih =>
    exact bind (h c List.mem_cons_self) fun _ _ => ih fun d hd => h d (List.mem_cons_of_mem _ hd)

/-- Of a sequence of drawings that ends each one has ended, and what it added is there in the end. -/
theorem forM_ran {γ : Type} {f : γ → Draw PUnit} {l : List γ} {c : γ} (h : ∀ c ∈ l, Adds E (f c) fun _ => True)
    {u : PUnit} (hrun : l.forM f g = .ok (u, g')) (hc : c ∈ l) :
    ∃ v g₁ g₂, f c g₁ = .ok (v, g₂) ∧ g₂.triples ⊆ g'.triples := by
  induction l generalizing g with
  | nil => cases hc
  | cons d l ih =>
    have htail : ∀ c ∈ l, Adds E (f c) fun _ => True := fun c hc => h c (List.mem_cons_of_mem _ hc)
    obtain ⟨v, g₁, hd, hl⟩ := bind_ok hrun
    rcases List.mem_cons.mp hc with rfl | hc
    · exact ⟨v, g, g₁, hd, (forM htail g₁ u g' hl).2.1⟩
    · exact ih htail hl hc

/-! ## Lists -/

theorem cells {head : Node} (hE : ∀ t, t.IsInner → E t) (hhead : ∃ id, head = .blank id) :
    ∀ ns : List Node, Adds E (cells head ns) fun _ => True
  | [] => pure trivial
  | [n] => by
    obtain ⟨id, rfl⟩ := hhead
    exact bind (emit (hE _ ⟨id, rfl⟩)) fun _ _ => emit (hE _ ⟨id, rfl⟩)
  | n :: m :: rest => by
    obtain ⟨id, rfl⟩ := hhead
    refine bind (emit (hE _ ⟨id, rfl⟩)) fun _ _ => bind fresh fun next hnext => ?_
    exact bind (emit (hE _ ⟨id, rfl⟩)) fun _ _ => cells hE hnext (m :: rest)

theorem list {ds : List (Draw Node)} (hE : ∀ t, t.IsInner → E t) (h : ∀ d ∈ ds, Adds E d fun _ => True) :
    Adds E (list ds) fun n => ∃ id, n = .blank id :=
  bind fresh fun _ hhead => bind (mapM_id h) fun ns _ => bind (cells hE hhead ns) fun _ _ => pure hhead

end Adds

/-! ## Nodes -/

section
variable (w : World)

/-- The IRI of an entity or of an ontology. -/
def iri? : Term → Option String
  | .entity _ e => some e.iri
  | .handle (.ontology id) => some (w.ontology id).iri
  | _ => none

theorem iriOf_adds (t : Term) : Adds E (iriOf w t) fun s => iri? w t = some s := by
  unfold iriOf
  split
  · exact .pure rfl
  · exact .pure rfl
  · exact .throw

theorem nodes_eq : ∀ ts : List Term, nodes w ts = ts.map (node w)
  | [] => rfl
  | t :: ts => congrArg (node w t :: ·) (nodes_eq ts)

theorem ranked_eq : ∀ ts : List Term, ranked w ts = ts.map fun t => (rank w t, node w t)
  | [] => rfl
  | t :: ts => congrArg ((rank w t, node w t) :: ·) (ranked_eq ts)

/-- Drawings of members, or whatever belongs to them, in the order of the ranks of the members. -/
theorem inOrder_map (f : Term → α) (ts : List Term) : inOrder (ts.map fun t => (rank w t, f t)) =
    (ts.mergeSort fun s t => (rank w s).le (rank w t)).map f := by
  have hsort := List.map_mergeSort (r := fun s t => (rank w s).le (rank w t))
    (s := fun a b : Rank × α => a.1.le b.1) (f := fun t => (rank w t, f t)) (l := ts) fun _ _ _ _ => rfl
  rw [inOrder, ← hsort, List.map_map]
  rfl

theorem ordered_eq (ts : List Term) : ordered w ts = ts.mergeSort fun s t => (rank w s).le (rank w t) :=
  (inOrder_map w id ts).trans (List.map_id _)

/-- The order in which the members of a set are drawn only rearranges them. -/
theorem ordered_perm (ts : List Term) : (ordered w ts).Perm ts := by
  rw [ordered_eq]
  exact List.mergeSort_perm _ _

/-- The members of an expression are drawn in that order. -/
theorem inOrder_ranked (ts : List Term) : inOrder (ranked w ts) = (ordered w ts).map (node w) := by
  rw [ranked_eq, inOrder_map, ordered_eq]

/-- The members of the one set that an expression is over. -/
theorem members_set (ms : List Term) : members w [.set true ms] = ranked w ms := List.append_nil _

/-- An expression of an operator that restricts is drawn as a restriction. -/
theorem node_restriction {o : Operator} {c : Term} (ho : Term.Restricts o c) (p f : Term) :
    node w (.expression (.ofOperator o) [p, f] c) = restriction w (.ofOperator o) [p, f] [node w p, node w f] c := by
  cases o <;> first | rfl | exact ho.elim

/-- The members of an expression are its operands and the members of its operands. -/
theorem mem_members {w : World} {d : Rank × Draw Node} : ∀ {ts : List Term}, d ∈ members w ts →
    ∃ t, (t ∈ ts ∨ ∃ ms, .set true ms ∈ ts ∧ t ∈ ms) ∧ d = (rank w t, node w t)
  | [], h => nomatch h
  | t :: ts, h => by
    have later : d ∈ members w ts → ∃ u, (u ∈ t :: ts ∨ ∃ ms, .set true ms ∈ t :: ts ∧ u ∈ ms) ∧
        d = (rank w u, node w u) := by
      intro h
      obtain ⟨u, hu, hd⟩ := mem_members h
      exact ⟨u, hu.imp (List.mem_cons_of_mem _) fun ⟨ms, hms, hu⟩ => ⟨ms, List.mem_cons_of_mem _ hms, hu⟩, hd⟩
    unfold members at h
    split at h
    case h_1 => cases h
    case h_2 ms us heq =>
      obtain ⟨rfl, rfl⟩ := List.cons.inj heq
      rw [ranked_eq] at h
      rcases List.mem_append.mp h with h | h
      · obtain ⟨u, hu, rfl⟩ := List.mem_map.mp h
        exact ⟨u, .inr ⟨ms, List.mem_cons_self, hu⟩, rfl⟩
      · exact later h
    case h_3 u us _ heq =>
      obtain ⟨rfl, rfl⟩ := List.cons.inj heq
      rcases List.mem_cons.mp h with rfl | h
      · exact ⟨t, .inl List.mem_cons_self, rfl⟩
      · exact later h

/-- **Induction along the drawing of nodes**: of an expression only its operands are drawn, and the members of those
that are fixed sets. What is neither an entity nor an expression is refused. -/
theorem node_induction {P : Term → Prop} (entity : ∀ m e, P (.entity m e))
    (expression : ∀ o ts c, (∀ t, (t ∈ ts ∨ ∃ ms, .set true ms ∈ ts ∧ t ∈ ms) → P t) → P (.expression o ts c))
    (other : ∀ t, (∀ v, node v t = throw (.rejected (.notDrawable (t.inspect v.names)))) → P t) (t : Term) : P t := by
  cases t
  case entity m e => exact entity m e
  case expression o ts c =>
    refine expression o ts c fun t ht => ?_
    rcases ht with ht | ⟨ms, hms, ht⟩
    · exact node_induction entity expression other t
    · exact node_induction entity expression other t
  all_goals exact other _ fun _ => rfl
termination_by sizeOf t
decreasing_by
  all_goals simp_wf
  · have := List.sizeOf_lt_of_mem ht
    omega
  · have := List.sizeOf_lt_of_mem ht
    have := List.sizeOf_lt_of_mem hms
    simp at this
    omega

/-- What the node of a term is: the IRI of an entity, and a blank node for anything else. -/
inductive IsNodeOf : Term → Node → Prop
  | entity (m : Nat) (e : Entity) : IsNodeOf (.entity m e) (.iri e.iri)
  | other {t : Term} (id : Nat) (h : t.isEntity = false) : IsNodeOf t (.blank id)

theorem predicateOf_adds (operator : Term) : Adds E (predicateOf w operator) fun _ => True := by
  unfold predicateOf
  split
  · exact .pure trivial
  · exact .throw

theorem groupOf_adds (predicate : String) {members : List (Rank × Draw Node)}
    (h : ∀ d ∈ members, Adds Triple.IsInner d.2 fun _ => True) :
    Adds Triple.IsInner (groupOf predicate members) fun n => ∃ id, n = .blank id := by
  refine .bind .fresh fun node hnode => ?_
  obtain ⟨id, rfl⟩ := hnode
  refine .bind (.emit ⟨id, rfl⟩) fun _ _ => .bind (.list (fun _ ht => ht) ?_) fun _ _ => ?_
  · intro d hd
    obtain ⟨r, hr, rfl⟩ := List.mem_map.mp hd
    exact h r ((List.mergeSort_perm members _).mem_iff.mp hr)
  · exact .bind (.emit ⟨id, rfl⟩) fun _ _ => .pure ⟨id, rfl⟩

theorem complement_adds {drawings : List (Draw Node)}
    (h : ∀ d ∈ drawings, Adds Triple.IsInner d fun _ => True) :
    Adds Triple.IsInner (complement drawings) fun n => ∃ id, n = .blank id := by
  refine .bind .fresh fun node hnode => ?_
  obtain ⟨id, rfl⟩ := hnode
  refine .bind (.emit ⟨id, rfl⟩) fun _ _ => ?_
  split
  · exact .throw
  · exact .bind (h _ List.mem_cons_self) fun _ _ => .bind (.emit ⟨id, rfl⟩) fun _ _ => .pure ⟨id, rfl⟩

theorem restriction_adds (operator : Term) (operands : List Term) {drawings : List (Draw Node)} (cardinality : Term)
    (h : ∀ d ∈ drawings, Adds Triple.IsInner d fun _ => True) :
    Adds Triple.IsInner (restriction w operator operands drawings cardinality) fun n => ∃ id, n = .blank id := by
  refine .bind .fresh fun node hnode => ?_
  obtain ⟨id, rfl⟩ := hnode
  split
  next property _ _ filler =>
    have hfiller : Adds Triple.IsInner filler fun _ => True := h _ (List.mem_cons_of_mem _ List.mem_cons_self)
    refine .bind (.emit ⟨id, rfl⟩) fun _ _ => .bind (iriOf_adds w property).any fun _ _ => ?_
    refine .bind (.emit ⟨id, rfl⟩) fun _ _ => .bind (predicateOf_adds w operator) fun _ _ => ?_
    have done : Adds Triple.IsInner (pure (.blank id) : Draw Node) fun n => ∃ id, n = .blank id := .pure ⟨id, rfl⟩
    dsimp only
    split
    · exact .bind hfiller fun _ _ => .bind (.emit ⟨id, rfl⟩) fun _ _ => done
    · exact .bind (.emit ⟨id, rfl⟩) fun _ _ => .bind hfiller fun _ _ => .bind (.emit ⟨id, rfl⟩) fun _ _ => done
  · exact .throw

/-- **The node of a term**: drawing it describes nothing but blank nodes. -/
theorem node_adds (t : Term) : Adds Triple.IsInner (node w t) (IsNodeOf t) := by
  induction t using node_induction with
  | entity m e => exact .pure (.entity m e)
  | expression o ts c ih =>
    have blank : ∀ n, (∃ id, n = .blank id) → IsNodeOf (.expression o ts c) n := by
      rintro _ ⟨id, rfl⟩
      exact .other id rfl
    have hnodes : ∀ d ∈ nodes w ts, Adds Triple.IsInner d fun _ => True := by
      intro d hd
      rw [nodes_eq] at hd
      obtain ⟨t, ht, rfl⟩ := List.mem_map.mp hd
      exact (ih t (.inl ht)).any
    have hmembers : ∀ d ∈ members w ts, Adds Triple.IsInner d.2 fun _ => True := by
      intro d hd
      obtain ⟨t, ht, rfl⟩ := mem_members hd
      exact (ih t ht).any
    rw [node]
    split
    · exact (groupOf_adds _ hmembers).mono (fun _ h => h) blank
    · split
      · exact (complement_adds hnodes).mono (fun _ h => h) blank
      · exact (restriction_adds w o ts c hnodes).mono (fun _ h => h) blank
  | other t h =>
    rw [h w]
    exact .throw

/-! ## Axioms -/

variable {predicate type : String} {ts : List Term}

/-- A drawing of nodes describes blank nodes, which is of any form that covers these. -/
theorem node_adds_of (hinner : ∀ t, t.IsInner → E t) (t : Term) : Adds E (node w t) (IsNodeOf t) :=
  (node_adds w t).mono hinner fun _ h => h

theorem chain_adds (hinner : ∀ t, t.IsInner → E t) (hE : ∀ s o, E ⟨s, predicate, o⟩) :
    ∀ ts : List Term, Adds E (chain w predicate ts) fun _ => True
  | [] => .pure trivial
  | [_] => .pure trivial
  | s :: o :: rest =>
    .bind (node_adds_of w hinner s) fun _ _ => .bind (node_adds_of w hinner o) fun _ _ =>
      .bind (.emit (hE _ _)) fun _ _ => chain_adds hinner hE (o :: rest)

theorem pairwise_adds (hinner : ∀ t, t.IsInner → E t) (hE : ∀ s o, E ⟨s, predicate, o⟩) :
    Adds E (pairwise w predicate ts) fun _ => True := by
  unfold pairwise
  split
  · exact chain_adds w hinner hE _
  · exact chain_adds w hinner hE _

theorem membership_adds (hinner : ∀ t, t.IsInner → E t) : Adds E (membership w type ts) fun _ => True := by
  refine .bind .fresh fun node' hnode => ?_
  obtain ⟨id, rfl⟩ := hnode
  refine .bind (.emit (hinner _ ⟨id, rfl⟩)) fun _ _ => .bind (.list hinner ?_) fun _ _ => .emit (hinner _ ⟨id, rfl⟩)
  intro d hd
  obtain ⟨t, ht, rfl⟩ := List.mem_map.mp hd
  exact (node_adds_of w hinner t).any

theorem relate_adds {s o : Term} (hE : ∀ x y, iri? w s = some x → iri? w o = some y → E ⟨.iri x, predicate, .iri y⟩) :
    Adds E (relate w s predicate o) fun _ => True :=
  .bind (iriOf_adds w s) fun x hx => .bind (iriOf_adds w o) fun y hy => .emit (hE x y hx hy)

theorem typed_adds {t : Term} (hE : ∀ x, iri? w t = some x → E ⟨.iri x, Vocabulary.rdf "type", .iri type⟩) :
    Adds E (typed w t type) fun _ => True :=
  .bind (iriOf_adds w t) fun x hx => .emit (hE x hx)

/-! ## The forms of axioms -/

open Vocabulary

/-- The kinds of axioms that relate the members of a set pairwise, with the predicates along which they do. -/
def pairing : List (AxiomKind × String) :=
  [(.equivalentClasses, owl "equivalentClass"), (.inverseObjectProperties, owl "inverseOf"), (.sameIndividual, owl "sameAs")]

/-- The kinds of axioms that list the members of a set if there are not two of them, with the types of their nodes. -/
def memberships : List (AxiomKind × String) :=
  [(.disjointClasses, owl "AllDisjointClasses"), (.differentIndividuals, owl "AllDifferent")]

/-- The kinds of axioms that relate a property to a class, with their predicates. -/
def bounding : List (AxiomKind × String) :=
  [(.objectPropertyDomain, rdfs "domain"), (.objectPropertyRange, rdfs "range")]

/-- The kinds of axioms that give a property a type, with these types. -/
def characteristics : List (AxiomKind × String) :=
  [(.transitiveObjectProperty, owl "TransitiveProperty"), (.functionalObjectProperty, owl "FunctionalProperty"),
    (.inverseFunctionalObjectProperty, owl "InverseFunctionalProperty")]

/-- **The forms in which axioms are drawn**, one for each shape that the drawing of an axiom can have. What the mapping
does not cover is refused. -/
inductive Form : Axiom → Draw Unit → Prop
  | declaration (m : Nat) (e : Entity) :
    Form ⟨.declaration, [.entity m e]⟩ (emit (.iri e.iri) (rdf "type") (.iri (declarationType e.kind)))
  | subclass (sub super : Term) : Form ⟨.subclassOf, [sub, super]⟩ (do
      let s ← node w sub
      let o ← node w super
      emit s (rdfs "subClassOf") o)
  | pairwise {k : AxiomKind} {p : String} (h : (k, p) ∈ pairing) (f : Bool) (ts : List Term) :
    Form ⟨k, [.set f ts]⟩ (pairwise w p ts)
  | disjoint {f : Bool} {ts : List Term} {s o : Term} (h : ordered w ts = [s, o]) :
    Form ⟨.disjointClasses, [.set f ts]⟩ (do
      let n ← node w s
      let m ← node w o
      emit n (owl "disjointWith") m)
  | different {f : Bool} {ts : List Term} {s o : Term} (h : ordered w ts = [s, o]) :
    Form ⟨.differentIndividuals, [.set f ts]⟩ (relate w s (owl "differentFrom") o)
  | members {k : AxiomKind} {type : String} (h : (k, type) ∈ memberships) (f : Bool) (ts : List Term) :
    Form ⟨k, [.set f ts]⟩ (membership w type (ordered w ts))
  | union (owner : Term) (f : Bool) (ts : List Term) : Form ⟨.disjointUnion, [owner, .set f ts]⟩ (do
      let s ← iriOf w owner
      let head ← list ((ordered w ts).map (node w))
      emit (.iri s) (owl "disjointUnionOf") head)
  | bound {k : AxiomKind} {p : String} (h : (k, p) ∈ bounding) (q c : Term) : Form ⟨k, [q, c]⟩ (do
      let s ← iriOf w q
      let o ← node w c
      emit (.iri s) p o)
  | subproperty {k : AxiomKind} (h : k ∈ [.subObjectPropertyOf, .subAnnotationPropertyOf]) (sub super : Term) :
    Form ⟨k, [sub, super]⟩ (relate w sub (rdfs "subPropertyOf") super)
  | characteristic {k : AxiomKind} {type : String} (h : (k, type) ∈ characteristics) (q : Term) :
    Form ⟨k, [q]⟩ (typed w q type)
  | note (subject q : Term) (l : Literal) : Form ⟨.annotationAssertion, [subject, .note q l]⟩ (do
      let predicate ← iriOf w q
      let s ← subjectOf subject
      emit s predicate (.literal l))
  | membership (c i : Term) : Form ⟨.classAssertion, [c, i]⟩ (do
      let s ← iriOf w i
      let o ← node w c
      emit (.iri s) (rdf "type") o)
  | relation (q subject target : Term) : Form ⟨.objectPropertyAssertion, [q, subject, target]⟩ (do
      let s ← iriOf w subject
      let predicate ← iriOf w q
      let o ← iriOf w target
      emit (.iri s) predicate (.iri o))
  | denial (q subject target : Term) : Form ⟨.negativeObjectPropertyAssertion, [q, subject, target]⟩ (do
      let n ← fresh
      emit n (rdf "type") (.iri (owl "NegativePropertyAssertion"))
      let s ← iriOf w subject
      emit n (owl "sourceIndividual") (.iri s)
      let predicate ← iriOf w q
      emit n (owl "assertionProperty") (.iri predicate)
      let o ← iriOf w target
      emit n (owl "targetIndividual") (.iri o))
  | refused (a : Axiom) (e : Fault) : Form a (throw e)

theorem ofAxiom_form (a : Axiom) : Form w a (ofAxiom w a) := by
  obtain ⟨k, ts⟩ := a
  unfold ofAxiom
  dsimp only
  split
  case h_1 =>
    split
    · exact .declaration _ _
    · exact .refused _ _
  case h_2 => exact .subclass _ _
  case h_3 | h_8 | h_18 => exact .pairwise (by simp [pairing]) _ _
  case h_4 =>
    split
    next h => exact .disjoint h
    · exact .members (by simp [memberships]) _ _
  case h_5 => exact .union _ _ _
  case h_6 | h_7 => exact .bound (by simp [bounding]) _ _
  case h_9 | h_10 => exact .subproperty (by simp) _ _
  case h_11 | h_12 | h_13 => exact .characteristic (by simp [characteristics]) _
  case h_14 => exact .note _ _ _
  case h_15 => exact .membership _ _
  case h_16 => exact .relation _ _ _
  case h_17 => exact .denial _ _ _
  case h_19 =>
    split
    next h => exact .different h
    · exact .members (by simp [memberships]) _ _
  case h_20 => exact .refused _ _

end

end Draw

/-- The graph of an ontology is what its drawing makes of the empty graph. -/
theorem Graph.exists_drawn {w : World} {o : Ontology} {g : Graph} (h : ofOntology w o = .ok g) :
    ∃ u, Draw.ofOntology w o empty = .ok (u, g) := by
  unfold ofOntology at h
  rcases hr : (Draw.ofOntology w o).run empty with e | ⟨u, g'⟩
  · rw [hr] at h
    cases h
  · rw [hr] at h
    cases h
    exact ⟨u, hr⟩

end Authoring
