import Authoring.Proofs.Graph.Shape

/-!
# What accounts for the lists in a graph

Five predicates lead to lists. To find out about the lists of a graph it is enough to look at each of its drawings
once: a list is accounted for by what is said of new blank nodes when it is drawn, and later drawings leave that as it
is. One rule for each way of building a drawing leads from the terms to the axioms (`Draw.ofAxiom_accounts`) and to
the ontology (`Draw.ofOntology_accounts`). What is drawn of a single axiom can be told apart from what was drawn
before (`Graph.exists_axiom_drawn`).

**What carries the proof.** A graph `Extends` another if its further triples describe none of the blank nodes that
there were. This is less than drawings of terms grant, which say nothing at all of older nodes: axioms relate such
nodes to one another, but along no predicate by which anything is described (`Reading.describing`).

**What it does not establish.** That anything is drawn. The rules are about drawings that end.
-/

namespace Authoring

open Vocabulary Reading

/-- The predicates that lead to a list of members. -/
def Reading.listing : List String :=
  [owl "intersectionOf", owl "unionOf", owl "oneOf", owl "members", owl "disjointUnionOf"]

namespace Draw

open Authoring.Graph

variable {α β : Type} {L L' : List Triple → Triple → Prop} {k : Nat} {w : World}

/-- The node is an IRI or a literal, or a blank node with a number below this one. -/
def Numbered (hi : Nat) (n : Node) : Prop := ∀ id, n = .blank id → id < hi

theorem Numbered.mono {hi hi' : Nat} {n : Node} (h : Numbered hi n) (hhi : hi ≤ hi') : Numbered hi' n :=
  fun id hid => Nat.lt_of_lt_of_le (h id hid) hhi

/-- Whenever the drawing ends, in a graph with so many blank nodes, it has described new blank nodes only, and every
triple that leads to a list is accounted for by what is said of these. -/
def Accounts (L : List Triple → Triple → Prop) (k : Nat) (x : Draw α) (P : Nat → α → Prop) : Prop :=
  ∀ g a g', k ≤ g.next → g.Below → x g = .ok (a, g') → P g'.next a ∧ ∃ added, g.Extends added g' ∧
    ∀ ts, Settles ts added g.next g'.next → ∀ t ∈ added, t.predicate ∈ listing → L ts t

namespace Accounts

variable {P Q : Nat → α → Prop} {S : Nat → β → Prop} {x : Draw α}

theorem mono (h : Accounts L k x P) (hL : ∀ ts t, L ts t → L' ts t) (hP : ∀ i a, P i a → Q i a) :
    Accounts L' k x Q := by
  intro g a g' hk hg hrun
  obtain ⟨ha, added, hext, hlists⟩ := h g a g' hk hg hrun
  exact ⟨hP _ a ha, added, hext, fun ts hts t ht hp => hL ts t (hlists ts hts t ht hp)⟩

theorem pure {a : α} (h : ∀ i, k ≤ i → P i a) : Accounts L k (pure a : Draw α) P := by
  intro g b g' hk _ hrun
  cases hrun
  exact ⟨h _ hk, [], .refl g, fun _ _ => nofun⟩

theorem throw {e : Fault} : Accounts L k (throw e : Draw α) P := by
  intro g b g' _ _ hrun
  cases hrun

theorem bind {f : α → Draw β} (hx : Accounts L k x P) (hf : ∀ a i, k ≤ i → P i a → Accounts L i (f a) S) :
    Accounts L k (x >>= f) S := by
  intro g b g' hk hg hrun
  obtain ⟨a, g₁, h₁, h₂⟩ := bind_ok hrun
  obtain ⟨ha, added, hext, hlists⟩ := hx g a g₁ hk hg h₁
  obtain ⟨hb, more, hext', hlists'⟩ :=
    hf a g₁.next (Nat.le_trans hk hext.next) ha g₁ b g' (Nat.le_refl _) (hext.below hg) h₂
  refine ⟨hb, added ++ more, hext.trans hext', fun ts hts => List.forall_mem_append.mpr ⟨?_, ?_⟩⟩
  · exact hlists ts (hext'.settles_left hts)
  · exact hlists' ts (hext.settles_right hts)

theorem forM {γ : Type} {f : γ → Draw PUnit} {l : List γ} (h : ∀ c ∈ l, ∀ k, Accounts L k (f c) fun _ _ => True) :
    Accounts L k (l.forM f) fun _ _ => True := by
  induction l generalizing k with
  | nil => exact pure fun _ _ => trivial
  | cons c l ih => exact bind (h c List.mem_cons_self k) fun _ _ _ _ => ih fun d hd => h d (List.mem_cons_of_mem _ hd)

/-- A triple about something that was there, by which nothing is described. -/
theorem emit {s o : Node} {p : String} (hs : ∀ id, s = .blank id → id < k ∧ p ∉ describing)
    (hL : p ∈ listing → ∀ ts, L ts ⟨s, p, o⟩) : Accounts L k (emit s p o) fun _ _ => True := by
  intro g a g' hk _ hrun
  cases hrun
  obtain ⟨added, hext, hadded⟩ := g.exists_extends_add (u := ⟨s, p, o⟩)
    fun id hid => ⟨Nat.lt_of_lt_of_le (hs id hid).1 hk, (hs id hid).2⟩
  refine ⟨trivial, added, hext, fun ts _ t ht hp => ?_⟩
  obtain rfl := hadded t ht
  exact hL hp ts

/-- Along a predicate that neither describes nor leads to a list. -/
theorem relating {s o : Node} {p : String} (hs : Numbered k s) (hp : p ∉ describing) (hp' : p ∉ listing) :
    Accounts L k (Draw.emit s p o) fun _ _ => True :=
  emit (fun id hid => ⟨hs id hid, hp⟩) fun h => absurd h hp'

/-- About an IRI. -/
theorem naming {s p : String} {o : Node} (hp : p ∉ listing) : Accounts L k (Draw.emit (.iri s) p o) fun _ _ => True :=
  emit nofun fun h => absurd h hp

/-- What describes new nodes, and accounts for the lists in this. -/
theorem of_draws {R : List Triple → List Triple → Node → Prop} {d : Draw Node} (h : Draws R d)
    (hR : ∀ ts drawn n, R ts drawn n → ∀ t ∈ drawn, t.predicate ∈ listing → L ts t) : Accounts L k d Numbered := by
  intro g n g' _ hg hrun
  obtain ⟨hn, drawn, hgrows, hread⟩ := h g n g' hg hrun
  exact ⟨fun id hid => (hn id hid).2, drawn, hgrows.extends, fun ts hts => hR ts drawn n (hread ts hts)⟩

/-- What an IRI is said to lead to, if this is drawn before. -/
theorem of_draws_emit {R : List Triple → List Triple → Node → Prop} {d : Draw Node} {s p : String} (h : Draws R d)
    (hR : ∀ ts drawn n, R ts drawn n → ∀ t ∈ drawn, t.predicate ∈ listing → L ts t)
    (hL : ∀ ts drawn n, R ts drawn n → L ts ⟨.iri s, p, n⟩) :
    Accounts L k (d >>= fun n => Draw.emit (.iri s) p n) fun _ _ => True := by
  intro g u g' _ hg hrun
  obtain ⟨n, g₁, h₁, h₂⟩ := bind_ok hrun
  obtain ⟨-, drawn, hgrows, hread⟩ := h g n g₁ hg h₁
  cases h₂
  obtain ⟨added, hext, hadded⟩ := g₁.exists_extends_add (u := ⟨.iri s, p, n⟩) nofun
  refine ⟨trivial, drawn ++ added, hgrows.extends.trans hext, fun ts hts => List.forall_mem_append.mpr ⟨?_, ?_⟩⟩
  · exact hR ts drawn n (hread ts (hext.settles_left hts))
  · intro t ht _
    rw [hadded t ht]
    exact hL ts drawn n (hread ts (hext.settles_left hts))

theorem iriOf (t : Term) : Accounts L k (iriOf w t) fun _ s => iri? w t = some s := by
  unfold Draw.iriOf
  split
  · exact pure fun _ _ => rfl
  · exact pure fun _ _ => rfl
  · exact throw

/-- What is annotated is an IRI or a literal. -/
theorem subjectOf (t : Term) :
    Accounts L k (subjectOf t) fun _ s => subjectOf t = Pure.pure s ∧ ∀ id, s ≠ .blank id := by
  unfold Draw.subjectOf
  split
  · exact pure fun _ _ => ⟨rfl, nofun⟩
  · exact pure fun _ _ => ⟨rfl, nofun⟩
  · exact throw

end Accounts

end Draw

/-! ## Axioms -/

/-- A term stands in an axiom if it is an operand, or a member of an operand that is a set. -/
def Axiom.Holds (a : Axiom) (t : Term) : Prop := t ∈ a.operands ∨ ∃ f ts, .set f ts ∈ a.operands ∧ t ∈ ts

namespace Draw

variable {L : List Triple → Triple → Prop} {k : Nat} {w : World} {a : Axiom} {p : String} {ts : List Term}

/-- **The triple that an assertion is**: it relates two IRIs along a property, or annotates something with a literal. -/
inductive Asserts (w : World) : Axiom → Triple → Prop
  | relation {q subject target : Term} {s p o : String} (hs : iri? w subject = some s) (hp : iri? w q = some p)
    (ho : iri? w target = some o) : Asserts w ⟨.objectPropertyAssertion, [q, subject, target]⟩ ⟨.iri s, p, .iri o⟩
  | note {subject q : Term} {s : Node} {p : String} {l : Literal} (hs : subjectOf subject = pure s)
    (hp : iri? w q = some p) : Asserts w ⟨.annotationAssertion, [subject, .note q l]⟩ ⟨s, p, .literal l⟩

/-- Two nodes and a triple that relates them. -/
theorem link_accounts {s o : Term} (hp : p ∉ describing) (hp' : p ∉ listing)
    (hs : ∀ k, Accounts L k (node w s) Numbered) (ho : ∀ k, Accounts L k (node w o) Numbered) :
    Accounts L k (do let n ← node w s; let m ← node w o; emit n p m) fun _ _ => True :=
  .bind (hs k) fun _ i _ hn => .bind (ho i) fun _ _ hj _ => .relating (hn.mono hj) hp hp'

theorem chain_accounts (hp : p ∉ describing) (hp' : p ∉ listing) : ∀ {ts : List Term} {k : Nat},
    (∀ t ∈ ts, ∀ k, Accounts L k (node w t) Numbered) → Accounts L k (chain w p ts) fun _ _ => True
  | [], _, _ => .pure fun _ _ => trivial
  | [_], _, _ => .pure fun _ _ => trivial
  | s :: o :: rest, k, h => by
    refine .bind (h s List.mem_cons_self k) fun s' i _ hs => ?_
    refine .bind (h o (List.mem_cons_of_mem _ List.mem_cons_self) i) fun o' j hj _ => ?_
    refine .bind (.relating (hs.mono hj) hp hp') fun _ _ _ _ => ?_
    exact chain_accounts hp hp' fun t ht => h t (List.mem_cons_of_mem _ ht)

theorem mem_ordered {t : Term} : t ∈ ordered w ts ↔ t ∈ ts := (ordered_perm w ts).mem_iff

theorem pairwise_accounts (hp : p ∉ describing) (hp' : p ∉ listing)
    (h : ∀ t ∈ ts, ∀ k, Accounts L k (node w t) Numbered) : Accounts L k (pairwise w p ts) fun _ _ => True := by
  have hordered : ∀ t ∈ ordered w ts, ∀ k, Accounts L k (node w t) Numbered := fun t ht => h t (mem_ordered.mp ht)
  unfold pairwise
  split
  next t heq =>
    have ht := hordered t (heq ▸ List.mem_cons_self)
    exact chain_accounts hp hp' (List.forall_mem_cons.mpr ⟨ht, List.forall_mem_singleton.mpr ht⟩)
  · exact chain_accounts hp hp' hordered

theorem relate_accounts {s o : Term} (hp : p ∉ listing) : Accounts L k (relate w s p o) fun _ _ => True :=
  .bind (.iriOf s) fun _ _ _ _ => .bind (.iriOf o) fun _ _ _ _ => .naming hp

theorem typed_accounts {t : Term} {type : String} : Accounts L k (typed w t type) fun _ _ => True :=
  .bind (.iriOf t) fun _ _ _ _ => .naming (by decide)

/-- A new node and its type. -/
theorem typed_node_accounts (type : String) :
    Accounts L k (description [] (rdf "type") (pure (.iri type))) Numbered := by
  have hpure : Draws (fun _ drawn _ => drawn = []) (pure (.iri type)) := by
    intro g n g' _ hrun
    cases hrun
    exact ⟨nofun, [], .refl g, fun _ _ => rfl⟩
  refine .of_draws (description_draws [] (rdf "type") (by decide) hpure) ?_
  rintro ts _ n ⟨id, o, _, -, -, rfl, rfl⟩
  exact List.forall_mem_singleton.mpr fun hp => absurd hp (show rdf "type" ∉ listing by decide)

/-- What says that a relation does not hold. -/
theorem denial_accounts {q subject target : Term} :
    Accounts L k (ofAxiom w ⟨.negativeObjectPropertyAssertion, [q, subject, target]⟩) fun _ _ => True := by
  show Accounts L k (description [] (rdf "type") (pure (.iri (owl "NegativePropertyAssertion"))) >>= fun n => do
    let s ← iriOf w subject
    emit n (owl "sourceIndividual") (.iri s)
    let p ← iriOf w q
    emit n (owl "assertionProperty") (.iri p)
    let o ← iriOf w target
    emit n (owl "targetIndividual") (.iri o)) _
  refine .bind (typed_node_accounts _) fun n i _ hn => ?_
  have about : ∀ {p o j}, i ≤ j → p ∉ describing → p ∉ listing → Accounts L j (emit n p o) fun _ _ => True :=
    fun hj => .relating (hn.mono hj)
  refine .bind (.iriOf subject) fun s i₁ h₁ _ => .bind (about h₁ (by decide) (by decide)) fun _ i₂ h₂ _ => ?_
  refine .bind (.iriOf q) fun p i₃ h₃ _ => ?_
  refine .bind (about (by omega) (by decide) (by decide)) fun _ i₄ h₄ _ => ?_
  refine .bind (.iriOf target) fun o i₅ h₅ _ => ?_
  exact about (by omega) (by decide) (by decide)

/-- What is so of all triples of the members of a list, and of triples along first and rest, is so of all triples that
are drawn of the list. -/
theorem Listed.forall_mem {ι : Type} {R : ι → List Triple → List Triple → Node → Prop} {zs : List ι}
    {us drawn : List Triple} {head : Node} {ns : List Node} (h : Listed R zs us drawn head ns) {Q : Triple → Prop}
    (hQ : ∀ z ∈ zs, ∀ part n, R z us part n → ∀ u ∈ part, Q u)
    (hlinks : ∀ u, u.predicate = rdf "first" ∨ u.predicate = rdf "rest" → Q u) : ∀ u ∈ drawn, Q u := by
  obtain ⟨parts, links, rfl, hparts, -, hcells⟩ := h.parts
  refine List.forall_mem_append.mpr ⟨?_, fun u hu => hlinks u (hcells u hu)⟩
  clear hcells h
  induction hparts with
  | nil => nofun
  | cons hpart _ ih =>
    refine List.forall_mem_append.mpr ⟨hQ _ List.mem_cons_self _ _ hpart, ih fun z hz => ?_⟩
    exact hQ z (List.mem_cons_of_mem _ hz)

/-- The cells of a list lead to none. -/
theorem not_listing_of_cell {u : Triple} (h : u.predicate = rdf "first" ∨ u.predicate = rdf "rest") :
    u.predicate ∉ listing := by
  rcases h with h | h
  · exact h ▸ by decide
  · exact h ▸ by decide

section
variable {R : Term → List Triple → List Triple → Node → Prop}

/-- The lists of the members are all lists that are drawn of a list. -/
theorem Listed.accounted {us drawn : List Triple} {head : Node} {ns : List Node} (h : Listed R ts us drawn head ns)
    (hL : ∀ t ∈ ts, ∀ us drawn n, R t us drawn n → ∀ u ∈ drawn, u.predicate ∈ listing → L us u) :
    ∀ u ∈ drawn, u.predicate ∈ listing → L us u :=
  h.forall_mem (fun t ht part n => hL t ht us part n) fun _ hu hp => absurd hp (not_listing_of_cell hu)

/-- What lists the members of a set. -/
theorem membership_accounts {type : String} (hnode : ∀ t ∈ ts, Draws (R t) (node w t))
    (hL : ∀ t ∈ ts, ∀ us drawn n, R t us drawn n → ∀ u ∈ drawn, u.predicate ∈ listing → L us u)
    (hmembers : ∀ us drawn id head ns, Says us id [(rdf "type", .iri type), (owl "members", head)] →
      Listed R ts us drawn head ns → L us ⟨.blank id, owl "members", head⟩) :
    Accounts L k (membership w type ts) fun _ _ => True := by
  intro g u g' hk hg hrun
  refine ⟨trivial, (Accounts.of_draws (L := L) (description_draws [(rdf "type", .iri type)] (owl "members")
    (show [rdf "type", owl "members"].Nodup by decide) (list_draws hnode)) ?_ g _ g' hk hg (membership_ok hrun)).2⟩
  rintro us _ n ⟨id, head, inner, rfl, hown, rfl, ns, hlist⟩
  refine List.forall_mem_append.mpr ⟨List.forall_mem_append.mpr ⟨?_, hlist.accounted hL⟩, ?_⟩
  · exact List.forall_mem_singleton.mpr fun hp => absurd hp (show rdf "type" ∉ listing by decide)
  · exact List.forall_mem_singleton.mpr fun _ => hmembers us inner id head ns hown hlist

/-- **What accounts for the lists of an axiom**: for each term in it, what is drawn of the term; then the lists of the
axiom itself, of its members or of the parts of a disjoint union; and the triple that it asserts. -/
structure AccountsFor (w : World) (a : Axiom) (R : Term → List Triple → List Triple → Node → Prop)
    (L : List Triple → Triple → Prop) : Prop where
  node : ∀ t, a.Holds t → Draws (R t) (node w t)
  terms : ∀ t, a.Holds t → ∀ us drawn n, R t us drawn n → ∀ u ∈ drawn, u.predicate ∈ listing → L us u
  members : ∀ type f ts, a.operands = [.set f ts] →
    a.kind = .disjointClasses ∧ type = owl "AllDisjointClasses" ∨
      a.kind = .differentIndividuals ∧ type = owl "AllDifferent" →
    ∀ us drawn id head ns, Says us id [(rdf "type", .iri type), (owl "members", head)] →
      Listed R (ordered w ts) us drawn head ns → L us ⟨.blank id, owl "members", head⟩
  union : ∀ owner f ts s, a = ⟨.disjointUnion, [owner, .set f ts]⟩ → iri? w owner = some s →
    ∀ us drawn head ns, Listed R (ordered w ts) us drawn head ns → L us ⟨.iri s, owl "disjointUnionOf", head⟩
  asserts : ∀ u, Asserts w a u → ∀ us, L us u

/-- The lists of an axiom are accounted for by what accounts for them. -/
theorem ofAxiom_accounts (h : AccountsFor w a R L) (k : Nat) : Accounts L k (ofAxiom w a) fun _ _ => True := by
  have hnode : ∀ {t}, a.Holds t → ∀ k, Accounts L k (node w t) Numbered :=
    fun ht k => .of_draws (h.node _ ht) (h.terms _ ht)
  have hfirst : ∀ {t ts}, a.operands = t :: ts → a.Holds t := fun hts => .inl (hts ▸ List.mem_cons_self)
  have hsecond : ∀ {t u ts}, a.operands = t :: u :: ts → a.Holds u :=
    fun hts => .inl (hts ▸ List.mem_cons_of_mem _ List.mem_cons_self)
  have hmember : ∀ {f ts}, .set f ts ∈ a.operands → ∀ t ∈ ts, a.Holds t := fun hts t ht => .inr ⟨_, _, hts, ht⟩
  have hset : ∀ {f ts}, a.operands = [.set f ts] → ∀ t ∈ ts, a.Holds t := fun hts => hmember (hts ▸ List.mem_cons_self)
  have hform := ofAxiom_form w a
  generalize ofAxiom w a = d at hform ⊢
  cases hform with
  | declaration => exact .naming (by decide)
  | subclass => exact link_accounts (by decide) (by decide) (hnode (hfirst rfl)) (hnode (hsecond rfl))
  | pairwise hk =>
    have hp : ∀ q ∈ pairing, q.2 ∉ describing ∧ q.2 ∉ listing := by decide
    exact pairwise_accounts (hp _ hk).1 (hp _ hk).2 fun t ht => hnode (hset rfl t ht)
  | @disjoint f ts b c heq =>
    have hboth : ∀ t ∈ [b, c], Axiom.Holds ⟨.disjointClasses, [.set f ts]⟩ t := fun t ht => hset rfl t (mem_ordered.mp (heq ▸ ht))
    exact link_accounts (by decide) (by decide) (hnode (hboth b (by simp))) (hnode (hboth c (by simp)))
  | different => exact relate_accounts (by decide)
  | @members kind type hk f ts =>
    have hholds : ∀ t ∈ ordered w ts, Axiom.Holds ⟨kind, [.set f ts]⟩ t := fun t ht => hset rfl t (mem_ordered.mp ht)
    exact membership_accounts (fun t ht => h.node t (hholds t ht)) (fun t ht => h.terms t (hholds t ht))
      (h.members type f ts rfl (by simpa [memberships] using hk))
  | union owner f ts =>
    have hholds : ∀ t ∈ ordered w ts, Axiom.Holds ⟨.disjointUnion, [owner, .set f ts]⟩ t :=
      fun t ht => hmember (List.mem_cons_of_mem _ List.mem_cons_self) t (mem_ordered.mp ht)
    refine .bind (.iriOf owner) fun s i _ hs => .of_draws_emit (list_draws fun t ht => h.node t (hholds t ht)) ?_ ?_
    · rintro us drawn head ⟨ns, hlist⟩
      exact hlist.accounted fun t ht => h.terms t (hholds t ht)
    · rintro us drawn head ⟨ns, hlist⟩
      exact h.union owner f ts s rfl hs us drawn head ns hlist
  | bound hk =>
    have hp : ∀ q ∈ bounding, q.2 ∉ listing := by decide
    exact .bind (.iriOf _) fun _ i _ _ => .bind (hnode (hsecond rfl) i) fun _ _ _ _ => .naming (hp _ hk)
  | subproperty => exact relate_accounts (by decide)
  | characteristic => exact typed_accounts
  | note subject q l =>
    refine .bind (.iriOf q) fun p i _ hp => .bind (.subjectOf subject) fun s _ _ hs => ?_
    exact .emit (fun id hid => absurd hid (hs.2 id)) fun _ => h.asserts _ (.note hs.1 hp)
  | membership =>
    exact .bind (.iriOf _) fun _ i _ _ => .bind (hnode (hfirst rfl) i) fun _ _ _ _ => .naming (by decide)
  | relation q subject target =>
    refine .bind (.iriOf subject) fun s _ _ hs => .bind (.iriOf q) fun p _ _ hp => ?_
    refine .bind (.iriOf target) fun o _ _ ho => .emit (fun id hid => ?_) fun _ => h.asserts _ (.relation hs hp ho)
    cases hid
  | denial => exact denial_accounts
  | refused => exact .throw

end

/-- Whatever the axiom, what has been described before it is drawn is described no further. -/
theorem ofAxiom_extends (w : World) (a : Axiom) (k : Nat) :
    Accounts (fun _ _ => True) k (ofAxiom w a) fun _ _ => True :=
  ofAxiom_accounts (R := fun _ _ _ _ => True) {
    node := fun t _ => node_draws w t
    terms := fun _ _ _ _ _ _ _ _ _ => trivial
    members := fun _ _ _ _ _ _ _ _ _ _ _ _ => trivial
    union := fun _ _ _ _ _ _ _ _ _ _ _ => trivial
    asserts := fun _ _ _ => trivial } k

/-- **An ontology**: its lists are those of its axioms, if its annotations are accounted for. -/
theorem ofOntology_accounts {o : Ontology}
    (hnotes : ∀ n ∈ o.annotations, ∀ p, iri? w n.property = some p → ∀ us, L us ⟨.iri o.iri, p, .literal n.value⟩)
    (haxioms : ∀ a ∈ o.axioms, ∀ k, Accounts L k (ofAxiom w a) fun _ _ => True) :
    Accounts L k (ofOntology w o) fun _ _ => True := by
  refine .bind (.naming (by decide)) fun _ _ _ _ => .bind (.forM fun _ _ _ => .naming (by decide)) fun _ _ _ _ => ?_
  refine .bind (.forM fun n hn k => ?_) fun _ _ _ _ => .forM haxioms
  exact .bind (.iriOf _) fun p _ _ hp => .emit nofun fun _ => hnotes n hn p hp

/-- Several drawings in a row: those before one of them, that one, and those after it. -/
theorem forM_append {γ : Type} {f : γ → Draw PUnit} {before after : List γ} {c : γ} {u : PUnit} {g g' : Graph}
    (h : (before ++ c :: after).forM f g = .ok (u, g')) : ∃ g₁ g₂, before.forM f g = .ok (⟨⟩, g₁) ∧
      f c g₁ = .ok (⟨⟩, g₂) ∧ (before ++ [c]).forM f g = .ok (⟨⟩, g₂) ∧ after.forM f g₂ = .ok (⟨⟩, g') := by
  induction before generalizing g with
  | nil =>
    obtain ⟨_, g₂, hc, hafter⟩ := bind_ok h
    refine ⟨g, g₂, rfl, hc, ?_, hafter⟩
    exact (run_bind (f c) (fun _ => pure PUnit.unit) g).trans (by rw [hc]; rfl)
  | cons b before ih =>
    obtain ⟨_, g₀, hb, h⟩ := bind_ok h
    obtain ⟨g₁, g₂, hbefore, hc, hthrough, hafter⟩ := ih h
    refine ⟨g₁, g₂, ?_, hc, ?_, hafter⟩
    · exact (run_bind (f b) (fun _ => before.forM f) g).trans (by rw [hb]; exact hbefore)
    · exact (run_bind (f b) (fun _ => (before ++ [c]).forM f) g).trans (by rw [hb]; exact hthrough)

end Draw

namespace Graph

variable {w : World} {o : Ontology} {a : Axiom} {before after : List Axiom} {g : Graph}

/-- **Where an axiom is drawn**: into the graph of the axioms before it, and what its drawing has described is described
no further by the axioms after it. -/
theorem exists_axiom_drawn (h : ofOntology w o = .ok g) (ho : o.axioms = before ++ a :: after) :
    ∃ g₁ g₂, ofOntology w { o with axioms := before } = .ok g₁ ∧
      ofOntology w { o with axioms := before ++ [a] } = .ok g₂ ∧ g₁.Below ∧
      Draw.ofAxiom w a g₁ = .ok (⟨⟩, g₂) ∧ ∃ rest, g₂.Extends rest g := by
  obtain ⟨u, hrun⟩ := exists_drawn h
  obtain ⟨_, ga, hself, h₁⟩ := Draw.bind_ok hrun
  obtain ⟨_, gb, himports, h₂⟩ := Draw.bind_ok h₁
  obtain ⟨_, gc, hnotes, h₃⟩ := Draw.bind_ok h₂
  rw [ho] at h₃
  obtain ⟨g₁, g₂, hbefore, ha, hthrough, hafter⟩ := Draw.forM_append h₃
  -- The graph of any axioms is that of the ontology itself with the axioms drawn into it.
  have hdrawn : ∀ {axioms : List Axiom} {g' : Graph}, axioms.forM (Draw.ofAxiom w) gc = .ok (⟨⟩, g') →
      Draw.ofOntology w { o with axioms } empty = .ok (⟨⟩, g') := by
    intro axioms g' hrest
    rw [Draw.ofOntology, Draw.run_bind, hself]
    dsimp only
    rw [Draw.run_bind, himports]
    dsimp only
    rw [Draw.run_bind, hnotes]
    exact hrest
  have hgraph : ∀ {axioms : List Axiom} {g' : Graph}, axioms.forM (Draw.ofAxiom w) gc = .ok (⟨⟩, g') →
      ofOntology w { o with axioms } = .ok g' :=
    fun hrest => congrArg (Functor.map Prod.snd) (hdrawn hrest)
  have hextends : Draw.Accounts (fun _ _ => True) 0 (after.forM (Draw.ofAxiom w)) fun _ _ => True :=
    .forM fun a _ k => Draw.ofAxiom_extends w a k
  have hwhole : Draw.Accounts (fun _ _ => True) 0 (Draw.ofOntology w { o with axioms := before }) fun _ _ => True :=
    Draw.ofOntology_accounts (fun _ _ _ _ _ => trivial) fun a _ k => Draw.ofAxiom_extends w a k
  obtain ⟨-, _, hext₁, -⟩ := hwhole empty _ g₁ (Nat.le_refl 0) nofun (hdrawn hbefore)
  have hbelow : g₁.Below := hext₁.below nofun
  obtain ⟨-, _, hext₂, -⟩ := Draw.ofAxiom_extends w a 0 g₁ _ g₂ (Nat.zero_le _) hbelow ha
  obtain ⟨-, rest, hext₃, -⟩ := hextends g₂ _ g (Nat.zero_le _) (hext₂.below hbelow) hafter
  exact ⟨g₁, g₂, hgraph hbefore, hgraph hthrough, hbelow, ha, rest, hext₃⟩

end Graph

end Authoring
