import Authoring.Graph.Listing
import Authoring.Proofs.Authored.Service
import Authoring.Proofs.Graph.Drawing

/-!
# What can be rendered

Drawing may fail, because axioms and annotations have operands of any sort and the mapping covers only some. For what is
authored there is just one way in which it can: the owner of a disjoint union has to have an IRI, and a class expression
has none. So after any program of the authoring layer that has begun with an empty ontology, the ontology is rendered if
and only if each disjoint union in it has an entity for its owner (`Service.Program.renders_iff`).

The condition is not empty. The owner is read as a reference to a class, and that may be an expression
(`Builder.addDisjointUnion`); so a program whose calls all succeed can store an axiom that is never rendered
(`Service.Program.renders_iff_complement`).

**What carries the proof.** `Draw.Ends x` says that `x` ends in every graph. A class is drawn by induction on its shape
(`Draw.node_ends`), and an authored axiom by its form (`Draw.ofAxiom_ends`, `Draw.ofAxiom_stuck`).

**What is assumed.** The arguments of the program are authored, and its producers and naming functions keep what is
authored (`Env.Authors`). Those that are programs of the layer themselves do (`Env.Authors.producing`).
-/

namespace Authoring

namespace Draw

open Term

variable {α β : Type} {w : World} {t : Term}

/-- The drawing ends, into whatever graph it draws. -/
def Ends (x : Draw α) : Prop := ∀ g, ∃ a g', x g = .ok (a, g')

/-- The drawing fails, into whatever graph it draws. -/
def Stuck (x : Draw α) : Prop := ∀ g, ∃ e, x g = .error e

namespace Ends

theorem pure (a : α) : Ends (pure a : Draw α) := fun g => ⟨a, g, rfl⟩

theorem fresh : Ends fresh := fun _ => ⟨_, _, rfl⟩

theorem emit (s : Node) (p : String) (o : Node) : Ends (emit s p o) := fun _ => ⟨_, _, rfl⟩

theorem bind {x : Draw α} {f : α → Draw β} (hx : Ends x) (hf : ∀ a, Ends (f a)) : Ends (x >>= f) := by
  intro g
  obtain ⟨a, g₁, hrun⟩ := hx g
  obtain ⟨b, g₂, hrun'⟩ := hf a g₁
  exact ⟨b, g₂, by rw [run_bind, hrun, ← hrun']⟩

theorem mapM_id {ds : List (Draw α)} (h : ∀ d ∈ ds, Ends d) : Ends (ds.mapM id) := by
  induction ds with
  | nil => exact pure []
  | cons d ds ih =>
    rw [List.mapM_cons]
    refine bind (h d List.mem_cons_self) fun a => bind (ih fun d hd => h d (List.mem_cons_of_mem _ hd)) fun as => ?_
    exact pure _

theorem forM {γ : Type} {f : γ → Draw PUnit} {l : List γ} (h : ∀ c ∈ l, Ends (f c)) : Ends (l.forM f) := by
  induction l with
  | nil => exact pure _
  | cons c l ih => exact bind (h c List.mem_cons_self) fun _ => ih fun d hd => h d (List.mem_cons_of_mem _ hd)

theorem cells : ∀ (head : Node) (ns : List Node), Ends (cells head ns)
  | _, [] => pure _
  | _, [_] => bind (emit _ _ _) fun _ => emit _ _ _
  | _, _ :: m :: rest =>
    bind (emit _ _ _) fun _ => bind fresh fun next => bind (emit _ _ _) fun _ => cells next (m :: rest)

theorem list {ds : List (Draw Node)} (h : ∀ d ∈ ds, Ends d) : Ends (list ds) :=
  bind fresh fun head => bind (mapM_id h) fun ns => bind (cells head ns) fun _ => pure head

end Ends

theorem Stuck.throw {e : Fault} : Stuck (throw e : Draw α) := fun _ => ⟨e, rfl⟩

theorem Stuck.first {x : Draw α} {f : α → Draw β} (h : Stuck x) : Stuck (x >>= f) := by
  intro g
  obtain ⟨e, h⟩ := h g
  exact ⟨e, by rw [run_bind, h]⟩

/-- A sequence fails if its second part does, whatever becomes of the first. -/
theorem Stuck.second {x : Draw α} {f : α → Draw β} (h : ∀ a, Stuck (f a)) : Stuck (x >>= f) := by
  intro g
  rw [run_bind]
  cases x g with
  | error e => exact ⟨e, rfl⟩
  | ok r => exact h r.1 r.2

/-- Several drawings fail if one of them does. -/
theorem Stuck.forM {γ : Type} {f : γ → Draw PUnit} {l : List γ} {c : γ} (hc : c ∈ l) (h : Stuck (f c)) :
    Stuck (l.forM f) := by
  induction l with
  | nil => cases hc
  | cons d l ih =>
    rcases List.mem_cons.mp hc with rfl | hc
    · exact .first h
    · exact .second fun _ => ih hc

/-! ## Nodes -/

theorem iriOf_ends (h : t.isEntity = true) : Ends (iriOf w t) := by
  cases t <;> cases h
  exact .pure _

theorem groupOf_ends (predicate : String) {members : List (Rank × Draw Node)} (h : ∀ d ∈ members, Ends d.2) :
    Ends (groupOf predicate members) := by
  refine .bind .fresh fun node => .bind (.emit _ _ _) fun _ => .bind (.list fun d hd => ?_) fun head => ?_
  · obtain ⟨r, hr, rfl⟩ := List.mem_map.mp hd
    exact h r ((List.mergeSort_perm members _).mem_iff.mp hr)
  · exact .bind (.emit _ _ _) fun _ => .pure _

/-- The members of the one set among the operands. -/
theorem members_ends {ms : List Term} (h : ∀ t ∈ ms, Ends (node w t)) : ∀ d ∈ members w [.set true ms], Ends d.2 := by
  intro d hd
  rw [members_set, ranked_eq] at hd
  obtain ⟨t, ht, rfl⟩ := List.mem_map.mp hd
  exact h t ht

theorem restriction_ends {o : Operator} {p f c : Term} {d : Draw Node} (ho : Restricts o c) (hp : p.isEntity = true)
    (d' : Draw Node) (hd : Ends d) : Ends (restriction w (.ofOperator o) [p, f] [d', d] c) := by
  have hpredicate : Ends (predicateOf w (.ofOperator o)) := by
    cases o <;> first | exact .pure _ | exact ho.elim
  refine .bind .fresh fun node => .bind (.emit _ _ _) fun _ => .bind (iriOf_ends hp) fun _ => ?_
  refine .bind (.emit _ _ _) fun _ => .bind hpredicate fun _ => ?_
  dsimp only
  split
  · exact .bind hd fun _ => .bind (.emit _ _ _) fun _ => .pure _
  · exact .bind (.emit _ _ _) fun _ => .bind hd fun _ => .bind (.emit _ _ _) fun _ => .pure _

/-- **Every class is drawn**, whatever its depth. -/
theorem node_ends (h : IsClass t) : Ends (node w t) := by
  induction h with
  | named => exact .pure _
  | @restriction o p f c ho hp hf ih =>
    rw [node_restriction w ho]
    exact restriction_ends ho hp.isEntity _ ih
  | complement hf ih =>
    exact .bind .fresh fun _ => .bind (.emit _ _ _) fun _ => .bind ih fun _ => .bind (.emit _ _ _) fun _ => .pure _
  | combination ho hne hd hms ih =>
    rcases ho with rfl | rfl
    · exact groupOf_ends _ (members_ends ih)
    · exact groupOf_ends _ (members_ends ih)
  | enumeration hne hd hms =>
    refine groupOf_ends _ (members_ends fun t ht => ?_)
    obtain ⟨m, iri, rfl⟩ := hms t ht
    exact .pure _

theorem hasNode_ends (h : t.HasNode) : Ends (node w t) := by
  rcases h with h | h
  · cases t <;> cases h
    exact .pure _
  · exact node_ends h

/-! ## Axioms -/

section
variable {ts : List Term} {P : Term → Prop}

theorem forall_mem_ordered (h : ∀ t ∈ ts, P t) : ∀ t ∈ ordered w ts, P t :=
  fun t ht => h t ((ordered_perm w ts).mem_iff.mp ht)

theorem chain_ends (predicate : String) : ∀ {ts : List Term}, (∀ t ∈ ts, Ends (node w t)) →
    Ends (chain w predicate ts)
  | [], _ => .pure _
  | [_], _ => .pure _
  | s :: o :: rest, h => by
    obtain ⟨hs, hrest⟩ := List.forall_mem_cons.mp h
    refine .bind hs fun _ => .bind (hrest o List.mem_cons_self) fun _ => ?_
    exact .bind (.emit _ _ _) fun _ => chain_ends predicate hrest

theorem pairwise_ends (predicate : String) (h : ∀ t ∈ ts, Ends (node w t)) : Ends (pairwise w predicate ts) := by
  have hordered := forall_mem_ordered (w := w) h
  unfold pairwise
  split
  next t heq =>
    have ht : Ends (node w t) := hordered t (heq ▸ List.mem_cons_self)
    exact chain_ends _ (List.forall_mem_cons.mpr ⟨ht, List.forall_mem_singleton.mpr ht⟩)
  · exact chain_ends _ hordered

theorem nodes_end (h : ∀ t ∈ ts, Ends (node w t)) : ∀ d ∈ ts.map (node w), Ends d := by
  intro d hd
  obtain ⟨t, ht, rfl⟩ := List.mem_map.mp hd
  exact h t ht

theorem membership_ends (type : String) (h : ∀ t ∈ ts, Ends (node w t)) : Ends (membership w type ts) :=
  .bind .fresh fun _ => .bind (.emit _ _ _) fun _ => .bind (.list (nodes_end h)) fun _ => .emit _ _ _

theorem relate_ends (predicate : String) {s o : Term} (hs : s.isEntity = true) (ho : o.isEntity = true) :
    Ends (relate w s predicate o) :=
  .bind (iriOf_ends hs) fun _ => .bind (iriOf_ends ho) fun _ => .emit _ _ _

theorem typed_ends (type : String) (h : t.isEntity = true) : Ends (typed w t type) :=
  .bind (iriOf_ends h) fun _ => .emit _ _ _

end

end Draw

/-- The axiom is no disjoint union, or one whose owner is an entity. -/
def Axiom.HasNamedOwner (a : Axiom) : Prop :=
  a.kind = .disjointUnion → a.operands.head?.any Term.isEntity = true

instance (a : Axiom) : Decidable a.HasNamedOwner := inferInstanceAs (Decidable (_ → _))

namespace Draw

variable {w : World} {a : Axiom}

/-- **An authored axiom is drawn**, if its owner is an entity wherever it is a disjoint union. -/
theorem ofAxiom_ends (h : a.IsAuthored) (howner : a.HasNamedOwner) : Ends (ofAxiom w a) := by
  -- What the members of a set have in common they have in the order in which they are drawn.
  have members : ∀ {P : Term → Prop} {ts : List Term}, (∀ t ∈ ts, P t) → ∀ t ∈ ordered w ts.eraseDups, P t :=
    fun h => forall_mem_ordered fun t ht => h t (Distinct.mem_of_mem_eraseDups ht)
  cases h with
  | @declaration t h =>
    cases t <;> cases h
    exact .emit _ _ _
  | subclassOf hs ht =>
    exact .bind (hasNode_ends (.inl hs)) fun _ => .bind (node_ends ht) fun _ => .emit _ _ _
  | @group k ts hk h =>
    have hset : ∀ t ∈ ts.eraseDups, Ends (node w t) :=
      fun t ht => hasNode_ends (h t (Distinct.mem_of_mem_eraseDups ht))
    simp only [List.mem_cons, List.not_mem_nil, or_false] at hk
    rcases hk with rfl | rfl | rfl | rfl
    · exact pairwise_ends _ hset
    · have hordered := members h
      dsimp only [ofAxiom, Axiom.group, Term.setOf]
      split
      next a b heq =>
        rw [heq] at hordered
        refine .bind (hasNode_ends (hordered a List.mem_cons_self)) fun _ => ?_
        refine .bind (hasNode_ends (hordered b (List.mem_cons_of_mem _ List.mem_cons_self))) fun _ => ?_
        exact .emit _ _ _
      · exact membership_ends _ fun t ht => hasNode_ends (hordered t ht)
    · exact pairwise_ends _ hset
    · exact pairwise_ends _ hset
  | @differentIndividuals ts h =>
    have hordered := members h
    dsimp only [ofAxiom, Axiom.differentIndividuals, Axiom.group, Term.setOf]
    split
    next a b heq =>
      rw [heq] at hordered
      exact relate_ends _ (hordered a List.mem_cons_self) (hordered b (List.mem_cons_of_mem _ List.mem_cons_self))
    · exact membership_ends _ fun t ht => hasNode_ends (.inl (hordered t ht))
  | @disjointUnion c ts hc h =>
    have hnodes := nodes_end fun t ht => node_ends (w := w) (members h t ht)
    exact .bind (iriOf_ends (howner rfl)) fun _ => .bind (.list hnodes) fun _ => .emit _ _ _
  | ofProperty hk hp hc =>
    simp only [List.mem_cons, List.not_mem_nil, or_false] at hk
    rcases hk with rfl | rfl
    · exact .bind (iriOf_ends hp) fun _ => .bind (node_ends hc) fun _ => .emit _ _ _
    · exact .bind (iriOf_ends hp) fun _ => .bind (node_ends hc) fun _ => .emit _ _ _
  | subproperty hk hp hq =>
    simp only [List.mem_cons, List.not_mem_nil, or_false] at hk
    rcases hk with rfl | rfl
    · exact relate_ends _ hp hq
    · exact relate_ends _ hp hq
  | characteristic c hp => cases c <;> exact typed_ends _ hp
  | annotationAssertion iri hp l => exact .bind (iriOf_ends hp) fun _ => .bind (.pure _) fun _ => .emit _ _ _
  | classAssertion hc hi => exact .bind (iriOf_ends hi) fun _ => .bind (node_ends hc) fun _ => .emit _ _ _
  | assertion hk hp hs ht =>
    simp only [List.mem_cons, List.not_mem_nil, or_false] at hk
    rcases hk with rfl | rfl
    · exact .bind (iriOf_ends hs) fun _ => .bind (iriOf_ends hp) fun _ => .bind (iriOf_ends ht) fun _ => .emit _ _ _
    · refine .bind .fresh fun _ => .bind (.emit _ _ _) fun _ => .bind (iriOf_ends hs) fun _ => ?_
      refine .bind (.emit _ _ _) fun _ => .bind (iriOf_ends hp) fun _ => .bind (.emit _ _ _) fun _ => ?_
      exact .bind (iriOf_ends ht) fun _ => .emit _ _ _

/-- **The disjoint union of a class expression is never drawn**: an expression has no IRI. -/
theorem ofAxiom_stuck (h : a.IsAuthored) (howner : ¬a.HasNamedOwner) : Stuck (ofAxiom w a) := by
  obtain ⟨hkind, hunnamed⟩ := Classical.not_imp.mp howner
  cases h
  case disjointUnion c ts hc _ =>
    cases hc
    case named => exact absurd rfl hunnamed
    all_goals exact .first .throw
  case group hk _ | ofProperty hk _ _ | subproperty hk _ _ | assertion hk _ _ _ =>
    dsimp only at hkind
    subst hkind
    exact absurd hk (by decide)
  case characteristic c p hp => cases c <;> cases hkind
  all_goals cases hkind

end Draw

/-! ## Ontologies -/

namespace Abbreviation

/-- A prefix without a space is always given away, if need be with a number. -/
theorem bind_ok (table : Table) {abbreviation : String} (h : ' ' ∉ abbreviation.toList) (space : String) :
    ∃ table', bind table abbreviation space = .ok table' := by
  unfold bind
  rw [if_neg (by simpa using h)]
  split
  · exact ⟨_, rfl⟩
  · dsimp only
    split
    · exact ⟨_, rfl⟩
    · split
      · exact ⟨_, rfl⟩
      · exact ⟨_, rfl⟩

end Abbreviation

namespace Graph

variable {w : World} {o : Ontology}

theorem abbreviations_ok (h : o.HasPlainPrefix) : ∃ table, abbreviations o = .ok table := by
  unfold abbreviations
  split
  · rcases h with h | ⟨s, h, hspace⟩
    · simp_all [Term.isTruthy]
    · rw [h]
      refine Abbreviation.bind_ok _ (fun hmem => hspace ?_) _
      rw [String.toList_ofList, List.mem_reverse] at hmem
      exact List.mem_reverse.mp ((List.dropWhile_sublist _).subset hmem)
  · exact ⟨_, rfl⟩

/-- A drawing that ends gives a graph. -/
theorem ok_of_ends (h : Draw.Ends (Draw.ofOntology w o)) : ∃ g, ofOntology w o = .ok g := by
  obtain ⟨_, g, hg⟩ := h empty
  exact ⟨g, congrArg (Functor.map Prod.snd) hg⟩

/-- Of authored axioms the graph is drawn, if the owners of disjoint unions are entities. -/
theorem ofOntology_ends (haxioms : ∀ a ∈ o.axioms, a.IsAuthored)
    (hannotations : ∀ n ∈ o.annotations, n.property.isEntity = true) (howner : ∀ a ∈ o.axioms, a.HasNamedOwner) :
    Draw.Ends (Draw.ofOntology w o) := by
  refine .bind (.emit _ _ _) fun _ => .bind (.forM fun _ _ => .emit _ _ _) fun _ => ?_
  refine .bind (.forM fun n hn => ?_) fun _ => .forM fun a ha => Draw.ofAxiom_ends (haxioms a ha) (howner a ha)
  exact .bind (Draw.iriOf_ends (hannotations n hn)) fun _ => .emit _ _ _

/-- **What is authored is rendered** if and only if each disjoint union has an entity for its owner. -/
theorem list_ok_iff (haxioms : ∀ a ∈ o.axioms, a.IsAuthored)
    (hannotations : ∀ n ∈ o.annotations, n.property.isEntity = true) (hplain : o.HasPlainPrefix) :
    (∃ l, list w o = .ok l) ↔ ∀ a ∈ o.axioms, a.HasNamedOwner := by
  obtain ⟨table, htable⟩ := abbreviations_ok hplain
  have hlist : list w o = (ofOntology w o).map
      fun g => ⟨g.triples.length, g.lines, Abbreviation.prefixOf table (o.iri ++ "#")⟩ := by
    rw [list, htable]
    show (ofOntology w o).bind _ = _
    cases ofOntology w o <;> rfl
  constructor
  · rintro ⟨l, hl⟩ a ha
    by_contra howner
    have hstuck : Draw.Stuck (Draw.ofOntology w o) :=
      .second fun _ => .second fun _ => .second fun _ => .forM ha (Draw.ofAxiom_stuck (haxioms a ha) howner)
    obtain ⟨e, he⟩ := hstuck empty
    have hgraph : ofOntology w o = .error e := congrArg (Functor.map Prod.snd) he
    rw [hlist, hgraph] at hl
    cases hl
  · intro howner
    obtain ⟨g, hgraph⟩ := ok_of_ends (w := w) (ofOntology_ends haxioms hannotations howner)
    exact ⟨_, by rw [hlist, hgraph]; rfl⟩

end Graph

/-! ## Programs -/

/-- A world in which an ontology is empty: it has no axioms, annotations along entities only, and a prefix without a
space or none. The windows hold entities only, and the naming functions call nothing outside the set. -/
structure World.Blank (S : Expr → Prop) (id : Nat) (w : World) : Prop where
  axioms : (w.ontology id).axioms = []
  annotations : ∀ n ∈ (w.ontology id).annotations, n.property.isEntity = true
  abbreviation : (w.ontology id).HasPlainPrefix
  windows : ∀ ts ∈ w.windows, ∀ t ∈ ts, t.isEntity = true
  naming : w.NamesWithin S

theorem World.Blank.isAuthored {S : Expr → Prop} {id : Nat} {w : World} (h : w.Blank S id) : w.IsAuthored S id :=
  ⟨h.axioms ▸ List.forall_mem_nil _, h.annotations, h.abbreviation, h.windows, h.naming⟩

namespace Service.Program

variable {S : Expr → Prop} {id : Nat} {env : Env} {w : World}

/-- **After a program of the authoring layer** that has begun with an empty ontology, and however it has ended, the
ontology is rendered if and only if each disjoint union in it has an entity for its owner. -/
theorem renders_iff {p : Program} (henv : env.Authors S id) (hw : w.Blank S id) (hp : p.IsAuthored S) :
    let w' := (p.run env w).2
    (∃ l, Graph.list w' (w'.ontology id) = .ok l) ↔ ∀ a ∈ (w'.ontology id).axioms, a.HasNamedOwner := by
  intro w'
  have hw' : w'.IsAuthored S id := (run_keeps hp env henv w hw.isAuthored).1
  exact Graph.list_ok_iff hw'.axioms hw'.annotations hw'.abbreviation

/-- A blank world, with one ontology that the store holds. -/
def blank : World :=
  { World.initial ⟨"en", "#"⟩ with
    ontologies := [⟨"o", .text "o:", [], [], []⟩]
    stores := [⟨[("o", 0)], [.forget]⟩] }

theorem blank_blank : blank.Blank S 0 where
  axioms := rfl
  annotations := nofun
  abbreviation := .inr ⟨"o:", rfl, by decide⟩
  windows := nofun
  naming := nofun

theorem plain_authors : Env.plain.Authors S id where
  context := nofun
  evaluated _ _ _ _ _ _ hw := ⟨hw, fun _ h => Except.ok.inj h ▸ trivial⟩

/-- The disjoint union of a class, whose parts are the classes that a group scope has collected and one more, which a
producer declares. -/
def grouping : Program :=
  let o : Term := .handle (.ontology 0)
  let a : Term := .entity 0 ⟨.cls, "a"⟩
  .within (.subclasses a (.bool true) (.bool true) o)
    (fun _ => .call (.declare [.text "b", .text "c"] o) .done)
    fun parts => .call (.union a [parts, .closure 0 0 .null .null] o) .done

/-- The program of the producer. -/
def declaring : Program :=
  .call (.build (.make .cls (.text "d") .null (.handle (.ontology 0)) [])) .done

theorem grouping_isAuthored : grouping.IsAuthored fun _ => True := by
  refine ⟨trivial, fun _ _ => ⟨?_, fun _ => id⟩, fun parts hparts => ⟨⟨trivial, ?_⟩, fun _ => id⟩⟩
  · exact List.forall_mem_cons.mpr ⟨trivial, List.forall_mem_singleton.mpr trivial⟩
  · exact List.forall_mem_cons.mpr ⟨hparts, List.forall_mem_singleton.mpr trivial⟩

theorem declaring_isAuthored : declaring.IsAuthored S := ⟨⟨trivial, trivial, nofun⟩, fun _ => id⟩

theorem renders_iff_grouping :
    let env := Env.plain.producing fun _ _ => declaring
    let w' := (grouping.run env blank).2
    (grouping.run env blank).1.isOk = true ∧ ∃ l, Graph.list w' (w'.ontology 0) = .ok l := by
  have hplain : Env.plain.Authors (fun _ => True) 0 := plain_authors
  have henv := hplain.producing fun _ _ _ => declaring_isAuthored
  refine ⟨by decide +kernel, (renders_iff henv blank_blank grouping_isAuthored).mpr ?_⟩
  decide +kernel

/-- The disjoint union of a complement. -/
def complement : Program :=
  let o : Term := .handle (.ontology 0)
  .call (.value (.not [.entity 0 ⟨.cls, "a"⟩])) fun owner =>
    .call (.union owner [.entity 0 ⟨.cls, "b"⟩, .entity 0 ⟨.cls, "c"⟩] o) .done

theorem complement_isAuthored : complement.IsAuthored S := by
  refine ⟨List.forall_mem_singleton.mpr trivial, fun owner howner => ⟨⟨howner, ?_⟩, fun _ => id⟩⟩
  exact List.forall_mem_cons.mpr ⟨trivial, List.forall_mem_singleton.mpr trivial⟩

/-- Both calls succeed, and what they have stored is not rendered. -/
theorem renders_iff_complement :
    let w' := (complement.run .plain blank).2
    complement.IsAuthored (fun _ => False) ∧ blank.Blank (fun _ => False) 0 ∧ Env.plain.Authors (fun _ => False) 0 ∧
      (complement.run .plain blank).1.isOk = true ∧ ∀ l, Graph.list w' (w'.ontology 0) ≠ .ok l := by
  intro w'
  have hw' : w'.IsAuthored (fun _ => False) 0 :=
    (run_keeps complement_isAuthored _ plain_authors _ blank_blank.isAuthored).1
  refine ⟨complement_isAuthored, blank_blank, plain_authors, by decide +kernel, fun l hl => ?_⟩
  have howners := (Graph.list_ok_iff hw'.axioms hw'.annotations hw'.abbreviation).mp ⟨l, hl⟩
  exact absurd howners (by decide +kernel)

end Service.Program

end Authoring
