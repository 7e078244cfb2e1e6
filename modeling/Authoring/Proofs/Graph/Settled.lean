import Authoring.Proofs.Graph.Rendering

/-!
# Drawing the same in different worlds

What is drawn depends on the world: on the IRIs of the ontologies that occur in axioms, and on how terms are displayed,
by which the members of sets are put in order. Whether it is drawn does not. Of the drawings of a term or of an axiom in
different worlds either all end or all fail (`Draw.node_settled`, `Draw.ofAxiom_settled`). So an ontology that has been
drawn in one world is drawn in any other, and with it whatever has none but its axioms and annotations
(`Graph.ofOntology_ok`).

**What carries the proof.** `Draw.Settled x` says of drawings `x i` that all end or all fail. There is one rule for each
way of building a drawing. The members of a set may be drawn in another order for each `i`: they all end if each member
is always drawn, and all fail if one member never is.
-/

namespace Authoring

namespace Draw

variable {α β : Type} {ι : Type} {w : World}

namespace Stuck

theorem mapM_id {ds : List (Draw α)} {d : Draw α} (hd : d ∈ ds) (h : Stuck d) : Stuck (ds.mapM id) := by
  induction ds with
  | nil => cases hd
  | cons c ds ih =>
    rw [List.mapM_cons]
    rcases List.mem_cons.mp hd with rfl | hd
    · exact .first h
    · exact .second fun _ => .first (ih hd)

theorem list {ds : List (Draw Node)} {d : Draw Node} (hd : d ∈ ds) (h : Stuck d) : Stuck (list ds) :=
  .second fun _ => .first (mapM_id hd h)

/-- Of two terms one is not drawn. -/
theorem either {f : Term → Draw α} {k : α → α → Draw β} {t s o : Term} (h : Stuck (f t)) (ht : t ∈ [s, o]) :
    Stuck (do let a ← f s; let b ← f o; k a b) := by
  rcases List.mem_cons.mp ht with rfl | ht
  · exact .first h
  · exact .second fun _ => .first (List.mem_singleton.mp ht ▸ h)

variable {t : Term} {ts : List Term}

/-- Of the members of a chain one is not drawn. -/
theorem chain {predicate : String} (h : Stuck (node w t)) : ∀ {s o : Term} {ts : List Term}, t ∈ s :: o :: ts →
    Stuck (chain w predicate (s :: o :: ts))
  | _, _, [], ht => .either h ht
  | s, o, u :: ts, ht => by
    rcases List.mem_cons.mp ht with rfl | ht
    · exact .first h
    · exact .second fun _ => .second fun _ => .second fun _ => chain h ht

theorem pairwise {predicate : String} (h : Stuck (node w t)) (ht : t ∈ ts) : Stuck (pairwise w predicate ts) := by
  have hordered : t ∈ ordered w ts := (ordered_perm w ts).mem_iff.mpr ht
  unfold Draw.pairwise
  generalize ordered w ts = us at hordered ⊢
  match us, hordered with
  | [u], hordered => exact .first (List.mem_singleton.mp hordered ▸ h)
  | _ :: _ :: _, hordered => exact .chain h hordered

end Stuck

/-- Of some drawings either all end, into whatever graph they draw, or all fail. -/
def Settled (x : ι → Draw α) : Prop := (∀ i, Ends (x i)) ∨ ∀ i, Stuck (x i)

namespace Settled

variable {κ : Type} {x : ι → Draw α}

/-- Some of them, or the same ones more than once. -/
theorem along (h : Settled x) (r : κ → ι) : Settled fun k => x (r k) := h.imp (fun h k => h (r k)) fun h k => h (r k)

theorem throw {e : ι → Fault} : Settled fun i => (throw (e i) : Draw α) := .inr fun _ => .throw

theorem ends (h : ∀ i, Ends (x i)) : Settled x := .inl h

theorem bind {f : ι → α → Draw β} (hx : Settled x) (hf : Settled fun p : ι × α => f p.1 p.2) :
    Settled fun i => x i >>= f i := by
  rcases hx with hx | hx
  · rcases hf with hf | hf
    · exact .inl fun i => (hx i).bind fun a => hf (i, a)
    · exact .inr fun i => .second fun a => hf (i, a)
  · exact .inr fun i => .first (hx i)

/-- Of the drawings of several terms, each of which is settled, all end or one always fails. -/
theorem forall_or_exists {f : ι → Term → Draw α} {ts : List Term} (h : ∀ t ∈ ts, Settled fun i => f i t) :
    (∀ t ∈ ts, ∀ i, Ends (f i t)) ∨ ∃ t ∈ ts, ∀ i, Stuck (f i t) := by
  by_cases hs : ∃ t ∈ ts, ∀ i, Stuck (f i t)
  · exact .inr hs
  · exact .inl fun t ht => (h t ht).resolve_right fun hstuck => hs ⟨t, ht, hstuck⟩

/-- Lists of the drawings of the same terms, in any order. -/
theorem list {f : ι → Term → Draw Node} {ts : List Term} (us : ι → List Term) (hus : ∀ i, (us i).Perm ts)
    (h : ∀ t ∈ ts, Settled fun i => f i t) : Settled fun i => list ((us i).map (f i)) := by
  rcases forall_or_exists h with hends | ⟨t, ht, hstuck⟩
  · refine .inl fun i => .list fun d hd => ?_
    obtain ⟨t, ht, rfl⟩ := List.mem_map.mp hd
    exact hends t ((hus i).mem_iff.mp ht) i
  · exact .inr fun i => .list (List.mem_map_of_mem ((hus i).mem_iff.mpr ht)) (hstuck i)

end Settled

/-! ## Nodes -/

section
variable (v : ι → World)

theorem iriOf_settled (t : Term) : Settled fun i => iriOf (v i) t := by
  unfold iriOf
  split
  · exact .ends fun _ => .pure _
  · exact .ends fun _ => .pure _
  · exact .throw

theorem predicateOf_settled (operator : Term) : Settled fun i => predicateOf (v i) operator := by
  unfold predicateOf
  split
  · exact .ends fun _ => .pure _
  · exact .throw

/-- The terms that are drawn as members of an expression: its operands, and the members of its operands. -/
def drawn : List Term → List Term
  | [] => []
  | .set true ms :: ts => ms ++ drawn ts
  | t :: ts => t :: drawn ts

theorem members_eq (w : World) (ts : List Term) : members w ts = (drawn ts).map fun t => (rank w t, node w t) := by
  fun_induction drawn ts with
  | case1 => rfl
  | case2 ms ts ih => rw [members, ranked_eq, ih, List.map_append]
  | case3 t ts ht ih =>
    rw [members, ih, List.map_cons]
    exact ht

theorem mem_drawn {t : Term} {ts : List Term} (h : t ∈ drawn ts) : t ∈ ts ∨ ∃ ms, .set true ms ∈ ts ∧ t ∈ ms := by
  fun_induction drawn ts with
  | case1 => cases h
  | case2 ms ts ih =>
    rcases List.mem_append.mp h with h | h
    · exact .inr ⟨ms, List.mem_cons_self, h⟩
    · exact (ih h).imp (List.mem_cons_of_mem _) fun ⟨us, hus, ht⟩ => ⟨us, List.mem_cons_of_mem _ hus, ht⟩
  | case3 u ts hu ih =>
    rcases List.mem_cons.mp h with rfl | h
    · exact .inl List.mem_cons_self
    · exact (ih h).imp (List.mem_cons_of_mem _) fun ⟨us, hus, ht⟩ => ⟨us, List.mem_cons_of_mem _ hus, ht⟩

theorem groupOf_settled (predicate : String) {ts : List Term} (h : ∀ t ∈ drawn ts, Settled fun i => node (v i) t) :
    Settled fun i => groupOf predicate (members (v i) ts) := by
  refine .bind (.ends fun _ => .fresh) (.bind (.ends fun _ => .emit _ _ _) (.bind ?_ ?_))
  · simp only [members_eq, inOrder_map, ← ordered_eq]
    exact .list _ (fun p => ordered_perm (v p.1.1) (drawn ts)) fun t ht => (h t ht).along _
  · exact .bind (.ends fun _ => .emit _ _ _) (.ends fun _ => .pure _)

theorem complement_settled {ts : List Term} (h : ∀ t ∈ ts, Settled fun i => node (v i) t) :
    Settled fun i => complement (nodes (v i) ts) := by
  refine .bind (.ends fun _ => .fresh) (.bind (.ends fun _ => .emit _ _ _) ?_)
  cases ts with
  | nil => exact .throw
  | cons t ts =>
    refine .bind ((h t List.mem_cons_self).along _) ?_
    exact .bind (.ends fun _ => .emit _ _ _) (.ends fun _ => .pure _)

theorem restriction_settled (operator : Term) {ts : List Term} (cardinality : Term)
    (h : ∀ t ∈ ts, Settled fun i => node (v i) t) :
    Settled fun i => restriction (v i) operator ts (nodes (v i) ts) cardinality := by
  refine .bind (.ends fun _ => .fresh) ?_
  match ts with
  | [property, filler] =>
    have hfiller : Settled fun i => node (v i) filler := h filler (by simp)
    refine .bind (.ends fun _ => .emit _ _ _) (.bind (iriOf_settled _ _) ?_)
    refine .bind (.ends fun _ => .emit _ _ _) (.bind (predicateOf_settled _ _) ?_)
    dsimp only
    split
    · refine .bind (hfiller.along _) (.bind (.ends fun _ => .emit _ _ _) (.ends fun _ => .pure _))
    · refine .bind (.ends fun _ => .emit _ _ _) (.bind (hfiller.along _) ?_)
      exact .bind (.ends fun _ => .emit _ _ _) (.ends fun _ => .pure _)
  | [] => exact .throw
  | [_] => exact .throw
  | _ :: _ :: _ :: _ => exact .throw

end

/-- **A term is drawn in all worlds or in none.** -/
theorem node_settled (v : ι → World) (t : Term) : Settled fun i => node (v i) t := by
  induction t using node_induction with
  | entity m e => exact .ends fun _ => .pure _
  | expression o ts c ih =>
    have hnodes : ∀ t ∈ ts, Settled fun i => node (v i) t := fun t ht => ih t (.inl ht)
    have hdrawn : ∀ t ∈ drawn ts, Settled fun i => node (v i) t := fun t ht => ih t (mem_drawn ht)
    simp only [node]
    split
    · exact groupOf_settled v _ hdrawn
    · split
      · exact complement_settled v hnodes
      · exact restriction_settled v o c hnodes
  | other t h =>
    simp only [h]
    exact .throw

/-! ## Axioms -/

section
variable (v : ι → World)

/-- What is drawn of the members of a set, in their order. -/
theorem nodes_settled (ts : List Term) : Settled fun i => list ((ordered (v i) ts).map (node (v i))) :=
  .list _ (fun i => ordered_perm (v i) ts) fun t _ => node_settled v t

theorem membership_settled (type : String) (ts : List Term) :
    Settled fun i => membership (v i) type (ordered (v i) ts) :=
  .bind (.ends fun _ => .fresh) (.bind (.ends fun _ => .emit _ _ _)
    (.bind ((nodes_settled v ts).along _) (.ends fun _ => .emit _ _ _)))

theorem pairwise_settled (predicate : String) (ts : List Term) : Settled fun i => pairwise (v i) predicate ts := by
  rcases Settled.forall_or_exists fun t (_ : t ∈ ts) => node_settled v t with hends | ⟨t, ht, hstuck⟩
  · exact .inl fun i => pairwise_ends _ fun t ht => hends t ht i
  · exact .inr fun i => .pairwise (hstuck i) ht

theorem relate_settled (s : Term) (predicate : String) (o : Term) : Settled fun i => relate (v i) s predicate o :=
  .bind (iriOf_settled _ _) (.bind (iriOf_settled _ _) (.ends fun _ => .emit _ _ _))

theorem typed_settled (t : Term) (type : String) : Settled fun i => typed (v i) t type :=
  .bind (iriOf_settled _ _) (.ends fun _ => .emit _ _ _)

/-- What relates the members of a set if they are two, and else lists them. The two may be drawn in either order. -/
theorem pair_or_list_settled (type : String) {f : World → Term → Draw α} {k : α → α → Draw Unit} {ts : List Term}
    {d : ι → Draw Unit} (hf : ∀ t, Settled fun i => f (v i) t) (hk : ∀ a b, Ends (k a b))
    (hpair : ∀ i s o, ordered (v i) ts = [s, o] → d i = do let a ← f (v i) s; let b ← f (v i) o; k a b)
    (hlist : ∀ i, (∀ s o, ordered (v i) ts ≠ [s, o]) → d i = membership (v i) type (ordered (v i) ts)) :
    Settled d := by
  have hlength : ∀ i, (ordered (v i) ts).length = ts.length := fun i => (ordered_perm (v i) ts).length_eq
  by_cases htwo : ts.length = 2
  · have hexists : ∀ i, ∃ s o, ordered (v i) ts = [s, o] := fun i => List.length_eq_two.mp ((hlength i).trans htwo)
    rcases Settled.forall_or_exists fun t (_ : t ∈ ts) => hf t with hends | ⟨t, ht, hstuck⟩
    · refine .inl fun i => ?_
      obtain ⟨s, o, heq⟩ := hexists i
      have hordered : ∀ t ∈ [s, o], Ends (f (v i) t) := heq ▸ forall_mem_ordered fun t ht => hends t ht i
      rw [hpair i s o heq]
      exact .bind (hordered s (by simp)) fun _ => .bind (hordered o (by simp)) fun _ => hk _ _
    · refine .inr fun i => ?_
      obtain ⟨s, o, heq⟩ := hexists i
      have hordered : t ∈ [s, o] := heq ▸ (ordered_perm (v i) ts).mem_iff.mpr ht
      rw [hpair i s o heq]
      exact .either (hstuck i) hordered
  · have hd : d = fun i => membership (v i) type (ordered (v i) ts) := by
      refine funext fun i => hlist i fun s o heq => htwo ?_
      rw [← hlength i, heq]
      rfl
    rw [hd]
    exact membership_settled v type ts

/-- **An axiom is drawn in all worlds or in none.** -/
theorem ofAxiom_settled (a : Axiom) : Settled fun i => ofAxiom (v i) a := by
  have hemit : ∀ {κ : Type} {s : κ → Node} {p : κ → String} {o : κ → Node}, Settled fun i => emit (s i) (p i) (o i) :=
    .ends fun _ => .emit _ _ _
  obtain ⟨k, ts⟩ := a
  simp only [ofAxiom]
  split
  case h_1 =>
    split
    · exact hemit
    · exact .throw
  case h_2 => exact .bind (node_settled _ _) (.bind (node_settled _ _) hemit)
  -- What relates the members of a set pairwise.
  case h_3 | h_8 | h_18 => exact pairwise_settled v _ _
  case h_4 f ts =>
    refine pair_or_list_settled v (Vocabulary.owl "AllDisjointClasses") (f := node)
      (k := fun s o => emit s (Vocabulary.owl "disjointWith") o) (node_settled v) (fun _ _ => .emit _ _ _)
      (fun i s o heq => by rw [heq]) fun i hne => ?_
    split
    next heq => exact absurd heq (hne _ _)
    · rfl
  case h_5 owner _ ts => exact .bind (iriOf_settled _ _) (.bind ((nodes_settled v ts).along _) hemit)
  -- The domain and the range of a property, and the class of an individual.
  case h_6 | h_7 | h_15 => exact .bind (iriOf_settled _ _) (.bind (node_settled _ _) hemit)
  case h_9 | h_10 => exact relate_settled v _ _ _
  case h_11 | h_12 | h_13 => exact typed_settled v _ _
  case h_14 subject p l =>
    refine .bind (iriOf_settled _ _) (.bind ?_ hemit)
    unfold subjectOf
    split
    · exact .ends fun _ => .pure _
    · exact .ends fun _ => .pure _
    · exact .throw
  case h_16 => exact .bind (iriOf_settled _ _) (.bind (iriOf_settled _ _) (.bind (iriOf_settled _ _) hemit))
  case h_17 p subject target =>
    refine .bind (.ends fun _ => .fresh) (.bind hemit (.bind (iriOf_settled _ _) (.bind hemit ?_)))
    exact .bind (iriOf_settled _ _) (.bind hemit (.bind (iriOf_settled _ _) hemit))
  case h_19 f ts =>
    refine pair_or_list_settled v (Vocabulary.owl "AllDifferent") (f := iriOf)
      (k := fun s o => emit (.iri s) (Vocabulary.owl "differentFrom") (.iri o)) (iriOf_settled v)
      (fun _ _ => .emit _ _ _) (fun i s o heq => by rw [heq]; rfl) fun i hne => ?_
    split
    next heq => exact absurd heq (hne _ _)
    · rfl
  case h_20 => exact .throw

theorem ofNote_settled (subject : ι → String) (n : Note) : Settled fun i => ofNote (v i) (subject i) n :=
  .bind (iriOf_settled _ _) (.ends fun _ => .emit _ _ _)

end

end Draw

/-! ## Ontologies -/

namespace Graph

variable {w w' : World} {o o' : Ontology} {g : Graph}

/-- Where a graph has been drawn, no part of the drawing has failed. -/
theorem not_stuck (h : ofOntology w o = .ok g) :
    (∀ n ∈ o.annotations, ¬Draw.Stuck (Draw.ofNote w o.iri n)) ∧ ∀ a ∈ o.axioms, ¬Draw.Stuck (Draw.ofAxiom w a) := by
  have drawn : ¬Draw.Stuck (Draw.ofOntology w o) := by
    intro hstuck
    obtain ⟨u, hrun⟩ := exists_drawn h
    obtain ⟨e, he⟩ := hstuck empty
    cases he.symm.trans hrun
  constructor
  · exact fun n hn hstuck => drawn (.second fun _ => .second fun _ => .first (.forM hn hstuck))
  · exact fun a ha hstuck => drawn (.second fun _ => .second fun _ => .second fun _ => .forM ha hstuck)

/-- **What has been drawn in one world is drawn in any other**, and so is what has fewer axioms or annotations. -/
theorem ofOntology_ok (h : ofOntology w o = .ok g) (hannotations : o'.annotations ⊆ o.annotations)
    (haxioms : o'.axioms ⊆ o.axioms) : ∃ g', ofOntology w' o' = .ok g' := by
  obtain ⟨hnotes, hdrawn⟩ := not_stuck h
  have hends : Draw.Ends (Draw.ofOntology w' o') := by
    refine .bind (.emit _ _ _) fun _ => .bind (.forM fun _ _ => .emit _ _ _) fun _ => ?_
    refine .bind (.forM fun n hn => ?_) fun _ => .forM fun a ha => ?_
    · have hn := (Draw.ofNote_settled Prod.fst Prod.snd n).resolve_right
        fun hstuck => hnotes n (hannotations hn) (hstuck (w, o.iri))
      exact hn (w', o'.iri)
    · have ha := (Draw.ofAxiom_settled id a).resolve_right fun hstuck => hdrawn a (haxioms ha) (hstuck w)
      exact ha w'
  exact ok_of_ends hends

end Graph

end Authoring
