import Authoring.Proofs.Hierarchy.Leads
import Authoring.Proofs.Reference
import Mathlib.Data.List.Perm.Subperm

/-!
# The closure of a hierarchy

The worklist behind ancestors and descendants ends and finds exactly what is reached by one or more steps of
`Ontology.Leads`, whatever cycles the hierarchy has (`Hierarchy.closure_reaches`).

**What carries the proof.** `Explored` is what holds whenever a member is taken from the worklist: what has
been visited and what is still to be expanded has been reached, no visited term finds an earlier one, and every
step from the start or from a visited term finds something that is visited or waiting. Passing over a visited
member (`Explored.skip`) and visiting a new one (`Explored.visit`) keep it, and when nothing waits it says that
the visited terms are closed under steps.

**Why it ends.** Every member is an operand of an axiom in the place of what is led to, and no two visited
members are equal, so fewer are visited than there are axioms as long as a new one waits
(`Explored.length_lt`). The bound on expansions is therefore never used up.

**What it does not establish.** Equality of expressions that are not built need not compose. What is reached
and is such an expression is linked to a member, but need not be found by looking for it.
-/

namespace Authoring

open Relation (TransGen)

/-- Whether a term can stand in a hierarchy: an entity, or an expression that can be compared. -/
def Term.IsNode (t : Term) : Prop := (t.isEntity = true ∨ t.isExpression = true) ∧ t.isStable = true

namespace Ontology

variable {o : Ontology} {d : Direction} {start s t u : Term} {visited rest : List Term}

/-- The operands of the hierarchy's axioms are entities and class expressions. -/
def IsHierarchy (o : Ontology) : Prop :=
  ∀ a ∈ o.axioms, a.kind = .subclassOf ∨ a.kind = .subObjectPropertyOf → ∀ t ∈ a.operands, t.IsNode

/-- All that axioms with two operands lead to. -/
def ends (o : Ontology) (d : Direction) : List Term := o.axioms.filterMap fun a =>
  match a.operands with
  | [x, y] => some (match d with | .up => y | .down => x)
  | _ => none

theorem length_ends_le (o : Ontology) (d : Direction) : (o.ends d).length ≤ o.axioms.length :=
  List.length_filterMap_le _ _

theorem mem_ends_of_mem_step (h : t ∈ o.step d s) : t ∈ o.ends d := by
  obtain ⟨m, e, k, n, rfl, hk, ha⟩ := mem_step h
  refine List.mem_filterMap.mpr ⟨_, ha, ?_⟩
  cases d <;> rfl

/-- No more different terms stand in steps than there are axioms. -/
theorem length_le_of_stepped (hd : Distinct visited) (h : ∀ t ∈ visited, ∃ s, t ∈ o.step d s) :
    visited.length ≤ o.axioms.length := by
  have hnodup : visited.Nodup := by
    apply hd.imp
    intro a b hba hab
    rw [hab, BEq.rfl] at hba
    cases hba
  have hsub : visited ⊆ o.ends d := by
    intro t ht
    obtain ⟨s, hs⟩ := h t ht
    exact mem_ends_of_mem_step hs
  exact Nat.le_trans (hnodup.subperm hsub).length_le (o.length_ends_le d)

theorem IsHierarchy.isNode (ho : o.IsHierarchy) (h : t ∈ o.step d s) : t.IsNode := by
  obtain ⟨m, e, k, n, rfl, hk, ha⟩ := mem_step h
  refine ho _ ha ?_ t (by cases d <;> simp [Direction.operands])
  cases hkind : e.kind <;> rw [hkind] at hk <;> cases hk
  · exact .inl rfl
  · exact .inr rfl

/-! ## The invariant of the worklist -/

/-- What holds of the visited terms and of the rest of the worklist. -/
structure Explored (o : Ontology) (d : Direction) (start : Term) (visited rest : List Term) : Prop where
  /-- Every member stands in a step. -/
  stepped : ∀ t ∈ visited ++ rest, ∃ s, t ∈ o.step d s
  /-- Whatever finds a member is reached. -/
  reached : ∀ u ∈ visited ++ rest, ∀ t, (t == u) = true → TransGen (o.Leads d) start t
  /-- No visited term finds an earlier one. -/
  distinct : Distinct visited
  /-- What stands in a step from the start or from a visited term is linked to a member. -/
  covered : ∀ s, s = start ∨ s ∈ visited → ∀ u ∈ o.step d s, ∃ v ∈ visited ++ rest, Term.Linked u v

namespace Explored

/-- At first the one step from the start waits. -/
theorem initial (o : Ontology) (d : Direction) (start : Term) : Explored o d start [] (o.step d start) where
  stepped t ht := ⟨start, ht⟩
  reached _ hu _ htu := .single (leads_of_mem_step hu htu)
  distinct := .nil
  covered s hs u hu := by
    obtain rfl | hs := hs
    · exact ⟨u, hu, .refl⟩
    · cases hs

/-- A member that finds a visited term can be passed over. -/
theorem skip (h : Explored o d start visited (t :: rest)) (ht : visited.contains t = true) :
    Explored o d start visited rest where
  stepped u hu := h.stepped u (List.mem_append.mpr ((List.mem_append.mp hu).imp_right (List.mem_cons_of_mem _)))
  reached u hu := h.reached u (List.mem_append.mpr ((List.mem_append.mp hu).imp_right (List.mem_cons_of_mem _)))
  distinct := h.distinct
  covered s hs u hu := by
    obtain ⟨v, hv, huv⟩ := h.covered s hs u hu
    obtain ⟨x, hx, htx⟩ := List.contains_iff_exists_mem_beq.mp ht
    rcases List.mem_append.mp hv with hv | hv
    · exact ⟨v, List.mem_append_left _ hv, huv⟩
    · rcases List.mem_cons.mp hv with rfl | hv
      · exact ⟨x, List.mem_append_left _ hx, huv.trans (.single htx)⟩
      · exact ⟨v, List.mem_append_right _ hv, huv⟩

/-- Any other member is visited, and what stands in its step waits. -/
theorem visit (h : Explored o d start visited (t :: rest)) (ht : visited.contains t = false) :
    Explored o d start (visited ++ [t]) (o.step d t ++ rest) := by
  have hmem : ∀ u, u ∈ visited ++ [t] ++ (o.step d t ++ rest) ↔ u ∈ visited ++ t :: rest ∨ u ∈ o.step d t := by
    intro u
    simp only [List.mem_append, List.mem_cons, List.not_mem_nil, or_false]
    grind
  have htm : t ∈ visited ++ t :: rest := List.mem_append_right _ List.mem_cons_self
  refine ⟨?_, ?_, ?_, ?_⟩
  · intro u hu
    rcases (hmem u).mp hu with hu | hu
    · exact h.stepped u hu
    · exact ⟨t, hu⟩
  · intro u hu x hxu
    rcases (hmem u).mp hu with hu | hu
    · exact h.reached u hu x hxu
    · exact (h.reached t htm t BEq.rfl).tail (leads_of_mem_step hu hxu)
  · refine h.distinct.append (Distinct.cons_iff.mpr ⟨nofun, .nil⟩) ?_
    intro b hb
    rw [List.mem_singleton.mp hb, ht]
  · intro s hs u hu
    by_cases hst : s = t
    · exact ⟨u, (hmem u).mpr (.inr (hst ▸ hu)), .refl⟩
    · have hs : s = start ∨ s ∈ visited := by
        simpa [hst] using hs
      obtain ⟨v, hv, huv⟩ := h.covered s hs u hu
      exact ⟨v, (hmem v).mpr (.inl hv), huv⟩

/-- As long as a new member waits, fewer have been visited than there are axioms. -/
theorem length_lt (h : Explored o d start visited (t :: rest)) (ht : visited.contains t = false) :
    visited.length < o.axioms.length := by
  have hle := length_le_of_stepped (h.visit ht).distinct fun t ht' =>
    (h.visit ht).stepped t (List.mem_append_left _ ht')
  rwa [List.length_append, List.length_singleton] at hle

/-- When nothing waits, whatever is reached is linked to a visited term. -/
theorem exists_linked (h : Explored o d start visited []) (ht : TransGen (o.Leads d) start t) :
    ∃ v ∈ visited, Term.Linked t v := by
  -- A step from the start or from a visited term leads to what a visited term stands for.
  have closed : ∀ s u, s = start ∨ s ∈ visited → o.Leads d s u → ∃ v ∈ visited, Term.Linked u v := by
    intro s u hs hsu
    obtain ⟨x, hx, hux⟩ := exists_mem_step hsu
    obtain ⟨v, hv, hxv⟩ := h.covered s hs x hx
    exact ⟨v, by simpa using hv, hux.trans hxv⟩
  induction ht with
  | single hst => exact closed start _ (.inl rfl) hst
  | tail _ hbc ih =>
    obtain ⟨v, hv, hbv⟩ := ih
    obtain ⟨m, e, rfl⟩ := hbc.exists_entity
    obtain ⟨n, rfl⟩ := hbv.exists_entity
    exact closed _ _ (.inr hv) hbc.of_maker

end Explored

end Ontology

/-! ## The worklist -/

namespace Hierarchy

open Act Ontology

variable {w : World} {id : Nat} {d : Direction} {start t : Term}

/-- One step from what can stand in a hierarchy. -/
theorem run_direct (ht : t.IsNode) (d : Direction) (id : Nat) (env : Env) (w : World) :
    direct d t (.handle (.ontology id)) env w = (.ok ((w.ontology id).step d t), w) := by
  obtain ⟨ht, -⟩ := ht
  cases t
  case entity m e =>
    have href : reference (.entity m e) (.handle (.ontology id)) env w = (.ok (.entity m e), w) :=
      Reference.resolve_entity m e.kind e.iri _ _ env w
    simp only [direct, Current.orGiven_handle, run_bind, run_pure, href]
    obtain ⟨kind, iri⟩ := e
    cases kind <;> rfl
  case expression c ts c' =>
    have href : reference (.expression c ts c') (.handle (.ontology id)) env w = (.ok (.expression c ts c'), w) :=
      Reference.resolve_expression c c' ts _ _ env w
    simp only [direct, Current.orGiven_handle, run_bind, run_pure, href]
    rfl
  all_goals rcases ht with ht | ht <;> cases ht

/-- From where the invariant holds the worklist is worked off, and the invariant holds in the end. The terms that
wait belong to a class of terms that can stand in a hierarchy and that steps do not leave. -/
theorem run_closureFrom_within {C : Term → Prop}
    (hC : ∀ t, C t → t.IsNode ∧ ∀ u ∈ (w.ontology id).step d t, C u) (env : Env) :
    ∀ (fuel : Nat) (visited rest : List Term), Explored (w.ontology id) d start visited rest → (∀ t ∈ rest, C t) →
      (w.ontology id).axioms.length ≤ fuel + visited.length →
      ∃ members, closureFrom d (.handle (.ontology id)) fuel visited rest env w = (.ok members, w) ∧
        Explored (w.ontology id) d start members []
  | fuel, visited, [], h, _, _ => by
    rw [closureFrom]
    exact ⟨visited, rfl, h⟩
  | 0, visited, t :: rest, h, hrest, hfuel => by
    rw [closureFrom]
    cases ht : visited.contains t with
    | true =>
      exact run_closureFrom_within hC env 0 visited rest (h.skip ht)
        (fun u hu => hrest u (List.mem_cons_of_mem _ hu)) hfuel
    | false => exact absurd (h.length_lt ht) (by omega)
  | fuel + 1, visited, t :: rest, h, hrest, hfuel => by
    rw [closureFrom]
    have hlater : ∀ u ∈ rest, C u := fun u hu => hrest u (List.mem_cons_of_mem _ hu)
    cases ht : visited.contains t with
    | true => exact run_closureFrom_within hC env (fuel + 1) visited rest (h.skip ht) hlater hfuel
    | false =>
      obtain ⟨hnode, hstep⟩ := hC t (hrest t List.mem_cons_self)
      have hbound : (w.ontology id).axioms.length ≤ fuel + (visited ++ [t]).length := by
        rw [List.length_append, List.length_singleton]
        omega
      obtain ⟨members, hrun, hmembers⟩ := run_closureFrom_within hC env fuel _ _ (h.visit ht)
        (fun u hu => (List.mem_append.mp hu).elim (hstep u) (hlater u)) hbound
      refine ⟨members, ?_, hmembers⟩
      rw [if_neg Bool.false_ne_true, run_bind, run_requireStable hnode.2]
      simp only [run_bind, run_direct hnode]
      exact hrun
termination_by fuel _ rest => (fuel, rest.length)

/-- So it is in an ontology whose hierarchy has entities and class expressions only. -/
theorem run_closureFrom (ho : (w.ontology id).IsHierarchy) (env : Env) (fuel : Nat) (visited rest : List Term)
    (h : Explored (w.ontology id) d start visited rest) (hfuel : (w.ontology id).axioms.length ≤ fuel + visited.length) :
    ∃ members, closureFrom d (.handle (.ontology id)) fuel visited rest env w = (.ok members, w) ∧
      Explored (w.ontology id) d start members [] := by
  refine run_closureFrom_within (C := fun t => ∃ s, t ∈ (w.ontology id).step d s) ?_ env fuel visited rest h ?_ hfuel
  · rintro t ⟨s, hs⟩
    exact ⟨ho.isNode hs, fun u hu => ⟨t, hu⟩⟩
  · exact fun t ht => h.stepped t (List.mem_append_right _ ht)

/-- What the members of the closure from a term are to be: all that is reached, each once. -/
structure IsClosure (o : Ontology) (d : Direction) (start : Term) (members : List Term) : Prop where
  /-- No member finds an earlier one. -/
  distinct : Distinct members
  /-- Whatever is found among the members is reached. -/
  sound : ∀ t, members.contains t = true → TransGen (o.Leads d) start t
  /-- Whatever is reached is linked to a member. -/
  complete : ∀ t, TransGen (o.Leads d) start t → ∃ u ∈ members, Term.Linked t u
  /-- An entity or built expression is found among the members if and only if it is reached. -/
  exact : ∀ t, t.isBuilt = true → (members.contains t = true ↔ TransGen (o.Leads d) start t)

theorem IsClosure.of_explored {o : Ontology} {members : List Term} (h : Explored o d start members []) :
    IsClosure o d start members := by
  have sound : ∀ t, members.contains t = true → TransGen (o.Leads d) start t := by
    intro t ht
    obtain ⟨u, hu, htu⟩ := List.contains_iff_exists_mem_beq.mp ht
    exact h.reached u (by simpa using hu) t htu
  have complete : ∀ t, TransGen (o.Leads d) start t → ∃ u ∈ members, Term.Linked t u :=
    fun t ht => h.exists_linked ht
  refine ⟨h.distinct, sound, complete, ?_⟩
  intro t hb
  refine ⟨sound t, ?_⟩
  intro ht
  obtain ⟨u, hu, htu⟩ := complete t ht
  exact List.contains_iff_exists_mem_beq.mpr ⟨u, hu, htu.beq_of_isBuilt hb⟩

/-- The closure from a term of a class that steps do not leave. -/
theorem run_closure_within {C : Term → Prop}
    (hC : ∀ t, C t → t.IsNode ∧ ∀ u ∈ (w.ontology id).step d t, C u) (hstart : C start) (env : Env) :
    ∃ members, closure d start (.handle (.ontology id)) env w = (.ok members, w) ∧
      IsClosure (w.ontology id) d start members := by
  obtain ⟨hnode, hstep⟩ := hC start hstart
  obtain ⟨members, hrun, hmembers⟩ := run_closureFrom_within hC env (w.ontology id).axioms.length [] _
    (Explored.initial _ d start) hstep (by simp)
  refine ⟨members, ?_, .of_explored hmembers⟩
  unfold closure
  simp only [Current.orGiven_handle, run_bind, run_pure, run_direct hnode, run_get]
  exact hrun

/-- **The closure from an entity** ends, changes nothing, and has exactly the members that are reached from the
entity by one or more steps. -/
theorem closure_reaches (ho : (w.ontology id).IsHierarchy) (d : Direction) (m : Nat) (e : Entity) (env : Env) :
    ∃ members, closure d (.entity m e) (.handle (.ontology id)) env w = (.ok members, w) ∧
      IsClosure (w.ontology id) d (.entity m e) members := by
  have hnode : (Term.entity m e).IsNode := ⟨.inl rfl, rfl⟩
  obtain ⟨members, hrun, hmembers⟩ :=
    run_closureFrom ho env (w.ontology id).axioms.length [] _ (Explored.initial _ d (.entity m e)) (by simp)
  refine ⟨members, ?_, .of_explored hmembers⟩
  unfold closure
  simp only [Current.orGiven_handle, run_bind, run_pure, run_direct hnode, run_get]
  exact hrun

/-- Two classes on a cycle, and an expression above one of them. -/
def cyclic : World :=
  let a : Term := .entity 0 ⟨.cls, "a"⟩
  let b : Term := .entity 0 ⟨.cls, "b"⟩
  let some_b : Term := .expression (.ofOperator .some) [.entity 0 ⟨.objectProperty, "p"⟩, b] .null
  { World.initial ⟨"en", "#"⟩ with
    ontologies := [⟨"o", .null, [.subclassOf a b, .subclassOf b some_b, .subclassOf b a], [], []⟩] }

theorem closure_reaches_cyclic : (cyclic.ontology 0).IsHierarchy ∧ ∃ members,
    closure .up (.entity 0 ⟨.cls, "a"⟩) (.handle (.ontology 0)) .plain cyclic = (.ok members, cyclic) ∧
      IsClosure (cyclic.ontology 0) .up (.entity 0 ⟨.cls, "a"⟩) members :=
  have ho : (cyclic.ontology 0).IsHierarchy := by
    unfold IsHierarchy Term.IsNode
    decide
  ⟨ho, closure_reaches ho .up 0 ⟨.cls, "a"⟩ .plain⟩

end Hierarchy

end Authoring
