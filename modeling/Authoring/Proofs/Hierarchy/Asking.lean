import Authoring.Proofs.Alike
import Authoring.Proofs.Hierarchy.Closure

/-!
# What an answer about the hierarchy depends on

The queries of the hierarchy are questions (`Hierarchy.Question`), and what is answered depends on little: on what the
references denote, and on the axioms of one or two kinds (`Question.kinds`). So in any two worlds that are alike and
agree on these axioms of the ontology, a question has the same answer (`Question.ask_iff`). This is how it is shown that
a change of other axioms goes unnoticed, and that to read a reference beforehand changes nothing.

**What carries the proof.** An act *tells* something about an ontology (`Act.Tells`) if it only asks, and ends with the
same value in all worlds that agree with one. To find something is to tell it (`Tells.of_finds`), and acts that tell
compose. The only query that goes by more than the axioms of its kinds is the closure, for its expansions are bounded by
the number of all axioms. But the bound is never used up: no two visited members are equal, and all stand in steps. So
any bound from that number on gives the same members (`closureFrom_enough`).

**What is assumed.** Delayed expressions that may be called, by references and by what stands in the hierarchy, only ask
and are steady. Operands may be anything else; one that is a name, say, is read by the naming policy.
-/

namespace Authoring

open Act

/-- A term that calls nothing outside a set when it is read. -/
def Term.CallsWithin (S : Expr → Prop) (t : Term) : Prop := ∀ b ∈ t.bodies, S b

/-- What can be denoted calls nothing. -/
theorem Reference.Denotes.callsWithin {kind : EntityKind} {t : Term} {S : Expr → Prop} (h : Denotes kind t) :
    t.CallsWithin S := by
  cases h <;> exact List.forall_mem_nil _

/-! ## Acts that tell something -/

/-- **Worlds that agree** with one on some kinds of axioms of an ontology, and are alike. -/
structure World.Agrees (w : World) (id : Nat) (K : AxiomKind → Prop) (w' : World) : Prop extends w.Alike w' where
  ofKind : ∀ k, K k → (w'.ontology id).ofKind k = (w.ontology id).ofKind k

namespace World.Agrees

variable {w w' w'' v : World} {id : Nat} {K : AxiomKind → Prop}

theorem refl (w : World) (id : Nat) (K : AxiomKind → Prop) : w.Agrees id K w := ⟨.refl w, fun _ _ => rfl⟩

theorem trans (h : w.Agrees id K w') (h' : w'.Agrees id K w'') : w.Agrees id K w'' :=
  ⟨h.toAlike.trans h'.toAlike, fun k hk => (h'.ofKind k hk).trans (h.ofKind k hk)⟩

/-- What only asks leaves a world that agrees. -/
theorem asked (h : w.Agrees id K w') (hv : w'.Asked v) : w.Agrees id K v :=
  h.trans ⟨hv.toAlike, fun _ _ => by rw [hv.ontology]⟩

end World.Agrees

namespace Act

/-- **An act that tells something** about an ontology: if it ends with a value in one of the worlds that agree with a
first one then this has a property, the act has only asked, and it ends with the same value in all of them. -/
def Tells (env : Env) (w₀ : World) (id : Nat) (K : AxiomKind → Prop) (x : Act α) (P : α → Prop) : Prop :=
  ∀ (w : World) (a : α) (v : World), w₀.Agrees id K w → x env w = (.ok a, v) →
    P a ∧ w.Asked v ∧ ∀ w' : World, w₀.Agrees id K w' → ∃ v', x env w' = (.ok a, v')

namespace Tells

variable {env : Env} {w₀ : World} {id : Nat} {K : AxiomKind → Prop} {α β : Type} {P : α → Prop} {Q : β → Prop}

theorem of_finds {S : Expr → Prop} {x : Act α} (hsteady : env.Steady S) (hpolicies : w₀.PoliciesWithin S)
    (h : Finds env S x P) : Tells env w₀ id K x P := by
  intro w a v hw hrun
  obtain ⟨hP, hasked, hsame⟩ := h w a v (hpolicies.of_alike hw.toAlike) hrun
  exact ⟨hP, hasked, fun w' hw' => hsame hsteady w' (hw.toAlike.symm.trans hw'.toAlike)⟩

theorem pure {a : α} (h : P a) : Tells env w₀ id K (pure a) P := by
  rintro w b v - ⟨⟩
  exact ⟨h, .refl w, fun w' _ => ⟨w', rfl⟩⟩

theorem throw {e : Fault} : Tells env w₀ id K (throw e : Act α) P := fun _ _ _ _ hrun => nomatch hrun

theorem bind {x : Act α} {f : α → Act β} (hx : Tells env w₀ id K x P) (hf : ∀ a, P a → Tells env w₀ id K (f a) Q) :
    Tells env w₀ id K (x >>= f) Q := by
  intro w b v hw hrun
  obtain ⟨a, w₁, hxa, hfb⟩ := bind_ok hrun
  obtain ⟨hP, hasked, hsame⟩ := hx w a w₁ hw hxa
  obtain ⟨hQ, hasked', hsame'⟩ := hf a hP w₁ b v (hw.asked hasked) hfb
  refine ⟨hQ, hasked.trans hasked', ?_⟩
  intro w' hw'
  obtain ⟨w₁', hxa'⟩ := hsame w' hw'
  have hasked₁ := (hx w' a w₁' hw' hxa').2.1
  obtain ⟨v', hfb'⟩ := hsame' w₁' (hw'.asked hasked₁)
  exact ⟨v', bind_ok_iff.mpr ⟨a, w₁', hxa', hfb'⟩⟩

/-- An act that runs in the worlds that agree as another one does. -/
theorem congr {x y : Act α} (h : ∀ w, w₀.Agrees id K w → x env w = y env w) (hy : Tells env w₀ id K y P) :
    Tells env w₀ id K x P := by
  intro w a v hw hrun
  rw [h w hw] at hrun
  obtain ⟨hP, hasked, hsame⟩ := hy w a v hw hrun
  exact ⟨hP, hasked, fun w' hw' => h w' hw' ▸ hsame w' hw'⟩

theorem requireStable (t : Term) : Tells env w₀ id K (Act.requireStable t) fun _ => True := by
  unfold Act.requireStable
  split
  · exact pure trivial
  · exact throw

theorem requireFindable (t : Term) : Tells env w₀ id K (Act.requireFindable t) fun _ => True := by
  unfold Act.requireFindable
  split
  · exact pure trivial
  · exact requireStable _

end Tells

end Act

/-! ## Questions -/

namespace Ontology

variable {o o' : Ontology} {d : Direction} {a t u : Term}

/-- The kinds of axioms that the hierarchy consists of. -/
def IsHierarchical (k : AxiomKind) : Prop := k = .subclassOf ∨ k = .subObjectPropertyOf

/-- A step goes by the axioms of the hierarchy. -/
theorem step_congr (h : ∀ k, IsHierarchical k → o'.ofKind k = o.ofKind k) : o'.step d t = o.step d t := by
  have hclasses := h _ (.inl rfl)
  have hproperties := h _ (.inr rfl)
  simp only [step, seconds, firsts, hclasses, hproperties]

theorem partners_congr {k : AxiomKind} (h : o'.ofKind k = o.ofKind k) : o'.partners k t = o.partners k t := by
  simp only [partners, h]

/-- An axiom that is added leaves the axioms of the other kinds as they are. -/
theorem ofKind_add_of_ne {k : AxiomKind} {b : Axiom} (h : b.kind ≠ k) : (o.add b).ofKind k = o.ofKind k := by
  rw [ofKind, ofKind, add_eq]
  dsimp only
  split
  · rfl
  · rw [List.filter_append, List.filter_cons_of_neg (by simpa using h), List.filter_nil, List.append_nil]

/-- What stands in a step is an operand of an axiom of the hierarchy. -/
theorem exists_axiom_of_mem_step (h : u ∈ o.step d a) : ∃ b ∈ o.axioms, IsHierarchical b.kind ∧ u ∈ b.operands := by
  obtain ⟨m, e, k, n, rfl, hk, ha⟩ := mem_step h
  refine ⟨_, ha, ?_, by cases d <;> simp [Direction.operands]⟩
  cases hkind : e.kind <;> rw [hkind] at hk <;> cases hk
  · exact .inl rfl
  · exact .inr rfl

end Ontology

namespace Hierarchy

open Ontology Builder

/-- **A question about the hierarchy**: what is one step away from a term, what is reached from it, whether a second term
is reached from a first one, and whether the two are related by a symmetric kind of axioms. -/
inductive Question where
  | direct (d : Direction) (t : Term)
  | closure (d : Direction) (t : Term)
  | reaches (d : Direction) (first second : Term)
  | related (k : AxiomKind) (first second : Term)

/-- What is answered: the members of a set, or a verdict. -/
inductive Answer where
  | members (ts : List Term)
  | verdict (b : Bool)

namespace Question

/-- Asks a question of an ontology. -/
def ask (ontology : Term) : Question → Act Answer
  | direct d t => do return .members (← Hierarchy.direct d t ontology)
  | closure d t => do return .members (← Hierarchy.closure d t ontology)
  | reaches d s t => do return .verdict (← Hierarchy.reaches d s t ontology)
  | related k s t => do return .verdict (← Hierarchy.related k s t ontology)

/-- The references of a question call nothing outside a set. -/
def CallsWithin (S : Expr → Prop) : Question → Prop
  | direct _ t | closure _ t => t.CallsWithin S
  | reaches _ s t | related _ s t => s.CallsWithin S ∧ t.CallsWithin S

/-- The kinds of axioms that the answer goes by. -/
def kinds : Question → AxiomKind → Prop
  | related k _ _, j => j = k
  | direct .. , j | closure .., j | reaches .., j => IsHierarchical j

end Question

variable {env : Env} {S : Expr → Prop} {w₀ w v : World} {id : Nat} {K : AxiomKind → Prop} {d : Direction} {s t : Term}
  {C : Term → Prop}

theorem reference_eq (t o : Term) : reference t o = Reference.resolve t (kindOr .cls t) o := by
  cases t <;> rfl

theorem pair_eq (s t o : Term) : pair s t o = (do
    let a ← Reference.resolve s (kindOr .cls s) o
    return (a, ← Reference.resolve t (kindOr .cls a) o)) := by
  unfold pair
  rw [reference_eq]
  rfl

/-- What the first of two references denotes is of the kind that it is read by. -/
theorem denotes_of_pair {o a b : Term} (h : pair s t o env w = (.ok (a, b), v)) :
    Reference.Denotes (kindOr .cls s) a := by
  rw [pair_eq] at h
  obtain ⟨c, w₁, hc, h⟩ := bind_ok h
  obtain ⟨d, w₂, -, h⟩ := bind_ok h
  cases h
  exact Reference.resolve_ok hc

/-- One step from a reference is the step from what it denotes, in the ontology as it is then. -/
theorem direct_eq (d : Direction) (t : Term) (id : Nat) : direct d t (.handle (.ontology id)) = (do
    let a ← Reference.resolve t (kindOr .cls t) (.handle (.ontology id))
    return ((← get).ontology id).step d a) := by
  unfold direct
  rw [Current.orGiven_handle, pure_bind, reference_eq]
  congr 1
  funext a
  split
  · rfl
  · rfl
  next hcls hproperty =>
    have hnone : ∀ o : Ontology, o.step d a = [] := by
      intro o
      cases a
      case entity m e =>
        obtain ⟨kind, iri⟩ := e
        cases kind
        · exact absurd rfl (hcls m iri)
        · exact absurd rfl (hproperty m iri)
        all_goals rfl
      all_goals rfl
    funext env w
    show _ = (Except.ok ((w.ontology id).step d a), w)
    rw [hnone]
    rfl

/-! ## The worklist -/

section
variable (hdirect : ∀ t, C t → Tells env w₀ id K (direct d t (.handle (.ontology id))) fun us => ∀ u ∈ us, C u)
include hdirect

theorem closureFrom_tells : ∀ (fuel : Nat) (visited rest : List Term), (∀ t ∈ rest, C t) →
    Tells env w₀ id K (closureFrom d (.handle (.ontology id)) fuel visited rest) fun _ => True
  | fuel, visited, [], _ => by
    rw [closureFrom]
    exact .pure trivial
  | 0, visited, t :: rest, hrest => by
    rw [closureFrom]
    split
    · exact closureFrom_tells 0 visited rest fun u hu => hrest u (List.mem_cons_of_mem _ hu)
    · exact .throw
  | fuel + 1, visited, t :: rest, hrest => by
    obtain ⟨ht, hlater⟩ := List.forall_mem_cons.mp hrest
    rw [closureFrom]
    split
    · exact closureFrom_tells (fuel + 1) visited rest hlater
    · refine .bind (.requireStable t) fun _ _ => .bind (hdirect t ht) fun next hnext => ?_
      exact closureFrom_tells fuel _ _ (List.forall_mem_append.mpr ⟨hnext, hlater⟩)
termination_by fuel _ rest => (fuel, rest.length)

/-- **Any bound is as good as another** from the number of axioms on: what is worked off within one bound is worked off
within the other. -/
theorem closureFrom_enough (hC : ∀ t, C t → ∃ s, t ∈ (w.ontology id).step d s) {members : List Term} :
    ∀ (fuel : Nat) (visited rest : List Term) (enough : Nat) {u : World}, w₀.Agrees id K u →
      (∀ t ∈ visited, C t) → (∀ t ∈ rest, C t) → Distinct visited →
      (w.ontology id).axioms.length ≤ enough + visited.length →
      closureFrom d (.handle (.ontology id)) fuel visited rest env u = (.ok members, v) →
      closureFrom d (.handle (.ontology id)) enough visited rest env u = (.ok members, v)
  | fuel, visited, [], enough, u, _, _, _, _, _, hrun => by
    rw [closureFrom] at hrun ⊢
    exact hrun
  | fuel, visited, t :: rest, enough, u, hu, hvisited, hrest, hdistinct, henough, hrun => by
    obtain ⟨ht, hlater⟩ := List.forall_mem_cons.mp hrest
    cases hmember : visited.contains t with
    | true =>
      have skip : ∀ fuel, closureFrom d (.handle (.ontology id)) fuel visited (t :: rest) =
          closureFrom d (.handle (.ontology id)) fuel visited rest := by
        intro fuel
        cases fuel <;> rw [closureFrom, if_pos hmember]
      rw [skip] at hrun ⊢
      exact closureFrom_enough hC fuel visited rest enough hu hvisited hlater hdistinct henough hrun
    | false =>
      have hdistinct' : Distinct (visited ++ [t]) := by
        refine hdistinct.append (Distinct.cons_iff.mpr ⟨List.forall_mem_nil _, .nil⟩) ?_
        intro b hb
        rw [List.mem_singleton.mp hb, hmember]
      have hvisited' : ∀ u ∈ visited ++ [t], C u :=
        List.forall_mem_append.mpr ⟨hvisited, List.forall_mem_singleton.mpr ht⟩
      -- One more member is visited, and there are no more of them than axioms.
      have hlength := length_le_of_stepped hdistinct' fun u hu => hC u (hvisited' u hu)
      rw [List.length_append, List.length_singleton] at hlength
      obtain ⟨enough, rfl⟩ : ∃ n, enough = n + 1 := Nat.exists_eq_add_one.mpr (by omega)
      have henough' : (w.ontology id).axioms.length ≤ enough + (visited ++ [t]).length := by
        rw [List.length_append, List.length_singleton]
        omega
      have hnot : ¬visited.contains t = true := by simp only [hmember, Bool.false_eq_true, not_false_eq_true]
      cases fuel with
      | zero =>
        rw [closureFrom, if_neg hnot] at hrun
        cases hrun
      | succ fuel =>
        rw [closureFrom, if_neg hnot] at hrun ⊢
        obtain ⟨_, u₁, hstable, hnext⟩ := bind_ok hrun
        obtain rfl := (Reads.requireStable t).eq_of_ok hstable
        obtain ⟨next, u₂, hstep, hfrom⟩ := bind_ok hnext
        obtain ⟨hnextC, hasked, -⟩ := hdirect t ht _ _ _ hu hstep
        have hdone := closureFrom_enough hC fuel _ _ enough (hu.asked hasked) hvisited'
          (List.forall_mem_append.mpr ⟨hnextC, hlater⟩) hdistinct' henough' hfrom
        exact bind_ok_iff.mpr ⟨_, _, hstable, bind_ok_iff.mpr ⟨next, u₂, hstep, hdone⟩⟩
termination_by fuel _ rest => (fuel, rest.length)

/-- The closure is told even where there are more axioms, of other kinds. -/
theorem closure_tells (hC : ∀ w, w₀.Agrees id K w → ∀ t, C t → ∃ s, t ∈ (w.ontology id).step d s)
    (ht : Tells env w₀ id K (direct d t (.handle (.ontology id))) fun us => ∀ u ∈ us, C u) :
    Tells env w₀ id K (closure d t (.handle (.ontology id))) fun _ => True := by
  have hclosure : closure d t (.handle (.ontology id)) = (do
      let first ← direct d t (.handle (.ontology id))
      closureFrom d (.handle (.ontology id)) ((← get).ontology id).axioms.length [] first) := by
    unfold closure
    rw [Current.orGiven_handle, pure_bind]
    rfl
  rw [hclosure]
  intro w members v hw hrun
  obtain ⟨first, w₁, hfirst, hfrom⟩ := bind_ok hrun
  obtain ⟨hfirstC, hasked, hsame⟩ := ht w first w₁ hw hfirst
  obtain ⟨-, hasked₁, hsame₁⟩ := closureFrom_tells hdirect (w₁.ontology id).axioms.length [] first hfirstC w₁ members v
    (hw.asked hasked) hfrom
  refine ⟨trivial, hasked.trans hasked₁, ?_⟩
  intro w' hw'
  obtain ⟨w₁', hfirst'⟩ := hsame w' hw'
  have hw₁' := hw'.asked (ht w' first w₁' hw' hfirst').2.1
  obtain ⟨v', hfrom'⟩ := hsame₁ w₁' hw₁'
  have henough := closureFrom_enough hdirect (hC w₁' hw₁') _ [] first (w₁'.ontology id).axioms.length hw₁'
    (List.forall_mem_nil _) hfirstC .nil (Nat.le_add_right _ _) hfrom'
  exact ⟨v', bind_ok_iff.mpr ⟨first, w₁', hfirst', henough⟩⟩

end

/-! ## What is told -/

section
variable (hanswers : env.Answers S) (hsteady : env.Steady S) (hw : w.PoliciesWithin S)
include hanswers hsteady hw

theorem resolve_tells (ht : t.CallsWithin S) (kind : EntityKind) (o : Term) :
    Tells env w id K (Reference.resolve t kind o) (Reference.Denotes kind) :=
  .of_finds hsteady hw (Reference.resolve_finds hanswers ht kind o)

theorem pair_tells (hs : s.CallsWithin S) (ht : t.CallsWithin S) (o : Term) :
    Tells env w id K (pair s t o) fun p => p.1.CallsWithin S := by
  rw [pair_eq]
  refine .bind (resolve_tells hanswers hsteady hw hs _ o) fun a ha => ?_
  exact .bind (resolve_tells hanswers hsteady hw ht _ o) fun b _ => .pure ha.callsWithin

theorem related_tells {k : AxiomKind} (hK : K k) (hs : s.CallsWithin S) (ht : t.CallsWithin S) :
    Tells env w id K (related k s t (.handle (.ontology id))) fun _ => True := by
  have partners : ∀ a, Tells env w id K (Query.partners k (.handle (.ontology id)) a) fun _ => True := by
    intro a
    -- The partners are read off the axioms of the kind, which are those of the first world.
    refine .congr (y := if ((w.ontology id).ofKind k).isEmpty then return (w.ontology id).partners k a else do
      requireFindable a
      return (w.ontology id).partners k a) (fun w' hw' => ?_) ?_
    · rw [← hw'.ofKind k hK, ← partners_congr (hw'.ofKind k hK)]
      rfl
    · split
      · exact .pure trivial
      · exact .bind (.requireFindable a) fun _ _ => .pure trivial
  unfold related
  rw [Current.orGiven_handle, pure_bind]
  refine .bind (pair_tells hanswers hsteady hw hs ht _) fun p _ => .bind (partners p.1) fun ts _ => ?_
  exact .bind (.requireStable _) fun _ _ => .pure trivial

section
variable (hK : ∀ k, IsHierarchical k → K k)
  (hoperands : ∀ a ∈ (w.ontology id).axioms, IsHierarchical a.kind → ∀ t ∈ a.operands, t.CallsWithin S)
include hK hoperands

theorem direct_tells (ht : t.CallsWithin S) (d : Direction) : Tells env w id K (direct d t (.handle (.ontology id)))
    fun us => ∀ u ∈ us, u.CallsWithin S ∧ ∃ a, u ∈ (w.ontology id).step d a := by
  rw [direct_eq]
  refine .bind (resolve_tells hanswers hsteady hw ht _ _) fun a _ => ?_
  refine .congr (y := pure ((w.ontology id).step d a)) (fun w' hw' => ?_) (.pure ?_)
  · rw [← step_congr fun k hk => hw'.ofKind k (hK k hk)]
    rfl
  · intro u hu
    obtain ⟨b, hb, hk, hub⟩ := exists_axiom_of_mem_step hu
    exact ⟨hoperands b hb hk u hub, a, hu⟩

theorem reached_tells (ht : t.CallsWithin S) (d : Direction) :
    Tells env w id K (closure d t (.handle (.ontology id))) fun _ => True := by
  refine closure_tells (fun u hu => direct_tells hanswers hsteady hw hK hoperands hu.1 d) ?_
    (direct_tells hanswers hsteady hw hK hoperands ht d)
  rintro w' hw' u ⟨-, a, ha⟩
  exact ⟨a, by rwa [step_congr fun k hk => hw'.ofKind k (hK k hk)]⟩

end

/-- **What a question is answered** goes by the axioms of its kinds. -/
theorem Question.ask_tells {q : Question} (hq : q.CallsWithin S)
    (hoperands : ∀ a ∈ (w.ontology id).axioms, IsHierarchical a.kind → ∀ t ∈ a.operands, t.CallsWithin S) :
    Tells env w id q.kinds (q.ask (.handle (.ontology id))) fun _ => True := by
  cases q with
  | direct d t =>
    have hdirect := direct_tells hanswers hsteady hw (K := IsHierarchical) (fun _ hk => hk) hoperands hq d
    exact .bind hdirect fun ts _ => .pure trivial
  | closure d t =>
    have hclosure := reached_tells hanswers hsteady hw (K := IsHierarchical) (fun _ hk => hk) hoperands hq d
    exact .bind hclosure fun ts _ => .pure trivial
  | reaches d s t =>
    refine .bind (P := fun _ => True) ?_ fun _ _ => .pure trivial
    unfold Hierarchy.reaches
    rw [Current.orGiven_handle, pure_bind]
    refine .bind (pair_tells hanswers hsteady hw hq.1 hq.2 _) fun p hp => ?_
    refine .bind (reached_tells hanswers hsteady hw (fun _ hk => hk) hoperands hp d) fun _ _ => ?_
    exact .bind (.requireStable _) fun _ _ => .pure trivial
  | related k s t =>
    have hrelated : Tells env w id (· = k) (Hierarchy.related k s t (.handle (.ontology id))) fun _ => True :=
      related_tells hanswers hsteady hw rfl hq.1 hq.2
    exact .bind hrelated fun b _ => .pure trivial

/-- **A question has the same answer in worlds that agree** on the axioms that the answer goes by. -/
theorem Question.ask_iff {q : Question} (hq : q.CallsWithin S)
    (hoperands : ∀ a ∈ (w.ontology id).axioms, IsHierarchical a.kind → ∀ t ∈ a.operands, t.CallsWithin S) {w' : World}
    (hagrees : w.Agrees id q.kinds w') {r : Answer} :
    (q.ask (.handle (.ontology id)) env w').1 = .ok r ↔ (q.ask (.handle (.ontology id)) env w).1 = .ok r := by
  have htells := ask_tells hanswers hsteady hw hq hoperands
  have transfer : ∀ {u u' : World}, w.Agrees id q.kinds u → w.Agrees id q.kinds u' →
      (q.ask (.handle (.ontology id)) env u).1 = .ok r → (q.ask (.handle (.ontology id)) env u').1 = .ok r := by
    intro u u' hu hu' hr
    obtain ⟨v', hv'⟩ := (htells u r _ hu (Prod.ext hr rfl)).2.2 u' hu'
    rw [hv']
  exact ⟨transfer hagrees (.refl w id _), transfer (.refl w id _) hagrees⟩

end

end Hierarchy

end Authoring
