import Authoring.Proofs.Hierarchy.Partners
import Authoring.Proofs.Scope.Subclasses

/-!
# Covering means equivalence

A scope of subclasses that makes a cover asserts that its superclass is equivalent to the union of the classes that were
built in it. When it has been left a query finds the two equivalent, in either direction and by every reference that
denotes the superclass; and the axiom is one over two different members (`Scope.asSubclasses_covers`).

The superclass can be that union itself, as one class alone is its own union. Then the query does not find it, as no
class is among its own equivalents (`Scope.asSubclasses_covers_itself`).

**What carries the proof.** Whether the axiom is new or an equal one was there, the superclass and the union are members
of a stored equivalence, and so they are partners (`Ontology.partners_contains`).

**What it does not establish.** Nothing is said of the axiom that is stored where a class covers itself.
-/

namespace Authoring

open Act Reference

variable {env : Env} {w : World}

theorem Reference.Denotes.of_isClass {t : Term} (h : t.IsClass) : Denotes .cls t := by
  cases h with
  | named m iri => exact .entity m iri
  | restriction | complement | combination | enumeration => exact .expression rfl

namespace Scope

variable {ts : List Term} {c : Term}

/-- The union of classes is a class or class expression. -/
theorem unionOf_isClass (h : Term.AreClasses ts) (hne : ts ≠ []) : (unionOf ts).IsClass := by
  cases ts with
  | nil => exact absurd rfl hne
  | cons t ts =>
    have named : ∀ u ∈ t :: ts, u.IsClass := by
      intro u hu
      obtain ⟨m, iri, rfl⟩ := h u hu
      exact .named m iri
    unfold unionOf
    split
    · exact named t List.mem_cons_self
    · refine .combination (.inr rfl) ?_ (.eraseDups _) fun u hu => named u (Distinct.mem_of_mem_eraseDups hu)
      rw [List.eraseDups_cons]
      exact List.cons_ne_nil _ _

theorem mem_groupAxioms {disjoint : Bool} {a : Axiom} (h : a ∈ groupAxioms disjoint true c ts) :
    a.kind = .disjointClasses ∨ a = .equivalentClasses [c, unionOf ts] := by
  unfold groupAxioms disjointAxioms coverAxioms at h
  rcases List.mem_append.mp h with h | h
  · left
    repeat' split at h
    all_goals simp_all [Axiom.disjointClasses]
  · right
    repeat' split at h
    all_goals simp_all

theorem cover_mem_groupAxioms (hne : ts ≠ []) (disjoint : Bool) :
    .equivalentClasses [c, unionOf ts] ∈ groupAxioms disjoint true c ts := by
  refine List.mem_append_right _ ?_
  rw [if_pos rfl, coverAxioms, if_neg (by simpa using hne)]
  exact List.mem_singleton_self _

/-- **A class is covered** by the union of others in an ontology, where its axioms were different before. -/
structure Covers (c : Term) (ts : List Term) (id : Nat) (before : List Axiom) (w : World) : Prop where
  /-- What the union is does not depend on when and where it is made. -/
  union : ∀ env v, Expression.or ts env v = (.ok (unionOf ts), v)
  /-- Each reference that denotes the class is found equivalent to the union, unless the class is the union itself. -/
  equivalent : ∀ s env w₁, resolveClass s (.handle (.ontology id)) env w = (.ok c, w₁) →
    w₁.ontology id = w.ontology id →
    Hierarchy.isEquivalent s (unionOf ts) (.handle (.ontology id)) env w = (.ok !(c == unionOf ts), w₁)
  /-- So is the union to the reference. -/
  converse : ∀ s env w₁, resolveClass s (.handle (.ontology id)) env w = (.ok c, w₁) →
    w₁.ontology id = w.ontology id →
    Hierarchy.isEquivalent (unionOf ts) s (.handle (.ontology id)) env w = (.ok !(c == unionOf ts), w₁)
  /-- Every new equivalence has two different members, unless the class is the union itself. -/
  proper : (c == unionOf ts) = false → ∀ a ∈ (w.ontology id).axioms, a.kind = .equivalentClasses →
    a ∈ before ∨ ∃ s t, a = .equivalentClasses [s, t] ∧ (s == t) = false

/-- Leaving a scope that makes a cover covers the class. -/
theorem covers_of_groupAxioms {id : Nat} (hid : w.Manages id) (hc : c.IsClass) (h : Term.AreClasses ts) (hne : ts ≠ [])
    (hstored : (w.ontology id).GroupsNodes .equivalentClasses) (disjoint : Bool) :
    Covers c ts id (w.ontology id).axioms
      (w.setOntology id ((w.ontology id).addAll (groupAxioms disjoint true c ts))) := by
  have hunion := unionOf_isClass h hne
  have hnodes : ∀ t ∈ [c, unionOf ts], t.HasNode :=
    List.forall_mem_cons.mpr ⟨.inr hc, List.forall_mem_singleton.mpr (.inr hunion)⟩
  have hstored' : ((w.ontology id).addAll (groupAxioms disjoint true c ts)).GroupsNodes .equivalentClasses := by
    intro a ha hkind
    rw [Ontology.addAll_axioms] at ha
    rcases List.mem_append.mp ha with ha | ha
    · exact hstored a ha hkind
    · rcases mem_groupAxioms (Ontology.mem_fresh ha).1 with hdisjoint | rfl
      · rw [hdisjoint] at hkind
        cases hkind
      · exact ⟨_, rfl, hnodes⟩
  have hcontains : ((w.ontology id).addAll (groupAxioms disjoint true c ts)).axioms.contains
      (.equivalentClasses [c, unionOf ts]) = true := Ontology.contains_addAll (cover_mem_groupAxioms hne disjoint)
  have hleft := Ontology.partners_contains hstored' hnodes hcontains (.head _) (.tail _ (.head _))
  have hright := Ontology.partners_contains hstored' hnodes hcontains (.tail _ (.head _)) (.head _)
  have hcomm : (unionOf ts == c) = (c == unionOf ts) :=
    (hnodes _ (.tail _ (.head _))).isRegular.beq_comm (hnodes _ (.head _)).isRegular
  have hstable : c.isStable = true := Term.isStable_of_isBuilt hc.isBuilt
  have hstable' := unionOf_isStable h hne
  have hafter := World.ontology_setOntology (o := (w.ontology id).addAll (groupAxioms disjoint true c ts))
    hid.exists_ontology
  have hself : ∀ env v, resolveClass (unionOf ts) (.handle (.ontology id)) env v = (.ok (unionOf ts), v) :=
    fun env v => (Denotes.of_isClass hunion).run_resolve _ _ env v
  refine ⟨fun _ _ => run_or h hne, ?_, ?_, ?_⟩
  · intro s env w₁ hs hkept
    rw [Hierarchy.isEquivalent, Hierarchy.run_related hs (hself env w₁) hstable hstable', hkept, hafter, hleft]
  · intro s env w₁ hs hkept
    rw [Hierarchy.isEquivalent, Hierarchy.run_related (hself env _) hs hstable' hstable, hkept, hafter, hright,
      hcomm]
  · intro hne a ha hkind
    rw [hafter, Ontology.addAll_axioms] at ha
    refine (List.mem_append.mp ha).imp_right fun ha => ?_
    rcases mem_groupAxioms (Ontology.mem_fresh ha).1 with hdisjoint | rfl
    · rw [hdisjoint] at hkind
      cases hkind
    · exact ⟨_, _, rfl, hne⟩

/-- **Covering means equivalence.** A scope of subclasses that makes a cover, and whose body has ended with some classes
collected and nothing else, covers the superclass by these. -/
theorem asSubclasses_covers {body : Term → Plan} {super c ontology : Term} {k : Nat} {w₀ : World}
    (ho : Current.orGiven ontology env w = (.ok (.handle (.ontology k)), w))
    (hsuper : resolveClass super (.handle (.ontology k)) env w = (.ok c, w₀)) (hc : c.IsClass) (disjoint cover : Term)
    {a : Term} {v : World}
    (hbody : outcome body env { env.context with defaults := some (.ofSuperclass c) } w₀ = (.ok a, v))
    (hk : v.Manages k) (hstored : (v.ontology k).GroupsNodes .equivalentClasses)
    (hclasses : Term.AreClasses (v.window w₀.windows.length)) (hne : v.window w₀.windows.length ≠ [])
    (hcover : (v.settle cover).isTruthy = true) :
    ∃ w', run (asSubclasses super disjoint cover ontology) (fun t => (body t).run) env w = (.ok a, w') ∧
      Covers c (v.window w₀.windows.length) k (v.ontology k).axioms w' := by
  have hfinish : finish c disjoint cover (.handle (.ontology k)) w₀.windows.length env v = _ :=
    run_finish hk hclasses fun _ _ => Term.isStable_of_isBuilt hc.isBuilt
  rw [hcover] at hfinish
  exact ⟨_, run_of_done (run_asSubclasses ho hsuper disjoint cover) hbody hfinish,
    covers_of_groupAxioms hk hc hclasses hne hstored _⟩

/-- The superclass is a complement here, and a class of the cover is built twice. -/
theorem asSubclasses_covers_interrupted :
    let c : Term := .expression (.ofOperator .not) [.entity 0 ⟨.cls, "c"⟩] .null
    let context := { Env.single.context with defaults := some (.ofSuperclass c) }
    let inner := outcome (fun _ => interrupted) .single context .single
    let ts := inner.2.window 1
    (ts == [.entity 0 ⟨.cls, "o#A"⟩, .entity 0 ⟨.cls, "o#B"⟩, .entity 0 ⟨.cls, "o#A"⟩]) = true ∧
    ∃ w', run (asSubclasses c .null (.bool true) .null) (fun _ => interrupted.run) .single .single = (inner.1, w') ∧
      Hierarchy.isEquivalent c (unionOf ts) (.handle (.ontology 0)) .single w' = (.ok true, w') ∧
      Hierarchy.isEquivalent (unionOf ts) c (.handle (.ontology 0)) .single w' = (.ok true, w') := by
  intro c context inner ts
  have hcurrent : Current.orGiven .null .single .single = (.ok (.handle (.ontology 0)), .single) := rfl
  have hc : c.IsClass := .complement (.named 0 "c")
  have hself : ∀ w, resolveClass c (.handle (.ontology 0)) .single w = (.ok c, w) :=
    (Denotes.of_isClass hc).run_resolve _ _ _
  have hnew : (c == unionOf ts) = false := by decide +kernel
  have hmanages : inner.2.Manages 0 := ⟨by decide +kernel, by decide +kernel⟩
  have hnone : ∀ a ∈ (inner.2.ontology 0).axioms, ¬a.kind = .equivalentClasses := by decide +kernel
  have hclasses : Term.AreClasses ts := by decide +kernel
  have hsome : ts ≠ [] := List.ne_nil_of_length_pos (by decide +kernel)
  have hcover : (inner.2.settle (.bool true)).isTruthy = true := rfl
  have hended : inner.1.isOk = true := by decide +kernel
  refine ⟨by decide +kernel, ?_⟩
  rcases hinner : inner.1 with f | t <;> rw [hinner] at hended
  · cases hended
  · have hbody : inner = (.ok t, inner.2) := by rw [← hinner]
    obtain ⟨w', hrun, (hcovers : Covers c ts 0 _ w')⟩ :=
      asSubclasses_covers hcurrent (hself .single) hc .null (.bool true) hbody hmanages
        (fun a ha hk => absurd hk (hnone a ha)) hclasses hsome hcover
    have hleft := hcovers.equivalent c .single w' (hself w') rfl
    have hright := hcovers.converse c .single w' (hself w') rfl
    rw [hnew] at hleft hright
    exact ⟨w', hrun, hleft, hright⟩

/-- A class that is built in a scope that is to cover it is not found among its own equivalents. -/
theorem asSubclasses_covers_itself :
    let body := Plan.calling (.making .cls "A" .null) []
    let r := run (asSubclasses (.text "A") .null (.bool true) .null) (fun _ => body.run) .single .single
    let union := Expression.or (r.2.window 1)
    r.1.isOk = true ∧ (r.2.window 1 == [.entity 0 ⟨.cls, "o#A"⟩]) = true ∧
      Term.AreClasses (r.2.window 1) ∧ r.2.Manages 0 ∧
      ((do Hierarchy.isEquivalent (.text "A") (← union) .null) .single r.2).1.toOption = some false ∧
      ((do Hierarchy.isEquivalent (← union) (.text "A") .null) .single r.2).1.toOption = some false :=
  ⟨by decide +kernel, by decide +kernel, by decide +kernel, ⟨by decide +kernel, by decide +kernel⟩, by decide +kernel,
    by decide +kernel⟩

end Scope

end Authoring
