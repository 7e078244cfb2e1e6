import Authoring.Proofs.Builder
import Authoring.Proofs.Probe.Leaving

/-!
# What a scope of probes leaves behind

Leaving a scope removes the values that are bound then (`Probe.scope_leaves`). No axiom that is left mentions a bound
entity, and no bound axiom is left, whatever the constructors and the body have done. This is what a scope is for,
and under different names it is all: then every value that a constructor has returned is bound.

**What leaks.** A value that is bound to a name takes the place of the one before, which is then not removed. So
an entity that a constructor has returned leaks exactly if there is an axiom, when the scope is left, that
mentions it and none of the bound entities (`EntitiesLeft.leaks`), and an axiom exactly if it is stored then and no
bound axiom finds it (`AxiomsLeft.leaks`). `scope_leaves_overwritten` is a scope with two probes of one name, of
which the first one stays.
-/

namespace Authoring

namespace Distinct

variable {α : Type u} [BEq α]

/-- What has been found first is gone, since nothing finds an earlier element. -/
theorem not_mem_eraseP [ReflBEq α] {l : List α} (h : Distinct l) (a : α) : a ∉ l.eraseP (a == ·) := by
  induction l with
  | nil => exact List.not_mem_nil
  | cons b l ih =>
    obtain ⟨head, tail⟩ := cons_iff.mp h
    intro ha
    cases hab : a == b with
    | true =>
      rw [List.eraseP_cons_of_pos hab] at ha
      have := head a ha
      rw [hab] at this
      cases this
    | false =>
      rw [List.eraseP_cons_of_neg (by simp [hab])] at ha
      rcases List.mem_cons.mp ha with rfl | ha
      · rw [BEq.rfl] at hab
        cases hab
      · exact ih tail ha

/-- What only one element has is had by none when it is gone. -/
theorem eraseP_of_unique [ReflBEq α] {l : List α} {p : α → Bool} (h : Distinct l)
    (hp : ∀ b ∈ l, ∀ c ∈ l, p b = true → p c = true → b = c) : ∀ b ∈ l.eraseP p, p b = false := by
  induction l with
  | nil => exact nofun
  | cons a l ih =>
    obtain ⟨head, tail⟩ := cons_iff.mp h
    intro b hb
    cases ha : p a with
    | true =>
      rw [List.eraseP_cons_of_pos ha] at hb
      apply Bool.eq_false_iff.mpr
      intro hpb
      have hba := head b hb
      rw [hp b (List.mem_cons_of_mem _ hb) a List.mem_cons_self hpb ha, BEq.rfl] at hba
      cases hba
    | false =>
      rw [List.eraseP_cons_of_neg (by simp [ha])] at hb
      rcases List.mem_cons.mp hb with rfl | hb
      · exact ha
      · exact ih tail (fun c hc d hd => hp c (List.mem_cons_of_mem _ hc) d (List.mem_cons_of_mem _ hd)) b hb

end Distinct

namespace Ontology

variable {o : Ontology} {as : List Axiom}

/-- Whether an axiom finds no two of the stored ones. Since equality need not compose, one that is not built may
find several. -/
def FindsOne (o : Ontology) (a : Axiom) : Prop :=
  ∀ b ∈ o.axioms, ∀ c ∈ o.axioms, (a == b) = true → (a == c) = true → b = c

/-- Where none of the axioms finds two, those are left that none of them finds. -/
theorem mem_removeAll (h : Distinct o.axioms) (hunique : ∀ u ∈ as, o.FindsOne u) (b : Axiom) :
    b ∈ (o.removeAll as).axioms ↔ b ∈ o.axioms ∧ ∀ u ∈ as, (u == b) = false := by
  induction as generalizing o with
  | nil => exact ⟨fun hb => ⟨hb, nofun⟩, fun hb => hb.1⟩
  | cons a as ih =>
    have hsub : o.axioms.eraseP (a == ·) ⊆ o.axioms := List.eraseP_subset
    have hfirst : b ∈ (o.remove a).axioms ↔ b ∈ o.axioms ∧ (a == b) = false := by
      constructor
      · intro hb
        exact ⟨hsub hb, h.eraseP_of_unique (hunique a List.mem_cons_self) b hb⟩
      · rintro ⟨hb, hab⟩
        exact (List.mem_eraseP_of_neg (by simp [hab])).mpr hb
    have hrest := ih (o := o.remove a) (h.sublist List.eraseP_sublist)
      fun u hu b hb c hc => hunique u (List.mem_cons_of_mem _ hu) b (hsub hb) c (hsub hc)
    rw [removeAll_cons, hrest, hfirst, List.forall_mem_cons, and_assoc]

end Ontology

namespace Probe

open Act

variable {env : Env} {w : World} {id : Nat} {α : Type} {a : Axiom}

/-- What a scope of probe entities leaves of an ontology. -/
structure EntitiesLeft (r : Outcome) (before after : Ontology) : Prop where
  /-- No bound entity is mentioned. -/
  bound : ∀ t ∈ r.values, ∀ a ∈ after.axioms, a.isAbout t = false
  /-- If entities are bound and nothing else, the axioms that mention none of them are left, in their order. -/
  left : (∀ t ∈ r.values, t.isEntity = true) →
    after.axioms = before.axioms.filter fun a => !r.values.any a.isAbout
  /-- Then a value that has been returned is mentioned exactly if an axiom mentioned it and no bound entity. -/
  leaks : (∀ t ∈ r.values, t.isEntity = true) → ∀ t ∈ r.returned,
    (∃ a ∈ after.axioms, a.isAbout t = true) ↔
      ∃ a ∈ before.axioms, a.isAbout t = true ∧ ∀ u ∈ r.values, a.isAbout u = false

/-- What a scope of probe axioms leaves of an ontology. -/
structure AxiomsLeft (r : Outcome) (before after : Ontology) : Prop where
  /-- No bound axiom is left. -/
  bound : ∀ a : Axiom, a.toTerm ∈ r.values → a ∉ after.axioms
  /-- Nor is it found, if it found no two axioms before and could be removed. -/
  found : ∀ a : Axiom, a.toTerm ∈ r.values → a.toTerm.isStable = true → before.FindsOne a →
    after.axioms.contains a = false
  /-- If axioms are bound that can be removed and nothing else, they are taken away, the last one first. -/
  left : ∀ as : List Axiom, r.values = as.map Axiom.toTerm → (∀ a ∈ as, a.toTerm.isStable = true) →
    after = before.removeAll as.reverse
  /-- Then, where none of them finds two axioms, an axiom is left exactly if it was there and none finds it. -/
  leaks : ∀ as : List Axiom, r.values = as.map Axiom.toTerm → (∀ a ∈ as, a.toTerm.isStable = true) →
    (∀ u ∈ as, before.FindsOne u) → ∀ a, a ∈ after.axioms ↔ a ∈ before.axioms ∧ ∀ u ∈ as, (u == a) = false

theorem entitiesLeft (r : Outcome) (hm : r.world.Manages id) (hl : (r.world.ontology id).Lawful) (env : Env) :
    EntitiesLeft r (r.world.ontology id)
      ((sweep (removeEntity · (.handle (.ontology id))) env r.values.reverse r.world).ontology id) := by
  have left : (∀ t ∈ r.values, t.isEntity = true) →
      ((sweep (removeEntity · (.handle (.ontology id))) env r.values.reverse r.world).ontology id).axioms =
        (r.world.ontology id).axioms.filter fun a => !r.values.any a.isAbout := by
    intro h
    rw [sweep_entities hm hl fun t ht => h t (List.mem_reverse.mp ht)]
    simp only [List.any_reverse]
  refine ⟨?_, left, ?_⟩
  · intro t ht
    cases hent : t.isEntity with
    | true =>
      refine sweep_of_mem (removeEntity_removes id) ?_ hm (List.mem_reverse.mpr ht)
      intro w' hw' a ha
      rw [removeEntity_axioms (hw'.manages hm) (hw'.lawful hm hl) hent] at ha
      simpa using (List.mem_filter.mp ha).2
    | false =>
      -- Nothing but an entity is mentioned.
      intro a _
      cases t <;> first | rfl | cases hent
  · intro h t _
    rw [left h]
    simp only [List.mem_filter, Bool.not_eq_true', List.any_eq_false, Bool.not_eq_true]
    constructor
    · rintro ⟨a, ⟨ha, hnot⟩, hat⟩
      exact ⟨a, ha, hat, hnot⟩
    · rintro ⟨a, ha, hat, hnot⟩
      exact ⟨a, ⟨ha, hnot⟩, hat⟩

/-- Removing a value takes away the axiom that it is. -/
theorem removeAxiom_ne (hm : w.Manages id) (hl : (w.ontology id).Lawful) (a : Axiom) (env : Env) :
    ∀ b ∈ ((removeAxiom a.toTerm (.handle (.ontology id)) env w).2.ontology id).axioms, b ≠ a := by
  intro b hb hba
  subst hba
  cases hs : b.toTerm.isStable with
  | true =>
    rw [removeAxiom_world, Change.run_remove hm hs] at hb
    dsimp only at hb
    rw [World.ontology_setOntology hm.exists_ontology] at hb
    exact hl.distinct.not_mem_eraseP b hb
  | false =>
    have hsub := ((removeAxiom_removes id b.toTerm env w hm).sublist hm).subset hb
    rw [(hl.stable b hsub).1] at hs
    cases hs

theorem axiomsLeft (r : Outcome) (hm : r.world.Manages id) (hl : (r.world.ontology id).Lawful) (env : Env) :
    AxiomsLeft r (r.world.ontology id)
      ((sweep (removeAxiom · (.handle (.ontology id))) env r.values.reverse r.world).ontology id) := by
  have left : ∀ as : List Axiom, r.values = as.map Axiom.toTerm → (∀ a ∈ as, a.toTerm.isStable = true) →
      (sweep (removeAxiom · (.handle (.ontology id))) env r.values.reverse r.world).ontology id =
        (r.world.ontology id).removeAll as.reverse := by
    intro as has hs
    rw [has, ← List.map_reverse, sweep_axioms hm fun a ha => hs a (List.mem_reverse.mp ha)]
  refine ⟨?_, ?_, left, ?_⟩
  · intro a ha hmem
    exact sweep_of_mem (P := (· ≠ a)) (removeAxiom_removes id)
      (fun w' hw' => removeAxiom_ne (hw'.manages hm) (hw'.lawful hm hl) a env) hm (List.mem_reverse.mpr ha) a hmem rfl
  · intro a ha hs hunique
    have hnone : ∀ b ∈ ((sweep (removeAxiom · (.handle (.ontology id))) env r.values.reverse
        r.world).ontology id).axioms, (a == b) = false :=
      sweep_of_mem (removeAxiom_removes id) (fun w' hw' => ?_) hm (List.mem_reverse.mpr ha)
    · apply Bool.eq_false_iff.mpr
      intro hc
      obtain ⟨b, hb, hab⟩ := List.contains_iff_exists_mem_beq.mp hc
      rw [hnone b hb] at hab
      cases hab
    · have hm' := hw'.manages hm
      rw [removeAxiom_world, Change.run_remove hm' hs]
      dsimp only
      rw [World.ontology_setOntology hm'.exists_ontology]
      have hsub := (hw'.sublist hm).subset
      exact (hw'.lawful hm hl).distinct.eraseP_of_unique fun b hb c hc => hunique b (hsub hb) c (hsub hc)
  · intro as has hs hunique a
    rw [left as has hs, Ontology.mem_removeAll hl.distinct fun u hu => hunique u (List.mem_reverse.mp hu)]
    simp only [List.mem_reverse]

/-- **What is left when a scope is left**, for all constructors and bodies and on every way out. -/
theorem scope_leaves (named : Named) (body : Term → Act α) {ontology : Term}
    (ho : Current.orGiven ontology env w = (.ok (.handle (.ontology id)), w))
    (hm : (leaving env named body w).world.Manages id)
    (hl : ((leaving env named body w).world.ontology id).Lawful) :
    EntitiesLeft (leaving env named body w) ((leaving env named body w).world.ontology id)
      ((Scope.run (withEntities (bindings named) ontology) body env w).2.ontology id) ∧
    AxiomsLeft (leaving env named body w) ((leaving env named body w).world.ontology id)
      ((Scope.run (withAxioms (bindings named) ontology) body env w).2.ontology id) ∧
    ((named.map (·.1)).Nodup → (leaving env named body w).values = (leaving env named body w).returned) := by
  refine ⟨?_, ?_, ?_⟩
  · rw [withEntities, run_scope removeEntity named ho]
    exact entitiesLeft _ hm hl env
  · rw [withAxioms, run_scope removeAxiom named ho]
    exact axiomsLeft _ hm hl env
  · intro hn
    rw [(leaving_values env named body w).1, (leaving_values env named body w).2]
    exact construct_values env hn [] (.nil named) w

/-- Two probes of one name, each a new class. -/
def overwriting : Named :=
  let build (iri : String) : Constructor := fun _ =>
    (Builder.Call.make .cls (.iri iri) .null (.handle (.ontology 0)) []).run
  [("p", build "a"), ("p", build "b")]

/-- The first of two probes of one name has been returned, and is mentioned when the scope has been left. -/
theorem scope_leaves_overwritten :
    .entity 0 ⟨.cls, "a"⟩ ∈ (leaving .plain overwriting (fun _ => pure Term.null) .single).returned ∧
      ∃ a ∈ ((Scope.run (withEntities (bindings overwriting) (.handle (.ontology 0))) (fun _ => pure Term.null)
        .plain .single).2.ontology 0).axioms, a.isAbout (.entity 0 ⟨.cls, "a"⟩) = true := by
  have returned : (leaving .plain overwriting (fun _ => pure Term.null) .single).returned =
      [.entity 0 ⟨.cls, "a"⟩, .entity 0 ⟨.cls, "b"⟩] := by rfl
  have left : ((Scope.run (withEntities (bindings overwriting) (.handle (.ontology 0))) (fun _ => pure Term.null)
      .plain .single).2.ontology 0).axioms =
      [.declaration (.entity 0 ⟨.cls, "c"⟩), .declaration (.entity 0 ⟨.cls, "a"⟩)] := by rfl
  rw [returned, left]
  exact ⟨List.mem_cons_self, _, List.mem_cons_of_mem _ List.mem_cons_self, by decide⟩

/-- What the two probes leave. -/
theorem scope_leaves_overwriting :
    let r := leaving .plain overwriting (fun _ => pure Term.null) .single
    EntitiesLeft r (r.world.ontology 0)
      ((Scope.run (withEntities (bindings overwriting) (.handle (.ontology 0))) (fun _ => pure Term.null)
        .plain .single).2.ontology 0) ∧
    AxiomsLeft r (r.world.ontology 0)
      ((Scope.run (withAxioms (bindings overwriting) (.handle (.ontology 0))) (fun _ => pure Term.null)
        .plain .single).2.ontology 0) ∧
    ((overwriting.map (·.1)).Nodup → r.values = r.returned) := by
  have before : ((leaving .plain overwriting (fun _ => pure Term.null) .single).world.ontology 0).axioms =
      [.declaration (.entity 0 ⟨.cls, "c"⟩), .declaration (.entity 0 ⟨.cls, "a"⟩),
        .declaration (.entity 0 ⟨.cls, "b"⟩)] := by rfl
  refine scope_leaves overwriting (fun _ => pure Term.null) rfl ⟨by decide, by decide⟩ ⟨fun a ha => ?_, ?_⟩
  · rw [before] at ha
    simp only [List.mem_cons, List.not_mem_nil, or_false] at ha
    rcases ha with rfl | rfl | rfl
    all_goals exact ⟨by decide, by decide⟩
  · rw [before]
    unfold Distinct
    decide

end Probe

end Authoring
