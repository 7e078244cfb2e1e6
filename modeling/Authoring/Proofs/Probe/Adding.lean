import Authoring.Proofs.Probe.Leaking

/-!
# Probes that are added axioms

A scope whose probes are axioms that it adds to the ontology takes away, when it is left, every axiom that a probe finds
(`Probe.scope_unchanged_iff`). What has been added is among these, and so is what was there before: an addition of an axiom
that is stored adds nothing, and its removal takes away what was stored. So the ontology is unchanged exactly if no probe
was stored when the scope was entered. This holds on every way out, for whatever body that changes nothing.

**What carries the proof.** The axioms are what was there, followed by what has been added. A probe that finds something of
what was there is none of those that have been added, so each part can be followed by itself, and nothing of the second is
left (`Distinct.foldl_eraseP_append`).
-/

namespace Authoring

namespace Distinct

variable {α : Type u} [BEq α]

/-- Removing elements one by one from a list with new elements at its end, which are all to be removed. -/
theorem foldl_eraseP_append [ReflBEq α] {ys l new : List α} (hnew : Distinct new) (hys : ∀ z ∈ new, z ∈ ys)
    (hfinds : ∀ z ∈ new, ∀ b ∈ l, (z == b) = false) :
    ys.foldl (fun l y => l.eraseP (y == ·)) (l ++ new) = ys.foldl (fun l y => l.eraseP (y == ·)) l := by
  induction ys generalizing l new with
  | nil =>
    rw [List.eq_nil_iff_forall_not_mem.mpr fun z hz => List.not_mem_nil (hys z hz), List.append_nil]
  | cons y ys ih =>
    rw [List.foldl_cons, List.foldl_cons]
    by_cases hy : ∃ b ∈ l, (y == b) = true
    · obtain ⟨b, hb, hyb⟩ := hy
      rw [List.eraseP_append_left hyb _ hb]
      refine ih hnew (fun z hz => ?_) fun z hz c hc => hfinds z hz c (List.eraseP_subset hc)
      rcases List.mem_cons.mp (hys z hz) with rfl | hz'
      · rw [hfinds z hz b hb] at hyb
        cases hyb
      · exact hz'
    · have hnone : ∀ b ∈ l, ¬(y == b) = true := fun b hb hyb => hy ⟨b, hb, hyb⟩
      rw [List.eraseP_append_right _ hnone, List.eraseP_of_forall_not hnone]
      refine ih (sublist List.eraseP_sublist hnew) (fun z hz => ?_) fun z hz => hfinds z (List.eraseP_subset hz)
      rcases List.mem_cons.mp (hys z (List.eraseP_subset hz)) with rfl | hz'
      · exact absurd hz (hnew.not_mem_eraseP z)
      · exact hz'

end Distinct

namespace Ontology

/-- **Removing what has been added**, the last first, takes away what has been added, and what the additions had found. -/
theorem removeAll_addAll (o : Ontology) (as : List Axiom) : (o.addAll as).removeAll as.reverse = o.removeAll as.reverse := by
  rw [addAll_eq, removeAll_eq, removeAll_eq]
  refine congrArg (fun axioms => ({ o with axioms := axioms } : Ontology)) ?_
  refine Distinct.foldl_eraseP_append (Distinct.eraseDups _) (fun z hz => List.mem_reverse.mpr (mem_fresh hz).1) ?_
  intro z hz b hb
  refine Bool.eq_false_iff.mpr fun hzb => ?_
  have hstored := List.contains_iff_exists_mem_beq.mpr ⟨b, hb, hzb⟩
  rw [(mem_fresh hz).2] at hstored
  cases hstored

/-- Removals change nothing if none of them finds anything, and only then. -/
theorem removeAll_axioms_eq_iff {o : Ontology} {as : List Axiom} :
    (o.removeAll as).axioms = o.axioms ↔ ∀ a ∈ as, o.axioms.contains a = false := by
  induction as with
  | nil => exact ⟨fun _ => List.forall_mem_nil _, fun _ => rfl⟩
  | cons a as ih =>
    rw [List.forall_mem_cons, removeAll_cons]
    cases ha : o.axioms.contains a with
    | true =>
      obtain ⟨b, hb, hab⟩ := List.contains_iff_exists_mem_beq.mp ha
      refine iff_of_false (fun h => ?_) fun h => Bool.noConfusion h.1
      -- One axiom is gone, and none comes back.
      have hless : (o.remove a).axioms.length < o.axioms.length := by
        rw [remove, List.length_eraseP_of_mem hb hab]
        exact Nat.sub_lt (List.length_pos_of_mem hb) Nat.one_pos
      have hmore := (removeAll_sublist (o.remove a) as).length_le
      rw [h] at hmore
      exact absurd hmore (Nat.not_le_of_lt hless)
    | false =>
      have hsame : o.remove a = o := by
        have hnone : ∀ b ∈ o.axioms, ¬(a == b) = true := by
          intro b hb hab
          rw [List.contains_iff_exists_mem_beq.mpr ⟨b, hb, hab⟩] at ha
          cases ha
        rw [remove, List.eraseP_of_forall_not hnone]
      rw [hsame, ih, and_iff_right rfl]

end Ontology

namespace Probe

open Act

variable {α : Type} {env : Env} {w : World} {id : Nat}

/-- Constructors that add axioms to an ontology, each under a name. -/
def adding (id : Nat) (axioms : List (String × Axiom)) : Named :=
  axioms.map fun a => (a.1, fun _ => Change.add a.2.toTerm (.handle (.ontology id)))

/-- The axioms that are added: those before the first one that cannot be looked for. -/
def added (axioms : List (String × Axiom)) : List Axiom := (axioms.map (·.2)).takeWhile (·.toTerm.isStable)

/-- What cannot be looked for cannot be added. -/
theorem run_add_of_not_isStable (hm : w.Manages id) {a : Axiom} (ha : a.toTerm.isStable = false) (env : Env) :
    Change.add a.toTerm (.handle (.ontology id)) env w = (.error .wrongSort, w) := by
  simp only [Change.add, Current.orGiven_handle, run_bind, run_pure, Current.run_store, Store.add,
    Store.run_requireManaged hm, Store.run_requireAxiom, asOntology, run_requireStable_of_not ha]

/-- The constructors return the axioms that they add, in order. -/
theorem construct_adding (hm : w.Manages id) (env : Env) (axioms : List (String × Axiom)) (bound : Bound) :
    (construct env bound (adding id axioms) w).returned = (added axioms).map Axiom.toTerm ∧
      (construct env bound (adding id axioms) w).world = w.setOntology id ((w.ontology id).addAll (added axioms)) := by
  induction axioms generalizing bound w with
  | nil => exact ⟨rfl, World.setOntology_ontology.symm⟩
  | cons b axioms ih =>
    obtain ⟨name, a⟩ := b
    rw [adding, List.map_cons, construct]
    dsimp only
    cases ha : a.toTerm.isStable with
    | true =>
      have hm' : (w.setOntology id ((w.ontology id).add a)).Manages id := hm.setOntology Ontology.add_iri
      obtain ⟨hreturned, hworld⟩ := ih hm' (Keyed.put (.text name) a.toTerm bound)
      have hadded : added ((name, a) :: axioms) = a :: added axioms := List.takeWhile_cons_of_pos (a := a) ha
      rw [Change.run_add hm ha, hadded]
      refine ⟨congrArg (a.toTerm :: ·) hreturned, hworld.trans ?_⟩
      rw [World.ontology_setOntology hm.exists_ontology, World.setOntology_setOntology]
      rfl
    | false =>
      have hadded : added ((name, a) :: axioms) = [] :=
        List.takeWhile_cons_of_neg (a := a) (by rw [ha]; exact Bool.false_ne_true)
      rw [run_add_of_not_isStable hm ha, hadded]
      exact ⟨rfl, World.setOntology_ontology.symm⟩

/-- **What a scope of added axioms leaves** on every way out: the ontology without what the probes find. It is as before
exactly if none of the probes was stored. -/
theorem scope_unchanged_iff {axioms : List (String × Axiom)} (names : (axioms.map (·.1)).Nodup) {ontology : Term}
    (ho : Current.orGiven ontology env w = (.ok (.handle (.ontology id)), w)) (hm : w.Manages id)
    {body : Term → Act α} (hbody : ∀ t, Reads (body t)) :
    let w' := (Scope.run (withAxioms (bindings (adding id axioms)) ontology) body env w).2
    w'.ontology id = (w.ontology id).removeAll (added axioms).reverse ∧
      ((w'.ontology id).axioms = (w.ontology id).axioms ↔
        ∀ a ∈ added axioms, (w.ontology id).axioms.contains a = false) := by
  obtain ⟨hreturned, hworld⟩ := construct_adding hm env axioms []
  have names' : ((adding id axioms).map (·.1)).Nodup := by rwa [adding, List.map_map]
  have hleft : (leaving env (adding id axioms) body w).world = w.setOntology id ((w.ontology id).addAll (added axioms)) := by
    cases hf : (construct env [] (adding id axioms) w).fault with
    | some f => rw [leaving_of_some hf, hworld]
    | none =>
      rw [leaving_of_none hf]
      exact (hbody _ _ _).trans hworld
  have hvalues : (leaving env (adding id axioms) body w).values.reverse = (added axioms).reverse.map Axiom.toTerm := by
    rw [(leaving_values env (adding id axioms) body w).1,
      construct_values env names' [] (.nil _) w, hreturned, List.map_nil, List.nil_append,
      List.map_reverse]
  have hstable : ∀ a ∈ (added axioms).reverse, a.toTerm.isStable = true :=
    fun a ha => List.all_eq_true.mp List.all_takeWhile a (List.mem_reverse.mp ha)
  have hrestored : (Scope.run (withAxioms (bindings (adding id axioms)) ontology) body env w).2.ontology id =
      (w.ontology id).removeAll (added axioms).reverse := by
    rw [withAxioms, run_scope removeAxiom (adding id axioms) ho, hleft, hvalues,
      sweep_axioms (hm.setOntology Ontology.addAll_iri) hstable, World.ontology_setOntology hm.exists_ontology,
      Ontology.removeAll_addAll]
  refine ⟨hrestored, ?_⟩
  rw [hrestored, Ontology.removeAll_axioms_eq_iff]
  simp only [List.mem_reverse]

/-- Two probes of one new axiom, and one that cannot be looked for, so that there is no body to run. -/
theorem scope_unchanged_iff_new :
    let a := Axiom.subclassOf (.entity 0 ⟨.cls, "c"⟩) (.entity 0 ⟨.cls, "d"⟩)
    let probes := adding 0 [("p", a), ("q", a), ("r", .declaration (.list []))]
    let w' := (Scope.run (withAxioms (bindings probes) (.handle (.ontology 0))) (fun _ => pure ()) .plain .single).2
    (w'.ontology 0).axioms = (World.single.ontology 0).axioms :=
  (scope_unchanged_iff (by decide) rfl World.single_manages fun _ => .pure ()).2.mpr (by decide)

/-- **What was stored is taken away**: the probe is the axiom of the beginning, the body does nothing, and the ontology is
empty in the end. -/
theorem scope_takes_stored :
    let probes := adding 0 [("p", .declaration (.entity 0 ⟨.cls, "c"⟩))]
    let w' := (Scope.run (withAxioms (bindings probes) (.handle (.ontology 0))) (fun _ => pure ()) .plain .single).2
    (World.single.ontology 0).axioms = [.declaration (.entity 0 ⟨.cls, "c"⟩)] ∧ (w'.ontology 0).axioms = [] :=
  ⟨rfl, rfl⟩

end Probe

end Authoring
