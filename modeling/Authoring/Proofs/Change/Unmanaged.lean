import Authoring.Proofs.Change

/-!
# Changes of an ontology that the store does not hold

An ontology that has been removed from its store or replaced in it, or that belongs to another store, is still denoted
by its handles. Adding an axiom to it and removing one from it are refused, whatever the axiom is and whether or not
there would have been anything to do, and the world stays as it is (`Change.run_add_of_unmanaged`,
`Change.run_remove_of_unmanaged`).

**Removing an entity** is refused by the first removal of an axiom, and so only where an axiom of the ontology mentions
the entity. Where none does, no change is made that could be refused: the removal ends, and answers that nothing has
been removed (`Change.run_removeEntity_of_unmanaged`). `Change.removes_nothing_unrefused` is such a removal.

**What is assumed** is that the axioms of the ontology can be compared, as all do that have been added to one.
-/

namespace Authoring

namespace Store

open Act

variable {w : World} {id : Nat}

/-- The fault of a change of an ontology that the store does not hold. -/
def unmanaged (w : World) (id : Nat) : Fault := .rejected (.unmanaged (w.ontology id).inspect)

/-- The store is asked first whether it holds the ontology. -/
theorem run_requireManaged_of_not {store : Nat} (h : w.holds store id = false) (env : Env) :
    requireManaged store (.handle (.ontology id)) env w = (.error (unmanaged w id), w) := by
  have hc : contains store (.handle (.ontology id)) env w = (.ok false, w) := by
    rw [← h]
    rfl
  rw [requireManaged, run_bind, hc]
  rfl

theorem run_discard_of_unmanaged {store : Nat} (h : w.holds store id = false) (t : Term) (env : Env) :
    discard store (.handle (.ontology id)) t env w = (.error (unmanaged w id), w) := by
  rw [discard, run_bind, run_requireManaged_of_not h]

end Store

namespace Change

open Act

variable {env : Env} {w : World} {id m : Nat} {e : Entity} {ontology : Term}

theorem run_add_of_unmanaged (ho : Current.orGiven ontology env w = (.ok (.handle (.ontology id)), w))
    (h : w.holds w.installed id = false) (t : Term) :
    add t ontology env w = (.error (Store.unmanaged w id), w) := by
  rw [add, run_bind, ho]
  simp only [run_bind, Current.run_store, Store.add, Store.run_requireManaged_of_not h]

theorem run_remove_of_unmanaged (ho : Current.orGiven ontology env w = (.ok (.handle (.ontology id)), w))
    (h : w.holds w.installed id = false) (t : Term) :
    remove t ontology env w = (.error (Store.unmanaged w id), w) := by
  rw [remove, run_bind, ho]
  simp only [run_bind, Current.run_store, Store.run_discard_of_unmanaged h]

/-- **Removing an entity** from an ontology that the store does not hold is refused exactly if there is something to
remove. -/
theorem run_removeEntity_of_unmanaged (ho : Current.orGiven ontology env w = (.ok (.handle (.ontology id)), w))
    (h : w.holds w.installed id = false) (hs : ∀ a ∈ (w.ontology id).axioms, a.IsStable) (m : Nat) (e : Entity) :
    removeEntity (.entity m e) ontology env w =
      (if (w.ontology id).axioms.any (·.mentions e m) then .error (Store.unmanaged w id) else .ok [], w) := by
  have doomed : Query.referencing (.handle (.ontology id)) (.entity m e) env w =
      (.ok ((w.ontology id).axioms.filter (·.mentions e m)), w) :=
    Query.run_referencing hs m e env
  rw [removeEntity, run_bind, ho]
  simp only [run_bind, Current.run_store, doomed]
  cases hf : (w.ontology id).axioms.filter (·.mentions e m) with
  | nil =>
    have hnone : (w.ontology id).axioms.any (·.mentions e m) = false :=
      List.any_eq_false.mpr (List.filter_eq_nil_iff.mp hf)
    rw [hnone]
    rfl
  | cons a as =>
    have ha : a ∈ (w.ontology id).axioms.filter (·.mentions e m) := hf ▸ List.mem_cons_self
    have hsome : (w.ontology id).axioms.any (·.mentions e m) = true :=
      List.any_eq_true.mpr ⟨a, List.mem_filter.mp ha⟩
    rw [hsome, forM_cons]
    simp only [run_bind, Store.run_discard_of_unmanaged h, if_true]

/-- **Changes of an ontology that the store does not hold** leave the whole world as it is. Additions and removals of
axioms are refused, and so is the removal of an entity if an axiom of the ontology mentions it; if none does, it ends and
answers that it has removed nothing. -/
theorem unmanaged_unchanged (ho : Current.orGiven ontology env w = (.ok (.handle (.ontology id)), w))
    (h : w.holds w.installed id = false) (hs : ∀ a ∈ (w.ontology id).axioms, a.IsStable) (a : Axiom) (m : Nat)
    (e : Entity) :
    add a.toTerm ontology env w = (.error (Store.unmanaged w id), w) ∧
      remove a.toTerm ontology env w = (.error (Store.unmanaged w id), w) ∧
      (removeEntity (.entity m e) ontology env w).2 = w ∧
      ((removeEntity (.entity m e) ontology env w).1 = .error (Store.unmanaged w id) ↔
        ∃ b ∈ (w.ontology id).axioms, b.mentions e m = true) ∧
      ((removeEntity (.entity m e) ontology env w).1 = .ok [] ↔
        ∀ b ∈ (w.ontology id).axioms, b.mentions e m = false) := by
  refine ⟨run_add_of_unmanaged ho h _, run_remove_of_unmanaged ho h _, ?_⟩
  rw [run_removeEntity_of_unmanaged ho h hs]
  cases hany : (w.ontology id).axioms.any (·.mentions e m) with
  | true =>
    obtain ⟨b, hb, hmentions⟩ := List.any_eq_true.mp hany
    refine ⟨rfl, iff_of_true rfl ⟨b, hb, hmentions⟩, iff_of_false nofun fun hnone => ?_⟩
    rw [hnone b hb] at hmentions
    cases hmentions
  | false =>
    have hnone : ∀ b ∈ (w.ontology id).axioms, b.mentions e m = false :=
      fun b hb => Bool.eq_false_iff.mpr (List.any_eq_false.mp hany b hb)
    refine ⟨rfl, iff_of_false nofun ?_, iff_of_true rfl hnone⟩
    rintro ⟨b, hb, hmentions⟩
    rw [hnone b hb] at hmentions
    cases hmentions

/-- The world with one ontology, which has been taken out of its store. -/
def orphaned : World := World.single.detach 0 "o"

/-- The ontology is current, and the class that it declares is to be removed. -/
theorem unmanaged_unchanged_orphaned :
    let env : Env := { Env.plain with context := { Context.outermost with ontology := .handle (.ontology 0) } }
    orphaned.holds orphaned.installed 0 = false ∧
      (removeEntity (.entity 0 ⟨.cls, "c"⟩) .null env orphaned).1 = .error (Store.unmanaged orphaned 0) := by
  have hs : ∀ a ∈ (orphaned.ontology 0).axioms, a.IsStable := World.single_lawful.stable
  refine ⟨by decide, (unmanaged_unchanged rfl (by decide) hs (.declaration .null) 0 ⟨.cls, "c"⟩).2.2.2.1.mpr ?_⟩
  exact ⟨_, List.mem_cons_self, by decide⟩

/-- **A removal that is not refused**: no axiom of the ontology mentions the class. -/
theorem removes_nothing_unrefused :
    orphaned.holds orphaned.installed 0 = false ∧
      removeEntity (.entity 0 ⟨.cls, "d"⟩) (.handle (.ontology 0)) .plain orphaned = (.ok [], orphaned) ∧
      ∀ f, (removeEntity (.entity 0 ⟨.cls, "d"⟩) (.handle (.ontology 0)) .plain orphaned).1 ≠ .error f :=
  ⟨by decide, rfl, fun _ => nofun⟩

end Change

end Authoring
