import Authoring.Proofs.Distinct
import Authoring.Proofs.Term.Built
import Authoring.Store

/-!
# What adding and removing make of an ontology

An ontology is *lawful* if its axioms can be compared and no axiom finds an earlier one. Adding and removing
axioms keep it so. The axioms after several additions are the old ones followed by those of the new ones that
were not there, each once and in their order (`Ontology.addAll_axioms`); and from a lawful ontology, removing
the axioms that have a property leaves exactly the others, in their order (`Ontology.removeAll_filter`).

Nothing but the axioms is touched.
-/

namespace Authoring

/-- Whether an axiom, and all that it refers to, can be a member of a set. -/
def Axiom.IsStable (a : Axiom) : Prop := a.toTerm.isStable = true ∧ ∀ t ∈ a.signature, t.isStable = true

namespace Ontology

variable {o : Ontology} {a : Axiom} {as : List Axiom}

/-- An ontology whose axioms can be compared and are different. -/
structure Lawful (o : Ontology) : Prop where
  stable : ∀ a ∈ o.axioms, a.IsStable
  distinct : Distinct o.axioms

theorem add_eq (o : Ontology) (a : Axiom) :
    o.add a = { o with axioms := if o.axioms.contains a then o.axioms else o.axioms ++ [a] } := by
  unfold add
  split <;> rfl

/-- Adds axioms one by one. -/
def addAll (o : Ontology) (as : List Axiom) : Ontology := as.foldl add o

/-- Takes axioms away one by one. -/
def removeAll (o : Ontology) (as : List Axiom) : Ontology := as.foldl remove o

@[simp] theorem addAll_nil : o.addAll [] = o := rfl

@[simp] theorem addAll_cons : o.addAll (a :: as) = (o.add a).addAll as := rfl

@[simp] theorem removeAll_nil : o.removeAll [] = o := rfl

@[simp] theorem removeAll_cons : o.removeAll (a :: as) = (o.remove a).removeAll as := rfl

@[simp] theorem add_iri : (o.add a).iri = o.iri := by rw [add_eq]

@[simp] theorem remove_iri : (o.remove a).iri = o.iri := rfl

/-- What is true of all axioms and of one that is added is true of all afterwards. -/
theorem forall_axioms_add {P : Axiom → Prop} (h : ∀ b ∈ o.axioms, P b) (ha : P a) : ∀ b ∈ (o.add a).axioms, P b := by
  rw [add_eq]
  dsimp only
  split
  · exact h
  · exact List.forall_mem_append.mpr ⟨h, List.forall_mem_singleton.mpr ha⟩

/-- The axioms that are not there yet, each once and in their order. -/
def fresh (o : Ontology) (as : List Axiom) : List Axiom :=
  (as.filter fun a => !o.axioms.contains a).eraseDups

theorem addAll_eq (o : Ontology) (as : List Axiom) :
    o.addAll as = { o with axioms := o.axioms ++ o.fresh as } := by
  rw [fresh, ← Distinct.foldl_insert]
  induction as generalizing o with
  | nil => rfl
  | cons a as ih =>
    rw [addAll_cons, ih, add_eq]
    rfl

/-- **Adding axioms** puts those that are not there at the end. -/
theorem addAll_axioms (o : Ontology) (as : List Axiom) : (o.addAll as).axioms = o.axioms ++ o.fresh as := by
  rw [addAll_eq]

theorem addAll_iri : (o.addAll as).iri = o.iri := by rw [addAll_eq]

theorem addAll_append (o : Ontology) (as bs : List Axiom) : o.addAll (as ++ bs) = (o.addAll as).addAll bs :=
  List.foldl_append

theorem removeAll_eq (o : Ontology) (as : List Axiom) :
    o.removeAll as = { o with axioms := as.foldl (fun l a => l.eraseP (a == ·)) o.axioms } := by
  induction as generalizing o with
  | nil => rfl
  | cons a as ih =>
    rw [removeAll_cons, ih]
    rfl

/-- **Removing the axioms with a property** leaves the others. -/
theorem removeAll_filter (h : o.Lawful) (p : Axiom → Bool) :
    o.removeAll (o.axioms.filter p) = { o with axioms := o.axioms.filter (!p ·) } := by
  rw [removeAll_eq, Distinct.foldl_eraseP p h.distinct]

theorem mem_fresh (h : a ∈ o.fresh as) : a ∈ as ∧ o.axioms.contains a = false := by
  obtain ⟨ha, hc⟩ := List.mem_filter.mp (Distinct.mem_of_mem_eraseDups h)
  exact ⟨ha, by simpa using hc⟩

/-- Axioms that have been added are there. -/
theorem contains_addAll (h : a ∈ as) : (o.addAll as).axioms.contains a = true := by
  rw [addAll_axioms, List.contains_iff_exists_mem_beq]
  cases hc : o.axioms.contains a with
  | true =>
    obtain ⟨b, hb, hab⟩ := List.contains_iff_exists_mem_beq.mp hc
    exact ⟨b, List.mem_append_left _ hb, hab⟩
  | false =>
    have hnew : a ∈ as.filter fun a => !o.axioms.contains a := List.mem_filter.mpr ⟨h, by rw [hc]; rfl⟩
    obtain ⟨b, hb, hab⟩ := Distinct.exists_mem_eraseDups hnew
    exact ⟨b, List.mem_append_right _ hb, hab⟩

/-- Axioms that are there already change nothing. -/
theorem addAll_of_contains (h : ∀ a ∈ as, o.axioms.contains a = true) : o.addAll as = o := by
  have hfresh : o.fresh as = [] := by
    rw [fresh, List.filter_eq_nil_iff.mpr fun a ha => by simp [h a ha], List.eraseDups_nil]
  rw [addAll_eq, hfresh, List.append_nil]

/-- What has been added to an ontology is there after further additions. -/
theorem contains_addAll_addAll (h : o.axioms.contains a = true) (as : List Axiom) :
    (o.addAll as).axioms.contains a = true := by
  obtain ⟨b, hb, hab⟩ := List.contains_iff_exists_mem_beq.mp h
  rw [addAll_axioms]
  exact List.contains_iff_exists_mem_beq.mpr ⟨b, List.mem_append_left _ hb, hab⟩

/-! ## Lawful ontologies -/

namespace Lawful

/-- Leaving axioms out keeps an ontology lawful. -/
theorem of_sublist {o' : Ontology} (h : o.Lawful) (hs : o'.axioms.Sublist o.axioms) : o'.Lawful :=
  ⟨fun a ha => h.stable a (hs.subset ha), h.distinct.sublist hs⟩

theorem addAll (h : o.Lawful) (has : ∀ a ∈ as, a.IsStable) : (o.addAll as).Lawful := by
  have hfresh : ∀ a ∈ o.fresh as, a ∈ as ∧ o.axioms.contains a = false := fun _ => mem_fresh
  constructor
  · intro a ha
    rw [addAll_axioms] at ha
    rcases List.mem_append.mp ha with ha | ha
    · exact h.stable a ha
    · exact has a (hfresh a ha).1
  · rw [addAll_axioms]
    exact h.distinct.append (Distinct.eraseDups _) fun b hb => (hfresh b hb).2

theorem add (h : o.Lawful) (ha : a.IsStable) : (o.add a).Lawful :=
  h.addAll fun _ hb => List.mem_singleton.mp hb ▸ ha

theorem remove (h : o.Lawful) (a : Axiom) : (o.remove a).Lawful := h.of_sublist List.eraseP_sublist

end Lawful

theorem removeAll_sublist (o : Ontology) (as : List Axiom) : (o.removeAll as).axioms.Sublist o.axioms := by
  induction as generalizing o with
  | nil => exact List.Sublist.refl _
  | cons a as ih => exact (ih (o.remove a)).trans List.eraseP_sublist

end Ontology

/-! ## What axioms mention -/

namespace Axiom

variable {a : Axiom} {e : Entity} {m n : Nat}

/-- Whether the axiom mentions what a term is. Nothing but an entity is mentioned. -/
def isAbout (a : Axiom) : Term → Bool
  | .entity m e => a.mentions e m
  | _ => false

/-- An axiom refers to an entity if the entity occurs in it, made by whatever factory. -/
theorem signature_contains_entity :
    a.signature.contains (.entity m e) = true ↔ ∃ n, Term.entity n e ∈ Term.referentsAll a.operands := by
  rw [List.contains_iff_exists_mem_beq]
  constructor
  · rintro ⟨t, ht, h⟩
    obtain ⟨n, rfl⟩ := Term.entity_agrees.mp h
    exact ⟨n, Distinct.mem_of_mem_eraseDups ht⟩
  · rintro ⟨n, hn⟩
    obtain ⟨t, ht, h⟩ := Distinct.exists_mem_eraseDups hn
    obtain ⟨p, rfl⟩ := Term.entity_agrees.mp h
    exact ⟨_, ht, Term.entity_agrees.mpr ⟨p, rfl⟩⟩

/-- Which factory made the entity does not matter. -/
theorem mentions_maker : a.mentions e m = a.mentions e n := by
  rw [mentions, mentions, Bool.eq_iff_iff, Bool.or_eq_true, Bool.or_eq_true, signature_contains_entity,
    signature_contains_entity]

end Axiom

end Authoring
