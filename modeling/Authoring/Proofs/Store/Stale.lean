import Authoring.Proofs.Creation
import Mathlib.Logic.Relation

/-!
# Stale handles

A handle denotes one ontology for good. When the store removes this ontology, or replaces it by another one of the same
IRI, the handle goes on denoting it, and is stale. The operations of a store are its six ways of changing
(`Store.Operation`): creating and removing ontologies, and the four changes of what an ontology contains.

**Along every run of a store** it lists at most one ontology for each IRI, and every ontology under its own IRI
(`World.Proper`). An ontology that it no longer holds is never held again and never changes again, removing it answers
that it was not there, and no operation on it changes anything at all (`World.Inert`). `Store.Run.inert` says both.

**What carries the proof.** `Store.Outcome` lists what an operation can make of the ontologies and of the store, whether
it fails or not: nothing, an edit of an ontology that is held, a removal, or a new ontology in the place of the one that
has its IRI. `Operation.run_comes` goes through the operations, and everything else goes through the outcomes. Only an
ontology that is held is edited, and only an ontology that is new gets into the store.

**What is assumed.** The remove hooks leave the ontologies and the stores alone (`Env.Abstains`). They may fail, which
can keep a new ontology from being made, but does not bring the old one back.
-/

namespace Authoring

/-! ## Worlds -/

namespace World

variable {w w' w'' : World} {s id : Nat}

/-- Two worlds with the same ontologies and the same stores. -/
structure SameStored (w w' : World) : Prop where
  ontologies : w'.ontologies = w.ontologies
  stores : w'.stores = w.stores

namespace SameStored

theorem refl (w : World) : w.SameStored w := ⟨rfl, rfl⟩

theorem trans (h : w.SameStored w') (h' : w'.SameStored w'') : w.SameStored w'' :=
  ⟨h'.ontologies.trans h.ontologies, h'.stores.trans h.stores⟩

theorem ontology (h : w.SameStored w') (id : Nat) : w'.ontology id = w.ontology id := by
  rw [World.ontology, World.ontology, h.ontologies]

theorem store (h : w.SameStored w') (s : Nat) : w'.store s = w.store s := by
  rw [World.store, World.store, h.stores]

theorem holds (h : w.SameStored w') (s id : Nat) : w'.holds s id = w.holds s id := by
  rw [World.holds, World.holds, World.located, World.located, h.store, h.ontology]

/-- A new ontology takes its place in a store whatever else is in the world. -/
theorem allocate_attach (h : w.SameStored w') (s : Nat) (iri : String) (abbreviation : Term) :
    ((w.allocate iri abbreviation).1.attach s w.ontologies.length).SameStored
      ((w'.allocate iri abbreviation).1.attach s w'.ontologies.length) := by
  constructor
  · show w'.ontologies ++ _ = w.ontologies ++ _
    rw [h.ontologies]
  · simp only [attach, allocate, setStore, World.store, World.ontology, h.ontologies, h.stores]

end SameStored

/-- **A store in order**: it lists at most one ontology for each IRI, and each under the IRI that it has. -/
structure Proper (s : Nat) (w : World) : Prop where
  exists_store : s < w.stores.length
  distinct : ((w.store s).entries.map (·.1)).Nodup
  own : ∀ e ∈ (w.store s).entries, e.2 < w.ontologies.length ∧ (w.ontology e.2).iri = e.1

/-- An ontology that there is, and that a store does not hold. -/
structure Stale (s id : Nat) (w : World) : Prop where
  exists_ontology : id < w.ontologies.length
  gone : w.holds s id = false

theorem Proper.of_sameStored (h : w.Proper s) (hw : w.SameStored w') : w'.Proper s where
  exists_store := hw.stores ▸ h.exists_store
  distinct := hw.store s ▸ h.distinct
  own e he := by
    rw [hw.ontologies, hw.ontology]
    exact h.own e (hw.store s ▸ he)

theorem Stale.of_sameStored (h : w.Stale s id) (hw : w.SameStored w') : w'.Stale s id :=
  ⟨hw.ontologies ▸ h.exists_ontology, hw.holds s id ▸ h.gone⟩

theorem Proper.setOntology (h : w.Proper s) {o : Ontology} (ho : o.iri = (w.ontology id).iri) :
    (w.setOntology id o).Proper s where
  exists_store := h.exists_store
  distinct := h.distinct
  own e he := by
    obtain ⟨hlt, hown⟩ := h.own e he
    exact ⟨by rwa [World.setOntology, List.length_set], (setOntology_iri ho e.2).trans hown⟩

theorem length_supplant_stores {iri : String} {abbreviation : Term} :
    (w.supplant s iri abbreviation).stores.length = w.stores.length := by
  show ((w.vacate s iri).stores.set s _).length = _
  rw [List.length_set, length_vacate_stores]

/-- In a list in which no key occurs twice, a key finds the entries that have it. -/
theorem lookup_eq_some_of_mem {es : List (String × Nat)} (hd : (es.map (·.1)).Nodup) {e : String × Nat}
    (he : e ∈ es) : es.lookup e.1 = some e.2 := by
  induction es with
  | nil => cases he
  | cons f es ih =>
    obtain ⟨hf, hd⟩ := List.nodup_cons.mp hd
    rw [Keyed.lookup_first]
    rcases List.mem_cons.mp he with rfl | he
    · rw [BEq.rfl, if_pos rfl]
    · have hne : e.1 ≠ f.1 := fun heq => hf (List.mem_map.mpr ⟨e, he, heq⟩)
      rw [beq_false_of_ne hne, if_neg Bool.false_ne_true]
      exact ih hd he

/-- A store in order holds what it lists. -/
theorem Proper.holds_iff (h : w.Proper s) : w.holds s id = true ↔ id ∈ w.listed s := by
  constructor
  · intro hid
    have hlookup : (w.store s).entries.lookup (w.ontology id).iri = some id := by simpa [holds, located] using hid
    obtain ⟨l, l', hl, -⟩ := List.lookup_eq_some_iff.mp hlookup
    exact List.mem_map.mpr ⟨(_, id), hl ▸ List.mem_append_right _ List.mem_cons_self, rfl⟩
  · intro hid
    obtain ⟨e, he, rfl⟩ := List.mem_map.mp hid
    rw [holds, located, (h.own e he).2, lookup_eq_some_of_mem h.distinct he]
    exact beq_self_eq_true _

theorem stale_iff (h : w.Proper s) : w.Stale s id ↔ id < w.ontologies.length ∧ id ∉ w.listed s := by
  rw [← h.holds_iff, Bool.not_eq_true]
  exact ⟨fun h => ⟨h.1, h.2⟩, fun h => ⟨h.1, h.2⟩⟩

end World

/-- Remove hooks that leave the ontologies and the stores alone. -/
def Env.Abstains (env : Env) (hooks : List Hook) : Prop :=
  ∀ callee, Hook.user callee ∈ hooks → ∀ (id : Nat) (v : World),
    v.SameStored (Act.invoke callee [.handle (.ontology id)] env v).2

namespace Store

open Act

variable {env : Env} {w w' : World} {s id : Nat}

/-! ## Operations -/

/-- The ways in which a store, and what it holds, is changed. -/
inductive Operation where
  | create (iri abbreviation : Term)
  | remove (t : Term)
  | add (ontology t : Term)
  | discard (ontology t : Term)
  | addImport (ontology imported : Term)
  | annotate (ontology t : Term)

namespace Operation

def run (s : Nat) : Operation → Act Unit
  | create iri abbreviation => do let _ ← Store.create s iri abbreviation
  | remove t => do let _ ← Store.remove s t
  | add o t => do let _ ← Store.add s o t
  | discard o t => do let _ ← Store.discard s o t
  | addImport o t => Store.addImport s o t
  | annotate o t => Store.annotate s o t

/-- What an operation is given as the ontology to work on. -/
def target : Operation → Option Term
  | create .. => none
  | remove t => some t
  | add o _ | discard o _ | addImport o _ | annotate o _ => some o

end Operation

/-- **What an operation can make** of the ontologies and of a store. -/
inductive Outcome (s : Nat) (w : World) : World → Prop
  | kept : Outcome s w w
  | edited {id : Nat} {o : Ontology} (h : w.holds s id = true) (hiri : o.iri = (w.ontology id).iri) :
    Outcome s w (w.setOntology id o)
  | removed (iri : String) : Outcome s w (w.vacate s iri)
  | created (iri : String) (abbreviation : Term) : Outcome s w (w.supplant s iri abbreviation)

/-- What an act has made of a world is an outcome, so far as the ontologies and the stores go. -/
def Comes (s : Nat) (w w' : World) : Prop := ∃ v, Outcome s w v ∧ v.SameStored w'

theorem Outcome.comes (h : Outcome s w w') : Comes s w w' := ⟨w', h, .refl w'⟩

/-! ### Removing and creating -/

/-- An act whose answer is left out leaves what the act leaves. -/
theorem run_answered {α β : Type} (x : Act α) (b : β) (env : Env) (w : World) :
    ((do let _ ← x; return b : Act β) env w).2 = (x env w).2 := by
  rw [run_bind]
  rcases x env w with ⟨_ | _, v⟩ <;> rfl

theorem hooks_sameStored {hooks : List Hook} (h : env.Abstains hooks) (id : Nat) (v : World) :
    v.SameStored (hooks.forM (runHook id) env v).2 := by
  refine forM_keeps .refl .trans (fun hook hhook v => ?_) v
  cases hook with
  | forget => exact ⟨rfl, rfl⟩
  | user callee =>
    rw [runHook, run_answered]
    exact h callee hhook id v

/-- Taking out the ontology under an IRI, whatever the hooks do. -/
theorem detach_vacates {iri : String} (h : env.Abstains (w.store s).hooks) (hid : w.located s iri = some id) :
    (w.vacate s iri).SameStored (detach s iri id env w).2 := by
  have hvacate : (w.vacate s iri).SameStored (w.detach s iri) := by
    rw [World.vacate, hid]
    exact ⟨rfl, rfl⟩
  rw [detach, run_bind, run_get]
  dsimp only
  rw [run_bind, run_modify]
  exact hvacate.trans (hooks_sameStored h id _)

/-- Removing what a store has under an IRI, which is what a term is displayed as. -/
theorem remove_vacates {t : Term} {iri : String} (h : env.Abstains (w.store s).hooks)
    (ht : display t env w = (.ok iri, w)) (hne : ∀ id, t ≠ .handle (.ontology id)) :
    (w.vacate s iri).SameStored (remove s t env w).2 := by
  rw [remove.eq_2 s t hne, run_bind, ht]
  dsimp only
  rw [run_bind, run_get]
  dsimp only
  cases hid : w.located s iri with
  | none =>
    rw [World.vacate, hid]
    exact .refl w
  | some id =>
    rw [run_answered]
    exact detach_vacates h hid

theorem remove_handle_vacates (h : env.Abstains (w.store s).hooks) (hid : w.holds s id = true) :
    (w.vacate s (w.ontology id).iri).SameStored (remove s (.handle (.ontology id)) env w).2 := by
  have hlocated : w.located s (w.ontology id).iri = some id := by simpa [World.holds] using hid
  have hremove : remove s (.handle (.ontology id)) env w =
      (if w.holds s id then (do detach s (w.ontology id).iri id; return true : Act Bool) else return false) env w := rfl
  rw [hremove, if_pos hid, run_answered]
  exact detach_vacates h hlocated

theorem run_remove_stale (h : w.holds s id = false) (env : Env) :
    remove s (.handle (.ontology id)) env w = (.ok false, w) := by
  show (if w.holds s id then (do detach s (w.ontology id).iri id; return true : Act Bool) else return false) env w = _
  rw [h]
  rfl

theorem remove_comes (h : env.Abstains (w.store s).hooks) (t : Term) : Comes s w (remove s t env w).2 := by
  by_cases ht : ∃ id, t = .handle (.ontology id)
  · obtain ⟨id, rfl⟩ := ht
    cases hid : w.holds s id with
    | true => exact ⟨_, .removed _, remove_handle_vacates h hid⟩
    | false =>
      rw [run_remove_stale hid]
      exact Outcome.kept.comes
  · exact ⟨_, .removed _, remove_vacates h rfl fun id heq => ht ⟨id, heq⟩⟩

/-- Creating an ontology puts it in the place of the one that has its IRI, or a hook fails and the place is left
empty. -/
theorem create_supplants (h : env.Abstains (w.store s).hooks) {t : Term} {iri : String}
    (ht : display t env w = (.ok iri, w)) (abbreviation : Term) :
    (w.vacate s iri).SameStored (create s t abbreviation env w).2 ∨
      (w.supplant s iri abbreviation).SameStored (create s t abbreviation env w).2 := by
  have hvacate : (w.vacate s iri).SameStored (remove s (.iri iri) env w).2 := remove_vacates h rfl nofun
  rw [create, run_bind, ht]
  dsimp only
  rw [run_bind]
  rcases hrun : remove s (.iri iri) env w with ⟨_ | _, v⟩ <;> rw [hrun] at hvacate
  · exact .inl hvacate
  · exact .inr (hvacate.allocate_attach s iri abbreviation)

theorem create_comes (h : env.Abstains (w.store s).hooks) (t abbreviation : Term) :
    Comes s w (create s t abbreviation env w).2 := by
  rcases create_supplants h (t := t) rfl abbreviation with hsame | hsame
  · exact ⟨_, .removed _, hsame⟩
  · exact ⟨_, .created _ abbreviation, hsame⟩

/-! ### Changes -/

/-- Where a store does not hold the target, a change is refused. -/
theorem requireManaged_refused (h : w.holds s id = false) :
    Refused env (requireManaged s (.handle (.ontology id))) w := by
  have hc : contains s (.handle (.ontology id)) env w = (.ok false, w) := by
    rw [← h]
    rfl
  exact .after hc (.after (run_inspect _ env w) .throw)

/-- A change that asks whether the store holds the target, and then reads, comes down to what it does to an ontology that
is held. -/
theorem change_comes {α β : Type} {target : Term} {x : Act α} {f : α → Nat → Act β} (hx : Reads x)
    (hf : ∀ a id, w.holds s id = true → Comes s w (f a id env w).2) :
    Comes s w ((do requireManaged s target; let a ← x; f a (← asOntology target)) env w).2 := by
  by_cases ht : ∃ id, target = .handle (.ontology id) ∧ w.holds s id = true
  · obtain ⟨id, rfl, hid⟩ := ht
    have hmanaged := (requireManaged_reads s (.handle (.ontology id))) env w
    rw [run_bind]
    rcases hrun : requireManaged s (.handle (.ontology id)) env w with ⟨_ | _, w₁⟩ <;> rw [hrun] at hmanaged <;>
      subst hmanaged
    · exact Outcome.kept.comes
    have hread := hx env w₁
    dsimp only
    rw [run_bind]
    rcases hrun : x env w₁ with ⟨_ | a, w₂⟩ <;> rw [hrun] at hread <;> subst hread
    · exact Outcome.kept.comes
    · exact hf a id hid
  · have hrefused : Refused env (do requireManaged s target; let a ← x; f a (← asOntology target)) w :=
      refused_of_not (fun id htarget => Bool.eq_false_iff.mpr fun hid => ht ⟨id, htarget, hid⟩) hx
    obtain ⟨e, hrun⟩ := hrefused
    rw [hrun]
    exact Outcome.kept.comes

/-- Another ontology at the place of one that is held, under the same IRI, is an edit. -/
theorem Comes.edit {o : Ontology} (h : w.holds s id = true) (hiri : o.iri = (w.ontology id).iri) :
    Comes s w (w.setOntology id o) := (Outcome.edited h hiri).comes

theorem Comes.requireStable {α : Type} {t : Term} {x : Act α} (h : Comes s w (x env w).2) :
    Comes s w ((do requireStable t; x) env w).2 := by
  rw [run_bind]
  cases ht : t.isStable with
  | true =>
    rw [run_requireStable ht]
    exact h
  | false =>
    rw [run_requireStable_of_not ht]
    exact Outcome.kept.comes

/-- The answer of an act does not count. -/
theorem Comes.forget {α : Type} {x : Act α} (h : Comes s w (x env w).2) :
    Comes s w ((do let _ ← x : Act Unit) env w).2 := by
  rw [run_answered]
  exact h

theorem addImport_comes (target imported : Term) : Comes s w (addImport s target imported env w).2 := by
  refine change_comes (.iriOf imported) fun iri id hid => ?_
  rw [run_modify]
  dsimp only
  split
  · exact Outcome.kept.comes
  · exact .edit hid rfl

theorem annotate_comes (target t : Term) : Comes s w (annotate s target t env w).2 := by
  cases hnote : Note.ofTerm? t with
  | none =>
    have hreads : Reads (annotate s target t) := by
      refine .bind (requireManaged_reads s target) fun _ => ?_
      rw [hnote]
      exact .bind (fun _ _ => rfl) fun _ => .throw _
    rw [hreads env w]
    exact Outcome.kept.comes
  | some a =>
    have hannotate : annotate s target t = (do
        requireManaged s target
        let n ← (pure a : Act Note)
        let id ← asOntology target
        modify fun w =>
          let o := w.ontology id
          let new := w.settle n.toTerm
          if o.annotations.any (fun b => (w.settle b.toTerm).agrees false false new) then w
          else w.setOntology id { o with annotations := o.annotations ++ [n] }) := by
      rw [annotate, hnote]
      simp only [pure_bind]
    rw [hannotate]
    refine change_comes (.pure a) fun n id hid => ?_
    rw [run_modify]
    dsimp only
    split
    · exact Outcome.kept.comes
    · exact .edit hid rfl

/-- **What an operation of a store does**, whether it fails or not. -/
theorem Operation.run_comes (h : env.Abstains (w.store s).hooks) (op : Operation) : Comes s w (op.run s env w).2 := by
  cases op with
  | create iri abbreviation => exact (create_comes h iri abbreviation).forget
  | remove t => exact (remove_comes h t).forget
  | add o t =>
    exact (change_comes (requireAxiom_reads t) fun a id hid => .requireStable (.edit hid Ontology.add_iri)).forget
  | discard o t =>
    exact (change_comes (requireAxiom_reads t) fun a id hid => .requireStable (.edit hid Ontology.remove_iri)).forget
  | addImport o t => exact addImport_comes o t
  | annotate o t => exact annotate_comes o t

/-! ## What the outcomes keep -/

/-- The entries of a store from which what is under an IRI has been taken. -/
theorem erase_proper (h : w.Proper s) (iri : String) :
    ((Keyed.erase iri (w.store s).entries).map (·.1)).Nodup ∧
      ∀ e ∈ Keyed.erase iri (w.store s).entries, e ∈ (w.store s).entries ∧ e.1 ≠ iri := by
  refine ⟨h.distinct.sublist (List.filter_sublist.map _), fun e he => ?_⟩
  obtain ⟨hmem, hne⟩ := List.mem_filter.mp he
  exact ⟨hmem, fun heq => by simp [heq] at hne⟩

theorem Outcome.proper (ho : Outcome s w w') (h : w.Proper s) : w'.Proper s := by
  cases ho with
  | kept => exact h
  | edited _ hiri => exact h.setOntology hiri
  | removed iri =>
    obtain ⟨hdistinct, hmem⟩ := erase_proper h iri
    refine ⟨?_, ?_, fun e he => ?_⟩
    · rw [World.length_vacate_stores]
      exact h.exists_store
    · rwa [World.vacate_entries h.exists_store]
    · rw [World.vacate_entries h.exists_store] at he
      rw [World.ontology, World.vacate_ontologies]
      exact h.own e (hmem e he).1
  | created iri abbreviation =>
    obtain ⟨hdistinct, hmem⟩ := erase_proper h iri
    refine ⟨?_, ?_, fun e he => ?_⟩
    · rw [World.length_supplant_stores]
      exact h.exists_store
    · rw [World.supplant_entries h.exists_store, List.map_append, List.nodup_append]
      refine ⟨hdistinct, by simp, fun i hi j hj => ?_⟩
      obtain ⟨e, he, rfl⟩ := List.mem_map.mp hi
      rw [List.mem_singleton.mp hj]
      exact (hmem e he).2
    · rw [World.supplant_entries h.exists_store] at he
      rw [World.supplant_ontologies, List.length_append]
      rcases List.mem_append.mp he with he | he
      · obtain ⟨hlt, hown⟩ := h.own e (hmem e he).1
        exact ⟨Nat.lt_add_right _ hlt, by rw [World.supplant_ontology_of_lt hlt, hown]⟩
      · rw [List.mem_singleton.mp he, World.supplant_ontology_new]
        exact ⟨Nat.lt_add_one _, rfl⟩

/-- **What is stale stays stale**, and stays as it is. -/
theorem Outcome.stale (ho : Outcome s w w') (h : w.Proper s) (hid : w.Stale s id) :
    w'.Stale s id ∧ w'.ontology id = w.ontology id := by
  obtain ⟨hlt, hlisted⟩ := (World.stale_iff h).mp hid
  have h' := ho.proper h
  rw [World.stale_iff h']
  cases ho with
  | kept => exact ⟨⟨hlt, hlisted⟩, rfl⟩
  | @edited j o hj hiri =>
    have hne : id ≠ j := by
      rintro rfl
      rw [hid.gone] at hj
      cases hj
    refine ⟨⟨?_, hlisted⟩, World.ontology_setOntology_of_ne hne⟩
    rwa [World.setOntology, List.length_set]
  | removed iri =>
    refine ⟨⟨by rwa [World.vacate_ontologies], fun hmem => hlisted ?_⟩, by rw [World.ontology, World.vacate_ontologies]; rfl⟩
    rw [World.listed, World.vacate_entries h.exists_store] at hmem
    exact (List.filter_sublist.map _).subset hmem
  | created iri abbreviation =>
    refine ⟨⟨?_, fun hmem => ?_⟩, World.supplant_ontology_of_lt hlt⟩
    · rw [World.supplant_ontologies, List.length_append]
      exact Nat.lt_add_right _ hlt
    · rw [World.listed, World.supplant_entries h.exists_store, List.map_append] at hmem
      rcases List.mem_append.mp hmem with hmem | hmem
      · exact hlisted ((List.filter_sublist.map _).subset hmem)
      · exact Nat.lt_irrefl _ (List.mem_singleton.mp hmem ▸ hlt)

/-! ## How an ontology becomes stale -/

theorem vacate_stale (h : w.Proper s) {iri : String} (hid : w.located s iri = some id) :
    (w.vacate s iri).Stale s id := by
  obtain ⟨l, l', hl, -⟩ := List.lookup_eq_some_iff.mp hid
  obtain ⟨hlt, hown⟩ := h.own (iri, id) (hl ▸ List.mem_append_right _ List.mem_cons_self)
  rw [World.stale_iff ((Outcome.removed iri).proper h), World.vacate_ontologies]
  refine ⟨hlt, fun hmem => ?_⟩
  rw [World.listed, World.vacate_entries h.exists_store] at hmem
  obtain ⟨e, he, rfl⟩ := List.mem_map.mp hmem
  obtain ⟨hmem, hne⟩ := (erase_proper h iri).2 e he
  exact hne ((h.own e hmem).2.symm.trans hown)

theorem supplant_stale (h : w.Proper s) {iri : String} (hid : w.located s iri = some id) (abbreviation : Term) :
    (w.supplant s iri abbreviation).Stale s id := by
  obtain ⟨hlt, hlisted⟩ := (World.stale_iff ((Outcome.removed iri).proper h)).mp (vacate_stale h hid)
  rw [World.vacate_ontologies] at hlt
  rw [World.stale_iff ((Outcome.created iri abbreviation).proper h), World.supplant_ontologies, List.length_append]
  refine ⟨Nat.lt_add_right _ hlt, fun hmem => ?_⟩
  rw [World.listed, World.supplant_entries h.exists_store, List.map_append] at hmem
  rw [World.listed, World.vacate_entries h.exists_store] at hlisted
  rcases List.mem_append.mp hmem with hmem | hmem
  · exact hlisted hmem
  · exact Nat.lt_irrefl _ (List.mem_singleton.mp hmem ▸ hlt)

/-- **An ontology that is removed** is stale from then on. -/
theorem remove_stale (h : w.Proper s) (hooks : env.Abstains (w.store s).hooks) (hid : w.holds s id = true) :
    (remove s (.handle (.ontology id)) env w).2.Stale s id := by
  have hlocated : w.located s (w.ontology id).iri = some id := by simpa [World.holds] using hid
  exact (vacate_stale h hlocated).of_sameStored (remove_handle_vacates hooks hid)

/-- **An ontology that is replaced** is stale from then on. -/
theorem create_stale (h : w.Proper s) (hooks : env.Abstains (w.store s).hooks) {t : Term} {iri : String}
    (ht : display t env w = (.ok iri, w)) (hid : w.located s iri = some id) (abbreviation : Term) :
    (create s t abbreviation env w).2.Stale s id := by
  rcases create_supplants hooks ht abbreviation with hsame | hsame
  · exact (vacate_stale h hid).of_sameStored hsame
  · exact (supplant_stale h hid abbreviation).of_sameStored hsame

/-! ## Runs -/

/-- One operation on a store, in whatever environment. The remove hooks that the store has then leave the ontologies and
the stores alone. -/
def Step (s : Nat) (w w' : World) : Prop :=
  ∃ (env : Env) (op : Operation), env.Abstains (w.store s).hooks ∧ w' = (op.run s env w).2

/-- **A run of a store**: operations in any order, of which any may fail. -/
def Run (s : Nat) : World → World → Prop := Relation.ReflTransGen (Step s)

end Store

/-- **An ontology that does nothing any more**: it is held no more and is as it was before, removing it answers that it
is not there, and no operation that is given it does anything. -/
structure World.Inert (s id : Nat) (w w' : World) : Prop where
  gone : w'.holds s id = false
  unchanged : w'.ontology id = w.ontology id
  removal : ∀ env, Store.remove s (.handle (.ontology id)) env w' = (.ok false, w')
  target : ∀ env (op : Store.Operation), op.target = some (.handle (.ontology id)) → (op.run s env w').2 = w'

namespace Store

open Act

variable {w w' : World} {s id : Nat}

/-- An operation on an ontology that the store does not hold does nothing. -/
theorem Operation.run_stale (h : w.holds s id = false) {op : Operation} (ht : op.target = some (.handle (.ontology id)))
    (env : Env) : (op.run s env w).2 = w := by
  have refused : ∀ {x : Act Unit}, Refused env x w → (x env w).2 = w := by
    rintro x ⟨e, hrun⟩
    rw [hrun]
  have managed : ∀ {α : Type} {f : Unit → Act α}, Refused env (requireManaged s (.handle (.ontology id)) >>= f) w :=
    fun {_ _} => .first (requireManaged_refused h)
  cases op <;> cases ht
  case remove =>
    rw [run, run_bind, run_remove_stale h]
    rfl
  case add => exact refused (.first managed)
  case discard => exact refused (.first managed)
  case addImport => exact refused managed
  case annotate => exact refused managed

/-- What a run keeps: the store stays in order, and what is stale stays stale and as it is. -/
theorem Run.keeps (hrun : Run s w w') (h : w.Proper s) :
    w'.Proper s ∧ ∀ id, w.Stale s id → w'.Stale s id ∧ w'.ontology id = w.ontology id := by
  induction hrun with
  | refl => exact ⟨h, fun id hid => ⟨hid, rfl⟩⟩
  | tail _ hstep ih =>
    obtain ⟨env, op, hooks, rfl⟩ := hstep
    obtain ⟨v, hv, hsame⟩ := op.run_comes hooks
    refine ⟨(hv.proper ih.1).of_sameStored hsame, fun id hid => ?_⟩
    obtain ⟨hstale, hunchanged⟩ := ih.2 id hid
    obtain ⟨hstale', hunchanged'⟩ := hv.stale ih.1 hstale
    exact ⟨hstale'.of_sameStored hsame, (hsame.ontology id).trans (hunchanged'.trans hunchanged)⟩

/-- **Stale handles are inert.** At every point of a run the store is in order, and each ontology that has been made and
is not held there does nothing any more at any later point. -/
theorem Run.inert {w₁ w₂ : World} (h : w.Proper s) (hrun : Run s w w₁) (hrest : Run s w₁ w₂) :
    w₁.Proper s ∧ ∀ id < w₁.ontologies.length, w₁.holds s id = false → w₁.Inert s id w₂ := by
  have h₁ := (hrun.keeps h).1
  refine ⟨h₁, fun id hlt hgone => ?_⟩
  obtain ⟨hstale, hunchanged⟩ := (hrest.keeps h₁).2 id ⟨hlt, hgone⟩
  exact ⟨hstale.gone, hunchanged, run_remove_stale hstale.gone,
    fun env op ht => Operation.run_stale hstale.gone ht env⟩

theorem watched_proper : World.watched.Proper 0 where
  exists_store := Nat.one_pos
  distinct := by decide
  own e he := by
    rw [List.mem_singleton.mp he]
    exact ⟨Nat.one_pos, rfl⟩

/-- An ontology is replaced by one of the same IRI, to which an axiom is added then. -/
theorem Run.inert_replaced :
    let a : Term := (Axiom.declaration (.entity 0 ⟨.cls, "d"⟩)).toTerm
    let w₁ := ((Operation.create (.text "o") .null).run 0 .plain .watched).2
    let w₂ := ((Operation.add (.handle (.ontology 1)) a).run 0 .plain w₁).2
    (w₂.holds 0 1 = true ∧ (w₂.ontology 1).iri = (w₂.ontology 0).iri ∧ (w₂.ontology 1).axioms.length = 1) ∧
      w₁.Proper 0 ∧ w₁.Inert 0 0 w₂ := by
  intro a w₁ w₂
  have observes : ∀ w : World, (w.store 0).hooks = (World.watched.store 0).hooks →
      Env.plain.Abstains (w.store 0).hooks := by
    intro w hw callee hcallee id v
    rw [hw] at hcallee
    rcases List.mem_cons.mp hcallee with h | h
    · cases h
    · rw [Hook.user.inj (List.mem_singleton.mp h)]
      exact ⟨rfl, rfl⟩
  have hcreate : Step 0 .watched w₁ := ⟨_, _, observes _ rfl, rfl⟩
  have hadd : Step 0 w₁ w₂ := ⟨_, _, observes w₁ rfl, rfl⟩
  obtain ⟨hproper, hinert⟩ := Run.inert watched_proper (.single hcreate) (.single hadd)
  exact ⟨⟨by decide, by decide, by decide⟩, hproper, hinert 0 (by decide) (by decide)⟩

end Store

end Authoring
