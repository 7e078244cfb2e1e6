import Authoring.Proofs.Store

/-!
# What a change does

Additions to what is given as an ontology are made all together or not at all (`Change.addAxioms_cases`):
either it is an ontology that the installed store holds, and then none of the additions can fail, or the first
one is refused.

Removing an entity from an ontology that the store holds leaves exactly the axioms that do not mention it, in
their order (`Change.run_removeEntity`). A removal of anything else may fail on the way, but whatever happens
it only leaves axioms out, and of this ontology only (`Change.removeEntity_shrinks`,
`Change.remove_shrinks`).
-/

namespace Authoring

namespace Current

open Act

variable {env : Env} {w w' : World} {t o : Term}

theorem orGiven_of_ne_null (h : t ≠ .null) : orGiven t = pure t := by
  unfold orGiven
  split
  · exact absurd rfl h
  · rfl

/-- The current ontology is never null. -/
theorem ontology_ne_null {space : Term} (h : ontology space env w = (.ok o, w')) : o ≠ .null := by
  unfold ontology at h
  obtain ⟨c, w₁, -, h⟩ := bind_ok h
  dsimp only at h
  generalize c.ontology = bound at h
  split at h
  · obtain ⟨t, w₂, -, h⟩ := bind_ok h
    split at h
    · obtain ⟨s, w₃, -, h⟩ := bind_ok h
      obtain ⟨n, w₄, -, h⟩ := bind_ok h
      cases h
    · cases h
      assumption
  · cases h
    assumption

theorem orGiven_ne_null (h : orGiven t env w = (.ok o, w')) : o ≠ .null := by
  unfold orGiven at h
  split at h
  · exact ontology_ne_null h
  · cases h
    assumption

@[simp] theorem run_store (env : Env) (w : World) : store env w = (.ok w.installed, w) := rfl

end Current

/-! ## Worlds with fewer axioms -/

/-- The second world is the first with some axioms of an ontology left out. -/
def World.Shrinks (id : Nat) (w w' : World) : Prop :=
  ∃ o, o.axioms.Sublist (w.ontology id).axioms ∧ o.iri = (w.ontology id).iri ∧ w' = w.setOntology id o

namespace World.Shrinks

variable {w w' w'' : World} {id : Nat}

theorem refl (id : Nat) (w : World) : w.Shrinks id w :=
  ⟨w.ontology id, List.Sublist.refl _, rfl, setOntology_ontology.symm⟩

theorem manages (h : w.Shrinks id w') (hm : w.Manages id) : w'.Manages id := by
  obtain ⟨o, -, hiri, rfl⟩ := h
  exact hm.setOntology hiri

theorem installed (h : w.Shrinks id w') : w'.installed = w.installed := by
  obtain ⟨o, -, -, rfl⟩ := h
  rfl

theorem sublist (h : w.Shrinks id w') (hm : w.Manages id) :
    (w'.ontology id).axioms.Sublist (w.ontology id).axioms := by
  obtain ⟨o, hs, -, rfl⟩ := h
  rwa [ontology_setOntology hm.exists_ontology]

theorem trans (h : w.Shrinks id w') (hm : w.Manages id) (h' : w'.Shrinks id w'') : w.Shrinks id w'' := by
  obtain ⟨o, hs, hiri, rfl⟩ := h
  obtain ⟨o', hs', hiri', rfl⟩ := h'
  rw [ontology_setOntology hm.exists_ontology] at hs' hiri'
  exact ⟨o', hs'.trans hs, hiri'.trans hiri, setOntology_setOntology⟩

theorem lawful (h : w.Shrinks id w') (hm : w.Manages id) (hl : (w.ontology id).Lawful) :
    (w'.ontology id).Lawful := hl.of_sublist (h.sublist hm)

/-- What is left of an ontology is the ontology, but for its axioms. -/
theorem removeAll (id : Nat) (w : World) (as : List Axiom) :
    w.Shrinks id (w.setOntology id ((w.ontology id).removeAll as)) :=
  ⟨_, Ontology.removeAll_sublist _ as, by rw [Ontology.removeAll_eq], rfl⟩

end World.Shrinks

/-! ## What is removed with an entity -/

namespace Query

open Act

variable {env : Env} {w : World} {id m : Nat} {e : Entity} {a : Axiom}

/-- Asking whether an axiom mentions an entity answers what the axiom mentions. -/
theorem run_mentions (ha : a.IsStable) (m : Nat) (e : Entity) (env : Env) (w : World) :
    mentions a (.entity m e) env w = (.ok (a.mentions e m), w) := by
  have hfind : requireFindable (.entity m e) env w = (.ok (), w) := run_requireStable rfl env w
  simp only [mentions, run_bind, run_forM_requireStable ha.2, hfind, Axiom.mentions]
  cases hs : a.signature.contains (.entity m e) with
  | true => rfl
  | false =>
    cases hk : a.kind == .annotationAssertion with
    | true => rfl
    | false => simp [Axiom.annotates, hk]

theorem mentions_reads (a : Axiom) (t : Term) : Reads (mentions a t) :=
  .bind (.forM .requireStable) fun _ => .bind (.requireFindable t) fun _ =>
    .ite (.pure _) (.ite (.bind (.iriOf t) fun _ => .pure _) (.pure _))

theorem run_referencing (hs : ∀ a ∈ (w.ontology id).axioms, a.IsStable) (m : Nat) (e : Entity) (env : Env) :
    referencing (.handle (.ontology id)) (.entity m e) env w =
      (.ok ((w.ontology id).axioms.filter fun a => a.mentions e m), w) :=
  run_filterM fun a ha => run_mentions (hs a ha) m e env w

theorem referencing_reads (ontology t : Term) : Reads (referencing ontology t) :=
  .bind (.bind (.asOntology ontology) fun _ _ _ => rfl) fun _ => .filterM fun a => mentions_reads a t

end Query

namespace Change

open Act

variable {env : Env} {w : World} {id : Nat} {a : Axiom} {as : List Axiom} {t : Term}

/-! ## Additions -/

theorem run_add (h : w.Manages id) (ha : a.toTerm.isStable = true) (env : Env) :
    add a.toTerm (.handle (.ontology id)) env w =
      (.ok a.toTerm, w.setOntology id ((w.ontology id).add a)) := by
  simp only [add, Current.orGiven_handle, run_bind, run_pure, Current.run_store, Store.run_add h ha]

/-- Additions to an ontology that the store holds are made one after the other. -/
theorem run_mapM_add (h : w.Manages id) (has : ∀ a ∈ as, a.toTerm.isStable = true) (env : Env) :
    (as.map Axiom.toTerm).mapM (fun t => add t (.handle (.ontology id))) env w =
      (.ok (as.map Axiom.toTerm), w.setOntology id ((w.ontology id).addAll as)) := by
  induction as generalizing w with
  | nil =>
    rw [List.map_nil, List.mapM_nil, run_pure, Ontology.addAll_nil, World.setOntology_ontology]
  | cons a as ih =>
    have hadd := run_add h (has a List.mem_cons_self) env
    have h' : (w.setOntology id ((w.ontology id).add a)).Manages id := h.setOntology Ontology.add_iri
    have htail := ih h' fun b hb => has b (List.mem_cons_of_mem _ hb)
    rw [World.ontology_setOntology h.exists_ontology, World.setOntology_setOntology] at htail
    rw [List.map_cons, List.mapM_cons, run_bind, hadd]
    simp only [run_bind, htail, run_pure, Ontology.addAll_cons]

theorem run_addAxioms (h : w.Manages id) (has : ∀ a ∈ as, a.toTerm.isStable = true) (env : Env) :
    addAxioms as (.handle (.ontology id)) env w =
      (.ok (), w.setOntology id ((w.ontology id).addAll as)) := by
  simp only [addAxioms, addEach, Current.orGiven_handle, run_bind, run_pure, run_mapM_add h has]

/-- **Additions are made all together or not at all.** -/
theorem addAxioms_cases (hw : w.Sound) (ht : t ≠ .null) (has : ∀ b ∈ a :: as, b.toTerm.isStable = true)
    (env : Env) :
    (∃ id, t = .handle (.ontology id) ∧ w.Manages id ∧
      addAxioms (a :: as) t env w = (.ok (), w.setOntology id ((w.ontology id).addAll (a :: as)))) ∨
    Refused env (addAxioms (a :: as) t) w := by
  by_cases h : ∃ id, t = .handle (.ontology id) ∧ w.holds w.installed id = true
  · obtain ⟨id, rfl, hid⟩ := h
    have hm := hw.manages hid
    exact .inl ⟨id, rfl, hm, run_addAxioms hm has env⟩
  · refine .inr (.first ?_)
    have hnot : ∀ id, t = .handle (.ontology id) → w.holds w.installed id = false := by
      intro id hid
      exact Bool.eq_false_iff.mpr fun hh => h ⟨id, hid, hh⟩
    have hfirst : Refused env (add a.toTerm t) w := by
      rw [add, Current.orGiven_of_ne_null ht]
      exact .after rfl (.after rfl (.first (Store.run_add_of_not hnot)))
    rw [addEach, Current.orGiven_of_ne_null ht]
    refine .after rfl ?_
    rw [List.map_cons, List.mapM_cons]
    exact .first hfirst

section
variable {w' : World} {u : Term}

/-- What an addition has done, if it has ended without a fault. -/
theorem add_ok (ht : t ≠ .null) (h : add a.toTerm t env w = (.ok u, w')) :
    ∃ id, t = .handle (.ontology id) ∧ w' = w.setOntology id ((w.ontology id).add a) := by
  rw [add, Current.orGiven_of_ne_null ht, pure_bind] at h
  obtain ⟨store, w₁, hstore, hrest⟩ := bind_ok h
  cases hstore
  obtain ⟨new, w₁, hadd, hdone⟩ := bind_ok hrest
  cases hdone
  exact Store.add_ok hadd

theorem mapM_add_ok {ts : List Term}
    (h : (as.map Axiom.toTerm).mapM (fun t => add t (.handle (.ontology id))) env w = (.ok ts, w')) :
    w' = w.setOntology id ((w.ontology id).addAll as) := by
  induction as generalizing w ts with
  | nil =>
    cases h
    exact World.setOntology_ontology.symm
  | cons a as ih =>
    rw [List.map_cons, List.mapM_cons] at h
    obtain ⟨u, w₁, hadd, hrest⟩ := bind_ok h
    obtain ⟨us, w₂, has, hdone⟩ := bind_ok hrest
    cases hdone
    obtain ⟨j, hj, rfl⟩ := add_ok (by simp) hadd
    cases hj
    rw [ih has, Ontology.addAll_cons, World.setOntology_setOntology]
    by_cases hid : id < w.ontologies.length
    · rw [World.ontology_setOntology hid]
    · rw [World.setOntology_of_le (Nat.le_of_not_lt hid), World.setOntology_of_le (Nat.le_of_not_lt hid)]

/-- What additions have done, if they have ended without a fault. -/
theorem addAxioms_ok (ht : t ≠ .null) (h : addAxioms (a :: as) t env w = (.ok (), w')) :
    ∃ id, t = .handle (.ontology id) ∧ w' = w.setOntology id ((w.ontology id).addAll (a :: as)) := by
  rw [addAxioms, addEach, Current.orGiven_of_ne_null ht, pure_bind] at h
  obtain ⟨ts, w₁, has, hdone⟩ := bind_ok h
  cases hdone
  have hfirst := has
  rw [List.map_cons, List.mapM_cons] at hfirst
  obtain ⟨u, w₁, hadd, -⟩ := bind_ok hfirst
  obtain ⟨id, rfl, -⟩ := add_ok ht hadd
  exact ⟨id, rfl, mapM_add_ok has⟩

/-- Axioms that have been added can be compared. -/
theorem addAxioms_stable (h : addAxioms as t env w = (.ok (), w')) : ∀ a ∈ as, a.toTerm.isStable = true := by
  have each : ∀ {as : List Axiom} {o : Term} {w w' : World} {ts : List Term},
      (as.map Axiom.toTerm).mapM (fun t => add t o) env w = (.ok ts, w') → ∀ a ∈ as, a.toTerm.isStable = true := by
    intro as
    induction as with
    | nil => exact fun _ => List.forall_mem_nil _
    | cons a as ih =>
      intro o w w' ts h
      rw [List.map_cons, List.mapM_cons] at h
      obtain ⟨u, w₁, hadd, hrest⟩ := bind_ok h
      obtain ⟨us, w₂, has, -⟩ := bind_ok hrest
      obtain ⟨o', w₃, -, hadd⟩ := bind_ok hadd
      obtain ⟨store, w₄, -, hadd⟩ := bind_ok hadd
      obtain ⟨new, w₅, hadd, -⟩ := bind_ok hadd
      exact List.forall_mem_cons.mpr ⟨Store.add_stable hadd, ih has⟩
  obtain ⟨ts, w₁, hadd, -⟩ := bind_ok h
  obtain ⟨o, w₂, -, hadd⟩ := bind_ok hadd
  exact each hadd

end

/-! ## Removals -/

theorem run_remove (h : w.Manages id) (ha : a.toTerm.isStable = true) (env : Env) :
    remove a.toTerm (.handle (.ontology id)) env w =
      (.ok a.toTerm, w.setOntology id ((w.ontology id).remove a)) := by
  simp only [remove, Current.orGiven_handle, run_bind, run_pure, Current.run_store, Store.run_discard h ha]

/-- Removals from an ontology that the store holds are made one after the other. -/
theorem run_forM_discard (h : w.Manages id) (has : ∀ a ∈ as, a.toTerm.isStable = true) (env : Env) :
    (as.forM fun a => do let _ ← Store.discard w.installed (.handle (.ontology id)) a.toTerm) env w =
      (.ok ⟨⟩, w.setOntology id ((w.ontology id).removeAll as)) := by
  induction as generalizing w with
  | nil =>
    rw [Ontology.removeAll_nil, World.setOntology_ontology]
    rfl
  | cons a as ih =>
    have hfirst := Store.run_discard h (has a List.mem_cons_self) env
    have h' : (w.setOntology id ((w.ontology id).remove a)).Manages id := h.setOntology Ontology.remove_iri
    have htail := ih h' fun b hb => has b (List.mem_cons_of_mem _ hb)
    rw [World.ontology_setOntology h.exists_ontology, World.setOntology_setOntology] at htail
    rw [forM_cons, run_bind, run_bind, hfirst]
    exact htail

/-- **Removing an entity** leaves the axioms that do not mention it. -/
theorem run_removeEntity (h : w.Manages id) (ho : (w.ontology id).Lawful) (m : Nat) (e : Entity) (env : Env) :
    removeEntity (.entity m e) (.handle (.ontology id)) env w =
      (.ok ((w.ontology id).axioms.filter (·.mentions e m)),
        w.setOntology id { w.ontology id with
          axioms := (w.ontology id).axioms.filter fun a => !a.mentions e m }) := by
  have hstable : ∀ a ∈ (w.ontology id).axioms.filter (·.mentions e m), a.toTerm.isStable = true :=
    fun a ha => (ho.stable a (List.mem_filter.mp ha).1).1
  simp only [removeEntity, Current.orGiven_handle, run_bind, run_pure, Current.run_store,
    Query.run_referencing ho.stable, run_forM_discard h hstable, ← Ontology.removeAll_filter ho]
  rfl

/-- An act that, whatever becomes of it, only leaves out axioms of an ontology that a store holds. -/
def Shrinking (id store : Nat) (x : Act α) : Prop :=
  ∀ (env : Env) (w : World), w.installed = store → w.Manages id → w.Shrinks id (x env w).2

namespace Shrinking

variable {α β : Type} {store : Nat}

theorem of_reads {x : Act α} (h : Reads x) : Shrinking id store x := fun env w _ _ => by
  rw [h env w]
  exact .refl id w

theorem bind {x : Act α} {f : α → Act β} (hx : Shrinking id store x) (hf : ∀ a, Shrinking id store (f a)) :
    Shrinking id store (x >>= f) := by
  intro env w hs hm
  have hx := hx env w hs hm
  rw [run_bind]
  rcases h : x env w with ⟨_ | a, w₁⟩ <;> rw [h] at hx
  · exact hx
  · exact hx.trans hm (hf a env w₁ (hx.installed.trans hs) (hx.manages hm))

theorem forM {γ : Type} {f : γ → Act PUnit} {l : List γ} (h : ∀ c, Shrinking id store (f c)) :
    Shrinking id store (l.forM f) := by
  induction l with
  | nil => exact of_reads (.pure _)
  | cons c l ih => exact bind (h c) fun _ => ih

/-- A removal, whatever is to be removed. -/
theorem discard (t : Term) : Shrinking id store (Store.discard store (.handle (.ontology id)) t) := by
  intro env w hs hm
  subst hs
  have refused : Refused env (Store.discard w.installed (.handle (.ontology id)) t) w →
      w.Shrinks id (Store.discard w.installed (.handle (.ontology id)) t env w).2 := by
    rintro ⟨e, h⟩
    rw [h]
    exact .refl id w
  cases ha : Axiom.ofTerm? t with
  | none =>
    refine refused (.after (Store.run_requireManaged hm env) (.first ?_))
    rw [Store.requireAxiom, ha]
    exact .after (run_inspect t env w) .throw
  | some a =>
    have ht : t = a.toTerm := by
      cases t <;> cases ha
      rfl
    subst ht
    cases hstable : a.toTerm.isStable with
    | true =>
      rw [Store.run_discard hm hstable]
      exact .removeAll id w [a]
    | false =>
      exact refused (.after (Store.run_requireManaged hm env) (.after rfl (.after rfl
        (.first ⟨_, run_requireStable_of_not hstable env w⟩))))

end Shrinking

/-- Whatever is removed as an axiom, no other change is made than to leave axioms out. -/
theorem remove_shrinks (h : w.Manages id) (t : Term) (env : Env) :
    w.Shrinks id (remove t (.handle (.ontology id)) env w).2 := by
  have hd : Shrinking id w.installed
      (do let _ ← Store.discard w.installed (.handle (.ontology id)) t; return t) :=
    .bind (.discard t) fun _ => .of_reads (.pure _)
  exact hd env w rfl h

/-- Whatever is removed as an entity, no other change is made than to leave axioms out. -/
theorem removeEntity_shrinks (h : w.Manages id) (t : Term) (env : Env) :
    w.Shrinks id (removeEntity t (.handle (.ontology id)) env w).2 := by
  have hd (doomed : List Axiom) : Shrinking id w.installed (do
      doomed.forM fun a => do
        let _ ← Store.discard w.installed (.handle (.ontology id)) a.toTerm
      let _ ← iriOf t
      let _ ← iriOf (.handle (.ontology id))
      return doomed) := by
    refine .bind (.forM fun a => .bind (.discard _) fun _ => .of_reads (.pure _)) fun _ => ?_
    exact .of_reads (.bind (.iriOf t) fun _ => .bind (.iriOf _) fun _ => .pure _)
  have hall := Shrinking.bind (.of_reads (Query.referencing_reads (.handle (.ontology id)) t)) hd env w rfl h
  simp only [removeEntity, Current.orGiven_handle, run_bind, run_pure, Current.run_store] at hall ⊢
  exact hall

end Change

end Authoring
