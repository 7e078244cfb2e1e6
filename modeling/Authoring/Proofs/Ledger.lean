import Authoring.Proofs.Removal
import Authoring.Proofs.Window.Quiet

/-!
# The ledger of an ontology

Which entities are declared in an ontology is a matter of what has been built and what has been removed. `Act.Ledger`
follows the text of an act and takes this down: which builders have returned which entities, which entities have been
removed, and which calls of builders have failed when they had begun to add.

**The ledger tells what is declared** (`Act.Ledger.declares`). Of an ontology that has begun without axioms, exactly those
entities are declared that have been entered and not been removed afterwards (`Posting.Stands`). What else is done to
the ontology does not matter.

**What carries the proof.** The declaration of an entity is the first axiom that a builder adds, and it is the only
declaration among those that it adds (`Builder.complete_eq`). Whatever else adds axioms adds no declarations, and so it
conserves what is declared (`Act.Conserves`). A removal takes the declaration of one entity, and of no other, for the
declaration of another one does not involve it, be it of the same IRI.

**What it does not establish.** Nothing here says that an act has a ledger.
-/

namespace Authoring

open Act

/-! ## What is declared -/

namespace Axiom

variable {a : Axiom} {m : Nat} {e e' : Entity}

/-- The declarations that the declaration of an entity finds are those of the entity. -/
theorem declaration_beq : (declaration (.entity m e) == a) = true ↔ ∃ n, a = declaration (.entity n e) := by
  obtain ⟨k, ts⟩ := a
  show Term.agrees true true (.statement .declaration [.entity m e]) (.statement k ts) = true ↔ _
  simp only [Term.agrees, Bool.and_eq_true, beq_iff_eq]
  constructor
  · rintro ⟨rfl, h⟩
    rcases ts with _ | ⟨t, _ | ⟨u, ts⟩⟩
    · cases h
    · simp only [Term.agreeAll, List.isEmpty_nil, Bool.and_true] at h
      obtain ⟨n, rfl⟩ := Term.entity_agrees.mp h
      exact ⟨n, rfl⟩
    · simp [Term.agreeAll] at h
  · rintro ⟨n, h⟩
    cases h
    exact ⟨rfl, by simpa only [Term.agreeAll, List.isEmpty_nil, Bool.and_true] using Term.entity_agrees.mpr ⟨n, rfl⟩⟩

/-- And nothing else finds them. -/
theorem beq_declaration (h : (a == declaration (.entity m e)) = true) : ∃ n, a = declaration (.entity n e) := by
  obtain ⟨k, ts⟩ := a
  have hagree : Term.agrees true true (.statement k ts) (.statement .declaration [.entity m e]) = true := h
  simp only [Term.agrees, Bool.and_eq_true, beq_iff_eq] at hagree
  obtain ⟨rfl, hts⟩ := hagree
  rcases ts with _ | ⟨t, _ | ⟨u, ts⟩⟩
  · cases hts
  · simp only [Term.agreeAll, List.isEmpty_nil, Bool.and_true] at hts
    obtain ⟨n, rfl⟩ := Term.agrees_entity.mp hts
    exact ⟨n, rfl⟩
  · simp [Term.agreeAll] at hts

/-- A declaration is about the entity that it declares. -/
theorem declaration_involves : (declaration (.entity m e')).Involves e ↔ e' = e := by
  constructor
  · rintro ⟨t, ht, hocc⟩
    rw [List.mem_singleton.mp ht, Term.occurs_entity] at hocc
    cases hocc
    rfl
  · rintro rfl
    exact .occurs ⟨_, List.mem_singleton.mpr rfl, .self⟩

end Axiom

namespace Ontology

variable {o : Ontology} {a : Axiom} {e e' : Entity}

/-- Whether an entity is declared, as whatever factory has made it. -/
def Declares (o : Ontology) (e : Entity) : Prop := ∃ m, .declaration (.entity m e) ∈ o.axioms

theorem declares_iff {m : Nat} : o.axioms.contains (.declaration (.entity m e)) = true ↔ o.Declares e := by
  rw [List.contains_iff_exists_mem_beq]
  constructor
  · rintro ⟨a, ha, h⟩
    obtain ⟨n, rfl⟩ := Axiom.declaration_beq.mp h
    exact ⟨n, ha⟩
  · rintro ⟨n, hn⟩
    exact ⟨_, hn, Axiom.declaration_beq.mpr ⟨n, rfl⟩⟩

theorem declares_add {m : Nat} :
    (o.add (.declaration (.entity m e'))).Declares e ↔ o.Declares e ∨ e = e' := by
  rw [Declares, add_eq]
  dsimp only
  split
  next hc =>
    refine ⟨.inl, ?_⟩
    rintro (h | rfl)
    · exact h
    · exact declares_iff.mp hc
  · constructor
    · rintro ⟨n, hn⟩
      rcases List.mem_append.mp hn with hn | hn
      · exact .inl ⟨n, hn⟩
      · cases List.mem_singleton.mp hn
        exact .inr rfl
    · rintro (⟨n, hn⟩ | rfl)
      · exact ⟨n, List.mem_append_left _ hn⟩
      · exact ⟨m, List.mem_append_right _ (List.mem_singleton.mpr rfl)⟩

/-- Axioms that declare nothing may be added. -/
theorem declares_add_of_ne (ha : a.kind ≠ .declaration) : (o.add a).Declares e ↔ o.Declares e := by
  rw [Declares, add_eq]
  dsimp only
  split
  · rfl
  · constructor
    · rintro ⟨n, hn⟩
      rcases List.mem_append.mp hn with hn | hn
      · exact ⟨n, hn⟩
      · exact absurd (List.mem_singleton.mp hn ▸ rfl) ha
    · rintro ⟨n, hn⟩
      exact ⟨n, List.mem_append_left _ hn⟩

/-- And be taken away. -/
theorem declares_remove_of_ne (ha : ∀ m e, a ≠ .declaration (.entity m e)) :
    (o.remove a).Declares e ↔ o.Declares e := by
  refine exists_congr fun m => List.mem_eraseP_of_neg fun h => ?_
  obtain ⟨n, rfl⟩ := Axiom.beq_declaration h
  exact ha n e rfl

end Ontology

/-- **A well-kept ontology**: it is one that there is, its axioms can be compared and are different, and there are none if
the installed store does not hold it. -/
structure World.WellKept (id : Nat) (w : World) : Prop where
  exists_ontology : id < w.ontologies.length
  held : w.holds w.installed id = true ∨ (w.ontology id).axioms = []
  stable : ∀ a ∈ (w.ontology id).axioms, a.toTerm.isStable = true
  distinct : Distinct (w.ontology id).axioms

/-- **From one world to another, what an ontology declares is conserved.** -/
def World.Conserves (id : Nat) (w w' : World) : Prop :=
  w.WellKept id → w'.WellKept id ∧ ∀ e, (w'.ontology id).Declares e ↔ (w.ontology id).Declares e

namespace World

variable {w w' w'' : World} {id j : Nat} {a : Axiom} {o : Ontology}

namespace Conserves

theorem refl (id : Nat) (w : World) : w.Conserves id w := fun hw => ⟨hw, fun _ => Iff.rfl⟩

theorem trans (h : w.Conserves id w') (h' : w'.Conserves id w'') : w.Conserves id w'' := by
  intro hw
  obtain ⟨hw', hdeclares⟩ := h hw
  obtain ⟨hw'', hdeclares'⟩ := h' hw'
  exact ⟨hw'', fun e => (hdeclares' e).trans (hdeclares e)⟩

/-- What leaves the ontologies and the stores alone conserves what is declared. -/
theorem of_same (hontologies : w'.ontologies = w.ontologies) (hstores : w'.stores = w.stores)
    (hinstalled : w'.installed = w.installed) : w.Conserves id w' := by
  have hontology : w'.ontology id = w.ontology id := by rw [ontology, ontology, hontologies]
  have hholds : w'.holds w'.installed id = w.holds w.installed id := by
    rw [holds, holds, located, located, store, store, hontology, hstores, hinstalled]
  intro hw
  refine ⟨⟨hontologies ▸ hw.exists_ontology, ?_, ?_, ?_⟩, fun e => by rw [hontology]⟩
  · rw [hholds, hontology]
    exact hw.held
  · rw [hontology]
    exact hw.stable
  · rw [hontology]
    exact hw.distinct

theorem of_untouched (h : w.Untouched w') : w.Conserves id w' := of_same h.ontologies h.stores h.installed

/-- What is done to another ontology conserves what is declared in this one. -/
theorem of_other (hj : j ≠ id) (hiri : o.iri = (w.ontology j).iri) : w.Conserves id (w.setOntology j o) := by
  have hontology : (w.setOntology j o).ontology id = w.ontology id := ontology_setOntology_of_ne (Ne.symm hj)
  intro hw
  refine ⟨⟨?_, ?_, ?_, ?_⟩, fun e => by rw [hontology]⟩
  · rw [setOntology, List.length_set]
    exact hw.exists_ontology
  · rw [hontology]
    exact hw.held.imp_left (holds_setOntology hiri w.installed _).trans
  · rw [hontology]
    exact hw.stable
  · rw [hontology]
    exact hw.distinct

end Conserves

namespace WellKept

theorem manages (h : w.WellKept id) (hheld : w.holds w.installed id = true) : w.Manages id := ⟨h.exists_ontology, hheld⟩

/-- Axioms may be added where the store holds the ontology. -/
theorem add (h : w.WellKept id) (hheld : w.holds w.installed id = true) (ha : a.toTerm.isStable = true) :
    (w.setOntology id ((w.ontology id).add a)).WellKept id := by
  have hontology : (w.setOntology id ((w.ontology id).add a)).ontology id = (w.ontology id).add a :=
    ontology_setOntology h.exists_ontology
  refine ⟨?_, .inl ?_, ?_, ?_⟩
  · rw [setOntology, List.length_set]
    exact h.exists_ontology
  · exact (holds_setOntology Ontology.add_iri w.installed _).trans hheld
  · rw [hontology]
    exact Ontology.forall_axioms_add h.stable ha
  · rw [hontology, Ontology.add_eq]
    dsimp only
    split
    next hc => exact h.distinct
    next hc =>
      refine h.distinct.append (Distinct.cons_iff.mpr ⟨List.forall_mem_nil _, .nil⟩) fun b hb => ?_
      rw [List.mem_singleton.mp hb]
      exact Bool.eq_false_iff.mpr hc

/-- Leaving axioms out of it, an ontology stays well kept. -/
theorem shrink (h : w.WellKept id) (ho : o.axioms.Sublist (w.ontology id).axioms) (hiri : o.iri = (w.ontology id).iri) :
    (w.setOntology id o).WellKept id := by
  have hontology : (w.setOntology id o).ontology id = o := ontology_setOntology h.exists_ontology
  refine ⟨?_, ?_, ?_, ?_⟩
  · rw [setOntology, List.length_set]
    exact h.exists_ontology
  · rw [hontology]
    refine h.held.imp (holds_setOntology hiri w.installed _).trans fun hempty => ?_
    exact List.sublist_nil.mp (hempty ▸ ho)
  · rw [hontology]
    exact fun a ha => h.stable a (ho.subset ha)
  · rw [hontology]
    exact h.distinct.sublist ho

end WellKept

end World

/-! ## Acts that conserve what is declared -/

/-- **An act that conserves what an ontology declares**, wherever it is done. -/
def Act.Conserves {α : Type} (id : Nat) (x : Act α) : Prop := ∀ (env : Env) (w : World), w.Conserves id (x env w).2

namespace Act.Conserves

variable {α β γ : Type} {id : Nat}

theorem of_reads {x : Act α} (h : Reads x) : x.Conserves id := fun env w => by
  rw [h env w]
  exact .refl id w

/-- An act that is calm whatever can be called conserves what is declared. -/
theorem of_calm {P : α → Prop} {x : Act α} (h : ∀ env, Calm env (fun _ => True) x P) : x.Conserves id :=
  fun env w => .of_untouched (h env w fun _ _ _ _ => trivial).1

theorem pure (a : α) : (Pure.pure a : Act α).Conserves id := of_reads (.pure a)

theorem modify {f : World → World}
    (h : ∀ w, (f w).ontologies = w.ontologies ∧ (f w).stores = w.stores ∧ (f w).installed = w.installed) :
    (modify f : Act PUnit).Conserves id := fun _ w => .of_same (h w).1 (h w).2.1 (h w).2.2

theorem bind {x : Act α} {f : α → Act β} (hx : x.Conserves id) (hf : ∀ a, (f a).Conserves id) :
    (x >>= f).Conserves id := by
  intro env w
  have hx := hx env w
  rw [run_bind]
  rcases h : x env w with ⟨e | a, w₁⟩ <;> rw [h] at hx
  · exact hx
  · exact hx.trans (hf a env w₁)

theorem mapM {f : γ → Act β} {l : List γ} (h : ∀ c ∈ l, (f c).Conserves id) : (l.mapM f).Conserves id := by
  induction l with
  | nil =>
    rw [List.mapM_nil]
    exact pure _
  | cons c l ih =>
    rw [List.mapM_cons]
    refine bind (h c List.mem_cons_self) fun _ => ?_
    exact bind (ih fun d hd => h d (List.mem_cons_of_mem _ hd)) fun _ => pure _

theorem forM {f : γ → Act PUnit} {l : List γ} (h : ∀ c ∈ l, (f c).Conserves id) : (l.forM f).Conserves id := by
  induction l with
  | nil => exact pure _
  | cons c l ih =>
    exact bind (h c List.mem_cons_self) fun _ => ih fun d hd => h d (List.mem_cons_of_mem _ hd)

end Act.Conserves

/-! ## Changes -/

namespace Store

variable {store : Nat} {t : Term} {a : Axiom} {env : Env} {w : World}

/-- What a store holds gets past its question. -/
theorem run_requireManaged_of_holds {j : Nat} (h : w.holds store j = true) :
    requireManaged store (.handle (.ontology j)) env w = (.ok (), w) := by
  have hc : contains store (.handle (.ontology j)) env w = (.ok true, w) := by
    rw [← h]
    rfl
  rw [requireManaged, run_bind, hc]
  rfl

/-- An addition changes nothing, or an ontology that the store holds. -/
theorem add_cases (store : Nat) (t : Term) (a : Axiom) (env : Env) (w : World) : (add store t a.toTerm env w).2 = w ∨
    ∃ j, t = .handle (.ontology j) ∧ w.holds store j = true ∧ a.toTerm.isStable = true ∧
      (add store t a.toTerm env w).2 = w.setOntology j ((w.ontology j).add a) := by
  by_cases h : ∃ j, t = .handle (.ontology j) ∧ w.holds store j = true
  · obtain ⟨j, rfl, hj⟩ := h
    cases hs : a.toTerm.isStable with
    | true =>
      refine .inr ⟨j, rfl, hj, rfl, ?_⟩
      simp only [add, run_bind, run_requireManaged_of_holds hj, run_requireAxiom, asOntology, run_pure,
        run_requireStable hs, run_get, run_modify]
    | false =>
      refine .inl ?_
      simp only [add, run_bind, run_requireManaged_of_holds hj, run_requireAxiom, asOntology, run_pure,
        run_requireStable_of_not hs]
  · have hrefused : Refused env (add store t a.toTerm) w :=
      run_add_of_not fun j hj => Bool.eq_false_iff.mpr fun hh => h ⟨j, hj, hh⟩
    obtain ⟨f, hf⟩ := hrefused
    exact .inl (congrArg Prod.snd hf)

/-- So does a removal. -/
theorem discard_cases (store : Nat) (t : Term) (a : Axiom) (env : Env) (w : World) : (discard store t a.toTerm env w).2 = w ∨
    ∃ j, t = .handle (.ontology j) ∧ (discard store t a.toTerm env w).2 = w.setOntology j ((w.ontology j).remove a) := by
  by_cases h : ∃ j, t = .handle (.ontology j) ∧ w.holds store j = true
  · obtain ⟨j, rfl, hj⟩ := h
    cases hs : a.toTerm.isStable with
    | true =>
      refine .inr ⟨j, rfl, ?_⟩
      simp only [discard, run_bind, run_requireManaged_of_holds hj, run_requireAxiom, asOntology, run_pure,
        run_requireStable hs, run_get, run_modify]
    | false =>
      refine .inl ?_
      simp only [discard, run_bind, run_requireManaged_of_holds hj, run_requireAxiom, asOntology, run_pure,
        run_requireStable_of_not hs]
  · have hrefused : Refused env (discard store t a.toTerm) w :=
      run_discard_of_not fun j hj => Bool.eq_false_iff.mpr fun hh => h ⟨j, hj, hh⟩
    obtain ⟨f, hf⟩ := hrefused
    exact .inl (congrArg Prod.snd hf)

/-- Taking away what declares nothing conserves what is declared, and so does taking away anything elsewhere. -/
theorem discard_conserves {id : Nat} (h : t ≠ .handle (.ontology id) ∨ ∀ m e, a ≠ .declaration (.entity m e)) :
    (discard store t a.toTerm).Conserves id := by
  intro env w
  rcases discard_cases store t a env w with hsame | ⟨j, rfl, hdone⟩
  · rw [hsame]
    exact .refl id w
  · rw [hdone]
    by_cases hj : j = id
    · subst hj
      intro hw
      refine ⟨hw.shrink List.eraseP_sublist Ontology.remove_iri, fun e => ?_⟩
      rw [World.ontology_setOntology hw.exists_ontology]
      exact Ontology.declares_remove_of_ne (h.resolve_left fun hne => hne rfl)
    · exact .of_other hj Ontology.remove_iri

end Store

namespace Change

variable {o : Term} {a : Axiom} {env : Env} {w : World} {id : Nat}

/-- Adding what declares nothing conserves what is declared, and so does adding anything elsewhere. -/
theorem add_conserves (ho : o ≠ .null) (h : o ≠ .handle (.ontology id) ∨ a.kind ≠ .declaration) :
    (add a.toTerm o).Conserves id := by
  intro env w
  have hstored : (add a.toTerm o env w).2 = (Store.add w.installed o a.toTerm env w).2 := by
    simp only [add, Current.orGiven_of_ne_null ho, run_bind, run_pure, Current.run_store]
    rcases Store.add w.installed o a.toTerm env w with ⟨_ | _, _⟩ <;> rfl
  rw [hstored]
  rcases Store.add_cases w.installed o a env w with
    hsame | ⟨j, rfl, hheld, hstable, hdone⟩
  · rw [hsame]
    exact .refl id w
  · rw [hdone]
    by_cases hj : j = id
    · subst hj
      intro hw
      refine ⟨hw.add hheld hstable, fun e => ?_⟩
      rw [World.ontology_setOntology hw.exists_ontology]
      exact Ontology.declares_add_of_ne (h.resolve_left fun hne => hne rfl)
    · exact .of_other hj Ontology.add_iri

/-- The removal of an entity elsewhere conserves what is declared here, whatever is removed. -/
theorem removeEntity_conserves (ho : o ≠ .null) (hne : o ≠ .handle (.ontology id)) (t : Term) :
    (removeEntity t o).Conserves id := by
  unfold removeEntity
  rw [Current.orGiven_of_ne_null ho, pure_bind]
  refine .bind (.of_reads fun _ _ => rfl) fun store => .bind (.of_reads (Query.referencing_reads o t)) fun doomed => ?_
  refine .bind (.forM fun a _ => .bind (Store.discard_conserves (.inl hne)) fun _ => .pure _) fun _ => ?_
  exact .of_reads (.bind (.iriOf t) fun _ => .bind (.iriOf o) fun _ => .pure _)

end Change

/-! ## Builders -/

namespace Builder

variable {p : Prepared} {m id : Nat} {e : Entity} {env : Env} {w : World}

/-- **The declaration is added first.** What comes then conserves what is declared. -/
theorem complete_eq (hp : p.Declares m e) (id : Nat) : ∃ tail : Act Term, tail.Conserves id ∧
    complete p = Change.add (Axiom.declaration (.entity m e)).toTerm p.target >>= fun _ => tail := by
  obtain ⟨rest, has, hrest⟩ := hp.axioms
  refine ⟨do
    let _ ← (rest.map Axiom.toTerm).mapM fun t => Change.add t p.target
    Window.record p.entity
    let _ ← iriOf p.target
    return p.entity, ?_, ?_⟩
  · refine .bind (.mapM fun t ht => ?_) fun _ => .bind ?_ fun _ => .of_reads (.bind (.iriOf _) fun _ => .pure _)
    · obtain ⟨a, ha, rfl⟩ := List.mem_map.mp ht
      exact Change.add_conserves hp.target (.inr (hrest a ha))
    · intro env w
      rw [run_record]
      cases env.context.window <;> exact .of_same rfl rfl rfl
  · rw [complete, has, Change.addAxioms, Change.addEach, Current.orGiven_of_ne_null hp.target, pure_bind]
    simp only [List.map_cons, List.mapM_cons, bind_assoc, pure_bind]

/-- A call for another ontology conserves what is declared in this one. -/
theorem complete_conserves (hp : p.Declares m e) (hne : p.target ≠ .handle (.ontology id)) :
    (complete p).Conserves id := by
  obtain ⟨tail, htail, heq⟩ := complete_eq hp id
  rw [heq]
  exact .bind (Change.add_conserves hp.target (.inl hne)) fun _ => htail

/-- A call for an ontology that the store does not hold changes nothing. -/
theorem complete_of_not_held (hp : p.Declares m e) (htarget : p.target = .handle (.ontology id))
    (hheld : w.holds w.installed id = false) : Refused env (complete p) w := by
  obtain ⟨tail, -, heq⟩ := complete_eq hp id
  rw [heq, htarget]
  refine .first (.after rfl (.after rfl (.first (Store.run_add_of_not fun j hj => ?_))))
  cases hj
  exact hheld

/-- **A call that has begun to add declares its entity**, and no other, however it ends. -/
theorem complete_declares (hp : p.Declares m e) (htarget : p.target = .handle (.ontology id)) (hw : w.WellKept id)
    (hheld : w.holds w.installed id = true) (env : Env) : (complete p env w).2.WellKept id ∧
      ∀ e', ((complete p env w).2.ontology id).Declares e' ↔ (w.ontology id).Declares e' ∨ e' = e := by
  obtain ⟨tail, htail, heq⟩ := complete_eq hp id
  have hadd := Change.run_add (a := .declaration (.entity m e)) (hw.manages hheld) rfl env
  rw [heq, htarget, run_bind, hadd]
  obtain ⟨hkept, hdeclares⟩ := htail env _ (hw.add (a := .declaration (.entity m e)) hheld rfl)
  refine ⟨hkept, fun e' => (hdeclares e').trans ?_⟩
  rw [World.ontology_setOntology hw.exists_ontology]
  exact Ontology.declares_add

end Builder

/-! ## Postings -/

/-- What is taken down of what happens: a builder has returned an entity, or it has failed when it had begun to add what
it had made of one, or an entity has been removed. -/
inductive Posting where
  | built (e : Entity)
  | broken (e : Entity)
  | removed (e : Entity)

namespace Posting

variable {ps qs : List Posting} {p : Posting} {e : Entity}

/-- Whether an entity is entered. -/
def Enters (p : Posting) (e : Entity) : Prop := p = .built e ∨ p = .broken e

/-- **An entity that stands in a ledger**: it has been entered, and not been removed afterwards. -/
def Stands (ps : List Posting) (e : Entity) : Prop :=
  ∃ before p after, ps = before ++ p :: after ∧ p.Enters e ∧ .removed e ∉ after

theorem stands_nil : ¬Stands [] e := by
  rintro ⟨before, p, after, h, -⟩
  cases before <;> cases h

theorem stands_cons : Stands (p :: ps) e ↔ Stands ps e ∨ p.Enters e ∧ .removed e ∉ ps := by
  constructor
  · rintro ⟨_ | ⟨q, before⟩, p', after, h, henters, hremoved⟩
    · cases h
      exact .inr ⟨henters, hremoved⟩
    · cases h
      exact .inl ⟨before, p', after, rfl, henters, hremoved⟩
  · rintro (⟨before, p', after, rfl, henters, hremoved⟩ | ⟨henters, hremoved⟩)
    · exact ⟨p :: before, p', after, rfl, henters, hremoved⟩
    · exact ⟨[], p, ps, rfl, henters, hremoved⟩

theorem stands_append : Stands (ps ++ qs) e ↔ Stands qs e ∨ Stands ps e ∧ .removed e ∉ qs := by
  induction ps with
  | nil => simp [stands_nil]
  | cons p ps ih =>
    rw [List.cons_append, stands_cons, ih, stands_cons, List.mem_append, not_or, or_and_right, and_assoc, or_assoc]

theorem stands_singleton : Stands [p] e ↔ p.Enters e := by
  rw [stands_cons]
  simp [stands_nil]

end Posting

/-! ## Ledgers -/

open Posting in
/-- **The ledger of an act**, for an ontology. A delayed expression may have an environment of its own, but it is
evaluated in the context in which it is called. -/
inductive Act.Ledger (id : Nat) : {α : Type} → Env → Act α → World → List Posting → Prop
  | conserved {α : Type} {env : Env} {w : World} {x : Act α} (h : x.Conserves id) : Ledger id env x w []
  | stopped {α β : Type} {env : Env} {w w₁ : World} {x : Act α} {f : α → Act β} {e : Fault} {ps : List Posting}
    (hx : Ledger id env x w ps) (h : x env w = (.error e, w₁)) : Ledger id env (x >>= f) w ps
  | followed {α β : Type} {env : Env} {w w₁ : World} {x : Act α} {f : α → Act β} {a : α} {ps qs : List Posting}
    (hx : Ledger id env x w ps) (h : x env w = (.ok a, w₁)) (hf : Ledger id env (f a) w₁ qs) :
    Ledger id env (x >>= f) w (ps ++ qs)
  | attempted {α : Type} {env : Env} {w : World} {x : Act α} {ps : List Posting} (hx : Ledger id env x w ps) :
    Ledger id env (attempt x) w ps
  | inside {α : Type} {env : Env} {w : World} {x : Act α} {c : Context} {ps : List Posting}
    (hx : Ledger id { env with context := c } x w ps) : Ledger id env (within (fun _ => c) x) w ps
  | evaluated {env env' : Env} {w : World} {body : Expr} {bound : Term} {x : Act Term} {ps : List Posting}
    (h : ∀ c v, env.eval body bound c v = x { env' with context := c } v)
    (hx : Ledger id { env' with context := env.context } x w ps) : Ledger id env (evaluate body bound) w ps
  /-- A call of a builder for the ontology has returned an entity. -/
  | returned {env : Env} {w w₁ w' : World} {c : Builder.Call} {p : Builder.Prepared} {m : Nat} {e : Entity}
    {ps : List Posting} (hp : Ledger id env c.prepare w ps) (hprepare : c.prepare env w = (.ok p, w₁))
    (htarget : p.target = .handle (.ontology id)) (h : c.run env w = (.ok (.entity m e), w')) :
    Ledger id env c.run w (ps ++ [built e])
  /-- One of the axioms that a call of a builder has compiled cannot be compared, and the call fails over it. -/
  | failed {env : Env} {w w₁ w' : World} {c : Builder.Call} {p : Builder.Prepared} {m : Nat} {e : Entity} {f : Fault}
    {ps : List Posting} (hp : Ledger id env c.prepare w ps) (hprepare : c.prepare env w = (.ok p, w₁))
    (htarget : p.target = .handle (.ontology id)) (hdeclares : p.Declares m e)
    (hheld : w₁.holds w₁.installed id = true) (hunstable : ∃ a ∈ p.axioms, a.toTerm.isStable = false)
    (h : c.run env w = (.error f, w')) : Ledger id env c.run w (ps ++ [broken e])
  /-- A call of a builder is refused if the store does not hold the ontology. -/
  | refused {env : Env} {w w₁ : World} {c : Builder.Call} {p : Builder.Prepared} {ps : List Posting}
    (hp : Ledger id env c.prepare w ps) (hprepare : c.prepare env w = (.ok p, w₁))
    (htarget : p.target = .handle (.ontology id)) (hheld : w₁.holds w₁.installed id = false) :
    Ledger id env c.run w ps
  | removal {env : Env} {w : World} {m : Nat} {e : Entity} (hl : (w.ontology id).Lawful) :
    Ledger id env (Change.removeEntity (.entity m e) (.handle (.ontology id))) w [removed e]

namespace Change

variable {w : World} {id : Nat} {e : Entity}

/-- A removal takes the declaration of the entity away, and of no other. -/
theorem removeEntity_declares (hw : w.WellKept id) (hl : (w.ontology id).Lawful) (m : Nat) (e : Entity) (env : Env) :
    let w' := (removeEntity (.entity m e) (.handle (.ontology id)) env w).2
    w'.WellKept id ∧ ∀ e', (w'.ontology id).Declares e' ↔ (w.ontology id).Declares e' ∧ e' ≠ e := by
  intro w'
  rcases hw.held with hheld | hempty
  · obtain ⟨v, hrun, hwithout⟩ := exists_run_removeEntity (hw.manages hheld) hl m e env
    have hw' : w' = v := congrArg Prod.snd hrun
    have hlawful := hwithout.lawful hl
    rw [hw']
    refine ⟨⟨?_, .inl (hwithout.manages (hw.manages hheld)).holds, fun a ha => (hlawful.stable a ha).1,
      hlawful.distinct⟩, fun e' => ?_⟩
    · exact hwithout.count ▸ hw.exists_ontology
    · simp only [Ontology.Declares, hwithout.axioms, List.mem_filter, decide_eq_true_eq, Axiom.declaration_involves,
        exists_and_right]
  · have hnothing : w' = w := by
      show (removeEntity (.entity m e) (.handle (.ontology id)) env w).2 = w
      simp only [removeEntity, Current.orGiven_handle, run_bind, run_pure, Current.run_store,
        Query.run_referencing hl.stable, hempty]
      rfl
    rw [hnothing]
    refine ⟨hw, fun e' => ?_⟩
    simp [Ontology.Declares, hempty]

end Change

namespace Act.Ledger

variable {α : Type} {id : Nat} {env : Env} {x : Act α} {w : World} {ps : List Posting}

/-- A call that has begun to add enters its entity in the ledger. -/
theorem declares_complete {p : Builder.Prepared} {m : Nat} {e : Entity} {q : Posting} {D : Entity → Prop}
    (h : w.WellKept id ∧ ∀ e', (w.ontology id).Declares e' ↔ Posting.Stands ps e' ∨ D e' ∧ .removed e' ∉ ps)
    (hp : p.Declares m e) (htarget : p.target = .handle (.ontology id)) (hq : q.Enters e)
    (hheld : w.holds w.installed id = true) : (Builder.complete p env w).2.WellKept id ∧
      ∀ e', ((Builder.complete p env w).2.ontology id).Declares e' ↔
        Posting.Stands (ps ++ [q]) e' ∨ D e' ∧ .removed e' ∉ ps ++ [q] := by
  obtain ⟨hkept, hdeclares⟩ := Builder.complete_declares hp htarget h.1 hheld env
  refine ⟨hkept, fun e' => (hdeclares e').trans ?_⟩
  have henters : q.Enters e' ↔ e' = e := by rcases hq with rfl | rfl <;> simp [Posting.Enters, eq_comm]
  have hkept : ¬.removed e' = q := by rcases hq with rfl | rfl <;> nofun
  rw [h.2 e', Posting.stands_append, Posting.stands_singleton, henters, List.mem_append, List.mem_singleton]
  simp only [hkept, or_false, not_false_eq_true, and_true]
  exact or_comm.trans (by rw [or_assoc])

/-- **The ledger tells what is declared**: what stands in it, and what has been declared before and has not been removed. -/
theorem declares (h : Ledger id env x w ps) (hw : w.WellKept id) : (x env w).2.WellKept id ∧
    ∀ e, ((x env w).2.ontology id).Declares e ↔ Posting.Stands ps e ∨ (w.ontology id).Declares e ∧ .removed e ∉ ps := by
  induction h with
  | conserved h =>
    obtain ⟨hkept, hdeclares⟩ := h _ _ hw
    refine ⟨hkept, fun e => (hdeclares e).trans ?_⟩
    simp [Posting.stands_nil]
  | stopped _ h ih =>
    have ih := ih hw
    rw [h] at ih
    rw [run_bind, h]
    exact ih
  | followed _ h _ ihx ihf =>
    have ihx := ihx hw
    rw [h] at ihx
    obtain ⟨hkept, hdeclares⟩ := ihf ihx.1
    rw [run_bind, h]
    refine ⟨hkept, fun e => (hdeclares e).trans ?_⟩
    rw [ihx.2 e, Posting.stands_append, List.mem_append, not_or, or_and_right, and_assoc, or_assoc]
  | attempted _ ih => exact ih hw
  | inside _ ih => exact ih hw
  | @evaluated env _ w _ _ _ _ h _ ih =>
    have ih := ih hw
    rw [← h env.context w] at ih
    exact ih
  | @returned env w w₁ _ c p m e _ _ hprepare htarget h ih =>
    have ih := ih hw
    rw [Builder.Call.run_eq, run_bind, hprepare] at h
    dsimp only at h
    rw [hprepare] at ih
    rw [Builder.Call.run_eq, run_bind, hprepare]
    obtain ⟨n, e', hp⟩ := Builder.Call.prepare_ok hprepare
    obtain ⟨_, _, he, -⟩ := Builder.complete_ok hp h
    cases he
    refine declares_complete ih hp htarget (.inl rfl) (Bool.of_not_eq_false fun hheld => ?_)
    obtain ⟨f, hrefused⟩ : Refused env (Builder.complete p) w₁ := Builder.complete_of_not_held hp htarget hheld
    rw [hrefused] at h
    cases h
  | @failed env w w₁ _ c p m e _ _ _ hprepare htarget hp hheld _ _ ih =>
    have ih := ih hw
    rw [hprepare] at ih
    rw [Builder.Call.run_eq, run_bind, hprepare]
    exact declares_complete ih hp htarget (.inr rfl) hheld
  | @refused env w w₁ c p _ _ hprepare htarget hheld ih =>
    have ih := ih hw
    obtain ⟨m, e, hp⟩ := Builder.Call.prepare_ok hprepare
    obtain ⟨f, hrefused⟩ : Refused env (Builder.complete p) w₁ := Builder.complete_of_not_held hp htarget hheld
    rw [hprepare] at ih
    rw [Builder.Call.run_eq, run_bind, hprepare]
    simp only [hrefused]
    exact ih
  | removal hl =>
    obtain ⟨hkept, hdeclares⟩ := Change.removeEntity_declares hw hl _ _ _
    refine ⟨hkept, fun e => (hdeclares e).trans ?_⟩
    simp [Posting.stands_singleton, Posting.Enters]

end Act.Ledger

end Authoring
