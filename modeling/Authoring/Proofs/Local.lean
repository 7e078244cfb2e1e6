import Authoring.Proofs.Aspect.Service

/-!
# Local changes

A change is *local* to one part of one ontology if it leaves everything else that is stored alone: the other ontologies,
the other parts of this one, and the stores with their order (`World.Local`). The parts that operations change are the
axioms, the imports and the annotations of an ontology.

An act is local, given a term for the ontology to work on, if it makes only local changes wherever that term denotes no
other ontology (`Act.Local`). A term that is null denotes the current ontology, and which one this is depends on the
registrations only. A local change does not touch these, so the term denotes the same at every later point of the act;
and what an operation has once found to be its ontology is no other one. So local acts compose, and that an act is local is
read off its text.

**What is assumed.** Evaluating a delayed expression makes no change that the operation may not make (`Env.Local`). So a
producer without side effects may stand anywhere, and one that builds into the same ontology may, too.
-/

namespace Authoring

/-! ## Worlds -/

/-- The parts of an ontology that operations change. -/
inductive Ontology.Part where
  | axioms
  | imports
  | annotations

/-- An ontology with one part taken from another. -/
def Ontology.taking (o : Ontology) (part : Part) (o' : Ontology) : Ontology :=
  match part with
  | .axioms => { o with axioms := o'.axioms }
  | .imports => { o with imports := o'.imports }
  | .annotations => { o with annotations := o'.annotations }

theorem Ontology.taking_self (o : Ontology) (part : Part) : o.taking part o = o := by cases part <;> rfl

theorem Ontology.taking_taking (o o' o'' : Ontology) (part : Part) :
    (o.taking part o').taking part o'' = o.taking part o'' := by cases part <;> rfl

/-- **From one world to another, nothing has changed but one part of one ontology.** No ontology is new or gone, and each
store has the same ontologies, in the same order. -/
structure World.Local (part : Ontology.Part) (id : Nat) (w w' : World) : Prop where
  others : ∀ j, j ≠ id → w'.ontology j = w.ontology j
  own : w'.ontology id = (w.ontology id).taking part (w'.ontology id)
  length : w'.ontologies.length = w.ontologies.length
  stores : w'.stores = w.stores
  installed : w'.installed = w.installed
  namespaces : w'.namespaces = w.namespaces

namespace World.Local

variable {part : Ontology.Part} {id : Nat} {w w' w'' : World} {o : Ontology}

theorem trans (h : w.Local part id w') (h' : w'.Local part id w'') : w.Local part id w'' where
  others j hj := (h'.others j hj).trans (h.others j hj)
  own := calc
    w''.ontology id = (w'.ontology id).taking part (w''.ontology id) := h'.own
    _ = ((w.ontology id).taking part (w'.ontology id)).taking part (w''.ontology id) :=
      congrArg (·.taking part (w''.ontology id)) h.own
    _ = (w.ontology id).taking part (w''.ontology id) := Ontology.taking_taking ..
  length := h'.length.trans h.length
  stores := h'.stores.trans h.stores
  installed := h'.installed.trans h.installed
  namespaces := h'.namespaces.trans h.namespaces

/-- What leaves alone all that is stored. -/
theorem of_same (hontologies : w'.ontologies = w.ontologies) (hstores : w'.stores = w.stores)
    (hinstalled : w'.installed = w.installed) (hnamespaces : w'.namespaces = w.namespaces) : w.Local part id w' where
  others j _ := by rw [ontology, ontology, hontologies]
  own := by
    have hsame : w'.ontology id = w.ontology id := by rw [ontology, ontology, hontologies]
    rw [hsame, Ontology.taking_self]
  length := congrArg List.length hontologies
  stores := hstores
  installed := hinstalled
  namespaces := hnamespaces

theorem refl (w : World) : w.Local part id w := of_same rfl rfl rfl rfl

/-- Putting an ontology in the place of one from which it differs in a part. -/
theorem setOntology (ho : o = (w.ontology id).taking part o) : w.Local part id (w.setOntology id o) where
  others j hj := ontology_setOntology_of_ne hj
  own := by
    by_cases hid : id < w.ontologies.length
    · rw [ontology_setOntology hid]
      exact ho
    · rw [setOntology_of_le (Nat.le_of_not_lt hid), Ontology.taking_self]
  length := List.length_set
  stores := rfl
  installed := rfl
  namespaces := rfl

end World.Local

/-! ## What a term denotes -/

/-- What is assumed of an environment: evaluating a delayed expression changes no more than one part of one ontology. -/
def Env.Local (env : Env) (part : Ontology.Part) (id : Nat) : Prop :=
  ∀ (body : Expr) (bound : Term) (c : Context) (w : World), w.Local part id (env.eval body bound c w).2

namespace Current

open Act

variable {env : Env} {w w' : World} {id : Nat} {t o : Term}

/-- **What is given as an ontology is no ontology but one**: it is that one, or the current ontology is if it is null, or
no ontology is found. -/
def Only (id : Nat) (t : Term) (env : Env) (w : World) : Prop :=
  ∀ j, (orGiven t env w).1 = .ok (.handle (.ontology j)) → j = id

/-- What is registered for the current namespace depends on the registrations alone. -/
theorem registered_congr (env : Env) (w : World) :
    ∃ r, ∀ v : World, v.namespaces = w.namespaces → registered .null env v = (r, v) := by
  have hrun : ∀ v, registered .null env v = (do
      requireStable env.context.space
      return ((← get).namespaces.lookup env.context.space).getD .null : Act Term) env v := fun _ => rfl
  cases h : env.context.space.isStable with
  | true =>
    refine ⟨.ok ((w.namespaces.lookup env.context.space).getD .null), fun v hv => ?_⟩
    rw [hrun, run_bind, run_requireStable h, ← hv]
    rfl
  | false =>
    refine ⟨.error .wrongSort, fun v _ => ?_⟩
    rw [hrun, run_bind, run_requireStable_of_not h]

/-- What is found depends on nothing else in the world, either. -/
theorem ontology_congr (hw : w'.namespaces = w.namespaces) (h : (ontology .null env w').1 = .ok t) :
    (ontology .null env w).1 = .ok t := by
  rw [ontology, run_bind, run_context] at h ⊢
  dsimp only at h ⊢
  generalize env.context.ontology = bound at h ⊢
  cases bound
  case null =>
    obtain ⟨r, hr⟩ := registered_congr env w
    dsimp only at h ⊢
    rw [run_bind, hr w' hw] at h
    rw [run_bind, hr w rfl]
    rcases r with e | found
    · cases h
    · cases found
      case null => cases h
      all_goals exact h
  all_goals exact h

theorem Only.self : Only id (.handle (.ontology id)) env w := by
  rintro j ⟨⟩
  rfl

/-- What may be given on for what has been found: it is no ontology but one, and not null. -/
def IsOnly (id : Nat) (o : Term) : Prop := o ≠ .null ∧ ∀ j, o = .handle (.ontology j) → j = id

theorem Only.of_given (h : Only id t env w) (hrun : orGiven t env w = (.ok o, w')) : IsOnly id o := by
  refine ⟨orGiven_ne_null hrun, fun j hj => h j ?_⟩
  rw [hrun, hj]

/-- What has been found is found again as long as the registrations are the same. -/
theorem Only.of_namespaces (h : Only id t env w) (hw : w'.namespaces = w.namespaces) : Only id t env w' := by
  intro j hj
  refine h j ?_
  unfold orGiven at hj ⊢
  split at hj
  · exact ontology_congr hw hj
  · exact hj

end Current

/-! ## Acts -/

/-- **A local act**, given a term for the ontology: it makes only local changes wherever the term denotes no other
ontology. -/
def Act.Local {α : Type} (part : Ontology.Part) (id : Nat) (t : Term) (x : Act α) : Prop :=
  ∀ env : Env, env.Local part id → ∀ w, Current.Only id t env w → w.Local part id (x env w).2

namespace Act.Local

variable {α β γ : Type} {part : Ontology.Part} {id : Nat} {t : Term}

theorem of_reads {x : Act α} (h : Reads x) : x.Local part id t := fun env _ w _ => by
  rw [h env w]
  exact .refl w

theorem of_looks {x : Act α} (h : x.Looks) : x.Local part id t := of_reads h.reads

theorem pure (a : α) : (Pure.pure a : Act α).Local part id t := of_reads (.pure a)

theorem throw (e : Fault) : (throw e : Act α).Local part id t := of_reads (.throw e)

theorem refuse (s : String) (u : Term) : (refuse s u : Act α).Local part id t := of_reads fun _ _ => rfl

theorem get : (MonadState.get : Act World).Local part id t := of_reads fun _ _ => rfl

theorem context : Act.context.Local part id t := of_reads fun _ _ => rfl

theorem leaves (ts : List Term) : (leaves ts).Local part id t := of_reads fun _ _ => rfl

/-- What is done to what is not stored. -/
theorem aside {f : World → World} (h : ∀ w, (f w).ontologies = w.ontologies ∧ (f w).stores = w.stores ∧
    (f w).installed = w.installed ∧ (f w).namespaces = w.namespaces) : (modify f : Act PUnit).Local part id t :=
  fun _ _ w _ => .of_same (h w).1 (h w).2.1 (h w).2.2.1 (h w).2.2.2

theorem bind {x : Act α} {f : α → Act β} (hx : x.Local part id t) (hf : ∀ a, (f a).Local part id t) :
    (x >>= f).Local part id t := by
  intro env henv w ho
  have hx := hx env henv w ho
  rw [run_bind]
  rcases h : x env w with ⟨e | a, w₁⟩ <;> rw [h] at hx
  · exact hx
  · exact hx.trans (hf a env henv w₁ (ho.of_namespaces hx.namespaces))

theorem ite {p : Prop} [Decidable p] {x y : Act α} (hx : x.Local part id t) (hy : y.Local part id t) :
    (if p then x else y).Local part id t := by
  split
  · exact hx
  · exact hy

theorem mapM {f : γ → Act β} {l : List γ} (h : ∀ c, (f c).Local part id t) : (l.mapM f).Local part id t := by
  induction l with
  | nil =>
    rw [List.mapM_nil]
    exact pure _
  | cons c l ih =>
    rw [List.mapM_cons]
    exact bind (h c) fun _ => bind ih fun _ => pure _

theorem forM {f : γ → Act PUnit} {l : List γ} (h : ∀ c, (f c).Local part id t) : (l.forM f).Local part id t := by
  induction l with
  | nil => exact pure _
  | cons c l ih => exact bind (h c) fun _ => ih

theorem attempt {x : Act α} (hx : x.Local part id t) : (Act.attempt x).Local part id t :=
  fun env henv w ho => hx env henv w ho

theorem evaluate (body : Expr) (bound : Term) : (Act.evaluate body bound).Local part id t :=
  fun env henv w _ => henv body bound env.context w

/-- What has been found for the ontology is no other one. What comes then may be local for that. -/
theorem found {o : Term} {x : Act α} (ho : Current.IsOnly id o) (hx : x.Local part id o) : x.Local part id t := by
  refine fun env henv w _ => hx env henv w fun j hj => ho.2 j ?_
  rw [Current.orGiven_of_ne_null ho.1] at hj
  exact Except.ok.inj hj

theorem finding {f : Term → Act α} (hf : ∀ o, Current.IsOnly id o → (f o).Local part id t) :
    (Current.orGiven t >>= f).Local part id t := by
  intro env henv w ho
  have hreads := Current.orGiven_reads t env w
  rw [run_bind]
  rcases hrun : Current.orGiven t env w with ⟨e | o, w₁⟩ <;> rw [hrun] at hreads <;> obtain rfl := hreads
  · exact .refl _
  · exact hf o (ho.of_given hrun) env henv _ ho

theorem given {f : Term → Act α} (hf : ∀ o, (f o).Local part id o) : (Current.orGiven t >>= f).Local part id t :=
  finding fun o ho => found ho (hf o)

/-- Only one ontology is worked on. -/
theorem asOntology {f : Nat → Act α} (hf : (f id).Local part id t) : (Act.asOntology t >>= f).Local part id t := by
  intro env henv w ho
  rw [run_bind]
  rcases hrun : Act.asOntology t env w with ⟨e | j, w₁⟩
  · have hreads := Reads.asOntology t env w
    rw [hrun] at hreads
    obtain rfl := hreads
    exact .refl _
  · obtain ⟨rfl, rfl⟩ := asOntology_ok hrun
    obtain rfl := ho j rfl
    exact hf env henv _ ho

end Act.Local

end Authoring
