import Authoring.Creation
import Authoring.Proofs.Change

/-!
# What a failed creation leaves

A call that creates an ontology checks its description before anything is done, and a description that is unfit
leaves the world as it is. What comes after the check is not undone. The ontology that had the IRI has been taken
out of the store and forgotten, and a new one stands in its place, before the annotations are made and added
and before the new ontology is registered for its namespace. So a call with a fit description that fails has
replaced an ontology all the same (`Creation.Supplanted`).

`Creation.Call.run_cases` says when a call fails, and `Creation.Call.failed_leaves` what it leaves.

**What carries the proof.** `World.supplant` is what creating an ontology makes of the world; nothing in it can
fail, and what really happens is this up to the log (`Store.run_create`). Then the naming function is set, which
touches the options of the new ontology only (`Creation.run_setNaming`), and annotations are added to the new
ontology up to the first that is none (`Store.run_forM_annotate`).

**What is assumed.** The installed store forgets what it removes, and the remove hooks that a script has
registered end without a fault and change nothing but the log (`World.Ready`, `Env.Observes`).
-/

namespace Authoring

/-! ## Keys that are handles -/

namespace Keyed

variable {β : Type} {h j : Handle} {v : β} {es : List (Term × β)}

/-- What a handle finds after a handle has been put, unless it is the one. -/
theorem lookup_put_handle (hne : j ≠ h) :
    (put (Term.handle h) v es).lookup (Term.handle j) = es.lookup (Term.handle j) := by
  have other : ∀ t : Term, (Term.handle h == t) = true → (Term.handle j == t) = false := by
    intro t ht
    rw [Term.handle_beq.mp ht]
    exact Bool.eq_false_iff.mpr fun hj => hne (Term.handle.inj (Term.handle_beq.mp hj)).symm
  induction es with
  | nil => simp [put, lookup_first, other _ BEq.rfl]
  | cons e es ih =>
    cases he : Term.handle h == e.1 with
    | true => simp [put, lookup_first, he, other _ he]
    | false => simp [put, lookup_first, he, ih]

/-- What a handle finds after a handle has been erased, unless it is the one. -/
theorem lookup_erase_handle (hne : j ≠ h) :
    (erase (Term.handle h) es).lookup (Term.handle j) = es.lookup (Term.handle j) := by
  induction es with
  | nil => rfl
  | cons e es ih =>
    cases he : Term.handle h == e.1 with
    | true =>
      have hj : (Term.handle j == e.1) = false := by
        rw [Term.handle_beq.mp he]
        exact Bool.eq_false_iff.mpr fun hj => hne (Term.handle.inj (Term.handle_beq.mp hj)).symm
      simpa [erase, he, lookup_first, hj] using ih
    | false => simpa [erase, he, lookup_first] using congrArg (if Term.handle j == e.1 then some e.2 else ·) ih

end Keyed

/-! ## An ontology in the place of another -/

namespace World

variable {w w' : World} {id : Nat} {store : Nat} {iri : String} {abbreviation : Term}

/-- The second world is the first but for the log. -/
def Logged (w w' : World) : Prop := ∃ log, w' = { w with log := log }

namespace Logged

theorem refl (w : World) : w.Logged w := ⟨w.log, rfl⟩

theorem trans {w'' : World} (h : w.Logged w') (h' : w'.Logged w'') : w.Logged w'' := by
  obtain ⟨l, rfl⟩ := h
  obtain ⟨l', rfl⟩ := h'
  exact ⟨l', rfl⟩

theorem forget (h : w.Logged w') (id : Nat) : (w.forget id).Logged (w'.forget id) := by
  obtain ⟨l, rfl⟩ := h
  exact ⟨l, rfl⟩

theorem manages (h : w.Logged w') (hw : w.Manages id) : w'.Manages id := by
  obtain ⟨l, rfl⟩ := h
  exact ⟨hw.exists_ontology, hw.holds⟩

theorem installed (h : w.Logged w') : w'.installed = w.installed := by
  obtain ⟨l, rfl⟩ := h
  rfl

theorem settings (h : w.Logged w') : w'.settings = w.settings := by
  obtain ⟨l, rfl⟩ := h
  rfl

end Logged

/-- Forgetting an ontology twice is forgetting it once. -/
theorem forget_forget (w : World) (id : Nat) : (w.forget id).forget id = w.forget id := by
  simp [World.forget, Keyed.erase, List.filter_filter]

/-- A world whose installed store is there and forgets what belongs to an ontology that it removes. -/
structure Ready (w : World) : Prop where
  sound : w.Sound
  installed : w.installed < w.stores.length
  forgets : Hook.forget ∈ (w.store w.installed).hooks

theorem Ready.initial (settings : Settings) : (World.initial settings).Ready :=
  ⟨.initial settings, Nat.one_pos, List.mem_singleton.mpr rfl⟩

/-- The world without the ontology under an IRI, if a store has one: it is taken out and forgotten. -/
def vacate (w : World) (store : Nat) (iri : String) : World :=
  match w.located store iri with
  | some id => (w.detach store iri).forget id
  | none => w

/-- The world with a new ontology under an IRI of a store, in the place of one that is there. -/
def supplant (w : World) (store : Nat) (iri : String) (abbreviation : Term) : World :=
  let (v, id) := (w.vacate store iri).allocate iri abbreviation
  v.attach store id

/-- A new ontology takes its place in a world whatever the log. -/
theorem Logged.supplant (store : Nat) (iri : String) (abbreviation : Term)
    (h : (w.vacate store iri).Logged w') :
    (w.supplant store iri abbreviation).Logged
      ((w'.allocate iri abbreviation).1.attach store w'.ontologies.length) := by
  obtain ⟨l, rfl⟩ := h
  exact ⟨l, rfl⟩

theorem store_setStore {s : Store} (h : store < w.stores.length) : (w.setStore store s).store store = s := by
  show (w.stores.set store s).getD store default = s
  rw [List.getD_eq_getElem?_getD, List.getElem?_set_self h, Option.getD_some]

@[simp] theorem vacate_ontologies : (w.vacate store iri).ontologies = w.ontologies := by
  unfold vacate
  split <;> rfl

@[simp] theorem vacate_installed : (w.vacate store iri).installed = w.installed := by
  unfold vacate
  split <;> rfl

@[simp] theorem vacate_options : (w.vacate store iri).options = w.options := by
  unfold vacate
  split <;> rfl

@[simp] theorem vacate_windows : (w.vacate store iri).windows = w.windows := by
  unfold vacate
  split <;> rfl

@[simp] theorem length_vacate_stores : (w.vacate store iri).stores.length = w.stores.length := by
  unfold vacate
  split
  · exact List.length_set
  · rfl

@[simp] theorem supplant_ontologies :
    (w.supplant store iri abbreviation).ontologies = w.ontologies ++ [⟨iri, abbreviation, [], [], []⟩] := by
  show (w.vacate store iri).ontologies ++ _ = _
  rw [vacate_ontologies]

@[simp] theorem supplant_installed : (w.supplant store iri abbreviation).installed = w.installed :=
  vacate_installed

theorem erase_of_lookup_none {es : List (String × Nat)} (h : es.lookup iri = none) : Keyed.erase iri es = es := by
  induction es with
  | nil => rfl
  | cons e es ih =>
    rw [Keyed.lookup_first] at h
    cases he : iri == e.1 with
    | true =>
      rw [he] at h
      cases h
    | false =>
      rw [he] at h
      simpa [Keyed.erase, he] using ih h

theorem put_erase (es : List (String × Nat)) :
    Keyed.put iri id (Keyed.erase iri es) = Keyed.erase iri es ++ [(iri, id)] :=
  Keyed.put_of_lookup_none (Keyed.lookup_erase_self iri es) id

/-- The entries of a store when an IRI has been vacated. -/
theorem vacate_entries (h : store < w.stores.length) :
    ((w.vacate store iri).store store).entries = Keyed.erase iri (w.store store).entries := by
  unfold vacate
  split
  · show ((w.setStore store _).store store).entries = _
    rw [store_setStore h]
  · exact (erase_of_lookup_none ‹_›).symm

/-- The entries of a store with a new ontology: the others, in their order, and then the new one. -/
theorem supplant_entries (h : store < w.stores.length) :
    ((w.supplant store iri abbreviation).store store).entries =
      Keyed.erase iri (w.store store).entries ++ [(iri, w.ontologies.length)] := by
  have hid : ((w.vacate store iri).allocate iri abbreviation).2 = w.ontologies.length :=
    congrArg List.length vacate_ontologies
  have hiri : (((w.vacate store iri).allocate iri abbreviation).1.ontology w.ontologies.length).iri = iri := by
    rw [← hid]
    show (((w.vacate store iri).ontologies ++ [_]).getD _ default).iri = iri
    rw [List.getD_eq_getElem?_getD, allocate, List.getElem?_concat_length, Option.getD_some]
  have hlength : store < ((w.vacate store iri).allocate iri abbreviation).1.stores.length :=
    length_vacate_stores.symm ▸ h
  have hentries : (((w.vacate store iri).allocate iri abbreviation).1.store store).entries =
      Keyed.erase iri (w.store store).entries := vacate_entries h
  unfold supplant attach
  dsimp only
  rw [store_setStore hlength, hid, hiri, hentries, put_erase]

theorem supplant_ontology_new :
    (w.supplant store iri abbreviation).ontology w.ontologies.length = ⟨iri, abbreviation, [], [], []⟩ := by
  rw [ontology, supplant_ontologies, List.getD_eq_getElem?_getD, List.getElem?_concat_length, Option.getD_some]

theorem supplant_ontology_of_lt (h : id < w.ontologies.length) :
    (w.supplant store iri abbreviation).ontology id = w.ontology id := by
  rw [ontology, ontology, supplant_ontologies, List.getD_eq_getElem?_getD, List.getElem?_append_left h,
    ← List.getD_eq_getElem?_getD]

/-- The store holds the new ontology. -/
theorem supplant_manages (h : w.installed < w.stores.length) :
    (w.supplant w.installed iri abbreviation).Manages w.ontologies.length := by
  refine ⟨by simp, ?_⟩
  have hnone : ∀ es : List (String × Nat), (Keyed.erase iri es).lookup iri = none := Keyed.lookup_erase_self iri
  rw [holds, located, supplant_installed, supplant_ontology_new, supplant_entries h, List.lookup_append, hnone]
  simp

/-- The world with further annotations of an ontology. -/
def annotated (w : World) (id : Nat) (notes : List Note) : World :=
  w.setOntology id { w.ontology id with annotations := (w.ontology id).annotations ++ notes }

theorem annotated_nil : w.annotated id [] = w := by
  rw [annotated, List.append_nil]
  exact setOntology_ontology

theorem annotated_annotated (h : id < w.ontologies.length) (notes more : List Note) :
    (w.annotated id notes).annotated id more = w.annotated id (notes ++ more) := by
  simp only [annotated, ontology_setOntology h, setOntology_setOntology, List.append_assoc]

end World

/-- Hooks of which those of a script end without a fault and change nothing but the log. -/
def Env.AreObserving (env : Env) (hooks : List Hook) : Prop :=
  ∀ callee, Hook.user callee ∈ hooks → ∀ id v, ∃ t v',
    Act.invoke callee [.handle (.ontology id)] env v = (.ok t, v') ∧ v.Logged v'

/-- The remove hooks of the installed store are such hooks. -/
def Env.Observes (env : Env) (w : World) : Prop := env.AreObserving (w.store w.installed).hooks

/-- A hook that logs what is removed, and does not fail, is such a hook. -/
theorem Env.Observes.of_logging {env : Env} {w : World}
    (h : ∀ callee, Hook.user callee ∈ (w.store w.installed).hooks → ∃ name, callee = .hook name false) :
    env.Observes w := by
  intro callee hcallee id v
  obtain ⟨name, rfl⟩ := h callee hcallee
  exact ⟨.null, _, rfl, _, rfl⟩

namespace Store

open Act

variable {env : Env} {w v : World} {id : Nat} {hooks : List Hook} {t : Term} {ts : List Term}

/-! ## Creating -/

/-- Where an ontology has been forgotten, its hooks change nothing but the log. -/
theorem run_hooks_of_forgotten (h : env.AreObserving hooks) (hv : v.forget id = v) :
    ∃ v', hooks.forM (runHook id) env v = (.ok ⟨⟩, v') ∧ v.Logged v' := by
  induction hooks generalizing v with
  | nil => exact ⟨v, rfl, .refl v⟩
  | cons hook hooks ih =>
    have tail : env.AreObserving hooks := fun c hc => h c (List.mem_cons_of_mem _ hc)
    rw [forM_cons, run_bind]
    cases hook with
    | forget =>
      have hrun : runHook id .forget env v = (.ok ⟨⟩, v) := congrArg (Prod.mk (Except.ok PUnit.unit)) hv
      rw [hrun]
      exact ih tail hv
    | user callee =>
      obtain ⟨u, v₁, hcall, hlog⟩ := h callee List.mem_cons_self id v
      have hrun : runHook id (.user callee) env v = (.ok ⟨⟩, v₁) := by
        rw [runHook, run_bind, hcall]
        rfl
      have hv₁ : v₁.forget id = v₁ := by
        obtain ⟨l, rfl⟩ := hlog
        exact congrArg (fun x : World => { x with log := l }) hv
      obtain ⟨v₂, hrest, hlog'⟩ := ih tail hv₁
      rw [hrun]
      exact ⟨v₂, hrest, hlog.trans hlog'⟩

/-- The hooks of a store that forgets what it removes forget the ontology. -/
theorem run_hooks (h : env.AreObserving hooks) (hf : Hook.forget ∈ hooks) (id : Nat) (v : World) :
    ∃ v', hooks.forM (runHook id) env v = (.ok ⟨⟩, v') ∧ (v.forget id).Logged v' := by
  induction hooks generalizing v with
  | nil => cases hf
  | cons hook hooks ih =>
    have tail : env.AreObserving hooks := fun c hc => h c (List.mem_cons_of_mem _ hc)
    rw [forM_cons, run_bind]
    cases hook with
    | forget => exact run_hooks_of_forgotten tail (v.forget_forget id)
    | user callee =>
      obtain ⟨u, v₁, hcall, hlog⟩ := h callee List.mem_cons_self id v
      have hrun : runHook id (.user callee) env v = (.ok ⟨⟩, v₁) := by
        rw [runHook, run_bind, hcall]
        rfl
      have hf : Hook.forget ∈ hooks := (List.mem_cons.mp hf).resolve_left nofun
      obtain ⟨v₂, hrest, hlog'⟩ := ih tail hf v₁
      rw [hrun]
      exact ⟨v₂, hrest, (hlog.forget id).trans hlog'⟩

/-- Taking out the ontology under an IRI ends without a fault, and forgets it. -/
theorem run_detach (hw : w.Ready) (ho : env.Observes w) {iri : String} (hid : w.located w.installed iri = some id) :
    ∃ w', detach w.installed iri id env w = (.ok ⟨⟩, w') ∧ (w.vacate w.installed iri).Logged w' := by
  obtain ⟨v, hrun, hlog⟩ := run_hooks ho hw.forgets id (w.detach w.installed iri)
  refine ⟨v, ?_, ?_⟩
  · simp only [detach, run_bind, run_get, run_modify, hrun]
  · rwa [World.vacate, hid]

/-- **Creating an ontology** puts a new one in the place of the one that has its IRI. It does not fail. -/
theorem run_create (hw : w.Ready) (ho : env.Observes w) (iri : String) (abbreviation : Term) :
    ∃ w', create w.installed (.text iri) abbreviation env w = (.ok w.ontologies.length, w') ∧
      (w.supplant w.installed iri abbreviation).Logged w' := by
  have hvacate : ∃ b v, remove w.installed (.iri iri) env w = (.ok b, v) ∧
      (w.vacate w.installed iri).Logged v := by
    have hremove : remove w.installed (.iri iri) env w = (match w.located w.installed iri with
        | some id => (do detach w.installed iri id; return true : Act Bool)
        | none => (return false : Act Bool)) env w := rfl
    rw [hremove]
    cases hid : w.located w.installed iri with
    | none =>
      refine ⟨false, w, rfl, ?_⟩
      rw [World.vacate, hid]
      exact .refl w
    | some id =>
      obtain ⟨v, hrun, hlog⟩ := run_detach hw ho hid
      refine ⟨true, v, ?_, hlog⟩
      dsimp only
      rw [run_bind, hrun]
      rfl
  obtain ⟨b, v, hrun, hlog⟩ := hvacate
  have hname : display (.text iri) env w = (.ok iri, w) := rfl
  have hid : v.ontologies.length = w.ontologies.length := by
    obtain ⟨l, rfl⟩ := hlog
    exact congrArg List.length World.vacate_ontologies
  refine ⟨(v.allocate iri abbreviation).1.attach w.installed v.ontologies.length, ?_, hlog.supplant _ _ _⟩
  rw [← hid]
  simp only [create, run_bind, hname, hrun, run_get, run_set, run_pure]
  rfl

/-! ## Annotations of the ontology -/

/-- The annotations before the first term that is none. -/
def leading (ts : List Term) : List Note :=
  (ts.takeWhile fun t => (Note.ofTerm? t).isSome).filterMap Note.ofTerm?

theorem leading_append_of_none {us : List Term} (h : ∃ t ∈ ts, Note.ofTerm? t = none) :
    leading (ts ++ us) = leading ts := by
  induction ts with
  | nil =>
    obtain ⟨t, ht, -⟩ := h
    cases ht
  | cons t ts ih =>
    unfold leading at ih ⊢
    cases ht : Note.ofTerm? t with
    | none => simp [ht]
    | some a => simpa [ht] using ih (by simpa [ht] using h)

theorem run_annotate (h : w.Manages id) (a : Note) (env : Env) :
    ∃ kept, kept.Sublist [a] ∧
      annotate w.installed (.handle (.ontology id)) a.toTerm env w = (.ok ⟨⟩, w.annotated id kept) := by
  have hrun : annotate w.installed (.handle (.ontology id)) a.toTerm env w =
      (.ok ⟨⟩, if (w.ontology id).annotations.any
          (fun b => (w.settle b.toTerm).agrees false false (w.settle a.toTerm)) then w
        else w.annotated id [a]) := by
    rw [annotate, run_bind, run_requireManaged h]
    rfl
  rw [hrun]
  split
  · exact ⟨[], List.nil_sublist _, by rw [World.annotated_nil]⟩
  · exact ⟨[a], List.Sublist.refl _, rfl⟩

theorem annotate_refused (h : w.Manages id) (ht : Note.ofTerm? t = none) (env : Env) :
    Refused env (annotate w.installed (.handle (.ontology id)) t) w := by
  refine .after (run_requireManaged h env) ?_
  rw [ht]
  exact .after (run_inspect t env w) .throw

/-- **Annotations are added one by one**, until something is none. -/
theorem run_forM_annotate (h : w.Manages id) (env : Env) (ts : List Term) :
    ∃ r kept, kept.Sublist (leading ts) ∧ ((∃ f, r = .error f) ↔ ∃ t ∈ ts, Note.ofTerm? t = none) ∧
      ts.forM (annotate w.installed (.handle (.ontology id))) env w = (r, w.annotated id kept) := by
  induction ts generalizing w with
  | nil => exact ⟨.ok ⟨⟩, [], List.nil_sublist _, by simp, by rw [World.annotated_nil]; rfl⟩
  | cons t ts ih =>
    rw [forM_cons, run_bind]
    cases ht : Note.ofTerm? t with
    | none =>
      obtain ⟨f, hrun⟩ := annotate_refused h ht env
      refine ⟨.error f, [], List.nil_sublist _, by simp [ht], ?_⟩
      rw [hrun, World.annotated_nil]
    | some a =>
      have hta : t = a.toTerm := by
        cases t <;> cases ht
        rfl
      subst hta
      obtain ⟨first, hfirst, hrun⟩ := run_annotate h a env
      obtain ⟨r, rest, hrest, hr, htail⟩ := ih (w := w.annotated id first) (h.setOntology rfl)
      refine ⟨r, first ++ rest, ?_, ?_, ?_⟩
      · simpa [leading, ht] using hfirst.append hrest
      · simp [hr, ht]
      · rw [hrun, ← World.annotated_annotated h.exists_ontology]
        exact htail

end Store

/-! ## Creating from a description -/

namespace World

variable {w : World} {store : Nat} {iri : String} {abbreviation : Term}

/-- Whether the language of the settings is one, or none. -/
def speaks (w : World) : Bool := w.settings.language == "" || Literal.isLanguage w.settings.language

theorem supplant_settings : (w.supplant store iri abbreviation).settings = w.settings := by
  show (w.vacate store iri).settings = w.settings
  unfold vacate
  split <;> rfl

/-- What is to be as before when a call has failed: the ontologies that the installed store lists, what the
ontologies contain, the options and the namespaces. -/
structure Intact (w w' : World) : Prop where
  listed : w'.listed w.installed = w.listed w.installed
  ontologies : ∀ id < w.ontologies.length, w'.ontology id = w.ontology id
  options : w'.options = w.options ∧ w'.optionsOf = w.optionsOf
  namespaces : w'.namespaces = w.namespaces

/-- The world with one ontology, whose store also calls a hook that logs. -/
def watched : World := single.setStore 0 ⟨[("o", 0)], [.forget, .user (.hook "h" false)]⟩

theorem watched_ready : watched.Ready where
  sound s hs e he := by
    rw [List.mem_singleton.mp hs] at he
    rw [List.mem_singleton.mp he]
    exact Nat.one_pos
  installed := Nat.one_pos
  forgets := List.mem_cons_self

theorem watched_observes (env : Env) : env.Observes watched := by
  refine .of_logging fun callee h => ⟨"h", ?_⟩
  rcases List.mem_cons.mp h with h | h
  · cases h
  · exact Hook.user.inj (List.mem_singleton.mp h)

end World

/-- Whether something is wrong with a checked description that is found out when its annotations are made and
added. -/
def Config.Faulty (c : Config) (w : World) : Prop :=
  (∃ t ∈ c.annotations, Note.ofTerm? t = none) ∨
    (c.comment.isSome = true ∨ c.versionInfo.isSome = true) ∧ w.speaks = false

namespace Creation

open Act

variable {env : Env} {w w' : World} {c : Config}

/-- **A new ontology in the place of another.** The new one has some annotations; all that belonged to the old one
is forgotten, and nothing else has changed. -/
structure Supplanted (c : Config) (notes : List Note) (w w' : World) : Prop where
  /-- The installed store has the other ontologies, in their order, and then the new one. -/
  listed : w'.listed w.installed =
    (Keyed.erase c.iri (w.store w.installed).entries).map (·.2) ++ [w.ontologies.length]
  created : w'.ontology w.ontologies.length = ⟨c.iri, .ofOption .text c.abbreviation, [], [], notes⟩
  /-- All ontologies have their axioms, imports and annotations, the old one too. -/
  others : ∀ id < w.ontologies.length, w'.ontology id = w.ontology id
  options : ∀ id < w.ontologies.length, w'.optionsOf.lookup (.handle (.ontology id)) =
    if w.located w.installed c.iri = some id then none else w.optionsOf.lookup (.handle (.ontology id))
  namespaces : w'.namespaces = w.namespaces.filter fun e =>
    !(w.located w.installed c.iri).any fun id => e.2 == .handle (.ontology id)
  windows : w'.windows = w.windows

/-- Where an ontology has been created the world is not intact: the store lists a new one. -/
theorem Supplanted.not_intact {notes : List Note} (h : Supplanted c notes w w') (hw : w.Ready) :
    ¬w.Intact w' := by
  intro hintact
  have hnew : w.ontologies.length ∈ w.listed w.installed := by
    rw [← hintact.listed, h.listed]
    exact List.mem_append_right _ List.mem_cons_self
  obtain ⟨e, he, heq⟩ := List.mem_map.mp hnew
  have hstore : w.store w.installed ∈ w.stores := by
    rw [World.store, List.getD_eq_getElem?_getD, List.getElem?_eq_getElem hw.installed]
    exact List.getElem_mem _
  have hlt := hw.sound _ hstore e he
  rw [heq] at hlt
  exact Nat.lt_irrefl _ hlt

/-- Reading the language of the settings only reads, and ends with a value exactly if it is one or none. -/
theorem run_languageOf (env : Env) (w : World) :
    ∃ r, Factory.languageOf (.text w.settings.language) env w = (r, w) ∧
      ((∃ f, r = .error f) ↔ w.speaks = false) := by
  unfold World.speaks
  generalize w.settings.language = s
  by_cases hs : s = ""
  · subst hs
    exact ⟨_, rfl, by simp⟩
  · have hrun : Factory.languageOf (.text s) env w =
        if Literal.isLanguage s then (.ok (some ⟨s, s, Text.quote s⟩), w)
        else (.error (.badValue (.language s)), w) := by
      rw [Factory.languageOf.eq_3 (.text s) nofun fun h => hs (Term.text.inj h)]
      show (if Literal.isLanguage s then _ else _ : Act (Option Language)) env w = _
      split <;> rfl
    rw [hrun]
    cases hl : Literal.isLanguage s with
    | true => exact ⟨_, rfl, by simp⟩
    | false => exact ⟨_, rfl, by simp [hs]⟩

/-- What a text of the description becomes is an annotation, if the language of the settings is one. -/
theorem run_describe (p : Term) (text : Option String) (env : Env) (w : World) :
    ∃ r, describe p text env w = (r, w) ∧ ((∃ f, r = .error f) ↔ text.isSome = true ∧ w.speaks = false) ∧
      ∀ ts, r = .ok ts → ∀ t ∈ ts, Note.ofTerm? t ≠ none := by
  cases text with
  | none => exact ⟨.ok [], rfl, by simp, by simp⟩
  | some s =>
    obtain ⟨r, hrun, hr⟩ := run_languageOf env w
    have hdescribe : describe p (some s) env w = match r with
        | .ok tag => (.ok [(⟨p, s, tag, none⟩ : Note).toTerm], w)
        | .error f => (.error f, w) := by
      simp only [describe, Factory.note, Factory.literal, run_bind, run_get, hrun]
      cases r <;> rfl
    rw [hdescribe]
    cases r with
    | ok tag => exact ⟨_, rfl, by simpa using hr, by rintro ts ⟨⟩; simp [Note.toTerm, Note.ofTerm?]⟩
    | error f => exact ⟨_, rfl, by simpa using hr, by rintro ts ⟨⟩⟩

/-- Sets the naming function of a new ontology, if it is to have one. -/
def setNaming (id : Nat) : Term → Act Unit
  | .null => pure ()
  | f => do Current.setNaming (← Current.options (.handle (.ontology id))) f

/-- Makes the annotations of a new ontology and adds them. -/
def annotate (c : Config) (store id : Nat) : Act Term := do
  let comments ← describe (Factory.comment Factory.shared) c.comment
  let versions ← describe (Factory.versionInfo Factory.shared) c.versionInfo
  (c.annotations ++ comments ++ versions).forM (Store.annotate store (.handle (.ontology id)))
  return .handle (.ontology id)

theorem build_eq (c : Config) : build c = (do
    let store ← Current.store
    let id ← Store.create store (.text c.iri) (.ofOption .text c.abbreviation)
    setNaming id c.naming
    annotate c store id) := by
  unfold build annotate
  congr
  funext store
  congr
  funext id
  cases c.naming <;> simp only [setNaming, bind_assoc, pure_bind]

/-- Setting the naming function of an ontology changes the options, and no other ontology's. -/
theorem run_setNaming (naming : Term) (id : Nat) (env : Env) (w : World) :
    ∃ options optionsOf, setNaming id naming env w =
        (.ok (), { w with options := options, optionsOf := optionsOf }) ∧
      (∀ j ≠ id, optionsOf.lookup (.handle (.ontology j)) = w.optionsOf.lookup (.handle (.ontology j))) ∧
      ∀ f ∈ options, f = .null ∨ f = naming ∨ f ∈ w.options := by
  unfold setNaming
  split
  · exact ⟨w.options, w.optionsOf, rfl, fun _ _ => rfl, fun f hf => .inr (.inr hf)⟩
  next f _ =>
    have hoptions : Current.options (.handle (.ontology id)) env w =
        match w.optionsOf.lookup (.handle (.ontology id)) with
        | some n => (.ok n, w)
        | none => (.ok w.options.length, { w with
            options := w.options ++ [.null]
            optionsOf := Keyed.put (.handle (.ontology id)) w.options.length w.optionsOf }) := by
      simp only [Current.options, Current.orGiven_handle, run_bind, run_pure,
        run_requireStable (t := .handle (.ontology id)) rfl, run_get]
      cases w.optionsOf.lookup (.handle (.ontology id)) <;> rfl
    rw [run_bind, hoptions]
    cases w.optionsOf.lookup (.handle (.ontology id)) with
    | some n =>
      refine ⟨_, w.optionsOf, rfl, fun _ _ => rfl, fun g hg => ?_⟩
      exact (List.mem_or_eq_of_mem_set hg).elim (fun h => .inr (.inr h)) fun h => .inr (.inl h)
    | none =>
      refine ⟨_, Keyed.put (.handle (.ontology id)) w.options.length w.optionsOf, rfl, fun j hj => ?_, fun g hg => ?_⟩
      · exact Keyed.lookup_put_handle fun h => hj (Handle.ontology.inj h)
      · rcases List.mem_or_eq_of_mem_set hg with hg | hg
        · exact (List.mem_append.mp hg).elim (fun h => .inr (.inr h)) fun h => .inl (List.mem_singleton.mp h)
        · exact .inr (.inl hg)

/-- **The annotations of a new ontology** are made and added, or those before the first fault. -/
theorem run_annotate {id : Nat} (h : w.Manages id) (c : Config) (env : Env) :
    ∃ r notes, annotate c w.installed id env w = (r, w.annotated id notes) ∧
      (r = .ok (.handle (.ontology id)) ∧ ¬c.Faulty w ∨
        (∃ f, r = .error f) ∧ c.Faulty w ∧ notes.Sublist (Store.leading c.annotations)) := by
  obtain ⟨r₁, hcomment, hfault₁, hnote₁⟩ := run_describe (Factory.comment Factory.shared) c.comment env w
  obtain ⟨r₂, hversion, hfault₂, hnote₂⟩ := run_describe (Factory.versionInfo Factory.shared) c.versionInfo env w
  unfold Config.Faulty annotate
  rw [run_bind, hcomment]
  cases r₁ with
  | error f =>
    have hf := hfault₁.mp ⟨f, rfl⟩
    exact ⟨.error f, [], by rw [World.annotated_nil],
      .inr ⟨⟨f, rfl⟩, .inr ⟨.inl hf.1, hf.2⟩, List.nil_sublist _⟩⟩
  | ok comments =>
    dsimp only
    rw [run_bind, hversion]
    cases r₂ with
    | error f =>
      have hf := hfault₂.mp ⟨f, rfl⟩
      exact ⟨.error f, [], by rw [World.annotated_nil],
        .inr ⟨⟨f, rfl⟩, .inr ⟨.inr hf.1, hf.2⟩, List.nil_sublist _⟩⟩
    | ok versions =>
      obtain ⟨r, notes, hnotes, hfault, hrun⟩ :=
        Store.run_forM_annotate h env (c.annotations ++ comments ++ versions)
      -- What the texts become are annotations, so what is refused is one of the given items.
      have hitems : (∃ t ∈ c.annotations ++ comments ++ versions, Note.ofTerm? t = none) ↔
          ∃ t ∈ c.annotations, Note.ofTerm? t = none := by
        constructor
        · rintro ⟨t, ht, hnone⟩
          rcases List.mem_append.mp ht with ht | ht
          · rcases List.mem_append.mp ht with ht | ht
            · exact ⟨t, ht, hnone⟩
            · exact absurd hnone (hnote₁ comments rfl t ht)
          · exact absurd hnone (hnote₂ versions rfl t ht)
        · rintro ⟨t, ht, hnone⟩
          exact ⟨t, List.mem_append_left _ (List.mem_append_left _ ht), hnone⟩
      have hspeaks : ¬((c.comment.isSome = true ∨ c.versionInfo.isSome = true) ∧ w.speaks = false) := by
        rintro ⟨hsome | hsome, hs⟩
        · obtain ⟨f, hf⟩ := hfault₁.mpr ⟨hsome, hs⟩
          cases hf
        · obtain ⟨f, hf⟩ := hfault₂.mpr ⟨hsome, hs⟩
          cases hf
      rw [hitems] at hfault
      dsimp only
      rw [run_bind, hrun]
      cases r with
      | ok u =>
        refine ⟨_, notes, rfl, .inl ⟨rfl, not_or.mpr ⟨fun hnone => ?_, hspeaks⟩⟩⟩
        obtain ⟨f, hf⟩ := hfault.mpr hnone
        cases hf
      | error f =>
        have hnone := hfault.mp ⟨f, rfl⟩
        refine ⟨_, notes, rfl, .inr ⟨⟨f, rfl⟩, .inl hnone, ?_⟩⟩
        rwa [List.append_assoc, Store.leading_append_of_none hnone] at hnotes

/-! ### Each step of the creation -/

namespace Supplanted

variable {v v' : World} {notes : List Note}

theorem supplant (hw : w.Ready) :
    Supplanted c [] w (w.supplant w.installed c.iri (.ofOption .text c.abbreviation)) where
  listed := by
    rw [World.listed, World.supplant_entries hw.installed, List.map_append]
    rfl
  created := World.supplant_ontology_new
  others _ h := World.supplant_ontology_of_lt h
  options id _ := by
    show (w.vacate w.installed c.iri).optionsOf.lookup _ = _
    unfold World.vacate
    cases w.located w.installed c.iri with
    | none => rfl
    | some old =>
      by_cases h : old = id
      · subst h
        rw [if_pos rfl]
        exact Keyed.lookup_erase_self _ _
      · rw [if_neg fun h' => h (Option.some.inj h')]
        exact Keyed.lookup_erase_handle fun h' => h (Handle.ontology.inj h').symm
  namespaces := by
    show (w.vacate w.installed c.iri).namespaces = _
    unfold World.vacate
    cases w.located w.installed c.iri with
    | none => exact (List.filter_eq_self.mpr fun _ _ => rfl).symm
    | some old => rfl
  windows := World.vacate_windows

theorem logged (h : Supplanted c notes w v) (hv : v.Logged v') : Supplanted c notes w v' := by
  obtain ⟨l, rfl⟩ := hv
  exact ⟨h.listed, h.created, h.others, h.options, h.namespaces, h.windows⟩

/-- The options of the new ontology do not count. -/
theorem named {options : List Term} {optionsOf : List (Term × Nat)} (h : Supplanted c notes w v)
    (hoptions : ∀ id ≠ w.ontologies.length,
      optionsOf.lookup (.handle (.ontology id)) = v.optionsOf.lookup (.handle (.ontology id))) :
    Supplanted c notes w { v with options := options, optionsOf := optionsOf } :=
  ⟨h.listed, h.created, h.others, fun id hid => (hoptions id (Nat.ne_of_lt hid)).trans (h.options id hid),
    h.namespaces, h.windows⟩

theorem annotated (h : Supplanted c [] w v) (hv : w.ontologies.length < v.ontologies.length) (notes : List Note) :
    Supplanted c notes w (v.annotated w.ontologies.length notes) where
  listed := h.listed
  created := by
    rw [World.annotated, World.ontology_setOntology hv, h.created]
    rfl
  others id hid := (World.ontology_setOntology_of_ne (Nat.ne_of_lt hid)).trans (h.others id hid)
  options := h.options
  namespaces := h.namespaces
  windows := h.windows

end Supplanted

/-- **Creating from a checked description** puts a new ontology in the place of the one that has its IRI, and
fails exactly if the description is faulty. -/
theorem run_build (hw : w.Ready) (ho : env.Observes w) (c : Config) :
    ∃ r w' notes, build c env w = (r, w') ∧ Supplanted c notes w w' ∧
      (r = .ok (.handle (.ontology w.ontologies.length)) ∧ ¬c.Faulty w ∨
        (∃ f, r = .error f) ∧ c.Faulty w ∧ notes.Sublist (Store.leading c.annotations)) := by
  obtain ⟨w₁, hcreate, hlog⟩ := Store.run_create hw ho c.iri (.ofOption .text c.abbreviation)
  have hmanages : w₁.Manages w.ontologies.length := hlog.manages (World.supplant_manages hw.installed)
  have hinstalled : w₁.installed = w.installed := hlog.installed.trans World.supplant_installed
  have hsettings : w₁.settings = w.settings := hlog.settings.trans World.supplant_settings
  have hfaulty : c.Faulty w₁ ↔ c.Faulty w := by
    rw [Config.Faulty, Config.Faulty, World.speaks, World.speaks, hsettings]
  obtain ⟨options, optionsOf, hnaming, hoptions, -⟩ := run_setNaming c.naming w.ontologies.length env w₁
  let w₂ : World := { w₁ with options := options, optionsOf := optionsOf }
  have hmanages₂ : w₂.Manages w.ontologies.length := ⟨hmanages.1, hmanages.2⟩
  have hsupplanted : Supplanted c [] w w₂ := ((Supplanted.supplant hw).logged hlog).named hoptions
  obtain ⟨r, notes, hrun, hend⟩ := run_annotate hmanages₂ c env
  refine ⟨r, _, notes, ?_, hsupplanted.annotated hmanages₂.exists_ontology notes, ?_⟩
  · simp only [build_eq, run_bind, Current.run_store, hcreate, hnaming]
    rw [← hinstalled]
    exact hrun
  · rw [← hfaulty]
    exact hend

/-! ## Calls -/

/-- A call that creates an ontology: what it is given as a description, and the namespace that the new ontology
is to be registered for, if it is. -/
structure Call where
  iri : Term
  abbreviation : Term := .null
  naming : Term := .null
  comment : Term := .null
  versionInfo : Term := .null
  annotations : Term := .null
  space : Option Term := none

namespace Call

def run (call : Call) : Act Term :=
  match call.space with
  | none => create call.iri call.abbreviation call.naming call.comment call.versionInfo call.annotations
  | some space =>
    define call.iri space call.abbreviation call.naming call.comment call.versionInfo call.annotations

/-- The description that is checked before anything is done. -/
def check (call : Call) (w : World) : Except Fault Config :=
  Config.check call.iri call.abbreviation call.naming call.comment call.versionInfo (w.spread call.annotations)

/-- Whether the namespace to register for can be no key. -/
def Homeless (call : Call) (env : Env) (w : World) : Prop :=
  ∃ space ∈ call.space, (if (w.settle space).isTruthy then space else env.context.space).isStable = false

variable {call : Call}

theorem run_create_of_error {f : Fault} (h : call.check w = .error f) :
    create call.iri call.abbreviation call.naming call.comment call.versionInfo call.annotations env w =
      (.error f, w) := by
  rw [create, run_bind, run_get]
  dsimp only
  rw [run_bind, show Config.check _ _ _ _ _ _ = _ from h]
  rfl

theorem run_create_of_ok (h : call.check w = .ok c) :
    create call.iri call.abbreviation call.naming call.comment call.versionInfo call.annotations env w =
      build c env w := by
  rw [create, run_bind, run_get]
  dsimp only
  rw [run_bind, show Config.check _ _ _ _ _ _ = _ from h]
  rfl

/-- Registering an ontology fails exactly for a namespace that can be no key, and then changes nothing. -/
theorem run_register (id : Nat) (space : Term) (env : Env) (w : World) :
    let chosen := if (w.settle space).isTruthy then space else env.context.space
    (chosen.isStable = true ∧ ∃ w', Current.register (.handle (.ontology id)) space env w = (.ok (), w')) ∨
      (chosen.isStable = false ∧
        Current.register (.handle (.ontology id)) space env w = (.error .wrongSort, w)) := by
  intro chosen
  have hspace : Current.spaceOr space env w = (.ok chosen, w) := by
    rw [Current.spaceOr, run_bind, run_isTruthy]
    simp only [chosen]
    split <;> rfl
  rw [Current.register, run_bind, hspace]
  dsimp only
  rw [run_bind]
  cases hs : chosen.isStable with
  | true =>
    rw [run_requireStable hs]
    exact .inl ⟨rfl, _, rfl⟩
  | false =>
    rw [run_requireStable_of_not hs]
    exact .inr ⟨rfl, rfl⟩

/-- **What a call does**: it is refused for its description, or it puts a new ontology in the place of the one
that has its IRI, and then fails exactly if the description is faulty or the namespace is none. -/
theorem run_cases (hw : w.Ready) (ho : env.Observes w) (call : Call) :
    (∃ f, call.check w = .error f ∧ call.run env w = (.error f, w)) ∨
      ∃ c, call.check w = .ok c ∧
        ((¬c.Faulty w ∧ ¬call.Homeless env w ∧ ∃ t w', call.run env w = (.ok t, w')) ∨
          ∃ f w' notes, call.run env w = (.error f, w') ∧ Supplanted c notes w w' ∧
            (c.Faulty w ∧ notes.Sublist (Store.leading c.annotations) ∨ ¬c.Faulty w ∧ call.Homeless env w)) := by
  cases hcheck : call.check w with
  | error f =>
    refine .inl ⟨f, rfl, ?_⟩
    unfold run
    cases call.space with
    | none => exact run_create_of_error hcheck
    | some space =>
      dsimp only
      rw [define, run_bind, run_create_of_error hcheck]
  | ok c =>
    refine .inr ⟨c, rfl, ?_⟩
    obtain ⟨r, w', notes, hbuild, hsupplanted, ⟨rfl, hfit⟩ | ⟨⟨f, rfl⟩, hfaulty, hnotes⟩⟩ := run_build hw ho c
    · unfold run Homeless
      cases hspace : call.space with
      | none =>
        exact .inl ⟨hfit, nofun, _, w', (run_create_of_ok hcheck).trans hbuild⟩
      | some space =>
        have hregister := run_register w.ontologies.length space env w'
        rw [World.settle_congr hsupplanted.windows] at hregister
        dsimp only
        rw [define, run_bind, run_create_of_ok hcheck, hbuild]
        dsimp only
        rw [run_bind]
        obtain ⟨hstable, w'', hrun⟩ | ⟨hstable, hrun⟩ := hregister
        · rw [hrun]
          refine .inl ⟨hfit, ?_, _, w'', rfl⟩
          rintro ⟨s, ⟨⟩, hs⟩
          rw [hstable] at hs
          cases hs
        · rw [hrun]
          exact .inr ⟨_, w', notes, rfl, hsupplanted, .inr ⟨hfit, space, rfl, hstable⟩⟩
    · refine .inr ⟨f, w', notes, ?_, hsupplanted, .inl ⟨hfaulty, hnotes⟩⟩
      unfold run
      cases call.space with
      | none => exact (run_create_of_ok hcheck).trans hbuild
      | some space =>
        dsimp only
        rw [define, run_bind, run_create_of_ok hcheck, hbuild]

/-- **What a failed call leaves.** The world is as it was exactly where the description was refused. Otherwise a
new ontology stands in the place of the one that had the IRI, and the call failed for an annotation, for the
language of annotations or for the namespace. -/
theorem failed_leaves (hw : w.Ready) (ho : env.Observes w) {f : Fault}
    (h : call.run env w = (.error f, w')) :
    (call.check w = .error f ∧ w' = w) ∨
      ∃ c notes, call.check w = .ok c ∧ Supplanted c notes w w' ∧ ¬w.Intact w' ∧
        (c.Faulty w ∧ notes.Sublist (Store.leading c.annotations) ∨ ¬c.Faulty w ∧ call.Homeless env w) := by
  obtain ⟨g, hcheck, hrun⟩ | ⟨c, hcheck, ⟨-, -, t, v, hrun⟩ | ⟨g, v, notes, hrun, hsupplanted, hwhy⟩⟩ :=
    run_cases hw ho call
  · rw [hrun] at h
    cases h
    exact .inl ⟨hcheck, rfl⟩
  · rw [hrun] at h
    cases h
  · rw [hrun] at h
    cases h
    exact .inr ⟨c, notes, hcheck, hsupplanted, hsupplanted.not_intact hw, hwhy⟩

/-- A call for the IRI of an ontology that there is, with a text in the place of the second annotation. -/
def unannotated : Call where
  iri := .text "o"
  annotations := .list [.note (.entity 0 ⟨.annotationProperty, "p"⟩) (.plain "v"), .text "x"]

theorem run_unannotated : ∃ f w', unannotated.run .plain .watched = (.error f, w') ∧ w'.listed 0 = [1] :=
  ⟨_, _, rfl, by decide⟩

/-- The call fails for the text, and the store no longer has the ontology that it had. -/
theorem failed_leaves_replaced :
    World.watched.Ready ∧ Env.plain.Observes .watched ∧ ∃ f w', unannotated.run .plain .watched = (.error f, w') ∧
      ¬World.watched.Intact w' := by
  obtain ⟨f, w', hrun, hlisted⟩ := run_unannotated
  refine ⟨World.watched_ready, World.watched_observes _, f, w', hrun, fun hintact => ?_⟩
  have hlisted' : w'.listed 0 = [0] := hintact.listed
  rw [hlisted] at hlisted'
  cases hlisted'

/-- What the call leaves. -/
theorem failed_leaves_unannotated : ∃ f w', unannotated.run .plain .watched = (.error f, w') ∧
    ((unannotated.check .watched = .error f ∧ w' = .watched) ∨
      ∃ c notes, unannotated.check .watched = .ok c ∧ Supplanted c notes .watched w' ∧ ¬World.watched.Intact w' ∧
        (c.Faulty .watched ∧ notes.Sublist (Store.leading c.annotations) ∨
          ¬c.Faulty .watched ∧ unannotated.Homeless .plain .watched)) := by
  obtain ⟨f, w', hrun, -⟩ := run_unannotated
  exact ⟨f, w', hrun, failed_leaves World.watched_ready (World.watched_observes _) hrun⟩

end Call

end Creation

end Authoring
