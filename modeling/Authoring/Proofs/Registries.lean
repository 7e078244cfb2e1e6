import Authoring.Proofs.Invariant.Service
import Authoring.Proofs.Store.Stale

/-!
# What the registries hold

Options and namespaces belong to ontologies (`World.Keeps`), and when the installed store removes or replaces an ontology
it forgets what belongs to it. But what is asked for, or registered, later on is not checked against the store: to ask for
the options of an ontology makes them, to find the IRI of a name asks for the options, and an ontology is registered
whether the store holds it or not. So something can belong to an ontology that has been removed
(`Session.Run.registries_stray`), and this is the only way.

**Along every run of the authoring layer and of what creates, removes, registers and asks about ontologies**
(`Session.Operation`), the registries hold only ontologies that the store holds, and ontologies that an operation has been
given when the store did not hold them (`Session.Run.registries`). If no operation is given such an ontology, every
ontology to which something belongs is held.

**What carries the proof.** `World.Tidy` says this of one world, beside that the store is in order. One operation keeps it
(`Session.Operation.run_tidy`). For a removal or a creation this is due to the hook of the store that forgets; all others
make records for ontologies that they are given, so to be tidy is an invariant of the authoring layer.

**What is assumed.** Each operation is done in a context of its own, so within whatever scopes. The installed store
forgets what it removes, and the remove hooks of a script end without a fault and only write the log (`World.Ready`,
`Env.Observes`). Producers and naming functions may use the authoring layer (`Env.Serves`).
-/

namespace Authoring

/-- An entry after a put was there before, or has the value that is put. -/
theorem Keyed.mem_put {α β : Type} [BEq α] {k : α} {v : β} {es : List (α × β)} {e : α × β} (h : e ∈ put k v es) :
    e ∈ es ∨ e.2 = v := by
  induction es with
  | nil => exact .inr (List.mem_singleton.mp h ▸ rfl)
  | cons f es ih =>
    rw [put] at h
    split at h
    · rcases List.mem_cons.mp h with rfl | h
      · exact .inr rfl
      · exact .inl (List.mem_cons_of_mem _ h)
    · rcases List.mem_cons.mp h with rfl | h
      · exact .inl List.mem_cons_self
      · exact (ih h).imp_left (List.mem_cons_of_mem _)

/-! ## Worlds -/

namespace World

variable {w w' w₀ : World} {S : Expr → Prop} {X : Nat → Prop} {s id j : Nat} {iri : String} {abbreviation : Term}

instance (w : World) (id : Nat) : Decidable (w.Recorded id) := inferInstanceAs (Decidable (_ = true))

/-- Something belongs to an ontology: an options record, or a namespace. -/
def Keeps (w : World) (id : Nat) : Prop := w.Recorded id ∨ w.Registered id

/-- The installed store holds an ontology, or else it is one of the given ones. -/
def Expects (X : Nat → Prop) (w : World) (id : Nat) : Prop := w.holds w.installed id = true ∨ X id

/-- **A tidy world**: whatever has options or a namespace is held by the installed store, but for some strays. -/
structure Tidy (S : Expr → Prop) (X : Nat → Prop) (w : World) : Prop where
  ready : w.Ready
  proper : w.Proper w.installed
  naming : w.NamesWithin S
  collected : w.Collected
  kept : ∀ id, w.Keeps id → w.Expects X id

theorem Tidy.initial (S : Expr → Prop) (X : Nat → Prop) (settings : Settings) : (World.initial settings).Tidy S X where
  ready := .initial settings
  proper := ⟨Nat.one_pos, List.nodup_nil, nofun⟩
  naming := nofun
  collected := nofun
  kept _ hid := hid.elim nofun nofun

/-! ### Changes that leave the stores alone -/

namespace Tidy

theorem setOntology (h : w.Tidy S X) {o : Ontology} (ho : o.iri = (w.ontology id).iri) :
    (w.setOntology id o).Tidy S X where
  ready := ⟨h.ready.sound.setOntology, h.ready.installed, h.ready.forgets⟩
  proper := h.proper.setOntology ho
  naming := h.naming
  collected := h.collected
  kept j hj := (h.kept j hj).imp_left fun hheld => (holds_setOntology ho _ j).trans hheld

theorem logged (h : w.Tidy S X) (hw : w.Logged w') : w'.Tidy S X := by
  obtain ⟨log, rfl⟩ := hw
  exact ⟨⟨h.ready.sound, h.ready.installed, h.ready.forgets⟩, ⟨h.proper.exists_store, h.proper.distinct, h.proper.own⟩,
    h.naming, h.collected, h.kept⟩

/-- Asking about ontologies, of which records may be made for those that are expected. -/
theorem consulted (h : w.Tidy S X) (hw : w.Consulted (w.Expects X) w') : w'.Tidy S X := by
  have hsame : w.SameStored w' := ⟨hw.ontologies, hw.stores⟩
  have expects : ∀ id, w.Expects X id → w'.Expects X id := fun id hid =>
    hid.imp_left fun hheld => by rwa [hw.installed, hw.holds]
  refine ⟨⟨h.ready.sound.of_untouched hw.toUntouched, ?_, ?_⟩, ?_, h.naming.of_untouched hw.toUntouched,
    h.collected.of_untouched hw.toUntouched, fun id hid => expects id ?_⟩
  · rw [hw.installed, hw.stores]
    exact h.ready.installed
  · rw [hw.installed, hsame.store]
    exact h.ready.forgets
  · rw [hw.installed]
    exact h.proper.of_sameStored hsame
  · rcases hid with hid | ⟨e, he, heq⟩
    · exact (hw.recorded id hid).elim (fun h' => h.kept id (.inl h')) fun h' => h'
    · exact h.kept id (.inr ⟨e, hw.namespaces ▸ he, heq⟩)

end Tidy

/-! ### Removing and creating -/

theorem recorded_forget (h : (w.forget id).Recorded j) : j ≠ id ∧ w.Recorded j := by
  have hne : j ≠ id := by
    rintro rfl
    rw [Recorded, forget, Keyed.lookup_erase_self] at h
    cases h
  rw [Recorded, forget, Keyed.lookup_erase_handle fun h' => hne (Handle.ontology.inj h')] at h
  exact ⟨hne, h⟩

/-- Nothing belongs to an ontology that has been forgotten, and to the others what belonged to them before. -/
theorem keeps_forget (h : (w.forget id).Keeps j) : j ≠ id ∧ w.Keeps j := by
  rcases h with h | ⟨e, he, heq⟩
  · exact (recorded_forget h).imp_right .inl
  · obtain ⟨he, hother⟩ := List.mem_filter.mp he
    refine ⟨?_, .inr ⟨e, he, heq⟩⟩
    rintro rfl
    rw [heq, BEq.rfl] at hother
    cases hother

theorem keeps_vacate (h : (w.vacate s iri).Keeps j) : w.located s iri ≠ some j ∧ w.Keeps j := by
  unfold vacate at h
  split at h
  next id hid =>
    obtain ⟨hne, hj⟩ := keeps_forget h
    exact ⟨fun h' => hne (Option.some.inj (h'.symm.trans hid)), hj⟩
  next hnone => exact ⟨fun h' => Option.some_ne_none j (h'.symm.trans hnone), h⟩

theorem keeps_supplant (h : (w.supplant s iri abbreviation).Keeps j) : w.located s iri ≠ some j ∧ w.Keeps j :=
  keeps_vacate h

/-- What a store in order holds, other than under an IRI, it lists when the IRI has been vacated. -/
theorem Proper.mem_erase (h : w.Proper s) (hid : w.holds s id = true) (hne : w.located s iri ≠ some id) :
    id ∈ (Keyed.erase iri (w.store s).entries).map (·.2) := by
  obtain ⟨e, he, rfl⟩ := List.mem_map.mp (h.holds_iff.mp hid)
  refine List.mem_map.mpr ⟨e, List.mem_filter.mpr ⟨he, ?_⟩, rfl⟩
  rw [Bool.not_eq_true', beq_eq_false_iff_ne]
  rintro rfl
  exact hne (lookup_eq_some_of_mem h.distinct he)

/-- What the installed store lists is an ontology that there is. -/
theorem Ready.exists_entry (h : w.Ready) {e : String × Nat} (he : e ∈ (w.store w.installed).entries) :
    e.2 < w.ontologies.length := by
  refine h.sound (w.store w.installed) ?_ e he
  rw [store, List.getD_eq_getElem?_getD, List.getElem?_eq_getElem h.installed, Option.getD_some]
  exact List.getElem_mem _

theorem Ready.setStore (h : w.Ready) {store : Store} (hs : ∀ e ∈ store.entries, e.2 < w.ontologies.length)
    (hforgets : Hook.forget ∈ store.hooks) : (w.setStore w.installed store).Ready where
  sound v hv e he := by
    rcases List.mem_or_eq_of_mem_set hv with hv | rfl
    · exact h.sound v hv e he
    · exact hs e he
  installed := by
    show w.installed < (w.stores.set _ _).length
    rw [List.length_set]
    exact h.installed
  forgets := by
    show Hook.forget ∈ ((w.setStore w.installed store).store w.installed).hooks
    rwa [store_setStore h.installed]

theorem Ready.vacate (h : w.Ready) (iri : String) : (w.vacate w.installed iri).Ready := by
  unfold World.vacate
  split
  · have hdetach : (w.detach w.installed iri).Ready :=
      h.setStore (fun e he => h.exists_entry (List.mem_of_mem_filter he)) h.forgets
    exact ⟨hdetach.sound, hdetach.installed, hdetach.forgets⟩
  · exact h

theorem Ready.attach (h : w.Ready) (iri : String) (abbreviation : Term) :
    ((w.allocate iri abbreviation).1.attach w.installed w.ontologies.length).Ready := by
  have hlength : (w.allocate iri abbreviation).1.ontologies.length = w.ontologies.length + 1 := List.length_append
  have hallocate : (w.allocate iri abbreviation).1.Ready :=
    ⟨fun v hs e he => hlength ▸ Nat.lt_add_right 1 (h.sound v hs e he), h.installed, h.forgets⟩
  refine hallocate.setStore (fun e he => ?_) hallocate.forgets
  rcases Keyed.mem_put he with he | he
  · exact hallocate.exists_entry he
  · rw [he, hlength]
    exact Nat.lt_add_one _

theorem Ready.supplant (h : w.Ready) (iri : String) (abbreviation : Term) :
    (w.supplant w.installed iri abbreviation).Ready := by
  have hready := (h.vacate iri).attach iri abbreviation
  rw [vacate_installed] at hready
  exact hready

namespace Tidy

theorem vacate (h : w.Tidy S X) (iri : String) : (w.vacate w.installed iri).Tidy S X := by
  have hproper : (w.vacate w.installed iri).Proper w.installed := (Store.Outcome.removed iri).proper h.proper
  refine ⟨h.ready.vacate iri, vacate_installed.symm ▸ hproper, ?_, ?_, fun id hid => ?_⟩
  · rw [NamesWithin, vacate_options]
    exact h.naming
  · rw [Collected, vacate_windows]
    exact h.collected
  · obtain ⟨hne, hid⟩ := keeps_vacate hid
    rw [Expects, vacate_installed, hproper.holds_iff, listed, vacate_entries h.ready.installed]
    exact (h.kept id hid).imp_left fun hheld => h.proper.mem_erase hheld hne

theorem supplant (h : w.Tidy S X) (iri : String) (abbreviation : Term) :
    (w.supplant w.installed iri abbreviation).Tidy S X := by
  have hproper : (w.supplant w.installed iri abbreviation).Proper w.installed :=
    (Store.Outcome.created iri abbreviation).proper h.proper
  have hv := h.vacate iri
  refine ⟨h.ready.supplant iri abbreviation, supplant_installed.symm ▸ hproper, hv.naming, hv.collected,
    fun id hid => ?_⟩
  obtain ⟨hne, hid⟩ := keeps_supplant hid
  rw [Expects, supplant_installed, hproper.holds_iff, listed, supplant_entries h.ready.installed, List.map_append]
  exact (h.kept id hid).imp_left fun hheld => List.mem_append_left _ (h.proper.mem_erase hheld hne)

end Tidy

/-- A world that has stayed tidy, and in which the same ontologies are held as in an earlier one. -/
structure TidySince (S : Expr → Prop) (X : Nat → Prop) (w₀ w : World) : Prop extends w.Tidy S X where
  same : ∀ id, w.holds w.installed id = w₀.holds w₀.installed id

theorem TidySince.expects (h : TidySince S X w₀ w) (id : Nat) : w.Expects X id ↔ w₀.Expects X id := by
  rw [Expects, Expects, h.same]

end World

/-! ## Acts -/

section
variable {env : Env} {w w₀ : World} {S : Expr → Prop} {X : Nat → Prop}

/-- **To be tidy is an invariant of the authoring layer**, if it is given no ontology but those that the store holds or
that are among the strays. -/
instance : Invariant (.lenient S (w₀.Expects X)) (World.TidySince S X w₀) where
  naming h := h.naming
  collected h := h.collected
  registered h id hid := (h.expects id).mp (h.kept id (.inr hid))
  consulted h hw :=
    ⟨h.toTidy.consulted ⟨hw.toUntouched, fun id hid => (hw.recorded id hid).imp_right (h.expects id).mpr⟩,
      fun id => by rw [hw.installed, hw.holds, h.same]⟩
  windows h _ hentity :=
    ⟨⟨⟨h.ready.sound, h.ready.installed, h.ready.forgets⟩, ⟨h.proper.exists_store, h.proper.distinct, h.proper.own⟩,
      h.naming, hentity, h.kept⟩, h.same⟩
  add h _ _ id :=
    ⟨h.toTidy.setOntology Ontology.add_iri, fun j => (World.holds_setOntology Ontology.add_iri _ j).trans (h.same j)⟩

open Act

/-- What is done after something has been read is done in the same world. -/
theorem Act.Reads.bind_world {α β : Type} {P : World → Prop} {x : Act α} {f : α → Act β} (hx : Reads x) (hw : P w)
    (hf : ∀ a, P (f a env w).2) : P ((x >>= f) env w).2 := by
  have hread := hx env w
  rw [run_bind]
  rcases hrun : x env w with ⟨e | a, w₁⟩ <;> rw [hrun] at hread
  · exact hread ▸ hw
  · subst hread
    exact hf a

/-- What belonged to ontologies belongs to them when another is registered, and to that one. -/
theorem Current.register_tidy (h : w.Tidy S X) {o : Term} (ho : ∀ id, o = .handle (.ontology id) → w.Expects X id)
    (space : Term) (env : Env) : (Current.register o space env w).2.Tidy S X := by
  refine Reads.bind_world (Current.spaceOr_reads space) h fun s => ?_
  refine Reads.bind_world (.requireStable s) h fun _ => ?_
  have hput : ({ w with namespaces := Keyed.put s o w.namespaces } : World).Tidy S X := by
    refine ⟨⟨h.ready.sound, h.ready.installed, h.ready.forgets⟩, ⟨h.proper.exists_store, h.proper.distinct, h.proper.own⟩,
      h.naming, h.collected, fun id hid => ?_⟩
    rcases hid with hid | ⟨e, he, heq⟩
    · exact h.kept id (.inl hid)
    · rcases Keyed.mem_put he with he | he
      · exact h.kept id (.inr ⟨e, he, heq⟩)
      · exact ho id (he.symm.trans heq)
  rw [run_bind, run_modify]
  exact Reads.bind_world (.iriOf o) hput fun _ => hput

/-- A naming function of an options record that calls nothing else. -/
theorem World.Tidy.name (h : w.Tidy S X) {options : List Term} {optionsOf : List (Term × Nat)}
    (hnaming : ∀ f ∈ options, ∀ b ∈ f.bodies, S b)
    (hoptions : ∀ id, (optionsOf.lookup (.handle (.ontology id))).isSome = true → w.Expects X id) :
    ({ w with options := options, optionsOf := optionsOf } : World).Tidy S X :=
  ⟨⟨h.ready.sound, h.ready.installed, h.ready.forgets⟩, ⟨h.proper.exists_store, h.proper.distinct, h.proper.own⟩,
    hnaming, h.collected, fun id hid => hid.elim (hoptions id) fun hid => h.kept id (.inr hid)⟩

/-- Removing an ontology, or nothing. -/
theorem Store.remove_tidy (h : w.Tidy S X) (ho : env.Observes w) (t : Term) :
    (Store.remove w.installed t env w).2.Tidy S X := by
  have detached : ∀ {id : Nat} {iri : String} {b : Bool}, w.located w.installed iri = some id →
      ((do Store.detach w.installed iri id; return b : Act Bool) env w).2.Tidy S X := by
    intro id iri b hid
    obtain ⟨w', hrun, hlog⟩ := Store.run_detach h.ready ho hid
    rw [run_bind, hrun]
    exact (h.vacate iri).logged hlog
  by_cases ht : ∃ id, t = .handle (.ontology id)
  · obtain ⟨id, rfl⟩ := ht
    show ((if w.holds w.installed id then _ else _ : Act Bool) env w).2.Tidy S X
    split
    next hid => exact detached (by simpa [World.holds] using hid)
    · exact h
  · rw [Store.remove.eq_2 _ t fun id heq => ht ⟨id, heq⟩]
    refine Reads.bind_world (fun _ _ => rfl) h fun iri => ?_
    rw [run_bind, run_get]
    dsimp only
    cases hid : w.located w.installed iri with
    | none => exact h
    | some id => exact detached hid

theorem Config.naming_of_check {iri abbreviation naming comment versionInfo annotations : Term} {c : Config}
    (h : Config.check iri abbreviation naming comment versionInfo annotations = .ok c) : c.naming = naming := by
  unfold Config.check at h
  split at h
  · rw [← Except.ok.inj h]
  · cases h

/-- Creating an ontology from a checked description: the new one is held, and nothing belongs to the old one. -/
theorem Creation.build_tidy (h : w.Tidy S X) (ho : env.Observes w) {c : Config} (hc : ∀ b ∈ c.naming.bodies, S b) :
    (Creation.build c env w).2.Tidy S X ∧ ∀ t, (Creation.build c env w).1 = .ok t →
      ∀ id, t = .handle (.ontology id) → (Creation.build c env w).2.Expects X id := by
  obtain ⟨w₁, hcreate, hlog⟩ := Store.run_create h.ready ho c.iri (.ofOption .text c.abbreviation)
  have h₁ : w₁.Tidy S X := (h.supplant c.iri _).logged hlog
  have hinstalled : w₁.installed = w.installed := hlog.installed.trans World.supplant_installed
  have hmanages : w₁.Manages w.ontologies.length := hlog.manages (World.supplant_manages h.ready.installed)
  obtain ⟨options, optionsOf, hnaming, hothers, hnames⟩ := Creation.run_setNaming c.naming w.ontologies.length env w₁
  let w₂ : World := { w₁ with options := options, optionsOf := optionsOf }
  have h₂ : w₂.Tidy S X := by
    refine h₁.name (fun f hf b hb => ?_) fun id hid => ?_
    · rcases hnames f hf with rfl | rfl | hf
      · cases hb
      · exact hc b hb
      · exact h₁.naming f hf b hb
    · by_cases hnew : id = w.ontologies.length
      · exact .inl (hnew ▸ hmanages.holds)
      · rw [hothers id hnew] at hid
        exact h₁.kept id (.inl hid)
  have hmanages₂ : w₂.Manages w.ontologies.length := ⟨hmanages.1, hmanages.2⟩
  obtain ⟨r, notes, hannotate, hend⟩ := Creation.run_annotate hmanages₂ c env
  have hbuild : Creation.build c env w = (r, w₂.annotated w.ontologies.length notes) := by
    simp only [Creation.build_eq, run_bind, Current.run_store, hcreate, hnaming]
    rw [← hinstalled]
    exact hannotate
  rw [hbuild]
  refine ⟨h₂.setOntology rfl, fun t ht id hid => .inl ?_⟩
  rcases hend with ⟨hok, -⟩ | ⟨⟨f, hf⟩, -⟩
  · obtain rfl : w.ontologies.length = id := Handle.ontology.inj (Term.handle.inj (Except.ok.inj (hok.symm.trans ht) ▸ hid))
    exact World.Manages.holds (w := w₂.annotated _ notes) (hmanages₂.setOntology rfl)
  · cases hf.symm.trans ht

theorem Creation.create_tidy (h : w.Tidy S X) (ho : env.Observes w) {call : Creation.Call}
    (hc : ∀ b ∈ call.naming.bodies, S b) :
    let x := create call.iri call.abbreviation call.naming call.comment call.versionInfo call.annotations
    (x env w).2.Tidy S X ∧ ∀ t, (x env w).1 = .ok t →
      ∀ id, t = .handle (.ontology id) → (x env w).2.Expects X id := by
  intro x
  cases hcheck : call.check w with
  | error f =>
    rw [show x env w = (.error f, w) from Call.run_create_of_error hcheck]
    exact ⟨h, nofun⟩
  | ok c =>
    rw [show x env w = build c env w from Call.run_create_of_ok hcheck]
    exact build_tidy h ho (Config.naming_of_check hcheck ▸ hc)

/-- A call that creates an ontology, and registers it if it is to, however it ends. -/
theorem Creation.Call.run_tidy (h : w.Tidy S X) (ho : env.Observes w) {call : Creation.Call}
    (hc : ∀ b ∈ call.naming.bodies, S b) : (call.run env w).2.Tidy S X := by
  obtain ⟨htidy, hcreated⟩ := Creation.create_tidy h ho hc
  unfold Creation.Call.run
  cases call.space with
  | none => exact htidy
  | some space =>
    dsimp only
    rw [Creation.define, run_bind]
    rcases hrun : create call.iri call.abbreviation call.naming call.comment call.versionInfo call.annotations env w
      with ⟨e | t, w'⟩ <;> rw [hrun] at htidy hcreated
    · exact htidy
    · dsimp only
      rw [Store.run_answered]
      exact Current.register_tidy htidy (hcreated t rfl) space env

end

/-! ## Sessions -/

namespace Session

open Act

/-- What can be done with ontologies and in them: to create and remove them, to ask for their options, to set their naming
functions, to register them, to find IRIs and read references, and whatever the authoring layer does. -/
inductive Operation where
  | create (call : Creation.Call)
  | remove (t : Term)
  | options (ontology : Term)
  | assign (ontology naming : Term)
  | register (ontology space : Term)
  | iriFor (name ontology : Term)
  | resolve (t expected ontology : Term) (maker : Option Nat)
  | perform (p : Plan)

namespace Operation

def run : Operation → Act Term
  | create call => call.run
  | remove t => do return .bool (← Store.remove (← Current.store) t)
  | options o => do return .handle (.options (← Current.options o))
  | assign o naming => do
    Current.assignNaming o naming
    return .null
  | register o space => do
    Current.register o space
    return .null
  | iriFor name o => do return .iri (← Current.iriForName name o)
  | resolve t expected o maker => Reference.resolveAs t expected o maker
  | perform p => p.run

/-- What an operation is given meets a policy: the ontologies may be worked on, and what is called may be called. Any
ontology may be removed. -/
def Meets (π : Policy) : Operation → Prop
  | create call => ∀ b ∈ call.naming.bodies, π.producers b
  | remove _ => True
  | options o | register o _ | iriFor _ o => π.Targets o
  | assign o naming => π.Targets o ∧ ∀ b ∈ naming.bodies, π.producers b
  | resolve t _ o _ => t.Meets π ∧ π.Targets o
  | perform p => p.Meets π

variable {env : Env} {w w₀ : World} {S : Expr → Prop} {X : Nat → Prop}

theorem assign_upholds {o naming : Term} (ho : (Policy.lenient S (w₀.Expects X)).Targets o) (hn : ∀ b ∈ naming.bodies, S b) :
    Upholds (.lenient S (w₀.Expects X)) (World.TidySince S X w₀) (Current.assignNaming o naming) fun _ => True := by
  have set : ∀ (n : Nat) {f : Term}, (∀ b ∈ f.bodies, S b) →
      Upholds (.lenient S (w₀.Expects X)) (World.TidySince S X w₀) (Current.setNaming n f) fun _ => True := by
    intro n f hf
    refine .modify fun w hw => ⟨hw.toTidy.name (fun g hg => ?_) fun id hid => hw.kept id (.inl hid), hw.same⟩
    rcases List.mem_or_eq_of_mem_set hg with hg | rfl
    · exact hw.naming g hg
    · exact hf
  refine .bind (.options ho) fun n _ => ?_
  split
  · exact set n nofun
  · exact .ite (fun _ => set n hn) fun _ => .throw

/-- **One operation leaves a tidy world tidy**, however it ends. -/
theorem run_tidy (h : w.Tidy S X) (ho : env.Observes w)
    (henv : env.Serves (.lenient S (w.Expects X)) (World.TidySince S X w)) {op : Operation}
    (hop : op.Meets (.lenient S (w.Expects X))) : (op.run env w).2.Tidy S X := by
  have upheld : ∀ {x : Act Term}, Upholds (.lenient S (w.Expects X)) (World.TidySince S X w) x (fun _ => True) →
      (x env w).2.Tidy S X := fun hx => (hx env henv w ⟨h, fun _ => rfl⟩).1.toTidy
  cases op with
  | create call => exact Creation.Call.run_tidy h ho hop
  | remove t =>
    rw [run, run_bind, Current.run_store]
    dsimp only
    have hremove := Store.remove_tidy h ho t
    rw [run_bind]
    rcases hrun : Store.remove w.installed t env w with ⟨e | b, w'⟩ <;> rw [hrun] at hremove
    · exact hremove
    · exact hremove
  | options o => exact upheld (.bind (.options hop) fun _ _ => .pure trivial)
  | assign o naming => exact upheld (.bind (assign_upholds hop.1 hop.2) fun _ _ => .pure trivial)
  | register o space =>
    rw [run, Store.run_answered]
    exact Current.register_tidy h hop space env
  | iriFor name o => exact upheld (.bind (.iriForName name hop) fun _ _ => .pure trivial)
  | resolve t expected o maker => exact upheld (Reference.resolveAs_upholds hop.2 hop.1 expected maker)
  | perform p => exact upheld ((p.run_upholds Policy.lenient_closed hop).mono fun _ _ => trivial)

/-- **To ask for the options of an ontology, or to register it, is not checked**: if the store does not hold it,
something belongs to it then all the same. -/
theorem run_stray {id : Nat} (h : w.holds w.installed id = false) {op : Operation}
    (hop : op = options (.handle (.ontology id)) ∨
      ∃ space, op = register (.handle (.ontology id)) (.text space) ∧ space ≠ "") :
    (op.run env w).2.Keeps id ∧ (op.run env w).2.holds w.installed id = false := by
  rcases hop with rfl | ⟨space, rfl, hspace⟩
  · simp only [run, Current.options, Current.orGiven_handle, run_bind, run_pure,
      run_requireStable (t := .handle (.ontology id)) rfl, run_get]
    cases hid : w.optionsOf.lookup (.handle (.ontology id)) with
    | some n => exact ⟨.inl (Option.isSome_of_eq_some hid), h⟩
    | none => exact ⟨.inl (Option.isSome_of_eq_some (Keyed.lookup_put_self _ _ _)), h⟩
  · have hrun : ((register (.handle (.ontology id)) (.text space)).run env w).2 =
        { w with namespaces := Keyed.put (.text space) (.handle (.ontology id)) w.namespaces } := by
      have htruthy : (w.settle (.text space)).isTruthy = true := bne_iff_ne.mpr hspace
      simp only [run, Current.register, Current.spaceOr, run_bind, run_isTruthy, htruthy, if_true, run_pure,
        run_requireStable (t := .text space) rfl, run_modify]
      rfl
    obtain ⟨key, hkey⟩ := Keyed.exists_mem_of_lookup
      (Keyed.lookup_put_self (.text space) (Term.handle (.ontology id)) w.namespaces)
    rw [hrun]
    exact ⟨.inr ⟨_, hkey, rfl⟩, h⟩

end Operation

/-- One operation, in whatever context. The ontologies that it is given are held, or they are among the strays. -/
def Step (S : Expr → Prop) (X : Nat → Prop) (w w' : World) : Prop :=
  ∃ (env : Env) (op : Operation), env.Observes w ∧ env.Serves (.lenient S (w.Expects X)) (World.TidySince S X w) ∧
    op.Meets (.lenient S (w.Expects X)) ∧ w' = (op.run env w).2

/-- **A run**: operations in any order, of which any may fail. -/
def Run (S : Expr → Prop) (X : Nat → Prop) : World → World → Prop := Relation.ReflTransGen (Step S X)

namespace Run

variable {w w' : World} {S : Expr → Prop} {X : Nat → Prop}

/-- A run leaves a tidy world tidy. -/
theorem tidy (hrun : Run S X w w') (h : w.Tidy S X) : w'.Tidy S X := by
  induction hrun with
  | refl => exact h
  | tail _ hstep ih =>
    obtain ⟨env, op, ho, henv, hop, rfl⟩ := hstep
    exact op.run_tidy ih ho henv hop

/-- **The registries hold only ontologies that the store holds**, and such that an operation has been given when the store
did not hold them. -/
theorem registries (h : w.Tidy S X) (hrun : Run S X w w') {id : Nat} (hid : w'.Keeps id) :
    w'.holds w'.installed id = true ∨ X id := (hrun.tidy h).kept id hid

/-- A step where no remove hook has been registered and delayed expressions do nothing. -/
theorem plain_step (h : (w.store w.installed).hooks = [.forget]) {op : Operation}
    (hop : op.Meets (.lenient S (w.Expects X))) : Step S X w (op.run .plain w).2 := by
  refine ⟨.plain, op, fun callee hcallee => ?_, ⟨⟨nofun, nofun⟩, fun _ _ _ _ _ _ hv => ⟨hv, fun _ ht => ?_⟩⟩, hop, rfl⟩
  · rw [h] at hcallee
    cases List.mem_singleton.mp hcallee
  · exact Except.ok.inj ht ▸ trivial

/-- What operations make of the world before anything has been done. -/
def outcome (ops : List Operation) : World := ops.foldl (fun w op => (op.run .plain w).2) (.initial ⟨"en", "#"⟩)

/-- **A stray**: an ontology is created and removed, and then registered for a namespace. -/
theorem registries_stray :
    let ops : List Operation := [.create { iri := .text "a" }, .remove (.handle (.ontology 0)),
      .register (.handle (.ontology 0)) (.text "n")]
    Run (fun _ => True) (fun _ => True) (.initial ⟨"en", "#"⟩) (outcome ops) ∧ (outcome ops).Keeps 0 ∧
      (outcome ops).holds (outcome ops).installed 0 = false := by
  intro ops
  refine ⟨?_, .inr ⟨_, List.mem_cons_self, rfl⟩, by decide⟩
  have created : Run (fun _ => True) (fun _ => True) (outcome []) (outcome (ops.take 1)) := .single (plain_step rfl nofun)
  have removed : Run (fun _ => True) (fun _ => True) (outcome []) (outcome (ops.take 2)) :=
    created.tail (plain_step rfl trivial)
  exact removed.tail (plain_step rfl fun _ _ => .inr trivial)

/-- Two ontologies are created, of which one is registered; a name of the other one is read, which makes its options; it
is removed, and options are made for the first. -/
theorem registries_live :
    let ops : List Operation := [.create { iri := .text "a" }, .create { iri := .text "b", space := some (.text "n") },
      .iriFor (.text "x") (.handle (.ontology 0)), .remove (.handle (.ontology 0)), .options (.handle (.ontology 1))]
    (outcome (ops.take 3)).Recorded 0 ∧ ¬(outcome ops).Recorded 0 ∧ (outcome ops).Keeps 1 ∧
      ((outcome ops).holds (outcome ops).installed 1 = true ∨ False) := by
  intro ops
  let S : Expr → Prop := fun _ => True
  have targets : ∀ {w : World} {id : Nat}, w.holds w.installed id = true →
      (Policy.lenient S (w.Expects fun _ => False)).Targets (.handle (.ontology id)) := by
    rintro w id h _ ⟨⟩
    exact .inl h
  have created : Run S (fun _ => False) (outcome []) (outcome (ops.take 1)) := .single (plain_step rfl nofun)
  have defined : Run S (fun _ => False) (outcome []) (outcome (ops.take 2)) := created.tail (plain_step rfl nofun)
  have asked : Run S (fun _ => False) (outcome []) (outcome (ops.take 3)) :=
    defined.tail (plain_step rfl (targets (by decide)))
  have removed : Run S (fun _ => False) (outcome []) (outcome (ops.take 4)) := asked.tail (plain_step rfl trivial)
  have again : Run S (fun _ => False) (outcome []) (outcome ops) := removed.tail (plain_step rfl (targets (by decide)))
  have hkept : (outcome ops).Keeps 1 := .inl (by decide)
  exact ⟨by decide, by decide, hkept, registries (.initial _ _ _) again hkept⟩

end Run

end Session

end Authoring
