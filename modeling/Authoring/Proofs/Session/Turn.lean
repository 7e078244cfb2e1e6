import Authoring.Proofs.Alike
import Authoring.Proofs.Registries
import Mathlib.Data.List.Nodup

/-!
# What is done to the registries

An ontology can have options, and it can be registered for namespaces. What is done to ontologies changes this in
five ways: an ontology is taken out of the installed store and forgotten, a new one is put into it, an ontology is given a
naming function, it is registered for a namespace, or none of this happens. A `Turn` says which ontology is gone, which is
new, which is given which naming function, and which is registered for which namespace; all else is as before. Turns
compose (`Turn.trans`), so what a creation does, which is all of this in turn, is put together from its parts.

The registries are kept *in order* by every turn (`World.Regular`): namespaces are texts, each with one ontology, and no
two ontologies share a record of options. Ontologies that are still to be made have no record, so a new ontology starts
without a naming function, whatever its IRI.

**What is assumed.** The installed store forgets what it removes before it calls any other hook. The other hooks leave
alone the ontologies, the stores and what belongs to ontologies (`Env.Confines`). They may fail, and do anything else.
-/

namespace Authoring

/-! ## Keyed lists without double keys -/

namespace Keyed

variable {α β : Type} [BEq α] {k : α} {v : β} {es : List (α × β)}

/-- A key finds the entries that have it, if no key occurs twice and the key agrees with none but itself. -/
theorem lookup_eq_some_iff_mem (hd : (es.map (·.1)).Nodup) (hk : ∀ e ∈ es, (k == e.1) = true ↔ k = e.1) :
    es.lookup k = some v ↔ (k, v) ∈ es := by
  induction es with
  | nil => simp
  | cons e es ih =>
    obtain ⟨he, hd⟩ := List.nodup_cons.mp hd
    have ih := ih hd fun f hf => hk f (List.mem_cons_of_mem _ hf)
    have hkey := hk e List.mem_cons_self
    rw [lookup_first, List.mem_cons]
    by_cases heq : k = e.1
    · rw [if_pos (hkey.mpr heq), Option.some.injEq]
      constructor
      · rintro rfl
        exact .inl (by rw [heq])
      · rintro (h | h)
        · rw [← h]
        · exact absurd (List.mem_map.mpr ⟨_, h, heq⟩) he
    · rw [if_neg fun h => heq (hkey.mp h), ih]
      refine ⟨.inr, fun h => h.resolve_left fun h => heq ?_⟩
      rw [← h]

/-- What there is after a put, if no key occurs twice and the key agrees with none but itself. -/
theorem mem_put_iff (hd : (es.map (·.1)).Nodup) (hk : ∀ e ∈ es, (k == e.1) = true ↔ k = e.1) {j : α} {u : β} :
    (j, u) ∈ put k v es ↔ j = k ∧ u = v ∨ j ≠ k ∧ (j, u) ∈ es := by
  induction es with
  | nil => simp [put]
  | cons e es ih =>
    obtain ⟨he, hd⟩ := List.nodup_cons.mp hd
    have ih := ih hd fun f hf => hk f (List.mem_cons_of_mem _ hf)
    have hkey := hk e List.mem_cons_self
    have hother : ∀ {u : β}, (e.1, u) ∉ es := fun h => he (List.mem_map.mpr ⟨_, h, rfl⟩)
    rw [put]
    by_cases heq : k = e.1
    · subst heq
      rw [if_pos (hkey.mpr rfl), List.mem_cons, List.mem_cons, Prod.mk.injEq]
      refine or_congr_right ⟨fun h => ⟨?_, .inr h⟩, fun h => h.2.resolve_left fun h' => h.1 (congrArg Prod.fst h')⟩
      rintro rfl
      exact hother h
    · rw [if_neg fun h => heq (hkey.mp h), List.mem_cons, ih, List.mem_cons]
      constructor
      · rintro (rfl | h | ⟨hne, h⟩)
        · exact .inr ⟨fun h => heq h.symm, .inl rfl⟩
        · exact .inl h
        · exact .inr ⟨hne, .inr h⟩
      · rintro (h | ⟨hne, h | h⟩)
        · exact .inr (.inl h)
        · exact .inl h
        · exact .inr (.inr ⟨hne, h⟩)

/-- The keys after a put: those from before, and the new one at the end if it agrees with none of them. -/
theorem keys_put (k : α) (v : β) (es : List (α × β)) :
    (put k v es).map (·.1) = es.map (·.1) ∨
      (∀ e ∈ es, (k == e.1) = false) ∧ (put k v es).map (·.1) = es.map (·.1) ++ [k] := by
  induction es with
  | nil => exact .inr ⟨nofun, rfl⟩
  | cons e es ih =>
    rw [put]
    cases he : k == e.1 with
    | true => exact .inl rfl
    | false =>
      rcases ih with ih | ⟨hnone, ih⟩
      · exact .inl (congrArg (e.1 :: ·) ih)
      · exact .inr ⟨List.forall_mem_cons.mpr ⟨he, hnone⟩, congrArg (e.1 :: ·) ih⟩

/-- A put leaves no key there twice. -/
theorem nodup_put [ReflBEq α] (hd : (es.map (·.1)).Nodup) : ((put k v es).map (·.1)).Nodup := by
  rcases keys_put k v es with h | ⟨hnone, h⟩ <;> rw [h]
  · exact hd
  · refine List.nodup_append.mpr ⟨hd, List.nodup_singleton k, fun j hj i hi heq => ?_⟩
    obtain ⟨e, he, rfl⟩ := List.mem_map.mp hj
    rw [List.mem_singleton.mp hi] at heq
    have := hnone e he
    rw [heq, BEq.rfl] at this
    cases this

/-- What a handle finds stands under this handle. -/
theorem mem_of_lookup_handle {h : Handle} {v : β} {es : List (Term × β)} (hv : es.lookup (.handle h) = some v) :
    (Term.handle h, v) ∈ es := by
  induction es with
  | nil => cases hv
  | cons e es ih =>
    obtain ⟨key, u⟩ := e
    rw [lookup_first] at hv
    split at hv
    next hkey =>
      obtain rfl := Option.some.inj hv
      obtain rfl := Term.handle_beq.mp hkey
      exact List.mem_cons_self
    · exact List.mem_cons_of_mem _ (ih hv)

end Keyed

/-! ## Registries in order -/

/-- What happens beside the ontologies and the stores, and leaves what belongs to ontologies alone. -/
structure World.Aside (w w' : World) : Prop extends w.SameStored w' where
  installed : w'.installed = w.installed
  options : w'.options = w.options
  optionsOf : w'.optionsOf = w.optionsOf
  namespaces : w'.namespaces = w.namespaces

/-- A remove hook that leaves the ontologies, the stores and what belongs to ontologies alone, wherever it is called. It
may fail. -/
def Env.Confines (env : Env) (callee : Term) : Prop :=
  ∀ (c : Context) (id : Nat) (v : World),
    v.Aside (Act.invoke callee [.handle (.ontology id)] { env with context := c } v).2

namespace World

variable {env : Env} {w w₁ w₂ w' : World} {s id j n : Nat} {iri space : String} {abbreviation : Term}

namespace Aside

theorem refl (w : World) : w.Aside w := ⟨.refl w, rfl, rfl, rfl, rfl⟩

theorem trans (h : w.Aside w₁) (h' : w₁.Aside w₂) : w.Aside w₂ :=
  ⟨h.toSameStored.trans h'.toSameStored, h'.installed.trans h.installed, h'.options.trans h.options,
    h'.optionsOf.trans h.optionsOf, h'.namespaces.trans h.namespaces⟩

theorem policy (h : w.Aside w') (t : Term) : w'.policy t = w.policy t := by
  have hnaming : w'.namingOf = w.namingOf := funext fun n => congrArg (·.getD n Term.null) h.options
  rw [World.policy, World.policy, h.optionsOf, hnaming]

end Aside

/-- **Options in order**: no two subjects share a record, and an ontology that is still to be made has none. -/
structure Filed (w : World) : Prop where
  distinct : (w.optionsOf.map (·.2)).Nodup
  filled : ∀ e ∈ w.optionsOf, e.2 < w.options.length
  made : ∀ id, w.Recorded id → id < w.ontologies.length

/-- **Namespaces in order**: each is a text, and stands for one ontology that there is. -/
structure Charted (w : World) : Prop where
  distinct : (w.namespaces.map (·.1)).Nodup
  known : ∀ e ∈ w.namespaces, ∃ s, ∃ id < w.ontologies.length, e = (.text s, .handle (.ontology id))

/-- **Registries in order**, and an installed store that forgets what it removes before it calls a hook of a script. -/
structure Regular (env : Env) (w : World) : Prop where
  proper : w.Proper w.installed
  hooks : ∃ callees : List Term, (w.store w.installed).hooks = .forget :: callees.map .user ∧ ∀ callee ∈ callees, env.Confines callee
  filed : w.Filed
  charted : w.Charted

/-- What a store in order has under an IRI is an ontology that there is, of this IRI. -/
theorem Proper.own_of_located (h : w.Proper s) (hid : w.located s iri = some id) :
    id < w.ontologies.length ∧ (w.ontology id).iri = iri := by
  obtain ⟨l, l', hl, -⟩ := List.lookup_eq_some_iff.mp hid
  exact h.own (iri, id) (hl ▸ List.mem_append_right _ List.mem_cons_self)

theorem Proper.lt_of_holds (h : w.Proper s) (hid : w.holds s id = true) : id < w.ontologies.length :=
  (h.own_of_located (by simpa [holds] using hid)).1

/-- An ontology that is still to be made has no naming function. -/
theorem Filed.policy_unmade (h : w.Filed) (hid : w.ontologies.length ≤ id) :
    w.policy (.handle (.ontology id)) = .null := by
  cases hlookup : w.optionsOf.lookup (.handle (.ontology id)) with
  | none => rw [policy, hlookup, Option.elim_none]
  | some n => exact absurd (h.made id (Option.isSome_of_eq_some hlookup)) (Nat.not_lt.mpr hid)

/-- The naming function of an ontology is in force when another one has been forgotten. -/
theorem policy_forget (h : j ≠ id) : (w.forget id).policy (.handle (.ontology j)) = w.policy (.handle (.ontology j)) := by
  rw [policy, policy, World.forget, Keyed.lookup_erase_handle fun h' => h (Handle.ontology.inj h')]
  rfl

/-- The world in which an ontology is registered for a namespace. -/
def enroll (w : World) (space : String) (id : Nat) : World :=
  { w with namespaces := Keyed.put (.text space) (.handle (.ontology id)) w.namespaces }

/-- **What is done to the registries**: an ontology is `gone`, one is `fresh`, one is `named`, so given a naming function,
and one is `registered` for a namespace. -/
structure Turn (env : Env) (w w' : World) (gone fresh : Option Nat) (named : Option (Nat × Term))
    (registered : Option (String × Nat)) : Prop where
  regular : w'.Regular env
  installed : w'.installed = w.installed
  grown : w'.ontologies.length = w.ontologies.length + fresh.toList.length
  new : ∀ id, fresh = some id → id = w.ontologies.length
  holds : ∀ id, w'.holds w'.installed id = true ↔ fresh = some id ∨ w.holds w.installed id = true ∧ gone ≠ some id
  naming : ∀ id f, named = some (id, f) → w'.policy (.handle (.ontology id)) = f
  kept : ∀ id, (∀ f, named ≠ some (id, f)) → gone ≠ some id →
    w'.policy (.handle (.ontology id)) = w.policy (.handle (.ontology id))
  held : ∀ s id, registered = some (s, id) → w'.holds w'.installed id = true
  namespaces : ∀ s id, (.text s, .handle (.ontology id)) ∈ w'.namespaces ↔ registered = some (s, id) ∨
    (∀ j, registered ≠ some (s, j)) ∧ (.text s, .handle (.ontology id)) ∈ w.namespaces ∧ gone ≠ some id

/-! ### Turns one after the other -/

namespace Turn

variable {g f f' : Option Nat} {n n' : Option (Nat × Term)} {r r' : Option (String × Nat)}

theorem refl (h : w.Regular env) : Turn env w w none none none none where
  regular := h
  installed := rfl
  grown := rfl
  new := nofun
  holds id := by simp
  naming := nofun
  kept _ _ _ := rfl
  held := nofun
  namespaces s id := by simp

/-- **Turns compose**, if after the first nothing is taken away, and nothing is done twice. -/
theorem trans (h : Turn env w w₁ g f n r) (h' : Turn env w₁ w₂ none f' n' r') (hf : f = none ∨ f' = none)
    (hn : n = none ∨ n' = none) (hr : r = none ∨ r' = none) :
    Turn env w w₂ g (f.or f') (n.or n') (r.or r') where
  regular := h'.regular
  installed := h'.installed.trans h.installed
  grown := by
    rw [h'.grown, h.grown]
    rcases hf with rfl | rfl <;> simp
  new id hid := by
    rcases hf with rfl | rfl
    · rw [h'.new id (by simpa using hid), h.grown]
      rfl
    · exact h.new id (by simpa using hid)
  holds id := by
    rw [h'.holds, h.holds]
    rcases hf with rfl | rfl <;> simp
  naming id p hid := by
    rcases hn with rfl | rfl
    · exact h'.naming id p (by simpa using hid)
    · rw [h'.kept id nofun nofun]
      exact h.naming id p (by simpa using hid)
  kept id hid hg := by
    rcases hn with rfl | rfl
    · rw [h'.kept id (by simpa using hid) nofun, h.kept id nofun hg]
    · rw [h'.kept id nofun nofun, h.kept id (by simpa using hid) hg]
  held s id hid := by
    rcases hr with rfl | rfl
    · exact h'.held s id (by simpa using hid)
    · exact (h'.holds id).mpr (.inr ⟨h.held s id (by simpa using hid), nofun⟩)
  namespaces s id := by
    rw [h'.namespaces, h.namespaces]
    rcases hr with rfl | rfl <;> simp

end Turn

/-! ### The parts -/

theorem supplant_of_free (h : w.located s iri = none) :
    w.supplant s iri abbreviation = (w.allocate iri abbreviation).1.attach s w.ontologies.length := by
  rw [World.supplant, World.vacate, h]
  rfl

namespace Regular

/-- What happens beside all this does nothing to it. -/
theorem aside (h : w.Regular env) (hw : w.Aside w') : Turn env w w' none none none none where
  regular := by
    obtain ⟨callees, hhooks, hconfined⟩ := h.hooks
    refine ⟨hw.installed ▸ h.proper.of_sameStored hw.toSameStored, ⟨callees, ?_, hconfined⟩, ⟨?_, ?_, fun id hid => ?_⟩,
      ⟨?_, fun e he => ?_⟩⟩
    · rw [hw.installed, hw.store]
      exact hhooks
    · rw [hw.optionsOf]
      exact h.filed.distinct
    · rw [hw.optionsOf, hw.options]
      exact h.filed.filled
    · rw [hw.ontologies]
      exact h.filed.made id (by rwa [Recorded, ← hw.optionsOf])
    · rw [hw.namespaces]
      exact h.charted.distinct
    · rw [hw.ontologies]
      exact h.charted.known e (hw.namespaces ▸ he)
  installed := hw.installed
  grown := congrArg List.length hw.ontologies
  new := nofun
  holds id := by simp [hw.installed, hw.holds]
  naming := nofun
  kept id _ _ := hw.policy _
  held := nofun
  namespaces s id := by simp [hw.namespaces]

/-- An ontology that is changed but for its IRI. -/
theorem setOntology (h : w.Regular env) {o : Ontology} (ho : o.iri = (w.ontology id).iri) :
    Turn env w (w.setOntology id o) none none none none where
  regular := by
    have hlength : (w.setOntology id o).ontologies.length = w.ontologies.length := List.length_set
    refine ⟨h.proper.setOntology ho, h.hooks, ⟨h.filed.distinct, h.filed.filled, fun j hj => ?_⟩,
      ⟨h.charted.distinct, fun e he => ?_⟩⟩
    · rw [hlength]
      exact h.filed.made j hj
    · rw [hlength]
      exact h.charted.known e he
  installed := rfl
  grown := List.length_set
  new := nofun
  holds j := by
    rw [holds_setOntology ho]
    simp [World.setOntology]
  naming := nofun
  kept _ _ _ := rfl
  held := nofun
  namespaces s j := by simp [World.setOntology]

/-- What the hooks of a store are when another of its entries is put or taken away. -/
theorem hooks_setStore (h : w.Regular env) {entries : List (String × Nat)} :
    ((w.setStore w.installed ⟨entries, (w.store w.installed).hooks⟩).store w.installed).hooks =
      (w.store w.installed).hooks := by
  rw [store_setStore h.proper.exists_store]

/-- Taking away what the store has under an IRI, and forgetting it. -/
theorem vacate (h : w.Regular env) (iri : String) :
    Turn env w (w.vacate w.installed iri) (w.located w.installed iri) none none none := by
  have hproper : (w.vacate w.installed iri).Proper w.installed := (Store.Outcome.removed iri).proper h.proper
  have hholds : ∀ id, (w.vacate w.installed iri).holds w.installed id = true ↔
      w.holds w.installed id = true ∧ w.located w.installed iri ≠ some id := by
    intro id
    rw [hproper.holds_iff, listed, vacate_entries h.proper.exists_store]
    refine ⟨fun hid => ?_, fun hid => h.proper.mem_erase hid.1 hid.2⟩
    obtain ⟨e, he, rfl⟩ := List.mem_map.mp hid
    obtain ⟨hmem, hne⟩ := (Store.erase_proper h.proper iri).2 e he
    refine ⟨h.proper.holds_iff.mpr (List.mem_map_of_mem hmem), fun hlocated => hne ?_⟩
    -- What is found under an IRI has this IRI, and so has what is listed under it.
    exact (h.proper.own e hmem).2.symm.trans (h.proper.own_of_located hlocated).2
  cases hid : w.located w.installed iri with
  | none =>
    rw [World.vacate, hid]
    exact .refl h
  | some old =>
    have hvacate : w.vacate w.installed iri = (w.detach w.installed iri).forget old := by rw [World.vacate, hid]
    rw [hid] at hholds
    rw [hvacate] at hproper hholds ⊢
    exact {
      regular := {
        proper := hproper
        hooks := by
          obtain ⟨callees, hhooks, hconfined⟩ := h.hooks
          exact ⟨callees, h.hooks_setStore.trans hhooks, hconfined⟩
        filed := {
          distinct := h.filed.distinct.sublist (List.filter_sublist.map _)
          filled := fun e he => h.filed.filled e (List.mem_of_mem_filter he)
          made := fun id hrec => h.filed.made id (recorded_forget hrec).2 }
        charted := {
          distinct := h.charted.distinct.sublist (List.filter_sublist.map _)
          known := fun e he => h.charted.known e (List.mem_of_mem_filter he) } }
      installed := rfl
      grown := rfl
      new := by simp
      holds := fun id => (hholds id).trans (by simp)
      naming := by simp
      kept := fun id _ hne => policy_forget fun heq => hne (congrArg some heq.symm)
      held := by simp
      namespaces := fun s id => by
        have hmem : (Term.text s, Term.handle (.ontology id)) ∈ ((w.detach w.installed iri).forget old).namespaces ↔
            (Term.text s, Term.handle (.ontology id)) ∈ w.namespaces ∧
              (!(Term.handle (.ontology id) == .handle (.ontology old))) = true := List.mem_filter
        rw [hmem, Term.handle_beq_handle]
        simp }

/-- A new ontology in the store, under an IRI that was free. -/
theorem supplant (h : w.Regular env) (hfree : w.located w.installed iri = none) (abbreviation : Term) :
    Turn env w (w.supplant w.installed iri abbreviation) none (some w.ontologies.length) none none := by
  have hlisted : (w.supplant w.installed iri abbreviation).listed w.installed = w.listed w.installed ++ [w.ontologies.length] := by
    rw [listed, supplant_entries h.proper.exists_store, erase_of_lookup_none hfree, List.map_append]
    rfl
  have hlength : (w.supplant w.installed iri abbreviation).ontologies.length = w.ontologies.length + 1 := by
    rw [supplant_ontologies, List.length_append, List.length_singleton]
  have hproper : (w.supplant w.installed iri abbreviation).Proper w.installed :=
    (Store.Outcome.created iri abbreviation).proper h.proper
  have hsupplant : w.supplant w.installed iri abbreviation =
      (w.allocate iri abbreviation).1.attach w.installed w.ontologies.length := supplant_of_free hfree
  obtain ⟨callees, hhooks, hconfined⟩ := h.hooks
  have hstored : ((w.supplant w.installed iri abbreviation).store w.installed).hooks = (w.store w.installed).hooks := by
    rw [hsupplant]
    exact (congrArg Store.hooks (store_setStore h.proper.exists_store)).trans rfl
  have hoptions : (w.supplant w.installed iri abbreviation).optionsOf = w.optionsOf := by
    rw [hsupplant]
    rfl
  have hnamespaces : (w.supplant w.installed iri abbreviation).namespaces = w.namespaces := by
    rw [hsupplant]
    rfl
  exact {
    regular := {
      proper := supplant_installed.symm ▸ hproper
      hooks := ⟨callees, supplant_installed.symm ▸ hstored.trans hhooks, hconfined⟩
      filed := {
        distinct := hoptions ▸ h.filed.distinct
        filled := by
          rw [hsupplant]
          exact h.filed.filled
        made := fun id hid => by
          rw [Recorded, hoptions] at hid
          exact hlength ▸ Nat.lt_add_right 1 (h.filed.made id hid) }
      charted := {
        distinct := hnamespaces ▸ h.charted.distinct
        known := fun e he => by
          obtain ⟨s, id, hid, heq⟩ := h.charted.known e (hnamespaces ▸ he)
          exact ⟨s, id, hlength ▸ Nat.lt_add_right 1 hid, heq⟩ } }
    installed := supplant_installed
    grown := hlength
    new := by
      rintro id ⟨⟩
      rfl
    holds := fun id => by
      rw [supplant_installed, hproper.holds_iff, h.proper.holds_iff, hlisted]
      simp [or_comm, eq_comm]
    naming := by simp
    kept := fun id _ _ => by
      rw [hsupplant]
      rfl
    held := by simp
    namespaces := fun s id => by simp [hnamespaces] }

/-- Registering an ontology that is held. -/
theorem enroll (h : w.Regular env) (hid : w.holds w.installed id = true) (space : String) :
    Turn env w (w.enroll space id) none none none (some (space, id)) := by
  have hkeys : ∀ e ∈ w.namespaces, (Term.text space == e.1) = true ↔ Term.text space = e.1 := by
    intro e he
    obtain ⟨s, j, -, rfl⟩ := h.charted.known e he
    rw [Term.text_beq, beq_iff_eq, Term.text.injEq, eq_comm]
  have hmade : id < w.ontologies.length := h.proper.lt_of_holds hid
  exact {
    regular := {
      proper := ⟨h.proper.exists_store, h.proper.distinct, h.proper.own⟩
      hooks := h.hooks
      filed := ⟨h.filed.distinct, h.filed.filled, h.filed.made⟩
      charted := {
        distinct := Keyed.nodup_put h.charted.distinct
        known := fun ⟨key, value⟩ he => by
          rcases (Keyed.mem_put_iff h.charted.distinct hkeys).mp he with ⟨rfl, rfl⟩ | ⟨-, he⟩
          · exact ⟨space, id, hmade, rfl⟩
          · exact h.charted.known _ he } }
    installed := rfl
    grown := rfl
    new := nofun
    holds := fun j => by
      show w.holds w.installed j = true ↔ _
      simp
    naming := nofun
    kept := fun _ _ _ => rfl
    held := by
      rintro s j ⟨⟩
      exact hid
    namespaces := fun s j => by
      rw [World.enroll, Keyed.mem_put_iff h.charted.distinct hkeys]
      simp [eq_comm] }

/-- Other hooks of the store. -/
theorem setHooks (h : w.Regular env) {callees : List Term} (hcallees : ∀ callee ∈ callees, env.Confines callee) :
    Turn env w (w.setStore w.installed { w.store w.installed with hooks := .forget :: callees.map .user })
      none none none none := by
  have hstore := store_setStore (s := { w.store w.installed with hooks := .forget :: callees.map .user })
    h.proper.exists_store
  exact {
    regular := {
      proper := {
        exists_store := by
          show w.installed < (w.stores.set _ _).length
          rw [List.length_set]
          exact h.proper.exists_store
        distinct := by
          show ((World.store _ w.installed).entries.map _).Nodup
          rw [hstore]
          exact h.proper.distinct
        own := by
          show ∀ e ∈ (World.store _ w.installed).entries, _
          rw [hstore]
          exact h.proper.own }
      hooks := ⟨callees, congrArg Store.hooks hstore, hcallees⟩
      filed := ⟨h.filed.distinct, h.filed.filled, h.filed.made⟩
      charted := ⟨h.charted.distinct, h.charted.known⟩ }
    installed := rfl
    grown := rfl
    new := nofun
    holds := fun j => by
      rw [holds, located]
      show ((World.store _ w.installed).entries.lookup _ == some j) = true ↔ _
      rw [hstore]
      simp [holds, located, World.ontology, setStore]
    naming := nofun
    kept := fun _ _ _ => rfl
    held := nofun
    namespaces := fun s j => by simp [setStore] }

/-- Making an options record for an ontology that has none. -/
theorem consult (h : w.Regular env) (hid : id < w.ontologies.length)
    (hnone : w.optionsOf.lookup (.handle (.ontology id)) = none) :
    Turn env w { w with
      options := w.options ++ [.null]
      optionsOf := Keyed.put (.handle (.ontology id)) w.options.length w.optionsOf } none none none none := by
  have hput : Keyed.put (.handle (.ontology id)) w.options.length w.optionsOf =
      w.optionsOf ++ [(.handle (.ontology id), w.options.length)] := Keyed.put_of_lookup_none hnone _
  exact {
    regular := {
      proper := ⟨h.proper.exists_store, h.proper.distinct, h.proper.own⟩
      hooks := h.hooks
      filed := {
        distinct := by
          rw [hput, List.map_append]
          refine List.nodup_append.mpr ⟨h.filed.distinct, List.nodup_singleton _, fun n hn m hm heq => ?_⟩
          obtain ⟨e, he, rfl⟩ := List.mem_map.mp hn
          rw [List.mem_singleton.mp hm] at heq
          exact Nat.ne_of_lt (h.filed.filled e he) heq
        filled := fun e he => by
          rw [List.length_append]
          rw [hput] at he
          rcases List.mem_append.mp he with he | he
          · exact Nat.lt_add_right _ (h.filed.filled e he)
          · rw [List.mem_singleton.mp he]
            exact Nat.lt_add_one _
        made := fun j hj => by
          by_cases heq : j = id
          · exact heq ▸ hid
          · rw [Recorded, Keyed.lookup_put_handle fun h' => heq (Handle.ontology.inj h')] at hj
            exact h.filed.made j hj }
      charted := ⟨h.charted.distinct, h.charted.known⟩ }
    installed := rfl
    grown := rfl
    new := nofun
    holds := fun j => by
      show w.holds w.installed j = true ↔ _
      simp
    naming := nofun
    kept := fun j _ _ => policy_put hnone _
    held := nofun
    namespaces := fun s j => by simp }

/-- Setting the naming function of an ontology, in its own options record. -/
theorem setNaming (h : w.Regular env) {n : Nat} (hn : w.optionsOf.lookup (.handle (.ontology id)) = some n)
    (naming : Term) :
    Turn env w { w with options := w.options.set n naming } none none (some (id, naming)) none := by
  exact {
    regular := {
      proper := ⟨h.proper.exists_store, h.proper.distinct, h.proper.own⟩
      hooks := h.hooks
      filed := {
        distinct := h.filed.distinct
        filled := fun e he => by
          rw [List.length_set]
          exact h.filed.filled e he
        made := h.filed.made }
      charted := ⟨h.charted.distinct, h.charted.known⟩ }
    installed := rfl
    grown := rfl
    new := nofun
    holds := fun j => by
      show w.holds w.installed j = true ↔ _
      simp
    naming := by
      rintro j f ⟨⟩
      have hlt : n < w.options.length := h.filed.filled _ (Keyed.mem_of_lookup_handle hn)
      rw [policy, hn, Option.elim_some, namingOf, List.getD_eq_getElem?_getD, List.getElem?_set_self hlt,
        Option.getD_some]
    kept := fun j hj _ => by
      rw [policy, policy]
      cases hm : w.optionsOf.lookup (.handle (.ontology j)) with
      | none => rfl
      | some m =>
        -- Two ontologies with the same record would be one entry.
        have hne : n ≠ m := by
          rintro rfl
          have heq := List.inj_on_of_nodup_map h.filed.distinct (Keyed.mem_of_lookup_handle hn)
            (Keyed.mem_of_lookup_handle hm) rfl
          obtain ⟨⟨⟨⟩⟩, -⟩ := Prod.mk.inj heq
          exact hj naming rfl
        rw [Option.elim_some, Option.elim_some, namingOf, namingOf, List.getD_eq_getElem?_getD,
          List.getElem?_set_ne hne, ← List.getD_eq_getElem?_getD]
    held := nofun
    namespaces := fun s j => by simp }

end Regular

end World

/-! ## Acts -/

section
variable {env : Env} {w w' : World} {id n : Nat} {iri : String} {naming : Term}

open Act World

/-- The hooks of a script that are confined, called one after the other until one fails. -/
theorem Store.hooks_aside {callees : List Term} (h : ∀ callee ∈ callees, env.Confines callee) (id : Nat) (v : World) :
    v.Aside ((callees.map Hook.user).forM (runHook id) env v).2 := by
  refine forM_keeps .refl .trans (fun hook hhook v => ?_) v
  obtain ⟨callee, hcallee, rfl⟩ := List.mem_map.mp hhook
  rw [runHook, run_answered]
  exact h callee hcallee env.context id v

/-- Taking out what is under an IRI forgets it, whatever the hooks of a script do then. -/
theorem Store.detach_aside (h : w.Regular env) (hid : w.located w.installed iri = some id) :
    (w.vacate w.installed iri).Aside (detach w.installed iri id env w).2 := by
  obtain ⟨callees, hhooks, hconfined⟩ := h.hooks
  rw [detach, run_bind, run_get]
  dsimp only
  rw [run_bind, run_modify, hhooks, World.vacate, hid]
  exact hooks_aside hconfined id _

namespace World

/-- What a removal by a term takes out of the installed store, if anything. -/
def sought (w : World) : Term → Option Nat
  | .handle (.ontology id) => if w.holds w.installed id then some id else none
  | t => w.located w.installed ((w.settle t).display w.names)

end World

namespace Store

/-- Removing what has an IRI takes it out and forgets it, whatever the hooks of a script do then. -/
theorem remove_aside (h : w.Regular env) {t : Term} (ht : ∀ id, t ≠ .handle (.ontology id)) :
    (w.vacate w.installed ((w.settle t).display w.names)).Aside (remove w.installed t env w).2 := by
  rw [remove.eq_2 _ t ht, run_bind, run_display]
  dsimp only
  rw [run_bind, run_get]
  dsimp only
  cases hid : w.located w.installed ((w.settle t).display w.names) with
  | none =>
    rw [World.vacate, hid]
    exact .refl w
  | some id =>
    rw [run_answered]
    exact detach_aside h hid

/-- **A removal** takes away what is sought, and nothing else, whether the hooks of a script fail or not. -/
theorem remove_turn (h : w.Regular env) (t : Term) :
    Turn env w (remove w.installed t env w).2 (w.sought t) none none none := by
  have vacated : ∀ {iri : String} {v : World}, (w.vacate w.installed iri).Aside v →
      Turn env w v (w.located w.installed iri) none none none := fun hv =>
    (h.vacate _).trans ((h.vacate _).regular.aside hv) (.inl rfl) (.inl rfl) (.inl rfl)
  by_cases ht : ∃ id, t = .handle (.ontology id)
  · obtain ⟨id, rfl⟩ := ht
    cases hid : w.holds w.installed id with
    | false =>
      rw [run_remove_stale hid, sought, hid]
      exact .refl h
    | true =>
      have hlocated : w.located w.installed (w.ontology id).iri = some id := by simpa [World.holds] using hid
      have hremove : remove w.installed (.handle (.ontology id)) env w =
          (if w.holds w.installed id then (do detach w.installed (w.ontology id).iri id; return true : Act Bool)
            else return false) env w := rfl
      rw [hremove, sought, hid, if_pos rfl, if_pos rfl, run_answered, ← hlocated]
      exact vacated (detach_aside h hlocated)
  · have hne : ∀ id, t ≠ .handle (.ontology id) := fun id heq => ht ⟨id, heq⟩
    rw [sought.eq_2 w t hne]
    exact vacated (remove_aside h hne)

/-- **A creation** takes away what has the IRI, and makes a new ontology. If a hook of a script fails, it does the first
only. -/
theorem create_turn (h : w.Regular env) (iri : String) (abbreviation : Term) :
    (∃ f w', create w.installed (.text iri) abbreviation env w = (.error f, w') ∧
        Turn env w w' (w.located w.installed iri) none none none) ∨
      ∃ w', create w.installed (.text iri) abbreviation env w = (.ok w.ontologies.length, w') ∧
        Turn env w w' (w.located w.installed iri) (some w.ontologies.length) none none := by
  have hname : display (.text iri) env w = (.ok iri, w) := rfl
  have hremove : Turn env w (remove w.installed (.iri iri) env w).2 (w.located w.installed iri) none none none :=
    remove_turn h (.iri iri)
  have hvacate : (w.vacate w.installed iri).Aside (remove w.installed (.iri iri) env w).2 :=
    remove_aside h (t := .iri iri) nofun
  rw [create, run_bind, hname]
  dsimp only
  rw [run_bind]
  rcases hrun : remove w.installed (.iri iri) env w with ⟨f | b, v⟩ <;> rw [hrun] at hremove hvacate
  · exact .inl ⟨f, v, rfl, hremove⟩
  · have hfree : v.located v.installed iri = none := by
      rw [hremove.installed, located, hvacate.store, vacate_entries h.proper.exists_store]
      exact Keyed.lookup_erase_self iri _
    have hlength : v.ontologies.length = w.ontologies.length := hremove.grown
    have hturn := hremove.trans (hremove.regular.supplant hfree abbreviation) (.inl rfl) (.inl rfl) (.inl rfl)
    rw [hlength] at hturn
    refine .inr ⟨_, ?_, hturn⟩
    dsimp only
    rw [supplant_of_free hfree, hremove.installed, ← hlength]
    rfl

end Store

namespace Current

/-- Asking for the options of an ontology finds a record of its own, which is made if there was none. -/
theorem run_options (h : w.Regular env) (hid : id < w.ontologies.length) (reader : Env) :
    ∃ n w', options (.handle (.ontology id)) reader w = (.ok n, w') ∧ Turn env w w' none none none none ∧
      w'.optionsOf.lookup (.handle (.ontology id)) = some n := by
  simp only [options, orGiven_handle, run_bind, run_pure, run_requireStable (t := .handle (.ontology id)) rfl, run_get]
  cases hlookup : w.optionsOf.lookup (.handle (.ontology id)) with
  | some n => exact ⟨n, w, rfl, .refl h, hlookup⟩
  | none => exact ⟨_, _, rfl, h.consult hid hlookup, Keyed.lookup_put_self _ _ _⟩

/-- Setting the naming function of an ontology. -/
theorem run_rename (h : w.Regular env) (hid : id < w.ontologies.length) (naming : Term) (reader : Env) :
    ∃ w', (do setNaming (← options (.handle (.ontology id))) naming : Act Unit) reader w = (.ok (), w') ∧
      Turn env w w' none none (some (id, naming)) none := by
  obtain ⟨n, v, hrun, hturn, hn⟩ := run_options h hid reader
  refine ⟨_, ?_, hturn.trans (hturn.regular.setNaming hn naming) (.inl rfl) (.inl rfl) (.inl rfl)⟩
  rw [run_bind, hrun]
  rfl

/-- What can be no naming function is refused, when a record has been made. -/
theorem run_assignNaming (h : w.Regular env) (hid : id < w.ontologies.length) (naming : Term) (reader : Env) :
    (∃ f w', assignNaming (.handle (.ontology id)) naming reader w = (.error f, w') ∧ Turn env w w' none none none none) ∨
      ∃ w', assignNaming (.handle (.ontology id)) naming reader w = (.ok (), w') ∧
        Turn env w w' none none (some (id, naming)) none := by
  obtain ⟨n, v, hrun, hturn, hn⟩ := run_options h hid reader
  have hset := hturn.trans (hturn.regular.setNaming hn naming) (.inl rfl) (.inl rfl) (.inl rfl)
  rw [assignNaming, run_bind, hrun]
  dsimp only
  split
  · exact .inr ⟨_, rfl, hset⟩
  · split
    · exact .inr ⟨_, rfl, hset⟩
    · exact .inl ⟨_, v, rfl, hturn⟩

end Current

namespace Store

/-- Registering a hook that is confined, unless an equal one is registered. -/
theorem run_addHook (h : w.Regular env) {callee : Term} (hcallee : env.Confines callee) (reader : Env) :
    ∃ w', addHook w.installed (.user callee) reader w = (.ok (), w') ∧ Turn env w w' none none none none := by
  refine ⟨_, run_modify _ _ _, ?_⟩
  dsimp only
  split
  · exact .refl h
  · obtain ⟨callees, hhooks, hconfined⟩ := h.hooks
    have hall : ∀ c ∈ callees ++ [callee], env.Confines c :=
      List.forall_mem_append.mpr ⟨hconfined, List.forall_mem_singleton.mpr hcallee⟩
    have hmore := h.setHooks hall
    rw [hhooks]
    rwa [List.map_append] at hmore

end Store

namespace Creation

/-- A new ontology gets the naming function of its description, which may be null. -/
theorem setNaming_turn (h : w.Regular env) (hid : id < w.ontologies.length) (hnull : w.policy (.handle (.ontology id)) = .null)
    (naming : Term) :
    ∃ w', setNaming id naming env w = (.ok (), w') ∧ Turn env w w' none none (some (id, naming)) none := by
  unfold setNaming
  split
  · refine ⟨w, rfl, h, rfl, rfl, nofun, fun j => by simp, ?_, fun _ _ _ => rfl, nofun, fun s j => by simp⟩
    rintro j f ⟨⟩
    exact hnull
  · exact Current.run_rename h hid _ env

/-- **Creating from a checked description** takes away what has the IRI, and makes a new ontology with the naming function
of the description, even if it fails for an annotation afterwards. If a hook of a script fails, it does the first only. -/
theorem build_turn (h : w.Regular env) (c : Config) :
    (∃ f w', build c env w = (.error f, w') ∧ Turn env w w' (w.located w.installed c.iri) none none none) ∨
      ∃ r w', build c env w = (r, w') ∧ (∀ t, r = .ok t → t = .handle (.ontology w.ontologies.length)) ∧
        Turn env w w' (w.located w.installed c.iri) (some w.ontologies.length) (some (w.ontologies.length, c.naming))
          none := by
  rcases Store.create_turn h c.iri (.ofOption .text c.abbreviation) with ⟨f, w', hrun, hturn⟩ | ⟨w₁, hrun, hturn⟩
  · refine .inl ⟨f, w', ?_, hturn⟩
    simp only [build_eq, run_bind, Current.run_store, hrun]
  · have hlt : w.ontologies.length < w₁.ontologies.length := by
      rw [hturn.grown]
      exact Nat.lt_add_one _
    have hnull : w₁.policy (.handle (.ontology w.ontologies.length)) = .null := by
      rw [hturn.kept _ nofun fun hold => Nat.lt_irrefl _ (h.proper.own_of_located hold).1]
      exact h.filed.policy_unmade (Nat.le_refl _)
    obtain ⟨w₂, hnaming, hturn₂⟩ := setNaming_turn hturn.regular hlt hnull c.naming
    have hmanages : w₂.Manages w.ontologies.length := by
      refine ⟨?_, ?_⟩
      · rw [hturn₂.grown]
        exact hlt
      · rw [hturn₂.holds, hturn.holds]
        exact .inr ⟨.inl rfl, nofun⟩
    obtain ⟨r, notes, hannotate, hend⟩ := run_annotate hmanages c env
    have hturn₃ := (hturn.trans hturn₂ (.inr rfl) (.inl rfl) (.inl rfl)).trans
      (hturn₂.regular.setOntology (o := { w₂.ontology w.ontologies.length with
        annotations := (w₂.ontology w.ontologies.length).annotations ++ notes }) rfl) (.inr rfl) (.inr rfl) (.inl rfl)
    refine .inr ⟨r, _, ?_, fun t ht => ?_, hturn₃⟩
    · simp only [build_eq, run_bind, Current.run_store, hrun, hnaming]
      rw [← hturn.installed, ← hturn₂.installed]
      exact hannotate
    · rcases hend with ⟨hok, -⟩ | ⟨⟨f, hf⟩, -⟩
      · exact (Except.ok.inj (hok.symm.trans ht)).symm
      · cases hf.symm.trans ht

end Creation

end
end Authoring
