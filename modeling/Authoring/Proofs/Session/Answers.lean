import Authoring.Proofs.Session.Chronicle

/-!
# What a session finds

Two questions about ontologies are answered from what was done before, in this session and in no other way: which ontology
is current, and which IRI a name stands for.

**The current ontology of a namespace is never a dead one** (`Program.current_ontology`). After any session, outside all
scopes that make an ontology current, it is the ontology that was registered last for the namespace, if the store has held
it ever since; otherwise none is current. What is done for other namespaces, or takes away other ontologies, does not
change it.

**Naming functions are isolated** (`Program.iri_for_name`). After any session, the IRI that a name stands for in an ontology
that is held is what the naming function makes of it that was given last to this very ontology. If this is none, it is
the ontology's IRI, the separator and the name. A former ontology of the same IRI has no part in it.

**What carries the proof.** The registries hold what the chronicle says (`Program.told`), and the answers are read off them.

**What is assumed.** A session starts when the store has just been installed (`World.Fresh`), and what it does is permitted
(`Program.Permitted`). The store may hold ontologies by then.
-/

namespace Authoring

open Act Session

namespace World

variable {env : Env} {w w' : World} {id : Nat}

/-- **A store that has just been installed**: it is in order and has no hook but the one that forgets, and nothing belongs
to any ontology yet. -/
structure Fresh (w : World) : Prop where
  proper : w.Proper w.installed
  hooks : (w.store w.installed).hooks = [.forget]
  optionsOf : w.optionsOf = []
  namespaces : w.namespaces = []

theorem Fresh.initial (settings : Settings) : (World.initial settings).Fresh :=
  ⟨⟨Nat.one_pos, List.nodup_nil, nofun⟩, rfl, rfl, rfl⟩

/-- Installing a store in order that has no hooks. -/
theorem Fresh.install {s : Nat} (h : w.Proper s) (hooks : (w.store s).hooks = []) (env : Env) :
    ∃ w', Current.install s env w = (.ok w.installed, w') ∧ w'.Fresh := by
  have hadd : Store.addHook s .forget env w = (.ok (), w.setStore s { w.store s with hooks := [.forget] }) := by
    rw [Store.addHook, run_modify]
    dsimp only
    rw [hooks]
    rfl
  have hstore := store_setStore (s := { w.store s with hooks := [.forget] }) h.exists_store
  have hrun : Current.install s env w = (.ok w.installed, { w.setStore s { w.store s with hooks := [.forget] } with
      installed := s, optionsOf := [], namespaces := [] }) := by
    rw [Current.install, run_bind, Current.run_store]
    dsimp only
    rw [run_bind, hadd]
    rfl
  refine ⟨_, hrun, ⟨?_, ?_, ?_⟩, ?_, rfl, rfl⟩
  · show s < (w.stores.set _ _).length
    rw [List.length_set]
    exact h.exists_store
  · show ((World.store (w.setStore s _) s).entries.map _).Nodup
    rw [hstore]
    exact h.distinct
  · show ∀ e ∈ (World.store (w.setStore s _) s).entries, _
    rw [hstore]
    exact h.own
  · show (World.store (w.setStore s _) s).hooks = _
    rw [hstore]

theorem Fresh.told (h : w.Fresh) (env : Env) : Told env [] w where
  regular := by
    refine ⟨h.proper, ⟨[], h.hooks, List.forall_mem_nil _⟩, ⟨?_, ?_, fun id hid => ?_⟩, ⟨?_, ?_⟩⟩
    · rw [h.optionsOf]
      exact List.nodup_nil
    · rw [h.optionsOf]
      exact List.forall_mem_nil _
    · rw [Recorded, h.optionsOf] at hid
      cases hid
    · rw [h.namespaces]
      exact List.nodup_nil
    · rw [h.namespaces]
      exact List.forall_mem_nil _
  registered space id := by
    rw [h.namespaces]
    exact iff_of_false List.not_mem_nil not_standing_nil
  held space id hid := by
    rw [h.namespaces] at hid
    cases hid
  named id _ := by
    rw [policy, h.optionsOf]
    rfl

/-- What a namespace in order finds is what is registered for it. -/
theorem Regular.lookup_namespace (h : w.Regular env) {space : String} :
    w.namespaces.lookup (.text space) = some (.handle (.ontology id)) ↔
      (.text space, .handle (.ontology id)) ∈ w.namespaces := by
  refine Keyed.lookup_eq_some_iff_mem h.charted.distinct fun e he => ?_
  obtain ⟨s, j, -, rfl⟩ := h.charted.known e he
  rw [Term.text_beq, beq_iff_eq, Term.text.injEq, eq_comm]

end World

namespace Session

variable {env reader : Env} {w w' : World} {site here : Site} {ns : Option String} {id : Nat} {es : List Entry}
  {p : Program} {d : Deed}

/-! ## The current ontology -/

/-- The answer of an ontology is current exactly if it is registered. -/
theorem current_eq_ok_iff (h : w.Regular env) (hhere : here.bound = none) {t : Term} :
    (Current.ontology (spell ns) (here.enter reader) w).1 = .ok t ↔
      ∃ id, t = .handle (.ontology id) ∧ (.text (here.chosen ns), .handle (.ontology id)) ∈ w.namespaces := by
  rw [here.run_ontology hhere]
  cases hlookup : w.namespaces.lookup (.text (here.chosen ns)) with
  | none =>
    refine ⟨nofun, ?_⟩
    rintro ⟨id, rfl, hmem⟩
    rw [h.lookup_namespace.mpr hmem] at hlookup
    cases hlookup
  | some u =>
    obtain ⟨key, hmem⟩ := Keyed.exists_mem_of_lookup hlookup
    obtain ⟨s, id, hid, heq⟩ := h.charted.known _ hmem
    obtain ⟨-, rfl⟩ := Prod.mk.inj heq
    show Except.ok (Term.handle (.ontology id)) = .ok t ↔ _
    constructor
    · rintro ⟨⟩
      exact ⟨id, rfl, h.lookup_namespace.mp hlookup⟩
    · rintro ⟨j, rfl, hj⟩
      rw [h.lookup_namespace.mpr hj] at hlookup
      rw [Option.some.inj hlookup]

/-- **The current ontology of a namespace is never a dead one.** After a session it is the ontology that was registered
last for the namespace, if the store has held it ever since, and otherwise none is current. So it is one that the store
holds. A deed that registers nothing for the namespace and does not take the ontology away leaves it current. -/
theorem Program.current_ontology (hw : w.Fresh) (hsite : site.Known w) (hp : p.Permitted env site w)
    (hhere : here.bound = none) (ns : Option String) (reader : Env) :
    let es := p.chronicle env site w
    let w' := (p.run (site.enter env) w).2
    let current := Current.ontology (spell ns) (here.enter reader)
    (∀ id, Standing (here.chosen ns) id es → current w' = (.ok (.handle (.ontology id)), w')) ∧
      ((∀ id, ¬Standing (here.chosen ns) id es) → current w' = (.error (.noCurrentOntology (here.chosen ns)), w')) ∧
      (∀ t, (current w').1 = .ok t → ∃ id, t = .handle (.ontology id) ∧ w'.holds w'.installed id = true) ∧
      ∀ (d : Deed) (there : Site), there.Known w' → d.Permitted env w' →
        (∀ id, (d.entry env there w').registered ≠ some (here.chosen ns, id)) →
        ∀ id, d.taken w' ≠ some id → (current w').1 = .ok (.handle (.ontology id)) →
          (current (d.entry env there w').world).1 = .ok (.handle (.ontology id)) := by
  intro es w' current
  have htold : Told env es w' := (Program.told hp (hw.told env) hsite).1
  have hanswer : ∀ {v : World}, v.Regular env → ∀ t, (current v).1 = .ok t ↔
      ∃ id, t = .handle (.ontology id) ∧ (.text (here.chosen ns), .handle (.ontology id)) ∈ v.namespaces :=
    fun hv _ => current_eq_ok_iff hv hhere
  refine ⟨fun id hid => ?_, fun hnone => ?_, fun t ht => ?_, fun d there hthere hd hother id htaken hid => ?_⟩
  · have hlookup := htold.regular.lookup_namespace.mpr ((htold.registered _ id).mpr hid)
    show Current.ontology (spell ns) (here.enter reader) w' = _
    rw [here.run_ontology hhere, hlookup]
    rfl
  · have hlookup : w'.namespaces.lookup (.text (here.chosen ns)) = none := by
      cases hlookup : w'.namespaces.lookup (.text (here.chosen ns)) with
      | none => rfl
      | some t =>
        obtain ⟨key, hmem⟩ := Keyed.exists_mem_of_lookup hlookup
        obtain ⟨s, id, -, heq⟩ := htold.regular.charted.known _ hmem
        obtain ⟨-, rfl⟩ := Prod.mk.inj heq
        exact absurd ((htold.registered _ id).mp (htold.regular.lookup_namespace.mp hlookup)) (hnone id)
    show Current.ontology (spell ns) (here.enter reader) w' = _
    rw [here.run_ontology hhere, hlookup]
    rfl
  · obtain ⟨id, rfl, hmem⟩ := (hanswer htold.regular t).mp ht
    exact ⟨id, rfl, htold.held _ id hmem⟩
  · obtain ⟨fresh, hturn, -⟩ := Deed.turn htold.regular hthere hd
    obtain ⟨j, heq, hmem⟩ := (hanswer htold.regular _).mp hid
    obtain rfl : id = j := Handle.ontology.inj (Term.handle.inj heq)
    exact (hanswer hturn.regular _).mpr ⟨id, rfl, (hturn.namespaces _ id).mpr (.inr ⟨hother, hmem, htaken⟩)⟩

/-- A hook that logs what is removed is confined, even if it fails. -/
theorem hook_confined (name : String) (fails : Bool) : Env.plain.Confines (.hook name fails) := by
  intro c id v
  cases fails <;> exact ⟨⟨rfl, rfl⟩, rfl, rfl, rfl, rfl⟩

/-- An ontology is registered for one namespace. Then another is to be made in its place, which fails for a hook, so nothing
is current there any more. In a scope a third is registered for the namespace of the scope, and is current there. -/
theorem Program.current_ontology_failing :
    let p : Program :=
      .deed (.define { iri := .text "a" } (some "n")) fun _ => .deed (.watch (.hook "h" true)) fun _ =>
      .deed (.create { iri := .text "a" }) fun _ =>
      .within "m" (.deed (.define { iri := .text "b" } none) .done) fun _ => .done (.ok .null)
    let site : Site := ⟨"n", none⟩
    let w : World := .initial ⟨"en", "#"⟩
    let w' := (p.run (site.enter .plain) w).2
    let current := fun ns => Current.ontology (spell ns) (site.enter .plain)
    (w'.listed 0 = [1] ∧ current none w' = (.error (.noCurrentOntology "n"), w')) ∧
      Standing "m" 1 (p.chronicle .plain site w) ∧ current (some "m") w' = (.ok (.handle (.ontology 1)), w') := by
  intro p site w w' current
  have hp : p.Permitted .plain site w := ⟨trivial, hook_confined "h" true, trivial, ⟨trivial, trivial⟩, trivial⟩
  have hstanding : Standing "m" 1 (p.chronicle .plain site w) := by
    refine ⟨(p.chronicle .plain site w).take 3, _, [], rfl, by decide, nofun, ?_⟩
    intro e he
    rw [List.mem_singleton.mp he]
    decide
  have hgone : w'.namespaces.lookup (.text (site.chosen none)) = none := Option.isNone_iff_eq_none.mp (by decide)
  refine ⟨⟨by decide, ?_⟩, hstanding, ?_⟩
  · show Current.ontology (spell none) (site.enter .plain) w' = _
    rw [site.run_ontology rfl, hgone]
    rfl
  · exact (current_ontology (.initial _) (by rintro id ⟨⟩) hp rfl (some "m") .plain).1 1 hstanding

/-! ## Naming functions -/

/-- Where an ontology has a naming function its options are there, so nothing is made to ask for it. -/
theorem run_policyFor_of_ne (h : w.policy (.handle (.ontology id)) ≠ .null) :
    Current.policyFor (.handle (.ontology id)) env w = (.ok (w.policy (.handle (.ontology id))), w) := by
  cases hlookup : w.optionsOf.lookup (.handle (.ontology id)) with
  | none => exact absurd (by rw [World.policy, hlookup]; rfl) h
  | some n =>
    simp only [Current.policyFor, Current.options, Current.orGiven_handle, run_bind, run_pure,
      run_requireStable (t := .handle (.ontology id)) rfl, run_get, hlookup]
    rw [World.policy, hlookup]
    rfl

/-- **Naming functions are isolated.** After a session, a name stands in an ontology that is held for what the naming
function makes of it that was given last to this very ontology; or for the ontology's IRI, the separator and the name, if
that is none. -/
theorem Program.iri_for_name (hw : w.Fresh) (hsite : site.Known w) (hp : p.Permitted env site w) {id : Nat}
    (hid : (p.run (site.enter env) w).2.holds (p.run (site.enter env) w).2.installed id = true) (name : String)
    (reader : Env) :
    let naming := lastNaming id (p.chronicle env site w)
    let w' := (p.run (site.enter env) w).2
    let iri := Current.iriForName (.text name) (.handle (.ontology id))
    (naming = .null → (iri reader w').1 = .ok ((w'.ontology id).iri ++ w'.settings.separator ++ name)) ∧
      (naming ≠ .null → iri reader w' = (do display (← invoke naming [.text name]) : Act String) reader w') := by
  intro naming w' iri
  have htold : Told env (p.chronicle env site w) w' := (Program.told hp (hw.told env) hsite).1
  have hnaming : w'.policy (.handle (.ontology id)) = naming := htold.named id hid
  have hiri : iri = (do
      let f ← Current.policyFor (.handle (.ontology id))
      Current.iriBy (.text name) (.handle (.ontology id)) f) := by
    show Current.iriForName _ _ = _
    rw [Current.iriForName_eq, Current.orGiven_handle, pure_bind]
  refine ⟨fun hnull => ?_, fun hne => ?_⟩
  · obtain ⟨v, hpolicy, hasked⟩ := Current.run_policyFor (o := .handle (.ontology id)) (fun h => nomatch h) rfl reader w'
    have hv : Current.iriBy (.text name) (.handle (.ontology id)) .null reader v =
        (.ok ((v.ontology id).iri ++ v.settings.separator ++ name), v) := rfl
    rw [hiri, run_bind, hpolicy, hnaming, hnull]
    dsimp only
    rw [hv, hasked.ontology, hasked.settings]
  · rw [← hnaming] at hne
    rw [hiri, run_bind, run_policyFor_of_ne hne, hnaming]
    rw [hnaming] at hne
    show Current.iriBy _ _ naming reader w' = _
    rw [Current.iriBy.eq_2 _ _ naming hne]

/-- A creation that has made an ontology has given it the naming function that was handed in. -/
theorem Deed.entry_create_named {call : Creation.Call} (hid : w.ontologies.length = id)
    (hmade : id < ((Deed.create call).entry env site w).world.ontologies.length) :
    ((Deed.create call).entry env site w).named = some (id, call.naming) := by
  subst hid
  exact if_pos hmade

/-- What was given to another ontology does not count. -/
theorem lastNaming_concat_of_other {e : Entry} {j : Nat} (h : e.named.map Prod.fst = some j) (hj : j ≠ id) :
    lastNaming id (es ++ [e]) = lastNaming id es := by
  refine lastNaming_concat_of_ne fun naming hnamed => hj ?_
  rw [hnamed] at h
  exact (Option.some.inj h).symm

/-- A naming function that puts a text in front. -/
def leading (lead : String) : Term := .naming 0 ⟨lead, "", false, false, none⟩

/-- An ontology with a naming function is replaced by one without, and is given another naming function afterwards. A third
ontology is created with one. -/
def Program.replacing : Program :=
  .deed (.create { iri := .text "a", naming := leading "f:" }) fun _ => .deed (.create { iri := .text "a" }) fun _ =>
  .deed (.assign (some 0) (leading "g:")) fun _ =>
  .deed (.create { iri := .text "b", naming := leading "h:" }) fun _ => .done (.ok .null)

theorem Program.iri_for_name_replaced :
    let site : Site := ⟨"n", none⟩
    let w : World := .initial ⟨"en", "#"⟩
    let es := replacing.chronicle .plain site w
    let w' := (replacing.run (site.enter .plain) w).2
    let iri := fun id => Current.iriForName (.text "x") (.handle (.ontology id)) .plain w'
    (lastNaming 1 es = .null ∧ (iri 1).1 = .ok "a#x") ∧ lastNaming 2 es = leading "h:" ∧ (iri 2).1 = .ok "h:x" := by
  intro site w es w' iri
  have hp : replacing.Permitted .plain site w := by
    refine ⟨trivial, trivial, ?_, trivial, trivial⟩
    rintro id ⟨⟩
    decide
  have hsite : site.Known w := by rintro id ⟨⟩
  have hreplacing : w'.holds w'.installed 1 = true := by decide +kernel
  have hother : w'.holds w'.installed 2 = true := by decide +kernel
  -- The last two deeds have given a naming function to others, and the one before has created this ontology without.
  have hthird : es[2].named.map Prod.fst = some 0 := by decide +kernel
  have hfourth : es[3].named.map Prod.fst = some 2 := by decide +kernel
  have hunnamed : lastNaming 1 es = .null := by
    show lastNaming 1 ((es.take 2 ++ [es[2]]) ++ [es[3]]) = .null
    rw [lastNaming_concat_of_other hfourth (by decide), lastNaming_concat_of_other hthird (by decide)]
    show lastNaming 1 (es.take 1 ++ [es[1]]) = .null
    exact lastNaming_concat_of_some (Deed.entry_create_named (by decide +kernel) (by decide +kernel))
  have hnamed : lastNaming 2 (es.take 3 ++ [es[3]]) = leading "h:" :=
    lastNaming_concat_of_some (Deed.entry_create_named (by decide +kernel) (by decide +kernel))
  have hmade : ∀ naming v, naming = leading "h:" →
      ((do display (← invoke naming [.text "x"]) : Act String) .plain v).1 = .ok "h:x" := by
    rintro naming v rfl
    rfl
  have hfresh : w.Fresh := .initial _
  have hplain := (iri_for_name hfresh hsite hp hreplacing "x" .plain).1 hunnamed
  have hcalled := (iri_for_name hfresh hsite hp hother "x" .plain).2 (hnamed.trans_ne nofun)
  refine ⟨⟨hunnamed, hplain.trans (congrArg Except.ok (by decide +kernel))⟩, hnamed, ?_⟩
  exact (congrArg Prod.fst hcalled).trans (hmade _ _ hnamed)

end Session

end Authoring
