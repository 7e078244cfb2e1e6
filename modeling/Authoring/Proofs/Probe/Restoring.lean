import Authoring.Proofs.Builder
import Authoring.Proofs.Probe.Leaving

/-!
# Probes that leave no trace

A scope whose probes are new entities, each made by a call of a builder, gives the ontology back as it was, if the
body only adds axioms about the probes (`Probe.scope_restores`). This holds on every way out.

**What carries the proof.** While constructors are called, the ontology is that of the beginning with further
axioms at its end, each of which mentions a value that has been returned, and no axiom of the beginning mentions
one (`Kept`). A call that fails leaves it so, because builders are all or nothing, and a call that returns an
entity adds only axioms that mention it (`Kept.call`). Under different names every value that has been returned is
bound when the scope is left, so removing the bound values takes away exactly what has been added.

**What is assumed** of a call is assumed of it where it is made (`ProperCalls`): its frames, which may refer to
earlier probes, are fit; its target is the ontology; and its entity is mentioned by no axiom of the beginning.
-/

namespace Authoring

namespace World

variable {w : World} {id : Nat} {o : Ontology} {active : Option Nat} {t : Term}

theorem Sound.record (h : w.Sound) (active : Option Nat) (t : Term) : (w.record active t).Sound := by
  cases active <;> exact h

theorem Manages.record (h : w.Manages id) (active : Option Nat) (t : Term) : (w.record active t).Manages id := by
  cases active <;> exact ⟨h.exists_ontology, h.holds⟩

theorem NamesWithin.record {S : Expr → Prop} (h : w.NamesWithin S) (active : Option Nat) (t : Term) :
    (w.record active t).NamesWithin S := by
  cases active <;> exact h

end World

namespace Probe

open Act

/-- Names, and for each a call of a builder, given the probes that are bound so far. -/
abbrev Calls := List (String × (Bound → Builder.Call))

/-- The constructors that make the calls. -/
def Calls.named (calls : Calls) : Named := calls.map fun c => (c.1, fun bound => (c.2 bound).run)

/-- What is assumed of a call of a builder: its arguments are fit, and it works into the ontology on an entity
that no axiom of the beginning mentions. -/
structure ProperCall (S : Expr → Prop) (env : Env) (id : Nat) (before : Ontology) (w : World)
    (c : Builder.Call) : Prop where
  fit : c.Fit S env w
  target : ∀ p w', c.prepare env w = (.ok p, w') → p.target = .handle (.ontology id)
  new : ∀ p w', c.prepare env w = (.ok p, w') → ∀ a ∈ before.axioms, a.isAbout p.entity = false

/-- What is assumed of several calls, each in the world in which it is made. -/
def ProperCalls (S : Expr → Prop) (env : Env) (id : Nat) (before : Ontology) : Bound → Calls → World → Prop
  | _, [], _ => True
  | bound, (name, call) :: rest, w =>
    ProperCall S env id before w (call bound) ∧
      ∀ t w', (call bound).run env w = (.ok t, w') →
        ProperCalls S env id before (Keyed.put (.text name) t bound) rest w'

/-- What is assumed of the body: it removes no axiom and adds axioms that mention a bound probe, and the store
holds the ontology in the end. -/
structure ProperBody (id : Nat) (probes : List Term) (w w' : World) : Prop where
  adds : ∃ extra, (w'.ontology id).axioms = (w.ontology id).axioms ++ extra ∧
    ∀ a ∈ extra, ∃ t ∈ probes, a.isAbout t = true
  manages : w'.Manages id
  lawful : (w'.ontology id).Lawful

/-! ## The invariant -/

/-- What is kept while constructors are called, given the values that have been returned. -/
structure Kept (S : Expr → Prop) (id : Nat) (before : Ontology) (ts : List Term) (w : World) : Prop where
  sound : w.Sound
  names : w.NamesWithin S
  manages : w.Manages id
  lawful : (w.ontology id).Lawful
  entities : ∀ t ∈ ts, t.isEntity = true
  new : ∀ t ∈ ts, ∀ a ∈ before.axioms, a.isAbout t = false
  added : ∃ extra, (w.ontology id).axioms = before.axioms ++ extra ∧ ∀ a ∈ extra, ∃ t ∈ ts, a.isAbout t = true

variable {S : Expr → Prop} {env : Env} {w : World} {id : Nat} {before : Ontology} {ts : List Term} {α : Type}

theorem Kept.untouched {w' : World} (h : Kept S id before ts w) (hw : w.Untouched w') :
    Kept S id before ts w' where
  sound := h.sound.of_untouched hw
  names := h.names.of_untouched hw
  manages := h.manages.of_untouched hw
  lawful := hw.ontology id ▸ h.lawful
  entities := h.entities
  new := h.new
  added := hw.ontology id ▸ h.added

/-- A call keeps the invariant, whether it fails or returns an entity. -/
theorem Kept.call (henv : env.Harmless S) (h : Kept S id before ts w) {c : Builder.Call}
    (hc : ProperCall S env id before w c) :
    (∀ f w', c.run env w = (.error f, w') → Kept S id before ts w') ∧
      ∀ t w', c.run env w = (.ok t, w') → Kept S id before (ts ++ [t]) w' := by
  rcases Builder.Call.run_cases henv h.sound h.names hc.fit with
    ⟨j, m, e, as, w₁, hp, hu, hm, has, hrun⟩ | ⟨f, w₁, hrun, hu⟩
  · constructor
    · intro f w' hf
      rw [hrun] at hf
      cases hf
    · intro t w' ht
      rw [hrun] at ht
      cases ht
      have hj : j = id := by
        have := hc.target _ _ hp
        simpa using this
      subst hj
      have h₁ := h.untouched hu
      have haxioms : (((w₁.setOntology j ((w₁.ontology j).addAll as)).record env.context.window
          (.entity m e)).ontology j) = (w₁.ontology j).addAll as := by
        rw [World.ontology_record, World.ontology_setOntology hm.exists_ontology]
      refine ⟨h₁.sound.setOntology.record _ _, ?_, (hm.setOntology Ontology.addAll_iri).record _ _, ?_, ?_, ?_, ?_⟩
      · exact World.NamesWithin.record (w := w₁.setOntology j _) h₁.names _ _
      · rw [haxioms]
        exact h₁.lawful.addAll fun a ha => (has a ha).1
      · exact List.forall_mem_append.mpr ⟨h.entities, List.forall_mem_singleton.mpr rfl⟩
      · exact List.forall_mem_append.mpr ⟨h.new, List.forall_mem_singleton.mpr (hc.new _ _ hp)⟩
      · obtain ⟨extra, hextra, habout⟩ := h₁.added
        refine ⟨extra ++ (w₁.ontology j).fresh as, ?_, List.forall_mem_append.mpr ⟨?_, ?_⟩⟩
        · rw [haxioms, Ontology.addAll_axioms, hextra, List.append_assoc]
        · intro a ha
          obtain ⟨t, ht, hat⟩ := habout a ha
          exact ⟨t, List.mem_append_left _ ht, hat⟩
        · intro a ha
          exact ⟨_, List.mem_append_right _ (List.mem_singleton.mpr rfl), (has a (Ontology.mem_fresh ha).1).2⟩
  · constructor
    · intro f' w' hf
      rw [hrun] at hf
      cases hf
      exact h.untouched hu
    · intro t w' ht
      rw [hrun] at ht
      cases ht

/-- All calls keep the invariant, up to the one that fails if one does. -/
theorem Kept.construct (henv : env.Harmless S) {calls : Calls} {bound : Bound} (h : Kept S id before ts w)
    (hc : ProperCalls S env id before bound calls w) :
    Kept S id before (ts ++ (construct env bound calls.named w).returned) (construct env bound calls.named w).world := by
  induction calls generalizing bound ts w with
  | nil => rwa [Calls.named, List.map_nil, Probe.construct, List.append_nil]
  | cons c calls ih =>
    obtain ⟨name, call⟩ := c
    obtain ⟨hfirst, hrest⟩ := hc
    have hcall := h.call henv hfirst
    rw [Calls.named, List.map_cons, Probe.construct]
    rcases hr : (call bound).run env w with ⟨f | t, w₁⟩
    · rw [List.append_nil]
      exact hcall.1 f w₁ hr
    · have := ih (hcall.2 t w₁ hr) (hrest t w₁ hr)
      rwa [List.append_assoc] at this

/-- What is left of the axioms when those that mention a probe are taken away. -/
theorem filter_kept {extra : List Axiom} (hnew : ∀ t ∈ ts, ∀ a ∈ before.axioms, a.isAbout t = false)
    (hextra : ∀ a ∈ extra, ∃ t ∈ ts, a.isAbout t = true) :
    (before.axioms ++ extra).filter (fun a => !ts.any a.isAbout) = before.axioms := by
  have hkeep : before.axioms.filter (fun a => !ts.any a.isAbout) = before.axioms := by
    apply List.filter_eq_self.mpr
    intro a ha
    simp only [Bool.not_eq_true', List.any_eq_false, Bool.not_eq_true]
    intro t ht
    exact hnew t ht a ha
  have hdrop : extra.filter (fun a => !ts.any a.isAbout) = [] := by
    apply List.filter_eq_nil_iff.mpr
    intro a ha
    obtain ⟨t, ht, hat⟩ := hextra a ha
    simp only [Bool.not_eq_true', Bool.not_eq_false, List.any_eq_true]
    exact ⟨t, ht, hat⟩
  rw [List.filter_append, hkeep, hdrop, List.append_nil]

/-- When the scope is left, the ontology is that of the beginning with axioms about the bound values. -/
structure Extended (id : Nat) (before : Ontology) (r : Outcome) : Prop where
  manages : r.world.Manages id
  lawful : (r.world.ontology id).Lawful
  entities : ∀ t ∈ r.values, t.isEntity = true
  new : ∀ t ∈ r.values, ∀ a ∈ before.axioms, a.isAbout t = false
  added : ∃ extra, (r.world.ontology id).axioms = before.axioms ++ extra ∧
    ∀ a ∈ extra, ∃ t ∈ r.values, a.isAbout t = true

theorem Extended.of_kept {r : Outcome} (h : Kept S id before r.values r.world) : Extended id before r :=
  ⟨h.manages, h.lawful, h.entities, h.new, h.added⟩

/-- A body that only adds axioms about the probes keeps this. -/
theorem Extended.body {r : Outcome} {w' : World} (h : Extended id before r)
    (hb : ProperBody id r.values r.world w') : Extended id before { r with world := w' } := by
  obtain ⟨extra, hextra, habout⟩ := h.added
  obtain ⟨more, hmore, habout'⟩ := hb.adds
  refine ⟨hb.manages, hb.lawful, h.entities, h.new, extra ++ more, ?_, List.forall_mem_append.mpr ⟨habout, habout'⟩⟩
  show (w'.ontology id).axioms = _
  rw [hmore, hextra, List.append_assoc]

/-- Removing the bound values takes away what has been added. -/
theorem Extended.sweep {r : Outcome} (h : Extended id before r) (env : Env) :
    ((Probe.sweep (removeEntity · (.handle (.ontology id))) env r.values.reverse r.world).ontology id).axioms =
      before.axioms := by
  obtain ⟨extra, hextra, habout⟩ := h.added
  rw [sweep_entities h.manages h.lawful fun t ht => h.entities t (List.mem_reverse.mp ht), hextra]
  simp only [List.any_reverse]
  exact filter_kept h.new habout

/-- **A scope of new entities gives the ontology back**, whether the body ends, the body fails or a constructor
fails. -/
theorem scope_restores (henv : env.Harmless S) (hw : w.Sound) (hn : w.NamesWithin S) {ontology : Term}
    (ho : Current.orGiven ontology env w = (.ok (.handle (.ontology id)), w)) (hm : w.Manages id)
    (hl : (w.ontology id).Lawful) {calls : Calls} (names : (calls.map (·.1)).Nodup)
    (hc : ProperCalls S env id (w.ontology id) [] calls w) {body : Term → Act α}
    (hb : (construct env [] calls.named w).fault = none →
      ProperBody id (construct env [] calls.named w).values (construct env [] calls.named w).world
        (body (.map (construct env [] calls.named w).bound) env (construct env [] calls.named w).world).2) :
    ((Scope.run (withEntities (bindings calls.named) ontology) body env w).2.ontology id).axioms =
      (w.ontology id).axioms := by
  have start : Kept S id (w.ontology id) [] w :=
    ⟨hw, hn, hm, hl, nofun, nofun, [], (List.append_nil _).symm, nofun⟩
  have names' : (calls.named.map (·.1)).Nodup := by rwa [Calls.named, List.map_map]
  have values := construct_values env names' [] (.nil _) w
  have kept := start.construct henv hc
  rw [List.map_nil, List.nil_append] at values
  rw [List.nil_append, ← values] at kept
  have extended : Extended id (w.ontology id) (leaving env calls.named body w) := by
    cases hf : (construct env [] calls.named w).fault with
    | some f =>
      rw [leaving_of_some hf]
      exact .of_kept kept
    | none =>
      rw [leaving_of_none hf]
      exact (Extended.of_kept kept).body (hb hf)
  rw [withEntities, run_scope removeEntity calls.named ho]
  exact extended.sweep env

/-- Two new classes, the second one below the first. -/
def chained : Calls := [
  ("p", fun _ => .make .cls (.iri "a") .null (.handle (.ontology 0)) []),
  ("q", fun bound => .make .cls (.iri "b") .null (.handle (.ontology 0)) [("subclass", .tuple (bound.map (·.2)))])]

theorem chained_proper : ProperCalls (fun _ => False) .plain 0 (World.single.ontology 0) [] chained .single := by
  have first : (chained[0].2 []).prepare .plain .single =
      (.ok ⟨.handle (.ontology 0), .entity 0 ⟨.cls, "a"⟩, [.declaration (.entity 0 ⟨.cls, "a"⟩)]⟩, .single) := by
    rfl
  have second : ((chained[1].2 [(.text "p", .entity 0 ⟨.cls, "a"⟩)]).prepare .plain
      ((chained[0].2 []).run .plain .single).2).1 =
      .ok ⟨.handle (.ontology 0), .entity 0 ⟨.cls, "b"⟩, [.declaration (.entity 0 ⟨.cls, "b"⟩),
        .subclassOf (.entity 0 ⟨.cls, "b"⟩) (.entity 0 ⟨.cls, "a"⟩)]⟩ := by rfl
  refine ⟨⟨⟨nofun, nofun, nofun, nofun⟩, fun p w' hp => ?_, fun p w' hp => ?_⟩, fun t w' ht => ?_⟩
  · cases first.symm.trans hp
    rfl
  · cases first.symm.trans hp
    decide
  · have hrun : (.ok (.entity 0 ⟨.cls, "a"⟩), ((chained[0].2 []).run .plain .single).2) =
        ((.ok t, w') : Except Fault Term × World) := by
      rw [← show _ = ((.ok t, w') : Except Fault Term × World) from ht]
      rfl
    cases hrun
    refine ⟨⟨⟨nofun, nofun, ?_, nofun⟩, fun p w' hp => ?_, fun p w' hp => ?_⟩, fun _ _ _ => trivial⟩
    · exact List.forall_mem_singleton.mpr (List.forall_mem_singleton.mpr ⟨rfl, nofun⟩)
    · cases second.symm.trans (congrArg Prod.fst hp)
      rfl
    · cases second.symm.trans (congrArg Prod.fst hp)
      decide

/-- A body that says something about the first of these probes. -/
def aboutFirst (_ : Term) : Act Term :=
  Change.add (Axiom.subclassOf (.entity 0 ⟨.cls, "a"⟩) (.entity 0 ⟨.cls, "c"⟩)).toTerm (.handle (.ontology 0))

theorem aboutFirst_proper :
    let r := construct .plain [] chained.named .single
    ProperBody 0 r.values r.world (aboutFirst (.map r.bound) .plain r.world).2 := by
  have values : (construct .plain [] chained.named .single).values =
      [.entity 0 ⟨.cls, "a"⟩, .entity 0 ⟨.cls, "b"⟩] := by rfl
  have left : ((aboutFirst (.map (construct .plain [] chained.named .single).bound) .plain
      (construct .plain [] chained.named .single).world).2.ontology 0).axioms =
      [.declaration (.entity 0 ⟨.cls, "c"⟩), .declaration (.entity 0 ⟨.cls, "a"⟩),
        .declaration (.entity 0 ⟨.cls, "b"⟩), .subclassOf (.entity 0 ⟨.cls, "b"⟩) (.entity 0 ⟨.cls, "a"⟩),
        .subclassOf (.entity 0 ⟨.cls, "a"⟩) (.entity 0 ⟨.cls, "c"⟩)] := by rfl
  refine ⟨⟨[.subclassOf (.entity 0 ⟨.cls, "a"⟩) (.entity 0 ⟨.cls, "c"⟩)], by rfl, ?_⟩, ⟨by decide, by decide⟩,
    fun a ha => ?_, ?_⟩
  · rw [values]
    exact List.forall_mem_singleton.mpr ⟨_, List.mem_cons_self, by decide⟩
  · rw [left] at ha
    simp only [List.mem_cons, List.not_mem_nil, or_false] at ha
    rcases ha with rfl | rfl | rfl | rfl | rfl
    all_goals exact ⟨by decide, by decide⟩
  · rw [left]
    unfold Distinct
    decide

/-- The scope of these probes with this body. -/
theorem scope_restores_chained :
    ((Scope.run (withEntities (bindings chained.named) (.handle (.ontology 0))) aboutFirst .plain
      .single).2.ontology 0).axioms = (World.single.ontology 0).axioms :=
  scope_restores (Env.plain_harmless _) World.single_sound nofun rfl World.single_manages World.single_lawful
    (by decide) chained_proper fun _ => aboutFirst_proper

end Probe

end Authoring
