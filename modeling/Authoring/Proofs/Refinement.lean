import Authoring.Proofs.Declarations
import Authoring.Proofs.Local.Service
import Authoring.Proofs.Window.Orderly

/-!
# Refining an entity

A call that refines an entity, and ends without a fault, adds to one ontology, behind what is stored there, axioms that all
mention one entity, which is then declared there; it returns this entity, and leaves the other ontologies alone
(`Builder.refine_adds`). This entity is the one that was to be refined unless the frames give a name. Only the frames of a
class may do so, and then it is the class of that name, read as for a new class.

The frames, the default frames and the reference of the target may be anything, so long as the call succeeds. What a rule
makes of a value always mentions the entity (`Compile.Rule.mentions`), even if the value is no reference that makes sense.

**What is assumed.** Producers and naming functions change nothing that is stored (`Env.Sparing`): what they add would be
added, too.
-/

namespace Authoring

open Act

/-- What is assumed of an environment: evaluating a delayed expression changes nothing that is stored. -/
def Env.Sparing (env : Env) : Prop := ∀ (body : Expr) (bound : Term) (c : Context) (w : World),
  let w' := (env.eval body bound c w).2
  w'.ontologies = w.ontologies ∧ w'.stores = w.stores ∧ w'.installed = w.installed ∧ w'.namespaces = w.namespaces

theorem Env.Sparing.isLocal {env : Env} (h : env.Sparing) (part : Ontology.Part) (id : Nat) : env.Local part id :=
  fun body bound c w =>
    have h := h body bound c w
    .of_same h.1 h.2.1 h.2.2.1 h.2.2.2

/-- What is local to each part of each ontology has changed none. -/
theorem World.ontology_of_local {w w' : World} (h : ∀ part id, w.Local part id w') (id : Nat) :
    w'.ontology id = w.ontology id := calc
  w'.ontology id = (w.ontology id).taking .axioms (w'.ontology id) := (h .axioms id).own
  _ = (w.ontology id).taking .axioms ((w.ontology id).taking .imports (w'.ontology id)) :=
    congrArg _ (h .imports id).own
  _ = w.ontology id := rfl

/-! ## What is compiled mentions the entity -/

namespace Axiom

variable {m : Nat} {e : Entity} {k : AxiomKind} {ts : List Term}

theorem mentions_of_referent {a : Axiom} {n : Nat} (h : Term.entity n e ∈ Term.referentsAll a.operands) :
    a.mentions e m = true := by
  rw [mentions, signature_contains_entity.mpr ⟨n, h⟩, Bool.true_or]

/-- An axiom mentions an entity that is one of its operands. -/
theorem mentions_of_mem (h : Term.entity m e ∈ ts) : mentions ⟨k, ts⟩ e m = true := by
  refine mentions_of_referent (n := m) ?_
  rw [Term.referentsAll_eq_flatMap]
  exact List.mem_flatMap.mpr ⟨_, h, List.mem_singleton.mpr rfl⟩

/-- An axiom over a set mentions an entity that was put into it. -/
theorem mentions_of_mem_group (h : Term.entity m e ∈ ts) : mentions ⟨k, [group ts]⟩ e m = true := by
  obtain ⟨n, hn⟩ := Term.exists_mem_referents_group h
  refine mentions_of_referent (n := n) ?_
  rw [Term.referentsAll_eq_flatMap]
  exact List.mem_flatMap.mpr ⟨_, List.mem_singleton.mpr rfl, hn⟩

/-- An annotation of the IRI of an entity mentions it. -/
theorem mentions_annotation (t : Term) : (annotationAssertion (.iri e.iri) t).mentions e m = true := by
  simp [mentions, annotates, annotationAssertion, Term.equals, Term.agrees, Term.atomAgrees, Term.isNaN]

end Axiom

namespace Compile

variable {ontology : Term} {maker : Nat} {env : Env} {m : Nat} {e : Entity} {w w' : World}

/-- **What a rule makes of a value mentions the entity**, whatever the value is. -/
theorem Rule.mentions {tag : FrameTag} {value : Term} {a : Axiom}
    (h : Rule ontology maker env m e tag value w (some a) w') : a.mentions e m = true := by
  have first : ∀ {k : AxiomKind} {t : Term}, Axiom.mentions ⟨k, [.entity m e, t]⟩ e m = true :=
    Axiom.mentions_of_mem List.mem_cons_self
  have grouped : ∀ {k : AxiomKind} {t : Term}, Axiom.mentions ⟨k, [Axiom.group [.entity m e, t]]⟩ e m = true :=
    Axiom.mentions_of_mem_group List.mem_cons_self
  cases h with
  | relating ht =>
    cases tag
    case subclass | domain | range =>
      cases ht
      exact first
    case type =>
      cases ht
      exact Axiom.mentions_of_mem (List.mem_cons_of_mem _ List.mem_cons_self)
    case inverse =>
      cases ht
      exact grouped
    case superproperty =>
      obtain ⟨kind, iri⟩ := e
      cases kind <;> cases ht <;> exact first
    all_goals cases ht
  | grouping ht =>
    cases tag
    case equivalent | disjoint | same | different =>
      cases ht
      exact grouped
    all_goals cases ht
  | @characteristic _ c => cases c <;> exact Axiom.mentions_of_mem List.mem_cons_self
  | @fact _ _ _ _ negated =>
    cases negated <;> exact Axiom.mentions_of_mem (List.mem_cons_of_mem _ List.mem_cons_self)
  | note | along | literal => exact Axiom.mentions_annotation _

theorem compile_mentions {explicit defaults : List (Term × Term)} {schema : Term} {as : List Axiom}
    (h : compile (.entity m e) explicit defaults schema ontology maker env w = (.ok as, w')) :
    ∀ a ∈ as, a.mentions e m = true := by
  obtain ⟨-, rs, hrs, rfl⟩ := compile_ok_iff.mp h
  refine List.forall_mem_cons.mpr ⟨Axiom.mentions_of_mem List.mem_cons_self, fun a ha => ?_⟩
  obtain ⟨r, hr, heq⟩ := List.mem_filterMap.mp ha
  obtain ⟨_, _, _, _, hrule⟩ := hrs.exists_rule_of_mem ((show r = some a from heq) ▸ hr)
  exact hrule.mentions

end Compile

/-! ## Calls of builders -/

/-- **From one world to another, one ontology has gained axioms about an entity**: they stand behind what was stored, in its
order, all of them mention the entity, and it is declared now. -/
structure World.Gains (id m : Nat) (e : Entity) (w w' : World) : Prop where
  added : ∃ as, (w'.ontology id).axioms = (w.ontology id).axioms ++ as ∧ ∀ a ∈ as, a.mentions e m = true
  declared : (w'.ontology id).axioms.contains (.declaration (.entity m e)) = true
  others : ∀ j, j ≠ id → w'.ontology j = w.ontology j

namespace Builder

variable {kind : EntityKind} {name frames ontology t : Term} {more : List (String × Term)} {all : FrameMap} {p : Prepared}
  {env : Env} {w w' : World} {id : Nat}

/-- A name that has been read for a class is the name itself, or the one that the frames give. Nothing else names an
entity of another kind. -/
theorem prepareOfKind_ok (h : prepareOfKind kind name frames ontology more env w = (.ok p, w')) :
    ∃ all n, gather frames more env w = (.ok all, w) ∧
      (if kind = .cls then className name all else pure name) env w = (.ok n, w) ∧
      prepare kind n all ontology env w = (.ok p, w') := by
  obtain ⟨all, w₁, hgather, hrest⟩ := bind_ok h
  obtain rfl := (gather_reads frames more).eq_of_ok hgather
  refine ⟨all, ?_⟩
  split at hrest
  next hk =>
    obtain ⟨n, w₂, hname, hprepare⟩ := bind_ok hrest
    obtain rfl := (Looks.className name all).reads.eq_of_ok hname
    exact ⟨n, hgather, by rwa [if_pos hk], hprepare⟩
  next hk => exact ⟨name, hgather, by rw [if_neg hk]; rfl, hrest⟩

/-- What has been prepared: the target that was found, what the name denotes there, and what was compiled of it. -/
theorem prepare_parts (ho : (Current.orGiven ontology env w).1 = .ok (.handle (.ontology id)))
    (h : prepare kind name all ontology env w = (.ok p, w')) : p.target = .handle (.ontology id) ∧
      ∃ m iri w₁, p.entity = .entity m ⟨kind, iri⟩ ∧
        Reference.resolve name kind (.handle (.ontology id)) Factory.shared env w = (.ok p.entity, w₁) ∧
        Compile.compile p.entity all.entries (env.context.defaults.getD []).entries .null (.handle (.ontology id))
          Factory.shared env w₁ = (.ok p.axioms, w') := by
  obtain ⟨o, w₁, hgiven, hrest⟩ := bind_ok h
  obtain rfl := (Current.orGiven_reads ontology).eq_of_ok hgiven
  rw [hgiven] at ho
  cases ho
  obtain ⟨u, w₂, hresolve, hrest⟩ := bind_ok hrest
  obtain ⟨d, w₃, hdefaults, hrest⟩ := bind_ok hrest
  cases hdefaults
  obtain ⟨as, w₄, hcompile, hdone⟩ := bind_ok hrest
  cases hdone
  refine ⟨rfl, ?_⟩
  cases Reference.resolve_ok hresolve with
  | entity m iri => exact ⟨m, iri, w₂, rfl, hresolve, hcompile⟩
  | expression =>
    obtain ⟨f, hf⟩ := Compile.compile_expression _ _ _ _ _ _ _ env w₂
    rw [hf] at hcompile
    cases hcompile

/-- The name that frames give, if they give one. -/
def nameOf? (all : FrameMap) : Option Term := (all.valuesOf (Term.ofTag .name)).head?

/-- Frames that give a name have a frame for it. -/
theorem exists_nameFrame {v : Term} (h : nameOf? all = some v) : ∃ f ∈ all, FrameTag.ofTerm? f.1 = some .name := by
  refine Classical.byContradiction fun hnone => ?_
  have hvalues : all.valuesOf (Term.ofTag .name) = [] := by
    refine FrameMap.valuesOf_eq_nil fun f hf => Bool.eq_false_iff.mpr fun hkey => ?_
    exact hnone ⟨f, hf, (FrameTag.ofTerm?_of_beq hkey).symm⟩
  rw [nameOf?, hvalues] at h
  cases h

/-- Classes alone take a name frame. -/
theorem kind_of_allowed_name (h : FrameTag.name ∈ FrameTag.allowed kind) : kind = .cls := by
  revert h
  cases kind <;> decide

/-- **Frames that give a name are compiled for a class only.** -/
theorem kind_of_named {m maker : Nat} {iri : String} {defaults : List (Term × Term)} {as : List Axiom} {v : Term}
    (h : Compile.compile (.entity m ⟨kind, iri⟩) all.entries defaults .null ontology maker env w = (.ok as, w'))
    (hv : nameOf? all = some v) : kind = .cls := by
  obtain ⟨f, hf, htag⟩ := exists_nameFrame hv
  obtain ⟨hadmits, -⟩ := Compile.compile_ok_iff.mp h
  have hentry : (f.1, Term.tuple f.2) ∈ all.entries := List.mem_map.mpr ⟨f, hf, rfl⟩
  obtain ⟨tag, htag', hallowed⟩ := hadmits _ (List.mem_append_right _ hentry)
  obtain rfl : FrameTag.name = tag := Option.some.inj (htag.symm.trans htag')
  exact kind_of_allowed_name hallowed

/-- Frames that give no name leave an entity to name itself. -/
theorem className_of_none {m : Nat} {e : Entity} (h : nameOf? all = none) :
    className (.entity m e) all = pure (.entity m e) := by
  unfold className
  rw [show (all.valuesOf (Term.ofTag .name)).head? = none from h]
  rfl

/-- A name that frames give is read as if it had been given in the first place. -/
theorem className_of_some {v : Term} (h : nameOf? all = some v) : className name all = className v [] := by
  unfold className
  rw [show (all.valuesOf (Term.ofTag .name)).head? = some v from h]
  rfl

/-- What completing a prepared call adds. -/
theorem complete_gains {m : Nat} {e : Entity} {w₁ : World} (hid : id < w.ontologies.length)
    (hspared : ∀ part j, w.Local part j w₁) (htarget : p.target = .handle (.ontology id))
    (hdeclares : p.Declares m e) (hmentions : ∀ a ∈ p.axioms, a.mentions e m = true)
    (h : complete p env w₁ = (.ok t, w')) : t = .entity m e ∧ w.Gains id m e w' := by
  obtain ⟨j, hj, rfl, rfl⟩ := complete_ok hdeclares h
  rw [htarget] at hj
  cases hj
  have hlength : id < w₁.ontologies.length := (hspared .axioms id).length ▸ hid
  refine ⟨rfl, ⟨w₁.ontology id |>.fresh p.axioms, ?_, fun a ha => ?_⟩, ?_, fun j hj => ?_⟩
  · rw [World.ontology_record, World.ontology_setOntology hlength, Ontology.addAll_axioms,
      World.ontology_of_local hspared]
  · exact hmentions a (Ontology.mem_fresh ha).1
  · obtain ⟨rest, has, -⟩ := hdeclares.axioms
    rw [World.ontology_record, World.ontology_setOntology hlength]
    exact Ontology.contains_addAll (has ▸ List.mem_cons_self)
  · rw [World.ontology_record, World.ontology_setOntology_of_ne hj, World.ontology_of_local hspared]

/-- **Refining an entity** adds axioms that mention it, and returns it, unless the frames give a name: then it adds axioms
about the class of that name, and returns that class. Only the frames of a class may give a name. -/
theorem refine_adds {m : Nat} {e : Entity} (henv : env.Sparing)
    (ho : (Current.orGiven ontology env w).1 = .ok (.handle (.ontology id))) (hid : id < w.ontologies.length)
    (h : refine (.entity m e) frames ontology more env w = (.ok t, w')) :
    ∃ n e', t = .entity n e' ∧ w.Gains id n e' w' ∧ ∃ all, gather frames more env w = (.ok all, w) ∧
      (nameOf? all = none → t = .entity m e) ∧
      ∀ v, nameOf? all = some v → e.kind = .cls ∧ ∃ u w₁, className v [] env w = (.ok u, w) ∧
        Reference.resolve u .cls (.handle (.ontology id)) Factory.shared env w = (.ok t, w₁) := by
  have hrun : (prepareOfKind e.kind (.entity m e) frames ontology more >>= complete) env w = (.ok t, w') := by
    rw [← ofKind_eq]
    exact h
  obtain ⟨p, w₁, hp, hcomplete⟩ := bind_ok hrun
  have hspared : ∀ part j, w.Local part j w₁ := fun part j => by
    have hlocal := prepareOfKind_local (t := .handle (.ontology j)) e.kind (.entity m e) frames ontology more env
      (henv.isLocal part j) w .self
    rwa [hp] at hlocal
  obtain ⟨all, n, hgather, hname, hprepare⟩ := prepareOfKind_ok hp
  obtain ⟨htarget, m', iri, w₂, hentity, hresolve, hcompile⟩ := prepare_parts ho hprepare
  obtain ⟨m'', e'', hdeclares⟩ := prepare_ok hprepare
  obtain ⟨rfl, rfl⟩ := Term.entity.inj (hentity.symm.trans hdeclares.entity)
  rw [hentity] at hresolve hcompile
  obtain ⟨rfl, hgains⟩ := complete_gains hid hspared htarget hdeclares (Compile.compile_mentions hcompile) hcomplete
  refine ⟨m', _, rfl, hgains, all, hgather, fun hnone => ?_, fun v hv => ?_⟩
  · have hn : n = .entity m e := by
      split at hname
      · rw [className_of_none hnone] at hname
        cases hname
        rfl
      · cases hname
        rfl
    rw [hn, Reference.resolve_entity m e.kind e.iri] at hresolve
    cases hresolve
    rfl
  · have hcls : e.kind = .cls := kind_of_named hcompile hv
    rw [if_pos hcls, className_of_some hv] at hname
    exact ⟨hcls, n, w₂, hname, hcls ▸ hresolve⟩

/-- The environment of the world with one ontology, where every delayed expression names a class. -/
def supplied : Env := { Env.single with eval := fun _ _ _ w => (.ok (.text "d"), w) }

/-- The class that is declared is refined, and one that is not, in the name of another. -/
theorem refine_adds_single :
    let plain := refine (.entity 0 ⟨.cls, "c"⟩)
      (.map [(.text "subclass", .list [.closure 0 0 .null .null]), (.text "label", .text "C")]) .null []
    let named := refine (.entity 0 ⟨.cls, "a"⟩) .null .null [("name", .text "b"), ("comment", .text "B")]
    (plain supplied .single).1 = .ok (.entity 0 ⟨.cls, "c"⟩) ∧
      World.single.Gains 0 0 ⟨.cls, "c"⟩ (plain supplied .single).2 ∧
      (named supplied .single).1 = .ok (.entity 0 ⟨.cls, "o#b"⟩) ∧
      World.single.Gains 0 0 ⟨.cls, "o#b"⟩ (named supplied .single).2 := by
  have gains : ∀ {m n : Nat} {e e' : Entity} {frames : Term} {more : List (String × Term)},
      (refine (.entity m e) frames .null more supplied .single).1 = .ok (.entity n e') →
        World.single.Gains 0 n e' (refine (.entity m e) frames .null more supplied .single).2 := by
    intro m n e e' frames more h
    have henv : supplied.Sparing := fun _ _ _ _ => ⟨rfl, rfl, rfl, rfl⟩
    obtain ⟨_, _, ht, hgains, -⟩ := refine_adds henv rfl Nat.one_pos (Prod.ext h rfl)
    cases ht
    exact hgains
  exact ⟨rfl, gains rfl, rfl, gains rfl⟩

/-- **A name leads away.** A class that is refined in the name of another is not returned and not declared, and what is
added does not mention it. -/
theorem refine_leads_away :
    let e : Entity := ⟨.cls, "a"⟩
    let r := refine (.entity 0 e) (.map [(.ofTag .name, .text "b")]) .null [] .single .single
    r.1 = .ok (.entity 0 ⟨.cls, "o#b"⟩) ∧ r.1 ≠ .ok (.entity 0 e) ∧
      (r.2.ontology 0).axioms = (World.single.ontology 0).axioms ++ [.declaration (.entity 0 ⟨.cls, "o#b"⟩)] ∧
      (Axiom.declaration (.entity 0 ⟨.cls, "o#b"⟩)).mentions e 0 = false ∧
      (r.2.ontology 0).axioms.contains (.declaration (.entity 0 e)) = false := by
  refine ⟨rfl, fun h => ?_, rfl, by decide, by decide⟩
  have hreturned : Term.entity 0 ⟨.cls, "o#b"⟩ = .entity 0 ⟨.cls, "a"⟩ := Except.ok.inj h
  exact absurd (Term.entity.inj hreturned).2 (by decide)

end Builder

end Authoring
