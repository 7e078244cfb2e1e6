import Authoring.Proofs.Aspect.Service
import Authoring.Proofs.Ledger

/-!
# The authoring layer keeps a ledger

Every call of the authoring layer has a ledger, for whatever ontology: this is an aspect of acts (`Aspect.ledger`). So
have removals of entities (`Change.removeEntity_does`), the scopes of the layer (`Service.Block.enter_does`), and plans
that are put together from calls, removals and scopes, with parts of them caught (`Plan.run_does`).

**What carries the proof.** A removal never fails halfway, because every axiom that is stored can be compared, and so can
all that it refers to. The first is so because the store asks for it (`World.WellKept`), the second is an invariant of the
layer (`World.Firm`).

**What is assumed.** The sets in the expressions among the arguments hold nothing but what can be compared, as sets do
(`Term.IsFirm`); it is so of the expressions that the layer makes (`Policy.firm_closed`). Delayed expressions that may be
called have ledgers of their own, and a producer that runs a plan has one (`Env.running_supports`).
-/

namespace Authoring

open Act

variable {S : Expr → Prop} {id : Nat}

/-! ## What is referred to -/

namespace Term

mutual
/-- **A firm term**: its fixed sets hold nothing but what can be compared, at any depth, as sets do. -/
def IsFirm : Term → Prop
  | .expression _ ts _ | .tuple ts => AreFirm ts
  | .set true ts => (∀ t ∈ ts, t.isStable = true) ∧ AreFirm ts
  | _ => True
def AreFirm : List Term → Prop
  | [] => True
  | t :: ts => t.IsFirm ∧ AreFirm ts
end

theorem areFirm_iff {ts : List Term} : AreFirm ts ↔ ∀ t ∈ ts, t.IsFirm := by
  induction ts with
  | nil => simp [AreFirm]
  | cons t ts ih => rw [AreFirm, ih, List.forall_mem_cons]

mutual
/-- All that a firm term refers to can be compared, if the term can. -/
theorem IsFirm.referents : ∀ {t : Term}, t.IsFirm → t.isStable = true → ∀ u ∈ t.referents, u.isStable = true
  | .entity _ _, _, _ => List.forall_mem_singleton.mpr rfl
  | .expression _ _ _, h, hs => by
    rw [isStable, Bool.and_eq_true, Bool.and_eq_true] at hs
    exact AreFirm.referentsAll h (areStable_iff.mp hs.1.2)
  | .note _ _, _, hs => List.forall_mem_singleton.mpr hs
  | .tuple _, h, hs => AreFirm.referentsAll h (areStable_iff.mp hs)
  | .set true _, h, _ => AreFirm.referentsAll h.2 h.1
  | .set false _, _, _ | .null, _, _ | .bool _, _, _ | .int _, _, _ | .float _, _, _ | .text _, _, _ | .iri _, _, _
  | .literal _, _, _ | .keyword _, _, _ | .list _, _, _ | .map _, _, _ | .fact _ _ _, _, _ | .closure _ _ _ _, _, _
  | .statement _ _, _, _ | .handle _, _, _ | .naming _ _, _, _ | .hook _ _, _, _ | .stats _, _, _ | .settings _, _, _
  | .listing _, _, _ => List.forall_mem_nil _
theorem AreFirm.referentsAll : ∀ {ts : List Term}, AreFirm ts → (∀ t ∈ ts, t.isStable = true) →
    ∀ u ∈ Term.referentsAll ts, u.isStable = true
  | [], _, _ => List.forall_mem_nil _
  | _ :: _, h, hs => by
    obtain ⟨hhead, htail⟩ := List.forall_mem_cons.mp hs
    exact List.forall_mem_append.mpr ⟨IsFirm.referents h.1 hhead, AreFirm.referentsAll h.2 htail⟩
end

theorem IsOfKind.isFirm {t : Term} {kind : EntityKind} (h : t.IsOfKind kind) : t.IsFirm := by
  obtain ⟨m, iri, rfl⟩ := h
  exact trivial

end Term

namespace Policy

/-- Firm expressions and annotations of any sort are let through, and any ontology may be worked on. -/
def firm (S : Expr → Prop) : Policy := ⟨Term.IsFirm, fun _ => True, S, fun _ => True⟩

theorem firm_describes {t : Term} (h : (firm S).Describes t) : t.IsFirm := h.elim Term.IsOfKind.isFirm (·.2)

theorem firm_counts (o : Operator) (c : Term) : (firm S).Counts o c :=
  fun _ _ hp hf => ⟨hp.isFirm, firm_describes hf, trivial⟩

theorem firm_closed : (firm S).Closed where
  restriction _ := firm_counts _ _
  complement hf := ⟨firm_describes hf, trivial⟩
  combination _ _ _ hms hs := ⟨⟨hs, Term.areFirm_iff.mpr fun t ht => firm_describes (hms t ht)⟩, trivial⟩
  enumeration _ _ hms :=
    ⟨⟨fun t ht => (hms t ht).isStable, Term.areFirm_iff.mpr fun t ht => (hms t ht).isFirm⟩, trivial⟩
  note _ := trivial

end Policy

/-- What stands where something single belongs is firm. -/
theorem Place.Admits.isFirm {p : Place} {t : Term} (hp : p.IsSingle)
    (h : p.Admits (Policy.firm S).Describes (Policy.firm S).properties t) : t.IsFirm := by
  cases p with
  | entity => cases t <;> cases h; exact trivial
  | named => exact Term.IsOfKind.isFirm h
  | description => exact Policy.firm_describes h
  | subject =>
    obtain ⟨iri, rfl⟩ := h
    exact trivial
  | note =>
    obtain ⟨p, l, rfl, -⟩ := h
    exact trivial
  | members => cases hp

/-- Sets of sets belong nowhere. -/
theorem AxiomKind.single_of_mem_places {k : AxiomKind} {p : Place} (hp : p ∈ k.places) :
    p.IsSingle ∨ ∃ least most q, p = .members least most q ∧ q.IsSingle := by
  cases k <;> simp only [places, List.mem_cons, List.not_mem_nil, or_false] at hp <;>
    rcases hp with rfl | rfl | rfl <;> simp [Place.IsSingle]

/-- **All that a stored axiom refers to can be compared.** -/
theorem Axiom.Meets.isStable {a : Axiom} (h : a.Meets (.firm S)) (hs : a.toTerm.isStable = true) : a.IsStable := by
  refine ⟨hs, fun u hu => ?_⟩
  have hfirm : Term.AreFirm a.operands := Term.areFirm_iff.mpr fun t ht => ?_
  · exact hfirm.referentsAll (Term.areStable_iff.mp hs) u (Distinct.mem_of_mem_eraseDups hu)
  obtain ⟨p, hp, hadmits⟩ := h.form.exists_place ht
  rcases AxiomKind.single_of_mem_places hp with hsingle | ⟨least, most, q, rfl, hsingle⟩
  · exact hadmits.isFirm hsingle
  · obtain ⟨ms, rfl, -, -, -, hms⟩ := hadmits
    exact ⟨h.members ms ht, Term.areFirm_iff.mpr fun m hm => (hms m hm).isFirm hsingle⟩

/-! ## The aspect -/

/-- A world in which what the axioms of an ontology refer to can be compared. The windows hold entities only, and the
naming functions call nothing but what may be called. -/
structure World.Firm (S : Expr → Prop) (id : Nat) (w : World) : Prop where
  axioms : ∀ a ∈ (w.ontology id).axioms, a.Meets (.firm S)
  collected : w.Collected
  naming : w.NamesWithin S

instance (S : Expr → Prop) (id : Nat) : Invariant (.firm S) (World.Firm S id) where
  naming h := h.naming
  collected h := h.collected
  registered _ _ _ := trivial
  consulted h hw :=
    ⟨hw.ontology id ▸ h.axioms, h.collected.of_untouched hw.toUntouched, h.naming.of_untouched hw.toUntouched⟩
  windows h _ hentity := ⟨h.axioms, hentity, h.naming⟩
  add h _ ha j := ⟨World.forall_axioms_add h.axioms ha j, h.collected, h.naming⟩

theorem World.Firm.lawful {w : World} (h : w.Firm S id) (hw : w.WellKept id) : (w.ontology id).Lawful where
  stable a ha := (h.axioms a ha).isStable (hw.stable a ha)
  distinct := hw.distinct

/-- A call for an ontology that the store holds ends with the entity, unless it has compiled an axiom that cannot be
compared. -/
theorem Builder.complete_of_held {p : Prepared} {m : Nat} {e : Entity} {env : Env} {w : World} (hp : p.Declares m e)
    (htarget : p.target = .handle (.ontology id)) (hm : w.Manages id) :
    (∃ w', complete p env w = (.ok (.entity m e), w')) ∨
      (∃ f w', complete p env w = (.error f, w')) ∧ ∃ a ∈ p.axioms, a.toTerm.isStable = false := by
  rcases hrun : complete p env w with ⟨f | t, w'⟩
  · refine .inr ⟨⟨f, w', rfl⟩, ?_⟩
    by_contra hall
    have hstable : ∀ a ∈ p.axioms, a.toTerm.isStable = true :=
      fun a ha => Bool.of_not_eq_false fun hs => hall ⟨a, ha, hs⟩
    rw [complete, htarget, run_bind, Change.run_addAxioms hm hstable] at hrun
    simp only [run_bind, run_record] at hrun
    cases hrun
  · obtain ⟨_, -, rfl, -⟩ := complete_ok hp hrun
    exact .inl ⟨w', rfl⟩

/-- **To have a ledger is an aspect of acts**, where the ontology is well kept. -/
def Aspect.ledger (S : Expr → Prop) (id : Nat) : Aspect (.firm S) (World.Firm S id) where
  Holds env x w := w.WellKept id → ∃ ps, Ledger id env x w ps
  ambient := True
  looks h _ _ _ := ⟨[], .conserved (.of_reads h.reads)⟩
  bind {_ _ x _ env w} hx hf hw := by
    obtain ⟨ps, hps⟩ := hx hw
    rcases hrun : x env w with ⟨f | a, w₁⟩
    · exact ⟨ps, .stopped hps hrun⟩
    · have hkept := (hps.declares hw).1
      rw [hrun] at hkept
      obtain ⟨qs, hqs⟩ := hf a w₁ hrun hkept
      exact ⟨_, .followed hps hrun hqs⟩
  current _ _ _ _ := ⟨[], .conserved (.of_calm fun _ => Current.ontology_calm _)⟩
  options _ _ _ _ := ⟨[], .conserved (.of_calm fun _ => Current.options_calm _)⟩
  log _ _ _ _ := ⟨[], .conserved (.modify fun _ => ⟨rfl, rfl, rfl⟩)⟩
  add ha _ ho _ _ _ := ⟨[], .conserved (Change.add_conserves ho (.inr ha))⟩
  call {c env w} hp hw := by
    obtain ⟨ps, hps⟩ := hp hw
    rcases hprepare : c.prepare env w with ⟨f | p, w₁⟩
    · rw [Builder.Call.run_eq]
      exact ⟨ps, .stopped hps hprepare⟩
    obtain ⟨m, e, hdeclares⟩ := Builder.Call.prepare_ok hprepare
    by_cases htarget : p.target = .handle (.ontology id)
    · cases hheld : w₁.holds w₁.installed id with
      | false => exact ⟨ps, .refused hps hprepare htarget hheld⟩
      | true =>
        have hkept := (hps.declares hw).1
        rw [hprepare] at hkept
        have hrun : c.run env w = Builder.complete p env w₁ := by rw [Builder.Call.run_eq, run_bind, hprepare]
        rcases Builder.complete_of_held hdeclares htarget (hkept.manages hheld) with
          ⟨w', hok⟩ | ⟨⟨f, w', herror⟩, hunstable⟩
        · exact ⟨_, .returned hps hprepare htarget (hrun.trans hok)⟩
        · exact ⟨_, .failed hps hprepare htarget hdeclares hheld hunstable (hrun.trans herror)⟩
    · rw [Builder.Call.run_eq]
      exact ⟨_, .followed hps hprepare (.conserved (Builder.complete_conserves hdeclares htarget))⟩

namespace Act

variable {α : Type}

/-- What conserves what is declared has a ledger. -/
theorem Conserves.shows {x : Act α} (h : x.Conserves id) : Shows (Aspect.ledger S id) x :=
  fun _ _ _ _ _ _ => ⟨[], .conserved h⟩

namespace Does

variable {P : α → Prop}

theorem context : Does (Aspect.ledger S id) Act.context (·.Meets (.firm S)) :=
  ⟨.context, Conserves.shows (.of_reads fun _ _ => rfl)⟩

theorem attempt {x : Act α} (hx : Does (Aspect.ledger S id) x P) :
    Does (Aspect.ledger S id) (Act.attempt x) fun r => ∀ a, r = .ok a → P a := by
  refine ⟨.attempt hx.upholds, fun env henv hs w hw hkept => ?_⟩
  obtain ⟨ps, hps⟩ := hx.shows env henv hs w hw hkept
  exact ⟨ps, .attempted hps⟩

theorem within {x : Act α} {c : Context} (hc : c.Meets (.firm S)) (hx : Does (Aspect.ledger S id) x P) :
    Does (Aspect.ledger S id) (Act.within (fun _ => c) x) P := by
  refine ⟨.within hc hx.upholds, fun env henv hs w hw hkept => ?_⟩
  obtain ⟨ps, hps⟩ := hx.shows { env with context := c } ⟨hc, henv.evaluated⟩ hs w hw hkept
  exact ⟨ps, .inside hps⟩

end Does

end Act

/-! ## Removals -/

/-- Axioms may be taken away. -/
theorem Store.discard_upholds (store : Nat) (o : Term) (a : Axiom) :
    Upholds (.firm S) (World.Firm S id) (discard store o a.toTerm) fun _ => True := by
  intro env _ w hw
  refine ⟨?_, fun _ _ => trivial⟩
  rcases discard_cases store o a env w with hsame | ⟨j, -, hdone⟩
  · rw [hsame]
    exact hw
  · rw [hdone]
    refine ⟨fun b hb => ?_, hw.collected, hw.naming⟩
    rcases World.ontology_setOntology_or w j id ((w.ontology j).remove a) with hsame | ⟨rfl, hremoved⟩
    · rw [hsame] at hb
      exact hw.axioms b hb
    · rw [hremoved] at hb
      exact hw.axioms b (List.mem_of_mem_eraseP hb)

/-- Nothing but an entity is mentioned by a declaration. -/
theorem Query.declaration_not_mentioned {t : Term} (ht : t.isEntity = false) {m : Nat} {e : Entity} {env : Env}
    {w w' : World} : mentions (.declaration (.entity m e)) t env w ≠ (.ok true, w') := by
  intro h
  have hsignature : (Axiom.declaration (.entity m e)).signature.contains t = false := by
    refine Bool.eq_false_iff.mpr fun hc => ?_
    obtain ⟨u, hu, htu⟩ := List.contains_iff_exists_mem_beq.mp hc
    rw [List.mem_singleton.mp (Distinct.mem_of_mem_eraseDups hu)] at htu
    obtain ⟨n, rfl⟩ := Term.agrees_entity.mp htu
    cases ht
  obtain ⟨_, w₁, -, hrest⟩ := bind_ok h
  obtain ⟨_, w₂, -, hrest⟩ := bind_ok hrest
  rw [hsignature] at hrest
  cases hrest

namespace Change

/-- The removal of what is no entity conserves what is declared. -/
theorem removeEntity_ledger {t o : Term} (ht : t.isEntity = false) (ho : o ≠ .null) (env : Env) (w : World) :
    ∃ ps, Ledger id env (removeEntity t o) w ps := by
  unfold removeEntity
  rw [Current.orGiven_of_ne_null ho, pure_bind]
  have hstore : Ledger id env Current.store w [] := .conserved (.of_reads fun _ _ => rfl)
  have hreads : (Query.referencing o t).Conserves id := .of_reads (Query.referencing_reads o t)
  rcases hrun : Query.referencing o t env w with ⟨f | doomed, w₁⟩
  · exact ⟨_, .followed hstore (Current.run_store env w) (.stopped (.conserved hreads) hrun)⟩
  have hdoomed : ∀ a ∈ doomed, ∀ m e, a ≠ .declaration (.entity m e) := by
    obtain ⟨c, w₂, hcurrent, hfilter⟩ := bind_ok hrun
    rintro a ha m e rfl
    exact Query.declaration_not_mentioned ht (filterM_ok (fun b => Query.mentions_reads b t) hfilter _ ha)
  refine ⟨_, .followed hstore (Current.run_store env w) (.followed (.conserved hreads) hrun (.conserved ?_))⟩
  refine .bind (.forM fun a ha => .bind (Store.discard_conserves (.inr (hdoomed a ha))) fun _ => .pure _) fun _ => ?_
  exact .of_reads (.bind (.iriOf t) fun _ => .bind (.iriOf o) fun _ => .pure _)

/-- **Removals have ledgers**, whatever is removed from whatever is given as an ontology. -/
theorem removeEntity_does (t o : Term) : Does (Aspect.ledger S id) (removeEntity t o) fun _ => True := by
  have given : ∀ {o : Term}, o ≠ .null → Does (Aspect.ledger S id) (removeEntity t o) fun _ => True := by
    intro o ho
    constructor
    · unfold removeEntity
      refine .bind (.orGiven fun _ _ => trivial) fun o _ => .bind (.of_reads fun _ _ => rfl) fun store _ => ?_
      refine .bind (.of_reads (Query.referencing_reads o t)) fun doomed _ => ?_
      refine .bind (.forM fun a _ => .bind (Store.discard_upholds _ _ _) fun _ _ => .pure trivial) fun _ _ => ?_
      exact .of_reads (.bind (.iriOf t) fun _ => .bind (.iriOf o) fun _ => .pure _)
    · intro env _ _ w hw hkept
      by_cases htarget : o = .handle (.ontology id)
      · subst htarget
        cases t
        case entity m e => exact ⟨_, .removal (hw.lawful hkept)⟩
        all_goals exact removeEntity_ledger rfl ho env w
      · exact ⟨[], .conserved (removeEntity_conserves ho htarget t)⟩
  have hact : removeEntity t o = Current.orGiven o >>= fun o => do
      let store ← Current.store
      let doomed ← Query.referencing o t
      doomed.forM fun a => do
        let _ ← Store.discard store o a.toTerm
      let _ ← iriOf t
      let _ ← iriOf o
      return doomed := rfl
  rw [hact]
  refine .bind (Current.orGiven_does ⟨fun _ _ => trivial, .inr trivial⟩) fun o ho => ?_
  have hgiven := given ho.2
  unfold removeEntity at hgiven
  rwa [Current.orGiven_of_ne_null ho.2, pure_bind] at hgiven

end Change

/-! ## Scopes -/

/-- A scope that has been opened, and has a ledger when it is left. -/
structure Entered.Keeps (S : Expr → Prop) (id : Nat) (e : Entered) : Prop where
  context : e.context.Meets (.firm S)
  yields : e.yields.Meets (.firm S)
  leave : ∀ f, Does (Aspect.ledger S id) (e.leave f) fun _ => True

namespace Scope

theorem openNew_does : Does (Aspect.ledger S id) Window.openNew fun _ => True :=
  ⟨Window.openNew_upholds, Conserves.shows fun _ _ => .of_same rfl rfl rfl⟩

theorem collected_does (n : Nat) : Does (Aspect.ledger S id) (collected n) fun ts => ∀ t ∈ ts, t.Meets (.firm S) :=
  ⟨collected_upholds n, Conserves.shows (.of_reads fun _ _ => rfl)⟩

theorem onSuccess_does {work : Act Unit} (h : Does (Aspect.ledger S id) work fun _ => True) (f : Option Fault) :
    Does (Aspect.ledger S id) (onSuccess work f) fun _ => True := by
  cases f with
  | none => exact h
  | some _ => exact .pure trivial

/-- **A body runs inside a scope** as it runs outside, so far as it has a ledger. -/
theorem run_does {α : Type} {P : α → Prop} {opening : Act Entered} {body : Term → Act α}
    (ho : Does (Aspect.ledger S id) opening (·.Keeps S id))
    (hb : ∀ t, t.Meets (.firm S) → Does (Aspect.ledger S id) (body t) P) :
    Does (Aspect.ledger S id) (run opening body) P := by
  refine .bind ho fun entered he => .bind (.attempt (.within he.context (hb _ he.yields))) fun r hr => ?_
  split
  · exact .bind (he.leave none) fun _ _ => .pure (hr _ rfl)
  next f => exact .bind (he.leave (some f)) fun _ _ => .throw

section
variable {o : Term} (ho : (Aspect.ledger S id).Admits o)
include ho

theorem relateInverses_does {ts : List Term} (hne : o ≠ .null) (hts : ∀ t ∈ ts, t.Meets (.firm S)) :
    Does (Aspect.ledger S id) (relateInverses ts o) fun _ => True := by
  refine ⟨relateInverses_upholds ho.target hts, ?_⟩
  unfold relateInverses
  split
  next first second =>
    obtain ⟨hfirst, hsecond⟩ := List.forall_mem_cons.mp hts
    refine .bind (Reference.resolve_does ho hfirst _) fun p _ => ?_
    refine .bind (Reference.resolve_does ho (hsecond _ List.mem_cons_self) _) fun q _ => ?_
    exact .andThen (Change.add_shows hne (a := .inverseObjectProperties p q) nofun) _
  · exact .of_looks (.throw _)

theorem coverBy_does {c : Term} (hne : o ≠ .null) (hc : (Policy.firm S).Describes c) {ts : List Term}
    (hts : ∀ t ∈ ts, t.Meets (.firm S)) : Does (Aspect.ledger S id) (coverBy c ts o) fun _ => True := by
  refine ⟨coverBy_upholds Policy.firm_closed ho.target hc hts, ?_⟩
  unfold coverBy
  split
  · exact .of_looks (.pure _)
  · refine .bind (Expression.or_does trivial Policy.firm_closed hts) fun union _ => ?_
    refine .bind (.of_looks (.requireStable c)) fun _ _ => .bind (.of_looks (.requireStable union)) fun _ _ => ?_
    exact .andThen (Change.add_shows hne (a := .equivalentClasses [c, union]) nofun) _

/-- Classes that a window has collected are made disjoint. -/
theorem disjointCollected_does (n : Nat) : Does (Aspect.ledger S id) (do
    let _ ← Builder.disjointClasses (← collected n) o : Act Unit) fun _ => True :=
  .bind (collected_does n) fun _ hts => .bind (Builder.disjointClasses_does ho hts) fun _ _ => .pure trivial

end

/-- What is given to a scope as an ontology is found. -/
theorem found (t : Term) : Does (Aspect.ledger S id) (Current.orGiven t) fun o => (Policy.firm S).Targets o ∧ o ≠ .null :=
  Current.orGiven_does ⟨fun _ _ => trivial, .inr trivial⟩

theorem withDefaultFrames_does {frames : Term} (hf : frames.Meets (.firm S)) :
    Does (Aspect.ledger S id) (withDefaultFrames frames) (·.Keeps S id) := by
  refine .bind ⟨Builder.entriesOf_upholds hf, .of_looks (.entriesOf _)⟩ fun es hes => ?_
  refine .bind ⟨Builder.framesOf_upholds hes, .of_looks (.framesOf _)⟩ fun fs hfs => ?_
  have hframes : (FrameMap.normalize fs).All (·.Meets (.firm S)) := .normalize (FrameMap.leaves_meet hfs)
  refine .bind .context fun c hc => .pure ⟨⟨hframes, hc.target⟩, ?_, fun _ => .pure trivial⟩
  exact Term.entriesMeet_iff.mpr hframes.entries_meet

theorem asDisjoint_does (t : Term) : Does (Aspect.ledger S id) (asDisjoint t) (·.Keeps S id) := by
  refine .bind (found t) fun o ho => .bind openNew_does fun n _ => .bind .context fun c hc => ?_
  refine .pure ⟨⟨hc.defaults, hc.target⟩, trivial, onSuccess_does ?_⟩
  exact disjointCollected_does (.of_found ho) n

theorem asInverse_does (t : Term) : Does (Aspect.ledger S id) (asInverse t) (·.Keeps S id) := by
  refine .bind (found t) fun o ho => .bind openNew_does fun n _ => .bind .context fun c hc => ?_
  refine .pure ⟨⟨hc.defaults, hc.target⟩, trivial, onSuccess_does ?_⟩
  exact .bind (collected_does n) fun ts hts => relateInverses_does (.of_found ho) ho.2 hts

theorem asSubclasses_does {super : Term} (hs : super.Meets (.firm S)) (disjoint cover t : Term) :
    Does (Aspect.ledger S id) (asSubclasses super disjoint cover t) (·.Keeps S id) := by
  refine .bind (found t) fun o ho => ?_
  have hadmits := Aspect.Admits.of_found (Φ := .ledger S id) ho
  refine .bind (Reference.resolve_does hadmits hs .cls) fun c hc => ?_
  have hframes : (FrameMap.normalize [(Term.ofTag .subclass, c)]).All (·.Meets (.firm S)) :=
    .normalize (FrameMap.leaves_meet (List.forall_mem_singleton.mpr hc.2))
  refine .bind openNew_does fun n _ => .bind .context fun _ hc' => ?_
  refine .pure ⟨⟨hframes, hc'.target⟩, trivial, onSuccess_does ?_⟩
  have covered : Does (Aspect.ledger S id) (do if ← isTruthy cover then coverBy c (← collected n) o) fun _ => True := by
    refine .bind (.of_looks (.isTruthy cover)) fun _ _ => .ite (fun _ => ?_) fun _ => .pure trivial
    exact .bind (collected_does n) fun ts hts => coverBy_does hadmits ho.2 (hc.1.describes hc.2) hts
  refine .bind (.of_looks (.isTruthy disjoint)) fun _ _ => .ite (fun _ => ?_) fun _ => covered
  exact .bind (collected_does n) fun ts hts => .bind (Builder.disjointClasses_does hadmits hts) fun _ _ => covered

end Scope

namespace Service.Block

/-- **What opening a scope does**, and leaving it. -/
theorem enter_does {b : Block} (h : b.Meets (.firm S)) : Does (Aspect.ledger S id) b.enter (·.Keeps S id) := by
  have affix : ∀ t : Term, Does (Aspect.ledger S id) (Scope.affix t) fun _ => True :=
    fun t => ⟨.of_reads (Scope.affix_reads t), Conserves.shows (.of_reads (Scope.affix_reads t))⟩
  cases b with
  | ontology t => exact .bind .context fun _ hc => .pure ⟨⟨hc.defaults, h.1⟩, h.2, fun _ => .pure trivial⟩
  | space t => exact .bind .context fun _ hc => .pure ⟨⟨hc.defaults, hc.target⟩, h, fun _ => .pure trivial⟩
  | collection =>
    refine .bind Scope.openNew_does fun _ _ => .bind .context fun _ hc => ?_
    exact .pure ⟨⟨hc.defaults, hc.target⟩, trivial, fun _ => .pure trivial⟩
  | lead t =>
    refine .bind .context fun _ hc => .bind (affix t) fun _ _ => ?_
    exact .pure ⟨⟨hc.defaults, hc.target⟩, trivial, fun _ => .pure trivial⟩
  | trail t =>
    refine .bind .context fun _ hc => .bind (affix t) fun _ _ => ?_
    exact .pure ⟨⟨hc.defaults, hc.target⟩, trivial, fun _ => .pure trivial⟩
  | defaults frames => exact Scope.withDefaultFrames_does h
  | disjoint t => exact Scope.asDisjoint_does t
  | inverse t => exact Scope.asInverse_does t
  | subclasses super disjoint cover t => exact Scope.asSubclasses_does h.2 disjoint cover t

end Service.Block

end Authoring
