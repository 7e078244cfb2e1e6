import Authoring.Proofs.Compile.Rules
import Authoring.Proofs.Window.Collected
import Authoring.Proofs.Term.Description

/-!
# What the group scopes add

A group scope collects what is built in its body and relates it when the body has ended. What is added depends only on
the body's outcome and on the window, and it is added as a whole or not at all.

`Scope.MakesDisjoint` says what becomes of a scope of disjoint classes, and `Scope.MakesInverse` of a scope of inverse
properties. Both hold for all bodies (`Scope.groups_spec`).

**What carries the proof.** What a window collects are entities (`Scope.outcome_isEntity`), and an entity is read as a
reference to itself or is refused (`Reference.run_member`, `Reference.run_member_not`). So everything that can be wrong
is found out before the first axiom is added.
-/

namespace Authoring

open Act

variable {env : Env} {w : World}

/-! ## Reading what is collected -/

namespace Act

variable {f : Term → Act Term} {ts : List Term}

theorem run_mapM_self (h : ∀ t ∈ ts, f t env w = (.ok t, w)) : ts.mapM f env w = (.ok ts, w) := by
  rw [run_mapM (g := fun t => t) h, List.map_id']

/-- Going through a list ends at the first element that is refused. -/
theorem run_mapM_refused {P : Term → Prop} {g : Term → Fault} (hself : ∀ t ∈ ts, P t → f t env w = (.ok t, w))
    (hrefused : ∀ t ∈ ts, ¬P t → f t env w = (.error (g t), w)) (h : ∃ t ∈ ts, ¬P t) :
    ∃ t ∈ ts, ¬P t ∧ ts.mapM f env w = (.error (g t), w) := by
  induction ts with
  | nil =>
    obtain ⟨t, ht, -⟩ := h
    cases ht
  | cons t ts ih =>
    rw [List.mapM_cons, run_bind]
    by_cases ht : P t
    · obtain ⟨u, hu, hPu⟩ := h
      have hrest : ∃ u ∈ ts, ¬P u := by
        rcases List.mem_cons.mp hu with rfl | hu
        · exact absurd ht hPu
        · exact ⟨u, hu, hPu⟩
      obtain ⟨v, hv, hPv, hrun⟩ := ih (fun u hu => hself u (List.mem_cons_of_mem _ hu))
        (fun u hu => hrefused u (List.mem_cons_of_mem _ hu)) hrest
      refine ⟨v, List.mem_cons_of_mem _ hv, hPv, ?_⟩
      rw [hself t List.mem_cons_self ht]
      simp only [run_bind, hrun]
    · refine ⟨t, List.mem_cons_self, ht, ?_⟩
      rw [hrefused t List.mem_cons_self ht]

end Act

namespace Reference

variable {kind : EntityKind} {t : Term} {ts : List Term}

/-- The fault of a reference that denotes nothing of a kind. -/
def refusal (kind : EntityKind) (t : Term) (w : World) : Fault :=
  .invalidReference kind.word t ((w.settle t).inspect w.names)

theorem Denotes.of_isOfKind (h : Term.IsOfKind kind t) : Denotes kind t := by
  obtain ⟨m, iri, rfl⟩ := h
  exact .entity m iri

theorem run_resolve_notOfKind (h : t.isEntity = true) (hk : ¬Term.IsOfKind kind t) (o : Term) (maker : Nat) (env : Env)
    (w : World) : resolve t kind o maker env w = (.error (refusal kind t w), w) := by
  cases t <;> cases h
  next m e =>
    refine resolve_other (fun he => hk ?_) m o maker env w
    subst he
    exact ⟨m, e.iri, rfl⟩

/-- What a reference to a class denotes, if it can be a member of a set. -/
def member (o t : Term) : Act Term := do
  let c ← resolveClass t o
  requireStable c
  return c

theorem run_member (h : Term.IsOfKind .cls t) (o : Term) (env : Env) (w : World) : member o t env w = (.ok t, w) := by
  have hresolve : resolveClass t o env w = (.ok t, w) := (Denotes.of_isOfKind h).run_resolve o _ env w
  have hstable : t.isStable = true := Term.isStable_of_isEntity h.isEntity
  rw [member, run_bind, hresolve]
  dsimp only
  rw [run_bind, run_requireStable hstable]
  rfl

theorem run_member_not (h : t.isEntity = true) (hk : ¬Term.IsOfKind .cls t) (o : Term) (env : Env) (w : World) :
    member o t env w = (.error (refusal .cls t w), w) := by
  have hresolve : resolveClass t o env w = (.error (refusal .cls t w), w) := run_resolve_notOfKind h hk o _ env w
  rw [member, run_bind, hresolve]

end Reference

open Reference

/-! ## Relating classes -/

/-- Only classes. -/
def Term.AreClasses (ts : List Term) : Prop := ∀ t ∈ ts, t.IsOfKind .cls

instance (ts : List Term) : Decidable (Term.AreClasses ts) := inferInstanceAs (Decidable (∀ t ∈ ts, t.IsOfKind .cls))

theorem Term.AreClasses.areEntities {ts : List Term} (h : AreClasses ts) : ∀ t ∈ ts, t.isEntity = true :=
  fun t ht => (h t ht).isEntity

namespace Builder

variable {o : Term} {ts classes ms : List Term} {v : World}

/-- The classes that the references of a nested list denote, one by one. -/
def readMembers (classes : List Term) (o : Term) : Act (List Term) := do (← leaves classes).mapM (member o)

/-- To make classes disjoint is to read the references, and then to add one axiom over the different ones of them. -/
theorem disjointClasses_eq (ho : o ≠ .null) (classes : List Term) :
    disjointClasses classes o = (do
      let different := (← readMembers classes o).eraseDups
      if different.length < 2 then return .null else Change.add (Axiom.disjointClasses different).toTerm o) := by
  rw [disjointClasses, Current.orGiven_of_ne_null ho, pure_bind, readMembers, bind_assoc]
  rfl

/-- Fewer than two different classes need no axiom. -/
theorem run_disjointClasses_few (ho : o ≠ .null) (hread : readMembers classes o env w = (.ok ms, v))
    (hfew : ms.eraseDups.length < 2) : disjointClasses classes o env w = (.ok .null, v) := by
  rw [disjointClasses_eq ho, run_bind, hread]
  dsimp only
  rw [if_pos hfew]
  rfl

/-- Two or more different classes are made disjoint by one axiom. -/
theorem run_disjointClasses {k : Nat} (hk : v.Manages k)
    (hread : readMembers classes (.handle (.ontology k)) env w = (.ok ms, v)) (hmany : 2 ≤ ms.eraseDups.length) :
    disjointClasses classes (.handle (.ontology k)) env w = (.ok (Axiom.disjointClasses ms.eraseDups).toTerm,
      v.setOntology k ((v.ontology k).add (.disjointClasses ms.eraseDups))) := by
  rw [disjointClasses_eq (by simp), run_bind, hread]
  dsimp only
  rw [if_neg (Nat.not_lt.mpr hmany)]
  exact Change.run_add hk rfl env

/-- Classes are read as they are. -/
theorem run_readMembers (h : Term.AreClasses ts) (o : Term) (env : Env) (w : World) :
    readMembers ts o env w = (.ok ts, w) := by
  rw [readMembers, leaves_of_entities h.areEntities, pure_bind]
  exact run_mapM_self fun t ht => run_member (h t ht) o env w

/-- Something else than a class is refused. -/
theorem run_disjointClasses_refused (ho : o ≠ .null) (h : ∀ t ∈ ts, t.isEntity = true) (hnot : ¬Term.AreClasses ts)
    (env : Env) :
    ∃ t ∈ ts, ¬t.IsOfKind .cls ∧ disjointClasses ts o env w = (.error (refusal .cls t w), w) := by
  obtain ⟨t, ht, hk, hrun⟩ := run_mapM_refused (fun t _ hk => run_member hk o env w)
    (fun t ht hk => run_member_not (h t ht) hk o env w) (by simpa [Term.AreClasses] using hnot)
  refine ⟨t, ht, hk, ?_⟩
  rw [disjointClasses_eq ho, readMembers, leaves_of_entities h, pure_bind, run_bind, hrun]

end Builder

namespace Scope

variable {ts : List Term} {o : Term}

/-! ## Relating properties -/

/-- Any other number than two is refused. -/
theorem run_relateInverses_number (h : ts.length ≠ 2) :
    relateInverses ts o env w = (.error (.inverseArity (toString ts.length)), w) := by
  unfold relateInverses
  split
  · exact absurd rfl h
  · rfl

theorem run_relateInverses {p q : Term} {k : Nat} (hk : w.Manages k) (hp : p.IsOfKind .objectProperty)
    (hq : q.IsOfKind .objectProperty) : relateInverses [p, q] (.handle (.ontology k)) env w =
      (.ok (), w.setOntology k ((w.ontology k).add (.inverseObjectProperties p q))) := by
  have self : ∀ {t : Term}, t.IsOfKind .objectProperty →
      resolveObjectProperty t (.handle (.ontology k)) env w = (.ok t, w) :=
    fun h => (Denotes.of_isOfKind h).run_resolve _ _ env w
  rw [relateInverses, run_bind, self hp]
  dsimp only
  rw [run_bind, self hq]
  dsimp only
  rw [run_bind, Change.run_add hk rfl]
  rfl

/-- What is no object property is refused. -/
theorem run_relateInverses_refused {p q : Term} (hp : p.isEntity = true) (hq : q.isEntity = true)
    (h : ¬(p.IsOfKind .objectProperty ∧ q.IsOfKind .objectProperty)) : ∃ t ∈ [p, q], ¬t.IsOfKind .objectProperty ∧
      relateInverses [p, q] o env w = (.error (refusal .objectProperty t w), w) := by
  have refused : ∀ {t : Term}, t.isEntity = true → ¬t.IsOfKind .objectProperty →
      resolveObjectProperty t o env w = (.error (refusal .objectProperty t w), w) :=
    fun ht hk => run_resolve_notOfKind ht hk o _ env w
  by_cases hpk : p.IsOfKind .objectProperty
  · have hqk : ¬q.IsOfKind .objectProperty := fun hqk => h ⟨hpk, hqk⟩
    have hself : resolveObjectProperty p o env w = (.ok p, w) := (Denotes.of_isOfKind hpk).run_resolve o _ env w
    refine ⟨q, by simp, hqk, ?_⟩
    rw [relateInverses, run_bind, hself]
    dsimp only
    rw [run_bind, refused hq hqk]
  · refine ⟨p, by simp, hpk, ?_⟩
    rw [relateInverses, run_bind, refused hp hpk]

/-! ## Leaving a group scope -/

section
variable {α : Type} {opening : Act Entered} {body : Term → Act α} {c : Context} {t : Term} {work : Act Unit}
  {w₁ w₂ w₃ : World}

/-- When the body has failed its fault goes on, and nothing is done. -/
theorem run_of_failed {f : Fault} (h : opening env w = (.ok ⟨c, t, onSuccess work⟩, w₁))
    (hbody : body t { env with context := c } w₁ = (.error f, w₂)) : run opening body env w = (.error f, w₂) := by
  rw [run_eq, run_bind, h]
  dsimp only
  rw [inside_onSuccess, run_bind, run_within, hbody]

/-- When the body has ended the work is done. -/
theorem run_of_ended {a : α} (h : opening env w = (.ok ⟨c, t, onSuccess work⟩, w₁))
    (hbody : body t { env with context := c } w₁ = (.ok a, w₂)) :
    run opening body env w = (do work; return a) env w₂ := by
  rw [run_eq, run_bind, h]
  dsimp only
  rw [inside_onSuccess, run_bind, run_within, hbody]

theorem run_of_done {a : α} (h : opening env w = (.ok ⟨c, t, onSuccess work⟩, w₁))
    (hbody : body t { env with context := c } w₁ = (.ok a, w₂)) (hwork : work env w₂ = (.ok (), w₃)) :
    run opening body env w = (.ok a, w₃) := by
  rw [run_of_ended h hbody, run_bind, hwork]
  rfl

theorem run_of_refused {a : α} {f : Fault} (h : opening env w = (.ok ⟨c, t, onSuccess work⟩, w₁))
    (hbody : body t { env with context := c } w₁ = (.ok a, w₂)) (hwork : work env w₂ = (.error f, w₃)) :
    run opening body env w = (.error f, w₃) := by
  rw [run_of_ended h hbody, run_bind, hwork]

end

/-! ## Bodies -/

section
variable (body : Term → Plan) (env : Env) (c : Context) (w : World)

/-- What is done in a body for which a window is opened, in a context. -/
def inWindow : Act Term := (body (.handle (.window w.windows.length))).run

/-- The environment of a body for which a window is opened. -/
def windowed : Env := { env with context := { c with window := some w.windows.length } }

/-- **What a body comes to** for which a window is opened. -/
def outcome : Except Fault Term × World := inWindow body w (windowed env c w) w.opened

end

/-- What the window of a body has collected are entities. -/
theorem outcome_isEntity {body : Term → Plan} (hbody : ∀ t, (body t).Orderly) (henv : env.Orderly) {c : Context}
    {r : Except Fault Term} {v : World} (h : outcome body env c w = (r, v)) :
    ∀ t ∈ v.window w.windows.length, t.isEntity = true := by
  obtain ⟨es, hcourse⟩ := (body (.handle (.window w.windows.length))).run_orderly (hbody _) _
    (henv.within { c with window := some w.windows.length }) w.opened
  have hopens : Service.Block.Opens
      ⟨(windowed env c w).context, .handle (.window w.windows.length), fun _ => Pure.pure ()⟩ w.opened w.windows.length :=
    .intro rfl
  have hown := hcourse.own_of_opens hopens
  have hv : (outcome body env c w).2.window w.windows.length = Event.own es := hown
  rw [h] at hv
  exact hv ▸ hcourse.own_isEntity

/-! ## Disjoint classes and inverse properties -/

/-- **What becomes of a scope of disjoint classes**, given the outcome of its body. -/
structure MakesDisjoint (o : Term) (id : Nat) (inner outer : Except Fault Term × World) : Prop where
  /-- If the body fails, the scope fails with the same fault and adds nothing. -/
  failed : ∀ f v, inner = (.error f, v) → outer = (.error f, v)
  /-- Two or more different classes get one axiom, unless it is there. -/
  related : ∀ a v k, inner = (.ok a, v) → o = .handle (.ontology k) → v.Manages k → Term.AreClasses (v.window id) →
    2 ≤ (v.window id).eraseDups.length →
    outer = (.ok a, v.setOntology k ((v.ontology k).add (.disjointClasses (v.window id).eraseDups)))
  /-- Fewer than two different classes get none. -/
  few : ∀ a v, inner = (.ok a, v) → Term.AreClasses (v.window id) → (v.window id).eraseDups.length < 2 →
    outer = (.ok a, v)
  /-- If something else than a class was collected it is refused, and nothing is added. -/
  refused : ∀ a v, inner = (.ok a, v) → ¬Term.AreClasses (v.window id) →
    ∃ t ∈ v.window id, ¬t.IsOfKind .cls ∧ outer = (.error (refusal .cls t v), v)

/-- **What becomes of a scope of inverse properties**, given the outcome of its body. -/
structure MakesInverse (o : Term) (id : Nat) (inner outer : Except Fault Term × World) : Prop where
  /-- If the body fails, the scope fails with the same fault and adds nothing. -/
  failed : ∀ f v, inner = (.error f, v) → outer = (.error f, v)
  /-- Any other number than two is refused with that number. Repetitions count. -/
  number : ∀ a v, inner = (.ok a, v) → (v.window id).length ≠ 2 →
    outer = (.error (.inverseArity (toString (v.window id).length)), v)
  /-- Two object properties get one axiom, unless it is there. -/
  related : ∀ a v k p q, inner = (.ok a, v) → o = .handle (.ontology k) → v.Manages k → v.window id = [p, q] →
    p.IsOfKind .objectProperty → q.IsOfKind .objectProperty →
    outer = (.ok a, v.setOntology k ((v.ontology k).add (.inverseObjectProperties p q)))
  /-- If one of the two is no object property it is refused, and nothing is added. -/
  refused : ∀ a v p q, inner = (.ok a, v) → v.window id = [p, q] →
    ¬(p.IsOfKind .objectProperty ∧ q.IsOfKind .objectProperty) →
    ∃ t ∈ [p, q], ¬t.IsOfKind .objectProperty ∧ outer = (.error (refusal .objectProperty t v), v)

theorem run_collected {β : Type} (id : Nat) (f : List Term → Act β) :
    (collected id >>= f) env w = f (w.window id) env w := rfl

/-- **The scopes of disjoint classes and of inverse properties** do with what their bodies have collected what they
are to do, for every body. -/
theorem groups_spec {body : Term → Plan} (hbody : ∀ t, (body t).Orderly) (henv : env.Orderly) {ontology o : Term}
    (ho : Current.orGiven ontology env w = (.ok o, w)) :
    MakesDisjoint o w.windows.length (outcome body env env.context w)
      (run (asDisjoint ontology) (fun t => (body t).run) env w) ∧
    MakesInverse o w.windows.length (outcome body env env.context w)
      (run (asInverse ontology) (fun t => (body t).run) env w) := by
  have hnull := Current.orGiven_ne_null ho
  have hdisjoint : asDisjoint ontology env w = (.ok ⟨{ env.context with window := some w.windows.length },
      .handle (.window w.windows.length), onSuccess do
        let _ ← Builder.disjointClasses (← collected w.windows.length) o⟩, w.opened) := by
    rw [asDisjoint, run_bind, ho]
    rfl
  have hinverse : asInverse ontology env w = (.ok ⟨{ env.context with window := some w.windows.length },
      .handle (.window w.windows.length), onSuccess do relateInverses (← collected w.windows.length) o⟩, w.opened) := by
    rw [asInverse, run_bind, ho]
    rfl
  refine ⟨⟨?_, ?_, ?_, ?_⟩, ⟨?_, ?_, ?_, ?_⟩⟩
  · exact fun f v h => run_of_failed hdisjoint h
  · rintro a v k h rfl hk hclasses hmany
    refine run_of_done hdisjoint h ?_
    rw [run_collected, run_bind, Builder.run_disjointClasses hk (Builder.run_readMembers hclasses _ _ _) hmany]
    rfl
  · intro a v h hclasses hfew
    refine run_of_done hdisjoint h ?_
    rw [run_collected, run_bind, Builder.run_disjointClasses_few hnull (Builder.run_readMembers hclasses _ _ _) hfew]
    rfl
  · intro a v h hnot
    obtain ⟨t, ht, hk, hrun⟩ := Builder.run_disjointClasses_refused hnull (outcome_isEntity hbody henv h) hnot env
    refine ⟨t, ht, hk, run_of_refused hdisjoint h ?_⟩
    rw [run_collected, run_bind, hrun]
  · exact fun f v h => run_of_failed hinverse h
  · intro a v h hnumber
    exact run_of_refused hinverse h (run_relateInverses_number hnumber)
  · rintro a v k p q h rfl hk hwindow hp hq
    refine run_of_done hinverse h ?_
    rw [run_collected, hwindow]
    exact run_relateInverses hk hp hq
  · intro a v p q h hwindow hnot
    have hentities := outcome_isEntity hbody henv h
    rw [hwindow] at hentities
    obtain ⟨t, ht, hk, hrun⟩ := run_relateInverses_refused (o := o) (hentities p List.mem_cons_self)
      (hentities q (List.mem_cons_of_mem _ List.mem_cons_self)) hnot
    refine ⟨t, ht, hk, run_of_refused hinverse h ?_⟩
    rw [run_collected, hwindow]
    exact hrun

/-- One class is built twice, and another one between. -/
def repeated : Plan := .calling (.making .cls "A" .null) [.making .cls "B" .null, .making .cls "A" .null]

def twoProperties : Plan := .calling (.making .objectProperty "p" .null) [.making .objectProperty "q" .null]

theorem groups_spec_repeated :
    let a : Term := .entity 0 ⟨.cls, "o#A"⟩
    let b : Term := .entity 0 ⟨.cls, "o#B"⟩
    let p : Term := .entity 0 ⟨.objectProperty, "o#p"⟩
    let q : Term := .entity 0 ⟨.objectProperty, "o#q"⟩
    let classes := outcome (fun _ => repeated) .single Env.single.context .single
    let properties := outcome (fun _ => twoProperties) .single Env.single.context .single
    run (asDisjoint .null) (fun _ => repeated.run) .single .single =
      (.ok a, classes.2.setOntology 0 ((classes.2.ontology 0).add (.disjointClasses [a, b]))) ∧
    run (asInverse .null) (fun _ => repeated.run) .single .single = (.error (.inverseArity "3"), classes.2) ∧
    (∃ t ∈ [p, q], run (asDisjoint .null) (fun _ => twoProperties.run) .single .single =
      (.error (refusal .cls t properties.2), properties.2)) ∧
    run (asInverse .null) (fun _ => twoProperties.run) .single .single =
      (.ok q, properties.2.setOntology 0 ((properties.2.ontology 0).add (.inverseObjectProperties p q))) := by
  intro a b p q classes properties
  have hcurrent : Current.orGiven .null .single .single = (.ok (.handle (.ontology 0)), .single) := rfl
  have hrepeated : ∀ _ : Term, repeated.Orderly := fun _ => Plan.calling_orderly _ _
  obtain ⟨hdisjoint, hinverse⟩ := groups_spec hrepeated Env.single_orderly hcurrent
  have htwo : ∀ _ : Term, twoProperties.Orderly := fun _ => Plan.calling_orderly _ _
  obtain ⟨hdisjoint', hinverse'⟩ := groups_spec htwo Env.single_orderly hcurrent
  have hclasses : classes = (.ok a, classes.2) := Prod.ext (by rfl) rfl
  have hproperties : properties = (.ok q, properties.2) := Prod.ext (by rfl) rfl
  have hwindow : classes.2.window World.single.windows.length = [a, b, a] := by rfl
  have hwindow' : properties.2.window World.single.windows.length = [p, q] := by rfl
  have hmanages : classes.2.Manages 0 := ⟨by decide +kernel, by decide +kernel⟩
  have hmanages' : properties.2.Manages 0 := ⟨by decide +kernel, by decide +kernel⟩
  have hall : Term.AreClasses [a, b, a] := by decide
  have hnot : ¬Term.AreClasses [p, q] := by decide
  have hdifferent : [a, b, a].eraseDups = [a, b] := rfl
  have hthree : toString [a, b, a].length = "3" := by decide
  refine ⟨?_, ?_, ?_, ?_⟩
  · have hrelated := hdisjoint.related a classes.2 0 hclasses rfl hmanages
    rw [hwindow, hdifferent] at hrelated
    exact hrelated hall (Nat.le_refl 2)
  · have hnumber := hinverse.number a classes.2 hclasses
    rw [hwindow, hthree] at hnumber
    exact hnumber (by decide)
  · have hrefused := hdisjoint'.refused q properties.2 hproperties
    rw [hwindow'] at hrefused
    obtain ⟨t, ht, -, hrun⟩ := hrefused hnot
    exact ⟨t, ht, hrun⟩
  · exact hinverse'.related q properties.2 0 p q hproperties rfl hmanages' hwindow' ⟨0, _, rfl⟩ ⟨0, _, rfl⟩

end Scope

end Authoring
