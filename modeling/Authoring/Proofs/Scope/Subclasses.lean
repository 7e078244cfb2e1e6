import Authoring.Proofs.Expression.Junctions
import Authoring.Proofs.Scope.Groups

/-!
# What a scope of subclasses adds

A scope of subclasses sets default frames, so that each class has its superclass as soon as it is built, in the ontology
into which it is built; inner scopes with default frames of their own are apart from this. When the body has ended the
classes that were collected are made disjoint and a cover of the superclass, so far as that is asked for. What this adds
depends only on the window (`Scope.groupAxioms`), and it is added as a whole or not at all, with one exception: a cover
of a superclass that can be no member of a set is refused when the axiom of disjointness is there
(`Scope.MakesSubclasses`). Both hold for all bodies (`Scope.asSubclasses_spec`).

**What carries the proof.** That the default frames are in force where a class is built is read off the course of the
body (`Act.Course.built_by_call`), and that its superclass is then among its axioms off the rules by which frames are
compiled (`Compile.compile_subclass`). Leaving the scope adds two axioms one after the other. The first leaves the
windows as they are, so what is to be covered, and by what, is the same after it (`Scope.run_finish_cover`).

**Where the exception comes from.** An expression that is made of its parts may hold a list, and denotes itself all the
same. No class can be built with it as a superclass, but an inner scope with default frames of its own builds classes
without it, and these are collected too (`Scope.asSubclasses_uncovered`).
-/

namespace Authoring

open Act Reference

variable {env : Env} {w : World}

/-! ## Classes that are built with a superclass -/

/-- The default frames that give a superclass. -/
def FrameMap.ofSuperclass (c : Term) : FrameMap := normalize [(.ofTag .subclass, c)]

theorem FrameMap.given_ofSuperclass {c : Term} (hc : Denotes .cls c) : given .subclass (ofSuperclass c).entries = [c] := by
  cases hc <;> rfl

namespace Compile

variable {m maker : Nat} {e : Entity} {c schema ontology : Term} {as : List Axiom} {w' : World}

/-- A class that is among the superclasses in the default frames is asserted as one, whatever the explicit frames
are. -/
theorem compile_subclass {explicit defaults : List (Term × Term)} (hc : Denotes .cls c)
    (hgiven : c ∈ FrameMap.given .subclass defaults)
    (h : compile (.entity m e) explicit defaults schema ontology maker env w = (.ok as, w')) :
    Axiom.subclassOf (.entity m e) c ∈ as := by
  obtain ⟨-, rs, hrs, rfl⟩ := compile_ok_iff.mp h
  obtain ⟨r, hr, w₁, w₂, hrule⟩ := hrs.exists_rule (mem_sequence hgiven)
  cases hrule with
  | relating ht hrefers =>
    cases ht
    rw [Refers, hc.run_resolve] at hrefers
    cases hrefers
    exact List.mem_cons_of_mem _ (List.mem_filterMap.mpr ⟨_, hr, rfl⟩)
  | itself ht | grouping ht | along ht | literal ht => cases ht

end Compile

namespace Builder

variable {c : Term} {p : Prepared} {w' : World}

theorem prepare_subclass {kind : EntityKind} {name ontology : Term} {all : FrameMap} (hc : Denotes .cls c)
    (henv : env.context.defaults = some (.ofSuperclass c)) (h : prepare kind name all ontology env w = (.ok p, w')) :
    Axiom.subclassOf p.entity c ∈ p.axioms := by
  obtain ⟨m, e, hdeclares⟩ := prepare_ok h
  obtain ⟨o, w₁, -, hrest⟩ := bind_ok h
  obtain ⟨t, w₂, -, hrest⟩ := bind_ok hrest
  obtain ⟨d, w₃, hdefaults, hrest⟩ := bind_ok hrest
  obtain ⟨as, w₄, has, hdone⟩ := bind_ok hrest
  cases hdone
  cases hdeclares.entity
  -- The default frames that are in force are read off the context.
  have hd : (Except.ok (env.context.defaults.getD []), w₂) = (Except.ok d, w₃) := hdefaults
  rw [henv, Option.getD_some] at hd
  cases hd
  refine Compile.compile_subclass hc ?_ has
  rw [FrameMap.given_ofSuperclass hc]
  exact List.mem_singleton_self c

/-- A call that has succeeded where the default frames give a superclass has prepared its axiom. -/
theorem Call.prepare_subclass {call : Call} (hc : Denotes .cls c)
    (henv : env.context.defaults = some (.ofSuperclass c)) (h : call.prepare env w = (.ok p, w')) :
    Axiom.subclassOf p.entity c ∈ p.axioms := by
  obtain ⟨_, _, _, _, _, hprepare⟩ := call.exists_prepare h
  exact Builder.prepare_subclass hc henv hprepare

end Builder

/-- What has been built where the default frames give a superclass has it, in the ontology into which it was built. -/
theorem Build.MadeIn.subclass {b : Build} {c : Term} (hc : Denotes .cls c)
    (h : b.MadeIn (·.defaults = some (.ofSuperclass c))) {o : Ontology} (ho : b.after.ontologies[b.target]? = some o) :
    o.axioms.contains (.subclassOf b.entity c) = true := by
  obtain ⟨call, env, w, w₁, p, henv, hdone⟩ := h
  have hmem := hdone.entity ▸ Builder.Call.prepare_subclass hc henv hdone.prepared
  have hafter : b.after.ontologies = w₁.ontologies.set b.target ((w₁.ontology b.target).addAll p.axioms) := by
    rw [hdone.after]
    exact World.record_ontologies _ _ _
  rw [hafter] at ho
  obtain ⟨hlt, rfl⟩ := List.getElem?_eq_some_iff.mp ho
  rw [List.getElem_set_self]
  exact Ontology.contains_addAll hmem

/-- The default frames are those of the scope outside inner scopes that set them. -/
theorem Act.Course.builds_defaults {α : Type} {env : Env} {x : Act α} {w : World} {es : List Event}
    (h : Course env x w es) : ∀ b ∈ Event.allBuilds Service.Block.setsDefaults es,
      b.MadeIn (·.defaults = env.context.defaults) :=
  h.built_by_call (fun _ _ _ _ _ hb he hd => ((Service.Block.enter_ok he).defaults hb).trans hd) rfl

namespace Scope

variable {ts : List Term} {o : Term}

/-! ## Covering a class -/

/-- The union of some classes: the class itself if it is always the same, and an expression otherwise. -/
def unionOf (ts : List Term) : Term :=
  if ts.eraseDups.length = 1 then ts.headD .null else .expression (.ofOperator .or) [Term.setOf true ts] .null

theorem or_of_entities (h : ∀ t ∈ ts, t.isEntity = true) :
    Expression.or ts = (ts.mapM fun t => resolveClass t .null) >>= Expression.combine .or := by
  rw [Expression.or, leaves_of_entities h, pure_bind]

theorem run_or (h : Term.AreClasses ts) (hne : ts ≠ []) : Expression.or ts env w = (.ok (unionOf ts), w) := by
  have hself : ∀ t ∈ ts, resolveClass t .null env w = (.ok t, w) :=
    fun t ht => (Denotes.of_isOfKind (h t ht)).run_resolve .null _ env w
  have hstable : ∀ t ∈ ts, t.isStable = true := fun t ht => Term.isStable_of_isEntity (h t ht).isEntity
  rw [or_of_entities h.areEntities, run_bind, run_mapM_self hself]
  cases ts with
  | nil => exact absurd rfl hne
  | cons t ts => exact Expression.Junction.join.run_combine hstable env w

theorem unionOf_isStable (h : Term.AreClasses ts) (hne : ts ≠ []) : (unionOf ts).isStable = true := by
  unfold unionOf
  split
  · cases ts with
    | nil => exact absurd rfl hne
    | cons t ts => exact Term.isStable_of_isEntity (h t List.mem_cons_self).isEntity
  · rfl

/-- The axiom that covers a class; with nothing to cover it, there is none. -/
def coverAxioms (c : Term) (ts : List Term) : List Axiom :=
  if ts.isEmpty then [] else [.equivalentClasses [c, unionOf ts]]

theorem run_coverBy {c : Term} {k : Nat} (hk : w.Manages k) (hc : ts ≠ [] → c.isStable = true)
    (h : Term.AreClasses ts) : coverBy c ts (.handle (.ontology k)) env w =
      (.ok (), w.setOntology k ((w.ontology k).addAll (coverAxioms c ts))) := by
  unfold coverBy
  split
  · rw [coverAxioms, if_pos List.isEmpty_nil, Ontology.addAll_nil, World.setOntology_ontology]
    rfl
  · next hne =>
    rw [coverAxioms, if_neg (by simpa using hne), run_bind, run_or h hne]
    dsimp only
    rw [run_bind, run_requireStable (hc hne)]
    dsimp only
    rw [run_bind, run_requireStable (unionOf_isStable h hne)]
    dsimp only
    rw [run_bind, Change.run_add hk rfl]
    rfl

/-- A class that can be no member of a set is not covered. -/
theorem run_coverBy_unstable {c : Term} (o : Term) (hc : c.isStable = false) (h : Term.AreClasses ts) (hne : ts ≠ []) :
    coverBy c ts o env w = (.error .wrongSort, w) := by
  unfold coverBy
  split
  · exact absurd rfl hne
  · rw [run_bind, run_or h hne]
    dsimp only
    rw [run_bind, run_requireStable_of_not (by simp [hc])]

/-- Something else than a class is refused. -/
theorem run_coverBy_refused (c o : Term) (h : ∀ t ∈ ts, t.isEntity = true) (hnot : ¬Term.AreClasses ts) (env : Env) :
    ∃ t ∈ ts, ¬t.IsOfKind .cls ∧ coverBy c ts o env w = (.error (refusal .cls t w), w) := by
  obtain ⟨t, ht, hk, hrun⟩ := run_mapM_refused (f := fun t => resolveClass t .null)
    (fun t _ hk => (Denotes.of_isOfKind hk).run_resolve .null _ env w)
    (fun t ht hk => run_resolve_notOfKind (h t ht) hk .null _ env w) (by simpa [Term.AreClasses] using hnot)
  refine ⟨t, ht, hk, ?_⟩
  unfold coverBy
  split
  · cases ht
  · rw [run_bind, or_of_entities h, run_bind, hrun]

/-! ## Leaving a scope of subclasses -/

/-- The axiom that makes classes disjoint; fewer than two different classes need none. -/
def disjointAxioms (ts : List Term) : List Axiom :=
  if 2 ≤ ts.eraseDups.length then [.disjointClasses ts.eraseDups] else []

/-- **What leaving a scope of subclasses adds** for what it has collected. -/
def groupAxioms (disjoint cover : Bool) (c : Term) (ts : List Term) : List Axiom :=
  (if disjoint then disjointAxioms ts else []) ++ if cover then coverAxioms c ts else []

theorem groupAxioms_cover (disjoint : Bool) (c : Term) (ts : List Term) :
    groupAxioms disjoint true c ts = groupAxioms disjoint false c ts ++ coverAxioms c ts := by
  simp [groupAxioms]

theorem run_disjointAxioms {k : Nat} (hk : w.Manages k) (h : Term.AreClasses ts) (env : Env) :
    ∃ t, Builder.disjointClasses ts (.handle (.ontology k)) env w =
      (.ok t, w.setOntology k ((w.ontology k).addAll (disjointAxioms ts))) := by
  by_cases hmany : 2 ≤ ts.eraseDups.length
  · rw [disjointAxioms, if_pos hmany]
    exact ⟨_, Builder.run_disjointClasses hk (Builder.run_readMembers h _ _ _) hmany⟩
  · rw [disjointAxioms, if_neg hmany, Ontology.addAll_nil, World.setOntology_ontology]
    exact ⟨_, Builder.run_disjointClasses_few (by simp) (Builder.run_readMembers h _ _ _) (Nat.not_le.mp hmany)⟩

/-- What is done when a scope of subclasses is left and its body has ended. -/
def finish (c disjoint cover o : Term) (id : Nat) : Act Unit := do
  if ← isTruthy disjoint then
    let _ ← Builder.disjointClasses (← collected id) o
  if ← isTruthy cover then coverBy c (← collected id) o

section
variable {c disjoint cover : Term} {id : Nat}

/-- When the axiom of disjointness is added the windows are as they were, and what is left to do is to cover the
class. -/
theorem run_finish_cover {k : Nat} (hk : w.Manages k) (h : Term.AreClasses (w.window id)) :
    finish c disjoint cover (.handle (.ontology k)) id env w =
      (do if (w.settle cover).isTruthy then coverBy c (w.window id) (.handle (.ontology k)) : Act Unit) env
        (w.setOntology k ((w.ontology k).addAll
          (groupAxioms (w.settle disjoint).isTruthy false c (w.window id)))) := by
  have covering : ∀ v : World, v.windows = w.windows →
      (do if ← isTruthy cover then coverBy c (← collected id) (.handle (.ontology k)) : Act Unit) env v =
        (do if (w.settle cover).isTruthy then coverBy c (w.window id) (.handle (.ontology k)) : Act Unit) env v := by
    intro v hv
    rw [run_bind, run_isTruthy, World.settle_congr hv]
    dsimp only
    split
    next => rw [run_collected, World.window_of_windows hv]
    next => rfl
  rw [finish, run_bind, run_isTruthy, groupAxioms, if_neg Bool.false_ne_true, List.append_nil]
  dsimp only
  split
  next =>
    obtain ⟨t, hrun⟩ := run_disjointAxioms hk h env
    rw [run_collected, run_bind, hrun]
    exact covering _ rfl
  next =>
    rw [Ontology.addAll_nil, World.setOntology_ontology]
    exact covering w rfl

theorem run_finish {k : Nat} (hk : w.Manages k) (h : Term.AreClasses (w.window id))
    (hc : (w.settle cover).isTruthy = true → w.window id ≠ [] → c.isStable = true) :
    finish c disjoint cover (.handle (.ontology k)) id env w = (.ok (), w.setOntology k ((w.ontology k).addAll
      (groupAxioms (w.settle disjoint).isTruthy (w.settle cover).isTruthy c (w.window id)))) := by
  rw [run_finish_cover hk h]
  cases hcover : (w.settle cover).isTruthy with
  | false => rfl
  | true =>
    rw [if_pos rfl, run_coverBy (hk.setOntology Ontology.addAll_iri) (hc hcover) h,
      World.ontology_setOntology hk.exists_ontology, World.setOntology_setOntology, groupAxioms_cover,
      Ontology.addAll_append]

/-- A class that can be no member of a set is not covered; the axiom of disjointness stays. -/
theorem run_finish_uncovered {k : Nat} (hk : w.Manages k) (h : Term.AreClasses (w.window id))
    (hcover : (w.settle cover).isTruthy = true) (hne : w.window id ≠ []) (hc : c.isStable = false) :
    finish c disjoint cover (.handle (.ontology k)) id env w = (.error .wrongSort, w.setOntology k
      ((w.ontology k).addAll (groupAxioms (w.settle disjoint).isTruthy false c (w.window id)))) := by
  rw [run_finish_cover hk h, if_pos hcover, run_coverBy_unstable _ hc h hne]

theorem run_finish_refused (ho : o ≠ .null) (h : ∀ t ∈ w.window id, t.isEntity = true)
    (hnot : ¬Term.AreClasses (w.window id))
    (hflag : (w.settle disjoint).isTruthy = true ∨ (w.settle cover).isTruthy = true) :
    ∃ t ∈ w.window id, ¬t.IsOfKind .cls ∧
      finish c disjoint cover o id env w = (.error (refusal .cls t w), w) := by
  cases hd : (w.settle disjoint).isTruthy with
  | true =>
    obtain ⟨t, ht, hk, hrun⟩ := Builder.run_disjointClasses_refused ho h hnot env
    refine ⟨t, ht, hk, ?_⟩
    rw [finish, run_bind, run_isTruthy, hd]
    dsimp only
    rw [if_pos rfl, run_collected, run_bind, hrun]
  | false =>
    obtain ⟨t, ht, hk, hrun⟩ := run_coverBy_refused c o h hnot env
    refine ⟨t, ht, hk, ?_⟩
    rw [finish, run_bind, run_isTruthy, hd]
    dsimp only
    rw [if_neg (by simp), run_bind, run_isTruthy, hflag.resolve_left (by simp [hd])]
    dsimp only
    rw [if_pos rfl, run_collected, hrun]

theorem run_finish_plain (hd : (w.settle disjoint).isTruthy = false) (hc : (w.settle cover).isTruthy = false) :
    finish c disjoint cover o id env w = (.ok (), w) := by
  rw [finish, run_bind, run_isTruthy, hd]
  dsimp only
  rw [if_neg (by simp), run_bind, run_isTruthy, hc]
  rfl

end

/-- **What becomes of a scope of subclasses**, given the superclass and the outcome of its body. -/
structure MakesSubclasses (c disjoint cover o : Term) (id : Nat) (inner outer : Except Fault Term × World) : Prop where
  /-- If the body fails, the scope fails with the same fault and adds nothing. -/
  failed : ∀ f v, inner = (.error f, v) → outer = (.error f, v)
  /-- Classes get the axioms that are asked for, unless they are there. -/
  related : ∀ a v k, inner = (.ok a, v) → o = .handle (.ontology k) → v.Manages k → Term.AreClasses (v.window id) →
    ((v.settle cover).isTruthy = true → v.window id ≠ [] → c.isStable = true) →
    outer = (.ok a, v.setOntology k ((v.ontology k).addAll
      (groupAxioms (v.settle disjoint).isTruthy (v.settle cover).isTruthy c (v.window id))))
  /-- If they are to cover a superclass that can be no member of a set, they are made disjoint so far as that is asked
  for, and then the scope fails without the cover. -/
  uncovered : ∀ a v k, inner = (.ok a, v) → o = .handle (.ontology k) → v.Manages k → Term.AreClasses (v.window id) →
    (v.settle cover).isTruthy = true → v.window id ≠ [] → c.isStable = false →
    outer = (.error .wrongSort, v.setOntology k ((v.ontology k).addAll
      (groupAxioms (v.settle disjoint).isTruthy false c (v.window id))))
  /-- If something else than a class was collected it is refused where an axiom is asked for, and nothing is added. -/
  refused : ∀ a v, inner = (.ok a, v) → ¬Term.AreClasses (v.window id) →
    (v.settle disjoint).isTruthy = true ∨ (v.settle cover).isTruthy = true →
    ∃ t ∈ v.window id, ¬t.IsOfKind .cls ∧ outer = (.error (refusal .cls t v), v)
  /-- If no axiom is asked for, none is added. -/
  plain : ∀ a v, inner = (.ok a, v) → (v.settle disjoint).isTruthy = false → (v.settle cover).isTruthy = false →
    outer = (.ok a, v)

/-- How a scope of subclasses is entered. -/
theorem run_asSubclasses {super c ontology o : Term} {w₀ : World} (ho : Current.orGiven ontology env w = (.ok o, w))
    (hsuper : resolveClass super o env w = (.ok c, w₀)) (disjoint cover : Term) :
    asSubclasses super disjoint cover ontology env w = (.ok ⟨{ env.context with
        window := some w₀.windows.length, defaults := some (.ofSuperclass c) },
      .handle (.window w₀.windows.length), onSuccess (finish c disjoint cover o w₀.windows.length)⟩, w₀.opened) := by
  rw [asSubclasses, run_bind, ho]
  dsimp only
  rw [run_bind, hsuper]
  rfl

/-- **The scope of subclasses.** Its superclass is found out when it is entered. For every body, what is built outside
inner scopes with default frames of their own has the superclass as soon as it is built, in the ontology into which it is
built; and what has been collected is related when the body has ended. -/
theorem asSubclasses_spec {body : Term → Plan} (hbody : ∀ t, (body t).Orderly) (henv : env.Orderly)
    {super c ontology o : Term} {w₀ : World} (ho : Current.orGiven ontology env w = (.ok o, w))
    (hsuper : resolveClass super o env w = (.ok c, w₀)) (disjoint cover : Term) :
    let context := { env.context with defaults := some (.ofSuperclass c) }
    ((∃ es, Course (windowed env context w₀) (inWindow body w₀) w₀.opened es) ∧
      ∀ es, Course (windowed env context w₀) (inWindow body w₀) w₀.opened es →
        ∀ b ∈ Event.allBuilds Service.Block.setsDefaults es, ∀ o, b.after.ontologies[b.target]? = some o →
          o.axioms.contains (.subclassOf b.entity c) = true) ∧
    MakesSubclasses c disjoint cover o w₀.windows.length (outcome body env context w₀)
      (run (asSubclasses super disjoint cover ontology) (fun t => (body t).run) env w) := by
  intro context
  have hdenotes : Denotes .cls c := resolve_ok hsuper
  have hopening := run_asSubclasses ho hsuper disjoint cover
  refine ⟨⟨?_, ?_⟩, ⟨?_, ?_, ?_, ?_, ?_⟩⟩
  · exact (body _).run_orderly (hbody _) _ (henv.within { context with window := some w₀.windows.length }) w₀.opened
  · intro es hcourse b hb o hat
    exact (hcourse.builds_defaults b hb).subclass hdenotes hat
  · exact fun f v h => run_of_failed hopening h
  · rintro a v k h rfl hk hclasses hstable
    exact run_of_done hopening h (run_finish hk hclasses hstable)
  · rintro a v k h rfl hk hclasses hcover hne hunstable
    exact run_of_refused hopening h (run_finish_uncovered hk hclasses hcover hne hunstable)
  · intro a v h hnot hflag
    obtain ⟨t, ht, hk, hrun⟩ := run_finish_refused (Current.orGiven_ne_null ho) (outcome_isEntity hbody henv h) hnot hflag
    exact ⟨t, ht, hk, run_of_refused hopening h hrun⟩
  · intro a v h hd hc
    exact run_of_done hopening h (run_finish_plain hd hc)

/-- The second of the classes is built in an inner scope, without default frames. -/
def interrupted : Plan :=
  .step (Service.Call.making .cls "A" .null).run fun _ =>
  .scope (.defaults .null) (fun _ => .calling (.making .cls "B" .null) []) fun _ => .calling (.making .cls "A" .null) []

theorem interrupted_orderly : interrupted.Orderly :=
  ⟨Service.Call.run_orderly _, fun _ => ⟨fun _ => Plan.calling_orderly _ _, fun _ => Plan.calling_orderly _ _⟩⟩

theorem asSubclasses_spec_interrupted :
    let a : Term := .entity 0 ⟨.cls, "o#A"⟩
    let b : Term := .entity 0 ⟨.cls, "o#B"⟩
    let c : Term := .expression (.ofOperator .not) [.entity 0 ⟨.cls, "c"⟩] .null
    let context := { Env.single.context with defaults := some (.ofSuperclass c) }
    let inner := outcome (fun _ => interrupted) .single context .single
    (inner.2.window 1 == [a, b, a]) = true ∧
    ((inner.2.ontology 0).axioms == [.declaration (.entity 0 ⟨.cls, "c"⟩), .declaration a, .subclassOf a c,
      .declaration b]) = true ∧
    run (asSubclasses c (.bool true) (.bool true) .null) (fun _ => interrupted.run) .single .single =
      (inner.1, inner.2.setOntology 0 ((inner.2.ontology 0).addAll (groupAxioms true true c (inner.2.window 1)))) ∧
    ∃ es, Course (windowed .single context .single) interrupted.run World.single.opened es ∧
      ∀ b ∈ Event.allBuilds Service.Block.setsDefaults es, ∀ o, b.after.ontologies[b.target]? = some o →
        o.axioms.contains (.subclassOf b.entity c) = true := by
  intro a b c context inner
  have hbody : ∀ _ : Term, interrupted.Orderly := fun _ => interrupted_orderly
  have hcurrent : Current.orGiven .null .single .single = (.ok (.handle (.ontology 0)), .single) := rfl
  have hsuper : resolveClass c (.handle (.ontology 0)) .single .single = (.ok c, .single) :=
    (Denotes.expression rfl).run_resolve _ _ _ _
  obtain ⟨⟨⟨es, hcourse⟩, hbuilds⟩, hmakes⟩ :=
    asSubclasses_spec hbody Env.single_orderly hcurrent hsuper (.bool true) (.bool true)
  refine ⟨by decide +kernel, by decide +kernel, ?_, es, hcourse, hbuilds es hcourse⟩
  have hok : inner.1.isOk = true := by decide +kernel
  have hmanages : inner.2.Manages 0 := ⟨by decide +kernel, by decide +kernel⟩
  have hclasses : Term.AreClasses (inner.2.window 1) := by decide +kernel
  have hstable : c.isStable = true := by decide
  rcases h : inner with ⟨f | t, v⟩ <;> rw [h] at hok hmanages hclasses
  · cases hok
  · exact hmakes.related t v 0 h rfl hmanages hclasses fun _ _ => hstable

/-- Two classes that are built in an inner scope, without default frames. -/
def apart : Plan :=
  .scope (.defaults .null) (fun _ => .calling (.making .cls "A" .null) [.making .cls "B" .null]) .done

/-- **A scope of subclasses may fail halfway.** Its superclass is an expression that holds a list, its body has ended and
has collected two classes, and both are to be disjoint and a cover. When it is left they are made disjoint and it fails,
so it adds neither both axioms nor none. -/
theorem asSubclasses_uncovered :
    let a : Term := .entity 0 ⟨.cls, "o#A"⟩
    let b : Term := .entity 0 ⟨.cls, "o#B"⟩
    let c := Expression.restriction .some (.entity 0 ⟨.objectProperty, "p"⟩) (.list [.text "x"])
    let inner := outcome (fun _ => apart) .single { Env.single.context with defaults := some (.ofSuperclass c) } .single
    let outer := run (asSubclasses c (.bool true) (.bool true) .null) (fun _ => apart.run) .single .single
    resolveClass c (.handle (.ontology 0)) .single .single = (.ok c, .single) ∧ inner.1.isOk = true ∧
      inner.2.Manages 0 ∧ (inner.2.window 1 == [a, b]) = true ∧ Term.AreClasses (inner.2.window 1) ∧
      outer.1.isOk = false ∧
      ((outer.2.ontology 0).axioms == (inner.2.ontology 0).axioms ++ [.disjointClasses [a, b]]) = true :=
  ⟨rfl, by decide +kernel, ⟨by decide +kernel, by decide +kernel⟩, by decide +kernel, by decide +kernel,
    by decide +kernel, by decide +kernel⟩

end Scope

end Authoring
