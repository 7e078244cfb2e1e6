import Authoring.Proofs.Window.Course

/-!
# Orderly acts

An act is *orderly* if it has a course: whatever it does to the windows, it does by calls of builders and by scopes
(`Act.Orderly`). An act that wrote into a window by itself would not be. Orderly acts compose, so that an act is orderly
is read off its text.

**The authoring layer is orderly**: all its calls are (`Service.Call.run_orderly`), and a plan of orderly steps is
(`Plan.run_orderly`), however its scopes are nested, whatever is caught, and whichever of its steps fail.

**What is assumed** is that delayed expressions run orderly acts (`Env.Orderly`). So a producer may build entities, open
scopes, and call further producers; its environment may be another one, such as one in which fewer calls can be nested.
Where delayed expressions run plans of orderly steps this holds (`Env.Orderly.running`).
-/

namespace Authoring

open Act

/-- What is assumed of an environment: a delayed expression runs an act that has a course. -/
def Env.Orderly (env : Env) : Prop :=
  ∀ body bound, ∃ (env' : Env) (x : Act Term), (∀ c v, env.eval body bound c v = x { env' with context := c } v) ∧
    ∀ c v, ∃ es, Course { env' with context := c } x v es

theorem Env.Orderly.within {env : Env} (h : env.Orderly) (c : Context) : { env with context := c }.Orderly := h

/-- **An orderly act**: it has a course, in every orderly environment and every world. -/
def Act.Orderly {α : Type} (x : Act α) : Prop := ∀ env : Env, env.Orderly → ∀ w, ∃ es, Course env x w es

/-! ## How orderly acts compose -/

theorem Act.Course.bind {α β : Type} {env : Env} {w : World} {x : Act α} {f : α → Act β} (hx : ∃ es, Course env x w es)
    (hf : ∀ a w₁, x env w = (.ok a, w₁) → ∃ es, Course env (f a) w₁ es) : ∃ es, Course env (x >>= f) w es := by
  obtain ⟨es, hx⟩ := hx
  rcases h : x env w with ⟨e | a, w₁⟩
  · exact ⟨es, .stopped hx h⟩
  · obtain ⟨es', hf⟩ := hf a w₁ h
    exact ⟨es ++ es', .followed hx h hf⟩

namespace Act.Orderly

variable {α β : Type}

theorem of_quiet {x : Act α} (h : x.Quiet) : Orderly x := fun _ _ _ => ⟨[], .quiet h⟩

theorem of_reads {x : Act α} (h : Reads x) : Orderly x := .of_quiet (.of_reads h)

theorem pure (a : α) : Orderly (Pure.pure a : Act α) := of_reads (.pure a)

theorem throw (e : Fault) : Orderly (throw e : Act α) := of_reads (.throw e)

theorem refuse (s : String) (t : Term) : Orderly (refuse s t : Act α) := of_reads fun _ _ => rfl

theorem context : Orderly Act.context := of_reads fun _ _ => rfl

theorem get : Orderly (MonadState.get : Act World) := of_reads fun _ _ => rfl

theorem display (t : Term) : Orderly (Act.display t) := of_reads fun _ _ => rfl

theorem bind {x : Act α} {f : α → Act β} (hx : Orderly x) (hf : ∀ a, Orderly (f a)) : Orderly (x >>= f) :=
  fun env henv w => Course.bind (hx env henv w) fun a w₁ _ => hf a env henv w₁

theorem ite {p : Prop} [Decidable p] {x y : Act α} (hx : Orderly x) (hy : Orderly y) :
    Orderly (if p then x else y) := by
  split
  · exact hx
  · exact hy

theorem mapM {γ : Type} {f : γ → Act β} {l : List γ} (h : ∀ c, Orderly (f c)) : Orderly (l.mapM f) := by
  induction l with
  | nil =>
    rw [List.mapM_nil]
    exact pure _
  | cons c l ih =>
    rw [List.mapM_cons]
    exact bind (h c) fun _ => bind ih fun _ => pure _

theorem attempt {x : Act α} (hx : Orderly x) : Orderly (Act.attempt x) := by
  intro env henv w
  obtain ⟨es, hx⟩ := hx env henv w
  exact ⟨es, .attempted hx⟩

theorem evaluate (body : Expr) (bound : Term) : Orderly (Act.evaluate body bound) := by
  intro env henv w
  obtain ⟨env', x, heval, hx⟩ := henv body bound
  obtain ⟨es, hx⟩ := hx env.context w
  exact ⟨es, .evaluated heval hx⟩

/-- A call of a builder is orderly if preparing it is. -/
theorem call {c : Builder.Call} (hp : Orderly c.prepare) : Orderly c.run := by
  intro env henv w
  obtain ⟨es, hp⟩ := hp env henv w
  rcases h : c.run env w with ⟨f | t, w'⟩
  · exact ⟨es, .failed hp h⟩
  · obtain ⟨p, id, w₁, hdone⟩ := Builder.Call.run_ok h
    exact ⟨_, .built hp hdone.prepared hdone.target h⟩

end Act.Orderly

/-! ## References -/

theorem Act.invoke_orderly (callee : Term) (args : List Term) : Orderly (Act.invoke callee args) := by
  unfold Act.invoke
  split
  · exact .evaluate _ _
  · exact .evaluate _ _
  · exact .of_quiet (.of_calm fun _ => .applyNaming _ _)
  · exact .of_quiet (.of_calm fun _ => .runHook _ _ _)
  · exact .throw _

theorem Act.leaves_orderly (ts : List Term) : Orderly (leaves ts) := .of_reads fun _ _ => rfl

theorem Act.requireStable_orderly (t : Term) : Orderly (requireStable t) := .of_reads (.requireStable t)

namespace Current

theorem orGiven_orderly (t : Term) : Orderly (orGiven t) := .of_quiet (orGiven_quiet t)

/-- A naming function may be a producer. -/
theorem iriForName_orderly (name ontology : Term) : Orderly (iriForName name ontology) := by
  unfold iriForName
  refine .bind (orGiven_orderly ontology) fun o => .bind (.of_quiet (options_quiet o)) fun id => .bind .get fun w => ?_
  split
  · exact .bind (.of_reads (.iriOf o)) fun _ => .bind .get fun _ => .bind (.display name) fun _ => .pure _
  · exact .bind (invoke_orderly _ _) fun t => .display t

end Current

namespace Reference

theorem forceWithin_orderly : ∀ (n : Nat) (t : Term), Orderly (forceWithin n t)
  | 0, t => by
    rw [forceWithin.eq_def]
    exact .ite (.throw _) (.pure _)
  | n + 1, t => by
    rw [forceWithin.eq_def]
    exact .ite (.bind (invoke_orderly t []) fun u => forceWithin_orderly n u) (.pure _)

theorem denote_orderly (t : Term) (kind : EntityKind) (ontology : Term) (maker : Nat) :
    Orderly (denote t kind ontology maker) := by
  unfold denote
  cases form t kind
  case entity | expression => exact .pure _
  case iri => exact .bind (.display t) fun _ => .pure _
  case name => exact .bind (Current.iriForName_orderly t ontology) fun _ => .pure _
  case producer | invalid => exact .refuse _ _

/-- **Reading a reference is orderly**, whatever its producers build. -/
theorem resolve_orderly (t : Term) (kind : EntityKind) (ontology : Term) (maker : Nat := Factory.shared) :
    Orderly (resolve t kind ontology maker) := by
  refine .bind ?_ fun u => denote_orderly u kind ontology maker
  exact .bind (.of_reads fun _ _ => rfl) fun env => forceWithin_orderly env.depth t

end Reference

open Reference

/-! ## Frame values -/

theorem Factory.expression_orderly (o : Operator) (operands : List Term) (cardinality : Term) :
    Orderly (Factory.expression o operands cardinality) := .of_reads (expression_reads o operands cardinality)

namespace Expression

open Factory

theorem restrictEach_orderly (o : Operator) (property : Term) (fillers : List Term) :
    Orderly (restrictEach o property fillers) :=
  .bind (resolve_orderly _ _ _) fun _ => .bind (leaves_orderly _) fun _ => .mapM fun _ =>
    .bind (resolve_orderly _ _ _) fun _ => expression_orderly _ _ _

theorem some_orderly (property : Term) (fillers : List Term) : Orderly (some property fillers) :=
  .bind (restrictEach_orderly _ _ _) fun _ => .pure _

theorem only_orderly (property : Term) (fillers : List Term) : Orderly (only property fillers) :=
  .bind (restrictEach_orderly _ _ _) fun _ => .pure _

theorem combine_orderly (o : Operator) (members : List Term) : Orderly (combine o members) := by
  unfold combine
  split
  · exact .throw _
  · exact .bind (.of_reads (.forM .requireStable)) fun _ => .ite (.pure _) (expression_orderly _ _ _)

theorem and_orderly (classes : List Term) : Orderly (and classes) :=
  .bind (leaves_orderly _) fun _ => .bind (.mapM fun _ => resolve_orderly _ _ _) fun _ => combine_orderly _ _

theorem or_orderly (classes : List Term) : Orderly (or classes) :=
  .bind (leaves_orderly _) fun _ => .bind (.mapM fun _ => resolve_orderly _ _ _) fun _ => combine_orderly _ _

theorem someOnly_orderly (property : Term) (fillers : List Term) : Orderly (someOnly property fillers) :=
  .bind (some_orderly _ _) fun _ => .bind (or_orderly _) fun _ => .bind (only_orderly _ _) fun _ => .pure _

theorem singleFiller_orderly (classes : List Term) : Orderly (singleFiller classes) := by
  refine .bind (leaves_orderly _) fun us => ?_
  split
  · exact resolve_orderly _ _ _
  · exact .throw _

theorem not_orderly (classes : List Term) : Orderly (not classes) :=
  .bind (singleFiller_orderly _) fun _ => expression_orderly _ _ _

theorem count_orderly (o : Operator) (cardinality property : Term) (classes : List Term) :
    Orderly (count o cardinality property classes) := by
  have hnegative : Reads (isNegative cardinality) := by
    unfold isNegative
    split
    · exact .pure _
    · exact .pure _
    · exact .pure _
    · exact .throw _
  have rest : Orderly (do
      let p ← resolveObjectProperty property .null
      Factory.expression o [p, ← singleFiller classes] cardinality) :=
    .bind (resolve_orderly _ _ _) fun _ => .bind (singleFiller_orderly _) fun _ => expression_orderly _ _ _
  refine .bind (.of_reads hnegative) fun _ => .ite ?_ rest
  exact .bind (.display cardinality) fun _ => .bind (.throw _) fun _ => rest

theorem oneOf_orderly (individuals : List Term) : Orderly (oneOf individuals) := by
  refine .bind (leaves_orderly _) fun us => .bind (.mapM fun _ => resolve_orderly _ _ _) fun members => ?_
  split
  · exact .throw _
  · exact expression_orderly _ _ _

theorem note_orderly (property value language : Term) : Orderly (note property value language) := by
  have hlanguage : Reads (languageFor value language) := by
    unfold languageFor
    split
    · exact .pure _
    · exact fun _ _ => rfl
    · exact .pure _
  refine .bind (.of_reads hlanguage) fun tag => .bind (resolve_orderly _ _ _) fun p => ?_
  exact .bind (.of_quiet (.of_calm fun _ => Compile.note_calm p value tag)) fun _ => .pure _

end Expression

/-! ## Builders -/

namespace Compile

theorem relation_orderly (owner value ontology : Term) (maker : Nat) : Orderly (relation owner value ontology maker) := by
  unfold relation
  split
  · exact .bind (resolve_orderly _ _ _ _) fun _ => .bind (resolve_orderly _ _ _ _) fun _ => .pure _
  · exact .refuse _ _

theorem unlessSelf_orderly (owner other : Term) (make : List Term → Axiom) : Orderly (unlessSelf owner other make) :=
  .ite (.pure _) (.bind (requireStable_orderly _) fun _ => .bind (requireStable_orderly _) fun _ => .pure _)

theorem annotationAlong_orderly (n : Nat) (e : Entity) (t : Term) : Orderly (annotationAlong (.entity n e) t) :=
  .of_quiet (.of_calm fun _ => annotationAlong_calm n e t)

/-- **What a tag makes of a value** is made in an orderly way. -/
theorem axiomFor_orderly (owner ontology : Term) (maker : Nat) (tag : FrameTag) (value : Term) :
    Orderly (axiomFor owner ontology maker tag value) := by
  have reading : ∀ {β : Type} (kind : EntityKind) {f : Term → Act β}, (∀ t, Orderly (f t)) →
      Orderly (resolve value kind ontology maker >>= f) := fun kind _ hf => .bind (resolve_orderly _ kind _ _) hf
  have subject : ∀ {β : Type} {f : String → Act β}, (∀ s, Orderly (f s)) → Orderly (iriOf owner >>= f) :=
    fun hf => .bind (.of_reads (.iriOf owner)) hf
  unfold axiomFor
  cases tag
  case name => exact .pure _
  case subclass | domain | range | type => exact reading .cls fun _ => .pure _
  case equivalent | disjoint => exact reading .cls fun _ => unlessSelf_orderly _ _ _
  case inverse => exact reading .objectProperty fun _ => .bind (requireStable_orderly _) fun _ => .pure _
  case superproperty =>
    refine .bind (.of_reads (.kindOf owner)) fun k => .ite ?_ ?_
    · exact reading .annotationProperty fun _ => .pure _
    · exact reading .objectProperty fun _ => .pure _
  case characteristic =>
    cases Characteristic.ofTerm? value with
    | none => exact .bind (.of_reads fun _ _ => rfl) fun _ => .throw _
    | some c => exact .pure _
  case fact => exact .bind (relation_orderly _ _ _ _) fun _ => .pure _
  case same | different => exact reading .individual fun _ => unlessSelf_orderly _ _ _
  case note =>
    dsimp only
    split
    · exact subject fun _ => .pure _
    · exact .refuse _ _
  case comment | label => exact subject fun _ => .bind (annotationAlong_orderly _ _ _) fun _ => .pure _

theorem compile_orderly (owner : Term) (explicit defaults : List (Term × Term)) (schema ontology : Term)
    (maker : Nat := Factory.shared) : Orderly (compile owner explicit defaults schema ontology maker) := by
  refine .bind (.of_reads (.bind (checkTags_reads _ _ _) fun _ => .pure _)) fun frames => ?_
  refine .bind (.mapM fun tag => ?_) fun made => .pure _
  exact .bind (.mapM fun value => axiomFor_orderly _ _ _ _ _) fun _ => .pure _

end Compile

namespace Builder

theorem prepare_orderly (kind : EntityKind) (name : Term) (frames : FrameMap) (ontology : Term) :
    Orderly (prepare kind name frames ontology) :=
  .bind (Current.orGiven_orderly _) fun _ => .bind (resolve_orderly _ _ _) fun _ =>
    .bind (.of_reads fun _ _ => rfl) fun _ => .bind (Compile.compile_orderly _ _ _ _ _) fun _ => .pure _

theorem className_orderly (name : Term) (frames : FrameMap) : Orderly (className name frames) := by
  unfold className
  dsimp only
  split
  case h_4 => exact .pure _
  all_goals exact .bind .context fun _ => .bind (.display _) fun _ => .pure _

theorem prepareOfKind_orderly (kind : EntityKind) (name frames ontology : Term) (more : List (String × Term)) :
    Orderly (prepareOfKind kind name frames ontology more) := by
  refine .bind (.of_reads (gather_reads frames more)) fun all => ?_
  dsimp only
  split
  · exact .bind (className_orderly _ _) fun _ => prepare_orderly _ _ _ _
  · exact prepare_orderly _ _ _ _

theorem Call.prepare_orderly (c : Call) : Orderly c.prepare := by
  cases c with
  | make kind name frames ontology more => exact prepareOfKind_orderly _ _ _ _ _
  | refine t frames ontology more =>
    cases t
    case entity m e => exact prepareOfKind_orderly _ _ _ _ _
    all_goals exact .bind (.of_reads fun _ _ => rfl) fun _ => .throw _

/-- **A call of a builder is orderly.** -/
theorem Call.run_orderly (c : Call) : Orderly c.run := .call c.prepare_orderly

theorem ofKind_orderly (kind : EntityKind) (name frames ontology : Term) (more : List (String × Term)) :
    Orderly (ofKind kind name frames ontology more) := Call.run_orderly (.make kind name frames ontology more)

theorem declareClasses_orderly (names : List Term) (ontology : Term) : Orderly (declareClasses names ontology) :=
  .bind (leaves_orderly _) fun _ => .mapM fun _ => ofKind_orderly .cls _ _ _ _

theorem pairOf_reads (t : Term) : Reads (pairOf t) := by
  refine .bind (.itemsOf t) fun ts => ?_
  split
  · exact .pure _
  all_goals exact .throw _

theorem defineClasses_orderly (items : List Term) (ontology : Term) : Orderly (defineClasses items ontology) := by
  refine .mapM fun t => ?_
  split
  · exact .bind (.of_reads (pairOf_reads _)) fun _ => ofKind_orderly .cls _ _ _ _
  · exact ofKind_orderly .cls _ _ _ _

theorem addFrame_orderly (kind : EntityKind) (tag : FrameTag) (entity : Term) (values : List Term) (ontology : Term) :
    Orderly (addFrame kind tag entity values ontology) :=
  .bind (Current.orGiven_orderly _) fun _ => .bind (resolve_orderly _ _ _) fun _ =>
    .bind (.of_reads fun _ _ => rfl) fun _ => .bind (Compile.compile_orderly _ _ _ _ _) fun _ =>
      .of_quiet (Change.addEach_quiet _ _)

theorem disjointClasses_orderly (classes : List Term) (ontology : Term) : Orderly (disjointClasses classes ontology) := by
  refine .bind (Current.orGiven_orderly _) fun o => .bind (leaves_orderly _) fun us => ?_
  refine .bind (.mapM fun u => .bind (resolve_orderly _ _ _) fun _ => ?_) fun members => ?_
  · exact .bind (requireStable_orderly _) fun _ => .pure _
  · exact .ite (.pure _) (.of_quiet (Change.add_quiet _ _))

theorem addDisjointUnion_orderly (owner : Term) (parts : List Term) (ontology : Term) :
    Orderly (addDisjointUnion owner parts ontology) := by
  refine .bind (Current.orGiven_orderly _) fun o => .bind (resolve_orderly _ _ _) fun c => ?_
  refine .bind (leaves_orderly _) fun us => .bind (.mapM fun _ => resolve_orderly _ _ _) fun members => ?_
  exact .bind (.of_reads (.forM .requireStable)) fun _ => .of_quiet (Change.add_quiet _ _)

end Builder

/-! ## Calls of the authoring layer -/

namespace Service

theorem Value.run_orderly (v : Value) : Orderly v.run := by
  cases v with
  | some p ts => exact Expression.some_orderly _ _
  | only p ts => exact Expression.only_orderly _ _
  | someOnly p ts => exact Expression.someOnly_orderly _ _
  | and ts => exact Expression.and_orderly _
  | or ts => exact Expression.or_orderly _
  | not ts => exact Expression.not_orderly _
  | count o n p ts => exact Expression.count_orderly _ _ _ _
  | oneOf ts => exact Expression.oneOf_orderly _
  | note p t language => exact Expression.note_orderly _ _ _
  | fact negated p t => exact .pure _

/-- **Every call of the authoring layer is orderly.** -/
theorem Call.run_orderly (c : Call) : Orderly c.run := by
  cases c with
  | build c => exact c.run_orderly
  | declare ts o => exact .bind (Builder.declareClasses_orderly _ _) fun _ => .pure _
  | define ts o => exact .bind (Builder.defineClasses_orderly _ _) fun _ => .pure _
  | frame kind tag t ts o => exact .bind (Builder.addFrame_orderly _ _ _ _ _) fun _ => .pure _
  | disjoint ts o => exact Builder.disjointClasses_orderly _ _
  | union t ts o => exact Builder.addDisjointUnion_orderly _ _ _
  | value v => exact v.run_orderly

end Service

/-! ## Scopes -/

namespace Scope

theorem onSuccess_orderly {work : Act Unit} (h : Orderly work) (f : Option Fault) : Orderly (onSuccess work f) := by
  cases f with
  | none => exact h
  | some _ => exact .pure _

theorem collected_orderly (id : Nat) : Orderly (collected id) := .of_reads fun _ _ => rfl

theorem relateInverses_orderly (ts : List Term) (o : Term) : Orderly (relateInverses ts o) := by
  unfold relateInverses
  split
  · exact .bind (resolve_orderly _ _ _) fun _ => .bind (resolve_orderly _ _ _) fun _ =>
      .bind (.of_quiet (Change.add_quiet _ _)) fun _ => .pure _
  · exact .throw _

theorem coverBy_orderly (super : Term) (ts : List Term) (o : Term) : Orderly (coverBy super ts o) := by
  unfold coverBy
  split
  · exact .pure _
  · exact .bind (Expression.or_orderly _) fun _ => .bind (requireStable_orderly _) fun _ =>
      .bind (requireStable_orderly _) fun _ => .bind (.of_quiet (Change.add_quiet _ _)) fun _ => .pure _

end Scope

namespace Service.Block

open Scope

variable {b : Block} {env : Env} {w w' : World} {e : Entered}

/-- Leaving a scope is orderly. -/
theorem leave_orderly (h : b.enter env w = (.ok e, w')) (f : Option Fault) : Orderly (e.leave f) := by
  cases b with
  | ontology t | space t | collection =>
    cases h
    exact .pure _
  | defaults frames =>
    obtain ⟨es, w₁, -, hrest⟩ := bind_ok h
    obtain ⟨fs, w₂, -, hdone⟩ := bind_ok hrest
    cases hdone
    exact .pure _
  | lead t | trail t =>
    obtain ⟨c, w₁, -, hrest⟩ := bind_ok h
    obtain ⟨s, w₂, -, hdone⟩ := bind_ok hrest
    cases hdone
    exact .pure _
  | disjoint t =>
    obtain ⟨o, w₁, -, hdone⟩ := bind_ok h
    cases hdone
    refine onSuccess_orderly (.bind (collected_orderly _) fun _ => ?_) f
    exact .bind (Builder.disjointClasses_orderly _ _) fun _ => .pure _
  | inverse t =>
    obtain ⟨o, w₁, -, hdone⟩ := bind_ok h
    cases hdone
    exact onSuccess_orderly (.bind (collected_orderly _) fun _ => relateInverses_orderly _ _) f
  | subclasses super asDisjoint asCover t =>
    obtain ⟨o, w₁, -, hrest⟩ := bind_ok h
    obtain ⟨c, w₂, -, hdone⟩ := bind_ok hrest
    cases hdone
    have cover : Orderly (do if ← isTruthy asCover then coverBy c (← collected w₂.windows.length) o) :=
      .bind (.of_reads fun _ _ => rfl) fun _ =>
        .ite (.bind (collected_orderly _) fun _ => coverBy_orderly _ _ _) (.pure _)
    refine onSuccess_orderly (.bind (.of_reads fun _ _ => rfl) fun _ => .ite ?_ cover) f
    exact .bind (collected_orderly _) fun _ => .bind (Builder.disjointClasses_orderly _ _) fun _ => cover

theorem openNew_orderly : Orderly Window.openNew := fun _ _ _ => ⟨[], .opened⟩

/-- **Entering a scope is orderly**, and a scope that collects has opened a window in the end. -/
theorem enter_orderly (b : Block) : Orderly b.enter := by
  cases b with
  | ontology t | space t => exact .of_reads fun _ _ => rfl
  | collection => exact .bind openNew_orderly fun _ => .of_reads fun _ _ => rfl
  | defaults frames =>
    refine .bind (.of_reads (Builder.entriesOf_reads _)) fun _ => .bind (.of_reads fun _ _ => rfl) fun _ => ?_
    exact .of_reads fun _ _ => rfl
  | lead t | trail t => exact .bind .context fun _ => .bind (.of_reads (affix_reads t)) fun _ => .pure _
  | disjoint t | inverse t =>
    exact .bind (Current.orGiven_orderly t) fun _ => .bind openNew_orderly fun _ => .of_reads fun _ _ => rfl
  | subclasses super asDisjoint asCover t =>
    refine .bind (Current.orGiven_orderly t) fun _ => .bind (resolve_orderly _ _ _) fun _ => ?_
    exact .bind openNew_orderly fun _ => .of_reads fun _ _ => rfl

/-- A scope that collects for itself has opened a window that was not there. -/
theorem opens_new (henv : env.Orderly) (hb : b.collects = true) (h : b.enter env w = (.ok e, w')) :
    w.windows.length < w'.windows.length := by
  cases b with
  | ontology | space | defaults | lead | trail => cases hb
  | collection =>
    cases h
    exact World.opened_length w ▸ Nat.lt_succ_self _
  | disjoint t | inverse t =>
    obtain ⟨o, w₁, ho, hdone⟩ := bind_ok h
    cases hdone
    have hquiet := Current.orGiven_quiet t env w
    rw [ho] at hquiet
    show w.windows.length < w₁.opened.windows.length
    rw [World.opened_length, ← hquiet]
    exact Nat.lt_succ_self _
  | subclasses super asDisjoint asCover t =>
    obtain ⟨o, w₁, ho, hrest⟩ := bind_ok h
    obtain ⟨c, w₂, hc, hdone⟩ := bind_ok hrest
    cases hdone
    have hquiet := Current.orGiven_quiet t env w
    rw [ho] at hquiet
    -- the superclass may be a producer that opens windows
    obtain ⟨es, hcourse⟩ := resolve_orderly super .cls o Factory.shared env henv w₁
    have hgrows := hcourse.collects.length
    rw [show resolve super .cls o Factory.shared env w₁ = (.ok c, w₂) from hc] at hgrows
    show w.windows.length < w₂.opened.windows.length
    rw [World.opened_length, ← hquiet]
    exact Nat.lt_succ_of_le hgrows

end Service.Block

/-- **A body inside a scope is orderly** if the body is. -/
theorem Scope.run_orderly {α : Type} (b : Service.Block) {body : Term → Act α} (h : ∀ t, Orderly (body t)) :
    Orderly (Scope.run b.enter body) := by
  intro env henv w
  obtain ⟨es, he⟩ := b.enter_orderly env henv w
  rcases hrun : b.enter env w with ⟨f | e, w₁⟩
  · exact ⟨es, .refused he hrun⟩
  · rcases hr : body e.yields { env with context := e.context } w₁ with ⟨r, w₂⟩
    obtain ⟨es', hbody⟩ := h e.yields _ (henv.within e.context) w₁
    obtain ⟨es'', hleave⟩ := Service.Block.leave_orderly hrun (Scope.faultOf r) env henv w₂
    exact ⟨_, .scope he hrun (fun hb => Service.Block.opens_new henv hb hrun) hbody hr hleave⟩

namespace Probe

/-- Probes are bound one by one, until one cannot be made. -/
theorem bindAll_orderly {bindings : List Binding} (h : ∀ b ∈ bindings, ∀ bound, Orderly (bind bound b)) :
    ∀ bound, Orderly (bindAll bound bindings) := by
  induction bindings with
  | nil => exact fun bound => .pure (bound, none)
  | cons b bs ih =>
    intro bound
    refine .bind (.attempt (h b List.mem_cons_self bound)) fun r => ?_
    cases r with
    | ok bound' => exact ih (fun c hc => h c (List.mem_cons_of_mem _ hc)) bound'
    | error f => exact .pure (bound, some f)

/-- Probes are removed one by one, whatever becomes of each. -/
theorem cleanUp_orderly {remover : Term → Act Unit} (h : ∀ t, Orderly (remover t)) (bound : Bound)
    (outcome : Option Fault) : Orderly (cleanUp remover bound outcome) := by
  have hall : ∀ ts, Orderly (removeAll remover ts) := by
    intro ts
    induction ts with
    | nil => exact .pure _
    | cons t ts ih =>
      refine .bind (.attempt (h t)) fun r => ?_
      cases r with
      | ok _ => exact ih
      | error f => exact .bind ih fun _ => .pure _
  refine .bind (hall _) fun faults => ?_
  split
  · exact .pure _
  · exact .pure _
  · exact .throw _

theorem removeEntity_orderly (t o : Term) : Orderly (removeEntity t o) :=
  .bind (.of_quiet (Change.removeEntity_quiet t o)) fun _ => .pure _

theorem removeAxiom_orderly (t o : Term) : Orderly (removeAxiom t o) :=
  .bind (.of_quiet (Change.remove_quiet t o)) fun _ => .pure _

/-- A body inside a scope of probes is orderly if binding and removing them is, and the body. -/
theorem run_orderly {α : Type} {remover : Term → Term → Act Unit} (hremover : ∀ t o, Orderly (remover t o))
    {bindings : List Binding} (hbind : Orderly (bindAll [] bindings)) (ontology : Term) {body : Term → Act α}
    (hbody : ∀ t, Orderly (body t)) : Orderly (Scope.run (scope remover bindings ontology) body) := by
  rw [Scope.run_eq]
  unfold scope
  rw [bind_assoc]
  refine .bind (Current.orGiven_orderly _) fun o => ?_
  rw [bind_assoc]
  refine .bind hbind fun r => ?_
  obtain ⟨bound, fault⟩ := r
  have hclean : ∀ outcome, Orderly (cleanUp (remover · o) bound outcome) :=
    cleanUp_orderly (fun t => hremover t o) bound
  cases fault with
  | some f =>
    show Orderly ((do cleanUp (remover · o) bound (some f); throw f) >>= Scope.inside body)
    rw [bind_assoc]
    exact .bind (hclean _) fun _ => .of_reads fun _ _ => rfl
  | none =>
    show Orderly ((do return ⟨← Act.context, .map bound, cleanUp (remover · o) bound⟩) >>= Scope.inside body)
    rw [bind_assoc]
    intro env henv w
    refine Course.bind (Orderly.context env henv w) fun c w₁ hc => ?_
    cases hc
    rw [pure_bind]
    -- the context inside is the one outside
    obtain ⟨es, hcourse⟩ := hbody (.map bound) env henv w
    refine Course.bind ⟨es, .attempted (.inPlace hcourse)⟩ fun r w₁ _ => ?_
    cases r with
    | ok a => exact Orderly.bind (hclean none) (fun _ => .pure a) env henv w₁
    | error f => exact Orderly.bind (hclean (some f)) (fun _ => .throw f) env henv w₁

end Probe

/-! ## Plans -/

mutual
/-- A plan whose steps are orderly, and whose probes are made and removed by orderly acts. -/
def Plan.Orderly : Plan → Prop
  | .done _ => True
  | .step x next => x.Orderly ∧ ∀ t, (next t).Orderly
  | .caught part next => part.Orderly ∧ ∀ r, (next r).Orderly
  | .scope _ body next => (∀ t, (body t).Orderly) ∧ ∀ t, (next t).Orderly
  | .probes remover bindings _ body next =>
    (∀ t o, (remover t o).Orderly) ∧ bindings.Orderly ∧ (∀ t, (body t).Orderly) ∧ ∀ t, (next t).Orderly
def Probes.Orderly : Probes → Prop
  | .nil => True
  | .cons name construct rest => name.Orderly ∧ (∀ bound, (construct bound).Orderly) ∧ rest.Orderly
end

mutual
/-- **A plan of orderly steps is orderly.** -/
theorem Plan.run_orderly : ∀ p : Plan, p.Orderly → Act.Orderly p.run
  | .done t, _ => .pure t
  | .step _ next, h => .bind h.1 fun t => (next t).run_orderly (h.2 t)
  | .caught part next, h => .bind (.attempt (part.run_orderly h.1)) fun r => (next r).run_orderly (h.2 r)
  | .scope b body next, h =>
    .bind (Scope.run_orderly b fun t => (body t).run_orderly (h.1 t)) fun t => (next t).run_orderly (h.2 t)
  | .probes _ bindings ontology body next, h =>
    .bind (Probe.run_orderly h.1 (Probe.bindAll_orderly (bindings.bind_orderly h.2.1) []) ontology fun t =>
      (body t).run_orderly (h.2.2.1 t)) fun t => (next t).run_orderly (h.2.2.2 t)
theorem Probes.bind_orderly : ∀ ps : Probes, ps.Orderly → ∀ b ∈ ps.list, ∀ bound, Act.Orderly (Probe.bind bound b)
  | .nil, _ => nofun
  | .cons name construct rest, h => by
    refine List.forall_mem_cons.mpr ⟨fun bound => ?_, rest.bind_orderly h.2.2⟩
    rw [Probe.bind, bind_assoc]
    refine .bind h.1 fun s => ?_
    rw [pure_bind]
    refine .bind ((construct bound).run_orderly (h.2.1 bound)) fun value => ?_
    exact .bind (requireStable_orderly _) fun _ => .pure _
end

/-- An environment in which delayed expressions run plans, in an environment that may be another. -/
def Env.running (env : Env) (p : Expr → Term → Plan) : Env :=
  { env with eval := fun body bound c => (p body bound).run { env with context := c } }

/-- **Producers may run plans themselves**: what is assumed of delayed expressions holds of those that run plans of
orderly steps. -/
theorem Env.Orderly.running {env : Env} (henv : env.Orderly) {p : Expr → Term → Plan}
    (hp : ∀ body bound, (p body bound).Orderly) : (env.running p).Orderly :=
  fun body bound => ⟨env, (p body bound).run, fun _ _ => rfl, fun _ v =>
    (p body bound).run_orderly (hp body bound) _ (henv.within _) v⟩

theorem Env.plain_orderly : Env.plain.Orderly :=
  fun _ _ => ⟨.plain, pure .null, fun _ _ => rfl, fun _ _ => ⟨[], .quiet (.pure _)⟩⟩

/-- Calls of the authoring layer, one after the other. The answer is that of the last one. -/
def Plan.calling (c : Service.Call) : List Service.Call → Plan
  | [] => .step c.run .done
  | c' :: cs => .step c.run fun _ => calling c' cs

theorem Plan.calling_orderly (c : Service.Call) (cs : List Service.Call) : (Plan.calling c cs).Orderly := by
  induction cs generalizing c with
  | nil => exact ⟨c.run_orderly, fun _ => trivial⟩
  | cons c' cs ih => exact ⟨c.run_orderly, fun _ => ih c'⟩

/-- Builds an entity in the current ontology. -/
def Service.Call.making (kind : EntityKind) (name : String) (frames : Term) : Call :=
  .build (.make kind (.text name) frames .null [])

/-- The plain environment in the ontology of the world with one. -/
def Env.single : Env := { Env.plain with context := { Context.outermost with ontology := .handle (.ontology 0) } }

theorem Env.single_orderly : Env.single.Orderly := Env.plain_orderly.within _

end Authoring
