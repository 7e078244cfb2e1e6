import Authoring.Proofs.Builder
import Authoring.Proofs.Service

/-!
# What the affixes of names do not affect

The scopes of prefixes and suffixes change what stands around the names of new classes, and nothing else. All but the
builder of classes reads its references as they are given: an act is *unaffixed* if it does the same where no affixes are
in force (`Act.Unaffixed`). This holds of reading references, of compiling frames, of the builders of properties and
individuals (`Act.Unaffixed.build`), and of everything that makes values for frames (`Act.Unaffixed.value`).

Delayed expressions may declare classes, so they go on seeing the affixes that are in force (`Env.hiding`).
-/

namespace Authoring

/-- The environment in which no affixes are in force, except for delayed expressions: these see the given ones. -/
def Env.hiding (env : Env) (affixes : String × String) : Env where
  context := { env.context with affixes := ("", "") }
  depth := env.depth
  eval body bound c := env.eval body bound { c with affixes := affixes }

/-- The environment in which the affixes that are in force are hidden. -/
def Env.unaffixed (env : Env) : Env := env.hiding env.context.affixes

namespace Act

/-- **An act that the affixes do not affect**: it does the same where they are hidden. -/
def Unaffixed {α : Type} (x : Act α) : Prop := ∀ env w, x env w = x env.unaffixed w

namespace Unaffixed

variable {α β γ : Type}

theorem pure (a : α) : Unaffixed (Pure.pure a : Act α) := fun _ _ => rfl

theorem throw (e : Fault) : Unaffixed (throw e : Act α) := fun _ _ => rfl

theorem get : Unaffixed (MonadState.get : Act World) := fun _ _ => rfl

theorem bind {x : Act α} {f : α → Act β} (hx : Unaffixed x) (hf : ∀ a, Unaffixed (f a)) : Unaffixed (x >>= f) := by
  intro env w
  rw [run_bind, run_bind, ← hx env w]
  rcases x env w with ⟨e | a, w₁⟩
  · rfl
  · exact hf a env w₁

theorem ite {p : Prop} [Decidable p] {x y : Act α} (hx : Unaffixed x) (hy : Unaffixed y) :
    Unaffixed (if p then x else y) := by
  split
  · exact hx
  · exact hy

theorem mapM {f : γ → Act β} (h : ∀ c, Unaffixed (f c)) (l : List γ) : Unaffixed (l.mapM f) := by
  induction l with
  | nil => exact pure []
  | cons c l ih =>
    rw [List.mapM_cons]
    exact bind (h c) fun _ => bind ih fun _ => pure _

theorem forM {f : γ → Act PUnit} (h : ∀ c, Unaffixed (f c)) (l : List γ) : Unaffixed (l.forM f) := by
  induction l with
  | nil => exact pure _
  | cons c l ih => exact bind (h c) fun _ => ih

/-- What does not depend on the environment is unaffixed. -/
theorem of_blind {x : Act α} (h : Blind x) : Unaffixed x := fun env w => h env env.unaffixed w

/-! ### Terms and their parts -/

theorem display (t : Term) : Unaffixed (display t) := fun _ _ => rfl

theorem inspect (t : Term) : Unaffixed (inspect t) := fun _ _ => rfl

theorem isTruthy (t : Term) : Unaffixed (isTruthy t) := fun _ _ => rfl

theorem leaves (ts : List Term) : Unaffixed (leaves ts) := fun _ _ => rfl

theorem framesOf (es : List (Term × Term)) : Unaffixed (framesOf es) := fun _ _ => rfl

theorem refuse (s : String) (t : Term) : Unaffixed (refuse s t : Act α) := bind (inspect t) fun _ => throw _

theorem requireStable (t : Term) : Unaffixed (requireStable t) := of_blind (.requireStable t)

theorem asOntology (t : Term) : Unaffixed (asOntology t) := by
  unfold Act.asOntology
  split
  · exact pure _
  · exact throw _

theorem iriOf (t : Term) : Unaffixed (iriOf t) := by
  unfold Act.iriOf
  split
  · exact pure _
  · exact bind get fun _ => pure _
  · exact throw _

theorem kindOf (t : Term) : Unaffixed (kindOf t) := by
  unfold Act.kindOf
  split
  · exact pure _
  · exact pure _
  · exact throw _

theorem entityKindOf (t : Term) : Unaffixed (entityKindOf t) := by
  refine bind (kindOf t) fun k => ?_
  split
  · exact pure _
  · exact throw _

theorem entriesOf (t : Term) : Unaffixed (entriesOf t) := by
  unfold Act.entriesOf
  split
  · exact pure _
  · exact bind (isTruthy _) fun _ => ite (throw _) (pure _)

theorem itemsOf (t : Term) : Unaffixed (itemsOf t) := of_blind (.itemsOf t)

theorem pairOf (t : Term) : Unaffixed (pairOf t) := by
  refine bind (itemsOf t) fun ts => ?_
  split
  · exact pure _
  all_goals exact throw _

/-! ### Calls -/

theorem applyNaming (rule : NamingRule) (name : Term) : Unaffixed (applyNaming rule name) := by
  unfold Act.applyNaming
  cases rule.fails with
  | some => exact bind (throw _) fun _ => by cases name.content? <;> first | exact throw _ | exact pure _
  | none => cases name.content? <;> first | exact throw _ | exact pure _

theorem runHook (name : String) (fails : Bool) (removed : Term) : Unaffixed (runHook name fails removed) :=
  bind (asOntology removed) fun _ => bind get fun _ => bind (fun _ _ => rfl) fun _ => ite (throw _) (pure _)

/-- A delayed expression sees the affixes that are in force. -/
theorem evaluate (body : Expr) (bound : Term) : Unaffixed (evaluate body bound) := fun _ _ => rfl

theorem invoke (callee : Term) (args : List Term) : Unaffixed (invoke callee args) := by
  unfold Act.invoke
  split
  · exact evaluate _ _
  · exact evaluate _ _
  · exact applyNaming _ _
  · exact runHook _ _ _
  · exact throw _

/-! ### References -/

theorem orGiven (t : Term) : Unaffixed (Current.orGiven t) := by
  have spaceOr : ∀ t, Unaffixed (Current.spaceOr t) := fun t => bind (isTruthy t) fun _ => ite (pure t) fun _ _ => rfl
  have registered : ∀ t, Unaffixed (Current.registered t) :=
    fun t => bind (spaceOr t) fun s => bind (requireStable s) fun _ => bind get fun _ => pure _
  have bound : Unaffixed (do return (← context).ontology) := fun _ _ => rfl
  have ontology : Unaffixed (Current.ontology .null) := by
    refine fun env w => (?_ : Unaffixed ((do return (← context).ontology) >>= fun bound => _)) env w
    refine bind bound fun t => ?_
    split
    · refine bind (registered _) fun u => ?_
      split
      · exact bind (spaceOr _) fun _ => bind (display _) fun _ => throw _
      · exact pure _
    · exact pure _
  unfold Current.orGiven
  split
  · exact ontology
  · exact pure _

theorem options (t : Term) : Unaffixed (Current.options t) := by
  refine bind (orGiven t) fun o => bind (requireStable o) fun _ => bind get fun w => ?_
  split
  · exact pure _
  · exact bind (fun _ _ => rfl) fun _ => pure _

theorem iriForName (name ontology : Term) : Unaffixed (Current.iriForName name ontology) := by
  refine bind (orGiven ontology) fun o => bind (options o) fun id => bind get fun w => ?_
  split
  · exact bind (iriOf o) fun _ => bind get fun _ => bind (display name) fun _ => pure _
  · exact bind (invoke _ _) fun t => display t

theorem force (t : Term) : Unaffixed (Reference.force t) := by
  have forceWithin : ∀ n t, Unaffixed (Reference.forceWithin n t) := by
    intro n
    induction n with
    | zero =>
      intro t
      unfold Reference.forceWithin
      exact ite (throw _) (pure _)
    | succ n ih =>
      intro t
      unfold Reference.forceWithin
      exact ite (bind (invoke t []) fun u => ih u) (pure _)
  exact fun env w => forceWithin env.depth t env w

/-- **References are read as they are given.** -/
theorem resolve (t : Term) (kind : EntityKind) (ontology : Term) (maker : Nat := Factory.shared) :
    Unaffixed (Reference.resolve t kind ontology maker) := by
  refine bind (force t) fun u => ?_
  unfold Reference.denote
  split
  · exact pure _
  · exact pure _
  · exact bind (display u) fun _ => pure _
  · exact bind (iriForName u ontology) fun _ => pure _
  · exact refuse _ u
  · exact refuse _ u

/-! ### Frames -/

theorem note (property value language : Term) : Unaffixed (Factory.note property value language) := by
  have languageOf : Unaffixed (Factory.languageOf language) := by
    unfold Factory.languageOf
    split
    · exact pure _
    · exact pure _
    · split
      · exact throw _
      · exact ite (bind (display _) fun _ => bind (inspect _) fun _ => pure _) (bind (display _) fun _ => throw _)
  unfold Factory.note
  split
  · exact pure _
  · refine bind (bind languageOf fun tag => ?_) fun _ => pure _
    split
    case h_4 => exact bind (display _) fun _ => pure _
    all_goals exact pure _

theorem annotationAlong (property value : Term) : Unaffixed (Compile.annotationAlong property value) := by
  unfold Compile.annotationAlong
  split
  · exact ite (pure _) (bind (iriOf _) fun _ => refuse _ _)
  · exact ite (bind get fun _ => note _ _ _) (refuse _ _)

theorem unlessSelf (owner other : Term) (make : List Term → Axiom) : Unaffixed (Compile.unlessSelf owner other make) :=
  ite (pure _) (bind (requireStable _) fun _ => bind (requireStable _) fun _ => pure _)

theorem relation (owner value ontology : Term) (maker : Nat) :
    Unaffixed (Compile.relation owner value ontology maker) := by
  unfold Compile.relation
  split
  · exact bind (resolve _ _ _ _) fun _ => bind (resolve _ _ _ _) fun _ => pure _
  · exact refuse _ _

theorem axiomFor (owner ontology : Term) (maker : Nat) (tag : FrameTag) (value : Term) :
    Unaffixed (Compile.axiomFor owner ontology maker tag value) := by
  have read (kind : EntityKind) : Unaffixed (Reference.resolve value kind ontology maker) := resolve value kind ontology maker
  unfold Compile.axiomFor
  cases tag
  case name => exact pure _
  case subclass | domain | range | type => exact bind (read .cls) fun _ => pure _
  case equivalent | disjoint => exact bind (read .cls) fun _ => unlessSelf _ _ _
  case inverse => exact bind (read .objectProperty) fun _ => bind (requireStable _) fun _ => pure _
  case superproperty =>
    refine bind (kindOf owner) fun k => ite ?_ ?_
    · exact bind (read .annotationProperty) fun _ => pure _
    · exact bind (read .objectProperty) fun _ => pure _
  case characteristic =>
    cases Characteristic.ofTerm? value with
    | none => exact bind (inspect _) fun _ => throw _
    | some c => exact pure _
  case fact => exact bind (relation owner value ontology maker) fun _ => pure _
  case same | different => exact bind (read .individual) fun _ => unlessSelf _ _ _
  case note =>
    dsimp only
    split
    · exact bind (iriOf owner) fun _ => pure _
    · exact refuse _ _
  case comment | label => exact bind (iriOf owner) fun _ => bind (annotationAlong _ _) fun _ => pure _

theorem checked (owner : Term) (explicit defaults : List (Term × Term)) (schema : Term) :
    Unaffixed (Compile.checked owner explicit defaults schema) := by
  have refuseTag : ∀ key, Unaffixed (Compile.refuseTag owner key) :=
    fun key => bind (kindOf owner) fun _ => bind (display key) fun _ => throw _
  have given : Unaffixed (Compile.Schema.given owner schema) := by
    unfold Compile.Schema.given
    split
    · exact bind (entityKindOf owner) fun _ => pure _
    · exact pure _
  refine bind (bind given fun s => forM (fun f => ?_) _) fun _ => pure _
  unfold Compile.checkTag
  split
  · refine bind ?_ fun _ => ite (pure _) (refuseTag _)
    cases s with
    | ofKind => exact pure _
    | within container => exact of_blind (.contains container _)
  · exact refuseTag _

/-- **Frames are compiled from values as they are given.** -/
theorem compile (owner : Term) (explicit defaults : List (Term × Term)) (schema ontology : Term)
    (maker : Nat := Factory.shared) : Unaffixed (Compile.compile owner explicit defaults schema ontology maker) := by
  refine bind (checked _ _ _ _) fun frames => bind (mapM (fun tag => ?_) _) fun _ => pure _
  exact bind (mapM (axiomFor owner ontology maker tag) _) fun _ => pure _

theorem gather (frames : Term) (more : List (String × Term)) : Unaffixed (Builder.gather frames more) :=
  bind (entriesOf frames) fun _ => bind (framesOf _) fun _ => bind (framesOf _) fun _ => pure _

/-! ### Changes -/

theorem add (t o : Term) : Unaffixed (Change.add t o) := by
  have requireManaged : ∀ store o, Unaffixed (Store.requireManaged store o) := by
    intro store o
    refine bind ?_ fun _ => ite (pure _) (bind (inspect o) fun _ => throw _)
    unfold Store.contains
    split
    · exact bind get fun _ => pure _
    · exact bind (display _) fun _ => bind get fun _ => pure _
  have requireAxiom : Unaffixed (Store.requireAxiom t) := by
    unfold Store.requireAxiom
    cases Axiom.ofTerm? t with
    | none => exact bind (inspect t) fun _ => throw _
    | some a => exact pure a
  refine bind (orGiven o) fun o => bind (bind get fun _ => pure _) fun store => bind ?_ fun _ => pure t
  refine bind (requireManaged store o) fun _ => bind requireAxiom fun a => bind (asOntology o) fun id => ?_
  exact bind (requireStable t) fun _ => bind get fun _ => bind (fun _ _ => rfl) fun _ => pure _

theorem addEach (ts : List Term) (o : Term) : Unaffixed (Change.addEach ts o) :=
  bind (orGiven o) fun _ => mapM (fun t => add t _) ts

/-- **What is declared is declared as it is given.** -/
theorem build (kind : EntityKind) (name : Term) (frames : FrameMap) (ontology : Term) :
    Unaffixed (Builder.build kind name frames ontology) := by
  refine bind (orGiven ontology) fun o => bind (resolve name kind o) fun e => ?_
  have defaults : Unaffixed Window.defaults := fun _ _ => rfl
  have record : Unaffixed (Window.record e) := by
    intro env w
    rw [run_record, run_record]
    rfl
  refine bind defaults fun d => bind (compile e _ _ _ o) fun as => ?_
  exact bind (bind (addEach _ o) fun _ => pure _) fun _ => bind record fun _ => bind (iriOf o) fun _ => pure _

theorem addFrame (kind : EntityKind) (tag : FrameTag) (entity : Term) (values : List Term) (ontology : Term) :
    Unaffixed (Builder.addFrame kind tag entity values ontology) := by
  refine bind (orGiven ontology) fun o => bind (resolve entity kind o) fun e => bind (framesOf _) fun fs => ?_
  exact bind (compile e fs [] .null o) fun as => addEach _ o

/-! ### Classes, one by one -/

theorem resolveEach (ts : List Term) (kind : EntityKind) (o : Term) :
    Unaffixed (ts.mapM fun t => Reference.resolve t kind o) := mapM (fun t => resolve t kind o) ts

theorem disjointClasses (classes : List Term) (ontology : Term) :
    Unaffixed (Builder.disjointClasses classes ontology) := by
  refine bind (orGiven ontology) fun o => bind (leaves classes) fun ts => bind (mapM (fun t => ?_) ts) fun cs => ?_
  · exact bind (resolve t .cls o) fun c => bind (requireStable c) fun _ => pure c
  · exact ite (pure _) (add _ o)

theorem addDisjointUnion (owner : Term) (parts : List Term) (ontology : Term) :
    Unaffixed (Builder.addDisjointUnion owner parts ontology) := by
  refine bind (orGiven ontology) fun o => bind (resolve owner .cls o) fun c => bind (leaves parts) fun ts => ?_
  exact bind (resolveEach ts .cls o) fun cs => bind (forM requireStable cs) fun _ => add _ o

/-! ### Values of frames -/

theorem expression (o : Operator) (operands : List Term) (cardinality : Term) :
    Unaffixed (Factory.expression o operands cardinality) := by
  refine bind ?_ fun _ => ite (bind (bind (forM requireStable operands) fun _ => pure _) fun _ => pure _) (pure _)
  unfold Act.requireFindable
  split
  · exact pure _
  · exact requireStable _

theorem combine (o : Operator) (members : List Term) : Unaffixed (Expression.combine o members) := by
  unfold Expression.combine
  split
  · exact throw _
  · exact bind (forM requireStable _) fun _ => ite (pure _) (expression o _ .null)

theorem restrictEach (o : Operator) (property : Term) (fillers : List Term) :
    Unaffixed (Expression.restrictEach o property fillers) := by
  refine bind (resolve property .objectProperty .null) fun p => bind (leaves fillers) fun ts => mapM (fun t => ?_) ts
  exact bind (resolve t .cls .null) fun c => expression o _ .null

theorem or (classes : List Term) : Unaffixed (Expression.or classes) :=
  bind (leaves classes) fun ts => bind (resolveEach ts .cls .null) fun cs => combine .or cs

theorem singleFiller (classes : List Term) : Unaffixed (Expression.singleFiller classes) := by
  refine bind (leaves classes) fun ts => ?_
  split
  · exact resolve _ .cls .null
  · exact throw _

/-- **Values of frames are made of references as they are given.** -/
theorem value (v : Service.Value) : Unaffixed v.run := by
  cases v with
  | some p ts => exact bind (restrictEach .some p ts) fun _ => pure _
  | only p ts => exact bind (restrictEach .only p ts) fun _ => pure _
  | someOnly p ts =>
    refine bind (bind (restrictEach .some p ts) fun _ => pure _) fun _ => bind (or ts) fun u => ?_
    exact bind (bind (restrictEach .only p [u]) fun _ => pure _) fun _ => pure _
  | and ts => exact bind (leaves ts) fun ts => bind (resolveEach ts .cls .null) fun cs => combine .and cs
  | or ts => exact or ts
  | not ts => exact bind (singleFiller ts) fun c => expression .not [c] .null
  | count o n p ts =>
    refine bind ?_ fun b => ?_
    · unfold Expression.isNegative
      split
      case h_4 => exact throw _
      all_goals exact pure _
    · refine ite (bind (display n) fun _ => bind (throw _) fun _ => ?_) ?_
      all_goals exact bind (resolve p .objectProperty .null) fun p => bind (singleFiller ts) fun c => expression o _ n
  | oneOf ts =>
    refine bind (leaves ts) fun ts => bind (resolveEach ts .individual .null) fun is => ?_
    split
    · exact throw _
    · exact expression .oneOf _ .null
  | note p t language =>
    refine bind ?_ fun tag => bind (resolve p .annotationProperty .null) fun p => bind (note p t tag) fun _ => pure _
    unfold Expression.languageFor
    split
    · exact pure _
    · exact bind get fun _ => pure _
    · exact pure _
  | fact negated p t => exact pure _

end Unaffixed

end Act

end Authoring
