import Authoring.Proofs.Running
import Authoring.Reference

/-!
# Acts that raise no fault of an unknown frame

Only the check of the tags of an entity reports an unknown frame. Reading references and making annotations does not,
unless a delayed expression does (`Env.Discerning`): an act *discerns* if it never raises that fault, and what an act of
many steps raises is read off its text.
-/

namespace Authoring

/-- No delayed expression raises the fault of an unknown frame. -/
def Env.Discerning (env : Env) : Prop :=
  ∀ body bound c w tag shown kind, (env.eval body bound c w).1 ≠ .error (.unknownFrame tag shown kind)

namespace Act

variable {env : Env} {α β : Type}

/-- An act that raises no fault of an unknown frame. -/
def Discerns (env : Env) (x : Act α) : Prop :=
  ∀ w tag shown kind, (x env w).1 ≠ .error (.unknownFrame tag shown kind)

namespace Discerns

/-- The fault that such an act ends with. -/
theorem ne_unknownFrame {x : Act α} {w w' : World} {f : Fault} (h : Discerns env x) (hx : x env w = (.error f, w'))
    (tag : Term) (shown : String) (kind : Option String) : f ≠ .unknownFrame tag shown kind := by
  rintro rfl
  exact h w tag shown kind (congrArg Prod.fst hx)

theorem pure (a : α) : Discerns env (Pure.pure a : Act α) := nofun

theorem throw {f : Fault} (h : ∀ tag shown kind, f ≠ .unknownFrame tag shown kind) :
    Discerns env (throw f : Act α) := by
  intro w tag shown kind heq
  exact h tag shown kind (Except.error.inj heq)

theorem get : Discerns env (MonadState.get : Act World) := nofun

theorem bind {x : Act α} {f : α → Act β} (hx : Discerns env x) (hf : ∀ a, Discerns env (f a)) :
    Discerns env (x >>= f) := by
  intro w tag shown kind
  have hx := hx w tag shown kind
  rw [run_bind]
  rcases h : x env w with ⟨e | a, w₁⟩
  · rw [h] at hx
    intro heq
    cases heq
    exact hx rfl
  · exact hf a w₁ tag shown kind

theorem ite {p : Prop} [Decidable p] {x y : Act α} (hx : Discerns env x) (hy : Discerns env y) :
    Discerns env (if p then x else y) := by
  split
  · exact hx
  · exact hy

theorem display (t : Term) : Discerns env (display t) := nofun

theorem refuse (expected : String) (t : Term) : Discerns env (refuse expected t : Act α) :=
  bind nofun fun _ => throw nofun

theorem requireStable (t : Term) : Discerns env (requireStable t) := ite (pure _) (throw nofun)

theorem iriOf (t : Term) : Discerns env (iriOf t) := by
  unfold Act.iriOf
  split
  · exact pure _
  · exact bind get fun _ => pure _
  · exact throw nofun

theorem applyNaming (rule : NamingRule) (name : Term) : Discerns env (applyNaming rule name) := by
  unfold Act.applyNaming
  cases rule.fails with
  | some message => exact bind (throw nofun) fun _ => by cases name.content? <;> nofun
  | none =>
    cases name.content? with
    | none => exact throw nofun
    | some s => exact pure _

theorem runHook (name : String) (fails : Bool) (removed : Term) : Discerns env (runHook name fails removed) := by
  unfold Act.runHook
  refine bind ?_ fun id => bind get fun w => bind nofun fun _ => ite (throw nofun) (pure _)
  unfold asOntology
  split
  · exact pure _
  · exact throw nofun

theorem invoke (h : env.Discerning) (callee : Term) (args : List Term) : Discerns env (invoke callee args) := by
  unfold Act.invoke
  split
  · exact fun w => h _ _ _ w
  · exact fun w => h _ _ _ w
  · exact applyNaming _ _
  · exact runHook _ _ _
  · exact throw nofun

theorem orGiven (t : Term) : Discerns env (Current.orGiven t) := by
  have spaceOr : ∀ t, Discerns env (Current.spaceOr t) :=
    fun t => bind nofun fun _ => ite (pure t) (bind nofun fun _ => pure _)
  have registered : ∀ t, Discerns env (Current.registered t) :=
    fun t => bind (spaceOr t) fun s => bind (requireStable s) fun _ => bind get fun _ => pure _
  unfold Current.orGiven
  split
  · unfold Current.ontology
    refine bind nofun fun _ => ?_
    dsimp only
    split
    · refine bind (registered _) fun _ => ?_
      split
      · exact bind (spaceOr _) fun _ => bind (display _) fun _ => throw nofun
      · exact pure _
    · exact pure _
  · exact pure _

theorem options (t : Term) : Discerns env (Current.options t) := by
  unfold Current.options
  refine bind (orGiven t) fun o => bind (requireStable o) fun _ => bind get fun w => ?_
  split
  · exact pure _
  · exact bind nofun fun _ => pure _

theorem iriForName (h : env.Discerning) (name ontology : Term) : Discerns env (Current.iriForName name ontology) := by
  unfold Current.iriForName
  refine bind (orGiven ontology) fun o => bind (options o) fun id => bind get fun w => ?_
  split
  · exact bind (iriOf o) fun _ => bind get fun _ => bind (display name) fun _ => pure _
  · exact bind (invoke h _ _) fun t => display t

/-- Reading a reference raises no fault of an unknown frame, unless a producer does. -/
theorem resolve (h : env.Discerning) (t : Term) (kind : EntityKind) (ontology : Term) (maker : Nat) :
    Discerns env (Reference.resolve t kind ontology maker) := by
  have forceWithin : ∀ n t, Discerns env (Reference.forceWithin n t) := by
    intro n
    induction n with
    | zero =>
      intro t
      unfold Reference.forceWithin
      exact ite (throw nofun) (pure _)
    | succ n ih =>
      intro t
      unfold Reference.forceWithin
      exact ite (bind (invoke h t []) fun u => ih u) (pure _)
  refine bind (bind nofun fun _ => forceWithin _ t) fun u => ?_
  unfold Reference.denote
  split
  · exact pure _
  · exact pure _
  · exact bind (display u) fun _ => pure _
  · exact bind (iriForName h u ontology) fun _ => pure _
  · exact refuse _ u
  · exact refuse _ u

theorem note (property t language : Term) : Discerns env (Factory.note property t language) := by
  unfold Factory.note
  split
  · exact pure _
  · unfold Factory.literal Factory.languageOf
    refine bind (bind ?_ fun tag => ?_) fun _ => pure _
    · split
      · exact pure _
      · exact pure _
      · split
        · exact throw nofun
        · exact ite (bind (display _) fun _ => bind nofun fun _ => pure _) (bind (display _) fun _ => throw nofun)
    · split
      · exact pure _
      · exact pure _
      · exact pure _
      · exact bind (display t) fun _ => pure _

end Discerns

end Act

end Authoring
