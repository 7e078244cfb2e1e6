import Authoring.Probe
import Authoring.Proofs.Service
import Authoring.Proofs.Running

/-!
# Scopes and the variables that they set

An act is given its context, so nothing has to be put back when a scope is left (`Scope.run`). What the scopes set can
also be kept in variables that all share. A scope then sets a variable to a new value when it is entered, and when it is
left by any path it sets the variable to what it held before (`Ambient.rebind`). Here the scopes run in this way, around
plans of arbitrary steps (`Plan.perform`).

**The variables are restored** (`Plan.perform_restores`). Whenever a scope is left, all variables hold what they held
just before it was entered: after its body has ended or failed, after a failure of its own work on leaving it, and after
a failure to enter it. A run takes down the contexts before and after each scope, so that this is said of every scope
that a plan comes through, however deep it is nested. And a plan does in the variables what it does in a context that is
given to it.

**What carries the proof.** `Ambient.Follows` compares the two ways of running in one context. It has a rule for each
way of building acts; that of `rebind` sets a variable back, and the others leave the variables alone. The induction is
on the plan, with one lemma for all scopes but those of probes (`Service.Block.perform_follows`), and one for these
(`Ambient.probing_follows`).
-/

namespace Authoring

open Act

/-! ## Scopes that have been opened -/

namespace Scope

variable {α : Type}

/-- What is done inside a scope that has been opened, and on leaving it. -/
def inside (body : Term → Act α) (entered : Entered) : Act α := do
  match ← attempt (within (fun _ => entered.context) (body entered.yields)) with
  | .ok a =>
    entered.leave none
    return a
  | .error f =>
    entered.leave (some f)
    throw f

theorem run_eq (opening : Act Entered) (body : Term → Act α) : run opening body = opening >>= inside body := rfl

theorem inside_pure (c : Context) (t : Term) (body : Term → Act α) :
    inside body (pure c t) = within (fun _ => c) (body t) := by
  funext env w
  rw [inside, run_bind, run_attempt]
  simp only [run_within, pure]
  rcases body t { env with context := c } w with ⟨_ | _, _⟩ <;> rfl

/-- Work that is done only on success follows the body as in a sequence. -/
theorem inside_onSuccess (c : Context) (t : Term) (work : Act Unit) (body : Term → Act α) :
    inside body ⟨c, t, onSuccess work⟩ = (do
      let a ← within (fun _ => c) (body t)
      work
      return a) := by
  funext env w
  rw [inside, run_bind, run_bind, run_attempt]
  simp only [run_within]
  rcases body t { env with context := c } w with ⟨_ | _, _⟩ <;> rfl

end Scope

/-! ## Variables -/

/-- The variables of a context. -/
inductive Var where
  | ontology | space | window | defaults | affixes

/-- What a variable holds. -/
def Var.Value : Var → Type
  | ontology | space => Term
  | window => Option Nat
  | defaults => Option FrameMap
  | affixes => String × String

namespace Context

def value (c : Context) : (x : Var) → x.Value
  | .ontology => c.ontology
  | .space => c.space
  | .window => c.window
  | .defaults => c.defaults
  | .affixes => c.affixes

def assign (c : Context) : (x : Var) → x.Value → Context
  | .ontology, v => { c with ontology := v }
  | .space, v => { c with space := v }
  | .window, v => { c with window := v }
  | .defaults, v => { c with defaults := v }
  | .affixes, v => { c with affixes := v }

@[simp] theorem value_assign (c : Context) (x : Var) (v : x.Value) : (c.assign x v).value x = v := by cases x <;> rfl

@[simp] theorem assign_value (c : Context) (x : Var) : c.assign x (c.value x) = c := by cases x <;> rfl

@[simp] theorem assign_assign (c : Context) (x : Var) (u v : x.Value) : (c.assign x u).assign x v = c.assign x v := by
  cases x <;> rfl

end Context

/-- What the variables held just before a scope was entered, and when it had been left. -/
structure Exit where
  before : Context
  after : Context

/-- What the variables hold now, the world, and the scopes that have been left. -/
structure Moment where
  context : Context
  world : World
  exits : List Exit

/-- What is done with the variables. The context that the environment has is not looked at. -/
abbrev Ambient := ReaderT Env (ExceptT Fault (StateM Moment))

namespace Ambient

variable {α β : Type}

/-- An act, in the context that the variables hold. -/
def act (x : Act α) : Ambient α := fun env m =>
  let (r, w) := x { env with context := m.context } m.world
  (r, { m with world := w })

/-- Keeps a fault as a value. -/
def attempt (x : Ambient α) : Ambient (Except Fault α) := fun env m =>
  let (r, m') := x env m
  (.ok r, m')

/-- Sets a variable, and answers with what it held. -/
def swap (x : Var) (v : x.Value) : Ambient x.Value := do
  let m ← get
  set { m with context := m.context.assign x v }
  return m.context.value x

/-- Sets a variable back. -/
def reset (x : Var) (token : x.Value) : Ambient Unit :=
  modify fun m => { m with context := m.context.assign x token }

/-- **Sets a variable for a body**, and sets it back when the body is left by any path. -/
def rebind (x : Var) (v : x.Value) (body : Ambient α) : Ambient α := do
  let token ← swap x v
  let outcome ← attempt body
  reset x token
  ofExcept outcome

/-- Takes down what the variables hold before something and after it. -/
def watched (x : Ambient α) : Ambient α := fun env m =>
  let (r, m') := x env m
  (r, { m' with exits := m'.exits ++ [⟨m.context, m'.context⟩] })

end Ambient

/-! ## Scopes in the variables -/

open Ambient

section
variable {α : Type}

/-- Runs a body inside a scope. A group scope is a collection, and does its work after that. -/
def Service.Block.perform (body : Term → Ambient α) : Service.Block → Ambient α
  | ontology t => rebind .ontology t (body t)
  | space t => rebind .space t (body t)
  | collection => do
    let id ← act Window.openNew
    rebind .window (some id) (body (.handle (.window id)))
  | defaults frames => do
    let m := FrameMap.normalize (← act (framesOf (← act (entriesOf frames))))
    rebind .defaults (some m) (body m.toTerm)
  | lead t => do
    let (before, after) := (← act context).affixes
    let s ← act (Scope.affix t)
    rebind .affixes (before ++ s, after) (body .null)
  | trail t => do
    let (before, after) := (← act context).affixes
    let s ← act (Scope.affix t)
    rebind .affixes (before, s ++ after) (body .null)
  | disjoint t => do
    let o ← act (Current.orGiven t)
    let id ← act Window.openNew
    let a ← rebind .window (some id) (body (.handle (.window id)))
    act do let _ ← Builder.disjointClasses (← Scope.collected id) o
    return a
  | inverse t => do
    let o ← act (Current.orGiven t)
    let id ← act Window.openNew
    let a ← rebind .window (some id) (body (.handle (.window id)))
    act do Scope.relateInverses (← Scope.collected id) o
    return a
  | subclasses super asDisjoint asCover t => do
    let o ← act (Current.orGiven t)
    let c ← act (Reference.resolveClass super o)
    let id ← act Window.openNew
    let m := FrameMap.normalize [(Term.ofTag .subclass, c)]
    let a ← rebind .window (some id) (rebind .defaults (some m) (body (.handle (.window id))))
    act do
      if ← isTruthy asDisjoint then
        let _ ← Builder.disjointClasses (← Scope.collected id) o
      if ← isTruthy asCover then Scope.coverBy c (← Scope.collected id) o
    return a

/-- Runs a body inside a scope of probes, which are bound by `bindAll`. They are removed whatever has failed. -/
def Ambient.probing (remover : Term → Term → Act Unit) (bindAll : Ambient (Probe.Bound × Option Fault))
    (ontology : Term) (body : Term → Ambient α) : Ambient α := do
  let o ← act (Current.orGiven ontology)
  let (bound, fault) ← bindAll
  let outcome ← match fault with
    | some f => pure (.error f)
    | none => attempt (body (.map bound))
  match outcome with
  | .ok a =>
    act (Probe.cleanUp (remover · o) bound none)
    return a
  | .error f =>
    act (Probe.cleanUp (remover · o) bound (some f))
    throw f

end

/-! ## Plans -/

mutual
/-- **A plan**: steps and scopes, each of which may use what those before it have answered. A step is an arbitrary act.
A part of a plan can be caught, so that what comes next goes on after its fault. The body of a scope is a plan that is
given what the scope yields; so are the constructors of probes, given the probes that are bound. Probes may be removed in
any way: those of `Probe.withEntities` by `Probe.removeEntity`, those of `Probe.withAxioms` by `Probe.removeAxiom`. -/
inductive Plan where
  | done (answer : Term)
  | step (x : Act Term) (next : Term → Plan)
  | caught (part : Plan) (next : Except Fault Term → Plan)
  | scope (b : Service.Block) (body next : Term → Plan)
  | probes (remover : Term → Term → Act Unit) (bindings : Probes) (ontology : Term) (body next : Term → Plan)
/-- Probes that are bound in order, each with its name. -/
inductive Probes where
  | nil
  | cons (name : Act Term) (construct : Probe.Bound → Plan) (rest : Probes)
end

mutual
/-- Runs a plan in the context that is given. -/
def Plan.run : Plan → Act Term
  | .done t => pure t
  | .step x next => do (next (← x)).run
  | .caught part next => do (next (← Act.attempt part.run)).run
  | .scope b body next => do (next (← Scope.run b.enter fun t => (body t).run)).run
  | .probes remover bindings ontology body next => do
    (next (← Scope.run (Probe.scope remover bindings.list ontology) fun t => (body t).run)).run
def Probes.list : Probes → List Probe.Binding
  | .nil => []
  | .cons name construct rest => (do return (← name, fun bound => (construct bound).run)) :: rest.list
end

mutual
/-- **Runs a plan in the variables**, and takes down each of its scopes. -/
def Plan.perform : Plan → Ambient Term
  | .done t => pure t
  | .step x next => do (next (← act x)).perform
  | .caught part next => do (next (← attempt part.perform)).perform
  | .scope b body next => do (next (← watched (b.perform fun t => (body t).perform))).perform
  | .probes remover bindings ontology body next => do
    (next (← watched (probing remover (bindings.performAll []) ontology fun t => (body t).perform))).perform
def Probes.performAll (bound : Probe.Bound) : Probes → Ambient (Probe.Bound × Option Fault)
  | .nil => return (bound, none)
  | .cons name construct rest => do
    let bind := do
      let s ← act name
      let value ← (construct bound).perform
      act (requireStable s)
      return Keyed.put s value bound
    match ← attempt bind with
    | .ok bound' => rest.performAll bound'
    | .error f => return (bound, some f)
end

/-! ## The two ways of running -/

/-- **In a context `c`, `x` follows `y`**: run with the variables at `c` it does what `y` does in that context, it
leaves the variables at `c`, and each scope that it comes through leaves them at what it has found. -/
def Ambient.Follows {α : Type} (c : Context) (x : Ambient α) (y : Act α) : Prop :=
  ∀ (env : Env) (w : World) (es : List Exit), ∃ left, (∀ e ∈ left, e.after = e.before) ∧
    x env ⟨c, w, es⟩ =
      ((y { env with context := c } w).1, ⟨c, (y { env with context := c } w).2, es ++ left⟩)

namespace Ambient

variable {α β : Type} {c : Context}

theorem run_bind (x : Ambient α) (f : α → Ambient β) (env : Env) (m : Moment) :
    (x >>= f) env m =
      match x env m with
      | (.ok a, m') => f a env m'
      | (.error e, m') => (.error e, m') := by
  show ExceptT.bindCont (fun a => f a env) (x env m).1 (x env m).2 = _
  rcases x env m with ⟨_ | _, _⟩ <;> rfl

theorem run_rebind (x : Var) (v : x.Value) (body : Ambient α) (env : Env) (m : Moment) :
    rebind x v body env m =
      let (r, m') := body env { m with context := m.context.assign x v }
      (r, { m' with context := m'.context.assign x (m.context.value x) }) := by
  show (attempt body >>= fun outcome => reset x (m.context.value x) >>= fun _ => ofExcept outcome) env _ = _
  rw [run_bind, attempt]
  rcases body env { m with context := m.context.assign x v } with ⟨_ | _, _⟩ <;> rfl

/-- Whatever a body does to the variables, the one that was set for it holds afterwards what it held before. -/
theorem value_rebind (x : Var) (v : x.Value) (body : Ambient α) (env : Env) (m : Moment) :
    (rebind x v body env m).2.context.value x = m.context.value x := by
  rw [run_rebind]
  exact Context.value_assign ..

namespace Follows

variable {x : Ambient α} {y : Act α}

/-- What leaves the variables and comes through no scope. -/
theorem of_eq (h : ∀ env w es, x env ⟨c, w, es⟩ =
    ((y { env with context := c } w).1, ⟨c, (y { env with context := c } w).2, es⟩)) : Follows c x y := by
  intro env w es
  exact ⟨[], List.forall_mem_nil _, by rw [h, List.append_nil]⟩

theorem pure (a : α) : Follows c (Pure.pure a) (Pure.pure a) := of_eq fun _ _ _ => rfl

theorem throw (f : Fault) : Follows c (MonadExcept.throw f : Ambient α) (MonadExcept.throw f) := of_eq fun _ _ _ => rfl

theorem act (y : Act α) : Follows c (Ambient.act y) y := of_eq fun _ _ _ => rfl

theorem bind {f : α → Ambient β} {g : α → Act β} (hx : Follows c x y) (hf : ∀ a, Follows c (f a) (g a)) :
    Follows c (x >>= f) (y >>= g) := by
  intro env w es
  obtain ⟨left, hleft, hrun⟩ := hx env w es
  rw [run_bind, Act.run_bind, hrun]
  rcases y { env with context := c } w with ⟨e | a, w'⟩
  · exact ⟨left, hleft, rfl⟩
  · obtain ⟨left', hleft', hrun'⟩ := hf a env w' (es ++ left)
    refine ⟨left ++ left', fun e he => (List.mem_append.mp he).elim (hleft e) (hleft' e), ?_⟩
    rw [← List.append_assoc]
    exact hrun'

section
variable {γ : Type} {k : γ → Act α}

/-- What is done on entering a scope. -/
theorem entering (y : Act β) {f : β → Ambient α} {g : β → Act γ} (h : ∀ b, Follows c (f b) (g b >>= k)) :
    Follows c (Ambient.act y >>= f) ((y >>= g) >>= k) := by
  rw [bind_assoc]
  exact .bind (.act y) h

/-- The context that is read on entering a scope is what the variables hold. -/
theorem context {f : Context → Ambient α} {g : Context → Act γ} (h : Follows c (f c) (g c >>= k)) :
    Follows c (Ambient.act Act.context >>= f) ((Act.context >>= g) >>= k) := by
  rw [bind_assoc]
  exact h

/-- Nothing has to be read to set a variable. -/
theorem reading {g : Context → Act γ} (h : Follows c x (g c >>= k)) : Follows c x ((Act.context >>= g) >>= k) := by
  rw [bind_assoc]
  exact h

end

theorem attempt (h : Follows c x y) : Follows c (Ambient.attempt x) (Act.attempt y) := by
  intro env w es
  obtain ⟨left, hleft, hrun⟩ := h env w es
  exact ⟨left, hleft, by rw [Ambient.attempt, hrun]; rfl⟩

/-- **A variable that is set for a body holds afterwards what it held before.** -/
theorem rebind {v : Var} {a : v.Value} (h : Follows (c.assign v a) x y) :
    Follows c (Ambient.rebind v a x) (within (fun _ => c.assign v a) y) := by
  intro env w es
  obtain ⟨left, hleft, hrun⟩ := h env w es
  refine ⟨left, hleft, ?_⟩
  rw [run_rebind, hrun]
  simp only [Context.assign_assign, Context.assign_value]
  rfl

/-- A scope that leaves the variables is taken down as such. -/
theorem watched (h : Follows c x y) : Follows c (Ambient.watched x) y := by
  intro env w es
  obtain ⟨left, hleft, hrun⟩ := h env w es
  refine ⟨left ++ [⟨c, c⟩], fun e he => ?_, ?_⟩
  · rcases List.mem_append.mp he with he | he
    · exact hleft e he
    · rw [List.mem_singleton.mp he]
  · rw [Ambient.watched, hrun, ← List.append_assoc]

end Follows

end Ambient

/-! ## Scopes follow their openings -/

section
variable {α : Type} {body : Term → Ambient α} {body' : Term → Act α}

/-- **A scope in the variables follows its opening**: what it sets is what the opened scope has in its context. -/
theorem Service.Block.perform_follows (h : ∀ c t, Ambient.Follows c (body t) (body' t)) (b : Service.Block)
    (c : Context) : Ambient.Follows c (b.perform body) (Scope.run b.enter body') := by
  rw [Scope.run_eq]
  cases b with
  | ontology t | space t =>
    refine .reading ?_
    rw [pure_bind, Scope.inside_pure]
    exact .rebind (h _ t)
  | collection =>
    refine .entering _ fun id => .reading ?_
    rw [pure_bind, Scope.inside_pure]
    exact .rebind (h _ _)
  | defaults frames =>
    refine .entering _ fun es => .entering _ fun fs => .reading ?_
    rw [pure_bind, Scope.inside_pure]
    exact .rebind (h _ _)
  | lead t | trail t =>
    refine .context (.entering _ fun s => ?_)
    rw [pure_bind, Scope.inside_pure]
    exact .rebind (h _ _)
  | disjoint t | inverse t =>
    refine .entering _ fun o => .entering _ fun id => .reading ?_
    rw [pure_bind, Scope.inside_onSuccess]
    exact .bind (.rebind (h _ _)) fun a => .bind (.act _) fun _ => .pure a
  | subclasses super asDisjoint asCover t =>
    refine .entering _ fun o => .entering _ fun cls => .entering _ fun id => .reading ?_
    rw [pure_bind, Scope.inside_onSuccess]
    -- two variables are set, and set back in the other order
    exact .bind (.rebind (.rebind (h _ _))) fun a => .bind (.act _) fun _ => .pure a

/-- **A scope of probes follows its opening**, if binding them does. -/
theorem Ambient.probing_follows {c : Context} {binding : Ambient (Probe.Bound × Option Fault)}
    {bindings : List Probe.Binding} (hbind : Ambient.Follows c binding (Probe.bindAll [] bindings))
    (h : ∀ t, Ambient.Follows c (body t) (body' t)) (remover : Term → Term → Act Unit) (ontology : Term) :
    Ambient.Follows c (Ambient.probing remover binding ontology body)
      (Scope.run (Probe.scope remover bindings ontology) body') := by
  rw [Scope.run_eq]
  refine .entering _ fun o => ?_
  rw [bind_assoc]
  refine .bind hbind fun r => ?_
  obtain ⟨bound, fault⟩ := r
  cases fault with
  | some f =>
    show Follows c (do act (Probe.cleanUp (remover · o) bound (some f)); throw f)
      ((do Probe.cleanUp (remover · o) bound (some f); throw f) >>= Scope.inside body')
    rw [bind_assoc]
    exact .bind (.act _) fun _ => .of_eq fun _ _ _ => rfl
  | none =>
    show Follows c _ ((do return ⟨← context, .map bound, Probe.cleanUp (remover · o) bound⟩) >>= Scope.inside body')
    refine .reading ?_
    rw [pure_bind]
    refine .bind (.attempt (h _)) fun outcome => ?_
    cases outcome with
    | ok a => exact .bind (.act _) fun _ => .pure a
    | error f => exact .bind (.act _) fun _ => .throw f

end

/-! ## Plans restore the variables -/

mutual
theorem Plan.perform_follows : ∀ (p : Plan) (c : Context), Ambient.Follows c p.perform p.run
  | .done t, _ => .pure t
  | .step x next, c => .bind (.act x) fun t => (next t).perform_follows c
  | .caught part next, c => .bind (.attempt (part.perform_follows c)) fun r => (next r).perform_follows c
  | .scope b body next, c =>
    .bind (.watched (b.perform_follows (fun c' t => (body t).perform_follows c') c)) fun t =>
      (next t).perform_follows c
  | .probes remover bindings ontology body next, c =>
    .bind (.watched (Ambient.probing_follows (bindings.performAll_follows c [])
      (fun t => (body t).perform_follows c) remover ontology)) fun t => (next t).perform_follows c
theorem Probes.performAll_follows : ∀ (ps : Probes) (c : Context) (bound : Probe.Bound),
    Ambient.Follows c (ps.performAll bound) (Probe.bindAll bound ps.list)
  | .nil, _, bound => .pure (bound, none)
  | .cons name construct rest, c, bound => by
    rw [Probes.list, Probe.bindAll, Probe.bind, bind_assoc]
    refine .bind (.attempt ?_) fun r => ?_
    · refine .bind (.act _) fun s => ?_
      rw [pure_bind]
      refine .bind ((construct bound).perform_follows c) fun value => ?_
      exact .bind (.act _) fun _ => .pure _
    · cases r with
      | ok bound' => exact rest.performAll_follows c bound'
      | error f => exact .pure (bound, some f)
end

/-- **Scopes restore the variables.** Whenever a plan leaves a scope, by whatever path, all variables hold what they
held just before the scope was entered, and in the end they hold what they held in the beginning. And in the variables
the plan has the outcome and the world that it has in the context that they held. -/
theorem Plan.perform_restores (p : Plan) (env : Env) (c : Context) (w : World) :
    let r := p.perform env ⟨c, w, []⟩
    (∀ e ∈ r.2.exits, e.after = e.before) ∧ r.2.context = c ∧
      p.run { env with context := c } w = (r.1, r.2.world) := by
  obtain ⟨left, hleft, hrun⟩ := p.perform_follows c env w []
  rw [hrun]
  exact ⟨hleft, rfl, rfl⟩

/-- Three scopes that are left by a fault, inside one that is left without: the body of the first fails, the second
cannot be entered, and the third fails in its own work, since it has collected nothing. -/
def Plan.faulty : Plan :=
  .scope (.ontology (.handle (.ontology 0)))
    (fun o =>
      .caught (.scope .collection (fun _ => .step (throw .wrongSort) .done) .done) fun _ =>
      .caught (.scope (.trail .null) (fun _ => .done .null) .done) fun _ =>
      .caught (.scope (.inverse o) (fun _ => .done .null) .done) fun _ => .done o)
    .done

example : (Plan.faulty.perform .plain ⟨.outermost, .single, []⟩).2.exits.length = 4 := by decide +kernel

end Authoring
