import Authoring.Proofs.Alike
import Authoring.Proofs.Invariant.Service

/-!
# Aspects of acts

Much that can be said of an act in an environment and a world is read off its text: it holds of whatever only looks at
the world, it holds of a sequence if it holds of the parts, and there are a few acts at the bottom of which it has to be
known. Such a property is an `Aspect` of acts. What the authoring layer does is put together from these acts at the
bottom, so every operation of it has every aspect (`Service.Call.run_does`).

To *look* is to read something of the world other than which ontology is current (`Act.Looks`): what is looked at does
not depend on the ontology that is bound, the current namespace and the registrations. An operation that is given an
ontology looks, and so it asks nothing of an aspect that the current ontology be found. This is asked only where an
operation may be given none (`Aspect.ambient`).

**What carries the proof.** An act `Does` what is said of it if it upholds an invariant of the layer and has an aspect
wherever the invariant is true. The invariant supplies what has to be known of the values on the way; the lemmas on
`Upholds` are used for that, and only the aspect is walked through again.

**What is assumed.** Evaluating a delayed expression that may be called has the aspect (`Env.Supports`).
-/

namespace Authoring

/-! ## The same in other surroundings -/

/-- The world with other registrations. -/
def World.under (w : World) (namespaces : List (Term × Term)) : World := { w with namespaces := namespaces }

/-- The environment where another ontology is bound, and another namespace is current. -/
def Env.under (env : Env) (ontology space : Term) : Env :=
  { env with context := { env.context with ontology := ontology, space := space } }

namespace World

variable {w : World} {namespaces : List (Term × Term)}

theorem contents_under (deep : Bool) (n id : Nat) : (w.under namespaces).contents deep n id = w.contents deep n id := by
  induction n generalizing id with
  | zero => rfl
  | succ n ih =>
    rw [contents, contents, funext ih]
    rfl

/-- Windows hold the same, whatever is registered. -/
theorem settle_under (t : Term) : (w.under namespaces).settle t = w.settle t := by
  rw [settle, settle, funext (contents_under _ _)]
  rfl

theorem spread_under (t : Term) : (w.under namespaces).spread t = w.spread t := by
  rw [spread, spread, funext (contents_under _ _)]
  rfl

end World

/-- **An act that looks**: it changes nothing, and what it finds does not depend on which ontology is current. -/
def Act.Looks (x : Act α) : Prop :=
  ∀ env w o s namespaces, x (env.under o s) (w.under namespaces) = ((x env w).1, w.under namespaces)

namespace Act.Looks

variable {α β γ : Type}

theorem reads {x : Act α} (h : Looks x) : Reads x := fun env w =>
  congrArg Prod.snd (h env w env.context.ontology env.context.space w.namespaces :)

theorem pure (a : α) : Looks (Pure.pure a : Act α) := fun _ _ _ _ _ => rfl

theorem throw (e : Fault) : Looks (throw e : Act α) := fun _ _ _ _ _ => rfl

theorem bind {x : Act α} {f : α → Act β} (hx : Looks x) (hf : ∀ a, Looks (f a)) : Looks (x >>= f) := by
  intro env w o s namespaces
  have hread := hx.reads env w
  rw [run_bind, run_bind, hx env w o s namespaces]
  rcases h : x env w with ⟨e | a, w₁⟩
  · rfl
  · rw [h] at hread
    subst hread
    exact hf a env w₁ o s namespaces

/-- What is done with what is read of the world. -/
theorem reading (f : World → γ) {k : γ → Act β} (h : ∀ w namespaces, f (w.under namespaces) = f w)
    (hk : ∀ c, Looks (k c)) : Looks (do k (f (← get))) := by
  intro env w o s namespaces
  show k (f (w.under namespaces)) (env.under o s) (w.under namespaces) = ((k (f w) env w).1, _)
  rw [h]
  exact hk (f w) env w o s namespaces

/-- What is read of the world. -/
theorem see (f : World → α) (h : ∀ w namespaces, f (w.under namespaces) = f w) : Looks (do return f (← get)) :=
  reading f h pure

theorem ite {p : Prop} [Decidable p] {x y : Act α} (hx : Looks x) (hy : Looks y) : Looks (if p then x else y) := by
  split
  · exact hx
  · exact hy

theorem forM {f : γ → Act PUnit} {l : List γ} (h : ∀ c, Looks (f c)) : Looks (l.forM f) := by
  induction l with
  | nil => exact pure _
  | cons c l ih => exact bind (h c) fun _ => ih

/-! ### The parts of terms -/

theorem settle (t : Term) : Looks (Act.settle t) := see (fun w => w.settle t) fun _ _ => World.settle_under t

theorem isTruthy (t : Term) : Looks (Act.isTruthy t) := bind (settle t) fun _ => pure _

theorem inspect (t : Term) : Looks (Act.inspect t) :=
  bind (settle t) fun u => see (fun w => u.inspect w.names) fun _ _ => rfl

theorem display (t : Term) : Looks (Act.display t) :=
  bind (settle t) fun u => see (fun w => u.display w.names) fun _ _ => rfl

theorem refuse (s : String) (t : Term) : Looks (Act.refuse s t : Act α) := bind (inspect t) fun _ => throw _

theorem requireStable (t : Term) : Looks (Act.requireStable t) := ite (pure _) (throw _)

theorem requireFindable (t : Term) : Looks (Act.requireFindable t) := by
  unfold Act.requireFindable
  split
  · exact pure _
  · exact requireStable _

theorem asOntology (t : Term) : Looks (Act.asOntology t) := by
  unfold Act.asOntology
  split
  · exact pure _
  · exact throw _

theorem iriOf (t : Term) : Looks (Act.iriOf t) := by
  unfold Act.iriOf
  split
  · exact pure _
  next id => exact see (fun w => (w.ontology id).iri) fun _ _ => rfl
  · exact throw _

theorem kindOf (t : Term) : Looks (Act.kindOf t) := by
  unfold Act.kindOf
  split
  · exact pure _
  · exact pure _
  · exact throw _

theorem entityKindOf (t : Term) : Looks (Act.entityKindOf t) := by
  refine bind (kindOf t) fun k => ?_
  split
  · exact pure _
  · exact throw _

theorem itemsOf (t : Term) : Looks (Act.itemsOf t) := by
  unfold Act.itemsOf
  split
  case h_6 id => exact see (fun w => [field "iri_gen" (w.namingOf id)]) fun _ _ => rfl
  case h_7 id => exact see (fun w => w.window id) fun _ _ => rfl
  case h_8 =>
    split
    · exact pure _
    · exact throw _
  all_goals exact pure _

theorem contains (container t : Term) : Looks (Act.contains container t) := by
  refine bind (settle t) fun t => bind (settle container) fun c => ?_
  split
  · exact bind (requireFindable t) fun _ => pure _
  · exact bind (requireStable t) fun _ => pure _
  · split
    · exact pure _
    · exact throw _
    · exact bind (itemsOf _) fun _ => pure _

theorem pairOf (t : Term) : Looks (Act.pairOf t) := by
  refine bind (itemsOf t) fun ts => ?_
  split
  · exact pure _
  all_goals exact throw _

theorem leaves (ts : List Term) : Looks (Act.leaves ts) := by
  refine see (fun w => Term.flattenAll (ts.map w.spread)) fun w namespaces => ?_
  rw [List.map_congr_left fun t _ => World.spread_under t]

theorem framesOf (es : List (Term × Term)) : Looks (Act.framesOf es) := by
  refine see (fun w => es.map fun e => (e.1, w.spread e.2)) fun w namespaces => List.map_congr_left fun e _ => ?_
  rw [World.spread_under]

theorem entriesOf (t : Term) : Looks (Act.entriesOf t) := by
  unfold Act.entriesOf
  split
  · exact pure _
  · exact bind (isTruthy _) fun _ => ite (throw _) (pure _)

theorem applyNaming (rule : NamingRule) (name : Term) : Looks (Act.applyNaming rule name) := by
  unfold Act.applyNaming
  cases rule.fails with
  | some => exact bind (throw _) fun _ => by cases name.content? <;> first | exact throw _ | exact pure _
  | none => cases name.content? <;> first | exact throw _ | exact pure _

end Act.Looks

open Act

/-! ## Aspects -/

/-- **An aspect of acts**: something that can be said of an act in an environment and a world, and is read off the text
of the act. -/
structure Aspect (π : Policy) (I : World → Prop) where
  /-- What is said of an act. -/
  Holds : {α : Type} → Env → Act α → World → Prop
  /-- Whether it can be said of finding the current ontology. -/
  ambient : Prop
  looks {α : Type} {x : Act α} (h : Looks x) (env : Env) (w : World) : Holds env x w
  bind {α β : Type} {x : Act α} {f : α → Act β} {env : Env} {w : World} (hx : Holds env x w)
    (hf : ∀ a w₁, x env w = (.ok a, w₁) → Holds env (f a) w₁) : Holds env (x >>= f) w
  current (h : ambient) (env : Env) (w : World) : Holds env (Current.ontology .null) w
  options {o : Term} (ho : o ≠ .null) (env : Env) (w : World) : Holds env (Current.options o) w
  /-- A remove hook of a script writes to the log. -/
  log (entry : String) (env : Env) (w : World) :
    Holds env (modify fun w => { w with log := w.log ++ [entry] } : Act PUnit) w
  /-- No operation but a builder adds declarations. -/
  add {a : Axiom} (ha : a.kind ≠ .declaration) {o : Term} (ho : o ≠ .null) (env : Env) (w : World) :
    Holds env (Change.add a.toTerm o) w
  /-- A call of a builder, after it has been prepared. -/
  call {c : Builder.Call} {env : Env} {w : World} (hp : Holds env c.prepare w) : Holds env c.run w

section
variable {π : Policy} {I : World → Prop} {Φ : Aspect π I} {α β γ : Type} {P : α → Prop} {Q : β → Prop}

/-- What is assumed of an environment: evaluating a delayed expression that may be called has the aspect, in whatever
context that meets the policy. -/
def Env.Supports (env : Env) (Φ : Aspect π I) : Prop :=
  ∀ c : Context, c.Meets π → ∀ body, π.producers body → ∀ (bound : Term) (w : World), I w →
    Φ.Holds { env with context := c } (evaluate body bound) w

/-- What an operation is given as an ontology may be worked on, and it is found. -/
structure Aspect.Admits (Φ : Aspect π I) (t : Term) : Prop where
  target : π.Targets t
  found : t ≠ .null ∨ Φ.ambient

/-- What has been found may be given in turn. -/
theorem Aspect.Admits.of_found {o : Term} (ho : π.Targets o ∧ o ≠ .null) : Φ.Admits o := ⟨ho.1, .inl ho.2⟩

namespace Act

/-- **An act that has an aspect** wherever the invariant is true. -/
def Shows (Φ : Aspect π I) (x : Act α) : Prop :=
  ∀ env : Env, env.Serves π I → env.Supports Φ → ∀ w, I w → Φ.Holds env x w

/-- An act that upholds the invariant, has an aspect, and whose value has a property. -/
structure Does (Φ : Aspect π I) (x : Act α) (P : α → Prop) : Prop where
  upholds : Upholds π I x P
  shows : Shows Φ x

theorem Shows.of_looks {x : Act α} (h : Looks x) : Shows Φ x := fun env _ _ w _ => Φ.looks h env w

theorem Shows.bind {x : Act α} {f : α → Act β} (hx : Does Φ x P) (hf : ∀ a, P a → Shows Φ (f a)) :
    Shows Φ (x >>= f) := by
  intro env henv hs w hw
  refine Φ.bind (hx.shows env henv hs w hw) fun a w₁ hrun => ?_
  have hupholds := hx.upholds env henv w hw
  rw [hrun] at hupholds
  exact hf a (hupholds.2 a rfl) env henv hs w₁ hupholds.1

/-- What answers with something else in the end. -/
theorem Shows.andThen {x : Act α} (hx : Shows Φ x) (b : β) : Shows Φ (x >>= fun _ => Pure.pure b) :=
  fun env henv hs w hw => Φ.bind (hx env henv hs w hw) fun _ w₁ _ => Φ.looks (.pure b) env w₁

theorem Shows.ite {p : Prop} [Decidable p] {x y : Act α} (hx : p → Shows Φ x) (hy : ¬p → Shows Φ y) :
    Shows Φ (if p then x else y) := by
  split
  · exact hx ‹_›
  · exact hy ‹_›

namespace Does

theorem mono {R : α → Prop} {x : Act α} (h : Does Φ x P) (hPR : ∀ a, P a → R a) : Does Φ x R :=
  ⟨h.upholds.mono hPR, h.shows⟩

/-- What is known of every value that comes out may be used, too. -/
theorem knowing {R : α → Prop} {x : Act α} (h : Does Φ x P)
    (hR : ∀ env w a w', x env w = (.ok a, w') → R a) : Does Φ x fun a => P a ∧ R a := by
  refine ⟨fun env henv w hw => ?_, h.shows⟩
  obtain ⟨hkept, hvalue⟩ := h.upholds env henv w hw
  exact ⟨hkept, fun a ha => ⟨hvalue a ha, hR env w a _ (Prod.ext ha rfl)⟩⟩

theorem of_looks {x : Act α} (h : Looks x) : Does Φ x fun _ => True := ⟨.of_reads h.reads, .of_looks h⟩

theorem pure {a : α} (h : P a) : Does Φ (Pure.pure a) P := ⟨.pure h, .of_looks (.pure a)⟩

theorem throw {e : Fault} : Does Φ (throw e : Act α) P := ⟨.throw, .of_looks (.throw e)⟩

theorem refuse {s : String} {t : Term} : Does Φ (refuse s t : Act α) P := ⟨.refuse, .of_looks (.refuse s t)⟩

theorem bind {x : Act α} {f : α → Act β} (hx : Does Φ x P) (hf : ∀ a, P a → Does Φ (f a) Q) : Does Φ (x >>= f) Q :=
  ⟨.bind hx.upholds fun a ha => (hf a ha).upholds, .bind hx fun a ha => (hf a ha).shows⟩

theorem ite {p : Prop} [Decidable p] {x y : Act α} (hx : p → Does Φ x P) (hy : ¬p → Does Φ y P) :
    Does Φ (if p then x else y) P := by
  split
  · exact hx ‹_›
  · exact hy ‹_›

theorem mapM {f : γ → Act β} {l : List γ} (h : ∀ c ∈ l, Does Φ (f c) Q) : Does Φ (l.mapM f) fun bs => ∀ b ∈ bs, Q b := by
  refine ⟨.mapM fun c hc => (h c hc).upholds, ?_⟩
  induction l with
  | nil =>
    rw [List.mapM_nil]
    exact .of_looks (.pure _)
  | cons c l ih =>
    have htail : ∀ d ∈ l, Does Φ (f d) Q := fun d hd => h d (List.mem_cons_of_mem _ hd)
    rw [List.mapM_cons]
    refine .bind (h c List.mem_cons_self) fun b _ => ?_
    exact .bind ⟨.mapM fun d hd => (htail d hd).upholds, ih htail⟩ fun bs _ => .of_looks (.pure _)

end Does

end Act

/-! ## References -/

variable [Invariant π I] {t ontology : Term} {kind : EntityKind} {maker : Nat}

namespace Act

/-- Whatever is called, so long as it may be called. -/
theorem invoke_does {callee : Term} (hc : ∀ b ∈ callee.bodies, π.producers b) (args : List Term) :
    Does Φ (invoke callee args) (·.Meets π) := by
  refine ⟨.invoke hc args, ?_⟩
  have evaluated : ∀ {body : Expr} (bound : Term), body ∈ callee.bodies → Shows Φ (evaluate body bound) :=
    fun bound hbody env henv hs w hw => hs env.context henv.context _ (hc _ hbody) bound w hw
  unfold invoke
  split
  · exact evaluated _ (List.mem_singleton.mpr rfl)
  · exact evaluated _ (List.mem_singleton.mpr rfl)
  · exact .of_looks (.applyNaming _ _)
  next name fails removed =>
    refine .bind (.of_looks (.asOntology removed)) fun id _ => ?_
    -- The entry is read off the world, so the act is regrouped to read it first.
    let entry (w : World) : String := name ++ ":" ++ (w.ontology id).iri ++ ":" ++ toString (w.ontology id).axioms.length
    show Shows Φ ((do return entry (← get)) >>= fun s => do
      modify fun w => { w with log := w.log ++ [s] }
      if fails then throw (Fault.runtime ("hook " ++ name)) else return Term.null)
    refine .bind (.of_looks (.see entry fun _ _ => rfl)) fun s _ => ?_
    refine .bind (P := fun _ => True) ⟨.modify fun w hw => ?_, fun env _ _ w _ => Φ.log s env w⟩ fun _ _ => ?_
    · exact Invariant.consulted (π := π) hw ⟨⟨rfl, rfl, rfl, rfl, rfl, fun _ => .inr⟩, fun _ => .inl⟩
    · exact .of_looks (.ite (.throw _) (.pure _))
  · exact .of_looks (.throw _)

end Act

namespace Current

/-- What is given as an ontology is found. -/
theorem orGiven_does (ho : Φ.Admits t) : Does Φ (orGiven t) fun o => π.Targets o ∧ o ≠ .null := by
  refine Does.knowing ⟨.orGiven ho.target, ?_⟩ fun env w o w' h => orGiven_ne_null h
  unfold orGiven
  split
  · exact fun env _ _ w _ => Φ.current (ho.found.resolve_left fun h => h rfl) env w
  · exact .of_looks (.pure _)

theorem policyFor_does (ho : π.Targets ontology) (hne : ontology ≠ .null) :
    Does Φ (policyFor ontology) fun f => ∀ b ∈ f.bodies, π.producers b := by
  refine .bind (P := fun _ => True) ⟨.options ho, fun env _ _ w _ => Φ.options hne env w⟩ fun n _ => ⟨?_, ?_⟩
  · exact .bind .get fun w hw => .pure ((Invariant.naming (π := π) hw).namingOf n)
  · exact .of_looks (.see (fun w => w.namingOf n) fun _ _ => rfl)

/-- The IRI that a name stands for. -/
theorem iriForName_does (name : Term) (ho : Φ.Admits ontology) : Does Φ (iriForName name ontology) fun _ => True := by
  rw [iriForName_eq]
  refine .bind (orGiven_does ho) fun o ho => .bind (policyFor_does ho.1 ho.2) fun f hf => ?_
  unfold iriBy
  split
  · refine .of_looks (.bind (.iriOf o) fun iri => ?_)
    refine .reading (k := fun s => do return iri ++ s.separator ++ (← display name)) World.settings (fun _ _ => rfl) ?_
    exact fun s => .bind (.display name) fun _ => .pure _
  · exact .bind (invoke_does hf _) fun t _ => .of_looks (.display t)

end Current

namespace Reference

theorem forceWithin_shows : ∀ (n : Nat) {t : Term}, t.Meets π → Shows Φ (forceWithin n t)
  | 0, t, _ => by
    rw [forceWithin.eq_def]
    exact .of_looks (.ite (.throw _) (.pure _))
  | n + 1, t, ht => by
    rw [forceWithin.eq_def]
    refine .ite (fun _ => ?_) fun _ => .of_looks (.pure _)
    exact .bind (invoke_does ht.bodies []) fun u hu => forceWithin_shows n hu

theorem denote_shows (ho : Φ.Admits ontology) (t : Term) (kind : EntityKind) (maker : Nat) :
    Shows Φ (denote t kind ontology maker) := by
  unfold denote
  cases form t kind
  case entity | expression => exact .of_looks (.pure _)
  case iri => exact .of_looks (.bind (.display t) fun _ => .pure _)
  case name => exact .bind (Current.iriForName_does t ho) fun _ _ => .of_looks (.pure _)
  case producer | invalid => exact .of_looks (.refuse _ _)

/-- **Reading a reference.** What is denoted meets the policy. -/
theorem resolve_does (ho : Φ.Admits ontology) (ht : t.Meets π) (kind : EntityKind) (maker : Nat := Factory.shared) :
    Does Φ (resolve t kind ontology maker) fun u => Denotes kind u ∧ u.Meets π := by
  refine ⟨denoted_upholds ho.target ht kind maker, .bind (P := (·.Meets π)) ?_ fun u _ => denote_shows ho u kind maker⟩
  have hdepth : force t = (do return (← read).depth) >>= fun n => forceWithin n t := by
    simp only [force, bind_assoc, pure_bind]
  rw [hdepth]
  refine .bind (.of_looks fun _ _ _ _ _ => rfl) fun n _ => ⟨forceWithin_upholds n ht, forceWithin_shows n ht⟩

end Reference

end

end Authoring
