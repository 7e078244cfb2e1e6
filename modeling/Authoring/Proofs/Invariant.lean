import Authoring.Proofs.Form
import Authoring.Proofs.Store

/-!
# Invariants of the authoring layer

Whatever is true of a world before the authoring layer is used, and is kept when an axiom of its form is added, when
windows with entities in them are put in the place of others, and when ontologies are only asked about
(`World.Consulted`), is true of the world at any later point. Such a property of worlds is an `Invariant` of the layer,
under a policy for what is handed to it.

An act *upholds* an invariant (`Act.Upholds`) if it leaves every world that has it with it, and answers with a value of a
known property. Acts that uphold an invariant compose, so what an act of many steps upholds is read off its text. In
contrast to a calm act, such an act may change the ontologies.

**What is assumed.** Evaluating a delayed expression that may be called upholds the invariant and gives a term that meets
the policy, which the context does, too (`Env.Serves`). So a producer may itself use the authoring layer. Delayed
expressions that may not be called may do anything.

**What it does not establish.** An act that upholds an invariant may fail, and may have changed the world by then.
-/

namespace Authoring

namespace World

variable {w w' : World}

/-- There is an options record for an ontology. -/
def Recorded (w : World) (id : Nat) : Prop := (w.optionsOf.lookup (.handle (.ontology id))).isSome = true

/-- An ontology is registered for a namespace. -/
def Registered (w : World) (id : Nat) : Prop := ∃ e ∈ w.namespaces, e.2 = .handle (.ontology id)

/-- **Only asked, about some ontologies**: everything is left alone, and options records are made for none but these. -/
structure Consulted (T : Nat → Prop) (w w' : World) : Prop extends w.Untouched w' where
  recorded : ∀ id, w'.Recorded id → w.Recorded id ∨ T id

end World

/-- An axiom meets a policy if it has its form, by what is let through, and if the members of its sets can be compared. -/
structure Axiom.Meets (π : Policy) (a : Axiom) : Prop where
  form : a.HasForm π.Describes π.properties
  members : ∀ ms, .set true ms ∈ a.operands → ∀ m ∈ ms, m.isStable = true

/-- Nothing but the form is asked of axioms without sets. -/
theorem Axiom.Meets.of_form {π : Policy} {k : AxiomKind} {ts : List Term}
    (h : HasForm π.Describes π.properties ⟨k, ts⟩) (hk : ∀ p ∈ k.places, p.IsSingle) : Axiom.Meets π ⟨k, ts⟩ := by
  refine ⟨h, fun ms hms => ?_⟩
  obtain ⟨p, hp, hadmits⟩ := h.exists_place hms
  exact absurd hadmits ((hk p hp).not_set Policy.Describes.not_set ms)

/-- An axiom over a set. -/
theorem Axiom.Meets.of_group {π : Policy} {k : AxiomKind} {ts : List Term}
    (h : HasForm π.Describes π.properties ⟨k, [group ts]⟩) (hts : ∀ t ∈ ts, t.isStable = true) :
    Axiom.Meets π ⟨k, [group ts]⟩ := by
  refine ⟨h, fun ms hms m hm => ?_⟩
  cases List.mem_singleton.mp hms
  exact hts m (Distinct.mem_of_mem_eraseDups hm)

/-- **A property of worlds that the authoring layer keeps**, if what it is handed meets a policy. -/
class Invariant (π : Policy) (I : World → Prop) : Prop where
  naming {w : World} (h : I w) : w.NamesWithin π.producers
  collected {w : World} (h : I w) : w.Collected
  registered {w : World} (h : I w) {id : Nat} (hid : w.Registered id) : π.targets id
  consulted {w w' : World} (h : I w) (hw : w.Consulted π.targets w') : I w'
  windows {w : World} (h : I w) {windows : List (List Term)} (hentity : ∀ ts ∈ windows, ∀ t ∈ ts, t.isEntity = true) :
    I { w with windows := windows }
  add {w : World} (h : I w) {a : Axiom} (ha : a.Meets π) (id : Nat) : I (w.setOntology id ((w.ontology id).add a))

/-- A context meets a policy if its default frames do, and the ontology that is bound may be worked on. -/
structure Context.Meets (π : Policy) (c : Context) : Prop where
  defaults : FrameMap.All (·.Meets π) (c.defaults.getD [])
  target : π.Targets c.ontology

/-- What is assumed of an environment: its context meets the policy, and to evaluate a delayed expression that may be
called, in whatever context that meets the policy, upholds the invariant. -/
structure Env.Serves (env : Env) (π : Policy) (I : World → Prop) : Prop where
  context : env.context.Meets π
  evaluated : ∀ body, π.producers body → ∀ (bound : Term) (c : Context), c.Meets π → ∀ w : World, I w →
    I (env.eval body bound c w).2 ∧ ∀ t, (env.eval body bound c w).1 = .ok t → t.Meets π

namespace Act

/-- **An act that upholds an invariant**, and whose value has a property. -/
def Upholds (π : Policy) (I : World → Prop) (x : Act α) (P : α → Prop) : Prop :=
  ∀ env : Env, env.Serves π I → ∀ w : World, I w → I (x env w).2 ∧ ∀ a, (x env w).1 = .ok a → P a

namespace Upholds

variable {π : Policy} {I : World → Prop} {α β : Type} {P : α → Prop} {Q : β → Prop}

theorem mono {R : α → Prop} {x : Act α} (h : Upholds π I x P) (hPR : ∀ a, P a → R a) : Upholds π I x R := by
  intro env henv w hw
  obtain ⟨hkept, hvalue⟩ := h env henv w hw
  exact ⟨hkept, fun a ha => hPR a (hvalue a ha)⟩

theorem of_reads {x : Act α} (h : Reads x) : Upholds π I x fun _ => True :=
  fun env _ w hw => ⟨(h env w).symm ▸ hw, fun _ _ => trivial⟩

/-- An act that is refused everywhere upholds every invariant, and has no value. -/
theorem of_refused {x : Act α} (h : ∀ env w, Refused env x w) : Upholds π I x P := by
  intro env _ w hw
  obtain ⟨f, hrun⟩ := h env w
  rw [hrun]
  exact ⟨hw, nofun⟩

theorem requireStable (t : Term) : Upholds π I (Act.requireStable t) fun _ => t.isStable = true := by
  unfold Act.requireStable
  split
  next h => exact fun _ _ _ hw => ⟨hw, fun _ _ => h⟩
  next => exact fun _ _ _ hw => ⟨hw, nofun⟩

theorem pure {a : α} (h : P a) : Upholds π I (pure a) P := fun _ _ _ hw => ⟨hw, fun _ hb => Except.ok.inj hb ▸ h⟩

theorem throw {e : Fault} : Upholds π I (throw e : Act α) P := fun _ _ _ hw => ⟨hw, nofun⟩

theorem refuse {s : String} {t : Term} : Upholds π I (refuse s t : Act α) P :=
  of_refused fun env w => ⟨_, run_refuse s t env w⟩

/-- The world that an act sees has the invariant. -/
theorem get : Upholds π I (MonadState.get : Act World) I := fun _ _ _ hw => ⟨hw, fun _ h => Except.ok.inj h ▸ hw⟩

/-- The context that an act sees meets the policy. -/
theorem context : Upholds π I Act.context (·.Meets π) :=
  fun _ henv _ hw => ⟨hw, fun _ h => Except.ok.inj h ▸ henv.context⟩

theorem modify {f : World → World} (h : ∀ w, I w → I (f w)) : Upholds π I (modify f : Act PUnit) fun _ => True :=
  fun _ _ w hw => ⟨h w hw, fun _ _ => trivial⟩

theorem bind {x : Act α} {f : α → Act β} (hx : Upholds π I x P) (hf : ∀ a, P a → Upholds π I (f a) Q) :
    Upholds π I (x >>= f) Q := by
  intro env henv w hw
  have hx := hx env henv w hw
  rw [run_bind]
  rcases h : x env w with ⟨e | a, w₁⟩ <;> rw [h] at hx
  · exact ⟨hx.1, nofun⟩
  · exact hf a (hx.2 a rfl) env henv w₁ hx.1

theorem ite {p : Prop} [Decidable p] {x y : Act α} (hx : p → Upholds π I x P) (hy : ¬p → Upholds π I y P) :
    Upholds π I (if p then x else y) P := by
  split
  · exact hx ‹_›
  · exact hy ‹_›

theorem mapM {γ : Type} {f : γ → Act β} {l : List γ} (h : ∀ c ∈ l, Upholds π I (f c) Q) :
    Upholds π I (l.mapM f) fun bs => ∀ b ∈ bs, Q b := by
  induction l with
  | nil =>
    rw [List.mapM_nil]
    exact pure nofun
  | cons c l ih =>
    rw [List.mapM_cons]
    refine bind (h c List.mem_cons_self) fun b hb => ?_
    refine bind (ih fun d hd => h d (List.mem_cons_of_mem _ hd)) fun bs hbs => ?_
    exact pure (List.forall_mem_cons.mpr ⟨hb, hbs⟩)

/-- What is done for each of a list is known of all of it in the end. -/
theorem forM {γ : Type} {R : γ → Prop} {f : γ → Act PUnit} {l : List γ} (h : ∀ c ∈ l, Upholds π I (f c) fun _ => R c) :
    Upholds π I (l.forM f) fun _ => ∀ c ∈ l, R c := by
  induction l with
  | nil => exact pure nofun
  | cons c l ih =>
    refine bind (h c List.mem_cons_self) fun _ hc => ?_
    refine mono (ih fun d hd => h d (List.mem_cons_of_mem _ hd)) fun _ hl => ?_
    exact List.forall_mem_cons.mpr ⟨hc, hl⟩

/-- An act upholds an invariant in another context that meets the policy. -/
theorem within {x : Act α} {c : Context} (hc : c.Meets π) (hx : Upholds π I x P) :
    Upholds π I (Act.within (fun _ => c) x) P :=
  fun env henv w hw => hx { env with context := c } ⟨hc, henv.evaluated⟩ w hw

/-- A fault is kept, too. -/
theorem attempt {x : Act α} (hx : Upholds π I x P) : Upholds π I (Act.attempt x) fun r => ∀ a, r = .ok a → P a := by
  intro env henv w hw
  obtain ⟨hkept, hvalue⟩ := hx env henv w hw
  exact ⟨hkept, fun r hr a ha => hvalue a (Except.ok.inj hr ▸ ha)⟩

variable [Invariant π I]

/-- The leaves of terms that meet the policy meet it. -/
theorem leaves {ts : List Term} (h : ∀ t ∈ ts, t.Meets π) :
    Upholds π I (Act.leaves ts) fun us => ∀ u ∈ us, u.Meets π :=
  bind get fun _ hw => pure ((Invariant.collected π (I := I) hw).leaves h)

end Upholds

end Act

end Authoring
