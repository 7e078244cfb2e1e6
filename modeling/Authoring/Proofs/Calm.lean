import Authoring.Proofs.Running
import Authoring.Proofs.Term.Built

/-!
# Acts that leave what is stored alone

Most of what a builder does only finds things out: it reads references, calls producers and naming functions,
and checks frames. Such an act is *calm*: whatever the world, it leaves the ontologies, the stores, the
registrations and the windows as they are (`World.Untouched`), and its value, if it has one, has a known
property. It may still make options records, number callables and write the log.

Calm acts compose (`Calm.bind`, `Calm.mapM`), so what an act of many steps leaves alone is read
off its text.

**What is assumed.** Producers and naming functions are delayed expressions, and what these do is known to the
environment only. So there is a set `S` of delayed expressions throughout, of which it is assumed that evaluating
one leaves everything alone, and that what comes out is fit and calls nothing outside the set (`Env.Harmless`).
A term is *fit* if it can only call expressions of the set and, as an expression or annotation, is as it should
be (`Term.Fit`). Delayed expressions outside the set may do anything.

**What it does not establish.** A calm act may fail. Nothing here says that it ends with a value.
-/

namespace Authoring

/-- The second world has the ontologies, the stores, the registrations and the windows of the first, and no
naming function that the first has not. -/
structure World.Untouched (w w' : World) : Prop where
  ontologies : w'.ontologies = w.ontologies
  stores : w'.stores = w.stores
  installed : w'.installed = w.installed
  namespaces : w'.namespaces = w.namespaces
  windows : w'.windows = w.windows
  naming : ∀ f ∈ w'.options, f = .null ∨ f ∈ w.options

namespace World.Untouched

variable {w w' w'' : World}

theorem refl (w : World) : w.Untouched w := ⟨rfl, rfl, rfl, rfl, rfl, fun _ => .inr⟩

theorem trans (h : w.Untouched w') (h' : w'.Untouched w'') : w.Untouched w'' where
  ontologies := h'.ontologies.trans h.ontologies
  stores := h'.stores.trans h.stores
  installed := h'.installed.trans h.installed
  namespaces := h'.namespaces.trans h.namespaces
  windows := h'.windows.trans h.windows
  naming f hf := (h'.naming f hf).elim .inl (h.naming f)

theorem ontology (h : w.Untouched w') (id : Nat) : w'.ontology id = w.ontology id := by
  rw [World.ontology, World.ontology, h.ontologies]

theorem located (h : w.Untouched w') (store : Nat) (iri : String) :
    w'.located store iri = w.located store iri := by
  rw [World.located, World.located, World.store, World.store, h.stores]

theorem holds (h : w.Untouched w') (store id : Nat) : w'.holds store id = w.holds store id := by
  rw [World.holds, World.holds, h.ontology, h.located]

end World.Untouched

/-! ## What can be called -/

/-- The delayed expressions that are called when a term is used as a reference, or as a fact. -/
def Term.bodies : Term → List Expr
  | .closure _ _ body _ => [body]
  | .fact p t _ => p.bodies ++ t.bodies
  | _ => []

/-- A term that is as it should be and calls nothing outside a set. -/
def Term.Fit (S : Expr → Prop) (t : Term) : Prop := t.isFit = true ∧ ∀ b ∈ t.bodies, S b

/-- The naming functions call nothing outside a set. -/
def World.NamesWithin (S : Expr → Prop) (w : World) : Prop := ∀ f ∈ w.options, ∀ b ∈ f.bodies, S b

theorem World.NamesWithin.of_untouched {S : Expr → Prop} {w w' : World} (h : w.NamesWithin S)
    (hw : w.Untouched w') : w'.NamesWithin S := by
  intro f hf
  rcases hw.naming f hf with rfl | hf
  · exact nofun
  · exact h f hf

theorem World.NamesWithin.namingOf {S : Expr → Prop} {w : World} (h : w.NamesWithin S) (id : Nat) :
    ∀ b ∈ (w.namingOf id).bodies, S b := by
  unfold World.namingOf
  by_cases hid : id < w.options.length
  · rw [List.getD_eq_getElem?_getD, List.getElem?_eq_getElem hid]
    exact h _ (List.getElem_mem hid)
  · rw [List.getD_eq_getElem?_getD, List.getElem?_eq_none (Nat.le_of_not_lt hid)]
    exact nofun

/-- What is assumed of the delayed expressions of a set: evaluating one leaves everything alone, and what it
gives is fit. -/
def Env.Harmless (env : Env) (S : Expr → Prop) : Prop :=
  ∀ body, S body → ∀ bound w, w.Untouched (env.eval body bound env.context w).2 ∧
    ∀ t, (env.eval body bound env.context w).1 = .ok t → t.Fit S

/-- An environment outside all scopes, where every delayed expression is null. -/
def Env.plain : Env := ⟨.outermost, 1, fun _ _ _ w => (.ok .null, w)⟩

theorem Env.plain_harmless (S : Expr → Prop) : Env.plain.Harmless S := by
  intro body hbody bound w
  refine ⟨.refl w, ?_⟩
  intro t ht
  cases ht
  exact ⟨rfl, nofun⟩

namespace Act

/-- **A calm act**: it leaves everything alone, and its value has a property. -/
def Calm (env : Env) (S : Expr → Prop) (x : Act α) (P : α → Prop) : Prop :=
  ∀ w, w.NamesWithin S → w.Untouched (x env w).2 ∧ ∀ a, (x env w).1 = .ok a → P a

namespace Calm

variable {env : Env} {S : Expr → Prop} {α β : Type} {P : α → Prop} {Q : β → Prop}

/-- What a calm act did, once it has run. -/
theorem untouched {x : Act α} {w w' : World} {r : Except Fault α} (h : Calm env S x P) (hw : w.NamesWithin S)
    (hx : x env w = (r, w')) : w.Untouched w' := by
  have := (h w hw).1
  rwa [hx] at this

theorem value {x : Act α} {w w' : World} {a : α} (h : Calm env S x P) (hw : w.NamesWithin S)
    (hx : x env w = (.ok a, w')) : P a :=
  (h w hw).2 a (by rw [hx])

theorem mono {R : α → Prop} {x : Act α} (h : Calm env S x P) (hPR : ∀ a, P a → R a) : Calm env S x R := by
  intro w hw
  obtain ⟨huntouched, hvalue⟩ := h w hw
  exact ⟨huntouched, fun a ha => hPR a (hvalue a ha)⟩

/-- An act that only reads is calm. -/
theorem of_read {x : Act α} (h : ∀ w, ∃ r, x env w = (r, w) ∧ ∀ a, r = .ok a → P a) : Calm env S x P := by
  intro w _
  obtain ⟨r, hx, hP⟩ := h w
  rw [hx]
  exact ⟨.refl w, hP⟩

theorem of_reads {x : Act α} (h : Reads x) : Calm env S x fun _ => True :=
  fun w _ => ⟨(h env w).symm ▸ .refl w, fun _ _ => trivial⟩

/-- An act that is refused everywhere is calm, and has no value. -/
theorem of_refused {x : Act α} (h : ∀ w, Refused env x w) : Calm env S x P :=
  of_read fun w => ⟨_, (h w).choose_spec, nofun⟩

/-- The world that an act sees is one whose naming functions are known. -/
theorem get : Calm env S (MonadState.get : Act World) (·.NamesWithin S) :=
  fun w hw => ⟨.refl w, fun _ h => Except.ok.inj h ▸ hw⟩

theorem pure {a : α} (h : P a) : Calm env S (pure a) P :=
  of_read fun _ => ⟨.ok a, rfl, fun _ hb => Except.ok.inj hb ▸ h⟩

theorem throw {e : Fault} : Calm env S (throw e : Act α) P :=
  of_read fun _ => ⟨.error e, rfl, nofun⟩

theorem refuse {s : String} {t : Term} : Calm env S (refuse s t : Act α) P :=
  of_read fun w => ⟨_, run_refuse s t env w, nofun⟩

theorem bind {x : Act α} {f : α → Act β} (hx : Calm env S x P) (hf : ∀ a, P a → Calm env S (f a) Q) :
    Calm env S (x >>= f) Q := by
  intro w hw
  rw [run_bind]
  rcases h : x env w with ⟨_ | a, w₁⟩
  · exact ⟨hx.untouched hw h, nofun⟩
  · have hw₁ := hx.untouched hw h
    have hf := hf a (hx.value hw h) w₁ (hw.of_untouched hw₁)
    exact ⟨hw₁.trans hf.1, hf.2⟩

theorem ite {p : Prop} [Decidable p] {x y : Act α} (hx : p → Calm env S x P) (hy : ¬p → Calm env S y P) :
    Calm env S (if p then x else y) P := by
  split
  · exact hx ‹_›
  · exact hy ‹_›

theorem mapM {γ : Type} {f : γ → Act β} {l : List γ} (h : ∀ c ∈ l, Calm env S (f c) Q) :
    Calm env S (l.mapM f) fun bs => ∀ b ∈ bs, Q b := by
  induction l with
  | nil =>
    rw [List.mapM_nil]
    exact pure nofun
  | cons c l ih =>
    rw [List.mapM_cons]
    refine bind (h c List.mem_cons_self) fun b hb => ?_
    refine bind (ih fun d hd => h d (List.mem_cons_of_mem _ hd)) fun bs hbs => ?_
    exact pure (List.forall_mem_cons.mpr ⟨hb, hbs⟩)

end Calm

end Act

end Authoring
