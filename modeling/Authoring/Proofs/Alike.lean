import Authoring.Proofs.Builder
import Authoring.Proofs.Compile.Rules

/-!
# What reading depends on

What a reference denotes, and what frames compile to, does not depend on the axioms of any ontology, nor on what windows
have collected. It depends on the IRIs of the ontologies, on the registrations, the settings and the naming functions.
Worlds are *alike* if they differ in nothing but axioms, windows, and the numbers that are given to what is made
(`World.Alike`). To read, in turn, leaves a world that is alike, with the same ontologies and windows (`World.Asked`).

An act that *finds* something (`Act.Finds`) does both, where it ends with a value: it only asks, and in alike worlds it
finds the same. Such acts compose, so that what an act of many steps finds is read off its text.

**What is assumed.** To evaluate a delayed expression that may be called only asks (`Env.Answers`). That it gives the
same in alike worlds (`Env.Steady`) is assumed for the second half only, so the first half is true of producers that
look at axioms, too.
-/

namespace Authoring

/-! ## Worlds that are alike -/

/-- An ontology but for its axioms. -/
def Ontology.bare (o : Ontology) : Ontology := { o with axioms := [] }

namespace World

variable {w w' w'' : World} {id : Nat}

/-- The naming function that is in force for a subject; null if there is none. -/
def policy (w : World) (subject : Term) : Term := (w.optionsOf.lookup subject).elim .null w.namingOf

/-- What there is in a world but for axioms, options, windows, and the numbers that come next. -/
def outline (w : World) : World :=
  { w with
    ontologies := w.ontologies.map Ontology.bare
    options := []
    optionsOf := []
    windows := []
    factories := 0
    serial := 0 }

/-- **Worlds that are alike**: they have the same outline, and the same naming functions in force. -/
structure Alike (w w' : World) : Prop where
  outline : w'.outline = w.outline
  policies : ∀ t, w'.policy t = w.policy t

namespace Alike

theorem refl (w : World) : w.Alike w := ⟨rfl, fun _ => rfl⟩

theorem symm (h : w.Alike w') : w'.Alike w := ⟨h.outline.symm, fun t => (h.policies t).symm⟩

theorem trans (h : w.Alike w') (h' : w'.Alike w'') : w.Alike w'' :=
  ⟨h'.outline.trans h.outline, fun t => (h'.policies t).trans (h.policies t)⟩

theorem stores (h : w.Alike w') : w'.stores = w.stores := (congrArg World.stores h.outline :)

theorem installed (h : w.Alike w') : w'.installed = w.installed := (congrArg World.installed h.outline :)

theorem namespaces (h : w.Alike w') : w'.namespaces = w.namespaces := (congrArg World.namespaces h.outline :)

theorem settings (h : w.Alike w') : w'.settings = w.settings := (congrArg World.settings h.outline :)

theorem bare (h : w.Alike w') : w'.ontologies.map Ontology.bare = w.ontologies.map Ontology.bare :=
  (congrArg World.ontologies h.outline :)

theorem iri (h : w.Alike w') (id : Nat) : (w'.ontology id).iri = (w.ontology id).iri := by
  have hbare : ∀ v : World, (v.ontology id).iri = ((v.ontologies.map Ontology.bare).getD id default).iri := by
    intro v
    rw [World.ontology, List.getD_eq_getElem?_getD, List.getD_eq_getElem?_getD, List.getElem?_map]
    cases v.ontologies[id]? <;> rfl
  rw [hbare, hbare, h.bare]

theorem manages (h : w.Alike w') (hw : w.Manages id) : w'.Manages id := by
  have hcount : w'.ontologies.length = w.ontologies.length := by simpa using congrArg List.length h.bare
  refine ⟨hcount ▸ hw.exists_ontology, ?_⟩
  rw [holds, located, store, h.installed, h.stores, h.iri]
  exact hw.holds

/-- A change of the axioms of an ontology leaves a world that is alike. -/
theorem setOntology {o : Ontology} (h : o.bare = (w.ontology id).bare) : w.Alike (w.setOntology id o) := by
  have hbare : (w.ontologies.set id o).map Ontology.bare = w.ontologies.map Ontology.bare := by
    rw [List.map_set, h, ← List.map_set]
    exact congrArg (fun v : World => v.ontologies.map Ontology.bare) (World.setOntology_ontology (w := w))
  exact ⟨congrArg (fun os => { w.outline with ontologies := os }) hbare, fun _ => rfl⟩

theorem record (w : World) (active : Option Nat) (t : Term) : w.Alike (w.record active t) := by
  cases active <;> exact ⟨rfl, fun _ => rfl⟩

end Alike

/-- **Only asked**: the worlds are alike, and no axiom and no window has changed. -/
structure Asked (w w' : World) : Prop extends w.Alike w' where
  ontologies : w'.ontologies = w.ontologies
  windows : w'.windows = w.windows

namespace Asked

theorem refl (w : World) : w.Asked w := ⟨.refl w, rfl, rfl⟩

theorem trans (h : w.Asked w') (h' : w'.Asked w'') : w.Asked w'' :=
  ⟨h.toAlike.trans h'.toAlike, h'.ontologies.trans h.ontologies, h'.windows.trans h.windows⟩

theorem ontology (h : w.Asked w') (id : Nat) : w'.ontology id = w.ontology id := by
  rw [World.ontology, World.ontology, h.ontologies]

end Asked

/-- The naming functions that are in force call nothing outside a set. -/
def PoliciesWithin (S : Expr → Prop) (w : World) : Prop := ∀ t, ∀ b ∈ (w.policy t).bodies, S b

theorem PoliciesWithin.of_alike {S : Expr → Prop} (h : w.PoliciesWithin S) (hw : w.Alike w') : w'.PoliciesWithin S :=
  fun t => hw.policies t ▸ h t

/-- A new options record has no naming function, so making it leaves all naming policies as they are. -/
theorem policy_put {subject : Term} (h : w.optionsOf.lookup subject = none) (t : Term) :
    policy { w with
      options := w.options ++ [.null]
      optionsOf := Keyed.put subject w.options.length w.optionsOf } t = w.policy t := by
  have hnaming : ∀ n, (w.options ++ [Term.null]).getD n .null = w.options.getD n .null := by
    intro n
    rw [List.getD_eq_getElem?_getD, List.getD_eq_getElem?_getD]
    rcases Nat.lt_trichotomy n w.options.length with hn | rfl | hn
    · rw [List.getElem?_append_left hn]
    · rw [List.getElem?_concat_length, List.getElem?_eq_none (Nat.le_refl _)]
      rfl
    · rw [List.getElem?_eq_none (by rwa [List.length_append]), List.getElem?_eq_none (Nat.le_of_lt hn)]
  unfold policy namingOf
  dsimp only
  rw [Keyed.put_of_lookup_none h, List.lookup_append]
  cases w.optionsOf.lookup t with
  | some n => exact hnaming n
  | none =>
    rw [Option.none_or, Keyed.lookup_first]
    split
    · show (w.options ++ [Term.null]).getD w.options.length .null = .null
      rw [List.getD_eq_getElem?_getD, List.getElem?_concat_length, Option.getD_some]
    · rfl

end World

/-- Terms that are the same, or delayed expressions that differ in no more than their numbers. -/
inductive Term.Alike : Term → Term → Prop
  | refl (t : Term) : Alike t t
  | closure (serial serial' arity : Nat) (body : Expr) (bound : Term) :
    Alike (.closure serial arity body bound) (.closure serial' arity body bound)

/-- **What is assumed of delayed expressions**: to evaluate one that may be called only asks, if it gives anything, and
what it gives calls none but those. -/
def Env.Answers (env : Env) (S : Expr → Prop) : Prop :=
  ∀ body, S body → ∀ (bound : Term) (c : Context) (w : World) (t : Term) (v : World),
    env.eval body bound c w = (.ok t, v) → w.Asked v ∧ ∀ b ∈ t.bodies, S b

/-- Delayed expressions that give the same in alike worlds, which is displayed the same. -/
def Env.Steady (env : Env) (S : Expr → Prop) : Prop :=
  ∀ body, S body → ∀ (bound : Term) (c : Context) (w : World) (t : Term) (v : World),
    env.eval body bound c w = (.ok t, v) → ∀ w' : World, w.Alike w' →
      ∃ t' v', env.eval body bound c w' = (.ok t', v') ∧ t.Alike t' ∧
        (v'.settle t').display v'.names = (v.settle t).display v.names

/-! ## Acts that find something -/

namespace Act

/-- **An act that finds something**: if it ends with a value then this has a property, and the act has only asked; and
if what may be called is steady, the act ends with the same value in every alike world. -/
def Finds (env : Env) (S : Expr → Prop) (x : Act α) (P : α → Prop) : Prop :=
  ∀ (w : World) (a : α) (v : World), w.PoliciesWithin S → x env w = (.ok a, v) →
    P a ∧ w.Asked v ∧ (env.Steady S → ∀ w' : World, w.Alike w' → ∃ v', x env w' = (.ok a, v'))

namespace Finds

variable {env : Env} {S : Expr → Prop} {α β : Type} {P : α → Prop} {Q : β → Prop}

/-- An act that only reads, and reads the same in alike worlds. -/
theorem of_reads {x : Act α} (hx : Reads x)
    (h : ∀ w w' a, w.Alike w' → x env w = (.ok a, w) → P a ∧ x env w' = (.ok a, w')) : Finds env S x P := by
  intro w a v _ hrun
  obtain rfl := hx.eq_of_ok hrun
  refine ⟨(h _ _ a (.refl _) hrun).1, .refl _, fun _ w' hw' => ⟨w', (h _ w' a hw' hrun).2⟩⟩

theorem of_refused {x : Act α} (h : ∀ w, Refused env x w) : Finds env S x P := by
  intro w a v _ hrun
  obtain ⟨f, hf⟩ := h w
  rw [hf] at hrun
  cases hrun

theorem pure {a : α} (h : P a) : Finds env S (pure a) P :=
  of_reads (.pure a) fun w w' b _ hb => by
    cases hb
    exact ⟨h, rfl⟩

theorem throw {e : Fault} : Finds env S (throw e : Act α) P := of_refused fun _ => .throw

theorem refuse {s : String} {t : Term} : Finds env S (refuse s t : Act α) P :=
  of_refused fun w => ⟨_, run_refuse s t env w⟩

theorem bind {x : Act α} {f : α → Act β} (hx : Finds env S x P) (hf : ∀ a, P a → Finds env S (f a) Q) :
    Finds env S (x >>= f) Q := by
  intro w b v hw hrun
  obtain ⟨a, w₁, hxa, hfb⟩ := bind_ok hrun
  obtain ⟨hP, hasked, hsame⟩ := hx w a w₁ hw hxa
  obtain ⟨hQ, hasked', hsame'⟩ := hf a hP w₁ b v (hw.of_alike hasked.toAlike) hfb
  refine ⟨hQ, hasked.trans hasked', fun hsteady w' hw' => ?_⟩
  obtain ⟨w₁', hxa'⟩ := hsame hsteady w' hw'
  -- The worlds between the two parts are alike, for each of them is alike to the world it comes from.
  have hasked₁ := (hx w' a w₁' (hw.of_alike hw') hxa').2.1
  obtain ⟨v', hfb'⟩ := hsame' hsteady w₁' (hasked.toAlike.symm.trans (hw'.trans hasked₁.toAlike))
  exact ⟨v', bind_ok_iff.mpr ⟨a, w₁', hxa', hfb'⟩⟩

theorem ite {p : Prop} [Decidable p] {x y : Act α} (hx : p → Finds env S x P) (hy : ¬p → Finds env S y P) :
    Finds env S (if p then x else y) P := by
  split
  · exact hx ‹_›
  · exact hy ‹_›

theorem mapM {γ : Type} {f : γ → Act β} {l : List γ} (h : ∀ c ∈ l, Finds env S (f c) Q) :
    Finds env S (l.mapM f) fun bs => ∀ b ∈ bs, Q b := by
  induction l with
  | nil =>
    rw [List.mapM_nil]
    exact pure nofun
  | cons c l ih =>
    rw [List.mapM_cons]
    refine bind (h c List.mem_cons_self) fun b hb => ?_
    refine bind (ih fun d hd => h d (List.mem_cons_of_mem _ hd)) fun bs hbs => ?_
    exact pure (List.forall_mem_cons.mpr ⟨hb, hbs⟩)

/-- What has been found of the elements of a list is found of each of them in every alike world. -/
theorem exists_of_mapM {γ : Type} {f : γ → Act β} {l : List γ} (h : ∀ c ∈ l, Finds env S (f c) Q)
    (hsteady : env.Steady S) {bs : List β} {w v : World} (hw : w.PoliciesWithin S)
    (hrun : l.mapM f env w = (.ok bs, v)) :
    ∀ c ∈ l, ∃ b ∈ bs, ∀ w' : World, w.Alike w' → ∃ v', f c env w' = (.ok b, v') := by
  induction l generalizing w bs with
  | nil => exact nofun
  | cons d l ih =>
    rw [List.mapM_cons] at hrun
    obtain ⟨b, w₁, hb, hrun⟩ := bind_ok hrun
    obtain ⟨cs, w₂, hcs, hrun⟩ := bind_ok hrun
    cases hrun
    obtain ⟨-, hasked, hsame⟩ := h d List.mem_cons_self w b w₁ hw hb
    intro c hc
    rcases List.mem_cons.mp hc with rfl | hc
    · exact ⟨b, List.mem_cons_self, hsame hsteady⟩
    · obtain ⟨b', hb', hsame'⟩ :=
        ih (fun c hc => h c (List.mem_cons_of_mem _ hc)) (hw.of_alike hasked.toAlike) hcs c hc
      exact ⟨b', List.mem_cons_of_mem _ hb', fun w' hw' => hsame' w' (hasked.toAlike.symm.trans hw')⟩

/-- Elements of a list, in whatever order and however often, are found as they are in the list. -/
theorem mapM_subset {γ : Type} {f : γ → Act β} {l l' : List γ} (h : ∀ c ∈ l, Finds env S (f c) Q)
    (hsteady : env.Steady S) {bs : List β} {w v : World} (hw : w.PoliciesWithin S)
    (hrun : l.mapM f env w = (.ok bs, v)) (hl : l' ⊆ l) : ∃ bs' v', l'.mapM f env w = (.ok bs', v') ∧ bs' ⊆ bs := by
  have each := exists_of_mapM h hsteady hw hrun
  have run : ∀ w' : World, w.Alike w' → ∃ bs' v', l'.mapM f env w' = (.ok bs', v') ∧ bs' ⊆ bs := by
    induction l' with
    | nil => exact fun w' _ => ⟨[], w', rfl, List.nil_subset _⟩
    | cons c l' ih =>
      obtain ⟨hc, hl'⟩ := List.cons_subset.mp hl
      intro w' hw'
      obtain ⟨b, hb, hsame⟩ := each c hc
      obtain ⟨w₁, hfirst⟩ := hsame w' hw'
      have hasked := (h c hc w' b w₁ (hw.of_alike hw') hfirst).2.1
      obtain ⟨bs', v', hrest, hsub⟩ := ih hl' w₁ (hw'.trans hasked.toAlike)
      refine ⟨b :: bs', v', ?_, List.cons_subset.mpr ⟨hb, hsub⟩⟩
      rw [List.mapM_cons, run_bind, hfirst]
      dsimp only
      rw [run_bind, hrest]
      rfl
  exact run w (.refl w)

theorem read : Finds env S (MonadReader.read : Act Env) (· = env) :=
  of_reads (fun _ _ => rfl) fun w w' a _ ha => by
    cases ha
    exact ⟨rfl, rfl⟩

theorem context : Finds env S Act.context (· = env.context) :=
  of_reads (fun _ _ => rfl) fun w w' a _ ha => by
    cases ha
    exact ⟨rfl, rfl⟩

theorem requireStable (t : Term) : Finds env S (Act.requireStable t) fun _ => t.isStable = true :=
  ite (fun h => pure h) fun _ => throw

/-- What is read of a world is the same in alike worlds. -/
theorem reading {f : World → α} (h : ∀ w w', w.Alike w' → f w' = f w) :
    Finds env S (do return f (← get)) fun _ => True :=
  of_reads (fun _ _ => rfl) fun w w' a hw ha => by
    cases ha
    exact ⟨trivial, by rw [← h w w' hw]; rfl⟩

/-- What is done with what is read of a world that is the same in alike worlds. -/
theorem reading_bind {γ : Type} (f : World → γ) {k : γ → Act β} (h : ∀ w w', w.Alike w' → f w' = f w)
    (hk : ∀ c, Finds env S (k c) Q) : Finds env S (do k (f (← get))) Q := by
  have hread : Finds env S ((do return f (← get)) >>= k) Q := .bind (reading h) fun c _ => hk c
  rwa [bind_assoc] at hread

end Finds

end Act

open Act

variable {env : Env} {S : Expr → Prop}

/-! ## What is called -/

/-- A term that counts as a text is displayed the same in every world. -/
theorem World.display_of_content {t : Term} (ht : t.content?.isSome = true) (w w' : World) :
    (w'.settle t).display w'.names = (w.settle t).display w.names := by
  cases t
  case text | iri | literal | keyword => simp only [World.settle, Term.expand, Term.display]
  all_goals cases ht

/-- So is a text, where it is quoted. -/
theorem World.inspect_text (s : String) (w : World) : (w.settle (.text s)).inspect w.names = Text.quote s := rfl

namespace Act.Finds

theorem display {t : Term} (ht : t.content?.isSome = true) : Finds env S (Act.display t) fun _ => True := by
  refine .of_reads (fun _ _ => rfl) fun w w' a _ ha => ⟨trivial, ?_⟩
  cases ha
  rw [run_display, World.display_of_content ht w w']

theorem inspect_text (s : String) : Finds env S (Act.inspect (.text s)) fun _ => True := by
  refine .of_reads (fun _ _ => rfl) fun w w' a _ ha => ⟨trivial, ?_⟩
  cases ha
  rw [run_inspect, World.inspect_text, World.inspect_text]

/-- What is done with what a delayed expression gives, if the numbers of delayed expressions do not matter for it. -/
theorem evaluate {β : Type} {Q : β → Prop} (h : env.Answers S) {body : Expr} (hb : S body) (bound : Term)
    {f : Term → Act β} (hf : ∀ t, (∀ b ∈ t.bodies, S b) → Finds env S (f t) Q)
    (hsame : ∀ t t', t.Alike t' → f t' = f t) : Finds env S (do f (← Act.evaluate body bound)) Q := by
  intro w a v hw hrun
  obtain ⟨t, w₁, heval, hrest⟩ := bind_ok hrun
  obtain ⟨hasked, hbodies⟩ := h body hb bound env.context w t w₁ heval
  obtain ⟨hQ, hasked₁, hrest'⟩ := hf t hbodies w₁ a v (hw.of_alike hasked.toAlike) hrest
  refine ⟨hQ, hasked.trans hasked₁, fun hsteady w' hw' => ?_⟩
  obtain ⟨t', w₁', heval', ht, -⟩ := hsteady body hb bound env.context w t w₁ heval w' hw'
  have hasked' := (h body hb bound env.context w' t' w₁' heval').1
  obtain ⟨v', hv'⟩ := hrest' hsteady w₁' (hasked.toAlike.symm.trans (hw'.trans hasked'.toAlike))
  exact ⟨v', bind_ok_iff.mpr ⟨t', w₁', heval', hsame t t' ht ▸ hv'⟩⟩

/-- What a delayed expression gives is displayed the same in alike worlds. -/
theorem evaluated (h : env.Answers S) {body : Expr} (hb : S body) (bound : Term) :
    Finds env S (do Act.display (← Act.evaluate body bound)) fun _ => True := by
  intro w s v _ hrun
  obtain ⟨t, v, heval, hdisplay⟩ := bind_ok hrun
  cases hdisplay
  refine ⟨trivial, (h body hb bound env.context w t v heval).1, fun hsteady w' hw' => ?_⟩
  obtain ⟨t', v', heval', -, hsame⟩ := hsteady body hb bound env.context w t v heval w' hw'
  exact ⟨v', bind_ok_iff.mpr ⟨t', v', heval', by rw [run_display, hsame]⟩⟩

theorem applyNaming (rule : NamingRule) (name : Term) :
    Finds env S (Act.applyNaming rule name) (·.content?.isSome = true) := by
  unfold Act.applyNaming
  cases rule.fails with
  | some => exact .bind (P := fun _ => False) .throw nofun
  | none =>
    cases name.content? with
    | none => exact .throw
    | some => cases rule.asIri <;> exact .pure rfl

/-- What is done with what a producer makes. -/
theorem produce {β : Type} {Q : β → Prop} (h : env.Answers S) {t : Term} (ht : ∀ b ∈ t.bodies, S b) {f : Term → Act β}
    (hf : ∀ u, (∀ b ∈ u.bodies, S b) → Finds env S (f u) Q) (hsame : ∀ u u', u.Alike u' → f u' = f u) :
    Finds env S (do f (← Act.invoke t [])) Q := by
  unfold Act.invoke
  split
  next => exact evaluate h (ht _ List.mem_cons_self) _ hf hsame
  all_goals first
    | exact .bind (P := fun _ => False) .throw nofun
    | contradiction

/-- The IRI that a naming function makes of a name. -/
theorem named (h : env.Answers S) {f : Term} (hf : ∀ b ∈ f.bodies, S b) {name : Term}
    (hn : name.content?.isSome = true) : Finds env S (do Act.display (← Act.invoke f [name])) fun _ => True := by
  unfold Act.invoke
  split
  next => contradiction
  next => exact evaluated h (hf _ List.mem_cons_self) _
  next heq =>
    cases heq
    exact .bind (applyNaming _ _) fun t ht => .display ht
  next heq =>
    -- A remove hook takes an ontology, which no name is.
    cases heq
    refine .of_refused fun w => .first (.first ?_)
    cases name
    case text | iri | literal | keyword => exact .throw
    all_goals cases hn
  next => exact .bind (P := fun _ => False) .throw nofun

end Act.Finds

/-! ## References -/

namespace Current

theorem spaceOr_null : spaceOr .null = do return (← context).space := rfl

/-- The current ontology depends on what is bound and registered. -/
theorem ontology_finds : Finds env S (ontology .null) fun _ => True := by
  have lookup : ∀ s, Finds env S (do return ((← get).namespaces.lookup s).getD .null) fun _ => True :=
    fun s => .reading (f := fun w => (w.namespaces.lookup s).getD .null) fun w w' hw => by rw [hw.namespaces]
  have registered : Finds env S (registered .null) fun _ => True := by
    refine .bind (P := fun _ => True) ?_ fun s _ => .bind (.requireStable s) fun _ _ => lookup s
    rw [spaceOr_null]
    exact .bind .context fun _ _ => .pure trivial
  refine .bind .context fun c _ => ?_
  dsimp only
  split
  · refine .bind registered fun t _ => ?_
    split
    · exact .of_refused fun w => .second (spaceOr_reads .null) fun s => .second (fun _ _ => rfl) fun _ => .throw
    · exact .pure trivial
  · exact .pure trivial

theorem orGiven_finds (t : Term) : Finds env S (orGiven t) (· ≠ .null) := by
  intro w o v hw hrun
  have hfinds : Finds env S (orGiven t) fun _ => True := by
    unfold orGiven
    split
    · exact ontology_finds
    · exact .pure trivial
  exact ⟨orGiven_ne_null hrun, (hfinds w o v hw hrun).2⟩

/-- The naming function of a subject, whose options are made if there are none. -/
def policyFor (subject : Term) : Act Term := do
  let id ← options subject
  return (← get).namingOf id

/-- The IRI that a name stands for in an ontology, by its naming function. -/
def iriBy (name o : Term) : Term → Act String
  | .null => do
    let iri ← iriOf o
    return iri ++ (← get).settings.separator ++ (← Act.display name)
  | f => do Act.display (← invoke f [name])

theorem iriForName_eq (name ontology : Term) : iriForName name ontology =
    (do let o ← orGiven ontology; iriBy name o (← policyFor o)) := by
  simp only [iriForName, policyFor, bind_assoc, pure_bind]
  rfl

theorem run_policyFor {o : Term} (ho : o ≠ .null) (hs : o.isStable = true) (env : Env) (w : World) :
    ∃ v, policyFor o env w = (.ok (w.policy o), v) ∧ w.Asked v := by
  simp only [policyFor, options, orGiven_of_ne_null ho, run_bind, run_pure, run_requireStable hs, run_get]
  cases h : w.optionsOf.lookup o with
  | some n => exact ⟨w, by rw [World.policy, h]; rfl, .refl w⟩
  | none =>
    let v : World :=
      { w with options := w.options ++ [.null], optionsOf := Keyed.put o w.options.length w.optionsOf }
    have hnew : v.namingOf w.options.length = w.policy o := by
      rw [World.policy, h, World.namingOf, List.getD_eq_getElem?_getD, List.getElem?_concat_length]
      rfl
    exact ⟨v, by rw [← hnew]; rfl, ⟨rfl, World.policy_put h⟩, rfl, rfl⟩

theorem policyFor_finds {o : Term} (ho : o ≠ .null) : Finds env S (policyFor o) fun f => ∀ b ∈ f.bodies, S b := by
  intro w f v hw hrun
  have hs : o.isStable = true := by
    cases hs : o.isStable with
    | true => rfl
    | false =>
      simp only [policyFor, options, orGiven_of_ne_null ho, run_bind, run_pure, run_requireStable_of_not hs] at hrun
      cases hrun
  obtain ⟨v, hpolicy, hasked⟩ := run_policyFor ho hs env w
  rw [hpolicy] at hrun
  cases hrun
  refine ⟨hw o, hasked, fun _ w' hw' => ?_⟩
  obtain ⟨v', hpolicy', -⟩ := run_policyFor ho hs env w'
  exact ⟨v', hw'.policies o ▸ hpolicy'⟩

theorem iriOf_finds (o : Term) : Finds env S (iriOf o) fun _ => True := by
  unfold iriOf
  split
  · exact .pure trivial
  next id => exact .reading (f := fun w => (w.ontology id).iri) fun w w' hw => hw.iri id
  · exact .throw

/-- The IRI that a name stands for depends on the naming policy, and for the ontology on no more than its IRI. -/
theorem iriForName_finds (h : env.Answers S) {name : Term} (hn : name.content?.isSome = true) (ontology : Term) :
    Finds env S (iriForName name ontology) fun _ => True := by
  rw [iriForName_eq]
  refine .bind (orGiven_finds ontology) fun o ho => .bind (policyFor_finds ho) fun f hf => ?_
  unfold iriBy
  split
  · refine .bind (iriOf_finds o) fun iri _ => ?_
    refine .reading_bind World.settings (k := fun s => do return iri ++ s.separator ++ (← Act.display name))
      (fun _ _ hw => hw.settings) fun s => ?_
    exact .bind (.display hn) fun t _ => .pure trivial
  · exact .named h hf hn

end Current

namespace Reference

/-- What stands for an IRI or a name counts as a text. -/
theorem content?_of_form {t : Term} {kind : EntityKind} (h : form t kind = .iri ∨ form t kind = .name) :
    t.content?.isSome = true := by
  unfold form at h
  split at h
  next => split at h <;> simp at h
  next => split at h <;> simp at h
  next => rfl
  next =>
    split at h
    next hs => exact Option.isSome_of_eq_some hs
    next => split at h <;> simp at h

theorem forceWithin_congr {t t' : Term} (h : t.Alike t') (n : Nat) : forceWithin n t' = forceWithin n t := by
  cases h with
  | refl => rfl
  | closure serial serial' arity =>
    cases n
    · rfl
    · rcases arity with _ | _ | _ <;> rfl

theorem forceWithin_finds (h : env.Answers S) : ∀ (n : Nat) {t : Term}, (∀ b ∈ t.bodies, S b) →
    Finds env S (forceWithin n t) fun _ => True
  | 0, t, _ => by
    rw [forceWithin.eq_def]
    exact .ite (fun _ => .throw) fun _ => .pure trivial
  | n + 1, t, ht => by
    rw [forceWithin.eq_def]
    refine .ite (fun _ => ?_) fun _ => .pure trivial
    exact .produce h ht (fun u hu => forceWithin_finds h n hu) fun u u' hu => forceWithin_congr hu n

theorem denote_finds (h : env.Answers S) (t : Term) (kind : EntityKind) (ontology : Term) (maker : Nat) :
    Finds env S (denote t kind ontology maker) (Denotes kind) := by
  unfold denote
  cases hf : form t kind
  case entity | expression => exact .pure (denotes_of_form (by simp [hf]))
  case iri => exact .bind (.display (content?_of_form (.inl hf))) fun iri _ => .pure (.entity maker iri)
  case name =>
    exact .bind (Current.iriForName_finds h (content?_of_form (.inr hf)) ontology) fun iri _ =>
      .pure (.entity maker iri)
  case producer | invalid => exact .refuse

/-- **What a reference denotes** does not depend on any axiom. -/
theorem resolve_finds (h : env.Answers S) {t : Term} (ht : ∀ b ∈ t.bodies, S b) (kind : EntityKind) (ontology : Term)
    (maker : Nat := Factory.shared) : Finds env S (resolve t kind ontology maker) (Denotes kind) := by
  refine .bind (P := fun _ => True) ?_ fun u _ => denote_finds h u kind ontology maker
  exact .bind .read fun e _ => forceWithin_finds h e.depth ht

end Reference

/-! ## Frames -/

namespace Compile

/-- The language of the settings. -/
theorem languageOf_finds (s : String) : Finds env S (Factory.languageOf (.text s)) fun _ => True := by
  unfold Factory.languageOf
  split
  · exact .pure trivial
  · exact .pure trivial
  · refine .ite (fun _ => ?_) fun _ => ?_
    · exact .bind (.display rfl) fun _ _ => .bind (.inspect_text s) fun _ _ => .pure trivial
    · exact .bind (P := fun _ => True) (.display rfl) fun _ _ => .throw

theorem note_finds (property : Term) {t : Term} (ht : t.content?.isSome = true) (s : String) :
    Finds env S (Factory.note property t (.text s)) fun _ => True := by
  unfold Factory.note
  split
  · exact .pure trivial
  · refine .bind (P := fun _ => True) ?_ fun _ _ => .pure trivial
    refine .bind (languageOf_finds s) fun _ _ => ?_
    split
    case h_4 => exact .bind (.display ht) fun _ _ => .pure trivial
    all_goals exact .pure trivial

theorem annotationAlong_finds (property t : Term) : Finds env S (annotationAlong property t) fun _ => True := by
  unfold annotationAlong
  split
  · refine .ite (fun _ => .pure trivial) fun _ => .bind (Current.iriOf_finds property) fun _ _ => .refuse
  · refine .ite (fun ht => ?_) fun _ => .refuse
    exact .reading_bind World.settings (fun _ _ hw => hw.settings) fun s => note_finds property ht s.language

variable {m : Nat} {e : Entity} {ontology : Term} {maker : Nat} {value : Term}

theorem relation_finds (h : env.Answers S) (hv : ∀ b ∈ value.bodies, S b) (owner : Term) :
    Finds env S (relation owner value ontology maker) fun _ => True := by
  unfold relation
  split
  · have hp := fun b hb => hv b (List.mem_append_left _ hb)
    have ht := fun b hb => hv b (List.mem_append_right _ hb)
    refine .bind (Reference.resolve_finds h hp _ _ _) fun p _ => ?_
    exact .bind (Reference.resolve_finds h ht _ _ _) fun t _ => .pure trivial
  · exact .refuse

theorem unlessSelf_finds (owner other : Term) (make : List Term → Axiom) :
    Finds env S (unlessSelf owner other make) fun _ => True :=
  .ite (fun _ => .pure trivial) fun _ =>
    .bind (.requireStable _) fun _ _ => .bind (.requireStable _) fun _ _ => .pure trivial

/-- **What a rule makes of a value** does not depend on any axiom. -/
theorem axiomFor_finds (h : env.Answers S) (hv : ∀ b ∈ value.bodies, S b) (tag : FrameTag) :
    Finds env S (axiomFor (.entity m e) ontology maker tag value) fun _ => True := by
  have read : ∀ kind, Finds env S (Reference.resolve value kind ontology maker) (Reference.Denotes kind) :=
    fun kind => Reference.resolve_finds h hv kind ontology maker
  unfold axiomFor
  cases tag
  case name => exact .pure trivial
  case subclass | domain | range | type => exact .bind (read .cls) fun t _ => .pure trivial
  case equivalent | disjoint => exact .bind (read .cls) fun t _ => unlessSelf_finds _ t _
  case same | different => exact .bind (read .individual) fun t _ => unlessSelf_finds _ t _
  case inverse => exact .bind (read .objectProperty) fun t _ => .bind (.requireStable _) fun _ _ => .pure trivial
  case superproperty =>
    refine .bind (P := fun _ => True) (.pure trivial) fun k _ => .ite (fun _ => ?_) fun _ => ?_
    · exact .bind (read .annotationProperty) fun t _ => .pure trivial
    · exact .bind (read .objectProperty) fun t _ => .pure trivial
  case characteristic =>
    cases Characteristic.ofTerm? value with
    | none => exact .of_refused fun w => .after rfl .throw
    | some c => exact .pure trivial
  case fact => exact .bind (relation_finds h hv _) fun _ _ => .pure trivial
  case note =>
    dsimp only
    split
    · exact .bind (Current.iriOf_finds _) fun _ _ => .pure trivial
    · exact .refuse
  case comment | label =>
    exact .bind (Current.iriOf_finds _) fun _ _ => .bind (annotationAlong_finds _ _) fun _ _ => .pure trivial

theorem compileFrames_finds (h : env.Answers S) {frames : FrameMap} (hf : frames.All fun t => ∀ b ∈ t.bodies, S b) :
    Finds env S (compileFrames (.entity m e) ontology maker frames) fun _ => True := by
  refine .bind (.mapM (Q := fun _ => True) fun tag _ => ?_) fun _ _ => .pure trivial
  refine .bind (.mapM (Q := fun _ => True) fun t ht => ?_) fun _ _ => .pure trivial
  exact axiomFor_finds h (hf.valuesOf _ t ht) tag

/-- Which keys there are and whether the entity takes them depends on what is written only. -/
theorem checked_finds (explicit defaults : List (Term × Term)) :
    Finds env S (checked (.entity m e) explicit defaults .null) (· = FrameMap.merge defaults explicit) := by
  refine .of_reads (.bind (checkTags_reads _ _ _) fun _ => .pure _) fun w w' frames _ hrun => ?_
  obtain ⟨⟨-, hadmits⟩, rfl⟩ := checked_ok_iff.mp hrun
  exact ⟨rfl, checked_ok_iff.mpr ⟨⟨rfl, hadmits⟩, rfl⟩⟩

/-- **What frames compile to** does not depend on any axiom. -/
theorem compile_finds (h : env.Answers S) {explicit defaults : List (Term × Term)}
    (he : ∀ f ∈ explicit, ∀ t ∈ f.2.flatten, ∀ b ∈ t.bodies, S b)
    (hd : ∀ f ∈ defaults, ∀ t ∈ f.2.flatten, ∀ b ∈ t.bodies, S b) :
    Finds env S (compile (.entity m e) explicit defaults .null ontology maker) fun _ => True :=
  .bind (checked_finds explicit defaults) fun _ hframes => compileFrames_finds h (hframes ▸ .merge hd he)

end Compile

end Authoring
