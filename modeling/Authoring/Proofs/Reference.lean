import Authoring.Proofs.Calm
import Authoring.Reference

/-!
# What a reference denotes

Reading a reference is calm: whatever is called on the way, the ontologies, the stores and the windows stay as
they are (`Reference.resolve_calm`). What a reference denotes, if it denotes anything, is an entity of the kind
that is expected or, where a class is expected, a class expression (`Reference.Denotes`); and if the reference
is a fit value then what it denotes is fit, so that it is built (`Denotes.isBuilt`).

An entity of the expected kind denotes itself and leaves the whole world as it is (`Reference.resolve_entity`),
and so does an expression where a class is expected (`Reference.resolve_expression`).
-/

namespace Authoring

namespace Act

variable {env : Env} {S : Expr → Prop}

theorem Calm.evaluate (h : env.Harmless S) {body : Expr} (hb : S body) (bound : Term) :
    Calm env S (Act.evaluate body bound) (·.Fit S) :=
  fun w _ => h body hb bound w

theorem Calm.applyNaming (rule : NamingRule) (name : Term) :
    Calm env S (Act.applyNaming rule name) (·.Fit S) := by
  unfold Act.applyNaming
  cases rule.fails
  · cases name.content?
    · exact throw
    · refine pure ?_
      cases rule.asIri <;> exact ⟨rfl, nofun⟩
  · exact bind (P := fun _ => False) throw fun _ h => h.elim

/-- A remove hook writes the log and nothing else. -/
theorem Calm.runHook (name : String) (fails : Bool) (removed : Term) :
    Calm env S (Act.runHook name fails removed) (·.Fit S) := by
  intro w _
  unfold Act.runHook
  cases removed
  case handle h =>
    cases h
    case ontology id =>
      cases fails
      · exact ⟨⟨rfl, rfl, rfl, rfl, rfl, fun _ => .inr⟩, fun _ h => Except.ok.inj h ▸ ⟨rfl, nofun⟩⟩
      · exact ⟨⟨rfl, rfl, rfl, rfl, rfl, fun _ => .inr⟩, nofun⟩
    all_goals exact ⟨.refl w, nofun⟩
  all_goals exact ⟨.refl w, nofun⟩

/-- Whatever is called, with whatever arguments, so long as it calls nothing outside the set. -/
theorem Calm.invoke (h : env.Harmless S) {callee : Term} (hc : ∀ b ∈ callee.bodies, S b) (args : List Term) :
    Calm env S (Act.invoke callee args) (·.Fit S) := by
  unfold Act.invoke
  split
  · exact evaluate h (hc _ (List.mem_singleton.mpr rfl)) _
  · exact evaluate h (hc _ (List.mem_singleton.mpr rfl)) _
  · exact applyNaming _ _
  · exact runHook _ _ _
  · exact throw

theorem Calm.display (t : Term) : Calm env S (Act.display t) fun _ => True :=
  of_reads fun _ _ => rfl

theorem Calm.inspect (t : Term) : Calm env S (Act.inspect t) fun _ => True :=
  of_reads fun _ _ => rfl

theorem Calm.iriOf (t : Term) : Calm env S (Act.iriOf t) fun _ => True := of_reads (.iriOf t)

theorem Calm.requireStable (t : Term) : Calm env S (Act.requireStable t) fun _ => t.isStable = true :=
  ite (fun h => pure h) fun _ => throw

end Act

namespace Current

open Act

variable {env : Env} {S : Expr → Prop}

theorem spaceOr_reads (t : Term) : Reads (spaceOr t) :=
  .bind (fun _ _ => rfl) fun _ => .ite (.pure t) fun _ _ => rfl

theorem registered_reads (space : Term) : Reads (registered space) :=
  .bind (spaceOr_reads space) fun s => .bind (.requireStable s) fun _ _ _ => rfl

theorem ontology_reads (space : Term) : Reads (ontology space) := by
  refine .bind (fun _ _ => rfl) fun c => ?_
  dsimp only
  split
  · refine .bind (registered_reads space) fun t => ?_
    split
    · exact .bind (spaceOr_reads space) fun s => .bind (fun _ _ => rfl) fun _ => .throw _
    · exact .pure _
  · exact .pure _

theorem orGiven_reads (t : Term) : Reads (orGiven t) := by
  unfold orGiven
  split
  · exact ontology_reads .null
  · exact .pure _

theorem spaceOr_calm (t : Term) : Calm env S (spaceOr t) fun _ => True := .of_reads (spaceOr_reads t)

theorem registered_calm (space : Term) : Calm env S (registered space) fun _ => True := .of_reads (registered_reads space)

/-- Finding the current ontology changes nothing. -/
theorem ontology_calm (space : Term) : Calm env S (ontology space) fun _ => True := .of_reads (ontology_reads space)

theorem orGiven_calm (t : Term) : Calm env S (orGiven t) fun _ => True := .of_reads (orGiven_reads t)

@[simp] theorem orGiven_handle (h : Handle) : orGiven (.handle h) = pure (.handle h) := rfl

/-- Options are made when they are first asked for, and nothing else is. -/
theorem options_calm (t : Term) : Calm env S (options t) fun _ => True := by
  unfold options
  refine .bind (orGiven_calm t) fun subject _ => .bind (.requireStable subject) fun _ _ w _ => ?_
  simp only [run_bind, run_get]
  cases w.optionsOf.lookup subject
  · refine ⟨⟨rfl, rfl, rfl, rfl, rfl, fun f hf => ?_⟩, fun _ _ => trivial⟩
    rcases List.mem_append.mp hf with hf | hf
    · exact .inr hf
    · exact .inl (List.mem_singleton.mp hf)
  · exact ⟨.refl w, fun _ _ => trivial⟩

theorem iriForName_calm (h : env.Harmless S) (name ontology : Term) :
    Calm env S (iriForName name ontology) fun _ => True := by
  unfold iriForName
  refine .bind (orGiven_calm ontology) fun o _ => .bind (options_calm o) fun id _ => ?_
  refine .bind .get fun w hw => ?_
  have hnaming := hw.namingOf id
  split
  · refine .bind (.iriOf o) fun _ _ => .bind .get fun w _ => ?_
    exact .bind (.display name) fun _ _ => .pure trivial
  · exact .bind (.invoke h hnaming _) fun t _ => .display t

end Current

namespace Reference

open Act

variable {env : Env} {S : Expr → Prop}

/-- **What can be denoted** where a kind is expected: an entity of that kind, or an expression for a class. -/
inductive Denotes (kind : EntityKind) : Term → Prop where
  | entity (maker : Nat) (iri : String) : Denotes kind (.entity maker ⟨kind, iri⟩)
  | expression {o c : Term} {ts : List Term} (h : kind = .cls) : Denotes kind (.expression o ts c)

theorem Denotes.isBuilt {kind : EntityKind} {t : Term} (h : Denotes kind t) (hf : t.isFit = true) :
    t.isBuilt = true := by
  cases h with
  | entity => rfl
  | expression => exact hf

/-- What can be denoted where no class is expected is an entity. -/
theorem Denotes.exists_entity {kind : EntityKind} {t : Term} (h : Denotes kind t) (hk : kind ≠ .cls) :
    ∃ m iri, t = .entity m ⟨kind, iri⟩ := by
  cases h with
  | entity m iri => exact ⟨m, iri, rfl⟩
  | expression h => exact absurd h hk

/-- A reference that is used as it stands can be denoted. -/
theorem denotes_of_form {t : Term} {kind : EntityKind}
    (h : form t kind = .entity ∨ form t kind = .expression) : Denotes kind t := by
  unfold form at h
  split at h
  case h_1 m e =>
    split at h
    case isTrue he => exact he ▸ .entity m e.iri
    case isFalse => simp at h
  case h_2 =>
    split at h
    case isTrue hk => exact .expression hk
    case isFalse => simp at h
  case h_3 => simp at h
  case h_4 =>
    split at h
    all_goals
      split at h
      all_goals simp at h

theorem denote_calm (h : env.Harmless S) (t : Term) (kind : EntityKind) (ontology : Term) (maker : Nat) :
    Calm env S (denote t kind ontology maker)
      fun u => Denotes kind u ∧ (t.isFit = true → u.isFit = true) := by
  unfold denote
  cases hf : form t kind
  case entity | expression => exact .pure ⟨denotes_of_form (by simp [hf]), id⟩
  case iri => exact .bind (.display t) fun iri _ => .pure ⟨.entity maker iri, fun _ => rfl⟩
  case name =>
    exact .bind (Current.iriForName_calm h t ontology) fun iri _ => .pure ⟨.entity maker iri, fun _ => rfl⟩
  case producer | invalid => exact .refuse

/-- What is left of a reference is the reference itself, or what has been produced and so is fit. -/
theorem forceWithin_calm (h : env.Harmless S) : ∀ (n : Nat) (t : Term), (∀ b ∈ t.bodies, S b) →
    Calm env S (forceWithin n t) fun u => t.isFit = true → u.isFit = true
  | 0, t, _ => by
    rw [forceWithin.eq_def]
    exact .ite (fun _ => .throw) fun _ => .pure id
  | n + 1, t, ht => by
    rw [forceWithin.eq_def]
    refine .ite (fun _ => ?_) fun _ => .pure id
    refine .bind (.invoke h ht []) fun u hu => ?_
    exact (forceWithin_calm h n u hu.2).mono fun v hv _ => hv hu.1

/-- **Reading a reference is calm**, and what it denotes is of the expected kind. -/
theorem resolve_calm (h : env.Harmless S) {t : Term} (ht : ∀ b ∈ t.bodies, S b) (kind : EntityKind)
    (ontology : Term) (maker : Nat) :
    Calm env S (resolve t kind ontology maker)
      fun u => Denotes kind u ∧ (t.isFit = true → u.isFit = true) := by
  unfold resolve
  refine .bind (P := fun u => t.isFit = true → u.isFit = true) ?_ fun u hu => ?_
  · exact .bind (.of_reads fun _ _ => rfl) fun e _ => forceWithin_calm h e.depth t ht
  · exact (denote_calm h u kind ontology maker).mono fun v hv => ⟨hv.1, fun ht => hv.2 (hu ht)⟩

/-- What has been denoted can be denoted. -/
theorem denote_ok {w w' : World} {t u ontology : Term} {kind : EntityKind} {maker : Nat}
    (h : denote t kind ontology maker env w = (.ok u, w')) : Denotes kind u := by
  unfold denote at h
  cases hf : form t kind <;> rw [hf] at h
  case entity | expression =>
    cases h
    exact denotes_of_form (by simp [hf])
  case iri =>
    obtain ⟨iri, w₁, -, hdone⟩ := bind_ok h
    cases hdone
    exact .entity maker iri
  case name =>
    obtain ⟨iri, w₁, -, hdone⟩ := bind_ok h
    cases hdone
    exact .entity maker iri
  case producer | invalid => cases h

theorem resolve_ok {w w' : World} {t u ontology : Term} {kind : EntityKind} {maker : Nat}
    (h : resolve t kind ontology maker env w = (.ok u, w')) : Denotes kind u := by
  obtain ⟨v, w₁, -, hdenote⟩ := bind_ok h
  exact denote_ok hdenote

/-! ## References that denote themselves -/

/-- What cannot be called is left as it is. -/
theorem run_force {t : Term} (ht : t.isCallable = false) (env : Env) (w : World) :
    force t env w = (.ok t, w) := by
  unfold force
  rw [run_bind, run_read]
  show forceWithin env.depth t env w = _
  rw [forceWithin.eq_def]
  show (if t.isCallable = true then _ else _ : Act Term) env w = _
  rw [if_neg (by simp [ht])]
  rfl

theorem resolve_entity (m : Nat) (kind : EntityKind) (iri : String) (ontology : Term) (maker : Nat) (env : Env)
    (w : World) :
    resolve (.entity m ⟨kind, iri⟩) kind ontology maker env w = (.ok (.entity m ⟨kind, iri⟩), w) := by
  unfold resolve
  rw [run_bind, run_force rfl]
  show denote (.entity m ⟨kind, iri⟩) kind ontology maker env w = _
  simp [denote, form]

/-- As a reference to an entity of its own kind an entity denotes itself. -/
theorem resolve_self (m : Nat) (e : Entity) (ontology : Term) (maker : Nat) (env : Env) (w : World) :
    resolve (.entity m e) e.kind ontology maker env w = (.ok (.entity m e), w) :=
  resolve_entity m e.kind e.iri ontology maker env w

/-- An entity of another kind is refused. -/
theorem resolve_other {e : Entity} {kind : EntityKind} (h : e.kind ≠ kind) (m : Nat) (ontology : Term) (maker : Nat)
    (env : Env) (w : World) : resolve (.entity m e) kind ontology maker env w =
      (.error (.invalidReference kind.word (.entity m e) ((w.settle (.entity m e)).inspect w.names)), w) := by
  rw [resolve, run_bind, run_force rfl]
  show denote (.entity m e) kind ontology maker env w = _
  rw [denote, form, if_neg h]
  exact run_refuse _ _ _ _

theorem resolve_expression (o c : Term) (ts : List Term) (ontology : Term) (maker : Nat) (env : Env)
    (w : World) :
    resolve (.expression o ts c) .cls ontology maker env w = (.ok (.expression o ts c), w) := by
  unfold resolve
  rw [run_bind, run_force rfl]
  show denote (.expression o ts c) .cls ontology maker env w = _
  simp [denote, form]

/-- **What can be denoted denotes itself.** -/
theorem Denotes.run_resolve {kind : EntityKind} {t : Term} (h : Denotes kind t) (ontology : Term) (maker : Nat)
    (env : Env) (w : World) : resolve t kind ontology maker env w = (.ok t, w) := by
  cases h with
  | entity m iri => exact resolve_entity m kind iri ontology maker env w
  | expression hk =>
    subst hk
    exact resolve_expression _ _ _ ontology maker env w

end Reference

end Authoring
