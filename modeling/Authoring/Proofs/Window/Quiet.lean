import Authoring.Probe
import Authoring.Proofs.Builder
import Authoring.Proofs.Compile.Rules

/-!
# Acts that leave the windows alone

An act is *quiet* if, wherever it is done, the windows are after it as they were before. Quiet acts compose, so that an
act is quiet is read off its text. All changes of what an ontology holds are quiet, whether they succeed or not.

A call of a builder is not. If it fails then what has happened to the windows has happened while it was prepared
(`Builder.Call.windows_of_error`); if it succeeds then the entity has been recorded as well, and the ontology into which
it was built has all axioms that were compiled (`Builder.Call.run_ok`). In contrast to `Builder.Call.run_cases`, nothing
is assumed here of the producers and the frames.
-/

namespace Authoring

namespace Act

/-- **A quiet act**: it leaves the windows alone, wherever it is done. -/
def Quiet (x : Act α) : Prop := ∀ env w, (x env w).2.windows = w.windows

namespace Quiet

variable {α β : Type}

theorem of_reads {x : Act α} (h : Reads x) : Quiet x := fun env w => by rw [h env w]

/-- An act that is calm whatever can be called is quiet. -/
theorem of_calm {P : α → Prop} {x : Act α} (h : ∀ env, Calm env (fun _ => True) x P) : Quiet x :=
  fun env w => (h env w fun _ _ _ _ => trivial).1.windows

theorem pure (a : α) : Quiet (Pure.pure a : Act α) := of_reads (.pure a)

theorem throw (e : Fault) : Quiet (throw e : Act α) := of_reads (.throw e)

theorem modify {f : World → World} (h : ∀ w, (f w).windows = w.windows) : Quiet (modify f : Act PUnit) := fun _ w => h w

theorem bind {x : Act α} {f : α → Act β} (hx : Quiet x) (hf : ∀ a, Quiet (f a)) : Quiet (x >>= f) := by
  intro env w
  have hx := hx env w
  rw [run_bind]
  rcases h : x env w with ⟨e | a, w₁⟩ <;> rw [h] at hx
  · exact hx
  · exact (hf a env w₁).trans hx

theorem mapM {γ : Type} {f : γ → Act β} {l : List γ} (h : ∀ c ∈ l, Quiet (f c)) : Quiet (l.mapM f) := by
  induction l with
  | nil =>
    rw [List.mapM_nil]
    exact pure _
  | cons c l ih =>
    rw [List.mapM_cons]
    refine bind (h c List.mem_cons_self) fun _ => ?_
    exact bind (ih fun d hd => h d (List.mem_cons_of_mem _ hd)) fun _ => pure _

theorem forM {γ : Type} {f : γ → Act PUnit} {l : List γ} (h : ∀ c, Quiet (f c)) : Quiet (l.forM f) := by
  induction l with
  | nil => exact pure _
  | cons c l ih => exact bind (h c) fun _ => ih

theorem ite {p : Prop} [Decidable p] {x y : Act α} (hx : Quiet x) (hy : Quiet y) : Quiet (if p then x else y) := by
  split
  · exact hx
  · exact hy

end Quiet

end Act

open Act

/-! ## Changes of ontologies -/

theorem Current.orGiven_quiet (t : Term) : Quiet (Current.orGiven t) := .of_calm fun _ => Current.orGiven_calm t

theorem Current.options_quiet (t : Term) : Quiet (Current.options t) := .of_calm fun _ => Current.options_calm t

namespace Store

theorem add_quiet (store : Nat) (o t : Term) : Quiet (add store o t) := by
  refine .bind (.of_reads (requireManaged_reads store o)) fun _ => .bind (.of_reads (requireAxiom_reads t)) fun a => ?_
  refine .bind (.of_reads (.asOntology o)) fun id => .bind (.of_reads (.requireStable t)) fun _ => ?_
  exact .bind (.of_reads fun _ _ => rfl) fun w => .bind (.modify fun _ => rfl) fun _ => .pure _

theorem discard_quiet (store : Nat) (o t : Term) : Quiet (discard store o t) := by
  refine .bind (.of_reads (requireManaged_reads store o)) fun _ => .bind (.of_reads (requireAxiom_reads t)) fun a => ?_
  refine .bind (.of_reads (.asOntology o)) fun id => .bind (.of_reads (.requireStable t)) fun _ => ?_
  exact .bind (.of_reads fun _ _ => rfl) fun w => .bind (.modify fun _ => rfl) fun _ => .pure _

end Store

namespace Change

theorem add_quiet (t o : Term) : Quiet (add t o) :=
  .bind (Current.orGiven_quiet o) fun _ => .bind (.of_reads fun _ _ => rfl) fun _ =>
    .bind (Store.add_quiet _ _ _) fun _ => .pure _

theorem addEach_quiet (ts : List Term) (o : Term) : Quiet (addEach ts o) :=
  .bind (Current.orGiven_quiet o) fun _ => .mapM fun _ _ => add_quiet _ _

theorem addAxioms_quiet (as : List Axiom) (o : Term) : Quiet (addAxioms as o) :=
  .bind (addEach_quiet _ o) fun _ => .pure _

theorem remove_quiet (t o : Term) : Quiet (remove t o) :=
  .bind (Current.orGiven_quiet o) fun _ => .bind (.of_reads fun _ _ => rfl) fun _ =>
    .bind (Store.discard_quiet _ _ _) fun _ => .pure _

theorem removeEntity_quiet (t o : Term) : Quiet (removeEntity t o) := by
  refine .bind (Current.orGiven_quiet o) fun o => .bind (.of_reads fun _ _ => rfl) fun _ => ?_
  refine .bind (.of_reads (Query.referencing_reads o t)) fun _ => ?_
  refine .bind (.forM fun _ => .bind (Store.discard_quiet _ _ _) fun _ => .pure _) fun _ => ?_
  exact .bind (.of_reads (.iriOf t)) fun _ => .bind (.of_reads (.iriOf o)) fun _ => .pure _

end Change

/-! ## Entities and expressions -/

/-- Entities are their own leaves. -/
theorem Act.leaves_of_entities {ts : List Term} (h : ∀ t ∈ ts, t.isEntity = true) : leaves ts = pure ts := by
  funext env w
  show (.ok (Term.flattenAll (ts.map w.spread)), w) = ((.ok ts, w) : Except Fault (List Term) × World)
  have hflat : Term.flattenAll (ts.map w.spread) = ts := by
    induction ts with
    | nil => rfl
    | cons t ts ih =>
      have ht := h t List.mem_cons_self
      cases t <;> cases ht
      exact congrArg _ (ih fun u hu => h u (List.mem_cons_of_mem _ hu))
  rw [hflat]

namespace Reference

theorem resolve_reads_of_isEntity {t : Term} (h : t.isEntity = true) (kind : EntityKind) (ontology : Term)
    (maker : Nat := Factory.shared) : Reads (resolve t kind ontology maker) := by
  intro env w
  cases t <;> cases h
  next m e =>
    obtain ⟨k, iri⟩ := e
    by_cases hk : k = kind
    · subst hk
      rw [resolve_entity]
    · rw [resolve_other hk]

end Reference

namespace Factory

theorem expressionOf_reads (operator : Term) (operands : List Term) (cardinality : Term) :
    Reads (expressionOf operator operands cardinality) := by
  refine .bind (.requireFindable _) fun _ => .ite ?_ (.pure _)
  exact .bind (.bind (.forM .requireStable) fun _ => .pure _) fun _ => .pure _

theorem expression_reads (o : Operator) (operands : List Term) (cardinality : Term) :
    Reads (expression o operands cardinality) := expressionOf_reads _ _ _

end Factory

/-! ## Calls of builders -/

namespace Builder

variable {env : Env} {w w' : World} {p : Prepared}

/-- What has been prepared names an ontology and an entity, and the declaration of the entity comes first. There is no
other declaration. -/
structure Prepared.Declares (p : Prepared) (m : Nat) (e : Entity) : Prop where
  target : p.target ≠ .null
  entity : p.entity = .entity m e
  axioms : ∃ rest, p.axioms = .declaration (.entity m e) :: rest ∧ ∀ a ∈ rest, a.kind ≠ .declaration

theorem prepare_ok {kind : EntityKind} {name ontology : Term} {all : FrameMap}
    (h : prepare kind name all ontology env w = (.ok p, w')) : ∃ m e, p.Declares m e := by
  obtain ⟨o, w₁, ho, hrest⟩ := bind_ok h
  obtain ⟨t, w₂, ht, hrest⟩ := bind_ok hrest
  obtain ⟨d, w₃, -, hrest⟩ := bind_ok hrest
  obtain ⟨as, w₄, has, hdone⟩ := bind_ok hrest
  cases hdone
  have htarget := Current.orGiven_ne_null ho
  cases Reference.resolve_ok ht with
  | entity m iri => exact ⟨m, _, htarget, rfl, Compile.compile_ok has⟩
  | expression =>
    obtain ⟨f, hf⟩ := Compile.compile_expression _ _ _ _ _ _ _ env w₃
    rw [hf] at has
    cases has

namespace Call

/-- However a call finds its name and frames, what it has prepared comes from these in the end. -/
theorem exists_prepare {c : Call} (h : c.prepare env w = (.ok p, w')) :
    ∃ kind name all ontology w₁, Builder.prepare kind name all ontology env w₁ = (.ok p, w') := by
  have ofKind : ∀ {kind : EntityKind} {name frames ontology : Term} {more : List (String × Term)},
      prepareOfKind kind name frames ontology more env w = (.ok p, w') →
      ∃ kind name all ontology w₁, Builder.prepare kind name all ontology env w₁ = (.ok p, w') := by
    intro kind name frames ontology more h
    obtain ⟨all, w₁, -, hrest⟩ := bind_ok h
    by_cases hk : kind = .cls
    · rw [if_pos hk] at hrest
      obtain ⟨n, w₂, -, hprepare⟩ := bind_ok hrest
      exact ⟨_, _, _, _, _, hprepare⟩
    · rw [if_neg hk, pure_bind] at hrest
      exact ⟨_, _, _, _, _, hrest⟩
  cases c with
  | make kind name frames ontology more => exact ofKind h
  | refine t frames ontology more =>
    cases t
    case entity m e => exact ofKind h
    all_goals cases h

theorem prepare_ok {c : Call} (h : c.prepare env w = (.ok p, w')) : ∃ m e, p.Declares m e := by
  obtain ⟨_, _, _, _, _, hprepare⟩ := exists_prepare h
  exact Builder.prepare_ok hprepare

end Call

/-- Completing a call fails, if it does, before the entity is recorded. -/
theorem windows_of_complete_error {m : Nat} {e : Entity} {f : Fault} (hp : p.Declares m e)
    (h : complete p env w = (.error f, w')) : w'.windows = w.windows := by
  obtain ⟨rest, has, -⟩ := hp.axioms
  have hquiet := Change.addAxioms_quiet p.axioms p.target env w
  rw [complete, run_bind] at h
  rcases hadd : Change.addAxioms p.axioms p.target env w with ⟨f' | _, w₁⟩ <;> rw [hadd] at h hquiet
  · cases h
    exact hquiet
  · obtain ⟨id, htarget, -⟩ := Change.addAxioms_ok hp.target (has ▸ hadd)
    rw [htarget] at h
    simp only [run_bind, run_record] at h
    cases h

/-- What completing a call has done, if it has ended without a fault. -/
theorem complete_ok {m : Nat} {e : Entity} {t : Term} (hp : p.Declares m e)
    (h : complete p env w = (.ok t, w')) : ∃ id, p.target = .handle (.ontology id) ∧ t = .entity m e ∧
      w' = (w.setOntology id ((w.ontology id).addAll p.axioms)).record env.context.window (.entity m e) := by
  obtain ⟨rest, has, -⟩ := hp.axioms
  obtain ⟨_, w₁, hadd, hrest⟩ := bind_ok h
  obtain ⟨id, htarget, rfl⟩ := Change.addAxioms_ok hp.target (has ▸ hadd)
  rw [htarget, run_bind, run_record] at hrest
  cases hrest
  exact ⟨id, htarget, hp.entity, by rw [has, hp.entity]⟩

namespace Call

variable {c : Call}

/-- A call that fails has done nothing to the windows after it was prepared. -/
theorem windows_of_error {f : Fault} (h : c.run env w = (.error f, w')) :
    w'.windows = (c.prepare env w).2.windows := by
  rw [run_eq, run_bind] at h
  rcases hp : c.prepare env w with ⟨f' | p, w₁⟩ <;> rw [hp] at h
  · cases h
    rfl
  · obtain ⟨m, e, hdeclares⟩ := prepare_ok hp
    exact windows_of_complete_error hdeclares h

/-- What a call that succeeds has prepared, and what it has done after that. -/
structure Done (c : Call) (env : Env) (w : World) (t : Term) (w' : World) (p : Prepared) (id : Nat) (w₁ : World) :
    Prop where
  prepared : c.prepare env w = (.ok p, w₁)
  target : p.target = .handle (.ontology id)
  entity : p.entity = t
  isEntity : t.isEntity = true
  after : w' = (w₁.setOntology id ((w₁.ontology id).addAll p.axioms)).record env.context.window t

theorem run_ok {t : Term} (h : c.run env w = (.ok t, w')) : ∃ p id w₁, c.Done env w t w' p id w₁ := by
  rw [run_eq] at h
  obtain ⟨p, w₁, hp, hcomplete⟩ := bind_ok h
  obtain ⟨m, e, hdeclares⟩ := prepare_ok hp
  obtain ⟨id, htarget, rfl, rfl⟩ := complete_ok hdeclares hcomplete
  exact ⟨p, id, w₁, hp, htarget, hdeclares.entity, rfl, rfl⟩

end Call

end Builder

end Authoring
