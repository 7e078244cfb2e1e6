import Authoring.Demo
import Authoring.Proofs.Creation
import Authoring.Proofs.Window.Orderly

/-!
# Operations and windows

What is done beside building is orderly too: creating and removing ontologies, changing them, reading them and querying
the hierarchy, and the demonstrations, which do all of this. Most of it leaves the windows alone. But removing an ontology
calls hooks, and a query reads references; both may call producers, and these may build entities.

So a plan may take any of it for a step, and what is said of the windows of its scopes holds.
-/

namespace Authoring

open Act

/-! ## More ways of composing -/

namespace Act

variable {α β γ : Type}

theorem Orderly.forM {f : γ → Act PUnit} {l : List γ} (h : ∀ c, Orderly (f c)) : Orderly (l.forM f) := by
  induction l with
  | nil => exact .pure _
  | cons c l ih => exact .bind (h c) fun _ => ih

theorem Orderly.modify {f : World → World} (h : ∀ w, (f w).windows = w.windows) : Orderly (modify f : Act PUnit) :=
  .of_quiet (.modify h)

theorem Orderly.inspect (t : Term) : Orderly (Act.inspect t) := .of_reads fun _ _ => rfl

theorem ofExcept_reads (r : Except Fault α) : Reads (ofExcept r : Act α) := by
  cases r with
  | ok a => exact .pure a
  | error f => exact .throw f

theorem liftExcept_reads (r : Except Fault α) : Reads (liftExcept r : Act α) := by
  cases r with
  | ok a => exact .pure a
  | error f => exact .throw f

theorem run_tryCatch (x : Act α) (h : Fault → Act α) (env : Env) (w : World) :
    (tryCatch x h) env w = match x env w with
      | (.ok a, w') => (.ok a, w')
      | (.error e, w') => h e env w' := by
  show (ExceptT.tryCatch (x env) fun e => h e env : StateM World _) w = _
  unfold ExceptT.tryCatch ExceptT.mk
  show (StateT.bind (x env) _ : StateM World _) w = _
  unfold StateT.bind
  rcases x env w with ⟨e | a, w'⟩ <;> rfl

/-- Catching a fault is keeping the outcome as a value, and going on from that. -/
theorem Orderly.tryCatch {x : Act α} {h : Fault → Act α} (hx : Orderly x) (hh : ∀ e, Orderly (h e)) :
    Orderly (tryCatch x h) := by
  have heq : MonadExcept.tryCatch x h = Act.attempt x >>= fun r => MonadExcept.tryCatch (ofExcept r) h := by
    funext env w
    rw [run_tryCatch, run_bind, run_attempt]
    rcases x env w with ⟨e | a, w'⟩ <;> rfl
  rw [heq]
  refine .bind (.attempt hx) fun r => ?_
  cases r with
  | ok a => exact .pure a
  | error e => exact hh e

end Act

/-! ## Stores -/

namespace Store

variable {store : Nat}

theorem contains_reads (store : Nat) (t : Term) : Reads (contains store t) := by
  intro env w
  obtain ⟨b, h⟩ := exists_run_contains store t env w
  rw [h]

/-- A remove hook may be a producer. -/
theorem runHook_orderly (id : Nat) (h : Hook) : Orderly (runHook id h) := by
  cases h with
  | forget => exact .modify fun _ => rfl
  | user callee => exact .bind (invoke_orderly _ _) fun _ => .pure _

theorem detach_orderly (store : Nat) (iri : String) (id : Nat) : Orderly (detach store iri id) :=
  .bind .get fun _ => .bind (.modify fun _ => rfl) fun _ => .forM (runHook_orderly id)

theorem remove_orderly (store : Nat) (t : Term) : Orderly (remove store t) := by
  unfold remove
  split
  · exact .bind .get fun w => .ite (.bind (detach_orderly _ _ _) fun _ => .pure _) (.pure _)
  · refine .bind (.display _) fun iri => .bind .get fun w => ?_
    split
    · exact .bind (detach_orderly _ _ _) fun _ => .pure _
    · exact .pure _

theorem create_orderly (store : Nat) (iri abbreviation : Term) : Orderly (create store iri abbreviation) :=
  .bind (.display iri) fun _ => .bind (remove_orderly store _) fun _ => .of_quiet fun _ _ => rfl

theorem addHook_orderly (store : Nat) (h : Hook) : Orderly (addHook store h) := by
  refine .modify fun w => ?_
  dsimp only
  split <;> rfl

theorem addImport_orderly (store : Nat) (o t : Term) : Orderly (addImport store o t) := by
  refine .bind (.of_reads (requireManaged_reads store o)) fun _ => .bind (.of_reads (.iriOf t)) fun _ => ?_
  refine .bind (.of_reads (.asOntology o)) fun _ => .modify fun w => ?_
  dsimp only
  split <;> rfl

theorem annotate_orderly (store : Nat) (o t : Term) : Orderly (annotate store o t) := by
  refine .bind (.of_reads (requireManaged_reads store o)) fun _ => ?_
  split
  · exact .bind (.inspect t) fun _ => .throw _
  · refine .bind (.of_reads (.asOntology o)) fun _ => .modify fun w => ?_
    dsimp only
    split <;> rfl

end Store

/-! ## The current ontology and new ontologies -/

namespace Current

theorem spaceOr_orderly (t : Term) : Orderly (spaceOr t) := .of_quiet (.of_calm fun _ => spaceOr_calm t)

theorem register_orderly (ontology space : Term) : Orderly (register ontology space) :=
  .bind (spaceOr_orderly space) fun _ => .bind (requireStable_orderly _) fun _ =>
    .bind (.modify fun _ => rfl) fun _ => .bind (.of_reads (.iriOf ontology)) fun _ => .pure _

theorem assignNaming_orderly (t naming : Term) : Orderly (assignNaming t naming) := by
  refine .bind (.of_quiet (options_quiet t)) fun _ => ?_
  split
  · exact .modify fun _ => rfl
  · exact .ite (.modify fun _ => rfl) (.throw _)

theorem install_orderly (id : Nat) : Orderly (install id) :=
  .bind (.of_reads fun _ _ => rfl) fun _ => .bind (Store.addHook_orderly id .forget) fun _ =>
    .bind (.modify fun _ => rfl) fun _ => .pure _

end Current

namespace Creation

theorem describe_orderly (property : Term) (s : Option String) : Orderly (describe property s) := by
  cases s with
  | none => exact .pure _
  | some s =>
    exact .bind .get fun _ => .bind (.of_quiet (.of_calm fun _ => Compile.note_calm property _ _)) fun _ => .pure _

theorem annotate_orderly (c : Config) (store id : Nat) : Orderly (annotate c store id) :=
  .bind (describe_orderly _ _) fun _ => .bind (describe_orderly _ _) fun _ =>
    .bind (.forM (Store.annotate_orderly _ _)) fun _ => .pure _

theorem setNaming_orderly (id : Nat) (naming : Term) : Orderly (setNaming id naming) := by
  unfold setNaming
  split
  · exact .pure _
  · exact .bind (.of_quiet (Current.options_quiet _)) fun _ => .modify fun _ => rfl

/-- Creating an ontology calls the remove hooks for the one that it replaces. -/
theorem create_orderly (iri abbreviation naming comment versionInfo annotations : Term) :
    Orderly (create iri abbreviation naming comment versionInfo annotations) := by
  refine .bind .get fun w => .bind (.of_reads (ofExcept_reads _)) fun c => ?_
  rw [build_eq]
  refine .bind (.of_reads fun _ _ => rfl) fun store => .bind (Store.create_orderly _ _ _) fun id => ?_
  exact .bind (setNaming_orderly _ _) fun _ => annotate_orderly _ _ _

theorem define_orderly (iri space abbreviation naming comment versionInfo annotations : Term) :
    Orderly (define iri space abbreviation naming comment versionInfo annotations) :=
  .bind (create_orderly _ _ _ _ _ _) fun _ => .bind (Current.register_orderly _ _) fun _ => .pure _

end Creation

/-! ## Queries -/

namespace Query

theorem current_reads (t : Term) : Reads (current t) := .bind (.asOntology t) fun _ _ _ => rfl

theorem axioms_reads (ontology kind : Term) : Reads (axioms ontology kind) := by
  refine .bind (current_reads ontology) fun o => ?_
  split <;> exact .pure _

theorem entities_reads (ontology kind : Term) : Reads (entities ontology kind) := by
  refine .bind (current_reads ontology) fun o => ?_
  split
  · exact .pure _
  · exact .filterM fun t => .bind (.kindOf t) fun _ => .pure _

theorem isDeclared_reads (ontology t : Term) : Reads (isDeclared ontology t) :=
  .bind (current_reads ontology) fun _ => .bind (.requireStable t) fun _ => .pure _

theorem partners_reads (k : AxiomKind) (ontology t : Term) : Reads (partners k ontology t) :=
  .bind (current_reads ontology) fun _ => .ite (.pure _) (.bind (.requireFindable t) fun _ => .pure _)

theorem stats_quiet (ontology : Term) : Quiet (stats ontology) := by
  refine .bind (.of_reads (current_reads ontology)) fun o => .bind (.mapM fun t _ => ?_) fun kinds => .pure _
  exact .of_reads (.entityKindOf t)

end Query

namespace Hierarchy

theorem reference_orderly (t ontology : Term) : Orderly (reference t ontology) := by
  unfold reference
  split <;> exact Reference.resolve_orderly _ _ _

theorem pair_orderly (first second ontology : Term) : Orderly (pair first second ontology) :=
  .bind (reference_orderly _ _) fun _ => .bind (Reference.resolve_orderly _ _ _) fun _ => .pure _

theorem direct_orderly (d : Direction) (t ontology : Term) : Orderly (direct d t ontology) := by
  refine .bind (Current.orGiven_orderly _) fun o => .bind (reference_orderly _ _) fun u => ?_
  split
  · exact .of_reads (.bind (Query.current_reads o) fun _ => .pure _)
  · exact .of_reads (.bind (Query.current_reads o) fun _ => .pure _)
  · exact .pure _

theorem closureFrom_orderly (d : Direction) (ontology : Term) :
    ∀ (fuel : Nat) (visited rest : List Term), Orderly (closureFrom d ontology fuel visited rest)
  | fuel, visited, [] => by
    rw [closureFrom]
    exact .pure _
  | 0, visited, t :: rest => by
    rw [closureFrom]
    exact .ite (closureFrom_orderly d ontology 0 visited rest) (.throw _)
  | fuel + 1, visited, t :: rest => by
    rw [closureFrom]
    refine .ite (closureFrom_orderly d ontology (fuel + 1) visited rest) (.bind (requireStable_orderly t) fun _ => ?_)
    exact .bind (direct_orderly d t ontology) fun next => closureFrom_orderly d ontology fuel _ _
termination_by fuel _ rest => (fuel, rest.length)

theorem closure_orderly (d : Direction) (t ontology : Term) : Orderly (closure d t ontology) :=
  .bind (Current.orGiven_orderly _) fun _ => .bind (direct_orderly _ _ _) fun _ =>
    .bind .get fun _ => closureFrom_orderly _ _ _ _ _

theorem reaches_orderly (d : Direction) (first second ontology : Term) : Orderly (reaches d first second ontology) :=
  .bind (Current.orGiven_orderly _) fun _ => .bind (pair_orderly _ _ _) fun _ =>
    .bind (closure_orderly _ _ _) fun _ => .bind (requireStable_orderly _) fun _ => .pure _

theorem related_orderly (k : AxiomKind) (first second ontology : Term) : Orderly (related k first second ontology) :=
  .bind (Current.orGiven_orderly _) fun _ => .bind (pair_orderly _ _ _) fun _ =>
    .bind (.of_reads (Query.partners_reads _ _ _)) fun _ => .bind (requireStable_orderly _) fun _ => .pure _

end Hierarchy

theorem Factory.entityOf_orderly (maker : Nat) (kind iri : Term) : Orderly (entityOf maker kind iri) := by
  unfold entityOf
  split
  · exact .bind (.display iri) fun _ => .pure _
  · exact .bind (.inspect kind) fun _ => .throw _

namespace Reference

theorem resolveAs_orderly (t expected ontology : Term) (maker : Option Nat) :
    Orderly (resolveAs t expected ontology maker) := by
  have made : ∀ {iri : Act Term}, Orderly iri → Orderly (make maker expected iri) := by
    intro iri hiri
    unfold make
    split
    · exact .throw _
    · exact .bind hiri fun _ => Factory.entityOf_orderly _ _ _
  refine .bind (.bind (.of_reads fun _ _ => rfl) fun env => forceWithin_orderly env.depth t) fun left => ?_
  cases formAs left expected with
  | entity | expression => exact .pure _
  | iri => exact made (.pure _)
  | name => exact made (.bind (Current.iriForName_orderly _ _) fun _ => .pure _)
  | producer | invalid => exact .bind (.of_reads (.expectedName expected)) fun _ => .refuse _ _

end Reference

/-! ## The demonstrations -/

namespace Demo

theorem print_orderly (s : String) : Orderly (print s) := .modify fun _ => rfl

theorem heading_orderly (lead title : String) : Orderly (heading lead title) :=
  .bind (print_orderly _) fun _ => .bind (print_orderly _) fun _ => print_orderly _

theorem part_orderly {α : Type} {body : Act α} (h : Orderly body) : Orderly (part body) :=
  .bind .get fun _ => .tryCatch h fun e => .bind (.modify fun _ => rfl) fun _ => .throw e

theorem owlClass_orderly (name : String) (frames : List (String × Term)) : Orderly (owlClass name frames) :=
  Builder.ofKind_orderly .cls _ _ _ _

theorem entity_orderly (kind : EntityKind) (name : String) (frames : List (String × Term)) :
    Orderly (entity kind name frames) := Builder.ofKind_orderly kind _ _ _ _

theorem classesAndGroups_orderly : Orderly classesAndGroups := by
  refine part_orderly (.bind (heading_orderly _ _) fun _ => .bind (Expression.note_orderly _ _ _) fun german => ?_)
  refine .bind (owlClass_orderly _ _) fun food => .bind (Scope.run_orderly (.inverse .null) fun _ => ?_) fun p => ?_
  · exact .bind (entity_orderly _ _ _) fun p => .bind (entity_orderly _ _ _) fun _ => .pure p
  refine .bind (print_orderly _) fun _ => .bind (owlClass_orderly _ _) fun topping => ?_
  refine .bind (Scope.run_orderly (.trail (.text "Topping")) fun _ => ?_) fun toppings => ?_
  · refine Scope.run_orderly (.subclasses topping (.bool true) (.bool true) .null) fun _ => ?_
    refine .bind (owlClass_orderly _ _) fun cheese => .bind (owlClass_orderly _ _) fun tomato => ?_
    exact .bind (owlClass_orderly _ _) fun _ => .pure _
  refine .bind (print_orderly _) fun _ => .bind (Scope.run_orderly (.disjoint .null) fun _ => ?_) fun pizza => ?_
  · refine .bind (Expression.some_orderly _ _) fun topped => .bind (owlClass_orderly _ _) fun pizza => ?_
    exact .bind (owlClass_orderly _ _) fun _ => .pure _
  refine .bind (Expression.someOnly_orderly _ _) fun closed => .bind (Expression.note_orderly _ _ _) fun note => ?_
  refine .bind (owlClass_orderly _ _) fun _ => .bind (print_orderly _) fun _ => ?_
  exact .bind (entity_orderly _ _ _) fun _ => .bind (entity_orderly _ _ _) fun _ => .pure _

theorem queries_orderly (pizza cheese tomato : Term) : Orderly (queries pizza cheese tomato) := by
  refine part_orderly (.bind (heading_orderly _ _) fun _ => .bind (owlClass_orderly _ _) fun margherita => ?_)
  refine .bind (Hierarchy.closure_orderly _ _ _) fun _ => .bind (Hierarchy.reaches_orderly _ _ _ _) fun isPizza => ?_
  refine .bind (print_orderly _) fun _ => .bind (Hierarchy.related_orderly _ _ _ _) fun apart => ?_
  refine .bind (print_orderly _) fun _ => .bind (Probe.run_orderly Probe.removeEntity_orderly ?_ _ fun bound => ?_)
    fun _ => .bind (print_orderly _) fun _ => .pure _
  · refine Probe.bindAll_orderly (List.forall_mem_singleton.mpr fun bound => ?_) []
    rw [Probe.bind, pure_bind]
    exact .bind (owlClass_orderly _ _) fun _ => .bind (requireStable_orderly _) fun _ => .pure _
  · refine .bind (.of_reads (Builder.entriesOf_reads _)) fun es => .bind (Hierarchy.reaches_orderly _ _ _ _) fun _ => ?_
    exact print_orderly _

theorem tour_orderly : Orderly tour := by
  refine part_orderly (.bind (heading_orderly _ _) fun _ => Scope.run_orderly (.space (.text "pizza")) fun _ => ?_)
  refine .bind (Creation.define_orderly _ _ _ _ _ _ _) fun onto => .bind classesAndGroups_orderly fun t => ?_
  extract_lets finish
  have hfinish : ∀ u, Orderly (finish u) := by
    intro u
    refine .bind (.of_quiet (Query.stats_quiet onto)) fun s => .bind (print_orderly _) fun _ => ?_
    refine .bind (.of_reads (Query.current_reads onto)) fun o => .bind .get fun w => ?_
    exact .bind (.of_reads (liftExcept_reads _)) fun _ => .pure _
  split
  · exact .bind (queries_orderly _ _ _) fun _ => hfinish ()
  · exact hfinish ()

end Demo

end Authoring
