import Authoring.Probe
import Authoring.Proofs.Local

/-!
# Calls are local

Reading references, making the values of frames and compiling frames change nothing that is stored, in whatever ontology
names are read. A change of a store changes a part of the ontology that it is given, and so whatever is put together from
such changes is local: the builders, the helpers that add frames to an entity, the group axioms, and the removal of an entity
(`Service.Call.run_local`, `Change.removeEntity_local`).
-/

namespace Authoring

open Act

variable {part : Ontology.Part} {id : Nat} {t : Term}

/-! ## References -/

theorem Act.invoke_local (callee : Term) (args : List Term) : (invoke callee args).Local part id t := by
  unfold invoke
  split
  · exact .evaluate _ _
  · exact .evaluate _ _
  · exact .of_looks (.applyNaming _ _)
  · refine .bind (.of_looks (.asOntology _)) fun _ => .bind .get fun _ => ?_
    refine .bind (.aside fun _ => ⟨rfl, rfl, rfl, rfl⟩) fun _ => ?_
    exact .ite (.throw _) (.pure _)
  · exact .throw _

namespace Current

theorem options_local (subject : Term) : (options subject).Local part id t := by
  refine .bind (.of_reads (orGiven_reads subject)) fun s => .bind (.of_reads (.requireStable s)) fun _ => ?_
  intro env _ w _
  rw [run_bind, run_get]
  dsimp only
  cases w.optionsOf.lookup s with
  | some => exact .refl w
  | none => exact .of_same rfl rfl rfl rfl

theorem iriForName_local (name ontology : Term) : (iriForName name ontology).Local part id t := by
  unfold iriForName
  refine .bind (.of_reads (orGiven_reads ontology)) fun o => .bind (options_local o) fun n => .bind .get fun w => ?_
  split
  · exact .bind (.of_looks (.iriOf o)) fun _ => .bind .get fun _ => .bind (.of_looks (.display name)) fun _ => .pure _
  · exact .bind (invoke_local _ _) fun u => .of_looks (.display u)

end Current

namespace Reference

theorem forceWithin_local : ∀ (n : Nat) (u : Term), (forceWithin n u).Local part id t
  | 0, u => by
    rw [forceWithin.eq_def]
    exact .ite (.throw _) (.pure _)
  | n + 1, u => by
    rw [forceWithin.eq_def]
    exact .ite (.bind (invoke_local u []) fun v => forceWithin_local n v) (.pure _)

theorem denote_local (u : Term) (kind : EntityKind) (ontology : Term) (maker : Nat) :
    (denote u kind ontology maker).Local part id t := by
  unfold denote
  cases form u kind
  case entity | expression => exact .pure _
  case iri => exact .of_looks (.bind (.display u) fun _ => .pure _)
  case name => exact .bind (Current.iriForName_local u ontology) fun _ => .pure _
  case producer | invalid => exact .refuse _ _

/-- **Reading a reference changes nothing**, in whatever ontology it is read. -/
theorem resolve_local (u : Term) (kind : EntityKind) (ontology : Term) (maker : Nat := Factory.shared) :
    (resolve u kind ontology maker).Local part id t := by
  refine .bind ?_ fun v => denote_local v kind ontology maker
  exact .bind (.of_reads fun _ _ => rfl) fun env => forceWithin_local env.depth u

end Reference

open Reference

/-! ## Frame values -/

namespace Expression

theorem restrictEach_local (o : Operator) (property : Term) (fillers : List Term) :
    (restrictEach o property fillers).Local part id t :=
  .bind (resolve_local _ _ _) fun _ => .bind (.leaves _) fun _ => .mapM fun _ =>
    .bind (resolve_local _ _ _) fun _ => .of_looks (.expression _ _ _)

theorem some_local (property : Term) (fillers : List Term) : (some property fillers).Local part id t :=
  .bind (restrictEach_local _ _ _) fun _ => .pure _

theorem only_local (property : Term) (fillers : List Term) : (only property fillers).Local part id t :=
  .bind (restrictEach_local _ _ _) fun _ => .pure _

theorem and_local (classes : List Term) : (and classes).Local part id t :=
  .bind (.leaves _) fun _ => .bind (.mapM fun _ => resolve_local _ _ _) fun _ => .of_looks (.combine _ _)

theorem or_local (classes : List Term) : (or classes).Local part id t :=
  .bind (.leaves _) fun _ => .bind (.mapM fun _ => resolve_local _ _ _) fun _ => .of_looks (.combine _ _)

theorem someOnly_local (property : Term) (fillers : List Term) : (someOnly property fillers).Local part id t :=
  .bind (some_local _ _) fun _ => .bind (or_local _) fun _ => .bind (only_local _ _) fun _ => .pure _

theorem singleFiller_local (classes : List Term) : (singleFiller classes).Local part id t := by
  refine .bind (.leaves _) fun us => ?_
  split
  · exact resolve_local _ _ _
  · exact .throw _

theorem not_local (classes : List Term) : (not classes).Local part id t :=
  .bind (singleFiller_local _) fun _ => .of_looks (.expression _ _ _)

theorem count_local (o : Operator) (cardinality property : Term) (classes : List Term) :
    (count o cardinality property classes).Local part id t := by
  have rest : (do
      let p ← resolveObjectProperty property .null
      Factory.expression o [p, ← singleFiller classes] cardinality).Local part id t :=
    .bind (resolve_local _ _ _) fun _ => .bind (singleFiller_local _) fun _ => .of_looks (.expression _ _ _)
  refine .bind (.of_looks (.isNegative cardinality)) fun _ => .ite ?_ rest
  exact .bind (.of_looks (.display cardinality)) fun _ => .bind (.throw _) fun _ => rest

theorem oneOf_local (individuals : List Term) : (oneOf individuals).Local part id t := by
  refine .bind (.leaves _) fun us => .bind (.mapM fun _ => resolve_local _ _ _) fun members => ?_
  split
  · exact .throw _
  · exact .of_looks (.expression _ _ _)

theorem note_local (property value language : Term) : (note property value language).Local part id t :=
  .bind (.of_looks (.languageFor _ _)) fun _ => .bind (resolve_local _ _ _) fun _ =>
    .of_looks (.bind (.note _ _ _) fun _ => .pure _)

end Expression

theorem Service.Value.run_local (v : Service.Value) : v.run.Local part id t := by
  cases v with
  | some p ts => exact Expression.some_local _ _
  | only p ts => exact Expression.only_local _ _
  | someOnly p ts => exact Expression.someOnly_local _ _
  | and ts => exact Expression.and_local _
  | or ts => exact Expression.or_local _
  | not ts => exact Expression.not_local _
  | count o n p ts => exact Expression.count_local _ _ _ _
  | oneOf ts => exact Expression.oneOf_local _
  | note p u language => exact Expression.note_local _ _ _
  | fact negated p u => exact .pure _

/-! ## Compiling frames -/

namespace Compile

theorem relation_local (owner value ontology : Term) (maker : Nat) :
    (relation owner value ontology maker).Local part id t := by
  unfold relation
  split
  · exact .bind (resolve_local _ _ _ _) fun _ => .bind (resolve_local _ _ _ _) fun _ => .pure _
  · exact .refuse _ _

theorem axiomFor_local (owner ontology : Term) (maker : Nat) (tag : FrameTag) (value : Term) :
    (axiomFor owner ontology maker tag value).Local part id t := by
  have reading : ∀ {β : Type} (kind : EntityKind) {f : Term → Act β}, (∀ u, (f u).Looks) →
      (resolve value kind ontology maker >>= f).Local part id t :=
    fun kind _ hf => .bind (resolve_local _ kind _ _) fun u => .of_looks (hf u)
  have annotated : ∀ property : Term, Looks (do
      let subject ← iriOf owner
      let a ← annotationAlong property value
      return some (.annotationAssertion (.iri subject) a.toTerm) : Act (Option Axiom)) :=
    fun property => .bind (.iriOf owner) fun _ => .bind (.annotationAlong _ _) fun _ => .pure _
  unfold axiomFor
  cases tag
  case name => exact .pure _
  case subclass | domain | range | type => exact reading .cls fun _ => .pure _
  case equivalent | disjoint => exact reading .cls fun _ => .unlessSelf _ _ _
  case inverse => exact reading .objectProperty fun _ => .bind (.requireStable _) fun _ => .pure _
  case superproperty =>
    refine .bind (.of_looks (.kindOf owner)) fun k => .ite ?_ ?_
    · exact reading .annotationProperty fun _ => .pure _
    · exact reading .objectProperty fun _ => .pure _
  case characteristic =>
    cases Characteristic.ofTerm? value with
    | none => exact .of_looks (.bind (.inspect _) fun _ => .throw _)
    | some c => exact .pure _
  case fact => exact .bind (relation_local _ _ _ _) fun _ => .pure _
  case same | different => exact reading .individual fun _ => .unlessSelf _ _ _
  case note =>
    dsimp only
    split
    · exact .of_looks (.bind (.iriOf owner) fun _ => .pure _)
    · exact .refuse _ _
  case comment | label => exact .of_looks (annotated _)

/-- **Compiling frames changes nothing.** -/
theorem compile_local (owner : Term) (explicit defaults : List (Term × Term)) (schema ontology : Term)
    (maker : Nat := Factory.shared) : (compile owner explicit defaults schema ontology maker).Local part id t := by
  refine .bind (.of_looks (.checked _ _ _ _)) fun frames => .bind (.mapM fun tag => ?_) fun _ => .pure _
  exact .bind (.mapM fun value => axiomFor_local _ _ _ _ _) fun _ => .pure _

end Compile

/-! ## Changes -/

namespace Store

theorem requireManaged_local (store : Nat) (o : Term) : (requireManaged store o).Local part id t :=
  .of_reads (requireManaged_reads store o)

/-- Looking for an axiom before anything is done with it. -/
theorem change_local {f : Ontology → Axiom → Ontology} {g : Ontology → Axiom → Bool}
    (hf : ∀ o a, f o a = o.taking .axioms (f o a)) (store : Nat) (u : Term) : Act.Local .axioms id t (do
      requireManaged store t
      let a ← requireAxiom u
      let j ← asOntology t
      requireStable u
      let o := (← MonadState.get).ontology j
      modify fun w => w.setOntology j (f o a)
      return g o a) := by
  refine .bind (requireManaged_local store t) fun _ => .bind (.of_reads (requireAxiom_reads u)) fun a => ?_
  refine .asOntology (.bind (.of_reads (.requireStable u)) fun _ => ?_)
  exact fun _ _ w _ => .setOntology (hf _ a)

theorem add_local (store : Nat) (u : Term) : (add store t u).Local .axioms id t := by
  refine change_local (f := Ontology.add) (g := fun o a => !o.axioms.contains a) (fun o a => ?_) store u
  unfold Ontology.add
  split <;> rfl

theorem discard_local (store : Nat) (u : Term) : (discard store t u).Local .axioms id t :=
  change_local (f := Ontology.remove) (g := fun o a => o.axioms.contains a) (fun _ _ => rfl) store u

theorem addImport_local (store : Nat) (u : Term) : (addImport store t u).Local .imports id t := by
  refine .bind (requireManaged_local store t) fun _ => .bind (.of_reads (.iriOf u)) fun iri => .asOntology ?_
  intro env _ w _
  show w.Local .imports id (if _ then w else _)
  split
  · exact .refl w
  · exact .setOntology rfl

theorem annotate_local (store : Nat) (u : Term) : (annotate store t u).Local .annotations id t := by
  refine .bind (requireManaged_local store t) fun _ => ?_
  split
  · exact .of_looks (.bind (.inspect u) fun _ => .throw _)
  · refine .asOntology fun env _ w _ => ?_
    show w.Local .annotations id (if _ then w else _)
    split
    · exact .refl w
    · exact .setOntology rfl

end Store

namespace Change

theorem add_local (u : Term) : (add u t).Local .axioms id t :=
  .given fun _ => .bind .get fun _ => .bind (Store.add_local _ u) fun _ => .pure u

theorem addEach_local (us : List Term) : (addEach us t).Local .axioms id t :=
  .given fun _ => .mapM fun u => add_local u

theorem remove_local (u : Term) : (remove u t).Local .axioms id t :=
  .given fun _ => .bind .get fun _ => .bind (Store.discard_local _ u) fun _ => .pure u

theorem removeEntity_local (u : Term) : (removeEntity u t).Local .axioms id t := by
  refine .given fun o => .bind .get fun _ => .bind (.of_reads (Query.referencing_reads o u)) fun doomed => ?_
  refine .bind (.forM fun a => .bind (Store.discard_local _ _) fun _ => .pure _) fun _ => ?_
  exact .of_looks (.bind (.iriOf u) fun _ => .bind (.iriOf o) fun _ => .pure _)

end Change

/-! ## Builders -/

namespace Builder

theorem build_local (kind : EntityKind) (name : Term) (frames : FrameMap) :
    (build kind name frames t).Local .axioms id t := by
  refine .given fun o => .bind (resolve_local _ _ _) fun e => .bind (.of_looks .defaults) fun d => ?_
  refine .bind (Compile.compile_local _ _ _ _ _) fun as => ?_
  refine .bind (.bind (Change.addEach_local _) fun _ => .pure _) fun _ => ?_
  refine .bind ?_ fun _ => .of_looks (.bind (.iriOf o) fun _ => .pure e)
  intro env _ w _
  rw [run_record]
  cases env.context.window <;> exact .of_same rfl rfl rfl rfl

theorem ofKind_local (kind : EntityKind) (name frames : Term) (more : List (String × Term)) :
    (ofKind kind name frames t more).Local .axioms id t := by
  have gathered : ∀ {f : FrameMap → Act Term}, (∀ all, (f all).Local .axioms id t) →
      (gather frames more >>= f).Local .axioms id t := fun hf => .bind (.of_looks (.gather _ _)) hf
  cases kind
  case cls => exact gathered fun all => .bind (.of_looks (.className name all)) fun n => build_local _ n all
  all_goals exact gathered fun all => build_local _ name all

/-- Preparing a call changes nothing, wherever the entity is built. -/
theorem prepareOfKind_local (kind : EntityKind) (name frames ontology : Term) (more : List (String × Term)) :
    (prepareOfKind kind name frames ontology more).Local part id t := by
  have prepared : ∀ n all, (prepare kind n all ontology).Local part id t := fun n all =>
    .bind (.of_reads (Current.orGiven_reads _)) fun _ => .bind (resolve_local _ _ _) fun _ =>
      .bind (.of_looks .defaults) fun _ => .bind (Compile.compile_local _ _ _ _ _) fun _ => .pure _
  refine .bind (.of_looks (.gather frames more)) fun all => .ite ?_ (prepared _ all)
  exact .bind (.of_looks (.className name all)) fun n => prepared n all

/-- Whatever is refined, and with whatever frames. -/
theorem Call.run_local (c : Call) : c.run.Local .axioms id c.ontology := by
  cases c with
  | make kind name frames ontology more => exact ofKind_local kind name frames more
  | refine u frames ontology more =>
    cases u
    case entity m e => exact ofKind_local e.kind _ frames more
    all_goals exact .of_looks (.bind (.inspect _) fun _ => .throw _)

theorem declareClasses_local (names : List Term) : (declareClasses names t).Local .axioms id t :=
  .bind (.leaves names) fun _ => .mapM fun u => ofKind_local .cls u _ _

theorem defineClasses_local (items : List Term) : (defineClasses items t).Local .axioms id t := by
  refine .mapM fun u => ?_
  split
  · exact .bind (.of_looks (.pairOf _)) fun p => ofKind_local .cls p.1 p.2 _
  · exact ofKind_local .cls _ _ _

theorem addFrame_local (kind : EntityKind) (tag : FrameTag) (entity : Term) (values : List Term) :
    (addFrame kind tag entity values t).Local .axioms id t :=
  .given fun _ => .bind (resolve_local _ _ _) fun _ => .bind (.of_looks (.framesOf _)) fun _ =>
    .bind (Compile.compile_local _ _ _ _ _) fun _ => Change.addEach_local _

theorem disjointClasses_local (classes : List Term) : (disjointClasses classes t).Local .axioms id t := by
  refine .given fun o => .bind (.leaves classes) fun us => .bind (.mapM fun u => ?_) fun members => ?_
  · exact .bind (resolve_local _ _ _) fun c => .of_looks (.bind (.requireStable c) fun _ => .pure c)
  · exact .ite (.pure _) (Change.add_local _)

theorem addDisjointUnion_local (owner : Term) (parts : List Term) :
    (addDisjointUnion owner parts t).Local .axioms id t :=
  .given fun _ => .bind (resolve_local _ _ _) fun _ => .bind (.leaves parts) fun _ =>
    .bind (.mapM fun _ => resolve_local _ _ _) fun _ => .bind (.of_looks (.forM .requireStable)) fun _ => Change.add_local _

end Builder

/-- Every call of the authoring layer, given what it is given as an ontology. -/
theorem Service.Call.run_local (c : Service.Call) : c.run.Local .axioms id c.ontology := by
  cases c with
  | build c => exact c.run_local
  | declare ts o => exact .bind (Builder.declareClasses_local ts) fun _ => .pure _
  | define ts o => exact .bind (Builder.defineClasses_local ts) fun _ => .pure _
  | frame kind tag u ts o => exact .bind (Builder.addFrame_local kind tag u ts) fun _ => .pure _
  | disjoint ts o => exact Builder.disjointClasses_local ts
  | union u ts o => exact Builder.addDisjointUnion_local u ts
  | value v => exact v.run_local

end Authoring
