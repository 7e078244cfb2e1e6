import Authoring.Proofs.Window.Operations
import Authoring.Script.Evaluate

/-!
# What a script can call

A script calls operations by name. **Whatever it calls is orderly, but for `record`** (`Script.operationOf_orderly`),
which writes into the active window by itself. So is what it writes where a value is wanted, if it does not call `record`
there (`Script.eval_orderly`). Any such expression can be a step of a plan, and what is said of the windows of its scopes
holds.

**What carries the proof.** The catalogue is gone through group by group. An entry takes the arguments apart, does one
thing, and gives the answer as a term, so that it is orderly if that thing is. For expressions the induction is on the
expression.

**What it does not establish.** Delayed expressions are not looked into: that they run orderly acts is assumed of the
environment, as it is throughout.
-/

namespace Authoring.Script

open Act

/-! ## Operations -/

/-- An operation that is orderly, whatever its arguments. -/
def Operation.Orderly {α : Type} (op : Operation α) : Prop := ∀ a, Act.Orderly (op.act a)

/-- Operations all of which are orderly. -/
def AreOrderly (c : Catalogue Term) : Prop := ∀ e ∈ c, e.2.Orderly

namespace AreOrderly

variable {c : Catalogue Term} {name : String} {op : Operation Term}

theorem nil : AreOrderly [] := nofun

theorem cons (h : op.Orderly) (hc : AreOrderly c) : AreOrderly ((name, op) :: c) := List.forall_mem_cons.mpr ⟨h, hc⟩

end AreOrderly

section
variable {α : Type} {p q r : Parameter}

theorem nullary_orderly {x : Act α} (h : Act.Orderly x) : (nullary x).Orderly := fun _ => h

theorem unary_orderly {f : Term → Act α} (h : ∀ t, Act.Orderly (f t)) : (unary p f).Orderly := by
  intro a
  unfold unary
  dsimp only
  split
  · exact h _
  · exact .throw _

theorem binary_orderly {f : Term → Term → Act α} (h : ∀ t u, Act.Orderly (f t u)) : (binary p q f).Orderly := by
  intro a
  unfold binary
  dsimp only
  split
  · exact h _ _
  · exact .throw _

theorem ternary_orderly {f : Term → Term → Term → Act α} (h : ∀ t u v, Act.Orderly (f t u v)) :
    (ternary p q r f).Orderly := by
  intro a
  unfold ternary
  dsimp only
  split
  · exact h _ _ _
  · exact .throw _

end

/-! ## Frames, expressions and builders -/

/-- What is done with frames that are given as a map. -/
theorem framesOf_orderly {α : Type} {t : Term} {f : List (Term × Term) → Act α} (hf : ∀ es, Act.Orderly (f es)) :
    Act.Orderly (entriesOf t >>= fun es => framesOf es >>= f) :=
  .bind (.of_reads (Builder.entriesOf_reads _)) fun _ => .bind (.of_reads fun _ _ => rfl) hf

theorem frames_orderly : AreOrderly frames :=
  .cons (unary_orderly fun _ => .pure _) <| .cons (unary_orderly fun _ => .pure _) <|
    .cons (unary_orderly fun _ => .bind (leaves_orderly _) fun _ => .pure _) <|
    .cons (unary_orderly fun _ => framesOf_orderly fun _ => .pure _) <|
    .cons (binary_orderly fun _ _ => framesOf_orderly fun _ => framesOf_orderly fun _ => .pure _) .nil

theorem expressions_orderly : AreOrderly expressions := by
  have restrict : ∀ {f : Term → List Term → Act Term}, (∀ p ts, Act.Orderly (f p ts)) → (restricting f).Orderly := by
    intro f h a
    unfold restricting
    dsimp only
    split
    · exact h _ _
    · exact .throw _
  have gather : ∀ {f : List Term → Act Term}, (∀ ts, Act.Orderly (f ts)) → (gathering f).Orderly := fun h _ => h _
  have count : ∀ o, (counting o).Orderly := by
    intro o a
    unfold counting
    dsimp only
    split
    · exact Expression.count_orderly _ _ _ _
    · exact .throw _
  have annotate : ∀ p, (annotating p).Orderly := fun p => binary_orderly fun _ _ => Expression.note_orderly _ _ _
  exact .cons (restrict Expression.some_orderly) <| .cons (restrict Expression.only_orderly) <|
    .cons (restrict Expression.only_orderly) <| .cons (restrict Expression.someOnly_orderly) <|
    .cons (gather Expression.and_orderly) <| .cons (gather Expression.or_orderly) <|
    .cons (gather Expression.not_orderly) <| .cons (gather Expression.oneOf_orderly) <|
    .cons (count _) <| .cons (count _) <| .cons (count _) <|
    .cons (nullary_orderly (.pure _)) <| .cons (nullary_orderly (.pure _)) <|
    .cons (ternary_orderly Expression.note_orderly) <|
    .cons (annotate _) <| .cons (annotate _) <| .cons (annotate _) <| .cons (annotate _) <| .cons (annotate _) <|
    .cons (annotate _) <| .cons (annotate _) <|
    .cons (binary_orderly fun _ _ => .pure _) <| .cons (binary_orderly fun _ _ => .pure _) .nil

/-- Frames are compiled as they are written; without a factory they are only checked. -/
theorem compileFrames_orderly (entity explicit defaults schema ontology factory : Term) :
    Act.Orderly (compileFrames entity explicit defaults schema ontology factory) := by
  refine framesOf_orderly fun ds => framesOf_orderly fun es => ?_
  split
  · exact .bind (Compile.compile_orderly _ _ _ _ _ _) fun _ => .pure _
  · exact .bind (.of_reads (.bind (Compile.checkTags_reads _ _ _) fun _ => .pure _)) fun _ => .throw _

theorem compiling_orderly : AreOrderly compiling := by
  refine .cons (fun a => ?_) <| .cons (fun a => ?_) .nil
  all_goals
    dsimp only
    split
    · exact compileFrames_orderly _ _ _ _ _ _
    · exact .throw _

theorem builders_orderly : AreOrderly builders := by
  have build : ∀ {first : String} {f : Term → Term → Term → List (String × Term) → Act Term},
      (∀ name frames o more, Act.Orderly (f name frames o more)) → (building first f).Orderly := by
    intro first f h a
    unfold building
    dsimp only
    split
    · exact h _ _ _ _
    · exact .throw _
  have add : ∀ {first : String} {kind : Term → EntityKind} {tag : FrameTag}, (adding first kind tag).Orderly := by
    intro first kind tag a
    unfold adding
    dsimp only
    split
    · exact .bind (Builder.addFrame_orderly _ _ _ _ _) fun _ => .pure _
    · exact .throw _
  have group : ∀ {f : List Term → Term → Act Term}, (∀ ts o, Act.Orderly (f ts o)) → (grouping f).Orderly := by
    intro f h a
    unfold grouping
    dsimp only
    split
    · exact h _ _
    · exact .throw _
  refine .cons (build (Builder.ofKind_orderly .cls)) <| .cons (build (Builder.ofKind_orderly _)) <|
    .cons (build (Builder.ofKind_orderly _)) <| .cons (build (Builder.ofKind_orderly _)) <|
    .cons (build fun _ _ _ _ => Builder.Call.run_orderly (.refine _ _ _ _)) <|
    .cons (group fun _ _ => .bind (Builder.declareClasses_orderly _ _) fun _ => .pure _) <|
    .cons (group fun _ _ => .bind (Builder.defineClasses_orderly _ _) fun _ => .pure _) <|
    .cons add <| .cons add <| .cons add <| .cons add <| .cons add <| .cons add <| .cons add <| .cons add <| .cons add <|
    .cons add <| .cons add <| .cons add <| .cons add <| .cons (group Builder.disjointClasses_orderly) <|
    .cons (fun a => ?_) .nil
  dsimp only
  split
  · exact Builder.addDisjointUnion_orderly _ _ _
  · exact .throw _

/-- Asking for what is collected is orderly; recording is not. -/
theorem collecting_orderly : ∀ e ∈ collecting, e.1 ≠ "record" → e.2.Orderly := by
  have asking : AreOrderly collecting.tail := by
    refine .cons (nullary_orderly (.of_reads ?_)) <| .cons (nullary_orderly (.of_reads fun _ _ => rfl)) <|
      .cons (nullary_orderly (.of_reads fun _ _ => rfl)) .nil
    refine .bind (.bind (fun _ _ => rfl) fun c => ?_) fun _ => .pure _
    split
    · exact fun _ _ => rfl
    · exact .pure _
  exact List.forall_mem_cons.mpr ⟨fun h => absurd rfl h, fun e he _ => asking e he⟩

/-! ## Ontologies, references, changes and queries -/

theorem ontologies_orderly : AreOrderly ontologies := by
  have store : Act.Orderly Current.store := .of_reads fun _ _ => rfl
  refine .cons (fun a => ?create) <| .cons (fun a => ?define) <|
    .cons (unary_orderly fun _ => .bind store fun _ => .bind (Store.remove_orderly _ _) fun _ => .pure _) <|
    .cons (unary_orderly fun _ => .bind (.of_quiet (Current.options_quiet _)) fun _ => .pure _) <|
    .cons (binary_orderly fun _ _ => .bind (Current.register_orderly _ _) fun _ => .pure _) <|
    .cons (unary_orderly fun t => .of_quiet (.of_calm fun _ => Current.registered_calm t)) <|
    .cons (unary_orderly fun t => .of_quiet (.of_calm fun _ => Current.ontology_calm t)) <|
    .cons (nullary_orderly (.of_reads fun _ _ => rfl)) <|
    .cons (unary_orderly Current.orGiven_orderly) <|
    .cons (unary_orderly fun _ => .bind (Current.orGiven_orderly _) fun o =>
      .bind (.of_reads (.iriOf o)) fun _ => .pure _) <|
    .cons (unary_orderly fun _ => .bind (Current.orGiven_orderly _) fun o =>
      .bind (.of_reads (Query.current_reads o)) fun _ => .pure _) <|
    .cons (binary_orderly fun _ _ => .bind (.bind (Current.orGiven_orderly _) fun _ => .bind store fun _ =>
      Store.addImport_orderly _ _ _) fun _ => .pure _) <|
    .cons (nullary_orderly (.of_reads fun _ _ => rfl)) <|
    .cons (unary_orderly fun t => ?install) <|
    .cons (nullary_orderly (.of_reads fun _ _ => rfl)) <|
    .cons (binary_orderly fun _ _ => .bind (Current.assignNaming_orderly _ _) fun _ => .pure _) <|
    .cons (unary_orderly fun t => .bind (.of_reads (Query.axioms_reads t .null)) fun _ => .pure _) <|
    .cons (unary_orderly fun t => .bind (.of_reads (Query.current_reads t)) fun _ => .pure _) <|
    .cons (unary_orderly fun t => .bind (.of_reads (Query.current_reads t)) fun _ => .pure _) .nil
  case create =>
    dsimp only
    split
    · exact Creation.create_orderly _ _ _ _ _ _
    · exact .throw _
  case define =>
    dsimp only
    split
    · exact Creation.define_orderly _ _ _ _ _ _ _
    · exact .throw _
  case install =>
    split
    · exact .bind (Current.install_orderly _) fun _ => .pure _
    · exact .throw _

theorem references_orderly : AreOrderly references := by
  have ensure : ∀ kind, (ensuring kind).Orderly := fun kind =>
    binary_orderly fun _ _ => Reference.resolve_orderly _ _ _
  refine .cons (fun a => ?_) <| .cons (binary_orderly fun _ _ => .pure _) <|
    .cons (binary_orderly fun _ _ => .bind (Current.iriForName_orderly _ _) fun _ => .pure _) <|
    .cons (ensure _) <| .cons (ensure _) <| .cons (ensure _) <| .cons (ensure _) .nil
  dsimp only
  split
  · exact Reference.resolveAs_orderly _ _ _ _
  · exact .throw _

theorem changes_orderly : AreOrderly changes :=
  .cons (binary_orderly fun _ _ => .of_quiet (Change.add_quiet _ _)) <|
  .cons (binary_orderly fun t _ => .bind (Current.orGiven_orderly _) fun _ => .bind (.of_reads (.itemsOf t)) fun _ =>
    .bind (.of_quiet (Change.addEach_quiet _ _)) fun _ => .pure _) <|
  .cons (binary_orderly fun _ _ => .of_quiet (Change.remove_quiet _ _)) <|
  .cons (binary_orderly fun _ _ => .bind (.of_quiet (Change.removeEntity_quiet _ _)) fun _ => .pure _) .nil

theorem hierarchy_orderly : AreOrderly hierarchy := by
  have step : ∀ d, (stepping d).Orderly := fun d =>
    binary_orderly fun _ _ => .bind (Hierarchy.direct_orderly _ _ _) fun _ => .pure _
  have close : ∀ d, (closing d).Orderly := fun d =>
    binary_orderly fun _ _ => .bind (Hierarchy.closure_orderly _ _ _) fun _ => .pure _
  have reach : ∀ d, (reaching d).Orderly := fun d =>
    ternary_orderly fun _ _ _ => .bind (Hierarchy.reaches_orderly _ _ _ _) fun _ => .pure _
  have relate : ∀ k, (relating (Hierarchy.related k)).Orderly := fun k =>
    ternary_orderly fun _ _ _ => .bind (Hierarchy.related_orderly _ _ _ _) fun _ => .pure _
  exact .cons (step _) <| .cons (step _) <| .cons (close _) <| .cons (close _) <| .cons (reach _) <| .cons (reach _) <|
    .cons (step _) <| .cons (step _) <| .cons (close _) <| .cons (close _) <| .cons (reach _) <| .cons (reach _) <|
    .cons (relate _) <| .cons (relate _) .nil

/-! ## Stores and factories -/

theorem storeOperations_orderly (store : Nat) : AreOrderly (storeOperations store) := by
  have query : ∀ {second : String} {f : Ontology → Term → List Term}, (querying second f).Orderly :=
    binary_orderly fun o _ => .bind (.of_reads (Query.current_reads o)) fun _ => .pure _
  exact .cons (binary_orderly fun _ _ => .bind (Store.create_orderly _ _ _) fun _ => .pure _) <|
    .cons (unary_orderly fun _ => .of_reads fun _ _ => rfl) <|
    .cons (unary_orderly fun t => .bind (.of_reads (Store.contains_reads _ t)) fun _ => .pure _) <|
    .cons (nullary_orderly (.of_reads fun _ _ => rfl)) <|
    .cons (unary_orderly fun _ => .bind (Store.remove_orderly _ _) fun _ => .pure _) <|
    .cons (unary_orderly fun _ => .bind (Store.addHook_orderly _ _) fun _ => .pure _) <|
    .cons (binary_orderly fun _ _ => .bind (.of_quiet (Store.add_quiet _ _ _)) fun _ => .pure _) <|
    .cons (binary_orderly fun _ _ => .bind (.of_quiet (Store.discard_quiet _ _ _)) fun _ => .pure _) <|
    .cons (binary_orderly fun _ _ => .bind (Store.addImport_orderly _ _ _) fun _ => .pure _) <|
    .cons (binary_orderly fun _ _ => .bind (Store.annotate_orderly _ _ _) fun _ => .pure _) <|
    .cons (binary_orderly fun o k => .bind (.of_reads (Query.axioms_reads o k)) fun _ => .pure _) <|
    .cons (binary_orderly fun o t => .bind (.of_reads (Query.referencing_reads o t)) fun _ => .pure _) <|
    .cons (binary_orderly fun o k => .bind (.of_reads (Query.entities_reads o k)) fun _ => .pure _) <|
    .cons (binary_orderly fun o t => .bind (.of_reads (Query.isDeclared_reads o t)) fun _ => .pure _) <|
    .cons query <| .cons query <| .cons query <| .cons query <|
    .cons (binary_orderly fun _ _ => .bind (.of_reads (Query.partners_reads _ _ _)) fun _ => .pure _) <|
    .cons (binary_orderly fun _ _ => .bind (.of_reads (Query.partners_reads _ _ _)) fun _ => .pure _) <|
    .cons (unary_orderly fun _ => .bind (.of_quiet (Query.stats_quiet _)) fun _ => .pure _) .nil

theorem factoryOperations_orderly (maker : Nat) : AreOrderly (factoryOperations maker) := by
  have make : ∀ kind, (making maker kind).Orderly := fun _ => unary_orderly fun t => .bind (.display t) fun _ => .pure _
  have thing : ∀ t : Term, (nullary (return t)).Orderly := fun _ => nullary_orderly (.pure _)
  have state1 : ∀ {p f}, (stating1 p f).Orderly := unary_orderly fun _ => .pure _
  have state2 : ∀ {p q f}, (stating2 p q f).Orderly := binary_orderly fun _ _ => .pure _
  have state3 : ∀ {p q r f}, (stating3 p q r f).Orderly := ternary_orderly fun _ _ _ => .pure _
  have members : ∀ t, Reads (Factory.membersOf t) :=
    fun t => .bind (.itemsOf t) fun _ => .bind (.forM .requireStable) fun _ => .pure _
  have group : ∀ {p f}, (statingGroup p f).Orderly :=
    unary_orderly fun t => .bind (.of_reads (members t)) fun _ => .pure _
  refine .cons (binary_orderly (Factory.entityOf_orderly maker)) <|
    .cons (make _) <| .cons (make _) <| .cons (make _) <| .cons (make _) <|
    .cons (ternary_orderly fun _ _ _ =>
      .bind (.of_quiet (.of_calm fun _ => Compile.note_calm _ _ _)) fun _ => .pure _) <|
    .cons (thing _) <| .cons (thing _) <| .cons (thing _) <| .cons (thing _) <| .cons (thing _) <| .cons (thing _) <|
    .cons (thing _) <| .cons (thing _) <| .cons (thing _) <| .cons (fun a => ?_) <|
    .cons state1 <| .cons state2 <| .cons group <| .cons group <|
    .cons (binary_orderly fun _ u => .bind (.of_reads (members u)) fun _ => .pure _) <|
    .cons state2 <| .cons state2 <|
    .cons (binary_orderly fun t u => .bind (requireStable_orderly t) fun _ =>
      .bind (requireStable_orderly u) fun _ => .pure _) <|
    .cons state2 <| .cons state1 <| .cons state1 <| .cons state1 <| .cons state2 <| .cons state2 <| .cons state2 <|
    .cons state3 <| .cons state3 <| .cons group <| .cons group .nil
  dsimp only
  split
  · exact .of_reads (Factory.expressionOf_reads _ _ _)
  · exact .throw _

/-! ## Values and demonstrations -/

theorem itemOf_reads (sequence index : Term) : Reads (itemOf sequence index) := by
  unfold itemOf
  split
  · refine .bind (.requireStable _) fun _ => ?_
    split
    · exact .pure _
    · exact .bind (fun _ _ => rfl) fun _ => .throw _
  · exact .throw _
  · exact .throw _
  · exact .throw _
  · refine .bind (.itemsOf _) fun ts => .bind ?_ fun n => .ite (.throw _) ?_
    · unfold indexOf
      split
      · exact .pure _
      · exact .pure _
      · exact .throw _
    · split
      · exact .pure _
      · exact .throw _

theorem fail_reads (name : Term) (ts : List Term) : Reads (fail name ts) := by
  have settled : ∀ ts : List Term, Reads (ts.mapM settle) := by
    intro ts
    induction ts with
    | nil => exact .pure _
    | cons t ts ih =>
      rw [List.mapM_cons]
      exact .bind (fun _ _ => rfl) fun _ => .bind ih fun _ => .pure _
  have declared : ∀ ts, Reads (declaredMessage ts) := by
    intro ts
    unfold declaredMessage
    split
    · exact .pure _
    · exact fun _ _ => rfl
    · exact fun _ _ => rfl
  unfold fail
  split
  · refine .bind (settled ts) fun us => ?_
    split
    · exact .bind (.expectedName _) fun _ _ _ => rfl
    · exact fun _ _ => rfl
    · exact fun _ _ => rfl
    · exact .bind (.expectedName _) fun _ _ _ => rfl
    · exact fun _ _ => rfl
    · exact fun _ _ => rfl
    · exact .bind (.itemsOf _) fun _ => .throw _
    · exact .bind (declared _) fun _ => .throw _
    · exact .bind (declared _) fun _ => .throw _
    · exact .bind (declared _) fun _ => .throw _
    all_goals exact .throw _
  · exact .throw _

theorem values_orderly : AreOrderly values := by
  have read1 : ∀ {p} {f : Term → Act Term}, (∀ t, Reads (f t)) → (unary p f).Orderly :=
    fun h => unary_orderly fun t => .of_reads (h t)
  have read2 : ∀ {p q} {f : Term → Term → Act Term}, (∀ t u, Reads (f t u)) → (binary p q f).Orderly :=
    fun h => binary_orderly fun t u => .of_reads (h t u)
  have asAxiom : ∀ t, Reads (axiomOf t) := by
    intro t
    unfold axiomOf
    split
    · exact .pure _
    · exact .throw _
  have drawn : ∀ o, Reads (drawing o) := fun o => .bind (Query.current_reads o) fun _ => .bind (fun _ _ => rfl) fun _ =>
    .bind (fun _ _ => rfl) fun _ => .bind (liftExcept_reads _) fun _ => .pure _
  refine .cons (nullary_orderly (.of_quiet fun _ _ => rfl)) <| .cons (nullary_orderly (.of_quiet fun _ _ => rfl)) <|
    .cons (read1 fun t => ?_) <| .cons (read1 fun _ _ _ => rfl) <| .cons (read1 fun _ _ _ => rfl) <|
    .cons (read1 fun t => ?_) <|
    .cons (read1 fun t => .bind (asAxiom t) fun _ => .bind (.forM .requireStable) fun _ => .pure _) <|
    .cons (read2 fun t u => .bind (asAxiom t) fun _ => .bind (Query.mentions_reads _ u) fun _ => .pure _) <|
    .cons (read2 fun t u => ?_) <| .cons (read2 itemOf_reads) <|
    .cons (read2 fun s t => .bind (.contains s t) fun _ => .pure _) <| .cons (fun a => .of_reads ?_) <|
    .cons (read1 drawn) <| .cons (read2 fun s o => ?_) .nil
  · unfold nameOf
    split
    · exact .pure _
    · exact .pure _
    · exact .throw _
  · unfold membersOf
    split
    · exact .bind (.bind (.forM .requireStable) fun _ => .pure _) fun _ => .pure _
    · exact .throw _
  · split <;> exact fun _ _ => rfl
  · dsimp only
    split
    · exact fail_reads _ _
    · exact .throw _
  · split
    · exact drawn o
    · exact .throw _

theorem demonstrations_orderly : AreOrderly demonstrations :=
  .cons (nullary_orderly Demo.classesAndGroups_orderly) <| .cons (ternary_orderly Demo.queries_orderly) <|
  .cons (nullary_orderly Demo.tour_orderly) .nil

/-! ## The whole catalogue -/

theorem general_orderly : ∀ e ∈ general, e.1 ≠ "record" → e.2.Orderly := by
  intro e he hname
  simp only [general, List.mem_append] at he
  rcases he with (((((((((he | he) | he) | he) | he) | he) | he) | he) | he) | he) | he
  · exact frames_orderly e he
  · exact expressions_orderly e he
  · exact compiling_orderly e he
  · exact builders_orderly e he
  · exact collecting_orderly e he hname
  · exact ontologies_orderly e he
  · exact references_orderly e he
  · exact changes_orderly e he
  · exact hierarchy_orderly e he
  · exact values_orderly e he
  · exact demonstrations_orderly e he

theorem mem_of_lookup {c : Catalogue Term} {name : String} {op : Operation Term} (h : c.lookup name = some op) :
    (name, op) ∈ c := by
  induction c with
  | nil => cases h
  | cons e c ih =>
    rw [Keyed.lookup_first] at h
    split at h
    next hname =>
      cases h
      rw [eq_of_beq hname]
      exact List.mem_cons_self
    next => exact List.mem_cons_of_mem _ (ih h)

theorem found_ok {found : Option (Operation Term)} {op : Operation Term} {env : Env} {w w' : World}
    (h : (match found with
      | some op => pure op
      | none => throw .missingPart : Act (Operation Term)) env w = (.ok op, w')) : found = some op := by
  cases found with
  | none => cases h
  | some _ =>
    cases h
    rfl

/-- **Whatever a script calls is orderly**, unless it is to record. -/
theorem operationOf_orderly {name : String} {subject : Option Term} {op : Operation Term} {env : Env} {w w' : World}
    (h : operationOf name subject env w = (.ok op, w')) (hname : name ≠ "record") : op.Orderly := by
  obtain ⟨store, w₁, -, hfound⟩ := bind_ok h
  have hlookup := found_ok hfound
  split at hlookup
  · exact storeOperations_orderly _ _ (mem_of_lookup hlookup)
  · exact factoryOperations_orderly _ _ (mem_of_lookup hlookup)
  · cases hlookup
  · exact storeOperations_orderly _ _ (mem_of_lookup hlookup)
  · exact factoryOperations_orderly _ _ (mem_of_lookup hlookup)
  · exact general_orderly _ (mem_of_lookup hlookup) hname

/-! ## Expressions -/

mutual
/-- An expression that does not call `record` when it is evaluated. What it delays may. -/
def RecordsNothing : Expr → Prop
  | .list es | .tuple es => RecordNothing es
  | .frames es => EntriesRecordNothing es
  | .call name subject es named =>
    name ≠ "record" ∧ OptionRecordsNothing subject ∧ RecordNothing es ∧ NamedRecordNothing named
  | _ => True
def RecordNothing : List Expr → Prop
  | [] => True
  | e :: es => RecordsNothing e ∧ RecordNothing es
def EntriesRecordNothing : List (Expr × Expr) → Prop
  | [] => True
  | e :: es => EntryRecordsNothing e ∧ EntriesRecordNothing es
def EntryRecordsNothing : Expr × Expr → Prop
  | (k, v) => RecordsNothing k ∧ RecordsNothing v
def NamedRecordNothing : List (String × Expr) → Prop
  | [] => True
  | e :: es => NameRecordsNothing e ∧ NamedRecordNothing es
def NameRecordsNothing : String × Expr → Prop
  | (_, e) => RecordsNothing e
def OptionRecordsNothing : Option Expr → Prop
  | none => True
  | some e => RecordsNothing e
end

theorem Operation.Orderly.call {op : Operation Term} (h : op.Orderly) (ts : List Term) (named : List (String × Term)) :
    Act.Orderly (op.call ts named) := by
  unfold Operation.call
  split
  · exact h _
  · exact .throw _

theorem operationOf_reads (name : String) (subject : Option Term) : Reads (operationOf name subject) := by
  have found : ∀ o : Option (Operation Term), Reads (match o with
      | some op => pure op
      | none => throw .missingPart : Act (Operation Term)) := by
    intro o
    cases o with
    | none => exact .throw _
    | some op => exact .pure op
  exact .bind (fun _ _ => rfl) fun store => found _

/-- Finding an operation and then calling it, with arguments that are evaluated in between. -/
theorem calling_orderly {name : String} (hname : name ≠ "record") (subject : Option Term) {f : Operation Term → Act Term}
    (hf : ∀ op : Operation Term, op.Orderly → Act.Orderly (f op)) : Act.Orderly (operationOf name subject >>= f) := by
  intro env henv w
  refine Course.bind ⟨[], .quiet (.of_reads (operationOf_reads name subject))⟩ fun op w₁ h => ?_
  exact hf op (operationOf_orderly h hname) env henv w₁

theorem nextSerial_orderly : Act.Orderly nextSerial := .of_quiet fun _ _ => rfl

theorem literalOf_reads (text : String) (language datatype : Option String) :
    Reads (literalOf text language datatype) := by
  unfold literalOf
  dsimp only
  split
  · exact .throw _
  · exact .ite (.pure _) (.throw _)
  · exact .pure _

theorem hookOf_quiet (name : String) (fails : Bool) : Quiet (hookOf name fails) := by
  intro env w
  rw [hookOf, run_bind, run_get]
  dsimp only
  cases w.hooks.lookup name <;> rfl

theorem variableOf_reads (name : String) : Reads (variableOf name) := by
  refine .bind (fun _ _ => rfl) fun w => ?_
  split
  · exact .pure _
  · exact .throw _

theorem boundOf_reads (bound : Term) (name : String) : Reads (boundOf bound name) := by
  unfold boundOf
  split
  · split
    · exact .pure _
    · exact .throw _
  · exact .throw _

theorem areSame_reads (births : List (String × Nat)) (exprs : List Expr) (ts : List Term) :
    Reads (areSame births exprs ts) := by
  unfold areSame
  split
  · exact .pure _
  · exact .throw _

mutual
/-- **Evaluating an expression is orderly**, if it records nothing. -/
theorem eval_orderly (bound : Term) : ∀ {e : Expr}, RecordsNothing e → Act.Orderly (eval bound e)
  | .null, _ | .bool _, _ | .int _, _ | .float _, _ | .text _, _ | .iri _, _ | .keyword _, _ => .pure _
  | .entity kind iri, _ => Factory.entityOf_orderly _ _ _
  | .literal _ _ _, _ => .of_reads (literalOf_reads _ _ _)
  | .naming rule, _ => .bind nextSerial_orderly fun _ => .pure _
  | .hook _ _, _ => .of_quiet (hookOf_quiet _ _)
  | .list es, h => .bind (evalAll_orderly bound h) fun _ => .pure _
  | .tuple es, h => .bind (evalAll_orderly bound h) fun _ => .pure _
  | .frames es, h => .bind (evalEntries_orderly bound h []) fun _ => .pure _
  | .variable _, _ => .of_reads (variableOf_reads _)
  | .bound _, _ => .of_reads (boundOf_reads _ _)
  | .fail message, _ => .throw _
  | .producer body, _ => .bind nextSerial_orderly fun _ => .pure _
  | .construct body, _ => .bind nextSerial_orderly fun _ => .pure _
  | .call name subject es named, h => by
    obtain ⟨hname, hsubject, hes, hnamed⟩ := h
    refine .bind (evalOption_orderly bound hsubject) fun t => .ite ?_ (calling_orderly hname t fun op hop => ?_)
    · refine .bind (evalAll_orderly bound hes) fun ts => .bind (evalNamed_orderly bound hnamed) fun us => ?_
      exact .bind .get fun _ => .of_reads (areSame_reads _ _ _)
    · refine .bind (evalAll_orderly bound hes) fun ts => .bind (evalNamed_orderly bound hnamed) fun us => ?_
      exact hop.call _ _
theorem evalAll_orderly (bound : Term) : ∀ {es : List Expr}, RecordNothing es → Act.Orderly (evalAll bound es)
  | [], _ => .pure _
  | _ :: _, h => .bind (eval_orderly bound h.1) fun _ => .bind (evalAll_orderly bound h.2) fun _ => .pure _
theorem evalEntries_orderly (bound : Term) : ∀ {es : List (Expr × Expr)}, EntriesRecordNothing es →
    ∀ entries, Act.Orderly (evalEntries bound entries es)
  | [], _, _ => .pure _
  | _ :: _, h, _ => .bind (evalEntry_orderly bound h.1) fun _ => .bind (requireStable_orderly _) fun _ =>
    evalEntries_orderly bound h.2 _
theorem evalEntry_orderly (bound : Term) : ∀ {e : Expr × Expr}, EntryRecordsNothing e →
    Act.Orderly (evalEntry bound e)
  | (_, _), h => .bind (eval_orderly bound h.1) fun _ => .bind (eval_orderly bound h.2) fun _ => .pure _
theorem evalNamed_orderly (bound : Term) : ∀ {es : List (String × Expr)}, NamedRecordNothing es →
    Act.Orderly (evalNamed bound es)
  | [], _ => .pure _
  | _ :: _, h => .bind (evalName_orderly bound h.1) fun _ => .bind (evalNamed_orderly bound h.2) fun _ => .pure _
theorem evalName_orderly (bound : Term) : ∀ {e : String × Expr}, NameRecordsNothing e → Act.Orderly (evalName bound e)
  | (_, _), h => .bind (eval_orderly bound h) fun _ => .pure _
theorem evalOption_orderly (bound : Term) : ∀ {e : Option Expr}, OptionRecordsNothing e →
    Act.Orderly (evalOption bound e)
  | none, _ => .pure _
  | some _, h => .bind (eval_orderly bound h) fun _ => .pure _
end

end Authoring.Script
