import Authoring.Probe
import Authoring.Proofs.Local.Service
import Authoring.Proofs.Window.Orderly

/-!
# Operations stay inside their ontology

Every operation that changes an ontology changes one part of that ontology, and nothing else that is stored
(`Change.Operation.stays_inside`): the other ontologies keep all that they have, no ontology comes or goes, and the stores
keep their ontologies in their order. Which part it is can be read off the operation (`Change.Operation.part`): imports are
changed by importing only, the annotations of an ontology by annotating it only, and all else changes axioms. An operation
that fails is no exception.

This asks nothing of what an operation is given. The terms may be anything, the ontology may be another than the current
one, and entities, IRIs and windows may be shared with other ontologies. Opening a scope and leaving it are operations, too,
where the scope works on an ontology (`Change.Scope.ontology?`): its work is done on the ontology that was found when it was
opened, whatever is current when it is left.

**What is assumed.** Evaluating a delayed expression, and making a probe, makes no change that the operation may not make.
-/

namespace Authoring

open Act

variable {id : Nat} {t : Term}

/-! ## Group scopes -/

namespace Scope

theorem collected_local (n : Nat) : (collected n).Local .axioms id t := .of_reads fun _ _ => rfl

theorem relateInverses_local (ts : List Term) : (relateInverses ts t).Local .axioms id t := by
  unfold relateInverses
  split
  · exact .bind (Reference.resolve_local _ _ _) fun _ => .bind (Reference.resolve_local _ _ _) fun _ =>
      .bind (Change.add_local _) fun _ => .pure _
  · exact .throw _

theorem coverBy_local (super : Term) (ts : List Term) : (coverBy super ts t).Local .axioms id t := by
  unfold coverBy
  split
  · exact .pure _
  · exact .bind (Expression.or_local _) fun _ => .bind (.of_looks (.requireStable _)) fun _ =>
      .bind (.of_looks (.requireStable _)) fun _ => .bind (Change.add_local _) fun _ => .pure _

theorem onSuccess_local {work : Act Unit} (h : work.Local .axioms id t) (f : Option Fault) :
    (onSuccess work f).Local .axioms id t := by
  cases f with
  | none => exact h
  | some _ => exact .pure _

/-- What a window has collected is made disjoint, and then something else is done. -/
theorem disjointCollected_local (n : Nat) {next : Act Unit} (h : next.Local .axioms id t) : Act.Local .axioms id t (do
    let _ ← Builder.disjointClasses (← collected n) t
    next) :=
  .bind (collected_local n) fun ts => .bind (Builder.disjointClasses_local ts) fun _ => h

theorem openNew_local : Window.openNew.Local .axioms id t := fun _ _ _ _ => .of_same rfl rfl rfl rfl

end Scope

namespace Service.Block

/-- What is given to a scope as the ontology to work on when it is left, if it works on one. -/
def ontology? : Block → Option Term
  | disjoint o | inverse o | subclasses _ _ _ o => some o
  | _ => none

/-- Opening a scope changes nothing that is stored. -/
theorem enter_local (b : Block) : b.enter.Local .axioms id t := by
  have affixed : ∀ (u : Term) {f : String → Act Entered}, (∀ s, (f s).Local .axioms id t) →
      (Scope.affix u >>= f).Local .axioms id t := fun u _ hf => .bind (.of_reads (Scope.affix_reads u)) hf
  have opened : ∀ {f : Nat → Context → Entered}, Act.Local .axioms id t (do
      let n ← Window.openNew
      return f n (← context)) := .bind Scope.openNew_local fun _ => .bind .context fun _ => .pure _
  cases b with
  | ontology u | space u => exact .of_reads fun _ _ => rfl
  | collection => exact opened
  | defaults frames =>
    refine .bind (.of_looks (.entriesOf frames)) fun es => .bind (.of_looks (.framesOf es)) fun _ => ?_
    exact .bind .context fun _ => .pure _
  | lead u | trail u => exact .bind .context fun _ => affixed u fun _ => .pure _
  | disjoint o | inverse o => exact .bind (.of_reads (Current.orGiven_reads o)) fun _ => opened
  | subclasses super disjoint cover o =>
    exact .bind (.of_reads (Current.orGiven_reads o)) fun _ => .bind (Reference.resolve_local _ _ _) fun _ => opened

/-- **Leaving a scope**, wherever it is left, changes only the ontology that was found when it was opened. -/
theorem leave_local {b : Block} {env : Env} {w w₁ : World} {e : Entered} (h : b.enter env w = (.ok e, w₁))
    (ho : ∀ o ∈ b.ontology?, Current.Only id o env w) (f : Option Fault) : (e.leave f).Local .axioms id t := by
  cases b with
  | ontology u | space u | collection =>
    cases h
    exact .pure _
  | defaults frames =>
    obtain ⟨es, w', -, hrest⟩ := bind_ok h
    obtain ⟨fs, w'', -, hdone⟩ := bind_ok hrest
    cases hdone
    exact .pure _
  | lead u | trail u =>
    obtain ⟨c, w', hc, hrest⟩ := bind_ok h
    cases hc
    obtain ⟨s, w'', -, hdone⟩ := bind_ok hrest
    cases hdone
    exact .pure _
  | disjoint o =>
    obtain ⟨o', w', hgiven, hdone⟩ := bind_ok h
    cases hdone
    refine .found ((ho o rfl).of_given hgiven) (Scope.onSuccess_local ?_ f)
    exact Scope.disjointCollected_local _ (.pure _)
  | inverse o =>
    obtain ⟨o', w', hgiven, hdone⟩ := bind_ok h
    cases hdone
    refine .found ((ho o rfl).of_given hgiven) (Scope.onSuccess_local ?_ f)
    exact .bind (Scope.collected_local _) fun ts => Scope.relateInverses_local ts
  | subclasses super disjoint cover o =>
    obtain ⟨o', w', hgiven, hrest⟩ := bind_ok h
    obtain ⟨c, w'', -, hdone⟩ := bind_ok hrest
    cases hdone
    refine .found ((ho o rfl).of_given hgiven) (Scope.onSuccess_local ?_ f)
    have covered : ∀ n, Act.Local .axioms id o' (do
        if ← isTruthy cover then Scope.coverBy c (← Scope.collected n) o') := fun n =>
      .bind (.of_looks (.isTruthy cover)) fun _ => .ite
        (.bind (Scope.collected_local n) fun ts => Scope.coverBy_local c ts) (.pure _)
    refine .bind (.of_looks (.isTruthy disjoint)) fun _ => .ite ?_ (covered _)
    exact Scope.disjointCollected_local _ (covered _)

end Service.Block

/-! ## Probes -/

namespace Probe

variable {remover : Term → Act Unit}

theorem removeAll_local (h : ∀ u, (remover u).Local .axioms id t) (us : List Term) :
    (removeAll remover us).Local .axioms id t := by
  induction us with
  | nil => exact .pure _
  | cons u us ih =>
    refine .bind (.attempt (h u)) fun r => ?_
    cases r with
    | ok => exact ih
    | error f => exact .bind ih fun _ => .pure _

theorem cleanUp_local (h : ∀ u, (remover u).Local .axioms id t) (bound : Bound) (outcome : Option Fault) :
    (cleanUp remover bound outcome).Local .axioms id t := by
  refine .bind (removeAll_local h _) fun faults => ?_
  split
  · exact .pure _
  · exact .pure _
  · exact .throw _

theorem bindAll_local {bindings : List Binding} (h : ∀ b ∈ bindings, ∀ bound, (bind bound b).Local .axioms id t)
    (bound : Bound) : (bindAll bound bindings).Local .axioms id t := by
  induction bindings generalizing bound with
  | nil => exact .pure _
  | cons b bs ih =>
    refine .bind (.attempt (h b List.mem_cons_self bound)) fun r => ?_
    cases r with
    | ok bound' => exact ih (fun c hc => h c (List.mem_cons_of_mem _ hc)) bound'
    | error f => exact .pure _

theorem scope_local {remover : Term → Term → Act Unit} (hr : ∀ u o, (remover u o).Local .axioms id o)
    {bindings : List Binding} (h : ∀ b ∈ bindings, ∀ bound, (bind bound b).Local .axioms id t) :
    (scope remover bindings t).Local .axioms id t := by
  refine .finding fun o ho => .bind (bindAll_local h []) fun p => ?_
  obtain ⟨bound, fault⟩ := p
  cases fault with
  | some f => exact .bind (.found ho (cleanUp_local (hr · o) bound _)) fun _ => .throw _
  | none => exact .bind (.of_reads fun _ _ => rfl) fun _ => .pure _

/-- Leaving a scope of probes removes them from the ontology that was found when it was opened. -/
theorem leave_local {remover : Term → Term → Act Unit} (hr : ∀ u o, (remover u o).Local .axioms id o)
    {bindings : List Binding} {o : Term} {env : Env} {w w₁ : World} {e : Entered}
    (h : scope remover bindings o env w = (.ok e, w₁)) (ho : Current.Only id o env w) (f : Option Fault) :
    (e.leave f).Local .axioms id t := by
  obtain ⟨o', w', hgiven, hrest⟩ := bind_ok h
  obtain ⟨⟨bound, fault⟩, w'', -, hdone⟩ := bind_ok hrest
  cases fault with
  | some g =>
    obtain ⟨_, _, -, hthrow⟩ := bind_ok hdone
    cases hthrow
  | none =>
    cases hdone
    exact .found (ho.of_given hgiven) (cleanUp_local (hr · o') bound f)

theorem removeEntity_local (u o : Term) : (removeEntity u o).Local .axioms id o :=
  .bind (Change.removeEntity_local u) fun _ => .pure _

theorem removeAxiom_local (u o : Term) : (removeAxiom u o).Local .axioms id o :=
  .bind (Change.remove_local u) fun _ => .pure _

end Probe

namespace Change

/-! ## Operations -/

/-- A scope, by what opens it: one of the authoring layer, or one of probes. -/
inductive Opening where
  | block (b : Service.Block)
  | entities (bindings : List Probe.Binding) (ontology : Term)
  | axioms (bindings : List Probe.Binding) (ontology : Term)

namespace Opening

def enter : Opening → Act Entered
  | block b => b.enter
  | entities bindings o => Probe.withEntities bindings o
  | axioms bindings o => Probe.withAxioms bindings o

/-- What is given to the scope as the ontology to work on, if it works on one. -/
def ontology? : Opening → Option Term
  | block b => b.ontology?
  | entities _ o | axioms _ o => some o

def bindings : Opening → List Probe.Binding
  | block _ => []
  | entities bindings _ | axioms bindings _ => bindings

/-- Making the probes of the scope is local. -/
def ProbesLocal (id : Nat) (s : Opening) : Prop :=
  ∀ t ∈ s.ontology?, ∀ b ∈ s.bindings, ∀ bound, (Probe.bind bound b).Local .axioms id t

/-- The scope works on no ontology but one. -/
def Only (id : Nat) (s : Opening) (env : Env) (w : World) : Prop := ∀ t ∈ s.ontology?, Current.Only id t env w

variable {s : Opening} {env : Env} {w w₁ : World} {e : Entered}

theorem enter_local (hs : s.ProbesLocal id) (ho : s.Only id env w) (henv : env.Local .axioms id) :
    w.Local .axioms id (s.enter env w).2 := by
  cases s with
  | block b => exact b.enter_local env henv w .self
  | entities bindings o => exact Probe.scope_local Probe.removeEntity_local (hs o rfl) env henv w (ho o rfl)
  | axioms bindings o => exact Probe.scope_local Probe.removeAxiom_local (hs o rfl) env henv w (ho o rfl)

theorem leave_local (h : s.enter env w = (.ok e, w₁)) (ho : s.Only id env w) (f : Option Fault) :
    (e.leave f).Local .axioms id t := by
  cases s with
  | block b => exact b.leave_local h ho f
  | entities bindings o => exact Probe.leave_local Probe.removeEntity_local h (ho o rfl) f
  | axioms bindings o => exact Probe.leave_local Probe.removeAxiom_local h (ho o rfl) f

end Opening

/-- An operation that can change an ontology: to add and remove axioms, to import, and to annotate, through the installed
store or any other one; the calls of the authoring layer; and opening and leaving a scope. -/
inductive Operation where
  | add (t ontology : Term)
  | addEach (ts : List Term) (ontology : Term)
  | remove (t ontology : Term)
  | removeEntity (t ontology : Term)
  | addImport (imported ontology : Term)
  | storeAdd (store : Nat) (ontology t : Term)
  | storeDiscard (store : Nat) (ontology t : Term)
  | storeImport (store : Nat) (ontology imported : Term)
  | storeAnnotate (store : Nat) (ontology t : Term)
  | call (c : Service.Call)
  | enter (s : Opening)
  | leave (s : Opening) (e : Entered) (outcome : Option Fault)

namespace Operation

def run : Operation → Act Unit
  | add t o => do let _ ← Change.add t o
  | addEach ts o => do let _ ← Change.addEach ts o
  | remove t o => do let _ ← Change.remove t o
  | removeEntity t o => do let _ ← Change.removeEntity t o
  | addImport t o => do
    let o ← Current.orGiven o
    Store.addImport (← Current.store) o t
  | storeAdd s o t => do let _ ← Store.add s o t
  | storeDiscard s o t => do let _ ← Store.discard s o t
  | storeImport s o t => Store.addImport s o t
  | storeAnnotate s o t => Store.annotate s o t
  | call c => do let _ ← c.run
  | enter s => do let _ ← s.enter
  | leave _ e outcome => e.leave outcome

/-- The part of an ontology that the operation may change. -/
def part : Operation → Ontology.Part
  | addImport .. | storeImport .. => .imports
  | storeAnnotate .. => .annotations
  | _ => .axioms

/-- The operation works on no ontology but one. A scope that is left has been opened somewhere, for that ontology. -/
def Only (id : Nat) (env : Env) (w : World) : Operation → Prop
  | add _ o | addEach _ o | remove _ o | removeEntity _ o | addImport _ o => Current.Only id o env w
  | storeAdd _ o _ | storeDiscard _ o _ | storeImport _ o _ | storeAnnotate _ o _ => Current.Only id o env w
  | call c => Current.Only id c.ontology env w
  | enter s => s.ProbesLocal id ∧ s.Only id env w
  | leave s e _ => ∃ env₀ w₀ w₁, s.enter env₀ w₀ = (.ok e, w₁) ∧ s.Only id env₀ w₀

/-- **An operation stays inside its ontology.** Whether it fails or not, no other ontology has changed; no ontology is new
or gone; each store has its ontologies in the same order; and of its own ontology no part has changed but the one that is
the operation's to change. -/
theorem stays_inside (op : Operation) {id : Nat} {env : Env} {w : World} (henv : env.Local op.part id)
    (ho : op.Only id env w) : w.Local op.part id (op.run env w).2 := by
  cases op with
  | add t o => exact Act.Local.bind (Change.add_local t) (fun _ => .pure _) env henv w ho
  | addEach ts o => exact Act.Local.bind (Change.addEach_local ts) (fun _ => .pure _) env henv w ho
  | remove t o => exact Act.Local.bind (Change.remove_local t) (fun _ => .pure _) env henv w ho
  | removeEntity t o => exact Act.Local.bind (Change.removeEntity_local t) (fun _ => .pure _) env henv w ho
  | addImport t o =>
    exact Act.Local.given (fun _ => .bind .get fun _ => Store.addImport_local _ t) env henv w ho
  | storeAdd s o t => exact Act.Local.bind (Store.add_local s t) (fun _ => .pure _) env henv w ho
  | storeDiscard s o t => exact Act.Local.bind (Store.discard_local s t) (fun _ => .pure _) env henv w ho
  | storeImport s o t => exact Store.addImport_local s t env henv w ho
  | storeAnnotate s o t => exact Store.annotate_local s t env henv w ho
  | call c => exact Act.Local.bind c.run_local (fun _ => .pure _) env henv w ho
  | enter s =>
    have hentered := Opening.enter_local ho.1 ho.2 henv
    show w.Local .axioms id ((s.enter >>= fun _ => pure ()) env w).2
    rw [run_bind]
    rcases hrun : s.enter env w with ⟨_ | _, _⟩ <;> rw [hrun] at hentered <;> exact hentered
  | leave s e outcome =>
    obtain ⟨env₀, w₀, w₁, hopened, ho⟩ := ho
    exact Opening.leave_local hopened ho outcome env henv w .self

/-- Two ontologies that share a class. The second imports the first. -/
def shared : World :=
  { World.single with
    ontologies := World.single.ontologies ++ [⟨"p", .null, [], ["o"], []⟩]
    stores := [⟨[("o", 0), ("p", 1)], [.forget]⟩] }

/-- The class of the first ontology, which is current, is refined in the second one, by a producer of a name. What comes
last of the frames is no reference, and then the same call fails. -/
theorem stays_inside_shared :
    let env : Env := { Env.single with eval := fun _ _ _ w => (.ok (.text "d"), w) }
    let refine (frames : List Term) : Operation := .call (.build (.refine (.entity 0 ⟨.cls, "c"⟩)
      (.map [(.text "subclass", .list frames)]) (.handle (.ontology 1)) []))
    let producer : Term := .closure 0 0 .null .null
    shared.Local .axioms 1 ((refine [producer]).run env shared).2 ∧
      (((refine [producer]).run env shared).2.ontology 1).axioms =
        [.declaration (.entity 0 ⟨.cls, "c"⟩), .subclassOf (.entity 0 ⟨.cls, "c"⟩) (.entity 0 ⟨.cls, "p#d"⟩)] ∧
      shared.Local .axioms 1 ((refine [producer, .int 5]).run env shared).2 := by
  intro env refine producer
  have henv : env.Local .axioms 1 := fun _ _ _ w => .refl w
  have inside : ∀ frames, shared.Local .axioms 1 ((refine frames).run env shared).2 :=
    fun frames => stays_inside (refine frames) henv Current.Only.self
  exact ⟨inside [producer], rfl, inside [producer, .int 5]⟩

end Operation

end Change

end Authoring
