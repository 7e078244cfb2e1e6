import Authoring.Proofs.Window.Orderly

/-!
# What windows collect

A scope that collects yields a window. When the scope has been left, by any path, the window holds exactly the entities
that the calls of builders have answered with which succeeded in the body while this was the innermost scope that
collects, in the order in which they did and with repetitions (`Service.Block.collects_own`). So a call that fails adds
nothing, unless others have succeeded while it was prepared; nor does a call that is no builder's, or whatever is built
in an inner scope that collects.

The body may be any plan of orderly steps, with scopes nested to any depth, and any of its steps may fail.

**What carries the proof** is the law of courses (`Act.Course.collects`), for the body. Leaving the scope does nothing
more to the windows: what has been collected are entities, and these call nothing when they are read as references
(`Service.Block.leave_quietOver`).
-/

namespace Authoring

open Act

/-! ## Leaving -/

/-- Classes that are made disjoint, if they are given as entities, leave the windows alone. -/
theorem Builder.disjointClasses_quiet {ts : List Term} (h : ∀ t ∈ ts, t.isEntity = true) (o : Term) :
    Quiet (disjointClasses ts o) := by
  rw [disjointClasses, leaves_of_entities h]
  refine .bind (Current.orGiven_quiet o) fun o => ?_
  rw [pure_bind]
  refine .bind (.mapM fun t ht => ?_) fun members => .ite (.pure _) (Change.add_quiet _ _)
  refine .bind (.of_reads (Reference.resolve_reads_of_isEntity (h t ht) _ _)) fun c => ?_
  exact .bind (.of_reads (.requireStable c)) fun _ => .pure _

namespace Scope

variable {ts : List Term}

theorem relateInverses_quiet (h : ∀ t ∈ ts, t.isEntity = true) (o : Term) : Quiet (relateInverses ts o) := by
  unfold relateInverses
  split
  next first second =>
    have property : ∀ t ∈ [first, second], Quiet (Reference.resolveObjectProperty t o) :=
      fun t ht => .of_reads (Reference.resolve_reads_of_isEntity (h t ht) _ _)
    refine .bind (property _ List.mem_cons_self) fun p => ?_
    refine .bind (property _ (List.mem_cons_of_mem _ List.mem_cons_self)) fun q => ?_
    exact .bind (Change.add_quiet _ _) fun _ => .pure _
  · exact .throw _

theorem coverBy_quiet (h : ∀ t ∈ ts, t.isEntity = true) (super o : Term) : Quiet (coverBy super ts o) := by
  unfold coverBy
  split
  · exact .pure _
  · rw [Expression.or, leaves_of_entities h, pure_bind]
    refine .bind (.bind (.mapM fun t ht => ?_) fun members => ?_) fun union => ?_
    · exact .of_reads (Reference.resolve_reads_of_isEntity (h t ht) _ _)
    · unfold Expression.combine
      split
      · exact .throw _
      · refine .bind (.of_reads (.forM .requireStable)) fun _ => .ite (.pure _) ?_
        exact .of_reads (Factory.expression_reads _ _ _)
    · refine .bind (.of_reads (.requireStable _)) fun _ => .bind (.of_reads (.requireStable _)) fun _ => ?_
      exact .bind (Change.add_quiet _ _) fun _ => .pure _

/-- An act that leaves the windows alone wherever a window holds only entities. -/
def QuietOver (id : Nat) {α : Type} (x : Act α) : Prop :=
  ∀ env w, (∀ t ∈ w.window id, t.isEntity = true) → (x env w).2.windows = w.windows

namespace QuietOver

variable {α β : Type} {id : Nat}

theorem of_quiet {x : Act α} (h : x.Quiet) : QuietOver id x := fun env w _ => h env w

theorem bind {x : Act α} {f : α → Act β} (hx : QuietOver id x) (hf : ∀ a, QuietOver id (f a)) :
    QuietOver id (x >>= f) := by
  intro env w hw
  have hx := hx env w hw
  rw [run_bind]
  rcases h : x env w with ⟨e | a, w₁⟩ <;> rw [h] at hx
  · exact hx
  · exact (hf a env w₁ (World.window_of_windows hx id ▸ hw)).trans hx

/-- What is done with what the window has collected. -/
theorem collected {f : List Term → Act β} (h : ∀ ts, (∀ t ∈ ts, t.isEntity = true) → QuietOver id (f ts)) :
    QuietOver id (collected id >>= f) := fun env w hw => h _ hw env w hw

theorem ite {p : Prop} [Decidable p] {x y : Act α} (hx : QuietOver id x) (hy : QuietOver id y) :
    QuietOver id (if p then x else y) := by
  split
  · exact hx
  · exact hy

theorem onSuccess {work : Act Unit} (h : QuietOver id work) (f : Option Fault) : QuietOver id (onSuccess work f) := by
  cases f with
  | none => exact h
  | some _ => exact .of_quiet (.pure _)

end QuietOver

end Scope

namespace Service.Block

open Scope

variable {b : Block} {env : Env} {w w₁ : World} {e : Entered} {id : Nat}

/-- **Leaving a scope leaves the windows alone**, so far as what it has collected are entities. -/
theorem leave_quietOver (h : b.enter env w = (.ok e, w₁)) (hid : Opens e w₁ id) (f : Option Fault) :
    QuietOver id (e.leave f) := by
  have hactive := hid.active
  cases b with
  | ontology t | space t | collection =>
    cases h
    exact .of_quiet (.pure _)
  | defaults frames =>
    obtain ⟨es, w₁, -, hrest⟩ := bind_ok h
    obtain ⟨fs, w₂, -, hdone⟩ := bind_ok hrest
    cases hdone
    exact .of_quiet (.pure _)
  | lead t | trail t =>
    obtain ⟨c, w₁, -, hrest⟩ := bind_ok h
    obtain ⟨s, w₂, -, hdone⟩ := bind_ok hrest
    cases hdone
    exact .of_quiet (.pure _)
  | disjoint t =>
    obtain ⟨o, w₁, -, hdone⟩ := bind_ok h
    cases hdone
    cases hactive
    exact .onSuccess (.collected fun _ hts => .of_quiet (.bind (Builder.disjointClasses_quiet hts o) fun _ => .pure _)) f
  | inverse t =>
    obtain ⟨o, w₁, -, hdone⟩ := bind_ok h
    cases hdone
    cases hactive
    exact .onSuccess (.collected fun _ hts => .of_quiet (relateInverses_quiet hts o)) f
  | subclasses super asDisjoint asCover t =>
    obtain ⟨o, w₁, -, hrest⟩ := bind_ok h
    obtain ⟨c, w₂, -, hdone⟩ := bind_ok hrest
    cases hdone
    cases hactive
    have cover : QuietOver w₂.windows.length
        (do if ← isTruthy asCover then coverBy c (← collected w₂.windows.length) o) :=
      .bind (.of_quiet (.of_reads fun _ _ => rfl)) fun _ =>
        .ite (.collected fun _ hts => .of_quiet (coverBy_quiet hts c o)) (.of_quiet (.pure _))
    refine .onSuccess (.bind (.of_quiet (.of_reads fun _ _ => rfl)) fun _ => .ite ?_ cover) f
    exact .collected fun _ hts => .bind (.of_quiet (Builder.disjointClasses_quiet hts o)) fun _ => cover

end Service.Block

/-! ## What is collected -/

/-- What a body does to the window that was opened for it. -/
theorem Act.Course.own_of_opens {α : Type} {env : Env} {x : Act α} {w : World} {es : List Event} {e : Entered} {id : Nat}
    (hid : Service.Block.Opens e w id) (h : Course { env with context := e.context } x w es) :
    (x { env with context := e.context } w).2.window id = Event.own es := by
  have hwindow := h.collects.window id (hid.length ▸ Nat.lt_succ_self id)
  rwa [hid.window, if_pos hid.active] at hwindow

/-- What is built outside inner scopes that collect has been built while the window was the active one. -/
theorem Act.Course.builds_madeIn {α : Type} {env : Env} {x : Act α} {w : World} {es : List Event} (h : Course env x w es) :
    ∀ b ∈ Event.allBuilds Service.Block.collects es, b.MadeIn (·.window = env.context.window) :=
  h.built_by_call (fun _ _ _ _ _ hb he hw => ((Service.Block.enter_ok he).window hb).trans hw) rfl

/-- **Windows collect exactly their own builds.** A scope that collects and has been entered yields a window. The body
has a course, and when the scope has been left the window holds what was built in the body outside inner scopes that
collect, in order of completion and with repetitions; all of this has been built by calls that were made while the
window was the active one. -/
theorem Service.Block.collects_own {b : Block} (hb : b.collects = true) {body : Term → Plan}
    (hbody : ∀ t, (body t).Orderly) {env : Env} (henv : env.Orderly) {w w₁ : World} {e : Entered}
    (h : b.enter env w = (.ok e, w₁)) :
    ∃ id, e.yields = .handle (.window id) ∧ w₁.window id = [] ∧
      (∃ es, Course { env with context := e.context } (body e.yields).run w₁ es) ∧
      ∀ es, Course { env with context := e.context } (body e.yields).run w₁ es →
        (Scope.run b.enter (fun t => (body t).run) env w).2.window id = Event.own es ∧
          ∀ b ∈ Event.allBuilds collects es, b.MadeIn (·.window = some id) := by
  obtain ⟨id, hid⟩ := (enter_ok h).opens hb
  refine ⟨id, hid.yields, hid.window, (body e.yields).run_orderly (hbody _) _ (henv.within _) w₁, fun es hcourse => ?_⟩
  have hown := hcourse.own_of_opens hid
  rcases hr : (body e.yields).run { env with context := e.context } w₁ with ⟨r, w₂⟩
  rw [hr] at hown
  have hentities : ∀ t ∈ w₂.window id, t.isEntity = true := hown ▸ hcourse.own_isEntity
  refine ⟨?_, hid.active ▸ hcourse.builds_madeIn⟩
  rw [Scope.world_of_enter h hr, ← hown]
  exact World.window_of_windows (leave_quietOver h hid _ env w₂ hentities) id

/-- A plan that fails in an inner scope. Before that it has built a class, refined it, given it a label and closed an
inner scope; and a call of a builder has failed after it had called a producer. -/
def Plan.unwound : Plan :=
  .step (Service.Call.making .cls "A" .null).run fun a =>
  .caught (.step (Service.Call.making .cls "B" (.map [(.text "subclass", .tuple [.closure 0 0 .null .null, .int 5])])).run
    .done) fun _ =>
  .scope (.disjoint .null) (fun _ => .calling (.making .cls "C" .null) [.making .cls "D" .null]) fun _ =>
  .step (Service.Call.frame .cls .label a [.text "a"] .null).run fun _ =>
  .step (Service.Call.build (.refine a (.map [(.text "subclass", .closure 0 0 .null .null)]) .null [])).run fun _ =>
  .scope (.inverse .null) (fun _ => .calling (.making .objectProperty "p" .null) []) .done

theorem Plan.unwound_orderly : Plan.unwound.Orderly :=
  ⟨Service.Call.run_orderly _, fun _ => ⟨⟨Service.Call.run_orderly _, fun _ => trivial⟩, fun _ =>
    ⟨fun _ => calling_orderly _ _, fun _ => ⟨Service.Call.run_orderly _, fun _ => ⟨Service.Call.run_orderly _, fun _ =>
      ⟨fun _ => calling_orderly _ _, fun _ => trivial⟩⟩⟩⟩⟩⟩

theorem Service.Block.collects_own_unwound :
    let env := Env.single.running fun _ _ => .calling (.making .cls "P" .null) []
    let a : Term := .entity 0 ⟨.cls, "o#A"⟩
    let p : Term := .entity 0 ⟨.cls, "o#P"⟩
    let r := Scope.run collection.enter (fun _ => Plan.unwound.run) env .single
    r.1.isOk = false ∧ (r.2.window 1 == [a, p, p, a]) = true ∧
      ∃ es, Course { env with context := { env.context with window := some 1 } } Plan.unwound.run World.single.opened es ∧
        r.2.window 1 = Event.own es ∧ ∀ b ∈ Event.allBuilds collects es, b.MadeIn (·.window = some 1) := by
  intro env a p r
  have henv : env.Orderly := Env.single_orderly.running fun _ _ => Plan.calling_orderly _ _
  have hbody : ∀ _ : Term, Plan.unwound.Orderly := fun _ => Plan.unwound_orderly
  obtain ⟨id, hyields, -, ⟨es, hcourse⟩, hall⟩ := collects_own (b := .collection) rfl hbody henv (w := .single) rfl
  cases hyields
  obtain ⟨hown, hmade⟩ := hall es hcourse
  exact ⟨by decide +kernel, by decide +kernel, es, hcourse, hown, hmade⟩

end Authoring
