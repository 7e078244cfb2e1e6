import Authoring.Builder
import Authoring.Proofs.Change
import Authoring.Proofs.Compile

/-!
# Builders are all or nothing

A call of a builder has two parts. First it is *prepared*: the ontology and the entity are found, and the frames
are compiled. This is calm. Then it is *completed*: the axioms are added, and the entity is recorded in the
active window. Between the first addition and the end nothing can fail, because whether the store holds the
ontology is asked before each addition and does not change.

So a call that fails leaves the ontologies and the windows as they are, and one that returns an entity has added
what was compiled and recorded the entity once (`Builder.Call.all_or_nothing`). `Call.run_cases` is the same in
the form in which it is used: a call is refused after some calm steps, or it does what completion does.

**What is assumed.** Producers and naming functions are harmless, and the values of the frames and of the default
frames are fit (`Call.Fit`). The reference, the target and the frames may otherwise be anything.
-/

namespace Authoring

/-- Adds a term to the active window, if there is one. -/
def World.record (w : World) (active : Option Nat) (t : Term) : World :=
  match active with
  | some id => { w with windows := w.windows.set id (w.window id ++ [t]) }
  | none => w

@[simp] theorem World.ontology_record (w : World) (active : Option Nat) (t : Term) (id : Nat) :
    (w.record active t).ontology id = w.ontology id := by
  cases active <;> rfl

theorem World.record_ontologies (w : World) (active : Option Nat) (t : Term) :
    (w.record active t).ontologies = w.ontologies := by
  cases active <;> rfl

/-- The active window gets one more member, and no other window does. -/
theorem World.record_windows (w : World) (active : Option Nat) (t : Term) :
    (w.record active t).windows = match active with
      | some id => w.windows.modify id (· ++ [t])
      | none => w.windows := by
  cases active with
  | none => rfl
  | some id =>
    show w.windows.set id (w.window id ++ [t]) = w.windows.modify id (· ++ [t])
    unfold window
    apply List.ext_getElem?
    intro j
    rw [List.getElem?_set, List.getElem?_modify]
    by_cases hj : id = j
    · subst hj
      by_cases hid : id < w.windows.length
      · simp [hid]
      · simp [hid]
    · simp [hj]

theorem Act.run_record (t : Term) (env : Env) (w : World) :
    Window.record t env w = (.ok (), w.record env.context.window t) := by
  unfold Window.record World.record
  rw [run_bind, run_context]
  dsimp only
  cases env.context.window <;> rfl

namespace Builder

open Act

/-- What has been found out before the first axiom is added. -/
structure Prepared where
  target : Term
  entity : Term
  axioms : List Axiom

/-- Finds the ontology and the entity, and compiles the frames. -/
def prepare (kind : EntityKind) (name : Term) (frames : FrameMap) (ontology : Term) : Act Prepared := do
  let o ← Current.orGiven ontology
  let entity ← Reference.resolve name kind o
  let axioms ← Compile.compile entity frames.entries (← Window.defaults).entries .null o
  return ⟨o, entity, axioms⟩

/-- Adds the axioms and records the entity. -/
def complete (p : Prepared) : Act Term := do
  Change.addAxioms p.axioms p.target
  Window.record p.entity
  let _ ← iriOf p.target
  return p.entity

theorem build_eq (kind : EntityKind) (name : Term) (frames : FrameMap) (ontology : Term) :
    build kind name frames ontology = prepare kind name frames ontology >>= complete := by
  simp only [build, prepare, complete, bind_assoc, pure_bind]

/-- The builder of a kind, up to its first addition. -/
def prepareOfKind (kind : EntityKind) (name frames ontology : Term) (more : List (String × Term)) :
    Act Prepared := do
  let all ← gather frames more
  prepare kind (← if kind = .cls then className name all else pure name) all ontology

theorem ofKind_eq (kind : EntityKind) (name frames ontology : Term) (more : List (String × Term)) :
    ofKind kind name frames ontology more = prepareOfKind kind name frames ontology more >>= complete := by
  cases kind <;> simp [ofKind, owlClass, prepareOfKind, build_eq]

/-! ## Calls -/

/-- A call of the builder of a kind, or of `refine`. -/
inductive Call where
  | make (kind : EntityKind) (name frames ontology : Term) (more : List (String × Term))
  | refine (entity frames ontology : Term) (more : List (String × Term))

namespace Call

def run : Call → Act Term
  | .make kind name frames ontology more => ofKind kind name frames ontology more
  | .refine entity frames ontology more => Builder.refine entity frames ontology more

/-- A call up to its first addition. -/
def prepare : Call → Act Prepared
  | .make kind name frames ontology more => prepareOfKind kind name frames ontology more
  | .refine (.entity m e) frames ontology more => prepareOfKind e.kind (.entity m e) frames ontology more
  | .refine t _ _ _ => do throw (.notAnEntity (← inspect t))

theorem run_eq (c : Call) : c.run = c.prepare >>= complete := by
  cases c with
  | make => exact ofKind_eq ..
  | refine t =>
    cases t
    case entity => exact ofKind_eq ..
    all_goals rfl

end Call

/-! ## The first part -/

/-- What is found out is fit to be completed: the axioms are the declaration of an entity and others, all of
which concern it. -/
structure Prepared.Sane (p : Prepared) (m : Nat) (e : Entity) : Prop where
  target : p.target ≠ .null
  entity : p.entity = .entity m e
  axioms : ∃ rest, p.axioms = .declaration (.entity m e) :: rest
  concerns : ∀ a ∈ p.axioms, a.Concerns m e

variable {env : Env} {S : Expr → Prop} {w : World}

theorem orGiven_calm (t : Term) : Calm env S (Current.orGiven t) (· ≠ .null) := by
  intro w hw
  exact ⟨(Current.orGiven_calm t w hw).1, fun _ ha => Current.orGiven_ne_null (Prod.ext ha rfl)⟩

theorem prepare_calm (h : env.Harmless S) (hd : FrameMap.AreFit S (env.context.defaults.getD []).entries)
    (kind : EntityKind) {name : Term} (hn : ∀ b ∈ name.bodies, S b) {frames : FrameMap} (hf : frames.IsFit S)
    (ontology : Term) :
    Calm env S (prepare kind name frames ontology) fun p => ∃ m e, p.Sane m e := by
  unfold prepare
  refine .bind (orGiven_calm ontology) fun o ho => .bind (Reference.resolve_calm h hn _ _ _) fun t ht => ?_
  have defaults : Calm env S Window.defaults (· = env.context.defaults.getD []) :=
    .of_read fun w => ⟨_, rfl, fun _ h => (Except.ok.inj h).symm⟩
  refine .bind defaults fun d hdef => ?_
  subst hdef
  cases ht.1 with
  | entity m iri =>
    refine .bind (Compile.compile_calm h hf.entries hd .null) fun as has => .pure ?_
    exact ⟨m, _, ho, rfl, has.1, has.2⟩
  | expression =>
    -- The kind of an expression is asked for to check its frames, and it has none.
    exact .of_refused fun w => .first (Compile.compile_expression ..)

/-- The arguments of a call are fit: its reference calls nothing outside the set, and so do the values of its
frames, its further frames and the default frames, which are as they should be. -/
structure FitArguments (S : Expr → Prop) (env : Env) (w : World) (name frames : Term)
    (more : List (String × Term)) : Prop where
  name : ∀ b ∈ name.bodies, S b
  frames : ∀ es, frames = .map es → FrameMap.AreFit S (es.map fun e => (e.1, w.spread e.2))
  more : FrameMap.AreFit S (more.map fun e => (.text e.1, w.spread e.2))
  defaults : FrameMap.AreFit S (env.context.defaults.getD []).entries

theorem entriesOf_fit {frames : Term} {es : List (Term × Term)} {w' : World}
    (hf : ∀ es, frames = .map es → FrameMap.AreFit S (es.map fun e => (e.1, w.spread e.2)))
    (h : entriesOf frames env w = (.ok es, w')) :
    w' = w ∧ FrameMap.AreFit S (es.map fun e => (e.1, w.spread e.2)) := by
  unfold entriesOf at h
  split at h
  · cases h
    exact ⟨rfl, hf _ rfl⟩
  · rw [run_bind, run_isTruthy] at h
    dsimp only at h
    split at h
    · cases h
    · cases h
      exact ⟨rfl, List.forall_mem_nil _⟩

theorem entriesOf_reads (t : Term) : Reads (entriesOf t) := by
  unfold entriesOf
  split
  · exact .pure _
  · exact .bind (fun _ _ => rfl) fun _ => .ite (.throw _) (.pure _)

theorem gather_reads (frames : Term) (more : List (String × Term)) : Reads (gather frames more) :=
  .bind (entriesOf_reads frames) fun _ => .bind (fun _ _ => rfl) fun _ => .bind (fun _ _ => rfl) fun _ => .pure _

/-- Fit frames that are gathered are fit. -/
theorem gather_fit {name frames : Term} {more : List (String × Term)} {all : FrameMap} {w' : World}
    (hc : FitArguments S env w name frames more) (h : gather frames more env w = (.ok all, w')) :
    all.IsFit S := by
  unfold gather at h
  obtain ⟨es, w₁, hes, hrest⟩ := bind_ok h
  obtain ⟨rfl, hfit⟩ := entriesOf_fit hc.frames hes
  simp only [run_bind, run_framesOf, run_pure] at hrest
  cases hrest
  refine FrameMap.AreFit.merge hfit ?_
  have hmore := hc.more
  rwa [List.map_map]

theorem className_calm {name : Term} (hn : ∀ b ∈ name.bodies, S b) {frames : FrameMap} (hf : frames.IsFit S) :
    Calm env S (className name frames) fun t => ∀ b ∈ t.bodies, S b := by
  have chosen : ∀ b ∈ ((frames.valuesOf (Term.ofTag .name)).head?.getD name).bodies, S b := by
    cases hv : frames.valuesOf (Term.ofTag .name) with
    | nil => exact hn
    | cons v vs => exact (hf.valuesOf _ v (hv ▸ List.mem_cons_self)).2
  unfold className
  dsimp only
  split
  case h_4 => exact .pure chosen
  all_goals
    refine .bind (.of_reads fun _ _ => rfl) fun c _ => ?_
    exact .bind (.display _) fun _ _ => .pure nofun

/-- Preparing a call with fit arguments leaves everything alone. -/
theorem prepareOfKind_spec (h : env.Harmless S) (hw : w.NamesWithin S) (kind : EntityKind)
    {name frames : Term} {more : List (String × Term)} (hc : FitArguments S env w name frames more)
    (ontology : Term) :
    w.Untouched (prepareOfKind kind name frames ontology more env w).2 ∧
      ∀ p, (prepareOfKind kind name frames ontology more env w).1 = .ok p → ∃ m e, p.Sane m e := by
  unfold prepareOfKind
  rw [run_bind]
  have hreads := gather_reads frames more env w
  rcases hg : gather frames more env w with ⟨f | all, w₁⟩ <;> rw [hg] at hreads <;> subst hreads
  · exact ⟨.refl _, nofun⟩
  · have hall := gather_fit hc hg
    have hcalm : Calm env S (do prepare kind (← if kind = .cls then className name all else pure name) all ontology)
        fun p => ∃ m e, p.Sane m e := by
      have finish : ∀ t : Term, (∀ b ∈ t.bodies, S b) → Calm env S (prepare kind t all ontology)
          fun p => ∃ m e, p.Sane m e := fun t ht => prepare_calm h hc.defaults kind ht hall ontology
      refine .ite (fun _ => ?_) fun _ => ?_
      · exact .bind (className_calm hc.name hall) finish
      · exact .bind (.pure hc.name) finish
    exact hcalm _ hw

/-! ## The second part -/

/-- A prepared call is completed, or the first addition is refused. -/
theorem complete_cases {p : Prepared} {m : Nat} {e : Entity} (hp : p.Sane m e) (hw : w.Sound) (env : Env) :
    (∃ id, p.target = .handle (.ontology id) ∧ w.Manages id ∧
      complete p env w = (.ok (.entity m e),
        (w.setOntology id ((w.ontology id).addAll p.axioms)).record env.context.window (.entity m e))) ∨
    Refused env (complete p) w := by
  obtain ⟨rest, has⟩ := hp.axioms
  have hstable : ∀ a ∈ Axiom.declaration (.entity m e) :: rest, a.toTerm.isStable = true :=
    fun a ha => (hp.concerns a (has ▸ ha)).1.1
  rcases Change.addAxioms_cases hw hp.target hstable env with ⟨id, htarget, hm, hadd⟩ | hadd
  · refine .inl ⟨id, htarget, hm, ?_⟩
    rw [htarget] at hadd
    rw [complete, htarget, has, hp.entity, run_bind, hadd]
    simp only [run_bind, run_record]
    rfl
  · refine .inr (.first ?_)
    rwa [has]

/-! ## The whole call -/

namespace Call

/-- A call whose arguments are fit. -/
def Fit (S : Expr → Prop) (env : Env) (w : World) : Call → Prop
  | .make _ name frames _ more => FitArguments S env w name frames more
  | .refine entity frames _ more => FitArguments S env w entity frames more

theorem prepare_spec {c : Call} (h : env.Harmless S) (hw : w.NamesWithin S) (hc : c.Fit S env w) :
    w.Untouched (c.prepare env w).2 ∧ ∀ p, (c.prepare env w).1 = .ok p → ∃ m e, p.Sane m e := by
  cases c with
  | make kind name frames ontology more => exact prepareOfKind_spec h hw kind hc ontology
  | refine t frames ontology more =>
    cases t
    case entity m e => exact prepareOfKind_spec h hw e.kind hc ontology
    all_goals exact ⟨.refl w, nofun⟩

/-- **What a call does**: it is completed, or it fails and leaves everything alone. -/
theorem run_cases {c : Call} (h : env.Harmless S) (hw : w.Sound) (hn : w.NamesWithin S) (hc : c.Fit S env w) :
    (∃ id m e as w₁, c.prepare env w = (.ok ⟨.handle (.ontology id), .entity m e, as⟩, w₁) ∧
      w.Untouched w₁ ∧ w₁.Manages id ∧ (∀ a ∈ as, a.Concerns m e) ∧
      c.run env w = (.ok (.entity m e),
        (w₁.setOntology id ((w₁.ontology id).addAll as)).record env.context.window (.entity m e))) ∨
    ∃ f w₁, c.run env w = (.error f, w₁) ∧ w.Untouched w₁ := by
  have hprepare := prepare_spec h hn hc
  rw [run_eq, run_bind]
  rcases hp : c.prepare env w with ⟨f | p, w₁⟩ <;> rw [hp] at hprepare
  · exact .inr ⟨f, w₁, rfl, hprepare.1⟩
  · obtain ⟨huntouched, hsane⟩ := hprepare
    obtain ⟨m, e, hsane⟩ := hsane p rfl
    rcases complete_cases hsane (hw.of_untouched huntouched) env with ⟨id, htarget, hm, hrun⟩ | ⟨f, hrun⟩
    · obtain ⟨target, entity, as⟩ := p
      cases htarget
      cases hsane.entity
      exact .inl ⟨id, m, e, as, w₁, rfl, huntouched, hm, hsane.concerns, hrun⟩
    · exact .inr ⟨f, w₁, hrun, huntouched⟩

/-- What is to be true of a call in a world. -/
structure AllOrNothing (c : Call) (env : Env) (w : World) : Prop where
  /-- If it fails, every ontology and every window is as before. -/
  failed : ∀ f w', c.run env w = (.error f, w') → w'.ontologies = w.ontologies ∧ w'.windows = w.windows
  /-- If it returns something, this is an entity. The compiled axioms that were not there stand at the end of
  the target, in their order, and the entity at the end of the active window. Nothing else has changed in any
  ontology or window. -/
  built : ∀ t w', c.run env w = (.ok t, w') → ∃ id as w₁,
    c.prepare env w = (.ok ⟨.handle (.ontology id), t, as⟩, w₁) ∧ t.isEntity = true ∧ w.Manages id ∧
    (w'.ontology id).axioms = (w.ontology id).axioms ++ (w.ontology id).fresh as ∧
    (∀ j, j ≠ id → w'.ontology j = w.ontology j) ∧
    w'.windows = match env.context.window with
      | some i => w.windows.modify i (· ++ [t])
      | none => w.windows

/-- **Builders are all or nothing**, with whatever reference, target and fit frames they are called. -/
theorem all_or_nothing {c : Call} (h : env.Harmless S) (hw : w.Sound) (hn : w.NamesWithin S)
    (hc : c.Fit S env w) : c.AllOrNothing env w := by
  rcases run_cases h hw hn hc with ⟨id, m, e, as, w₁, hp, hu, hm, -, hrun⟩ | ⟨f, w₁, hrun, hu⟩
  · constructor
    · intro f w' hf
      rw [hrun] at hf
      cases hf
    · intro t w' ht
      rw [hrun] at ht
      cases ht
      have hm' : w.Manages id := ⟨hu.ontologies ▸ hm.exists_ontology, by
        rw [← hu.holds, ← hu.installed]
        exact hm.holds⟩
      refine ⟨id, as, w₁, hp, rfl, hm', ?_, ?_, ?_⟩
      · rw [World.ontology_record, World.ontology_setOntology hm.exists_ontology, Ontology.addAll_axioms,
          hu.ontology]
      · intro j hj
        rw [World.ontology_record, World.ontology_setOntology_of_ne hj, hu.ontology]
      · rw [World.record_windows, ← hu.windows]
        rfl
  · constructor
    · intro f' w' hf
      rw [hrun] at hf
      cases hf
      exact ⟨hu.ontologies, hu.windows⟩
    · intro t w' ht
      rw [hrun] at ht
      cases ht

/-- A call with an active window and default frames. A frame holds an expression and a producer. -/
theorem all_or_nothing_single :
    let c := make .cls (.text "a") (.map [(.text "subclass", .tuple
      [.expression (.ofOperator .not) [.entity 0 ⟨.cls, "b"⟩] .null, .closure 0 0 .null .null])])
      (.handle (.ontology 0)) []
    let env := { Env.plain with
      context := { Context.outermost with window := some 0, defaults := some [(.ofTag .label, [.text "A"])] }
      eval := fun _ _ _ w => (.ok (.entity 0 ⟨.cls, "d"⟩), w) }
    (c.run env .single).1 = .ok (.entity 0 ⟨.cls, "o#a"⟩) ∧ c.AllOrNothing env .single := by
  intro c env
  have harmless : env.Harmless fun _ => True :=
    fun _ _ _ w => ⟨.refl w, fun _ h => Except.ok.inj h ▸ ⟨rfl, fun _ _ => trivial⟩⟩
  refine ⟨by rfl, all_or_nothing harmless World.single_sound (fun _ _ _ _ => trivial)
    ⟨fun _ _ => trivial, ?_, nofun, ?_⟩⟩
  · rintro es h
    cases h
    refine List.forall_mem_singleton.mpr (List.forall_mem_cons.mpr ⟨⟨by decide, fun _ _ => trivial⟩, ?_⟩)
    exact List.forall_mem_singleton.mpr ⟨rfl, fun _ _ => trivial⟩
  · exact List.forall_mem_singleton.mpr (List.forall_mem_singleton.mpr ⟨by decide, fun _ _ => trivial⟩)

end Call

end Builder

end Authoring
