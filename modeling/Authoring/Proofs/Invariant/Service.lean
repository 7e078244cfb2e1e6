import Authoring.Proofs.Invariant.Compile
import Authoring.Proofs.Scope.Variables

/-!
# The authoring layer upholds its invariants

Every program of the authoring layer upholds every invariant of the layer (`Service.Program.run_upholds`), if its
arguments meet the policy and the policy is closed. This holds in each world that the program passes through, so also
when a call fails.

The proof follows the text of the operations. There is one lemma for each, `Call.run_upholds` puts those of the calls
together and `Block.enter_upholds` those of the scopes, and the induction is on the program.

**What is assumed.** The arguments meet the policy (`Call.Meets`, `Block.Meets`), which leaves names, IRIs, entities,
producers of these, and all terms that are refused where they are used. An argument that is to be an ontology may be
anything but one that may not be worked on. What a group scope collects may be of any kind: the group axioms are about
classes, or properties, because whatever is of another kind is refused.
-/

namespace Authoring

open Act

variable {π : Policy} {I : World → Prop} [Invariant π I] {ontology : Term}

/-! ## Changes -/

/-- Adding an axiom that has its form, to whatever ontology. -/
theorem Change.add_upholds (ho : π.Targets ontology) {a : Axiom} (ha : a.Meets π) :
    Upholds π I (Change.add a.toTerm ontology) (·.Meets π) := by
  refine .bind (.orGiven ho) fun o _ => .bind (.of_reads fun _ _ => rfl) fun store _ => ?_
  refine .bind (P := fun _ => True) ?_ fun _ _ => .pure trivial
  refine .bind (.of_reads (Store.requireManaged_reads store o)) fun _ _ => ?_
  refine .bind (P := (· = a)) (.pure rfl) fun b hb => .bind (.of_reads (.asOntology o)) fun j _ => ?_
  refine .bind (.of_reads (.requireStable _)) fun _ _ => ?_
  subst hb
  exact fun env _ w hw => ⟨Invariant.add hw ha j, fun _ _ => trivial⟩

theorem Change.addEach_upholds (ho : π.Targets ontology) {as : List Axiom} (has : ∀ a ∈ as, a.Meets π) :
    Upholds π I (Change.addEach (as.map Axiom.toTerm) ontology) fun ts => ∀ t ∈ ts, t.Meets π := by
  refine .bind (.orGiven ho) fun o ho => .mapM fun t ht => ?_
  obtain ⟨a, ha, rfl⟩ := List.mem_map.mp ht
  exact Change.add_upholds ho (has a ha)

/-! ## Windows -/

theorem Window.openNew_upholds : Upholds π I Window.openNew fun _ => True := by
  intro env _ w hw
  refine ⟨Invariant.windows π hw fun ts hts => ?_, fun _ _ => trivial⟩
  rcases List.mem_append.mp hts with hts | hts
  · exact Invariant.collected π hw ts hts
  · exact List.mem_singleton.mp hts ▸ nofun

/-- Only entities get into windows. -/
theorem Window.record_upholds {t : Term} (ht : t.isEntity = true) :
    Upholds π I (Window.record t) fun _ => True := by
  refine .bind .context fun c _ => ?_
  split
  · exact .modify fun w hw => Invariant.windows π hw ((Invariant.collected π hw).push ht _)
  · exact .pure trivial

theorem Scope.collected_upholds (n : Nat) : Upholds π I (Scope.collected n) fun ts => ∀ t ∈ ts, t.Meets π :=
  .bind .get fun _ hw => .pure fun t ht => Term.meets_of_isEntity ((Invariant.collected π hw).window n t ht)

/-! ## Builders -/

namespace Builder

variable {name frames : Term} {more : List (String × Term)} {ts : List Term}

theorem framesOf_upholds {es : List (Term × Term)} (h : ∀ e ∈ es, e.2.Meets π) :
    Upholds π I (framesOf es) fun fs => ∀ f ∈ fs, f.2.Meets π := by
  refine .bind .get fun w hw => .pure fun f hf => ?_
  obtain ⟨e, he, rfl⟩ := List.mem_map.mp hf
  exact (Invariant.collected π hw).spread (h e he)

omit [Invariant π I] in
theorem entriesOf_upholds (hf : frames.Meets π) : Upholds π I (entriesOf frames) fun es => ∀ e ∈ es, e.2.Meets π := by
  unfold entriesOf
  split
  · exact .pure (Term.entriesMeet_iff.mp hf)
  · exact .bind (.of_reads fun _ _ => rfl) fun _ _ => .ite (fun _ => .throw) fun _ => .pure (List.forall_mem_nil _)

theorem gather_upholds (hf : frames.Meets π) (hm : ∀ e ∈ more, e.2.Meets π) :
    Upholds π I (gather frames more) (FrameMap.All (·.Meets π)) := by
  refine .bind (entriesOf_upholds hf) fun es hes => .bind (framesOf_upholds hes) fun fs hfs => ?_
  have hmore : ∀ e ∈ more.map fun e => (Term.text e.1, e.2), e.2.Meets π := by
    intro e he
    obtain ⟨f, hf, rfl⟩ := List.mem_map.mp he
    exact hm f hf
  refine .bind (framesOf_upholds hmore) fun gs hgs => .pure ?_
  exact .merge (FrameMap.leaves_meet hfs) (FrameMap.leaves_meet hgs)

omit [Invariant π I] in
theorem className_upholds (hn : name.Meets π) {all : FrameMap} (hf : all.All (·.Meets π)) :
    Upholds π I (className name all) (·.Meets π) := by
  have chosen : ((all.valuesOf (Term.ofTag .name)).head?.getD name).Meets π := by
    cases hv : all.valuesOf (Term.ofTag .name) with
    | nil => exact hn
    | cons v vs => exact hf.valuesOf _ v (hv ▸ List.mem_cons_self)
  unfold className
  dsimp only
  split
  case h_4 => exact .pure chosen
  all_goals exact .bind .context fun _ _ => .bind (.of_reads fun _ _ => rfl) fun _ _ => .pure trivial

omit [Invariant π I] in
theorem pairOf_upholds (h : ∀ t ∈ ts, t.Meets π) :
    Upholds π I (pairOf (.tuple ts)) fun p => p.1.Meets π ∧ p.2.Meets π := by
  refine .bind (P := (· = ts)) (.pure rfl) fun us hus => ?_
  subst hus
  split
  · exact .pure ⟨h _ List.mem_cons_self, h _ (List.mem_cons_of_mem _ List.mem_cons_self)⟩
  all_goals exact .throw

/-- A call of the builders whose arguments meet a policy. -/
def Call.Meets (π : Policy) : Call → Prop
  | .make _ name frames o more => π.Targets o ∧ name.Meets π ∧ frames.Meets π ∧ ∀ e ∈ more, e.2.Meets π
  | .refine entity frames o more => π.Targets o ∧ entity.Meets π ∧ frames.Meets π ∧ ∀ e ∈ more, e.2.Meets π

section
variable (hπ : π.Closed) (ho : π.Targets ontology)
include hπ ho

theorem build_upholds (kind : EntityKind) (hn : name.Meets π) {all : FrameMap} (hf : all.All (·.Meets π)) :
    Upholds π I (build kind name all ontology) (·.Meets π) := by
  refine .bind (.orGiven ho) fun o ho => .bind (Reference.denoted_upholds ho hn kind _) fun e he => ?_
  have defaults : Upholds π I Window.defaults (FrameMap.All (·.Meets π)) :=
    .bind .context fun _ hc => .pure hc.defaults
  refine .bind defaults fun d hd => ?_
  refine .bind (Compile.compile_upholds hπ ho he.1 hf.entries_meet hd.entries_meet) fun as has => ?_
  refine .bind (P := fun _ => True) ?_ fun _ _ => ?_
  · exact .bind (Change.addEach_upholds ho has.2) fun _ _ => .pure trivial
  · exact .bind (Window.record_upholds has.1) fun _ _ => .bind (.of_reads (.iriOf o)) fun _ _ => .pure he.2

/-- **A builder upholds every invariant**, and answers with a term that meets the policy. -/
theorem ofKind_upholds (kind : EntityKind) (hn : name.Meets π) (hf : frames.Meets π)
    (hm : ∀ e ∈ more, e.2.Meets π) : Upholds π I (ofKind kind name frames ontology more) (·.Meets π) := by
  cases kind
  case cls =>
    refine .bind (gather_upholds hf hm) fun all hall => .bind (className_upholds hn hall) fun n hn => ?_
    exact build_upholds hπ ho .cls hn hall
  all_goals exact .bind (gather_upholds hf hm) fun all hall => build_upholds hπ ho _ hn hall

theorem owlClass_upholds (hn : name.Meets π) (hf : frames.Meets π) :
    Upholds π I (owlClass name frames ontology []) (·.Meets π) :=
  ofKind_upholds hπ ho .cls hn hf (List.forall_mem_nil _)

/-- A class without frames. -/
theorem owlClass_null_upholds (hn : name.Meets π) : Upholds π I (owlClass name .null ontology []) (·.Meets π) :=
  owlClass_upholds hπ ho hn (show Term.null.Meets π from trivial)

theorem declareClasses_upholds (hts : ∀ t ∈ ts, t.Meets π) :
    Upholds π I (declareClasses ts ontology) fun us => ∀ u ∈ us, u.Meets π :=
  .bind (.leaves hts) fun _ hus => .mapM fun u hu => owlClass_null_upholds hπ ho (hus u hu)

theorem defineClasses_upholds (hts : ∀ t ∈ ts, t.Meets π) :
    Upholds π I (defineClasses ts ontology) fun us => ∀ u ∈ us, u.Meets π := by
  refine .mapM fun t ht => ?_
  have ht := hts t ht
  split
  · exact .bind (pairOf_upholds (Term.allMeet_iff.mp ht)) fun p hp => owlClass_upholds hπ ho hp.1 hp.2
  · exact owlClass_null_upholds hπ ho ht

/-- Frames of one tag for an entity that there is. -/
theorem addFrame_upholds (kind : EntityKind) (tag : FrameTag) (hn : name.Meets π) (hts : ∀ t ∈ ts, t.Meets π) :
    Upholds π I (addFrame kind tag name ts ontology) fun us => ∀ u ∈ us, u.Meets π := by
  refine .bind (.orGiven ho) fun o ho => .bind (Reference.denoted_upholds ho hn kind _) fun e he => ?_
  have hvalues : (Term.tuple ts).Meets π := Term.allMeet_iff.mpr hts
  refine .bind (framesOf_upholds (List.forall_mem_singleton.mpr hvalues)) fun fs hfs => ?_
  refine .bind (Compile.compile_upholds hπ ho he.1 hfs (List.forall_mem_nil _)) fun as has => ?_
  exact Change.addEach_upholds ho fun a ha => has.2 a (List.mem_of_mem_drop ha)

end

theorem Call.run_upholds (hπ : π.Closed) {c : Call} (h : c.Meets π) : Upholds π I c.run (·.Meets π) := by
  cases c with
  | make kind name frames ontology more => exact ofKind_upholds hπ h.1 kind h.2.1 h.2.2.1 h.2.2.2
  | refine entity frames ontology more =>
    show Upholds π I (Builder.refine entity frames ontology more) _
    unfold Builder.refine
    split
    · exact ofKind_upholds hπ h.1 _ h.2.1 h.2.2.1 h.2.2.2
    · exact .bind (P := fun _ => True) (.of_reads fun _ _ => rfl) fun _ _ => .throw

section
variable (ho : π.Targets ontology)
include ho

/-- Classes are made disjoint if two of them at least are different. -/
theorem disjointClasses_upholds (hts : ∀ t ∈ ts, t.Meets π) :
    Upholds π I (disjointClasses ts ontology) (·.Meets π) := by
  refine .bind (.orGiven ho) fun o ho => .bind (.leaves hts) fun us hus => ?_
  refine .bind (P := fun cs => ∀ c ∈ cs, π.Describes c ∧ c.isStable = true) (.mapM fun u hu => ?_) fun cs hcs => ?_
  · refine .bind (Reference.resolveClass_upholds ho (hus u hu) _) fun c hc => ?_
    exact .bind (.requireStable c) fun _ hs => .pure ⟨hc, hs⟩
  · have hdifferent : ∀ c ∈ cs.eraseDups, π.Describes c ∧ c.isStable = true :=
      fun c hc => hcs c (Distinct.mem_of_mem_eraseDups hc)
    refine .ite (fun _ => .pure trivial) fun htwo => Change.add_upholds ho ?_
    refine .of_group (.one rfl (Axiom.admits_group (fun c hc => (hdifferent c hc).1) ?_)) fun c hc => (hdifferent c hc).2
    rw [(Distinct.eraseDups cs).eraseDups_eq]
    exact Nat.le_of_not_lt htwo

/-- A disjoint union may have a class expression for its owner. -/
theorem addDisjointUnion_upholds (hn : name.Meets π) (hts : ∀ t ∈ ts, t.Meets π) :
    Upholds π I (addDisjointUnion name ts ontology) (·.Meets π) := by
  refine .bind (.orGiven ho) fun o ho => .bind (Reference.resolveClass_upholds ho hn _) fun c hc => ?_
  refine .bind (.leaves hts) fun us hus => .bind (Reference.resolveClasses_upholds ho hus) fun cs hcs => ?_
  refine .bind (.forM fun t _ => .requireStable t) fun _ hs => Change.add_upholds ho ?_
  refine ⟨.two rfl hc (Axiom.admits_group hcs (Nat.zero_le _)), fun ms hms m hm => ?_⟩
  rcases List.mem_cons.mp hms with rfl | hms
  · exact absurd hc (Policy.Describes.not_set ms)
  · cases List.mem_singleton.mp hms
    exact hs m (Distinct.mem_of_mem_eraseDups hm)

end

end Builder

/-! ## Scopes -/

/-- A scope that has been opened: its context and what it yields meet the policy, and leaving it upholds the
invariant. -/
structure Entered.Upholds (π : Policy) (I : World → Prop) (e : Entered) : Prop where
  context : e.context.Meets π
  yields : e.yields.Meets π
  leave : ∀ f, Act.Upholds π I (e.leave f) fun _ => True

namespace Scope

omit [Invariant π I] in
theorem onSuccess_upholds {work : Act Unit} (h : Upholds π I work fun _ => True) (f : Option Fault) :
    Upholds π I (onSuccess work f) fun _ => True := by
  cases f with
  | none => exact h
  | some _ => exact .pure trivial

omit [Invariant π I] in
/-- Nothing is done when a scope is left that only changes the context. -/
theorem pure_leave_upholds (c : Context) (t : Term) (f : Option Fault) :
    Upholds π I ((Scope.pure c t).leave f) fun _ => True := .pure trivial

omit [Invariant π I] in
/-- **A body runs inside a scope** as it runs outside, so far as it upholds the invariant. -/
theorem run_upholds {α : Type} {P : α → Prop} {opening : Act Entered} {body : Term → Act α}
    (ho : Upholds π I opening (·.Upholds π I)) (hb : ∀ t, t.Meets π → Upholds π I (body t) P) :
    Upholds π I (run opening body) P := by
  refine .bind ho fun entered he => .bind (.attempt (.within he.context (hb _ he.yields))) fun r hr => ?_
  split
  · exact .bind (he.leave none) fun _ _ => .pure (hr _ rfl)
  next f => exact .bind (he.leave (some f)) fun _ _ => .throw

theorem withDefaultFrames_upholds {frames : Term} (hf : frames.Meets π) :
    Upholds π I (withDefaultFrames frames) (·.Upholds π I) := by
  refine .bind (Builder.entriesOf_upholds hf) fun es hes => .bind (Builder.framesOf_upholds hes) fun fs hfs => ?_
  have hframes : (FrameMap.normalize fs).All (·.Meets π) := .normalize (FrameMap.leaves_meet hfs)
  refine .bind .context fun c hc => .pure ⟨⟨hframes, hc.target⟩, ?_, pure_leave_upholds _ _⟩
  exact Term.entriesMeet_iff.mpr hframes.entries_meet

theorem asDisjoint_upholds (ho : π.Targets ontology) : Upholds π I (asDisjoint ontology) (·.Upholds π I) := by
  refine .bind (.orGiven ho) fun o ho => .bind Window.openNew_upholds fun n _ => ?_
  refine .bind .context fun c hc => .pure ⟨⟨hc.defaults, hc.target⟩, trivial, onSuccess_upholds ?_⟩
  refine .bind (collected_upholds n) fun ts hts => ?_
  exact .bind (Builder.disjointClasses_upholds ho hts) fun _ _ => .pure trivial

theorem relateInverses_upholds (ho : π.Targets ontology) {ts : List Term} (hts : ∀ t ∈ ts, t.Meets π) :
    Upholds π I (relateInverses ts ontology) fun _ => True := by
  unfold relateInverses
  split
  next first second =>
    have property : ∀ t ∈ [first, second],
        Upholds π I (Reference.resolveObjectProperty t ontology)
          ((Place.named .objectProperty).Admits π.Describes π.properties) :=
      fun t ht => Compile.read_upholds ho (hts t ht) .objectProperty
    refine .bind (property _ List.mem_cons_self) fun p hp => ?_
    refine .bind (property _ (List.mem_cons_of_mem _ List.mem_cons_self)) fun q hq => ?_
    have hboth : ∀ t ∈ [p, q], t.isStable = true :=
      List.forall_mem_cons.mpr ⟨hp.isStable, List.forall_mem_singleton.mpr hq.isStable⟩
    exact .bind (Change.add_upholds ho (.of_group (.one rfl (Axiom.admits_couple hp hq)) hboth)) fun _ _ => .pure trivial
  · exact .throw

theorem asInverse_upholds (ho : π.Targets ontology) : Upholds π I (asInverse ontology) (·.Upholds π I) := by
  refine .bind (.orGiven ho) fun o ho => .bind Window.openNew_upholds fun n _ => ?_
  refine .bind .context fun c hc => .pure ⟨⟨hc.defaults, hc.target⟩, trivial, onSuccess_upholds ?_⟩
  exact .bind (collected_upholds n) fun ts hts => relateInverses_upholds ho hts

section
variable (hπ : π.Closed) (ho : π.Targets ontology)
include hπ ho

theorem coverBy_upholds {c : Term} (hc : π.Describes c) {ts : List Term} (hts : ∀ t ∈ ts, t.Meets π) :
    Upholds π I (coverBy c ts ontology) fun _ => True := by
  unfold coverBy
  split
  · exact .pure trivial
  · refine .bind (Expression.or_upholds hπ hts) fun union hunion => ?_
    refine .bind (.requireStable c) fun _ hs => .bind (.requireStable union) fun _ hs' => ?_
    refine .bind (Change.add_upholds ho (.of_group (.one rfl (Axiom.admits_group ?_ ?_)) ?_)) fun _ _ => .pure trivial
    · exact List.forall_mem_cons.mpr ⟨hc, List.forall_mem_singleton.mpr hunion⟩
    · exact Axiom.one_le_eraseDups (List.cons_ne_nil _ _)
    · exact List.forall_mem_cons.mpr ⟨hs, List.forall_mem_singleton.mpr hs'⟩

theorem asSubclasses_upholds {super : Term} (hs : super.Meets π) (disjoint cover : Term) :
    Upholds π I (asSubclasses super disjoint cover ontology) (·.Upholds π I) := by
  refine .bind (.orGiven ho) fun o ho => .bind (Reference.resolveClass_upholds ho hs _) fun c hc => ?_
  have hframes : (FrameMap.normalize [(Term.ofTag .subclass, c)]).All (·.Meets π) :=
    .normalize (FrameMap.leaves_meet (List.forall_mem_singleton.mpr hc.meets))
  refine .bind Window.openNew_upholds fun n _ => .bind .context fun _ hc' => ?_
  refine .pure ⟨⟨hframes, hc'.target⟩, trivial, onSuccess_upholds ?_⟩
  have cover : Upholds π I (do if ← isTruthy cover then coverBy c (← collected n) o) fun _ => True := by
    refine .bind (.of_reads fun _ _ => rfl) fun _ _ => .ite (fun _ => ?_) fun _ => .pure trivial
    exact .bind (collected_upholds n) fun ts hts => coverBy_upholds hπ ho hc hts
  refine .bind (.of_reads fun _ _ => rfl) fun _ _ => .ite (fun _ => ?_) fun _ => cover
  refine .bind (collected_upholds n) fun ts hts => ?_
  exact .bind (Builder.disjointClasses_upholds ho hts) fun _ _ => cover

end

end Scope

/-! ## Programs -/

namespace Service

/-- The arguments of an operation that makes a value meet a policy. If it counts, the policy lets through what it makes
of a number that is not negative. -/
def Value.Meets (π : Policy) : Value → Prop
  | some p ts | only p ts | someOnly p ts => p.Meets π ∧ ∀ t ∈ ts, t.Meets π
  | and ts | or ts | not ts | oneOf ts => ∀ t ∈ ts, t.Meets π
  | count o c p ts =>
    o.takesSet = false ∧ (c.IsCardinality → π.Counts o c) ∧ p.Meets π ∧ ∀ t ∈ ts, t.Meets π
  | note p _ _ => p.Meets π
  | fact _ p t => p.Meets π ∧ t.Meets π

/-- The arguments of a call meet a policy. -/
def Call.Meets (π : Policy) : Call → Prop
  | build c => c.Meets π
  | declare ts o | define ts o | disjoint ts o => π.Targets o ∧ ∀ t ∈ ts, t.Meets π
  | frame _ _ t ts o | union t ts o => π.Targets o ∧ t.Meets π ∧ ∀ u ∈ ts, u.Meets π
  | value v => v.Meets π

/-- The arguments of a scope meet a policy, so far as they get into frames, are worked on or are handed on to the
body. -/
def Block.Meets (π : Policy) : Block → Prop
  | .ontology t => π.Targets t ∧ t.Meets π
  | .space t | .defaults t => t.Meets π
  | .disjoint o | .inverse o => π.Targets o
  | .subclasses t _ _ o => π.Targets o ∧ t.Meets π
  | .collection | .lead _ | .trail _ => True

/-- The arguments of every call and scope meet a policy, if what has been answered before does. -/
def Program.Meets (π : Policy) : Program → Prop
  | done t => t.Meets π
  | call c next => c.Meets π ∧ ∀ t, t.Meets π → (next t).Meets π
  | within b body next => b.Meets π ∧ (∀ t, t.Meets π → (body t).Meets π) ∧ ∀ t, t.Meets π → (next t).Meets π

section
variable (hπ : π.Closed)
include hπ

/-- **The operations that make values make ones that meet the policy.** -/
theorem Value.run_upholds {v : Value} (h : v.Meets π) : Upholds π I v.run (·.Meets π) := by
  have ofClass : ∀ {x : Act Term}, Upholds π I x π.Describes → Upholds π I x (·.Meets π) :=
    fun hx => hx.mono fun _ hc => hc.meets
  cases v with
  | some p ts => exact Expression.some_upholds hπ h.1 h.2
  | only p ts => exact Expression.only_upholds hπ h.1 h.2
  | someOnly p ts => exact Expression.someOnly_upholds hπ h.1 h.2
  | and ts => exact ofClass (Expression.and_upholds hπ h)
  | or ts => exact ofClass (Expression.or_upholds hπ h)
  | not ts => exact ofClass (Expression.not_upholds hπ h)
  | count o c p ts => exact ofClass (Expression.count_upholds h.1 h.2.1 h.2.2.1 h.2.2.2)
  | oneOf ts => exact ofClass (Expression.oneOf_upholds hπ h)
  | note p t language => exact Expression.note_upholds hπ h t language
  | fact negated p t => exact .pure h

/-- **What one call upholds.** -/
theorem Call.run_upholds {c : Call} (h : c.Meets π) : Upholds π I c.run (·.Meets π) := by
  cases c with
  | build c => exact Builder.Call.run_upholds hπ h
  | declare ts o =>
    exact .bind (Builder.declareClasses_upholds hπ h.1 h.2) fun _ hus => .pure (Term.allMeet_iff.mpr hus)
  | define ts o =>
    exact .bind (Builder.defineClasses_upholds hπ h.1 h.2) fun _ hus => .pure (Term.allMeet_iff.mpr hus)
  | frame kind tag t ts o =>
    exact .bind (Builder.addFrame_upholds hπ h.1 kind tag h.2.1 h.2.2) fun _ hus => .pure (Term.allMeet_iff.mpr hus)
  | disjoint ts o => exact Builder.disjointClasses_upholds h.1 h.2
  | union t ts o => exact Builder.addDisjointUnion_upholds h.1 h.2.1 h.2.2
  | value v => exact v.run_upholds hπ h

/-- **What opening a scope upholds**, and leaving it. -/
theorem Block.enter_upholds {b : Block} (h : b.Meets π) : Upholds π I b.enter (·.Upholds π I) := by
  cases b with
  | ontology t => exact .bind .context fun _ hc => .pure ⟨⟨hc.defaults, h.1⟩, h.2, Scope.pure_leave_upholds _ _⟩
  | space t =>
    exact .bind .context fun _ hc => .pure ⟨⟨hc.defaults, hc.target⟩, h, Scope.pure_leave_upholds _ _⟩
  | collection =>
    refine .bind Window.openNew_upholds fun _ _ => .bind .context fun _ hc => ?_
    exact .pure ⟨⟨hc.defaults, hc.target⟩, trivial, Scope.pure_leave_upholds _ _⟩
  | lead t =>
    refine .bind .context fun _ hc => .bind (.of_reads (Scope.affix_reads t)) fun _ _ => ?_
    exact .pure ⟨⟨hc.defaults, hc.target⟩, trivial, Scope.pure_leave_upholds _ _⟩
  | trail t =>
    refine .bind .context fun _ hc => .bind (.of_reads (Scope.affix_reads t)) fun _ _ => ?_
    exact .pure ⟨⟨hc.defaults, hc.target⟩, trivial, Scope.pure_leave_upholds _ _⟩
  | defaults frames => exact Scope.withDefaultFrames_upholds h
  | disjoint o => exact Scope.asDisjoint_upholds h
  | inverse o => exact Scope.asInverse_upholds h
  | subclasses t d c o => exact Scope.asSubclasses_upholds hπ h.1 h.2 d c

/-- **What a program upholds**, however it ends. -/
theorem Program.run_upholds {p : Program} (h : p.Meets π) : Upholds π I p.run (·.Meets π) := by
  induction p with
  | done t => exact .pure h
  | call c next ih => exact .bind (c.run_upholds hπ h.1) fun t ht => ih t (h.2 t ht)
  | within b body next ihbody ihnext =>
    refine .bind (Scope.run_upholds (b.enter_upholds hπ h.1) fun t ht => ihbody t (h.2.1 t ht)) fun t ht => ?_
    exact ihnext t (h.2.2 t ht)

end

end Service

/-! ## Plans -/

namespace Plan

/-- **A plan of the authoring layer**: its steps are calls, its scopes are those of the layer, and the arguments of all
meet a policy if what has been answered before does. -/
def Meets (π : Policy) : Plan → Prop
  | .done t => t.Meets π
  | .step x next => (∃ c : Service.Call, x = c.run ∧ c.Meets π) ∧ ∀ t, t.Meets π → (next t).Meets π
  | .caught part next => part.Meets π ∧ ∀ r, (∀ t, r = .ok t → t.Meets π) → (next r).Meets π
  | .scope b body next => b.Meets π ∧ (∀ t, t.Meets π → (body t).Meets π) ∧ ∀ t, t.Meets π → (next t).Meets π
  | .probes .. => False

/-- **What a plan upholds**, however it ends: so does each part of it that is caught. -/
theorem run_upholds (hπ : π.Closed) : ∀ {p : Plan}, p.Meets π → Upholds π I p.run (·.Meets π)
  | .done _, h => .pure h
  | .step _ _, ⟨⟨c, hc, hmeets⟩, hnext⟩ =>
    .bind (hc ▸ c.run_upholds hπ hmeets) fun t ht => run_upholds hπ (hnext t ht)
  | .caught _ _, ⟨hpart, hnext⟩ => .bind (.attempt (run_upholds hπ hpart)) fun r hr => run_upholds hπ (hnext r hr)
  | .scope b _ _, ⟨hb, hbody, hnext⟩ =>
    .bind (Scope.run_upholds (b.enter_upholds hπ hb) fun t ht => run_upholds hπ (hbody t ht)) fun t ht =>
      run_upholds hπ (hnext t ht)

end Plan

end Authoring
