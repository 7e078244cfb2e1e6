import Authoring.Proofs.Aspect

/-!
# The aspects of the authoring layer

Every operation of the authoring layer has every aspect (`Service.Call.run_does`): compiling frames, the builders, the
helpers that add frames, the group axioms and the operations that make values. Each is followed through its text. An
operation that is given an ontology does not ask for the current one, so it has also the aspects that say nothing of
finding that one.

What has to be known of the values on the way is taken from what the operations uphold. The one thing that is known
beside is that what is compiled begins with the declaration, and holds no other (`Compile.compile_ok`).
-/

namespace Authoring

open Act

/-! ## What only looks -/

namespace Act.Looks

theorem languageOf (t : Term) : Looks (Factory.languageOf t) := by
  unfold Factory.languageOf
  split
  · exact pure _
  · exact pure _
  · split
    · exact throw _
    · refine ite (bind (display t) fun _ => bind (inspect t) fun _ => pure _) ?_
      exact bind (display t) fun _ => throw _

theorem literal (value language : Term) : Looks (Factory.literal value language) := by
  unfold Factory.literal
  refine bind (languageOf language) fun tag => ?_
  split
  case h_4 => exact bind (display _) fun _ => pure _
  all_goals exact pure _

theorem note (property value language : Term) : Looks (Factory.note property value language) := by
  unfold Factory.note
  split
  · exact pure _
  · exact bind (literal _ _) fun _ => pure _

theorem expression (o : Operator) (operands : List Term) (cardinality : Term) :
    Looks (Factory.expression o operands cardinality) := by
  refine bind (requireFindable _) fun _ => ite ?_ (pure _)
  exact bind (bind (forM requireStable) fun _ => pure _) fun _ => pure _

theorem annotationAlong (property value : Term) : Looks (Compile.annotationAlong property value) := by
  unfold Compile.annotationAlong
  split
  · exact ite (pure _) (bind (iriOf _) fun _ => refuse _ _)
  · refine ite ?_ (refuse _ _)
    exact reading (k := fun s => Factory.note property value (.text s.language)) World.settings (fun _ _ => rfl)
      fun s => note _ _ _

theorem unlessSelf (owner other : Term) (make : List Term → Axiom) : Looks (Compile.unlessSelf owner other make) :=
  ite (pure _) (bind (requireStable _) fun _ => bind (requireStable _) fun _ => pure _)

/-- Frames are checked before anything is read. -/
theorem checked (owner : Term) (explicit defaults : List (Term × Term)) (schema : Term) :
    Looks (Compile.checked owner explicit defaults schema) := by
  have hrefuse : ∀ key, Looks (Compile.refuseTag owner key) :=
    fun key => bind (kindOf owner) fun _ => bind (display key) fun _ => throw _
  have hgiven : Looks (Compile.Schema.given owner schema) := by
    unfold Compile.Schema.given
    split
    · exact bind (entityKindOf owner) fun _ => pure _
    · exact pure _
  refine bind (bind hgiven fun s => forM fun f => ?_) fun _ => pure _
  unfold Compile.checkTag
  split
  · refine bind ?_ fun _ => ite (pure _) (hrefuse _)
    cases s with
    | ofKind => exact pure _
    | within container => exact contains container _
  · exact hrefuse _

theorem gather (frames : Term) (more : List (String × Term)) : Looks (Builder.gather frames more) :=
  bind (entriesOf frames) fun _ => bind (framesOf _) fun _ => bind (framesOf _) fun _ => pure _

/-- What stands around names is looked at, for it has nothing to do with the ontology. -/
theorem className (name : Term) (frames : FrameMap) : Looks (Builder.className name frames) := by
  have affixes : Looks (do return (← context).affixes) := fun _ _ _ _ _ => rfl
  have named : ∀ t : Term, Looks (do
      let affixes := (← context).affixes
      return Term.text (affixes.1 ++ (← Act.display t) ++ affixes.2)) := by
    intro t
    have h := bind affixes fun a => bind (display t) fun s => pure (Term.text (a.1 ++ s ++ a.2))
    rwa [bind_assoc] at h
  unfold Builder.className
  dsimp only
  split
  case h_4 => exact pure _
  all_goals exact named _

theorem defaults : Looks Window.defaults := fun _ _ _ _ _ => rfl

theorem combine (o : Operator) (members : List Term) : Looks (Expression.combine o members) := by
  unfold Expression.combine
  split
  · exact throw _
  · exact bind (forM requireStable) fun _ => ite (pure _) (expression _ _ _)

theorem isNegative (t : Term) : Looks (Expression.isNegative t) := by
  unfold Expression.isNegative
  split
  case h_4 => exact throw _
  all_goals exact pure _

theorem languageFor (value language : Term) : Looks (Expression.languageFor value language) := by
  unfold Expression.languageFor
  split
  · exact pure _
  · exact see (fun w => Term.text w.settings.language) fun _ _ => rfl
  · exact pure _

end Act.Looks

variable {π : Policy} {I : World → Prop} [Invariant π I] {Φ : Aspect π I}

/-! ## Frames -/

namespace Compile

variable {value ontology : Term} {maker : Nat}

section
variable (ho : Φ.Admits ontology) (hv : value.Meets π)
include ho hv

theorem relation_does (owner : Term) : Does Φ (relation owner value ontology maker) fun _ => True := by
  unfold relation
  split
  · exact .bind (Reference.resolve_does ho hv.1 _ _) fun _ _ =>
      .bind (Reference.resolve_does ho hv.2 _ _) fun _ _ => .pure trivial
  · exact .refuse

/-- What a rule makes of a value. The owner may be anything. -/
theorem axiomFor_does (owner : Term) (tag : FrameTag) :
    Does Φ (axiomFor owner ontology maker tag value) fun _ => True := by
  have reading : ∀ (kind : EntityKind) {f : Term → Act (Option Axiom)}, (∀ t, Looks (f t)) →
      Does Φ (Reference.resolve value kind ontology maker >>= f) fun _ => True :=
    fun kind _ hf => .bind (Reference.resolve_does ho hv kind _) fun _ _ => .of_looks (hf _)
  have annotated : ∀ property : Term, Does Φ (do
      let subject ← iriOf owner
      let a ← annotationAlong property value
      return some (.annotationAssertion (.iri subject) a.toTerm) : Act (Option Axiom)) fun _ => True :=
    fun property => .of_looks (.bind (.iriOf owner) fun _ => .bind (.annotationAlong _ _) fun _ => .pure _)
  unfold axiomFor
  cases tag
  case name => exact .pure trivial
  case subclass | domain | range | type => exact reading .cls fun _ => .pure _
  case equivalent | disjoint => exact reading .cls fun _ => .unlessSelf _ _ _
  case inverse => exact reading .objectProperty fun _ => .bind (.requireStable _) fun _ => .pure _
  case superproperty =>
    refine .bind (.of_looks (.kindOf owner)) fun k _ => .ite (fun _ => ?_) fun _ => ?_
    · exact reading .annotationProperty fun _ => .pure _
    · exact reading .objectProperty fun _ => .pure _
  case characteristic =>
    cases Characteristic.ofTerm? value with
    | none => exact .of_looks (.bind (.inspect _) fun _ => .throw _)
    | some c => exact .pure trivial
  case fact => exact .bind (relation_does ho hv owner) fun _ _ => .pure trivial
  case same | different => exact reading .individual fun _ => .unlessSelf _ _ _
  case note =>
    dsimp only
    split
    · exact .of_looks (.bind (.iriOf owner) fun _ => .pure _)
    · exact .refuse
  case comment | label => exact annotated _

end

/-- **Compiling frames**, with whatever schema. -/
theorem compile_does (ho : Φ.Admits ontology) (owner schema : Term) {explicit defaults : List (Term × Term)}
    (he : ∀ e ∈ explicit, e.2.Meets π) (hd : ∀ e ∈ defaults, e.2.Meets π) :
    Does Φ (compile owner explicit defaults schema ontology maker) fun _ => True := by
  have hmeets : (FrameMap.merge defaults explicit).All (·.Meets π) :=
    .merge (FrameMap.leaves_meet hd) (FrameMap.leaves_meet he)
  have hchecked : Does Φ (checked owner explicit defaults schema) fun frames => frames.All (·.Meets π) := by
    refine (Does.of_looks (.checked _ _ _ _)).knowing (R := fun frames => frames.All (·.Meets π)) ?_ |>.mono fun _ h => h.2
    intro env w frames w' h
    obtain ⟨_, _, -, hdone⟩ := bind_ok h
    obtain ⟨rfl, -⟩ := pure_ok_iff.mp hdone
    exact hmeets
  refine .bind hchecked fun frames hframes => ?_
  refine .bind (P := fun _ => True) ?_ fun _ _ => .pure trivial
  refine Does.mono (.mapM (Q := fun _ => True) fun tag _ => ?_) fun _ _ => trivial
  refine .bind (P := fun _ => True) ?_ fun _ _ => .pure trivial
  refine Does.mono (.mapM (Q := fun _ => True) fun t ht => ?_) fun _ _ => trivial
  exact axiomFor_does ho (hframes.valuesOf _ t ht) owner tag

end Compile

/-! ## Changes -/

/-- Axioms are added one by one, none of them a declaration. -/
theorem Change.addEach_shows {ontology : Term} (ho : Φ.Admits ontology) {as : List Axiom}
    (has : ∀ a ∈ as, a.Meets π ∧ a.kind ≠ .declaration) : Shows Φ (Change.addEach (as.map Axiom.toTerm) ontology) := by
  refine .bind (Current.orGiven_does ho) fun o ho => (Does.mapM (Q := fun _ => True) fun t ht => ?_).shows
  obtain ⟨a, ha, rfl⟩ := List.mem_map.mp ht
  obtain ⟨hmeets, hkind⟩ := has a ha
  exact ⟨(Change.add_upholds ho.1 hmeets).mono fun _ _ => trivial, fun env _ _ w _ => Φ.add hkind ho.2 env w⟩

omit [Invariant π I] in
/-- One axiom, which is no declaration. -/
theorem Change.add_shows {o : Term} (ho : o ≠ .null) {a : Axiom} (ha : a.kind ≠ .declaration) :
    Shows Φ (Change.add a.toTerm o) := fun env _ _ w _ => Φ.add ha ho env w

/-! ## Builders -/

namespace Builder

/-- What is given to a call as an ontology. -/
def Call.ontology : Call → Term
  | .make _ _ _ o _ => o
  | .refine _ _ o _ => o

variable {name frames ontology : Term} {more : List (String × Term)} {ts : List Term}

section
variable (ho : Φ.Admits ontology)
include ho

theorem prepare_does (kind : EntityKind) (hn : name.Meets π) {all : FrameMap} (hf : all.All (·.Meets π)) :
    Does Φ (prepare kind name all ontology) fun _ => True := by
  refine .bind (Current.orGiven_does ho) fun o ho => ?_
  have ho := Aspect.Admits.of_found (Φ := Φ) ho
  have defaults : Does Φ Window.defaults (FrameMap.All (·.Meets π)) :=
    ⟨.bind .context fun _ hc => .pure hc.defaults, .of_looks .defaults⟩
  refine .bind (Reference.resolve_does ho hn kind) fun e _ => .bind defaults fun d hd => ?_
  exact .bind (Compile.compile_does ho e .null hf.entries_meet hd.entries_meet) fun _ _ => .pure trivial

theorem prepareOfKind_does (kind : EntityKind) (hn : name.Meets π) (hf : frames.Meets π)
    (hm : ∀ e ∈ more, e.2.Meets π) : Does Φ (prepareOfKind kind name frames ontology more) fun _ => True := by
  refine .bind ⟨gather_upholds hf hm, .of_looks (.gather _ _)⟩ fun all hall => .ite (fun _ => ?_) fun _ => ?_
  · exact .bind ⟨className_upholds hn hall, .of_looks (.className _ _)⟩ fun n hn => prepare_does ho kind hn hall
  · exact .bind (.pure hn) fun n hn => prepare_does ho kind hn hall

end

theorem Call.prepare_does {c : Call} (h : c.Meets π) (ho : Φ.Admits c.ontology) :
    Does Φ c.prepare fun _ => True := by
  cases c with
  | make kind name frames ontology more => exact prepareOfKind_does ho kind h.2.1 h.2.2.1 h.2.2.2
  | refine t frames ontology more =>
    cases t
    case entity m e => exact prepareOfKind_does ho e.kind h.2.1 h.2.2.1 h.2.2.2
    all_goals exact .bind (.of_looks (.inspect _)) fun _ _ => .throw

section
variable (hπ : π.Closed)
include hπ

/-- **A call of a builder.** -/
theorem Call.run_does {c : Call} (h : c.Meets π) (ho : Φ.Admits c.ontology) : Does Φ c.run (·.Meets π) :=
  ⟨Call.run_upholds hπ h, fun env henv hs w hw => Φ.call ((Call.prepare_does h ho).shows env henv hs w hw)⟩

section
variable (ho : Φ.Admits ontology)
include ho

theorem owlClass_does (hn : name.Meets π) (hf : frames.Meets π) :
    Does Φ (owlClass name frames ontology []) (·.Meets π) :=
  Call.run_does hπ (c := .make .cls name frames ontology []) ⟨ho.target, hn, hf, List.forall_mem_nil _⟩ ho

theorem declareClasses_does (hts : ∀ t ∈ ts, t.Meets π) :
    Does Φ (declareClasses ts ontology) fun us => ∀ u ∈ us, u.Meets π :=
  .bind ⟨.leaves hts, .of_looks (.leaves ts)⟩ fun _ hus => .mapM fun u hu => owlClass_does hπ ho (hus u hu) trivial

theorem defineClasses_does (hts : ∀ t ∈ ts, t.Meets π) :
    Does Φ (defineClasses ts ontology) fun us => ∀ u ∈ us, u.Meets π := by
  refine .mapM fun t ht => ?_
  have ht := hts t ht
  split
  · refine .bind ⟨pairOf_upholds (Term.allMeet_iff.mp ht), .of_looks (.pairOf _)⟩ fun p hp => ?_
    exact owlClass_does hπ ho hp.1 hp.2
  · exact owlClass_does hπ ho ht trivial

/-- A helper adds what is compiled but for the declaration. -/
theorem addFrame_does (kind : EntityKind) (tag : FrameTag) (hn : name.Meets π) (hts : ∀ t ∈ ts, t.Meets π) :
    Does Φ (addFrame kind tag name ts ontology) fun us => ∀ u ∈ us, u.Meets π := by
  refine ⟨addFrame_upholds hπ ho.target kind tag hn hts, .bind (Current.orGiven_does ho) fun o ho => ?_⟩
  have ho := Aspect.Admits.of_found (Φ := Φ) ho
  have hvalues : (Term.tuple ts).Meets π := Term.allMeet_iff.mpr hts
  refine .bind (Reference.resolve_does ho hn kind) fun e he => ?_
  refine .bind ⟨framesOf_upholds (List.forall_mem_singleton.mpr hvalues), .of_looks (.framesOf _)⟩ fun fs hfs => ?_
  have hcompile : Does Φ (Compile.compile e fs [] .null o) fun as => e.isEntity = true ∧ ∀ a ∈ as, a.Meets π :=
    ⟨Compile.compile_upholds hπ ho.target he.1 hfs (List.forall_mem_nil _),
      (Compile.compile_does ho e .null hfs (List.forall_mem_nil _)).shows⟩
  refine .bind (hcompile.knowing (R := fun as => ∀ a ∈ as.drop 1, a.kind ≠ .declaration) ?_) fun as has => ?_
  · intro env w as w' hrun
    cases he.1 with
    | entity m iri =>
      obtain ⟨rest, rfl, hrest⟩ := Compile.compile_ok hrun
      exact hrest
    | expression =>
      obtain ⟨f, hf⟩ := Compile.compile_expression _ _ _ _ _ _ _ env w
      rw [hf] at hrun
      cases hrun
  · exact Change.addEach_shows ho fun a ha => ⟨has.1.2 a (List.mem_of_mem_drop ha), has.2 a ha⟩

omit hπ

theorem disjointClasses_does (hts : ∀ t ∈ ts, t.Meets π) : Does Φ (disjointClasses ts ontology) (·.Meets π) := by
  refine ⟨disjointClasses_upholds ho.target hts, .bind (Current.orGiven_does ho) fun o ho => ?_⟩
  refine .bind ⟨.leaves hts, .of_looks (.leaves ts)⟩ fun us hus => ?_
  refine .bind (.mapM (Q := fun _ => True) fun u hu => ?_) fun cs _ => ?_
  · refine .bind (Reference.resolve_does (Aspect.Admits.of_found ho) (hus u hu) _) fun c _ => ?_
    exact .of_looks (.bind (.requireStable c) fun _ => .pure _)
  · exact .ite (fun _ => .of_looks (.pure _)) fun _ => Change.add_shows ho.2 nofun

theorem addDisjointUnion_does (hn : name.Meets π) (hts : ∀ t ∈ ts, t.Meets π) :
    Does Φ (addDisjointUnion name ts ontology) (·.Meets π) := by
  refine ⟨addDisjointUnion_upholds ho.target hn hts, .bind (Current.orGiven_does ho) fun o ho => ?_⟩
  have read : ∀ {t : Term}, t.Meets π → Does Φ (Reference.resolveClass t o) fun _ => True :=
    fun ht => (Reference.resolve_does (Aspect.Admits.of_found ho) ht _).mono fun _ _ => trivial
  refine .bind (read hn) fun c _ => .bind ⟨.leaves hts, .of_looks (.leaves ts)⟩ fun us hus => ?_
  refine .bind (.mapM (Q := fun _ => True) fun u hu => read (hus u hu)) fun cs _ => ?_
  exact .bind (.of_looks (.forM .requireStable)) fun _ _ => Change.add_shows ho.2 nofun

end

end

end Builder

/-! ## Frame values -/

namespace Expression

open Reference

variable {property : Term} {ts : List Term}

section
variable (hA : Φ.ambient)
include hA

/-- Values are made of references in the current ontology. -/
theorem read_does {t : Term} (ht : t.Meets π) (kind : EntityKind) :
    Does Φ (resolve t kind .null) fun u => Denotes kind u ∧ u.Meets π :=
  resolve_does ⟨Policy.targets_null, .inr hA⟩ ht kind

theorem readClasses_does (hts : ∀ t ∈ ts, t.Meets π) :
    Does Φ (ts.mapM fun t => resolveClass t .null) fun cs => ∀ c ∈ cs, π.Describes c :=
  .mapM fun t ht => (read_does hA (hts t ht) .cls).mono fun _ hc => hc.1.describes hc.2

theorem restrictEach_shows (o : Operator) (hp : property.Meets π) (hts : ∀ t ∈ ts, t.Meets π) :
    Shows Φ (restrictEach o property ts) := by
  refine .bind (read_does hA hp _) fun p _ => .bind ⟨.leaves hts, .of_looks (.leaves ts)⟩ fun us hus => ?_
  refine (Does.mapM (Q := fun _ => True) fun u hu => ?_).shows
  exact .bind (read_does hA (hus u hu) _) fun c _ => .of_looks (.expression _ _ _)

theorem singleFiller_shows (hts : ∀ t ∈ ts, t.Meets π) : Shows Φ (singleFiller ts) := by
  refine .bind ⟨.leaves hts, .of_looks (.leaves ts)⟩ fun us hus => ?_
  split
  · exact (read_does hA (hus _ List.mem_cons_self) _).shows
  · exact .of_looks (.throw _)

theorem or_does (hπ : π.Closed) (hts : ∀ t ∈ ts, t.Meets π) : Does Φ (or ts) π.Describes := by
  refine ⟨or_upholds hπ hts, .bind ⟨.leaves hts, .of_looks (.leaves ts)⟩ fun us hus => ?_⟩
  exact .bind (readClasses_does hA hus) fun _ _ => .of_looks (.combine _ _)

theorem and_shows (hts : ∀ t ∈ ts, t.Meets π) : Shows Φ (and ts) :=
  .bind ⟨.leaves hts, .of_looks (.leaves ts)⟩ fun _ hus => .bind (readClasses_does hA hus) fun _ _ =>
    .of_looks (.combine _ _)

theorem oneOf_shows (hts : ∀ t ∈ ts, t.Meets π) : Shows Φ (oneOf ts) := by
  refine .bind ⟨.leaves hts, .of_looks (.leaves ts)⟩ fun us hus => ?_
  refine .bind (.mapM fun u hu => read_does hA (hus u hu) .individual) fun is _ => ?_
  split
  · exact .of_looks (.throw _)
  · exact .of_looks (.expression _ _ _)

theorem note_shows (hp : property.Meets π) (value language : Term) : Shows Φ (note property value language) :=
  .bind (.of_looks (.languageFor _ _)) fun _ _ => .bind (read_does hA hp _) fun _ _ =>
    .of_looks (.bind (.note _ _ _) fun _ => .pure _)

theorem count_shows (o : Operator) (cardinality : Term) (hp : property.Meets π) (hts : ∀ t ∈ ts, t.Meets π) :
    Shows Φ (count o cardinality property ts) := by
  refine .bind (.of_looks (.isNegative cardinality)) fun _ _ => .ite (fun _ => ?_) fun _ => ?_
  · exact .bind (.of_looks (.display _)) fun _ _ => .bind (P := fun _ => False) .throw nofun
  · refine .bind (read_does hA hp _) fun p _ => ?_
    exact .bind ⟨singleFiller_upholds hts, singleFiller_shows hA hts⟩ fun c _ => .of_looks (.expression _ _ _)

section
variable (hπ : π.Closed)
include hπ

theorem some_does (hp : property.Meets π) (hts : ∀ t ∈ ts, t.Meets π) : Does Φ (some property ts) (·.Meets π) :=
  ⟨some_upholds hπ hp hts, .bind ⟨restrictEach_upholds hπ (.inl rfl) hp hts, restrictEach_shows hA _ hp hts⟩ fun _ _ =>
    .of_looks (.pure _)⟩

theorem only_does (hp : property.Meets π) (hts : ∀ t ∈ ts, t.Meets π) : Does Φ (only property ts) (·.Meets π) :=
  ⟨only_upholds hπ hp hts, .bind ⟨restrictEach_upholds hπ (.inr rfl) hp hts, restrictEach_shows hA _ hp hts⟩ fun _ _ =>
    .of_looks (.pure _)⟩

theorem someOnly_shows (hp : property.Meets π) (hts : ∀ t ∈ ts, t.Meets π) : Shows Φ (someOnly property ts) := by
  refine .bind (some_does hA hπ hp hts) fun _ _ => .bind (or_does hA hπ hts) fun union hunion => ?_
  exact .bind (only_does hA hπ hp (List.forall_mem_singleton.mpr hunion.meets)) fun _ _ => .of_looks (.pure _)

end

end

end Expression

/-! ## Calls -/

namespace Service

/-- What is given to a call as an ontology. The values of frames are made in the current ontology. -/
def Call.ontology : Call → Term
  | build c => c.ontology
  | declare _ o | define _ o | frame _ _ _ _ o | disjoint _ o | union _ _ o => o
  | value _ => .null

section
variable (hπ : π.Closed)
include hπ

theorem Value.run_does {v : Value} (h : v.Meets π) (hA : Φ.ambient) : Does Φ v.run (·.Meets π) := by
  refine ⟨v.run_upholds hπ h, ?_⟩
  cases v with
  | some p ts => exact (Expression.some_does hA hπ h.1 h.2).shows
  | only p ts => exact (Expression.only_does hA hπ h.1 h.2).shows
  | someOnly p ts => exact Expression.someOnly_shows hA hπ h.1 h.2
  | and ts => exact Expression.and_shows hA h
  | or ts => exact (Expression.or_does hA hπ h).shows
  | not ts =>
    exact .bind ⟨Expression.singleFiller_upholds h, Expression.singleFiller_shows hA h⟩ fun _ _ =>
      .of_looks (.expression _ _ _)
  | count o c p ts => exact Expression.count_shows hA o c h.2.2.1 h.2.2.2
  | oneOf ts => exact Expression.oneOf_shows hA h
  | note p t language => exact Expression.note_shows hA h t language
  | fact negated p t => exact .of_looks (.pure _)

/-- **Every call of the authoring layer has every aspect**, if its ontology is found. -/
theorem Call.run_does {c : Call} (h : c.Meets π) (hfound : c.ontology ≠ .null ∨ Φ.ambient) :
    Does Φ c.run (·.Meets π) := by
  refine ⟨c.run_upholds hπ h, ?_⟩
  cases c with
  | build c =>
    have ho : π.Targets c.ontology := by cases c <;> exact h.1
    exact (c.run_does hπ h ⟨ho, hfound⟩).shows
  | declare ts o => exact .bind (Builder.declareClasses_does hπ ⟨h.1, hfound⟩ h.2) fun _ _ => .of_looks (.pure _)
  | define ts o => exact .bind (Builder.defineClasses_does hπ ⟨h.1, hfound⟩ h.2) fun _ _ => .of_looks (.pure _)
  | frame kind tag t ts o =>
    exact .bind (Builder.addFrame_does hπ ⟨h.1, hfound⟩ kind tag h.2.1 h.2.2) fun _ _ => .of_looks (.pure _)
  | disjoint ts o => exact (Builder.disjointClasses_does ⟨h.1, hfound⟩ h.2).shows
  | union t ts o => exact (Builder.addDisjointUnion_does ⟨h.1, hfound⟩ h.2.1 h.2.2).shows
  | value v => exact (v.run_does hπ h (hfound.resolve_left fun hne => hne rfl)).shows

end

end Service

end Authoring
