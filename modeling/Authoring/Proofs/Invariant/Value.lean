import Authoring.Expression
import Authoring.Proofs.Compile
import Authoring.Proofs.Creation
import Authoring.Proofs.Invariant

/-!
# References and values

Reading a reference upholds every invariant, whatever is called on the way, and what it denotes is an entity of the
expected kind or, where a class is expected, a class or a class expression that is let through
(`Reference.resolveClass_upholds`, `Reference.resolve_upholds`). So the operations that make the values of frames uphold
every invariant and make values that meet the policy: each operation on class expressions makes a class or a class
expression that is let through (`Expression.restrictEach_upholds`, `Expression.combine_upholds` and what is built on
them), and an annotation is along an annotation property (`Expression.note_upholds`).

What class expressions are let through is thus not an assumption about the author: a closed policy lets through what
comes out. Only of a restriction with a cardinality is it asked whether the policy lets it through.
-/

namespace Authoring

open Act

variable {π : Policy} {I : World → Prop} [Invariant π I]

/-- A number that is not negative. -/
def Term.IsCardinality : Term → Prop
  | .bool _ => True
  | .int n => 0 ≤ n
  | .float x => x.isBelowZero = false
  | _ => False

/-! ## References -/

namespace Act.Upholds

omit [Invariant π I] in
theorem applyNaming (rule : NamingRule) (name : Term) : Upholds π I (Act.applyNaming rule name) (·.Meets π) := by
  unfold Act.applyNaming
  cases rule.fails
  · cases name.content?
    · exact throw
    · refine pure ?_
      cases rule.asIri <;> exact trivial
  · exact bind (P := fun _ => False) throw fun _ h => h.elim

/-- A remove hook that a script has written only writes to the log. -/
theorem runHook (name : String) (fails : Bool) (removed : Term) :
    Upholds π I (Act.runHook name fails removed) (·.Meets π) := by
  refine bind (of_reads (.asOntology removed)) fun o _ => bind get fun w _ => ?_
  refine bind (modify fun w hw => ?_) fun _ _ => ite (fun _ => throw) fun _ => pure trivial
  exact Invariant.consulted (π := π) hw ⟨⟨rfl, rfl, rfl, rfl, rfl, fun _ => .inr⟩, fun _ => .inl⟩

/-- Whatever is called, with whatever arguments, so long as it may be called. -/
theorem invoke {callee : Term} (hc : ∀ b ∈ callee.bodies, π.producers b) (args : List Term) :
    Upholds π I (Act.invoke callee args) (·.Meets π) := by
  unfold Act.invoke
  split
  · exact fun env henv w hw => henv.evaluated _ (hc _ (List.mem_singleton.mpr rfl)) _ _ henv.context w hw
  · exact fun env henv w hw => henv.evaluated _ (hc _ (List.mem_singleton.mpr rfl)) _ _ henv.context w hw
  · exact applyNaming _ _
  · exact runHook _ _ _
  · exact throw

/-- What is registered for a namespace may be worked on. -/
theorem registered (space : Term) : Upholds π I (Current.registered space) π.Targets := by
  refine bind (of_reads (Current.spaceOr_reads space)) fun s _ => bind (of_reads (.requireStable s)) fun _ _ => ?_
  refine bind get fun w hw => pure fun id hid => Invariant.registered hw ?_
  cases hs : w.namespaces.lookup s with
  | none =>
    rw [hs] at hid
    cases hid
  | some t =>
    rw [hs] at hid
    obtain ⟨k, hk⟩ := Keyed.exists_mem_of_lookup hs
    exact ⟨_, hk, hid⟩

theorem ontology (space : Term) : Upholds π I (Current.ontology space) π.Targets := by
  refine bind context fun c hc => ?_
  dsimp only
  split
  · refine bind (registered space) fun t ht => ?_
    split
    · refine bind (of_reads (Current.spaceOr_reads space)) fun s _ => bind (of_reads fun _ _ => rfl) fun _ _ => throw
    · exact pure ht
  · exact pure hc.target

/-- What is given as an ontology or, for null, the current ontology. -/
theorem orGiven {t : Term} (ht : π.Targets t) : Upholds π I (Current.orGiven t) π.Targets := by
  unfold Current.orGiven
  split
  · exact ontology .null
  · exact pure ht

/-- Options are made for an ontology that may be worked on. -/
theorem options {t : Term} (ht : π.Targets t) : Upholds π I (Current.options t) fun _ => True := by
  refine bind (orGiven ht) fun subject hsubject => bind (of_reads (.requireStable subject)) fun _ _ => ?_
  intro env _ w hw
  rw [run_bind, run_get]
  dsimp only
  cases w.optionsOf.lookup subject with
  | some n => exact ⟨hw, fun _ _ => trivial⟩
  | none =>
    refine ⟨Invariant.consulted (π := π) hw ⟨⟨rfl, rfl, rfl, rfl, rfl, fun f hf => ?_⟩, fun id hid => ?_⟩, ?_⟩
    · rcases List.mem_append.mp hf with hf | hf
      · exact .inr hf
      · exact .inl (List.mem_singleton.mp hf)
    · rcases Keyed.isSome_lookup_put hid with hid | hid
      · exact .inl hid
      · exact .inr (hsubject id (Term.handle_beq.mp hid))
    · exact fun _ _ => trivial

theorem iriForName (name : Term) {ontology : Term} (ho : π.Targets ontology) :
    Upholds π I (Current.iriForName name ontology) fun _ => True := by
  unfold Current.iriForName
  refine bind (orGiven ho) fun o ho => bind (options ho) fun n _ => bind get fun w hw => ?_
  have hnaming := (Invariant.naming (π := π) hw).namingOf n
  split
  · exact bind (of_reads (.iriOf o)) fun _ _ => of_reads fun _ _ => rfl
  · exact bind (invoke hnaming _) fun t _ => of_reads fun _ _ => rfl

end Act.Upholds

namespace Reference

theorem forceWithin_upholds : ∀ (n : Nat) {t : Term}, t.Meets π → Upholds π I (forceWithin n t) (·.Meets π)
  | 0, t, ht => by
    rw [forceWithin.eq_def]
    exact .ite (fun _ => .throw) fun _ => .pure ht
  | n + 1, t, ht => by
    rw [forceWithin.eq_def]
    refine .ite (fun _ => ?_) fun _ => .pure ht
    exact .bind (.invoke ht.bodies []) fun u hu => forceWithin_upholds n hu

section
variable {t ontology : Term} {ts : List Term} (ho : π.Targets ontology)
include ho

theorem denote_upholds (ht : t.Meets π) (kind : EntityKind) (maker : Nat) :
    Upholds π I (denote t kind ontology maker) fun u => Denotes kind u ∧ u.Meets π := by
  unfold denote
  cases hf : form t kind
  case entity | expression => exact .pure ⟨denotes_of_form (by simp [hf]), ht⟩
  case iri => exact .bind (.of_reads fun _ _ => rfl) fun iri _ => .pure ⟨.entity maker iri, trivial⟩
  case name => exact .bind (.iriForName t ho) fun iri _ => .pure ⟨.entity maker iri, trivial⟩
  case producer | invalid => exact .refuse

/-- **Reading a reference** upholds every invariant. What is denoted meets the policy. -/
theorem denoted_upholds (ht : t.Meets π) (kind : EntityKind) (maker : Nat) :
    Upholds π I (resolve t kind ontology maker) fun u => Denotes kind u ∧ u.Meets π := by
  refine .bind (P := (·.Meets π)) ?_ fun u hu => denote_upholds ho hu kind maker
  exact .bind (.of_reads fun _ _ => rfl) fun e _ => forceWithin_upholds e.depth ht

/-- Where a class is expected, a class is denoted, or a class expression that is let through. -/
theorem resolveClass_upholds (ht : t.Meets π) (maker : Nat) :
    Upholds π I (resolve t .cls ontology maker) π.Describes :=
  (denoted_upholds ho ht .cls maker).mono fun _ hu => hu.1.describes hu.2

theorem resolveClasses_upholds (hts : ∀ t ∈ ts, t.Meets π) :
    Upholds π I (ts.mapM fun t => resolveClass t ontology) fun cs => ∀ c ∈ cs, π.Describes c :=
  .mapM fun t ht => resolveClass_upholds ho (hts t ht) _

/-- Where anything else is expected, an entity of the expected kind is denoted. -/
theorem resolve_upholds (ht : t.Meets π) {kind : EntityKind} (hk : kind ≠ .cls) (maker : Nat) :
    Upholds π I (resolve t kind ontology maker) (Term.IsOfKind kind) :=
  (denoted_upholds ho ht kind maker).mono fun _ hu => hu.1.exists_entity hk

/-- Reading a reference where what is expected is given as a term, and where there may be no factory. -/
theorem resolveAs_upholds (ht : t.Meets π) (expected : Term) (maker : Option Nat) :
    Upholds π I (resolveAs t expected ontology maker) fun _ => True := by
  have made : ∀ {iri : Act Term}, Upholds π I iri (fun _ => True) → Upholds π I (make maker expected iri) fun _ => True := by
    intro iri hiri
    unfold make
    split
    · exact .throw
    · refine .bind hiri fun t _ => ?_
      unfold Factory.entityOf
      split
      · exact .bind (.of_reads fun _ _ => rfl) fun _ _ => .pure trivial
      · exact .bind (.of_reads fun _ _ => rfl) fun _ _ => .throw
  refine .bind (P := fun _ => True) ?_ fun left _ => ?_
  · refine .bind (.of_reads fun _ _ => rfl) fun e _ => ?_
    exact (forceWithin_upholds e.depth ht).mono fun _ _ => trivial
  · split
    · exact .pure trivial
    · exact .pure trivial
    · exact made (.pure trivial)
    · exact made (.bind (.iriForName left ho) fun _ _ => .pure trivial)
    · exact .bind (.of_reads (.expectedName expected)) fun _ _ => .refuse
    · exact .bind (.of_reads (.expectedName expected)) fun _ _ => .refuse

end

end Reference

/-! ## Class expressions and annotations -/

omit [Invariant π I] in
/-- The expression of an operator, whose operands form one set if the operator takes one. -/
theorem Factory.expression_upholds (o : Operator) (operands : List Term) (cardinality : Term) :
    Upholds π I (Factory.expression o operands cardinality) (· =
      .expression (.ofOperator o) (if o.takesSet then [Term.setOf true operands] else operands) cardinality) := by
  unfold Factory.expression Factory.expressionOf
  refine .bind (.of_reads (.requireFindable _)) fun _ _ => ?_
  rw [Factory.takesSet_ofOperator]
  refine .ite (fun h => ?_) fun h => .pure (by rw [if_neg h])
  refine .bind (P := (· = Term.setOf true operands)) ?_ fun s hs => .pure (by rw [if_pos h, hs])
  exact .bind (.of_reads (.forM .requireStable)) fun _ _ => .pure rfl

omit [Invariant π I] in
/-- An annotation is along the property that is given. -/
theorem Factory.note_upholds (property t language : Term) :
    Upholds π I (Factory.note property t language) (·.property = property) := by
  unfold Factory.note
  split
  · exact .pure rfl
  · exact .bind (.of_reads (Compile.literal_reads _ _)) fun _ _ => .pure rfl

namespace Expression

variable {property : Term} {ts : List Term}

omit [Invariant π I] in
/-- A restriction, of an operator whose operands stand in order. -/
theorem restriction_upholds {o : Operator} {p f c : Term} (ho : o.takesSet = false) (hc : π.Counts o c)
    (hp : p.IsOfKind .objectProperty) (hf : π.Describes f) :
    Upholds π I (Factory.expression o [p, f] c) π.Describes := by
  refine (Factory.expression_upholds o [p, f] c).mono fun x hx => ?_
  rw [hx, ho]
  exact .inr ⟨rfl, hc p f hp hf⟩

section
variable (hπ : π.Closed)
include hπ

/-- One restriction for each filler. -/
theorem restrictEach_upholds {o : Operator} (ho : o = .some ∨ o = .only) (hp : property.Meets π)
    (hts : ∀ t ∈ ts, t.Meets π) : Upholds π I (restrictEach o property ts) fun cs => ∀ c ∈ cs, π.Describes c := by
  have hset : o.takesSet = false := by rcases ho with rfl | rfl <;> rfl
  refine .bind (Reference.resolve_upholds Policy.targets_null hp (by decide) _) fun p hp => ?_
  refine .bind (.leaves hts) fun us hus => ?_
  refine .mapM fun u hu => .bind (Reference.resolveClass_upholds Policy.targets_null (hus u hu) _) fun c hc => ?_
  exact restriction_upholds hset (hπ.restriction ho) hp hc

omit hπ in
theorem oneOrMany_meets {cs : List Term} (h : ∀ c ∈ cs, π.Describes c) : (oneOrMany cs).Meets π := by
  unfold oneOrMany
  split
  · exact (h _ List.mem_cons_self).meets
  · exact Term.allMeet_iff.mpr fun c hc => (h c hc).meets

theorem some_upholds (hp : property.Meets π) (hts : ∀ t ∈ ts, t.Meets π) :
    Upholds π I (some property ts) (·.Meets π) :=
  .bind (restrictEach_upholds hπ (.inl rfl) hp hts) fun _ hcs => .pure (oneOrMany_meets hcs)

theorem only_upholds (hp : property.Meets π) (hts : ∀ t ∈ ts, t.Meets π) :
    Upholds π I (only property ts) (·.Meets π) :=
  .bind (restrictEach_upholds hπ (.inr rfl) hp hts) fun _ hcs => .pure (oneOrMany_meets hcs)

omit [Invariant π I] in
/-- **An intersection or union of classes describes a class**: it is the one class if there is just one. -/
theorem combine_upholds {o : Operator} (ho : o = .and ∨ o = .or) {cs : List Term} (hcs : ∀ c ∈ cs, π.Describes c) :
    Upholds π I (combine o cs) π.Describes := by
  unfold combine
  split
  · exact .throw
  next c rest =>
    refine .bind (.forM fun t _ => .requireStable t) fun _ hs => .ite (fun _ => .pure (hcs c List.mem_cons_self)) ?_
    refine fun _ => (Factory.expression_upholds o (c :: rest) .null).mono fun x hx => ?_
    have hset : o.takesSet = true := by rcases ho with rfl | rfl <;> rfl
    rw [hx, hset, if_pos rfl]
    refine .inr ⟨rfl, hπ.combination ho ?_ (Distinct.eraseDups _) (fun u hu => ?_) fun u hu => ?_⟩
    · rw [List.eraseDups_cons]
      exact List.cons_ne_nil _ _
    · exact hcs u (Distinct.mem_of_mem_eraseDups hu)
    · exact hs u (Distinct.mem_of_mem_eraseDups hu)

theorem and_upholds (hts : ∀ t ∈ ts, t.Meets π) : Upholds π I (and ts) π.Describes :=
  .bind (.leaves hts) fun _ hus => .bind (Reference.resolveClasses_upholds Policy.targets_null hus) fun _ hcs =>
    combine_upholds hπ (.inl rfl) hcs

theorem or_upholds (hts : ∀ t ∈ ts, t.Meets π) : Upholds π I (or ts) π.Describes :=
  .bind (.leaves hts) fun _ hus => .bind (Reference.resolveClasses_upholds Policy.targets_null hus) fun _ hcs =>
    combine_upholds hπ (.inr rfl) hcs

theorem someOnly_upholds (hp : property.Meets π) (hts : ∀ t ∈ ts, t.Meets π) :
    Upholds π I (someOnly property ts) (·.Meets π) := by
  refine .bind (some_upholds hπ hp hts) fun each heach => .bind (or_upholds hπ hts) fun union hunion => ?_
  refine .bind (only_upholds hπ hp (List.forall_mem_singleton.mpr hunion.meets)) fun closed hclosed => .pure ?_
  refine Term.allMeet_iff.mpr fun u hu => ?_
  rcases List.mem_append.mp hu with hu | hu
  · split at hu
    · exact Term.allMeet_iff.mp heach u hu
    · exact List.mem_singleton.mp hu ▸ heach
  · exact List.mem_singleton.mp hu ▸ hclosed

omit hπ in
theorem singleFiller_upholds (hts : ∀ t ∈ ts, t.Meets π) : Upholds π I (singleFiller ts) π.Describes := by
  refine .bind (.leaves hts) fun us hus => ?_
  split
  · exact Reference.resolveClass_upholds Policy.targets_null (hus _ List.mem_cons_self) _
  · exact .throw

theorem not_upholds (hts : ∀ t ∈ ts, t.Meets π) : Upholds π I (not ts) π.Describes := by
  refine .bind (singleFiller_upholds hts) fun c hc => (Factory.expression_upholds .not [c] .null).mono fun x hx => ?_
  rw [hx]
  exact .inr ⟨rfl, hπ.complement hc⟩

omit hπ [Invariant π I] in
/-- What is found not to be negative is a cardinality. -/
theorem isNegative_upholds (c : Term) : Upholds π I (isNegative c) fun b => b = false → c.IsCardinality := by
  unfold isNegative
  split
  · exact .pure fun _ => trivial
  · exact .pure fun h => Int.not_lt.mp (of_decide_eq_false h)
  · exact .pure id
  · exact .throw

omit hπ in
/-- A restriction with a cardinality, which the policy has to let through if it is a number that is not negative. -/
theorem count_upholds {o : Operator} {cardinality : Term} (ho : o.takesSet = false)
    (hc : cardinality.IsCardinality → π.Counts o cardinality) (hp : property.Meets π) (hts : ∀ t ∈ ts, t.Meets π) :
    Upholds π I (count o cardinality property ts) π.Describes := by
  refine .bind (isNegative_upholds cardinality) fun negative hnegative => .ite (fun _ => ?_) fun hnot => ?_
  · exact .bind (.of_reads fun _ _ => rfl) fun _ _ => .throw
  · refine .bind (Reference.resolve_upholds Policy.targets_null hp (by decide) _) fun p hp => ?_
    refine .bind (singleFiller_upholds hts) fun c hc' => restriction_upholds ho (hc (hnegative ?_)) hp hc'
    exact Bool.eq_false_iff.mpr hnot

/-- The class of some individuals. -/
theorem oneOf_upholds (hts : ∀ t ∈ ts, t.Meets π) : Upholds π I (oneOf ts) π.Describes := by
  refine .bind (.leaves hts) fun us hus => ?_
  have read : ∀ u ∈ us, Upholds π I (Reference.resolveIndividual u .null) (Term.IsOfKind .individual) :=
    fun u hu => Reference.resolve_upholds Policy.targets_null (hus u hu) (by decide) _
  refine .bind (.mapM read) fun is his => ?_
  split
  · exact .throw
  next hne =>
    refine (Factory.expression_upholds .oneOf is .null).mono fun x hx => ?_
    rw [hx]
    refine .inr ⟨rfl, hπ.enumeration (fun h => hne ?_) (Distinct.eraseDups _) fun u hu => ?_⟩
    · cases is with
      | nil => rfl
      | cons i is =>
        rw [List.eraseDups_cons] at h
        exact absurd h (List.cons_ne_nil _ _)
    · exact his u (Distinct.mem_of_mem_eraseDups hu)

/-- An annotation is along an annotation property. -/
theorem note_upholds (hp : property.Meets π) (value language : Term) :
    Upholds π I (note property value language) (·.Meets π) := by
  have hlanguage : Reads (languageFor value language) := by
    unfold languageFor
    split
    · exact .pure _
    · exact fun _ _ => rfl
    · exact .pure _
  refine .bind (.of_reads hlanguage) fun tag _ => ?_
  refine .bind (Reference.resolve_upholds Policy.targets_null hp (by decide) _) fun p hp => ?_
  refine .bind (Factory.note_upholds p value tag) fun a ha => .pure ?_
  show π.properties a.property
  exact ha ▸ hπ.note hp

end

end Expression

end Authoring
