import Authoring.Proofs.Compile.Rules
import Authoring.Proofs.Invariant.Value

/-!
# Compiled axioms have their form

Compiling frames upholds every invariant, and each axiom that comes out has its form (`Compile.compile_upholds`). The
frames may be anything that meets the policy, so a value may be of any sort: one that does not belong to its tag is
refused.

What is read where a kind of entity is expected may stand at the place for it (`Place.reading`), so most rules need
nothing but the list of their places (`Compile.relating_meets`, `Compile.grouping_meets`). That the entity itself may
stand at its place is due to the check of the tags: only the tags of its kind have values
(`Compile.Takes.allowed`).
-/

namespace Authoring

open Act

variable {π : Policy} {I : World → Prop} {E : Term → Prop}

/-! ## Places by what is read -/

/-- The place for what is read where a kind of entity is expected. -/
def Place.reading : EntityKind → Place
  | .cls => .description
  | kind => .named kind

namespace Compile

variable {m : Nat} {e : Entity} {tag : FrameTag} {kind : EntityKind} {t value ontology : Term} {maker : Nat}

/-- Where a value is related to the entity, the axiom has its form. -/
theorem relating_meets {make : Term → Term → Axiom} (ht : relating e.kind tag = some (kind, make))
    (htag : tag ∈ FrameTag.allowed e.kind) (hu : (Place.reading kind).Admits π.Describes π.properties t) :
    (make (.entity m e) t).Meets π := by
  obtain ⟨k, iri⟩ := e
  have howner : (Term.entity m ⟨k, iri⟩).IsOfKind k := ⟨m, iri, rfl⟩
  dsimp only at ht htag
  cases k <;> cases tag <;> cases ht
  case cls.subclass | objectProperty.domain | objectProperty.range =>
    exact .of_form (.two rfl howner hu) (by decide)
  case individual.type => exact .of_form (.two rfl hu howner) (by decide)
  case objectProperty.superproperty | annotationProperty.superproperty =>
    exact .of_form (.two rfl howner hu) (by decide)
  case objectProperty.inverse =>
    refine .of_group (.one rfl (Axiom.admits_couple howner hu)) ?_
    exact List.forall_mem_cons.mpr ⟨rfl, List.forall_mem_singleton.mpr hu.isStable⟩
  all_goals exact absurd htag (by decide)

/-- Where a value is put into one set with the entity, the axiom has its form if the value is not the entity and can be
compared. -/
theorem grouping_meets {make : List Term → Axiom} (ht : grouping tag = some (kind, make))
    (htag : tag ∈ FrameTag.allowed e.kind) (hu : (Place.reading kind).Admits π.Describes π.properties t)
    (hne : t.equals (.entity m e) = false) (hs : t.isStable = true) : (make [.entity m e, t]).Meets π := by
  obtain ⟨k, iri⟩ := e
  have howner : (Term.entity m ⟨k, iri⟩).IsOfKind k := ⟨m, iri, rfl⟩
  have both : ∀ u ∈ [Term.entity m ⟨k, iri⟩, t], u.isStable = true :=
    List.forall_mem_cons.mpr ⟨rfl, List.forall_mem_singleton.mpr hs⟩
  dsimp only at htag
  cases k <;> cases tag <;> cases ht
  case cls.equivalent =>
    refine .of_group (.one rfl (Axiom.admits_group ?_ (Axiom.one_le_eraseDups (List.cons_ne_nil _ _)))) both
    exact List.forall_mem_cons.mpr ⟨.inl howner, List.forall_mem_singleton.mpr hu⟩
  case cls.disjoint => exact .of_group (.one rfl (Axiom.admits_others (.inl howner) hu hne)) both
  case individual.same | individual.different =>
    exact .of_group (.one rfl (Axiom.admits_others howner hu hne)) both
  all_goals exact absurd htag (by decide)

/-- A kind of entity takes frames if each key is a tag of the kind. -/
def Takes (kind : EntityKind) (frames : FrameMap) : Prop :=
  ∀ f ∈ frames, ∃ tag, f.1 = .ofTag tag ∧ tag ∈ FrameTag.allowed kind

/-- Only tags of the kind have values then. -/
theorem Takes.allowed {frames : FrameMap} (h : Takes kind frames) (ht : t ∈ frames.valuesOf (.ofTag tag)) :
    tag ∈ FrameTag.allowed kind := by
  by_contra hno
  rw [FrameMap.valuesOf_eq_nil fun f hf => ?_] at ht
  · cases ht
  · obtain ⟨tag', hkey, htag'⟩ := h f hf
    rw [Bool.eq_false_iff]
    intro hbeq
    have hsame := FrameTag.ofTerm?_of_beq hbeq
    rw [hkey] at hsame
    cases hsame
    exact hno htag'

/-- Only individuals take facts. -/
theorem kind_of_fact {k : EntityKind} (h : .fact ∈ FrameTag.allowed k) : k = .individual := by
  cases k <;> first | rfl | exact absurd h (by decide)

/-- Only object properties take characteristics. -/
theorem kind_of_characteristic {k : EntityKind} (h : .characteristic ∈ FrameTag.allowed k) : k = .objectProperty := by
  cases k <;> first | rfl | exact absurd h (by decide)

/-- What a rule makes of a value: nothing, or an axiom that has its form. -/
def Forms (π : Policy) (r : Option Axiom) : Prop := ∀ a, r = some a → a.Meets π

theorem Forms.none : Forms π none := nofun

theorem Forms.some {a : Axiom} (h : a.Meets π) : Forms π (some a) := fun _ hb => Option.some.inj hb ▸ h

/-! ## The rules -/

theorem unlessSelf_upholds {make : List Term → Axiom}
    (h : t.equals (.entity m e) = false → t.isStable = true → (make [.entity m e, t]).Meets π) :
    Upholds π I (unlessSelf (.entity m e) t make) (Forms π) := by
  refine .ite (fun _ => .pure .none) fun hne => ?_
  refine .bind (.of_reads (.requireStable _)) fun _ _ => .bind (.requireStable t) fun _ hs => ?_
  exact .pure (.some (h (Bool.eq_false_iff.mpr hne) hs))

/-- An annotation for a tag of its own is along an annotation property. -/
theorem annotationAlong_upholds (hπ : π.Closed) {n : Nat} {iri : String} :
    Upholds π I (annotationAlong (.entity n ⟨.annotationProperty, iri⟩) value)
      (Place.note.Admits E π.properties ·.toTerm) := by
  unfold annotationAlong
  split
  next p l =>
    refine .ite (fun h => ?_) fun _ => .bind (.of_reads (.iriOf _)) fun _ _ => .refuse
    obtain ⟨k, rfl⟩ := Term.equals_entity.mp h
    exact .pure ⟨_, l, rfl, hπ.note ⟨k, iri, rfl⟩⟩
  next =>
    refine .ite (fun _ => .bind (.of_reads fun _ _ => rfl) fun w _ => ?_) fun _ => .refuse
    refine Upholds.mono (P := (·.property = .entity n ⟨.annotationProperty, iri⟩)) ?_ fun a ha => ?_
    · exact Factory.note_upholds _ _ _
    · exact ⟨a.property, a.value, rfl, ha ▸ hπ.note ⟨n, iri, rfl⟩⟩

variable [Invariant π I]

/-- What a value refers to may stand at the place for what is read so. -/
theorem read_upholds (ho : π.Targets ontology) (hv : value.Meets π) (kind : EntityKind) :
    Upholds π I (Reference.resolve value kind ontology maker)
      ((Place.reading kind).Admits π.Describes π.properties) := by
  cases kind with
  | cls => exact Reference.resolveClass_upholds ho hv _
  | objectProperty | annotationProperty | individual => exact Reference.resolve_upholds ho hv (by decide) _

/-- What a fact says of an individual has its form. -/
theorem relation_upholds (ho : π.Targets ontology) (he : e.kind = .individual) (hv : value.Meets π) :
    Upholds π I (relation (.entity m e) value ontology maker) (·.Meets π) := by
  have howner : (Term.entity m e).IsOfKind .individual := ⟨m, e.iri, by rw [← he]⟩
  unfold relation
  split
  · refine .bind (read_upholds ho hv.1 .objectProperty) fun p hp => ?_
    refine .bind (read_upholds ho hv.2 .individual) fun t ht => .pure ?_
    split
    · exact .of_form (.assertion (.inr rfl) hp howner ht) (by decide)
    · exact .of_form (.assertion (.inl rfl) hp howner ht) (by decide)
  · exact .refuse

/-- **What a rule makes has its form**, if the kind of the entity takes the tag. -/
theorem axiomFor_upholds (hπ : π.Closed) (ho : π.Targets ontology) (htag : tag ∈ FrameTag.allowed e.kind)
    (hv : value.Meets π) : Upholds π I (axiomFor (.entity m e) ontology maker tag value) (Forms π) := by
  have related : ∀ {kind : EntityKind} {make : Term → Term → Axiom}, relating e.kind tag = some (kind, make) →
      Upholds π I (axiomFor (.entity m e) ontology maker tag value) (Forms π) := by
    intro kind make ht
    rw [axiomFor_relating ht]
    exact .bind (read_upholds ho hv kind) fun u hu => .pure (.some (relating_meets ht htag hu))
  have grouped : ∀ {kind : EntityKind} {make : List Term → Axiom}, grouping tag = some (kind, make) →
      Upholds π I (axiomFor (.entity m e) ontology maker tag value) (Forms π) := by
    intro kind make ht
    rw [axiomFor_grouping ht]
    refine .bind (read_upholds ho hv kind) fun u hu => unlessSelf_upholds fun hne hs => ?_
    exact grouping_meets ht htag hu hne hs
  have annotated : ∀ {property : Term}, annotating maker tag = some property → property.IsOfKind .annotationProperty →
      Upholds π I (axiomFor (.entity m e) ontology maker tag value) (Forms π) := by
    rintro _ ht ⟨n, iri, rfl⟩
    rw [axiomFor_annotating ht]
    refine .bind (annotationAlong_upholds (E := π.Describes) hπ) fun a ha => .pure (.some ?_)
    exact .of_form (.two rfl ⟨e.iri, rfl⟩ ha) (by decide)
  cases tag
  case name => exact .pure .none
  case subclass | domain | range | inverse | type => exact related rfl
  case superproperty =>
    obtain ⟨kind, make, ht⟩ : ∃ kind make, relating e.kind .superproperty = some (kind, make) := by
      cases e.kind <;> exact ⟨_, _, rfl⟩
    exact related ht
  case equivalent | disjoint | same | different => exact grouped rfl
  case comment | label => exact annotated rfl ⟨_, _, rfl⟩
  case fact => exact .bind (relation_upholds ho (kind_of_fact htag) hv) fun a ha => .pure (.some ha)
  case note =>
    unfold axiomFor
    dsimp only
    split
    · exact .pure (.some (.of_form (.two rfl ⟨e.iri, rfl⟩ ⟨_, _, rfl, hv⟩) (by decide)))
    · exact .refuse
  case characteristic =>
    unfold axiomFor
    dsimp only
    cases Characteristic.ofTerm? value with
    | none => exact .bind (.of_reads fun _ _ => rfl) fun _ _ => .throw
    | some c =>
      have howner : (Term.entity m e).IsOfKind .objectProperty := ⟨m, e.iri, by rw [← kind_of_characteristic htag]⟩
      exact .pure (.some (by cases c <;> exact .of_form (.one rfl howner) (by decide)))

/-! ## All values of all tags -/

theorem axiomsFor_upholds (hπ : π.Closed) (ho : π.Targets ontology) {frames : FrameMap}
    (hf : frames.All (·.Meets π)) (hkeys : Takes e.kind frames) (tag : FrameTag) :
    Upholds π I (axiomsFor (.entity m e) ontology maker frames tag) fun as => ∀ a ∈ as, a.Meets π := by
  refine .bind (.mapM fun t ht => ?_) fun rs (hrs : ∀ r ∈ rs, Forms π r) => .pure fun a ha => ?_
  · exact axiomFor_upholds hπ ho (hkeys.allowed ht) (hf.valuesOf _ t ht)
  · obtain ⟨r, hr, har⟩ := List.mem_filterMap.mp ha
    exact hrs r hr a har

theorem compileFrames_upholds (hπ : π.Closed) (ho : π.Targets ontology) {frames : FrameMap}
    (hf : frames.All (·.Meets π)) (hkeys : Takes e.kind frames) :
    Upholds π I (compileFrames (.entity m e) ontology maker frames) fun as => ∀ a ∈ as, a.Meets π := by
  refine .bind (.mapM fun tag _ => axiomsFor_upholds hπ ho hf hkeys tag) fun made hmade => .pure ?_
  refine List.forall_mem_cons.mpr ⟨.of_form (.one rfl rfl) (by decide), fun a ha => ?_⟩
  obtain ⟨as, has, ha⟩ := List.mem_flatten.mp ha
  exact hmade as has a ha

omit [Invariant π I] in
/-- The kind of an entity takes frames that pass the check. -/
theorem checkTags_upholds (frames : FrameMap) :
    Upholds π I (checkTags (.entity m e) .null frames) fun _ => Takes e.kind frames := by
  intro env _ w hw
  refine ⟨(checkTags_reads _ _ frames env w).symm ▸ hw, fun _ hrun => ?_⟩
  exact (checkTags_ok_iff.mp (Prod.ext hrun rfl)).2

/-- **Compiling frames** upholds every invariant. If it gives axioms then these have their form, and the owner is an
entity. -/
theorem compile_upholds (hπ : π.Closed) (ho : π.Targets ontology) {owner : Term} (howner : Reference.Denotes kind owner)
    {explicit defaults : List (Term × Term)} (he : ∀ e ∈ explicit, e.2.Meets π)
    (hd : ∀ e ∈ defaults, e.2.Meets π) :
    Upholds π I (compile owner explicit defaults .null ontology maker) fun as =>
      owner.isEntity = true ∧ ∀ a ∈ as, a.Meets π := by
  cases howner with
  | expression => exact .of_refused fun env w => compile_expression ..
  | entity m iri =>
    have hmeets : (FrameMap.merge defaults explicit).All (·.Meets π) :=
      .merge (FrameMap.leaves_meet hd) (FrameMap.leaves_meet he)
    refine .bind (P := fun frames => frames.All (·.Meets π) ∧ Takes kind frames) ?_ fun frames hframes => ?_
    · exact .bind (checkTags_upholds _) fun _ hkeys => .pure ⟨hmeets, hkeys⟩
    · exact (compileFrames_upholds hπ ho hframes.1 hframes.2).mono fun as has => ⟨rfl, has⟩

end Compile

end Authoring
