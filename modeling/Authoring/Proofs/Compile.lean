import Authoring.Compile
import Authoring.Proofs.Concerns
import Authoring.Proofs.Frame

/-!
# What compiled axioms are about

Compiling frames only finds things out: it leaves the ontologies, the stores and the windows alone, whatever
becomes of it. If the frames are fit, the axioms that it gives are the declaration of the entity and others, all
of which concern the entity (`Compile.compile_calm`).

The proof has one lemma for each way in which the rules read a value: a reference (`Reference.resolve_calm`), an
annotation (`annotationAlong_calm`) and a fact (`relation_calm`). `axiomFor_calm` goes through the tags.

**What it does not establish.** An expression has no kind, so its frames cannot be checked without a schema
(`Compile.compile_expression`); nothing is said of the axioms that a schema lets an expression have.
-/

namespace Authoring.Compile

open Act

variable {env : Env} {S : Expr → Prop} {m : Nat} {e : Entity}
  {ontology : Term} {maker : Nat} {tag : FrameTag} {value : Term}

/-- What a rule makes of a value: nothing, or an axiom that concerns the entity. -/
def Gives (m : Nat) (e : Entity) (r : Option Axiom) : Prop := ∀ a, r = some a → a.Concerns m e

theorem Gives.none : Gives m e none := nofun

theorem Gives.some {a : Axiom} (h : a.Concerns m e) : Gives m e (some a) :=
  fun _ hb => Option.some.inj hb ▸ h

/-! ## The ways in which values are read -/

theorem languageOf_reads (t : Term) : Reads (Factory.languageOf t) := by
  unfold Factory.languageOf
  split
  · exact .pure _
  · exact .pure _
  · split
    · exact .throw _
    · refine .ite (.bind (fun _ _ => rfl) fun _ => .bind (fun _ _ => rfl) fun _ => .pure _) ?_
      exact .bind (fun _ _ => rfl) fun _ => .throw _

theorem literal_reads (value language : Term) : Reads (Factory.literal value language) := by
  unfold Factory.literal
  refine .bind (languageOf_reads language) fun tag => ?_
  split
  · exact .pure _
  · exact .pure _
  · exact .pure _
  · exact .bind (fun _ _ => rfl) fun _ => .pure _

/-- An annotation is along the property that it is to be along. -/
theorem note_calm (property t language : Term) :
    Calm env S (Factory.note property t language) fun a => a.property = property := by
  unfold Factory.note
  split
  · exact .pure rfl
  · exact .bind (.of_reads (literal_reads _ _)) fun _ _ => .pure rfl

/-- An annotation along a property of the vocabulary is along an entity. -/
theorem annotationAlong_calm (n : Nat) (f : Entity) (t : Term) :
    Calm env S (annotationAlong (.entity n f) t) fun a => a.property.isEntity = true := by
  unfold annotationAlong
  split
  · refine .ite (fun h => ?_) fun _ => ?_
    · obtain ⟨p, hp⟩ := Term.equals_entity.mp h
      exact .pure (hp ▸ rfl)
    · exact .bind (.iriOf _) fun _ _ => .refuse
  · refine .ite (fun _ => ?_) fun _ => .refuse
    refine .bind (.of_reads fun _ _ => rfl) fun w _ => ?_
    exact (note_calm _ _ _).mono fun a ha => ha ▸ rfl

/-- A fact says something of the entity and another individual, along an object property. -/
theorem relation_calm (h : env.Harmless S) (hv : ∀ b ∈ value.bodies, S b) :
    Calm env S (relation (.entity m e) value ontology maker) (·.Concerns m e) := by
  unfold relation
  split
  · have hp := fun b hb => hv b (List.mem_append_left _ hb)
    have ht := fun b hb => hv b (List.mem_append_right _ hb)
    refine .bind (Reference.resolve_calm h hp _ _ _) fun p hp => ?_
    refine .bind (Reference.resolve_calm h ht _ _ _) fun t ht => ?_
    obtain ⟨n, i, rfl⟩ := hp.1.exists_entity (by decide)
    obtain ⟨n', i', rfl⟩ := ht.1.exists_entity (by decide)
    refine .pure ?_
    split
    · exact .of_mem (by simp [Term.isBuilt]) (by simp)
    · exact .of_mem (by simp [Term.isBuilt]) (by simp)
  · exact .refuse

/-- An axiom between the entity and another. -/
theorem unlessSelf_calm {other : Term} {k : AxiomKind} (ho : other.isBuilt = true) :
    Calm env S (unlessSelf (.entity m e) other fun ts => ⟨k, [Axiom.group ts]⟩) (Gives m e) := by
  unfold unlessSelf
  refine .ite (fun _ => .pure .none) fun _ => ?_
  refine .bind (.requireStable _) fun _ _ => .bind (.requireStable _) fun _ _ => ?_
  exact .pure (.some (.of_group ho))

/-- **What a rule makes of a fit value** concerns the entity. -/
theorem axiomFor_calm (h : env.Harmless S) (hv : value.Fit S) :
    Calm env S (axiomFor (.entity m e) ontology maker tag value) (Gives m e) := by
  have read : ∀ kind, Calm env S (Reference.resolve value kind ontology maker) (·.isBuilt = true) := by
    intro kind
    exact (Reference.resolve_calm h hv.2 kind ontology maker).mono fun u hu => hu.1.isBuilt (hu.2 hv.1)
  have pair : ∀ {k : AxiomKind} {t : Term}, t.isBuilt = true → Gives m e (some ⟨k, [.entity m e, t]⟩) := by
    intro k t ht
    exact .some (.of_pair rfl ht List.mem_cons_self)
  have iri : Calm env S (iriOf (.entity m e)) (· = e.iri) := .pure rfl
  unfold axiomFor
  cases tag
  case name => exact .pure .none
  case subclass | domain | range => exact .bind (read .cls) fun t ht => .pure (pair ht)
  case equivalent | disjoint => exact .bind (read .cls) fun t ht => unlessSelf_calm ht
  case same | different => exact .bind (read .individual) fun t ht => unlessSelf_calm ht
  case inverse =>
    refine .bind (read .objectProperty) fun t ht => .bind (.requireStable _) fun _ _ => ?_
    exact .pure (.some (.of_group ht))
  case superproperty =>
    refine .bind (.of_reads (.pure _)) fun k _ => .ite (fun _ => ?_) fun _ => ?_
    · exact .bind (read .annotationProperty) fun t ht => .pure (pair ht)
    · exact .bind (read .objectProperty) fun t ht => .pure (pair ht)
  case characteristic =>
    cases Characteristic.ofTerm? value with
    | none => exact .bind (.inspect _) fun _ _ => .throw
    | some c =>
      refine .pure (.some ?_)
      cases c <;> exact .of_mem (by simp [Term.isBuilt]) (by simp)
  case type =>
    exact .bind (read .cls) fun t ht => .pure (.some (.of_pair ht rfl (by simp)))
  case fact => exact .bind (relation_calm h hv.2) fun a ha => .pure (.some ha)
  case note =>
    dsimp only
    split
    · exact .bind iri fun i hi => .pure (.some (hi ▸ .of_note (Term.isEntity_of_isFit hv.1) _))
    · exact .refuse
  case comment | label =>
    refine .bind iri fun i hi => .bind (annotationAlong_calm _ _ _) fun a ha => ?_
    exact .pure (.some (hi ▸ .of_note ha _))

/-! ## All values of all tags -/

theorem axiomsFor_calm (h : env.Harmless S) {frames : FrameMap} (hf : frames.IsFit S) (tag : FrameTag) :
    Calm env S (axiomsFor (.entity m e) ontology maker frames tag) fun as => ∀ a ∈ as, a.Concerns m e := by
  unfold axiomsFor
  refine .bind (.mapM fun t ht => axiomFor_calm h (hf.valuesOf _ t ht)) fun rs hrs => .pure fun a ha => ?_
  obtain ⟨r, hr, har⟩ := List.mem_filterMap.mp ha
  exact hrs r hr a har

/-- The axioms of an entity: its declaration, and others that concern it. -/
theorem compileFrames_calm (h : env.Harmless S) {frames : FrameMap} (hf : frames.IsFit S) :
    Calm env S (compileFrames (.entity m e) ontology maker frames) fun as =>
      (∃ rest, as = .declaration (.entity m e) :: rest) ∧ ∀ a ∈ as, a.Concerns m e := by
  unfold compileFrames
  refine .bind (.mapM fun tag _ => axiomsFor_calm h hf tag) fun made hmade => .pure ⟨⟨_, rfl⟩, ?_⟩
  refine List.forall_mem_cons.mpr ⟨.of_mem (by simp [Term.isBuilt]) (by simp), ?_⟩
  intro a ha
  obtain ⟨as, has, ha⟩ := List.mem_flatten.mp ha
  exact hmade as has a ha

/-! ## Checking the tags -/

theorem allows_reads (s : Schema) (tag : FrameTag) : Reads (s.allows tag) := by
  cases s with
  | ofKind => exact .pure _
  | within c => exact .contains c _

theorem checkTag_reads (owner : Term) (s : Schema) (key : Term) : Reads (checkTag owner s key) := by
  have refuse : ∀ key, Reads (refuseTag owner key) := by
    intro key
    exact .bind (.kindOf owner) fun _ => .bind (fun _ _ => rfl) fun _ => .throw _
  unfold checkTag
  split
  · exact .bind (allows_reads s _) fun _ => .ite (.pure _) (refuse _)
  · exact refuse _

theorem checkTags_reads (owner schema : Term) (frames : FrameMap) : Reads (checkTags owner schema frames) := by
  refine .bind ?_ fun s => .forM fun entry => checkTag_reads owner s entry.1
  unfold Schema.given
  split
  · exact .bind (.entityKindOf owner) fun _ => .pure _
  · exact .pure _

/-- **Compiling fit frames is calm**, and gives the declaration of the entity and axioms that concern it. -/
theorem compile_calm (h : env.Harmless S) {explicit defaults : List (Term × Term)} (he : FrameMap.AreFit S explicit)
    (hd : FrameMap.AreFit S defaults) (schema : Term) :
    Calm env S (compile (.entity m e) explicit defaults schema ontology maker) fun as =>
      (∃ rest, as = .declaration (.entity m e) :: rest) ∧ ∀ a ∈ as, a.Concerns m e := by
  unfold compile checked
  refine .bind (P := FrameMap.IsFit S) ?_ fun frames hf => compileFrames_calm h hf
  exact .bind (.of_reads (checkTags_reads _ _ _)) fun _ _ => .pure (hd.merge he)

/-- The frames of an expression cannot be checked without a schema. -/
theorem compile_expression (o c : Term) (ts : List Term) (explicit defaults : List (Term × Term))
    (ontology : Term) (maker : Nat) (env : Env) (w : World) :
    Refused env (compile (.expression o ts c) explicit defaults .null ontology maker) w :=
  .first (.first (.first (.first .throw)))

end Authoring.Compile
