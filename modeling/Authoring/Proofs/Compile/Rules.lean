import Authoring.Proofs.Compile
import Authoring.Proofs.Frame.Given
import Authoring.Proofs.Store

/-!
# What compilation makes of frames

The axioms of an entity are its declaration and then, for each tag in the order of the tags and for each value that the
frames give the tag, what the rule of the tag makes of the value (`Compile.compile_spec`). The values of a tag are those
of the defaults followed by the explicit ones, each in the order of the keys that name the tag (`Compile.sequence`). So
frames that give each tag the same values compile to the same axioms, whatever else is different about them.

`Compile.Rule` says what the rules are. Most of them read a value as a reference to an entity of some kind and relate
what it denotes to the entity (`Compile.relating`, `Compile.grouping`); only a name, and a value that denotes the entity
itself where the two were to be grouped, make nothing.

**What carries the proof.** A rule is done in one world and leaves another, since a naming policy is looked up by making
a place for it; the worlds are threaded through the values (`Compile.Compiled`), so nothing needs to be assumed of the
producers. That the frames in one shape hold the values in this order is `FrameMap.valuesOf_merge`.
-/

namespace Authoring.Compile

open Act

/-! ## The rules -/

/-- The tags whose values are related to the entity: the kind that a value refers to, and the axiom. Only for the
superproperties does it matter what kind of entity it is. -/
def relating (owner : EntityKind) : FrameTag → Option (EntityKind × (Term → Term → Axiom))
  | .subclass => some (.cls, .subclassOf)
  | .domain => some (.cls, .objectPropertyDomain)
  | .range => some (.cls, .objectPropertyRange)
  | .inverse => some (.objectProperty, .inverseObjectProperties)
  | .superproperty =>
    match owner with
    | .annotationProperty => some (.annotationProperty, .subAnnotationPropertyOf)
    | _ => some (.objectProperty, .subObjectPropertyOf)
  | .type => some (.cls, fun e c => .classAssertion c e)
  | _ => none

/-- Whatever kind of entity it is, its superproperties are related to it. -/
theorem exists_relating_superproperty (owner : EntityKind) :
    ∃ kind make, relating owner .superproperty = some (kind, make) := by
  cases owner <;> exact ⟨_, _, rfl⟩

/-- The tags whose values are put into one set with the entity. -/
def grouping : FrameTag → Option (EntityKind × (List Term → Axiom))
  | .equivalent => some (.cls, .equivalentClasses)
  | .disjoint => some (.cls, .disjointClasses)
  | .same => some (.individual, .sameIndividual)
  | .different => some (.individual, .differentIndividuals)
  | _ => none

/-- The tags whose values annotate the entity along a property of their own. -/
def annotating (maker : Nat) : FrameTag → Option Term
  | .comment => some (Factory.comment maker)
  | .label => some (Factory.label maker)
  | _ => none

/-- What a fact says of an individual. -/
def factOf (negated : Bool) (p s t : Term) : Axiom :=
  if negated then .negativeObjectPropertyAssertion p s t else .objectPropertyAssertion p s t

section
variable (ontology : Term) (maker : Nat) (env : Env) (m : Nat) (e : Entity)

/-- A reference to an entity of a kind denotes a term: reading it in one world leaves the other. -/
def Refers (t : Term) (kind : EntityKind) (w : World) (u : Term) (w' : World) : Prop :=
  Reference.resolve t kind ontology maker env w = (.ok u, w')

/-- **The rules of the tags**: what the rule of a tag makes of a value, in which world and leaving which. -/
inductive Rule : FrameTag → Term → World → Option Axiom → World → Prop
  | name (v : Term) (w : World) : Rule .name v w none w
  | relating {tag : FrameTag} {kind : EntityKind} {make : Term → Term → Axiom} {v t : Term} {w w' : World}
    (ht : relating e.kind tag = some (kind, make)) (h : Refers ontology maker env v kind w t w') :
    Rule tag v w (some (make (.entity m e) t)) w'
  | itself {tag : FrameTag} {kind : EntityKind} {make : List Term → Axiom} {v : Term} {n : Nat} {w w' : World}
    (ht : grouping tag = some (kind, make)) (h : Refers ontology maker env v kind w (.entity n e) w') :
    Rule tag v w none w'
  | grouping {tag : FrameTag} {kind : EntityKind} {make : List Term → Axiom} {v t : Term} {w w' : World}
    (ht : grouping tag = some (kind, make)) (h : Refers ontology maker env v kind w t w')
    (hne : ∀ n, t ≠ .entity n e) (hs : t.isStable = true) : Rule tag v w (some (make [.entity m e, t])) w'
  | characteristic {v : Term} {c : Characteristic} (h : Characteristic.ofTerm? v = some c) (w : World) :
    Rule .characteristic v w (some (.ofCharacteristic c (.entity m e))) w
  | fact {p t q i : Term} {negated : Bool} {w w₁ w' : World} (hp : Refers ontology maker env p .objectProperty w q w₁)
    (ht : Refers ontology maker env t .individual w₁ i w') :
    Rule .fact (.fact p t negated) w (some (factOf negated q (.entity m e) i)) w'
  | note (p : Term) (l : Literal) (w : World) :
    Rule .note (.note p l) w (some (.annotationAssertion (.iri e.iri) (.note p l))) w
  | along {tag : FrameTag} {property p : Term} (ht : annotating maker tag = some property)
    (hp : p.equals property = true) (l : Literal) (w : World) :
    Rule tag (.note p l) w (some (.annotationAssertion (.iri e.iri) (.note p l))) w
  | literal {tag : FrameTag} {property v : Term} {a : Note} {w w' : World} (ht : annotating maker tag = some property)
    (hv : v.content?.isSome = true) (h : Factory.note property v (.text w.settings.language) env w = (.ok a, w')) :
    Rule tag v w (some (.annotationAssertion (.iri e.iri) a.toTerm)) w'

/-- **What is compiled of values in a row**, each with its tag. -/
inductive Compiled : List (FrameTag × Term) → World → List (Option Axiom) → World → Prop
  | nil (w : World) : Compiled [] w [] w
  | cons {tag : FrameTag} {v : Term} {vs : List (FrameTag × Term)} {r : Option Axiom} {rs : List (Option Axiom)}
    {w w₁ w' : World} (h : Rule ontology maker env m e tag v w r w₁) (hrest : Compiled vs w₁ rs w') :
    Compiled ((tag, v) :: vs) w (r :: rs) w'

end

/-! ## One value -/

section
variable {ontology : Term} {maker : Nat} {env : Env} {m : Nat} {e : Entity} {tag : FrameTag} {value : Term}
  {w w' : World} {r : Option Axiom}

theorem axiomFor_relating {kind : EntityKind} {make : Term → Term → Axiom}
    (ht : relating e.kind tag = some (kind, make)) :
    axiomFor (.entity m e) ontology maker tag value =
      (do return some (make (.entity m e) (← Reference.resolve value kind ontology maker))) := by
  cases tag
  case superproperty =>
    obtain ⟨k, i⟩ := e
    cases k <;> cases ht <;> rfl
  all_goals cases ht
  all_goals rfl

theorem axiomFor_grouping {kind : EntityKind} {make : List Term → Axiom} (ht : grouping tag = some (kind, make)) :
    axiomFor (.entity m e) ontology maker tag value =
      (do unlessSelf (.entity m e) (← Reference.resolve value kind ontology maker) make) := by
  cases tag <;> cases ht <;> rfl

theorem axiomFor_annotating {property : Term} (ht : annotating maker tag = some property) :
    axiomFor (.entity m e) ontology maker tag value =
      (do return some (.annotationAssertion (.iri e.iri) (← annotationAlong property value).toTerm)) := by
  cases tag <;> cases ht <;> rfl

theorem unlessSelf_itself (n : Nat) (make : List Term → Axiom) :
    unlessSelf (.entity m e) (.entity n e) make = pure none := if_pos (Term.equals_entity.mpr ⟨n, rfl⟩)

theorem unlessSelf_other {t : Term} (h : ∀ n, t ≠ .entity n e) (make : List Term → Axiom) :
    unlessSelf (.entity m e) t make = (do requireStable t; return some (make [.entity m e, t])) := by
  refine if_neg fun heq => ?_
  obtain ⟨n, rfl⟩ := Term.equals_entity.mp heq
  exact h n rfl

theorem Rule.of_relating {kind : EntityKind} {make : Term → Term → Axiom}
    (ht : Compile.relating e.kind tag = some (kind, make))
    (h : axiomFor (.entity m e) ontology maker tag value env w = (.ok r, w')) :
    Rule ontology maker env m e tag value w r w' := by
  rw [axiomFor_relating ht] at h
  obtain ⟨t, w₁, hr, h⟩ := bind_ok h
  cases h
  exact .relating ht hr

theorem Rule.of_grouping {kind : EntityKind} {make : List Term → Axiom}
    (ht : Compile.grouping tag = some (kind, make))
    (h : axiomFor (.entity m e) ontology maker tag value env w = (.ok r, w')) :
    Rule ontology maker env m e tag value w r w' := by
  rw [axiomFor_grouping ht] at h
  obtain ⟨t, w₁, hr, h⟩ := bind_ok h
  by_cases hself : ∃ n, t = .entity n e
  · obtain ⟨n, rfl⟩ := hself
    rw [unlessSelf_itself] at h
    cases h
    exact .itself ht hr
  · have hne : ∀ n, t ≠ .entity n e := fun n heq => hself ⟨n, heq⟩
    rw [unlessSelf_other hne] at h
    obtain ⟨_, w₂, hs, h⟩ := bind_ok h
    cases h
    cases hstable : t.isStable with
    | true =>
      rw [run_requireStable hstable] at hs
      cases hs
      exact .grouping ht hr hne hstable
    | false =>
      rw [run_requireStable_of_not hstable] at hs
      cases hs

theorem Rule.of_annotating {property : Term} (ht : annotating maker tag = some property)
    (h : axiomFor (.entity m e) ontology maker tag value env w = (.ok r, w')) :
    Rule ontology maker env m e tag value w r w' := by
  rw [axiomFor_annotating ht] at h
  obtain ⟨a, w₁, ha, h⟩ := bind_ok h
  cases h
  unfold annotationAlong at ha
  split at ha
  next p l =>
    split at ha
    next hp =>
      cases ha
      exact .along ht hp l w
    next =>
      obtain ⟨_, _, -, ha⟩ := bind_ok ha
      cases ha
  next t _ =>
    split at ha
    next hv =>
      obtain ⟨_, _, hw, ha⟩ := bind_ok ha
      cases hw
      exact .literal ht hv ha
    next => cases ha

/-- What the compilation of a value ends with is made by the rule of the tag. -/
theorem Rule.of_run (h : axiomFor (.entity m e) ontology maker tag value env w = (.ok r, w')) :
    Rule ontology maker env m e tag value w r w' := by
  cases tag
  case name =>
    cases h
    exact .name value w
  case subclass | domain | range | inverse | type => exact .of_relating rfl h
  case superproperty =>
    obtain ⟨kind, make, ht⟩ := exists_relating_superproperty e.kind
    exact .of_relating ht h
  case equivalent | disjoint | same | different => exact .of_grouping rfl h
  case characteristic =>
    unfold axiomFor at h
    dsimp only at h
    cases hc : Characteristic.ofTerm? value with
    | none =>
      rw [hc] at h
      cases h
    | some c =>
      rw [hc] at h
      cases h
      exact .characteristic hc w
  case fact =>
    obtain ⟨a, w₁, ha, h⟩ := bind_ok h
    cases h
    unfold relation at ha
    split at ha
    next p t negated =>
      obtain ⟨q, w₁, hp, ha⟩ := bind_ok ha
      obtain ⟨i, w₂, ht, ha⟩ := bind_ok ha
      cases ha
      exact .fact hp ht
    next => cases ha
  case note =>
    unfold axiomFor at h
    dsimp only at h
    split at h
    next p l =>
      cases h
      exact .note p l w
    next => cases h
  case comment | label => exact .of_annotating rfl h

/-- What the rule of the tag makes of a value is what the compilation ends with. -/
theorem Rule.run (h : Rule ontology maker env m e tag value w r w') :
    axiomFor (.entity m e) ontology maker tag value env w = (.ok r, w') := by
  cases h with
  | name => rfl
  | relating ht h =>
    rw [axiomFor_relating ht]
    exact bind_ok_iff.mpr ⟨_, _, h, rfl⟩
  | itself ht h =>
    rw [axiomFor_grouping ht]
    refine bind_ok_iff.mpr ⟨_, _, h, ?_⟩
    rw [unlessSelf_itself]
    rfl
  | grouping ht h hne hs =>
    rw [axiomFor_grouping ht]
    refine bind_ok_iff.mpr ⟨_, _, h, ?_⟩
    rw [unlessSelf_other hne]
    exact bind_ok_iff.mpr ⟨_, _, run_requireStable hs _ _, rfl⟩
  | characteristic h =>
    unfold axiomFor
    dsimp only
    rw [h]
    rfl
  | fact hp ht =>
    refine bind_ok_iff.mpr ⟨_, _, ?_, rfl⟩
    exact bind_ok_iff.mpr ⟨_, _, hp, bind_ok_iff.mpr ⟨_, _, ht, rfl⟩⟩
  | note p l => rfl
  | @along _ _ p ht hp l =>
    rw [axiomFor_annotating ht]
    refine bind_ok_iff.mpr ⟨⟨p, l⟩, w, ?_, rfl⟩
    unfold annotationAlong
    dsimp only
    rw [if_pos hp]
    rfl
  | literal ht hv h =>
    rw [axiomFor_annotating ht]
    refine bind_ok_iff.mpr ⟨_, _, ?_, rfl⟩
    unfold annotationAlong
    split
    next => cases hv
    next =>
      rw [if_pos hv]
      exact bind_ok_iff.mpr ⟨_, _, rfl, h⟩

/-- **A rule is what the compilation of a value does**, where it ends with anything. -/
theorem axiomFor_ok_iff : axiomFor (.entity m e) ontology maker tag value env w = (.ok r, w') ↔
    Rule ontology maker env m e tag value w r w' := ⟨Rule.of_run, Rule.run⟩

/-! ## All values -/

variable {vs : List (FrameTag × Term)} {rs : List (Option Axiom)} {frames : FrameMap}

/-- Each value in a row has been compiled by the rule of its tag. -/
theorem Compiled.exists_rule {v : Term} (h : Compiled ontology maker env m e vs w rs w') (hv : (tag, v) ∈ vs) :
    ∃ r ∈ rs, ∃ w₁ w₂, Rule ontology maker env m e tag v w₁ r w₂ := by
  induction h with
  | nil => cases hv
  | cons hrule _ ih =>
    rcases List.mem_cons.mp hv with heq | hv
    · cases heq
      exact ⟨_, List.mem_cons_self, _, _, hrule⟩
    · obtain ⟨r, hr, hrule⟩ := ih hv
      exact ⟨r, List.mem_cons_of_mem _ hr, hrule⟩

/-- Each axiom that has been made has been made by the rule of some tag. -/
theorem Compiled.exists_rule_of_mem {a : Axiom} (h : Compiled ontology maker env m e vs w rs w') (ha : some a ∈ rs) :
    ∃ tag v w₁ w₂, Rule ontology maker env m e tag v w₁ (some a) w₂ := by
  induction h with
  | nil => cases ha
  | cons hrule _ ih =>
    rcases List.mem_cons.mp ha with heq | ha
    · exact ⟨_, _, _, _, heq ▸ hrule⟩
    · exact ih ha

/-- No rule makes a declaration. -/
theorem Rule.kind_ne_declaration {a : Axiom} (h : Rule ontology maker env m e tag value w (some a) w') :
    a.kind ≠ .declaration := by
  cases h with
  | relating ht =>
    cases tag
    case superproperty =>
      obtain ⟨k, iri⟩ := e
      cases k <;> cases ht <;> nofun
    all_goals cases ht <;> nofun
  | grouping ht => cases tag <;> cases ht <;> nofun
  | @characteristic _ c => cases c <;> nofun
  | @fact _ _ _ _ negated => cases negated <;> nofun
  | note | along | literal => nofun

/-- Values are compiled in a row, each by the rule of its tag. -/
theorem row_ok_iff :
    vs.mapM (fun v => axiomFor (.entity m e) ontology maker v.1 v.2) env w = (.ok rs, w') ↔
      Compiled ontology maker env m e vs w rs w' := by
  induction vs generalizing w rs with
  | nil =>
    rw [List.mapM_nil, pure_ok_iff]
    constructor
    · rintro ⟨rfl, rfl⟩
      exact .nil _
    · rintro ⟨⟩
      exact ⟨rfl, rfl⟩
  | cons v vs ih =>
    rw [List.mapM_cons, bind_ok_iff]
    constructor
    · rintro ⟨r, w₁, hv, h⟩
      obtain ⟨rs, w₂, hvs, h⟩ := bind_ok h
      cases h
      exact .cons (axiomFor_ok_iff.mp hv) (ih.mp hvs)
    · intro h
      cases h with
      | cons h hrest => exact ⟨_, _, axiomFor_ok_iff.mpr h, bind_ok_iff.mpr ⟨_, _, ih.mpr hrest, rfl⟩⟩

/-- **The values of frames in one shape**, tag by tag. -/
def inTurn (frames : FrameMap) (tags : List FrameTag) : List (FrameTag × Term) :=
  tags.flatMap fun tag => (frames.valuesOf (.ofTag tag)).map (tag, ·)

/-- Frames in one shape are compiled as one row of values. -/
theorem compileFrames_eq (owner ontology : Term) (maker : Nat) (frames : FrameMap) :
    compileFrames owner ontology maker frames = (do
      let rs ← (inTurn frames FrameTag.all).mapM fun v => axiomFor owner ontology maker v.1 v.2
      return .declaration owner :: rs.filterMap id) := by
  have row : ∀ tags : List FrameTag, List.flatten <$> tags.mapM (axiomsFor owner ontology maker frames) =
      List.filterMap id <$> (inTurn frames tags).mapM fun v => axiomFor owner ontology maker v.1 v.2 := by
    intro tags
    induction tags with
    | nil => rfl
    | cons tag tags ih =>
      have hrow : inTurn frames (tag :: tags) =
        (frames.valuesOf (.ofTag tag)).map (tag, ·) ++ inTurn frames tags := rfl
      calc List.flatten <$> (tag :: tags).mapM (axiomsFor owner ontology maker frames)
        _ = (do
            let as ← axiomsFor owner ontology maker frames tag
            (as ++ ·) <$> (List.flatten <$> tags.mapM (axiomsFor owner ontology maker frames))) := by
          simp only [List.mapM_cons, map_eq_pure_bind, bind_assoc, pure_bind, List.flatten_cons]
        _ = (do
            let as ← axiomsFor owner ontology maker frames tag
            (as ++ ·) <$> (List.filterMap id <$>
              (inTurn frames tags).mapM fun v => axiomFor owner ontology maker v.1 v.2)) := by rw [ih]
        _ = _ := by
          rw [hrow, List.mapM_append, List.mapM_map]
          simp only [axiomsFor, map_eq_pure_bind, bind_assoc, pure_bind, List.filterMap_append]
          rfl
  have h := congrArg (List.cons (.declaration owner) <$> ·) (row FrameTag.all)
  simpa only [compileFrames, map_eq_pure_bind, bind_assoc, pure_bind] using h

/-- **What is compiled of frames in one shape**: the declaration, and what the rules make of the values in turn. -/
theorem compileFrames_ok_iff {as : List Axiom} :
    compileFrames (.entity m e) ontology maker frames env w = (.ok as, w') ↔
      ∃ rs, Compiled ontology maker env m e (inTurn frames FrameTag.all) w rs w' ∧
        as = .declaration (.entity m e) :: rs.filterMap id := by
  rw [compileFrames_eq, bind_ok_iff]
  constructor
  · rintro ⟨rs, w₁, h, hpure⟩
    obtain ⟨rfl, rfl⟩ := pure_ok_iff.mp hpure
    exact ⟨rs, row_ok_iff.mp h, rfl⟩
  · rintro ⟨rs, h, rfl⟩
    exact ⟨rs, w', row_ok_iff.mpr h, rfl⟩

/-- Only the values that frames have for each tag matter. -/
theorem compileFrames_congr {frames' : FrameMap}
    (h : ∀ tag, frames'.valuesOf (.ofTag tag) = frames.valuesOf (.ofTag tag)) (owner : Term) :
    compileFrames owner ontology maker frames' = compileFrames owner ontology maker frames := by
  have haxioms : axiomsFor owner ontology maker frames' = axiomsFor owner ontology maker frames := by
    funext tag
    rw [axiomsFor, axiomsFor, h]
  rw [compileFrames, compileFrames, haxioms]

end

/-! ## The tags -/

/-- A schema lets an entity have a tag: a schema that is given holds the tag, and if none is given the kind of the
entity takes it. -/
def Admits (e : Entity) (env : Env) (w : World) (schema : Term) (tag : FrameTag) : Prop :=
  match schema with
  | .null => tag ∈ FrameTag.allowed e.kind
  | container => contains container (.ofTag tag) env w = (.ok true, w)

/-- Each key that is written names a tag that the schema admits. -/
def AdmitsAll (e : Entity) (env : Env) (w : World) (schema : Term) (es : List (Term × Term)) : Prop :=
  ∀ f ∈ es, ∃ tag, FrameTag.ofTerm? f.1 = some tag ∧ Admits e env w schema tag

section
variable {schema : Term} {env : Env} {m : Nat} {e : Entity} {w w' : World} {explicit defaults : List (Term × Term)}

theorem admits_null {tag : FrameTag} : Admits e env w .null tag ↔ tag ∈ FrameTag.allowed e.kind := Iff.rfl

theorem exists_given (schema : Term) (env : Env) (m : Nat) (e : Entity) (w : World) :
    ∃ s, Schema.given (.entity m e) schema env w = (.ok s, w) ∧
      ∀ tag, s.allows tag env w = (.ok true, w) ↔ Admits e env w schema tag := by
  cases schema
  case null =>
    refine ⟨.ofKind e.kind, rfl, fun tag => pure_ok_iff.trans ?_⟩
    rw [eq_comm, List.contains_iff_mem, and_iff_left rfl]
    rfl
  all_goals exact ⟨.within _, rfl, fun _ => Iff.rfl⟩

theorem refuseTag_ne_ok {key : Term} {u : Unit} : refuseTag (.entity m e) key env w ≠ (.ok u, w') := by
  intro h
  obtain ⟨_, _, -, h⟩ := bind_ok h
  obtain ⟨_, _, -, h⟩ := bind_ok h
  cases h

theorem checkTag_ok_iff {s : Schema} {key : Term} : checkTag (.entity m e) s key env w = (.ok (), w) ↔
    ∃ tag, key = .ofTag tag ∧ s.allows tag env w = (.ok true, w) := by
  constructor
  · intro h
    unfold checkTag at h
    split at h
    next tag =>
      obtain ⟨b, w₁, hallows, h⟩ := bind_ok h
      obtain rfl := (allows_reads s tag).eq_of_ok hallows
      cases b with
      | true => exact ⟨tag, rfl, hallows⟩
      | false => exact absurd h refuseTag_ne_ok
    next => exact absurd h refuseTag_ne_ok
  · rintro ⟨tag, rfl, h⟩
    exact bind_ok_iff.mpr ⟨true, w, h, rfl⟩

theorem checkTags_ok_iff {frames : FrameMap} : checkTags (.entity m e) schema frames env w = (.ok (), w') ↔
    w' = w ∧ ∀ f ∈ frames, ∃ tag, f.1 = .ofTag tag ∧ Admits e env w schema tag := by
  obtain ⟨s, hs, hallows⟩ := exists_given schema env m e w
  have hrun : checkTags (.entity m e) schema frames env w =
      (frames.forM fun f => checkTag (.entity m e) s f.1) env w := by
    rw [checkTags, run_bind, hs]
  rw [hrun, Reads.forM_ok_iff (f := fun f : Term × List Term => checkTag (.entity m e) s f.1)
    fun f => checkTag_reads _ s f.1]
  simp only [checkTag_ok_iff, hallows]

/-- Frames are checked where the schema admits all that is written. -/
theorem checked_ok_iff {frames : FrameMap} : checked (.entity m e) explicit defaults schema env w = (.ok frames, w') ↔
    (w' = w ∧ AdmitsAll e env w schema (defaults ++ explicit)) ∧ frames = FrameMap.merge defaults explicit := by
  rw [AdmitsAll, ← FrameMap.forall_keys_merge, ← checkTags_ok_iff (m := m)]
  unfold checked
  rw [bind_ok_iff]
  constructor
  · rintro ⟨_, w₁, hcheck, h⟩
    obtain ⟨rfl, rfl⟩ := pure_ok_iff.mp h
    exact ⟨hcheck, rfl⟩
  · rintro ⟨hcheck, rfl⟩
    exact ⟨(), w', hcheck, rfl⟩

end

/-! ## Compilation -/

/-- **The values of two sets of frames in turn**: tag by tag in the order of the tags, and for each tag those that the
defaults give it before the explicit ones. -/
def sequence (defaults explicit : List (Term × Term)) : List (FrameTag × Term) :=
  FrameTag.all.flatMap fun tag => (FrameMap.given tag defaults ++ FrameMap.given tag explicit).map (tag, ·)

/-- The values of the defaults are in turn. -/
theorem mem_sequence {defaults explicit : List (Term × Term)} {tag : FrameTag} {v : Term}
    (h : v ∈ FrameMap.given tag defaults) : (tag, v) ∈ sequence defaults explicit :=
  List.mem_flatMap.mpr ⟨tag, FrameTag.mem_all tag, List.mem_map.mpr ⟨v, List.mem_append_left _ h, rfl⟩⟩

theorem inTurn_merge (defaults explicit : List (Term × Term)) :
    inTurn (FrameMap.merge defaults explicit) FrameTag.all = sequence defaults explicit := by
  simp only [inTurn, sequence, FrameMap.valuesOf_merge]

section
variable {schema ontology : Term} {maker : Nat} {env : Env} {m : Nat} {e : Entity} {w w' : World}
  {explicit defaults explicit' defaults' : List (Term × Term)}

theorem compile_ok_iff {as : List Axiom} :
    compile (.entity m e) explicit defaults schema ontology maker env w = (.ok as, w') ↔
      AdmitsAll e env w schema (defaults ++ explicit) ∧
        ∃ rs, Compiled ontology maker env m e (sequence defaults explicit) w rs w' ∧
          as = .declaration (.entity m e) :: rs.filterMap id := by
  rw [compile, bind_ok_iff]
  constructor
  · rintro ⟨frames, w₁, hchecked, h⟩
    obtain ⟨⟨rfl, hadmits⟩, rfl⟩ := checked_ok_iff.mp hchecked
    rw [← inTurn_merge]
    exact ⟨hadmits, compileFrames_ok_iff.mp h⟩
  · rintro ⟨hadmits, h⟩
    rw [← inTurn_merge] at h
    exact ⟨_, w, checked_ok_iff.mpr ⟨⟨rfl, hadmits⟩, rfl⟩, compileFrames_ok_iff.mpr h⟩

/-- What is compiled begins with the declaration of the entity, and holds no other. -/
theorem compile_ok {as : List Axiom} (h : compile (.entity m e) explicit defaults schema ontology maker env w = (.ok as, w')) :
    ∃ rest, as = .declaration (.entity m e) :: rest ∧ ∀ a ∈ rest, a.kind ≠ .declaration := by
  obtain ⟨-, rs, hrs, rfl⟩ := compile_ok_iff.mp h
  refine ⟨_, rfl, fun a ha => ?_⟩
  obtain ⟨r, hr, heq⟩ := List.mem_filterMap.mp ha
  cases show r = some a from heq
  obtain ⟨_, _, _, _, hrule⟩ := hrs.exists_rule_of_mem hr
  exact hrule.kind_ne_declaration

/-- Frames that are admitted and give each tag the same values compile to the same. -/
theorem compile_congr (hadmits : AdmitsAll e env w schema (defaults ++ explicit))
    (hadmits' : AdmitsAll e env w schema (defaults' ++ explicit'))
    (h : ∀ tag, FrameMap.given tag defaults' ++ FrameMap.given tag explicit' =
      FrameMap.given tag defaults ++ FrameMap.given tag explicit) :
    compile (.entity m e) explicit' defaults' schema ontology maker env w =
      compile (.entity m e) explicit defaults schema ontology maker env w := by
  have hchecked := (checked_ok_iff (m := m)).mpr ⟨⟨rfl, hadmits⟩, rfl⟩
  have hchecked' := (checked_ok_iff (m := m)).mpr ⟨⟨rfl, hadmits'⟩, rfl⟩
  rw [compile, compile, run_bind, run_bind, hchecked, hchecked']
  have hvalues : ∀ tag, (FrameMap.merge defaults' explicit').valuesOf (.ofTag tag) =
      (FrameMap.merge defaults explicit).valuesOf (.ofTag tag) := by
    intro tag
    rw [FrameMap.valuesOf_merge, FrameMap.valuesOf_merge, h]
  dsimp only
  rw [compileFrames_congr hvalues]

end

/-- **Compilation meets its specification.** It ends with axioms exactly where the schema admits all tags and the rules
make something of all values in turn, and then the axioms are the declaration of the entity and what the rules have
made. And only the values that the frames give each tag matter. -/
theorem compile_spec (defaults explicit : List (Term × Term)) (schema ontology : Term) (maker : Nat) (env : Env)
    (m : Nat) (e : Entity) (w : World) :
    (∀ as w', compile (.entity m e) explicit defaults schema ontology maker env w = (.ok as, w') ↔
      AdmitsAll e env w schema (defaults ++ explicit) ∧
        ∃ rs, Compiled ontology maker env m e (sequence defaults explicit) w rs w' ∧
          as = .declaration (.entity m e) :: rs.filterMap id) ∧
    ∀ defaults' explicit', AdmitsAll e env w schema (defaults ++ explicit) →
      AdmitsAll e env w schema (defaults' ++ explicit') →
      (∀ tag, FrameMap.given tag defaults' ++ FrameMap.given tag explicit' =
        FrameMap.given tag defaults ++ FrameMap.given tag explicit) →
      compile (.entity m e) explicit' defaults' schema ontology maker env w =
        compile (.entity m e) explicit defaults schema ontology maker env w :=
  ⟨fun _ _ => compile_ok_iff, fun _ _ hadmits hadmits' h => compile_congr hadmits hadmits' h⟩

/-- Superclasses under two spellings of one tag, nested and with a null. -/
def spelled : List (Term × Term) × List (Term × Term) :=
  ([(.text "label", .text "first")],
    [(.text ":SubClass", .list [.text "b", .tuple [.null, .entity 0 ⟨.cls, "c"⟩]]),
      (.text "label", .null), (.keyword (.tag .equivalent), .entity 0 ⟨.cls, "a"⟩),
      (.keyword (.tag .subclass), .entity 0 ⟨.cls, "d"⟩)])

/-- The same values, some of which are defaults now. -/
def respelled : List (Term × Term) × List (Term × Term) :=
  ([(.text "EQUIVALENT", .list [.null]), (.text "subclass", .text "b")],
    [(.text "equivalent", .entity 0 ⟨.cls, "a"⟩), (.text ":label", .list [.text "first"]),
      (.text "subclass", .tuple [.entity 0 ⟨.cls, "c"⟩, .entity 0 ⟨.cls, "d"⟩])])

theorem compile_spec_respelled :
    let a : Term := .entity 0 ⟨.cls, "a"⟩
    let run := fun frames : List (Term × Term) × List (Term × Term) =>
      compile a frames.2 frames.1 .null (.handle (.ontology 0)) 0 .plain .single
    run respelled = run spelled ∧ (run respelled).1 = .ok [.declaration a,
      .subclassOf a (.entity 0 ⟨.cls, "o#b"⟩), .subclassOf a (.entity 0 ⟨.cls, "c"⟩),
      .subclassOf a (.entity 0 ⟨.cls, "d"⟩),
      .annotationAssertion (.iri "a") (.note (Factory.label 0) ⟨"first", some (.ofText "en"), none⟩)] := by
  intro a run
  have hadmits : AdmitsAll ⟨.cls, "a"⟩ .plain .single .null (spelled.1 ++ spelled.2) := by
    simp only [AdmitsAll, spelled, List.cons_append, List.nil_append, List.forall_mem_cons]
    refine ⟨⟨.label, ?_, ?_⟩, ⟨.subclass, ?_, ?_⟩, ⟨.label, ?_, ?_⟩, ⟨.equivalent, ?_, ?_⟩, ⟨.subclass, ?_, ?_⟩, nofun⟩
    all_goals first | exact admits_null.mpr (by decide) | decide +kernel
  have hadmits' : AdmitsAll ⟨.cls, "a"⟩ .plain .single .null (respelled.1 ++ respelled.2) := by
    simp only [AdmitsAll, respelled, List.cons_append, List.nil_append, List.forall_mem_cons]
    refine ⟨⟨.equivalent, ?_, ?_⟩, ⟨.subclass, ?_, ?_⟩, ⟨.equivalent, ?_, ?_⟩, ⟨.label, ?_, ?_⟩, ⟨.subclass, ?_, ?_⟩,
      nofun⟩
    all_goals first | exact admits_null.mpr (by decide) | decide +kernel
  have hgiven : ∀ tag, FrameMap.given tag respelled.1 ++ FrameMap.given tag respelled.2 =
      FrameMap.given tag spelled.1 ++ FrameMap.given tag spelled.2 := by
    intro tag
    cases tag <;> rfl
  have hsame := (compile_spec spelled.1 spelled.2 .null (.handle (.ontology 0)) 0 .plain 0 ⟨.cls, "a"⟩ .single).2
    respelled.1 respelled.2 hadmits hadmits' hgiven
  exact ⟨hsame, by rfl⟩

end Authoring.Compile
