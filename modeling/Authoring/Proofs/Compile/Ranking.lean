import Authoring.Proofs.Compile.Rules
import Authoring.Proofs.Discerning

/-!
# Which fault a compilation ends with

Many things can be wrong with frames at once: keys that name no tag that is allowed, and values of which a rule makes
nothing. `Compile.Compiles` ranks them. The keys come first, whatever their values: the first bad one, in the order in
which the keys are written and the defaults before the explicit ones, is reported, and nothing has been read then. If all
keys are good, the values are read in turn (`Compile.sequence`), and the first of which nothing can be made gives its
fault; `Compile.Refusal` says for each tag which values these are, and what their faults. Otherwise there are axioms.

`Compile.compile_ranked` says that this is what a compilation does, with any producers. A producer may raise any fault
of its own, also one that reports a frame; that such a fault tells of a bad key is said where producers raise none
(`Env.Discerning`).

**What carries the proof.** Equal keys name the same tag, so joining the frames keeps the first bad key the first one
(`FrameMap.find?_keys_merge`), and frames are compiled as one row of values (`Compile.compileFrames_eq`).
-/

namespace Authoring.Compile

open Act

/-! ## One value -/

section
variable (ontology : Term) (maker : Nat) (env : Env) (e : Entity)

/-- A reference denotes nothing of a kind: reading it in one world ends with a fault in the other. -/
def Misses (t : Term) (kind : EntityKind) (w : World) (f : Fault) (w' : World) : Prop :=
  Reference.resolve t kind ontology maker env w = (.error f, w')

/-- The fault of a value that is not what is expected. -/
def unexpected (expected : String) (v : Term) (w : World) : Fault :=
  .invalidReference expected v ((w.settle v).inspect w.names)

/-- **What the rules refuse**: the values of a tag of which its rule makes nothing, in which world, and the fault and the
world in which this ends. -/
inductive Refusal : FrameTag → Term → World → Fault → World → Prop
  | relating {tag : FrameTag} {kind : EntityKind} {make : Term → Term → Axiom} {v : Term} {f : Fault} {w w' : World}
    (ht : Compile.relating e.kind tag = some (kind, make)) (h : Misses ontology maker env v kind w f w') :
    Refusal tag v w f w'
  | grouping {tag : FrameTag} {kind : EntityKind} {make : List Term → Axiom} {v : Term} {f : Fault} {w w' : World}
    (ht : Compile.grouping tag = some (kind, make)) (h : Misses ontology maker env v kind w f w') : Refusal tag v w f w'
  /-- What can change can be no member of a set. -/
  | unstable {tag : FrameTag} {kind : EntityKind} {make : List Term → Axiom} {v t : Term} {w w' : World}
    (ht : Compile.grouping tag = some (kind, make)) (h : Refers ontology maker env v kind w t w')
    (hs : t.isStable = false) : Refusal tag v w .wrongSort w'
  | characteristic {v : Term} (h : Characteristic.ofTerm? v = none) (w : World) :
    Refusal .characteristic v w (.unknownCharacteristic v ((w.settle v).inspect w.names)) w
  | noFact {v : Term} (h : ∀ p t negated, v ≠ .fact p t negated) (w : World) :
    Refusal .fact v w (unexpected "fact" v w) w
  | property {p t : Term} {negated : Bool} {f : Fault} {w w' : World}
    (h : Misses ontology maker env p .objectProperty w f w') : Refusal .fact (.fact p t negated) w f w'
  | target {p t q : Term} {negated : Bool} {f : Fault} {w w₁ w' : World}
    (hp : Refers ontology maker env p .objectProperty w q w₁) (ht : Misses ontology maker env t .individual w₁ f w') :
    Refusal .fact (.fact p t negated) w f w'
  | noNote {v : Term} (h : ∀ p l, v ≠ .note p l) (w : World) : Refusal .note v w (unexpected "annotation" v w) w
  | elsewhere {tag : FrameTag} {n : Nat} {property : Entity} {p : Term}
    (ht : annotating maker tag = some (.entity n property)) (hp : p.equals (.entity n property) = false) (l : Literal)
    (w : World) : Refusal tag (.note p l) w (unexpected ("annotation along " ++ property.iri) (.note p l) w) w
  | noText {tag : FrameTag} {property v : Term} (ht : annotating maker tag = some property) (hn : ∀ p l, v ≠ .note p l)
    (hv : v.content? = none) (w : World) : Refusal tag v w (unexpected "annotation literal" v w) w
  | literal {tag : FrameTag} {property v : Term} {f : Fault} {w w' : World} (ht : annotating maker tag = some property)
    (hv : v.content?.isSome = true)
    (h : Factory.note property v (.text w.settings.language) env w = (.error f, w')) : Refusal tag v w f w'

end

section
variable {ontology : Term} {maker : Nat} {env : Env} {m : Nat} {e : Entity} {tag : FrameTag} {value : Term}
  {w w' : World} {f : Fault}

theorem Refusal.of_relating {kind : EntityKind} {make : Term → Term → Axiom}
    (ht : Compile.relating e.kind tag = some (kind, make))
    (h : axiomFor (.entity m e) ontology maker tag value env w = (.error f, w')) :
    Refusal ontology maker env e tag value w f w' := by
  rw [axiomFor_relating ht] at h
  rcases bind_error_iff.mp h with h | ⟨_, _, _, h⟩
  · exact .relating ht h
  · cases h

theorem Refusal.of_grouping {kind : EntityKind} {make : List Term → Axiom}
    (ht : Compile.grouping tag = some (kind, make))
    (h : axiomFor (.entity m e) ontology maker tag value env w = (.error f, w')) :
    Refusal ontology maker env e tag value w f w' := by
  rw [axiomFor_grouping ht] at h
  rcases bind_error_iff.mp h with h | ⟨t, w₁, hr, h⟩
  · exact .grouping ht h
  · by_cases hself : ∃ n, t = .entity n e
    · obtain ⟨n, rfl⟩ := hself
      rw [unlessSelf_itself] at h
      cases h
    · rw [unlessSelf_other fun n heq => hself ⟨n, heq⟩] at h
      cases hstable : t.isStable with
      | true =>
        rw [run_bind, run_requireStable hstable] at h
        cases h
      | false =>
        rw [run_bind, run_requireStable_of_not hstable] at h
        cases h
        exact .unstable ht hr hstable

/-- The tags that annotate along a property of their own do so along an entity. -/
theorem exists_entity_of_annotating {property : Term} (ht : annotating maker tag = some property) :
    ∃ n p, property = .entity n p := by
  cases tag <;> cases ht <;> exact ⟨_, _, rfl⟩

theorem Refusal.of_annotating {property : Term} (ht : annotating maker tag = some property)
    (h : axiomFor (.entity m e) ontology maker tag value env w = (.error f, w')) :
    Refusal ontology maker env e tag value w f w' := by
  rw [axiomFor_annotating ht, bind_error_iff] at h
  rcases h with h | ⟨_, _, _, h⟩
  · unfold annotationAlong at h
    split at h
    next p l =>
      split at h
      next => cases h
      next hp =>
        obtain ⟨n, property, rfl⟩ := exists_entity_of_annotating ht
        cases h
        exact .elsewhere ht (Bool.eq_false_iff.mpr hp) l w
    next hn =>
      split at h
      next hv =>
        rcases bind_error_iff.mp h with h | ⟨_, _, hw, h⟩
        · cases h
        · cases hw
          exact .literal ht hv h
      next hv =>
        cases h
        exact .noText ht hn (Option.not_isSome_iff_eq_none.mp hv) w
  · cases h

/-- The compilation of a value fails where the rule of the tag refuses it. -/
theorem Refusal.of_run (h : axiomFor (.entity m e) ontology maker tag value env w = (.error f, w')) :
    Refusal ontology maker env e tag value w f w' := by
  cases tag
  case name => cases h
  case subclass | domain | range | inverse | type => exact .of_relating rfl h
  case superproperty =>
    obtain ⟨kind, make, ht⟩ := exists_relating_superproperty e.kind
    exact .of_relating ht h
  case equivalent | disjoint | same | different => exact .of_grouping rfl h
  case characteristic =>
    unfold axiomFor at h
    dsimp only at h
    cases hc : Characteristic.ofTerm? value with
    | none =>
      rw [hc] at h
      cases h
      exact .characteristic hc w
    | some c =>
      rw [hc] at h
      cases h
  case fact =>
    rcases bind_error_iff.mp h with h | ⟨_, _, _, h⟩
    · unfold relation at h
      split at h
      next p t negated =>
        rcases bind_error_iff.mp h with h | ⟨q, w₁, hp, h⟩
        · exact .property h
        · rcases bind_error_iff.mp h with h | ⟨_, _, _, h⟩
          · exact .target hp h
          · cases h
      next hn =>
        cases h
        exact .noFact hn w
    · cases h
  case note =>
    unfold axiomFor at h
    dsimp only at h
    split at h
    next => cases h
    next hn =>
      cases h
      exact .noNote hn w
  case comment | label => exact .of_annotating rfl h

/-- What the rule of the tag refuses is not compiled. -/
theorem Refusal.run (h : Refusal ontology maker env e tag value w f w') :
    axiomFor (.entity m e) ontology maker tag value env w = (.error f, w') := by
  cases h with
  | relating ht h =>
    rw [axiomFor_relating ht]
    exact bind_error_iff.mpr (.inl h)
  | grouping ht h =>
    rw [axiomFor_grouping ht]
    exact bind_error_iff.mpr (.inl h)
  | unstable ht h hs =>
    rw [axiomFor_grouping ht]
    refine bind_error_iff.mpr (.inr ⟨_, _, h, ?_⟩)
    rw [unlessSelf_other, run_bind, run_requireStable_of_not hs]
    rintro n rfl
    cases hs
  | characteristic h =>
    unfold axiomFor
    dsimp only
    rw [h]
    rfl
  | noFact h =>
    refine bind_error_iff.mpr (.inl ?_)
    unfold relation
    split
    next => exact absurd rfl (h _ _ _)
    next => rfl
  | property h => exact bind_error_iff.mpr (.inl (bind_error_iff.mpr (.inl h)))
  | target hp ht =>
    refine bind_error_iff.mpr (.inl (bind_error_iff.mpr (.inr ⟨_, _, hp, ?_⟩)))
    exact bind_error_iff.mpr (.inl ht)
  | noNote h =>
    unfold axiomFor
    dsimp only
    split
    next => exact absurd rfl (h _ _)
    next => rfl
  | elsewhere ht hp l =>
    rw [axiomFor_annotating ht]
    refine bind_error_iff.mpr (.inl ?_)
    unfold annotationAlong
    dsimp only
    rw [if_neg (Bool.eq_false_iff.mp hp)]
    rfl
  | noText ht hn hv =>
    rw [axiomFor_annotating ht]
    refine bind_error_iff.mpr (.inl ?_)
    unfold annotationAlong
    split
    next => exact absurd rfl (hn _ _)
    next =>
      rw [if_neg (by simp [hv])]
      rfl
  | literal ht hv h =>
    rw [axiomFor_annotating ht]
    refine bind_error_iff.mpr (.inl ?_)
    unfold annotationAlong
    split
    next => cases hv
    next =>
      rw [if_pos hv]
      exact bind_error_iff.mpr (.inr ⟨_, _, rfl, h⟩)

/-- **A refusal is how the compilation of a value fails.** -/
theorem axiomFor_error_iff : axiomFor (.entity m e) ontology maker tag value env w = (.error f, w') ↔
    Refusal ontology maker env e tag value w f w' := ⟨Refusal.of_run, Refusal.run⟩

/-- Frames in one shape fail with the first value in turn that is refused. -/
theorem compileFrames_error_iff {frames : FrameMap} :
    compileFrames (.entity m e) ontology maker frames env w = (.error f, w') ↔
      ∃ before tag value after rs w₁, inTurn frames FrameTag.all = before ++ (tag, value) :: after ∧
        Compiled ontology maker env m e before w rs w₁ ∧ Refusal ontology maker env e tag value w₁ f w' := by
  rw [compileFrames_eq, bind_error_iff, mapM_error_iff]
  constructor
  · rintro (⟨before, ⟨tag, value⟩, after, rs, w₁, hrow, hrs, h⟩ | ⟨_, _, _, h⟩)
    · exact ⟨before, tag, value, after, rs, w₁, hrow, row_ok_iff.mp hrs, axiomFor_error_iff.mp h⟩
    · cases h
  · rintro ⟨before, tag, value, after, rs, w₁, hrow, hrs, h⟩
    exact .inl ⟨before, (tag, value), after, rs, w₁, hrow, row_ok_iff.mpr hrs, axiomFor_error_iff.mpr h⟩

end

/-! ## The keys -/

/-- A key names a tag that the schema admits. -/
def Names (e : Entity) (env : Env) (w : World) (schema k : Term) : Prop :=
  ∃ tag, FrameTag.ofTerm? k = some tag ∧ Admits e env w schema tag

/-- A schema that is given can be asked about each tag. -/
def Answers (env : Env) (w : World) (schema : Term) : Prop :=
  schema = .null ∨ ∀ tag, ∃ b, contains schema (.ofTag tag) env w = (.ok b, w)

/-- The fault of a key that names no tag of the schema. It tells the tag, if there is one, and else the key. -/
def unknown (e : Entity) (w : World) (k : Term) : Fault :=
  .unknownFrame (FrameMap.keyOf k) ((w.settle (FrameMap.keyOf k)).display w.names) (some e.kind.word)

section
variable {schema : Term} {env : Env} {m : Nat} {e : Entity} {w w' : World} {explicit defaults : List (Term × Term)}
  {f : Fault}

theorem allows_answers (hschema : Answers env w schema) {s : Schema}
    (hs : Schema.given (.entity m e) schema env w = (.ok s, w)) (tag : FrameTag) :
    ∃ b, s.allows tag env w = (.ok b, w) := by
  rcases hschema with rfl | hschema
  · cases hs
    exact ⟨_, rfl⟩
  · cases schema
    case null =>
      cases hs
      exact ⟨_, rfl⟩
    all_goals
      cases hs
      exact hschema tag

/-- A key in its one form passes the check exactly if it names a tag that the schema admits. -/
theorem checkTag_names_iff {s : Schema} (hallows : ∀ tag, s.allows tag env w = (.ok true, w) ↔ Admits e env w schema tag)
    {key : Term} (hk : FrameMap.keyOf key = key) :
    checkTag (.entity m e) s key env w = (.ok (), w) ↔ Names e env w schema key := by
  rw [checkTag_ok_iff]
  refine exists_congr fun tag => and_congr ?_ (hallows tag)
  constructor
  · rintro rfl
    rfl
  · exact fun h => hk.symm.trans (FrameMap.keyOf_of_tag h)

/-- Any other key is reported. -/
theorem checkTag_of_not_names {s : Schema} (hs : ∀ tag, ∃ b, s.allows tag env w = (.ok b, w))
    (hallows : ∀ tag, s.allows tag env w = (.ok true, w) ↔ Admits e env w schema tag) {key : Term}
    (hk : FrameMap.keyOf key = key) (hbad : ¬Names e env w schema key) :
    checkTag (.entity m e) s key env w = (.error (unknown e w key), w) := by
  unfold checkTag unknown
  rw [hk]
  split
  next tag =>
    obtain ⟨b, hb⟩ := hs tag
    rw [run_bind, hb]
    cases b with
    | true => exact (hbad ⟨tag, rfl, (hallows tag).mp hb⟩).elim
    | false => rfl
  next => rfl

theorem names_keyOf {k : Term} : Names e env w schema (FrameMap.keyOf k) ↔ Names e env w schema k := by
  unfold Names
  rw [FrameMap.ofTerm?_keyOf]

theorem unknown_keyOf (k : Term) : unknown e w (FrameMap.keyOf k) = unknown e w k := by
  rw [unknown, FrameMap.keyOf_keyOf, unknown]

/-- The check of the tags fails with the first key that is not admitted. -/
theorem checkTags_error_iff (hschema : Answers env w schema) {frames : FrameMap}
    (hkeys : ∀ c ∈ frames, FrameMap.keyOf c.1 = c.1) :
    checkTags (.entity m e) schema frames env w = (.error f, w') ↔
      w' = w ∧ ∃ before c after, frames = before ++ c :: after ∧ (∀ b ∈ before, Names e env w schema b.1) ∧
        ¬Names e env w schema c.1 ∧ f = unknown e w c.1 := by
  obtain ⟨s, hs, hallows⟩ := exists_given schema env m e w
  have hanswers := allows_answers hschema hs
  have hrun : checkTags (.entity m e) schema frames env w =
      (frames.forM fun c => checkTag (.entity m e) s c.1) env w := by
    rw [checkTags, run_bind, hs]
  rw [hrun, Reads.forM_error_iff (f := fun c : Term × List Term => checkTag (.entity m e) s c.1)
    fun c => checkTag_reads _ s c.1]
  refine and_congr_right fun _ => exists_congr fun before => exists_congr fun c => exists_congr fun after =>
    and_congr_right fun hsplit => ?_
  have hmem : ∀ b ∈ before ++ c :: after, FrameMap.keyOf b.1 = b.1 := hsplit ▸ hkeys
  have hc : FrameMap.keyOf c.1 = c.1 := hmem c (by simp)
  refine and_congr (forall₂_congr fun b hb => checkTag_names_iff hallows (hmem b (by simp [hb]))) ?_
  constructor
  · intro h
    have hnot : ¬Names e env w schema c.1 := by
      intro hnames
      rw [(checkTag_names_iff hallows hc).mpr hnames] at h
      cases h
    rw [checkTag_of_not_names hanswers hallows hc hnot] at h
    cases h
    exact ⟨hnot, rfl⟩
  · rintro ⟨hnot, rfl⟩
    exact checkTag_of_not_names hanswers hallows hc hnot

/-- Written frames are refused for the first key that is not admitted, in the order in which the keys are written. -/
theorem checked_error_iff (hschema : Answers env w schema) :
    checked (.entity m e) explicit defaults schema env w = (.error f, w') ↔
      w' = w ∧ ∃ before k v after, defaults ++ explicit = before ++ (k, v) :: after ∧
        AdmitsAll e env w schema before ∧ ¬Names e env w schema k ∧ f = unknown e w k := by
  have hequal : ∀ k j, (k == j) = true → (Names e env w schema k ↔ Names e env w schema j) :=
    fun k j h => by rw [Names, Names, FrameTag.ofTerm?_of_beq h]
  have hfirst := FrameMap.exists_first_merge hequal (fun _ => names_keyOf) defaults explicit
  have hcheck := @checkTags_error_iff schema env m e w w' f hschema _ (FrameMap.IsNormal.merge defaults explicit).keys
  unfold checked
  rw [bind_error_iff]
  constructor
  · rintro (h | ⟨_, _, -, h⟩)
    · obtain ⟨rfl, before, c, after, hsplit, hbefore, hc, rfl⟩ := hcheck.mp h
      obtain ⟨before, ⟨k, v⟩, after, hsplit, hbefore, hk, hkey⟩ :=
        (hfirst c.1).mp ⟨before, c, after, hsplit, hbefore, hc, rfl⟩
      exact ⟨rfl, before, k, v, after, hsplit, hbefore, hk, hkey ▸ unknown_keyOf k⟩
    · cases h
  · rintro ⟨rfl, before, k, v, after, hsplit, hbefore, hk, rfl⟩
    obtain ⟨before, c, after, hsplit, hbefore, hc, hkey⟩ :=
      (hfirst (FrameMap.keyOf k)).mpr ⟨before, (k, v), after, hsplit, hbefore, hk, rfl⟩
    exact .inl (hcheck.mpr ⟨rfl, before, c, after, hsplit, hbefore, hc, hkey ▸ (unknown_keyOf k).symm⟩)

/-- What a schema admits does not depend on where this is asked. -/
theorem admits_env (e : Entity) (env env' : Env) (w : World) (schema : Term) (tag : FrameTag) :
    Admits e env w schema tag ↔ Admits e env' w schema tag := by
  unfold Admits
  split
  · exact Iff.rfl
  · rw [Blind.contains schema _ env env']

/-- What can be gone through can be asked about each tag. -/
theorem answers_of_items {ts : List Term} (h : schema = .null ∨ schema = .tuple ts ∨ schema = .list ts ∨
    (∃ frozen, schema = .set frozen ts) ∨ ∃ es, schema = .map es) : Answers env w schema := by
  rcases h with rfl | rfl | rfl | ⟨frozen, rfl⟩ | ⟨es, rfl⟩
  · exact .inl rfl
  all_goals exact .inr fun tag => ⟨_, rfl⟩

end

/-! ## Compilation -/

section
variable (ontology : Term) (maker : Nat) (env : Env) (m : Nat) (e : Entity) (schema : Term)
  (defaults explicit : List (Term × Term)) (w : World)

/-- **How a compilation ends** that begins in a world. -/
inductive Compiles : Except Fault (List Axiom) → World → Prop
  /-- The first key that names no tag of the schema is reported, and nothing has been done. -/
  | unknown {before after : List (Term × Term)} {k v : Term} (keys : defaults ++ explicit = before ++ (k, v) :: after)
    (good : AdmitsAll e env w schema before) (bad : ¬Names e env w schema k) :
    Compiles (.error (Compile.unknown e w k)) w
  /-- The first value in turn that is refused gives its fault. -/
  | refused {before after : List (FrameTag × Term)} {tag : FrameTag} {v : Term} {rs : List (Option Axiom)} {w₁ : World}
    {f : Fault} {w' : World} (good : AdmitsAll e env w schema (defaults ++ explicit))
    (values : sequence defaults explicit = before ++ (tag, v) :: after)
    (made : Compiled ontology maker env m e before w rs w₁) (bad : Refusal ontology maker env e tag v w₁ f w') :
    Compiles (.error f) w'
  /-- The rules make something of all values. -/
  | made {rs : List (Option Axiom)} {w' : World} (good : AdmitsAll e env w schema (defaults ++ explicit))
    (made : Compiled ontology maker env m e (sequence defaults explicit) w rs w') :
    Compiles (.ok (.declaration (.entity m e) :: rs.filterMap id)) w'

end

section
variable {ontology schema : Term} {maker : Nat} {env : Env} {m : Nat} {e : Entity} {w w' : World}
  {explicit defaults : List (Term × Term)} {r : Except Fault (List Axiom)}

theorem compile_iff (hschema : Answers env w schema) :
    compile (.entity m e) explicit defaults schema ontology maker env w = (r, w') ↔
      Compiles ontology maker env m e schema defaults explicit w r w' := by
  cases r with
  | ok as =>
    rw [compile_ok_iff]
    constructor
    · rintro ⟨hadmits, rs, hrs, rfl⟩
      exact .made hadmits hrs
    · rintro ⟨⟩
      exact ⟨‹_›, _, ‹_›, rfl⟩
  | error f =>
    rw [compile, bind_error_iff, checked_error_iff hschema]
    constructor
    · rintro (⟨rfl, before, k, v, after, hkeys, hgood, hbad, rfl⟩ | ⟨frames, w₁, hchecked, h⟩)
      · exact .unknown hkeys hgood hbad
      · obtain ⟨⟨rfl, hadmits⟩, rfl⟩ := checked_ok_iff.mp hchecked
        obtain ⟨before, tag, v, after, rs, w₂, hvalues, hmade, hbad⟩ := compileFrames_error_iff.mp h
        rw [inTurn_merge] at hvalues
        exact .refused hadmits hvalues hmade hbad
    · intro h
      cases h with
      | unknown hkeys hgood hbad => exact .inl ⟨rfl, _, _, _, _, hkeys, hgood, hbad, rfl⟩
      | refused hadmits hvalues hmade hbad =>
        rw [← inTurn_merge] at hvalues
        exact .inr ⟨_, w, checked_ok_iff.mpr ⟨⟨rfl, hadmits⟩, rfl⟩,
          compileFrames_error_iff.mpr ⟨_, _, _, _, _, _, hvalues, hmade, hbad⟩⟩

/-- Where not all keys are admitted there is a first one that is not. -/
theorem exists_first_bad {es : List (Term × Term)} (h : ¬AdmitsAll e env w schema es) :
    ∃ before k v after, es = before ++ (k, v) :: after ∧ AdmitsAll e env w schema before ∧ ¬Names e env w schema k := by
  induction es with
  | nil => exact (h nofun).elim
  | cons f es ih =>
    by_cases hf : Names e env w schema f.1
    · obtain ⟨before, k, v, after, rfl, hgood, hbad⟩ := ih fun hes => h (List.forall_mem_cons.mpr ⟨hf, hes⟩)
      exact ⟨f :: before, k, v, after, rfl, List.forall_mem_cons.mpr ⟨hf, hgood⟩, hbad⟩
    · exact ⟨[], f.1, f.2, es, rfl, nofun, hf⟩

/-- A bad key is reported whatever the environment, the ontology and the factory are: nothing asks them. -/
theorem compile_unknown (hschema : Answers env w schema) (h : ¬AdmitsAll e env w schema (defaults ++ explicit))
    (ontology' : Term) (maker' : Nat) (env' : Env) :
    compile (.entity m e) explicit defaults schema ontology' maker' env' w =
      compile (.entity m e) explicit defaults schema ontology maker env w := by
  have hall : ∀ es, AdmitsAll e env' w schema es ↔ AdmitsAll e env w schema es := by
    intro es
    simp only [AdmitsAll, admits_env e env' env]
  have hschema' : Answers env' w schema := by
    simpa only [Answers, Blind.contains schema _ env env'] using hschema
  obtain ⟨before, k, v, after, hkeys, hgood, hbad⟩ := exists_first_bad h
  rw [(compile_iff hschema).mpr (.unknown hkeys hgood hbad), (compile_iff hschema').mpr (.unknown hkeys ?_ ?_)]
  · exact (hall before).mpr hgood
  · simpa only [Names, admits_env e env' env] using hbad

/-- No value is refused with the fault of an unknown frame, unless a producer raises it. -/
theorem Refusal.ne_unknownFrame {tag : FrameTag} {value : Term} {f : Fault} (h : env.Discerning)
    (hr : Refusal ontology maker env e tag value w f w') (key : Term) (shown : String) (kind : Option String) :
    f ≠ .unknownFrame key shown kind := by
  cases hr with
  | relating _ h' | grouping _ h' | property h' | target _ h' =>
    exact (Discerns.resolve h _ _ _ _).ne_unknownFrame h' key shown kind
  | literal _ _ h' => exact (Discerns.note _ _ _).ne_unknownFrame h' key shown kind
  | unstable | characteristic | noFact | noNote | elsewhere | noText => nofun

/-- **The faults of a compilation are ranked.** It ends as `Compiles` says, and in no other way. For a bad key this is so
whatever the producers, the ontology and the factory are, and where no producer reports a frame itself, a frame is
reported exactly if there is a bad key. There are axioms exactly if all keys are good and the rules make something of all
values. -/
theorem compile_ranked (hschema : Answers env w schema) :
    (∀ r w', compile (.entity m e) explicit defaults schema ontology maker env w = (r, w') ↔
      Compiles ontology maker env m e schema defaults explicit w r w') ∧
    (¬AdmitsAll e env w schema (defaults ++ explicit) → ∀ ontology' maker' env',
      compile (.entity m e) explicit defaults schema ontology' maker' env' w =
        compile (.entity m e) explicit defaults schema ontology maker env w) ∧
    (env.Discerning → ((∃ tag shown kind, (compile (.entity m e) explicit defaults schema ontology maker env w).1 =
      .error (.unknownFrame tag shown kind)) ↔ ¬AdmitsAll e env w schema (defaults ++ explicit))) ∧
    ((∃ as, (compile (.entity m e) explicit defaults schema ontology maker env w).1 = .ok as) ↔
      AdmitsAll e env w schema (defaults ++ explicit) ∧
        ∃ rs w', Compiled ontology maker env m e (sequence defaults explicit) w rs w') := by
  refine ⟨fun r w' => compile_iff hschema, compile_unknown hschema, ?_, ?_⟩
  · intro h
    constructor
    · rintro ⟨tag, shown, kind, hfault⟩ hadmits
      rcases hrun : compile (.entity m e) explicit defaults schema ontology maker env w with ⟨r, w'⟩
      rw [hrun] at hfault
      subst hfault
      cases (compile_iff hschema).mp hrun with
      | @unknown before after k v hkeys hgood hbad =>
        have hmem : (k, v) ∈ defaults ++ explicit := hkeys ▸ List.mem_append_right _ List.mem_cons_self
        exact hbad (hadmits _ hmem)
      | refused hadmits hvalues hmade hbad => exact hbad.ne_unknownFrame h tag shown kind rfl
    · intro hnot
      obtain ⟨before, k, v, after, hkeys, hgood, hbad⟩ := exists_first_bad hnot
      rw [(compile_iff hschema).mpr (.unknown hkeys hgood hbad)]
      exact ⟨_, _, _, rfl⟩
  · constructor
    · rintro ⟨as, has⟩
      obtain ⟨hadmits, rs, hrs, -⟩ := compile_ok_iff.mp (Prod.ext has rfl)
      exact ⟨hadmits, rs, _, hrs⟩
    · rintro ⟨hadmits, rs, w', hrs⟩
      rw [compile_ok_iff.mpr ⟨hadmits, rs, hrs, rfl⟩]
      exact ⟨_, rfl⟩

end

/-- A bad value, a key without a value that is no tag of the schema, and a key that is no tag at all. -/
def tangled : List (Term × Term) × List (Term × Term) :=
  ([(.text ":subclass", .int 5), (.text "LABEL", .null)], [(.text "bogus", .list []), (.text "subclass", .null)])

/-- The first bad key is reported, by the name of its tag. -/
theorem compile_ranked_tangled :
    Compiles (.handle (.ontology 0)) 0 .plain 0 ⟨.cls, "a"⟩ (.tuple [.ofTag .subclass]) tangled.1 tangled.2 .single
      (.error (.unknownFrame (.ofTag .label) "FrameTag.LABEL" (some "class"))) .single := by
  have hshown : (World.single.settle (.ofTag .label)).display World.single.names = "FrameTag.LABEL" := by decide +kernel
  rw [← hshown]
  exact ((compile_ranked (answers_of_items (.inr (.inl rfl)))).1 _ _).mp rfl

end Authoring.Compile
