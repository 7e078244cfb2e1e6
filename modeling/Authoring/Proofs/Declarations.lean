import Authoring.Proofs.Alike
import Authoring.Proofs.Invariant.Service
import Authoring.Proofs.Window.Quiet

/-!
# Order and repetition of declarations

A *declaration* is a call of a builder, in a context of its own, with the axioms that it compiles (`Declaration`). When
declarations are made one after the other into an ontology that the store holds, its axioms are in the end those that
were there, followed by those that have been compiled, each where it came first. So the same declarations in any other
order, and with repetitions, give the same set of axioms, and to repeat any of them changes nothing
(`Declaration.InTurn.regardless_of_order`).

**What carries the proof.** To prepare a call only asks, and what is found does not depend on any axiom
(`Builder.Call.prepare_asked`). To complete it leaves a world that is alike, so the call can be made again in any of the
worlds to come, and compiles the same (`Declaration.Made.again`). The law then follows by induction on the declarations,
from what several additions make of an ontology.

**What is assumed.** Producers and naming functions only ask (`Env.Answers`). What is said of another order needs more:
that what they give depends on no axioms and on nothing that windows have collected (`Env.Steady`), and that the frames
hold no list that is still collecting (`Builder.Call.isFixed`). Without either, another order and a repetition matter
(`Declaration.order_matters`).
-/

namespace Authoring

/-! ## Lists that are still collecting -/

namespace Term

mutual
/-- Whether a value holds no window where frames are looked for: in nested lists and tuples, and in entries of maps. -/
def isFixed : Term → Bool
  | .handle (.window _) => false
  | .tuple ts => areFixed ts
  | .list ts => areFixed ts
  | .map es => areEntriesFixed es
  | _ => true
def areFixed : List Term → Bool
  | [] => true
  | t :: ts => t.isFixed && areFixed ts
def areEntriesFixed : List (Term × Term) → Bool
  | [] => true
  | e :: es => isEntryFixed e && areEntriesFixed es
def isEntryFixed : Term × Term → Bool
  | (_, v) => v.isFixed
end

theorem areEntriesFixed_iff : ∀ {es : List (Term × Term)}, areEntriesFixed es = true ↔ ∀ e ∈ es, e.2.isFixed = true
  | [] => by simp [areEntriesFixed]
  | (k, v) :: es => by simp [areEntriesFixed, isEntryFixed, areEntriesFixed_iff]

section
variable (contents : Nat → List Term)

mutual
/-- Looking into the windows does not change a value that holds none. -/
theorem expand_of_isFixed : ∀ {t : Term}, t.isFixed = true → t.expand false contents = t
  | .handle (.window _), h => nomatch h
  | .tuple ts, h => congrArg Term.tuple (expandAll_of_areFixed (show areFixed ts = true from h))
  | .list ts, h => congrArg Term.list (expandAll_of_areFixed (show areFixed ts = true from h))
  | .map _, _ | .expression _ _ _, _ | .note _ _, _ | .fact _ _ _, _ | .statement _ _, _ => rfl
  | .null, _ | .bool _, _ | .int _, _ | .float _, _ | .text _, _ | .iri _, _ | .literal _, _ | .keyword _, _
  | .entity _ _, _ | .set _ _, _ | .handle (.ontology _), _ | .handle (.store _), _ | .handle (.factory _), _
  | .handle (.options _), _ | .closure _ _ _ _, _ | .naming _ _, _ | .hook _ _, _ | .stats _, _ | .settings _, _
  | .listing _, _ => rfl
theorem expandAll_of_areFixed : ∀ {ts : List Term}, areFixed ts = true → expandAll false contents ts = ts
  | [], _ => rfl
  | _ :: _, h => by
    obtain ⟨ht, hts⟩ := Bool.and_eq_true_iff.mp h
    exact congrArg₂ List.cons (expand_of_isFixed ht) (expandAll_of_areFixed hts)
end

end

/-- Whether a value counts as true does not depend on what windows hold, if it is no window. -/
theorem isTruthy_settle {t : Term} (h : t.isFixed = true) (w : World) : (w.settle t).isTruthy = t.isTruthy := by
  cases t
  case handle k => cases k <;> first | rfl | cases h
  case tuple ts | list ts => cases ts <;> rfl
  case map es => cases es <;> rfl
  all_goals rfl

end Term

open Act

variable {env : Env} {S : Expr → Prop} {π : Policy} {w w' : World}

/-! ## Preparing a call -/

namespace Builder

variable {name frames ontology : Term} {more : List (String × Term)} {es : List (Term × Term)} {all : FrameMap}

/-- The frames of a call hold no list that is still collecting. -/
def Call.isFixed : Call → Bool
  | .make _ _ frames _ more | .refine _ frames _ more => frames.isFixed && more.all (·.2.isFixed)

theorem entriesOf_ok (h : entriesOf frames env w = (.ok es, w')) :
    w' = w ∧ (frames = .map es ∨ es = [] ∧ (w.settle frames).isTruthy = false) := by
  unfold entriesOf at h
  split at h
  · cases h
    exact ⟨rfl, .inl rfl⟩
  · rw [run_bind, run_isTruthy] at h
    dsimp only at h
    split at h
    · cases h
    · cases h
      exact ⟨rfl, .inr ⟨rfl, Bool.eq_false_iff.mpr ‹_›⟩⟩

/-- What frames are gathered: those that are given as a map, and further ones. -/
theorem gather_ok (h : gather frames more env w = (.ok all, w')) : w' = w ∧
    ∃ es, entriesOf frames env w = (.ok es, w) ∧
      all = FrameMap.merge (es.map fun e => (e.1, w.spread e.2)) (more.map fun e => (.text e.1, w.spread e.2)) := by
  obtain ⟨es, w₁, hes, hrest⟩ := bind_ok h
  obtain ⟨rfl, -⟩ := entriesOf_ok hes
  simp only [run_bind, run_framesOf, run_pure, List.map_map] at hrest
  cases hrest
  exact ⟨rfl, es, hes, rfl⟩

/-- Frames that are gathered from what meets a policy meet it. -/
theorem gather_meets (hw : w.Collected) (hf : frames.Meets π) (hm : ∀ e ∈ more, e.2.Meets π)
    (h : gather frames more env w = (.ok all, w')) : all.All (·.Meets π) := by
  obtain ⟨-, es, hes, rfl⟩ := gather_ok h
  have hentries : ∀ e ∈ es, e.2.Meets π := by
    rcases (entriesOf_ok hes).2 with rfl | ⟨rfl, -⟩
    · exact Term.entriesMeet_iff.mp hf
    · exact List.forall_mem_nil _
  refine .merge (FrameMap.leaves_meet ?_) (FrameMap.leaves_meet ?_)
  · exact List.forall_mem_map.mpr fun e he => hw.spread (hentries e he)
  · exact List.forall_mem_map.mpr fun e he => hw.spread (hm e he)

/-- Frames that hold no list that is still collecting are gathered the same in every world. -/
theorem gather_of_isFixed (hf : frames.isFixed = true) (hm : ∀ e ∈ more, e.2.isFixed = true)
    (h : gather frames more env w = (.ok all, w)) (w' : World) : gather frames more env w' = (.ok all, w') := by
  obtain ⟨-, es, hes, rfl⟩ := gather_ok h
  obtain ⟨hentries, hrun⟩ : (∀ e ∈ es, e.2.isFixed = true) ∧ entriesOf frames env w' = (.ok es, w') := by
    rcases (entriesOf_ok hes).2 with rfl | ⟨rfl, hempty⟩
    · exact ⟨Term.areEntriesFixed_iff.mp hf, rfl⟩
    · refine ⟨List.forall_mem_nil _, ?_⟩
      rw [Term.isTruthy_settle hf] at hempty
      unfold entriesOf
      split
      next es =>
        cases hes
        rfl
      next =>
        rw [run_bind, run_isTruthy, Term.isTruthy_settle hf, hempty]
        rfl
  have same : ∀ v : Term, v.isFixed = true → w'.spread v = w.spread v := fun v hv =>
    (Term.expand_of_isFixed _ hv).trans (Term.expand_of_isFixed _ hv).symm
  refine bind_ok_iff.mpr ⟨es, w', hrun, ?_⟩
  simp only [run_bind, run_framesOf, run_pure, List.map_map]
  have hes : es.map (fun e => (e.1, w'.spread e.2)) = es.map fun e => (e.1, w.spread e.2) :=
    List.map_congr_left fun e he => by rw [same _ (hentries e he)]
  have hmore : more.map (fun e => (Term.text e.1, w'.spread e.2)) = more.map fun e => (.text e.1, w.spread e.2) :=
    List.map_congr_left fun e he => by rw [same _ (hm e he)]
  rw [hes, ← hmore]
  rfl

theorem className_finds (hn : name.Meets π) (hall : all.All (·.Meets π)) :
    Finds env π.producers (className name all) (·.Meets π) := by
  have chosen : ((all.valuesOf (Term.ofTag .name)).head?.getD name).Meets π := by
    cases hv : all.valuesOf (Term.ofTag .name) with
    | nil => exact hn
    | cons v vs => exact hall.valuesOf _ v (hv ▸ List.mem_cons_self)
  unfold className
  dsimp only
  split
  case h_4 => exact .pure chosen
  case h_1 h | h_2 h | h_3 h =>
    exact .bind .context fun _ _ => .bind (.display (by rw [h]; rfl)) fun _ _ => .pure trivial

/-- What a builder prepares of frames that have been gathered depends on no axiom. -/
theorem prepare_finds (h : env.Answers π.producers) (hd : FrameMap.All (·.Meets π) (env.context.defaults.getD []))
    (kind : EntityKind) (hn : name.Meets π) (hall : all.All (·.Meets π)) (ontology : Term) :
    Finds env π.producers (prepare kind name all ontology) fun _ => True := by
  have called : ∀ {m : FrameMap}, m.All (·.Meets π) →
      ∀ f ∈ m.entries, ∀ t ∈ f.2.flatten, ∀ b ∈ t.bodies, π.producers b :=
    fun hm f hf t ht => (FrameMap.leaves_meet hm.entries_meet f hf t ht).bodies
  have defaults : Finds env π.producers Window.defaults (· = env.context.defaults.getD []) :=
    .bind .context fun c hc => .pure (hc ▸ rfl)
  refine .bind (Current.orGiven_finds ontology) fun o _ => ?_
  refine .bind (Reference.resolve_finds h hn.bodies kind o) fun t ht => .bind defaults fun d hdef => ?_
  subst hdef
  cases ht with
  | entity m iri => exact .bind (Compile.compile_finds h (called hall) (called hd)) fun _ _ => .pure trivial
  | expression => exact .of_refused fun w => .first (Compile.compile_expression ..)

theorem prepareOfKind_asked (h : env.Answers π.producers) (hd : FrameMap.All (·.Meets π) (env.context.defaults.getD []))
    {kind : EntityKind} (hn : name.Meets π) (hf : frames.Meets π) (hm : ∀ e ∈ more, e.2.Meets π)
    (hw : w.PoliciesWithin π.producers) (hc : w.Collected) {p : Prepared} {v : World}
    (hrun : prepareOfKind kind name frames ontology more env w = (.ok p, v)) :
    w.Asked v ∧ (env.Steady π.producers → frames.isFixed = true → (∀ e ∈ more, e.2.isFixed = true) →
      ∀ w' : World, w.Alike w' → ∃ v', prepareOfKind kind name frames ontology more env w' = (.ok p, v')) := by
  obtain ⟨all, w₁, hgather, hrest⟩ := bind_ok hrun
  obtain ⟨rfl, -⟩ := gather_ok hgather
  have hall := gather_meets hc hf hm hgather
  have hfinds : Finds env π.producers
      (do prepare kind (← if kind = .cls then className name all else pure name) all ontology) fun _ => True := by
    refine .ite (fun _ => ?_) fun _ => ?_
    · exact .bind (className_finds hn hall) fun t ht => prepare_finds h hd kind ht hall ontology
    · exact .bind (.pure hn) fun t ht => prepare_finds h hd kind ht hall ontology
  obtain ⟨-, hasked, hsame⟩ := hfinds _ p v hw hrest
  refine ⟨hasked, fun hsteady hff hmf w' hw' => ?_⟩
  obtain ⟨v', hrun'⟩ := hsame hsteady w' hw'
  exact ⟨v', bind_ok_iff.mpr ⟨all, w', gather_of_isFixed hff hmf hgather w', hrun'⟩⟩

/-- **Preparing a call only asks**, and in alike worlds the same comes out of it. -/
theorem Call.prepare_asked {c : Call} (h : env.Answers π.producers) (hd : env.context.Meets π) (hc : c.Meets π)
    (hw : w.PoliciesWithin π.producers) (hcollected : w.Collected) {p : Prepared} {v : World}
    (hrun : c.prepare env w = (.ok p, v)) :
    w.Asked v ∧ (env.Steady π.producers → c.isFixed = true →
      ∀ w' : World, w.Alike w' → ∃ v', c.prepare env w' = (.ok p, v')) := by
  have ofKind : ∀ {kind : EntityKind} {name frames ontology : Term} {more : List (String × Term)}, name.Meets π →
      frames.Meets π → (∀ e ∈ more, e.2.Meets π) → prepareOfKind kind name frames ontology more env w = (.ok p, v) →
      w.Asked v ∧ (env.Steady π.producers → (frames.isFixed && more.all (·.2.isFixed)) = true →
        ∀ w' : World, w.Alike w' → ∃ v', prepareOfKind kind name frames ontology more env w' = (.ok p, v')) := by
    intro kind name frames ontology more hn hf hm hrun
    obtain ⟨hasked, hsame⟩ := prepareOfKind_asked h hd.defaults hn hf hm hw hcollected hrun
    refine ⟨hasked, fun hsteady hfixed => ?_⟩
    obtain ⟨hff, hmf⟩ := Bool.and_eq_true_iff.mp hfixed
    exact hsame hsteady hff (List.all_eq_true.mp hmf)
  cases c with
  | make kind name frames ontology more => exact ofKind hc.2.1 hc.2.2.1 hc.2.2.2 hrun
  | refine t frames ontology more =>
    cases t
    case entity m e => exact ofKind hc.2.1 hc.2.2.1 hc.2.2.2 hrun
    all_goals cases hrun

end Builder

/-! ## Adding what has been compiled -/

namespace Ontology

variable {o : Ontology} {a : Axiom} {as bs : List Axiom}

/-- Nothing but the axioms is changed. -/
theorem addAll_bare (o : Ontology) (as : List Axiom) : (o.addAll as).bare = o.bare := by
  rw [addAll_eq]
  rfl

/-- Two ontologies have the same set of axioms: what is in one of them is found in the other. -/
def SameAxioms (o o' : Ontology) : Prop :=
  (∀ a ∈ o.axioms, o'.axioms.contains a = true) ∧ ∀ a ∈ o'.axioms, o.axioms.contains a = true

instance (o o' : Ontology) : Decidable (o.SameAxioms o') := inferInstanceAs (Decidable (_ ∧ _))

/-- **Which axioms there are in the end** depends on which are added, not on how often and in which order. -/
theorem sameAxioms_addAll (h : ∀ a, a ∈ as ↔ a ∈ bs) (o : Ontology) : (o.addAll as).SameAxioms (o.addAll bs) := by
  have found : ∀ {as bs : List Axiom}, (∀ a ∈ as, a ∈ bs) →
      ∀ a ∈ (o.addAll as).axioms, (o.addAll bs).axioms.contains a = true := by
    intro as bs h a ha
    rw [addAll_axioms] at ha
    rcases List.mem_append.mp ha with ha | ha
    · exact contains_addAll_addAll (List.contains_iff_exists_mem_beq.mpr ⟨a, ha, BEq.rfl⟩) bs
    · exact contains_addAll (h a (mem_fresh ha).1)
  exact ⟨found fun a => (h a).mp, found fun a => (h a).mpr⟩

end Ontology

/-! ## Declarations -/

/-- A call of a builder in a context, with the axioms that it compiles. -/
structure Declaration where
  context : Context
  call : Builder.Call
  axioms : List Axiom

namespace Declaration

/-- The context and the call meet a policy. -/
def Meets (π : Policy) (d : Declaration) : Prop := d.context.Meets π ∧ d.call.Meets π

/-- **A declaration is made** into an ontology: the call compiles its axioms for it, and succeeds. -/
def Made (env : Env) (id : Nat) (d : Declaration) (w w' : World) : Prop :=
  ∃ t u, d.call.prepare { env with context := d.context } w = (.ok ⟨.handle (.ontology id), t, d.axioms⟩, u) ∧
    d.call.run { env with context := d.context } w = (.ok t, w')

/-- **Declarations are made in turn** into an ontology. -/
inductive InTurn (env : Env) (id : Nat) : List Declaration → World → World → Prop
  | nil (w : World) : InTurn env id [] w w
  | cons {d : Declaration} {ds : List Declaration} {w w₁ w' : World} (h : d.Made env id w w₁)
    (hrest : InTurn env id ds w₁ w') : InTurn env id (d :: ds) w w'

end Declaration

namespace World

/-- A world in which declarations can be made into an ontology: the store holds it, the naming functions are known, and
windows have collected entities. -/
structure Declaring (S : Expr → Prop) (id : Nat) (w : World) : Prop where
  policies : w.PoliciesWithin S
  collected : w.Collected
  manages : w.Manages id

theorem Collected.record {t : Term} (h : w.Collected) (ht : t.isEntity = true) (active : Option Nat) :
    (w.record active t).Collected := by
  cases active with
  | none => exact h
  | some n => exact h.push ht n

theorem Declaring.of_asked {id : Nat} (h : w.Declaring S id) (hw : w.Asked w') : w'.Declaring S id where
  policies := h.policies.of_alike hw.toAlike
  collected := by
    rw [Collected, hw.windows]
    exact h.collected
  manages := hw.toAlike.manages h.manages

/-- The world after axioms have been added and an entity has been recorded. -/
def declare (w : World) (id : Nat) (as : List Axiom) (active : Option Nat) (t : Term) : World :=
  (w.setOntology id ((w.ontology id).addAll as)).record active t

section
variable {id : Nat} {as : List Axiom} {active : Option Nat} {t : Term}

theorem alike_declare : w.Alike (w.declare id as active t) :=
  (Alike.setOntology (Ontology.addAll_bare _ as)).trans (.record _ active t)

theorem Declaring.declare (h : w.Declaring S id) (ht : t.isEntity = true) :
    (w.declare id as active t).Declaring S id where
  policies := h.policies.of_alike alike_declare
  collected := Collected.record (w := w.setOntology id _) h.collected ht active
  manages := alike_declare.manages h.manages

theorem ontology_declare (h : w.Manages id) : (w.declare id as active t).ontology id = (w.ontology id).addAll as := by
  rw [World.declare, ontology_record, ontology_setOntology h.exists_ontology]

end

end World

namespace Builder

/-- Completing a call whose axioms can be compared, for an ontology that the store holds. -/
theorem run_complete {id : Nat} {t : Term} {as : List Axiom} (hm : w.Manages id)
    (has : ∀ a ∈ as, a.toTerm.isStable = true) (env : Env) :
    complete ⟨.handle (.ontology id), t, as⟩ env w = (.ok t, w.declare id as env.context.window t) := by
  rw [complete, run_bind, Change.run_addAxioms hm has]
  simp only [run_bind, run_record]
  rfl

end Builder

namespace Declaration

variable {d : Declaration} {ds : List Declaration} {id : Nat}

theorem Made.of_run {t : Term} {x : Env} (hx : x = { env with context := d.context })
    (hp : (d.call.prepare x w).1 = .ok ⟨.handle (.ontology id), t, d.axioms⟩) (hr : (d.call.run x w).1 = .ok t) :
    d.Made env id w (d.call.run x w).2 := by
  subst hx
  exact ⟨t, _, Prod.ext hp rfl, Prod.ext hr rfl⟩

/-- What has been done when a declaration has been made. -/
theorem Made.exists_prepared (h : d.Made env id w w') : ∃ t u, t.isEntity = true ∧
    d.call.prepare { env with context := d.context } w = (.ok ⟨.handle (.ontology id), t, d.axioms⟩, u) ∧
    (∀ a ∈ d.axioms, a.toTerm.isStable = true) ∧ w' = u.declare id d.axioms d.context.window t := by
  obtain ⟨t, u, hprepared, hrun⟩ := h
  obtain ⟨p, j, u', hdone⟩ := Builder.Call.run_ok hrun
  have hp := hdone.prepared
  rw [hprepared] at hp
  cases hp
  cases hdone.target
  rw [Builder.Call.run_eq] at hrun
  obtain ⟨p, u', hp, hcomplete⟩ := bind_ok hrun
  rw [hprepared] at hp
  cases hp
  obtain ⟨_, _, hadd, -⟩ := bind_ok hcomplete
  exact ⟨t, u, hdone.isEntity, hprepared, Change.addAxioms_stable hadd, hdone.after⟩

theorem Made.of_prepared {t : Term} {u : World} (hm : u.Manages id) (has : ∀ a ∈ d.axioms, a.toTerm.isStable = true)
    (h : d.call.prepare { env with context := d.context } w = (.ok ⟨.handle (.ontology id), t, d.axioms⟩, u)) :
    d.Made env id w (u.declare id d.axioms d.context.window t) := by
  refine ⟨t, u, h, ?_⟩
  rw [Builder.Call.run_eq]
  exact bind_ok_iff.mpr ⟨_, u, h, Builder.run_complete hm has _⟩

section
variable {T : Nat → Prop} (henv : env.Answers S) (hd : d.Meets (.lenient S T)) (hw : w.Declaring S id)
include henv hd hw

theorem prepare_asked {p : Builder.Prepared} {v : World}
    (h : d.call.prepare { env with context := d.context } w = (.ok p, v)) :
    w.Asked v ∧ (env.Steady S → d.call.isFixed = true →
      ∀ w' : World, w.Alike w' → ∃ v', d.call.prepare { env with context := d.context } w' = (.ok p, v')) := by
  have henv' : { env with context := d.context }.Answers S := henv
  exact Builder.Call.prepare_asked (π := .lenient S T) henv' hd.1 hd.2 hw.policies hw.collected h

/-- **What one declaration does**: its axioms are added. All else that declarations depend on stays as it is. -/
theorem Made.after (h : d.Made env id w w') :
    w.Alike w' ∧ w'.Declaring S id ∧ w'.ontology id = (w.ontology id).addAll d.axioms := by
  obtain ⟨t, u, ht, hprepared, -, rfl⟩ := h.exists_prepared
  have hasked := (prepare_asked henv hd hw hprepared).1
  have hu := hw.of_asked hasked
  refine ⟨hasked.toAlike.trans World.alike_declare, hu.declare ht, ?_⟩
  rw [World.ontology_declare hu.manages, hasked.ontology]

/-- **A declaration can be made again**, in every world that is alike. -/
theorem Made.again (hsteady : env.Steady S) (hfixed : d.call.isFixed = true) (h : d.Made env id w w') {u : World}
    (halike : w.Alike u) (hu : u.Declaring S id) : ∃ u', d.Made env id u u' := by
  obtain ⟨t, v, ht, hprepared, has, -⟩ := h.exists_prepared
  obtain ⟨v', hprepared'⟩ := (prepare_asked henv hd hw hprepared).2 hsteady hfixed u halike
  have hasked := (prepare_asked henv hd hu hprepared').1
  exact ⟨_, .of_prepared (hu.of_asked hasked).manages has hprepared'⟩

end

/-! ## Declarations in turn -/

namespace InTurn

section
variable {T : Nat → Prop} (henv : env.Answers S)
include henv

/-- **What declarations in turn do**: what they have compiled is added, in order. -/
theorem after (hds : ∀ d ∈ ds, d.Meets (.lenient S T)) (hw : w.Declaring S id) (h : InTurn env id ds w w') :
    w.Alike w' ∧ w'.Declaring S id ∧ w'.ontology id = (w.ontology id).addAll (ds.flatMap (·.axioms)) := by
  induction h with
  | nil w => exact ⟨.refl w, hw, rfl⟩
  | cons h _ ih =>
    obtain ⟨hd, hds⟩ := List.forall_mem_cons.mp hds
    obtain ⟨halike, hw₁, hontology⟩ := h.after henv hd hw
    obtain ⟨halike', hw', hontology'⟩ := ih hds hw₁
    refine ⟨halike.trans halike', hw', ?_⟩
    rw [hontology', hontology, List.flatMap_cons, Ontology.addAll_append]

/-- Each of the declarations can be made again, in every world that is alike. -/
theorem again (hsteady : env.Steady S) (hfixed : ∀ d ∈ ds, d.call.isFixed = true)
    (hds : ∀ d ∈ ds, d.Meets (.lenient S T)) (hw : w.Declaring S id) (h : InTurn env id ds w w') :
    ∀ d ∈ ds, ∀ u : World, w.Alike u → u.Declaring S id → ∃ u', d.Made env id u u' := by
  induction h with
  | nil => exact List.forall_mem_nil _
  | cons h _ ih =>
    obtain ⟨hd, hds⟩ := List.forall_mem_cons.mp hds
    obtain ⟨hf, hfixed⟩ := List.forall_mem_cons.mp hfixed
    obtain ⟨halike, hw₁, -⟩ := h.after henv hd hw
    refine List.forall_mem_cons.mpr ⟨fun u hu hdeclaring => h.again henv hd hw hsteady hf hu hdeclaring, ?_⟩
    exact fun d hd u hu hdeclaring => ih hfixed hds hw₁ d hd u (halike.symm.trans hu) hdeclaring

/-- Declarations that can be made in every world that is alike can be made in turn. -/
theorem of_each (hds : ∀ d ∈ ds, d.Meets (.lenient S T))
    (h : ∀ d ∈ ds, ∀ u : World, w.Alike u → u.Declaring S id → ∃ u', d.Made env id u u') {u : World}
    (hu : w.Alike u) (hdeclaring : u.Declaring S id) : ∃ v, InTurn env id ds u v := by
  induction ds generalizing u with
  | nil => exact ⟨u, .nil u⟩
  | cons d ds ih =>
    obtain ⟨hd, hds⟩ := List.forall_mem_cons.mp hds
    obtain ⟨hmade, hrest⟩ := List.forall_mem_cons.mp h
    obtain ⟨u₁, h₁⟩ := hmade u hu hdeclaring
    obtain ⟨halike, hu₁, -⟩ := h₁.after henv hd hdeclaring
    obtain ⟨v, hv⟩ := ih hds hrest (hu.trans halike) hu₁
    exact ⟨v, .cons h₁ hv⟩

/-- **Order and repetition of declarations do not matter.** After declarations in turn, the axioms of the ontology are
those that were there, followed by those that have been compiled and were not there, each where it came first. If what
producers and naming functions give is steady, and no frame holds a list that is still collecting, then the same
declarations can be made in any other order and with any repetitions, and give the same set of axioms; and making any of
them again, in any order, changes nothing in the ontology. -/
theorem regardless_of_order (hds : ∀ d ∈ ds, d.Meets (.lenient S T)) (hw : w.Declaring S id)
    (h : InTurn env id ds w w') :
    (w'.ontology id).axioms = (w.ontology id).axioms ++ (w.ontology id).fresh (ds.flatMap (·.axioms)) ∧
    (env.Steady S → (∀ d ∈ ds, d.call.isFixed = true) →
      (∀ ds' : List Declaration, (∀ d, d ∈ ds' ↔ d ∈ ds) →
        ∃ v, InTurn env id ds' w v ∧ (v.ontology id).SameAxioms (w'.ontology id)) ∧
      ∀ ds' : List Declaration, (∀ d ∈ ds', d ∈ ds) →
        ∃ v, InTurn env id ds' w' v ∧ v.ontology id = w'.ontology id) := by
  obtain ⟨halike, hw', hontology⟩ := h.after henv hds hw
  refine ⟨by rw [hontology, Ontology.addAll_axioms], fun hsteady hfixed => ?_⟩
  have again : ∀ {ds' : List Declaration}, (∀ d ∈ ds', d ∈ ds) → ∀ {u : World}, w.Alike u → u.Declaring S id →
      ∃ v, InTurn env id ds' u v ∧ v.ontology id = (u.ontology id).addAll (ds'.flatMap (·.axioms)) := by
    intro ds' hmem u hu hdeclaring
    have hds' : ∀ d ∈ ds', d.Meets (.lenient S T) := fun d hd => hds d (hmem d hd)
    obtain ⟨v, hv⟩ := of_each henv hds' (fun d hd => h.again henv hsteady hfixed hds hw d (hmem d hd)) hu hdeclaring
    exact ⟨v, hv, (hv.after henv hds' hdeclaring).2.2⟩
  constructor
  · intro ds' hmem
    obtain ⟨v, hv, hv'⟩ := again (fun d => (hmem d).mp) (.refl w) hw
    refine ⟨v, hv, hv' ▸ hontology ▸ Ontology.sameAxioms_addAll (fun a => ?_) _⟩
    simp only [List.mem_flatMap, hmem]
  · intro ds' hmem
    obtain ⟨v, hv, hv'⟩ := again hmem halike hw'
    refine ⟨v, hv, hv'.trans (Ontology.addAll_of_contains fun a ha => ?_)⟩
    obtain ⟨d, hd, ha⟩ := List.mem_flatMap.mp ha
    rw [hontology]
    exact Ontology.contains_addAll (List.mem_flatMap.mpr ⟨d, hmem d hd, ha⟩)

end

/-- Two classes, one of which has a producer and a default frame and is built in a scope that collects. -/
theorem regardless_of_order_pair :
    let env := { Env.plain with eval := fun _ _ _ w => (.ok (.text "B"), w) }
    let target : Context := { Context.outermost with ontology := .handle (.ontology 0) }
    let a : Term := .entity 0 ⟨.cls, "o#A"⟩
    let b : Term := .entity 0 ⟨.cls, "o#B"⟩
    let first : Declaration := ⟨{ target with window := some 0, defaults := some [(.ofTag .disjoint, [.text "D"])] },
      .make .cls (.text "A") (.map [(.text "subclass", .closure 0 0 .null .null)]) .null [],
      [.declaration a, .subclassOf a b, .disjointClasses [a, .entity 0 ⟨.cls, "o#D"⟩]]⟩
    let second : Declaration := ⟨target, .refine b .null .null [], [.declaration b]⟩
    ∃ v, InTurn env 0 [first, second] .single v ∧ ∃ v', InTurn env 0 [second, first, second] .single v' ∧
      (v'.ontology 0).SameAxioms (v.ontology 0) := by
  intro env target a b first second
  have answers : env.Answers fun _ => True := by
    rintro _ - _ _ w _ _ ⟨⟩
    exact ⟨.refl w, nofun⟩
  have steady : env.Steady fun _ => True := by
    rintro _ - _ _ w _ _ ⟨⟩ w' -
    exact ⟨_, w', rfl, .refl _, World.display_of_content rfl w w'⟩
  have declaring : World.single.Declaring (fun _ => True) 0 :=
    ⟨fun _ _ _ => trivial, List.forall_mem_singleton.mpr nofun, World.single_manages⟩
  have meet : ∀ d ∈ [first, second], d.Meets (.lenient (fun _ => True) fun _ => True) := by
    refine List.forall_mem_cons.mpr ⟨⟨⟨?_, fun _ _ => trivial⟩, ?_⟩, List.forall_mem_singleton.mpr ?_⟩
    · exact List.forall_mem_singleton.mpr (List.forall_mem_singleton.mpr trivial)
    · exact ⟨nofun, trivial, ⟨trivial, trivial⟩, List.forall_mem_nil _⟩
    · exact ⟨⟨nofun, fun _ _ => trivial⟩, nofun, trivial, trivial, List.forall_mem_nil _⟩
  have both : InTurn env 0 [first, second] .single _ :=
    .cons (Made.of_run (t := a) rfl (by rfl) (by rfl)) (.cons (Made.of_run (t := b) rfl (by rfl) (by rfl)) (.nil _))
  obtain ⟨-, hall⟩ := regardless_of_order answers meet declaring both
  obtain ⟨hany, -⟩ := hall steady (List.forall_mem_cons.mpr ⟨rfl, List.forall_mem_singleton.mpr rfl⟩)
  obtain ⟨v', hv', hsame⟩ := hany [second, first, second] fun d => by
    simp only [List.mem_cons, List.not_mem_nil, or_false]
    tauto
  exact ⟨_, both, v', hv', hsame⟩

end InTurn

/-- **Order and repetition matter** where a frame holds a list that is still collecting, and where a producer looks at
the axioms. In the first case a class is built under all that has been collected, twice; in the second, a class is built
under a name that depends on how many axioms there are, and another class is built before it or after it. -/
theorem order_matters :
    let target : Context := { Context.outermost with ontology := .handle (.ontology 0) }
    let made (env : Env) (w : World) (c : Builder.Call) : World := (c.run env w).2
    (let env : Env := { Env.plain with context := { target with window := some 0 } }
      let c : Builder.Call := .make .cls (.text "A") (.map [(.text "subclass", .handle (.window 0))]) .null []
      let w := made env .single c
      (c.run env .single).1.isOk = true ∧ (c.run env w).1.isOk = true ∧
        ¬((made env w c).ontology 0).SameAxioms (w.ontology 0)) ∧
    let env : Env := { Env.plain with
      context := target
      eval := fun _ _ _ w => (.ok (.text (if (w.ontology 0).axioms.length = 1 then "B" else "C")), w) }
    let c : Builder.Call := .make .cls (.text "A") (.map [(.text "subclass", .closure 0 0 .null .null)]) .null []
    let d : Builder.Call := .make .cls (.text "D") .null .null []
    env.Answers (fun _ => True) ∧ (c.run env .single).1.isOk = true ∧ (d.run env (made env .single c)).1.isOk = true ∧
      (d.run env .single).1.isOk = true ∧ (c.run env (made env .single d)).1.isOk = true ∧
      ¬((made env (made env .single c) d).ontology 0).SameAxioms ((made env (made env .single d) c).ontology 0) := by
  refine ⟨⟨by decide +kernel, by decide +kernel, by decide +kernel⟩, ?_⟩
  refine ⟨?_, by decide +kernel, by decide +kernel, by decide +kernel, by decide +kernel, by decide +kernel⟩
  rintro _ - _ _ w _ _ ⟨⟩
  exact ⟨.refl w, nofun⟩

end Declaration

end Authoring
