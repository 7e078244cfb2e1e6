import Authoring.Probe
import Authoring.Proofs.Change

/-!
# Leaving a scope of probes

A scope of probes is left in three ways: the body ends, the body fails, or a constructor fails before there is a
body. In each the same is done: every bound value is removed, the last one first. `Probe.leaving` says what is
bound when this starts and what the world is then, and `Probe.run_scope` that the world in the end is the one
that the removals make of it (`Probe.sweep`).

Constructors and bodies are arbitrary here. A removal may fail; the others are made nevertheless, and none does
more than to leave axioms out of the ontology (`Probe.sweep_shrinks`).
-/

namespace Authoring.Probe

open Act

/-- Bindings whose names are texts. -/
abbrev Named := List (String × Constructor)

def bindings (named : Named) : List Binding := named.map fun b => pure (.text b.1, b.2)

/-! ## What is bound -/

/-- What has become of some constructors. -/
structure Outcome where
  /-- The values that the constructors have returned, in order. -/
  returned : List Term
  bound : Bound
  fault : Option Fault
  world : World

def Outcome.values (r : Outcome) : List Term := r.bound.map (·.2)

/-- Calls constructors in order, until one fails. -/
def construct (env : Env) : Bound → Named → World → Outcome
  | bound, [], w => ⟨[], bound, none, w⟩
  | bound, (name, c) :: rest, w =>
    match c bound env w with
    | (.ok t, w') =>
      let r := construct env (Keyed.put (.text name) t bound) rest w'
      { r with returned := t :: r.returned }
    | (.error f, w') => ⟨[], bound, some f, w'⟩

variable {env : Env} {w : World} {id : Nat} {α : Type}

theorem run_bindAll (env : Env) (bound : Bound) (named : Named) (w : World) :
    bindAll bound (bindings named) env w =
      (.ok ((construct env bound named w).bound, (construct env bound named w).fault),
        (construct env bound named w).world) := by
  induction named generalizing bound w with
  | nil => rfl
  | cons b named ih =>
    obtain ⟨name, c⟩ := b
    have hbind : bind bound (pure (.text name, c)) env w =
        match c bound env w with
        | (.ok t, w') => (.ok (Keyed.put (.text name) t bound), w')
        | (.error f, w') => (.error f, w') := by
      have hname := run_requireStable (t := .text name) rfl env
      simp only [bind, run_bind, run_pure, hname]
      rcases c bound env w with ⟨_ | _, _⟩ <;> rfl
    rw [bindings, List.map_cons, bindAll, run_bind, run_attempt, hbind, construct]
    rcases c bound env w with ⟨f | t, w'⟩
    · rfl
    · exact ih _ w'

/-- What is bound when the clean-up starts, and the world then: that after the body, or after the constructor
that has failed. -/
def leaving (env : Env) (named : Named) (body : Term → Act α) (w : World) : Outcome :=
  let r := construct env [] named w
  match r.fault with
  | some _ => r
  | none => { r with world := (body (.map r.bound) env r.world).2 }

theorem leaving_of_some {named : Named} {f : Fault} (hf : (construct env [] named w).fault = some f)
    (body : Term → Act α) : leaving env named body w = construct env [] named w := by
  unfold leaving
  dsimp only
  rw [hf]

theorem leaving_of_none {named : Named} (hf : (construct env [] named w).fault = none) (body : Term → Act α) :
    leaving env named body w = { construct env [] named w with
      world := (body (.map (construct env [] named w).bound) env (construct env [] named w).world).2 } := by
  unfold leaving
  dsimp only
  rw [hf]

/-- The body changes nothing of what has been returned and bound. -/
theorem leaving_values (env : Env) (named : Named) (body : Term → Act α) (w : World) :
    (leaving env named body w).values = (construct env [] named w).values ∧
      (leaving env named body w).returned = (construct env [] named w).returned := by
  cases hf : (construct env [] named w).fault with
  | some f => rw [leaving_of_some hf]; exact ⟨rfl, rfl⟩
  | none => rw [leaving_of_none hf]; exact ⟨rfl, rfl⟩

/-- No name is bound yet. -/
def Unbound (bound : Bound) (named : Named) : Prop := ∀ e ∈ bound, ∀ b ∈ named, (Term.text b.1 == e.1) = false

theorem Unbound.nil (named : Named) : Unbound [] named := List.forall_mem_nil _

/-- A name that is not bound yet is bound after the others, and so the next ones are not bound either. -/
theorem Unbound.put {bound : Bound} {name : String} {c : Constructor} {named : Named}
    (hb : Unbound bound ((name, c) :: named)) (hname : name ∉ named.map (·.1)) (t : Term) :
    Keyed.put (.text name) t bound = bound ++ [(.text name, t)] ∧
      Unbound (bound ++ [(.text name, t)]) named := by
  have hnone : bound.lookup (.text name) = none :=
    List.lookup_eq_none_iff.mpr fun e he => by rw [bne, hb e he _ List.mem_cons_self]; rfl
  refine ⟨Keyed.put_of_lookup_none hnone t, ?_⟩
  intro e he b hbn
  rcases List.mem_append.mp he with he | he
  · exact hb e he b (List.mem_cons_of_mem _ hbn)
  · rw [List.mem_singleton.mp he, Term.text_beq]
    exact beq_false_of_ne fun h => hname (h ▸ List.mem_map.mpr ⟨b, hbn, rfl⟩)

/-- Under different names, whatever is returned stays bound. -/
theorem construct_values (env : Env) {named : Named} (hn : (named.map (·.1)).Nodup) (bound : Bound)
    (hb : Unbound bound named) (w : World) :
    (construct env bound named w).values = bound.map (·.2) ++ (construct env bound named w).returned := by
  induction named generalizing bound w with
  | nil => exact (List.append_nil _).symm
  | cons b named ih =>
    obtain ⟨name, c⟩ := b
    obtain ⟨hname, hn⟩ := List.nodup_cons.mp hn
    rw [construct]
    rcases c bound env w with ⟨f | t, w'⟩
    · exact (List.append_nil _).symm
    · obtain ⟨hput, hnext⟩ := hb.put hname t
      have hrest := ih hn _ hnext w'
      rw [← hput, Outcome.values] at hrest
      rw [Outcome.values]
      dsimp only
      rw [hrest, hput]
      simp

/-! ## What is removed -/

/-- Tries to remove each value, whatever becomes of the others. -/
def sweep (remover : Term → Act Unit) (env : Env) : List Term → World → World
  | [], w => w
  | t :: ts, w => sweep remover env ts (remover t env w).2

/-- Each value is removed in turn, whatever the removals before it have answered. -/
inductive Attempts (remover : Term → Act Unit) (env : Env) :
    List Term → World → List (Except Fault Unit) → World → Prop
  | nil {w : World} : Attempts remover env [] w [] w
  | cons {t : Term} {ts : List Term} {w : World} {answer : Except Fault Unit} {w₁ : World}
      {answers : List (Except Fault Unit)} {w₂ : World} (call : remover t env w = (answer, w₁))
      (others : Attempts remover env ts w₁ answers w₂) : Attempts remover env (t :: ts) w (answer :: answers) w₂

/-- The faults among some answers, in their order. -/
def faults (answers : List (Except Fault Unit)) : List Fault :=
  answers.filterMap fun
    | .ok () => none
    | .error f => some f

/-- How a scope ends whose constructors and body have ended in a way of their own. -/
def verdict (own : Except Fault α) (answers : List (Except Fault Unit)) : Except Fault α :=
  match own, faults answers with
  | .error f, _ => .error f
  | .ok a, [] => .ok a
  | .ok _, fs => .error (.probeCleanup fs)

section
variable {remover : Term → Act Unit} {ts : List Term} {answers : List (Except Fault Unit)} {bound : Bound} {w' : World}

/-- All removals are attempted, whatever they answer. -/
theorem exists_attempts (remover : Term → Act Unit) (env : Env) (ts : List Term) (w : World) :
    ∃ answers, Attempts remover env ts w answers (sweep remover env ts w) := by
  induction ts generalizing w with
  | nil => exact ⟨[], .nil⟩
  | cons t ts ih =>
    obtain ⟨answers, others⟩ := ih (remover t env w).2
    exact ⟨_, .cons rfl others⟩

theorem Attempts.run_removeAll (h : Attempts remover env ts w answers w') :
    removeAll remover ts env w = (.ok (faults answers), w') := by
  induction h with
  | nil => rfl
  | @cons _ _ _ answer _ _ _ call others ih =>
    rw [removeAll, run_bind, run_attempt, call]
    cases answer with
    | ok => exact ih
    | error f => simp only [run_bind, ih]; rfl

/-- The faults of the removals are those of the clean-up. -/
theorem Attempts.run_cleanUp_none (h : Attempts remover env (bound.map (·.2)).reverse w answers w') :
    cleanUp remover bound none env w = (verdict (.ok ()) answers, w') := by
  rw [cleanUp, run_bind, h.run_removeAll]
  dsimp only [verdict]
  cases faults answers <;> rfl

/-- None of them counts after another fault. -/
theorem Attempts.run_cleanUp_some (h : Attempts remover env (bound.map (·.2)).reverse w answers w') (f : Fault) :
    cleanUp remover bound (some f) env w = (.ok (), w') := by
  rw [cleanUp, run_bind, h.run_removeAll]
  rfl

/-- The clean-up makes every removal, and changes nothing else. -/
theorem run_cleanUp (remover : Term → Act Unit) (bound : Bound) (outcome : Option Fault) (env : Env) (w : World) :
    ∃ r, cleanUp remover bound outcome env w = (r, sweep remover env (bound.map (·.2)).reverse w) := by
  obtain ⟨answers, removals⟩ := exists_attempts remover env (bound.map (·.2)).reverse w
  cases outcome with
  | none => exact ⟨_, removals.run_cleanUp_none⟩
  | some f => exact ⟨_, removals.run_cleanUp_some f⟩

end

/-- **On every way out** the bound values are removed, the last one first. -/
theorem run_scope (remover : Term → Term → Act Unit) (named : Named) {ontology o : Term}
    (ho : Current.orGiven ontology env w = (.ok o, w)) (body : Term → Act α) :
    (Scope.run (scope remover (bindings named) ontology) body env w).2 =
      sweep (remover · o) env (leaving env named body w).values.reverse (leaving env named body w).world := by
  rw [Scope.run, run_bind, scope, run_bind, ho]
  simp only [run_bind, run_bindAll, leaving, Outcome.values]
  generalize construct env [] named w = r
  cases hf : r.fault with
  | some f =>
    obtain ⟨c, hc⟩ := run_cleanUp (remover · o) r.bound (some f) env r.world
    dsimp only
    rw [run_bind, hc]
    cases c <;> rfl
  | none =>
    dsimp only
    simp only [run_bind, run_context, run_pure, run_attempt, run_within]
    rcases body (.map r.bound) env r.world with ⟨f | a, w₁⟩
    · obtain ⟨c, hc⟩ := run_cleanUp (remover · o) r.bound (some f) env w₁
      simp only [run_bind, hc]
      cases c <;> rfl
    · obtain ⟨c, hc⟩ := run_cleanUp (remover · o) r.bound none env w₁
      simp only [run_bind, hc]
      cases c <;> rfl

/-! ## What removals leave -/

/-- A way of removing values from an ontology that does no more than to leave axioms out. -/
def Removes (remover : Term → Act Unit) (id : Nat) : Prop :=
  ∀ (t : Term) (env : Env) (w : World), w.Manages id → w.Shrinks id (remover t env w).2

theorem removeEntity_world (t o : Term) (env : Env) (w : World) :
    (removeEntity t o env w).2 = (Change.removeEntity t o env w).2 := by
  unfold removeEntity
  rw [run_bind]
  rcases Change.removeEntity t o env w with ⟨_ | _, _⟩ <;> rfl

theorem removeAxiom_world (t o : Term) (env : Env) (w : World) :
    (removeAxiom t o env w).2 = (Change.remove t o env w).2 := by
  unfold removeAxiom
  rw [run_bind]
  rcases Change.remove t o env w with ⟨_ | _, _⟩ <;> rfl

theorem removeEntity_removes (id : Nat) : Removes (removeEntity · (.handle (.ontology id))) id := by
  intro t env w hm
  rw [removeEntity_world]
  exact Change.removeEntity_shrinks hm t env

theorem removeAxiom_removes (id : Nat) : Removes (removeAxiom · (.handle (.ontology id))) id := by
  intro t env w hm
  rw [removeAxiom_world]
  exact Change.remove_shrinks hm t env

theorem sweep_shrinks {remover : Term → Act Unit} (hr : Removes remover id) (hm : w.Manages id)
    (ts : List Term) (env : Env) : w.Shrinks id (sweep remover env ts w) := by
  induction ts generalizing w with
  | nil => exact .refl id w
  | cons t ts ih =>
    have ht := hr t env w hm
    exact ht.trans hm (ih (ht.manages hm))

/-- What the removal of a value takes away is not there in the end, whatever is removed before and after. -/
theorem sweep_of_mem {remover : Term → Act Unit} (hr : Removes remover id) {t : Term} {P : Axiom → Prop}
    (ht : ∀ w', w.Shrinks id w' → ∀ a ∈ ((remover t env w').2.ontology id).axioms, P a)
    (hm : w.Manages id) {ts : List Term} (hts : t ∈ ts) :
    ∀ a ∈ ((sweep remover env ts w).ontology id).axioms, P a := by
  induction ts generalizing w with
  | nil => cases hts
  | cons u ts ih =>
    have hu := hr u env w hm
    by_cases h : t = u
    · subst h
      have hrest := sweep_shrinks hr (hu.manages hm) ts env
      exact fun a ha => ht w (.refl id w) a ((hrest.sublist (hu.manages hm)).subset ha)
    · exact ih (fun w' hw' => ht w' (hu.trans hm hw')) (hu.manages hm) ((List.mem_cons.mp hts).resolve_left h)

/-- Removing an entity leaves the axioms that do not mention it. -/
theorem removeEntity_axioms (hm : w.Manages id) (hl : (w.ontology id).Lawful) {t : Term}
    (ht : t.isEntity = true) (env : Env) :
    ((removeEntity t (.handle (.ontology id)) env w).2.ontology id).axioms =
      (w.ontology id).axioms.filter fun a => !a.isAbout t := by
  cases t <;> cases ht
  case entity m e =>
    rw [removeEntity_world, Change.run_removeEntity hm hl]
    dsimp only
    rw [World.ontology_setOntology hm.exists_ontology]
    rfl

/-- Removing entities leaves the axioms that mention none of them. -/
theorem sweep_entities (hm : w.Manages id) (hl : (w.ontology id).Lawful) {ts : List Term}
    (hts : ∀ t ∈ ts, t.isEntity = true) (env : Env) :
    ((sweep (removeEntity · (.handle (.ontology id))) env ts w).ontology id).axioms =
      (w.ontology id).axioms.filter fun a => !ts.any a.isAbout := by
  induction ts generalizing w with
  | nil => exact (List.filter_eq_self.mpr fun _ _ => rfl).symm
  | cons t ts ih =>
    have hfirst := removeEntity_axioms hm hl (hts t List.mem_cons_self) env
    have hs := removeEntity_removes id t env w hm
    rw [sweep, ih (hs.manages hm) (hs.lawful hm hl) fun u hu => hts u (List.mem_cons_of_mem _ hu), hfirst,
      List.filter_filter]
    simp only [List.any_cons, Bool.not_or, Bool.and_comm]

/-- Removing axioms takes them away one after the other. -/
theorem sweep_axioms (hm : w.Manages id) {as : List Axiom} (has : ∀ a ∈ as, a.toTerm.isStable = true)
    (env : Env) :
    (sweep (removeAxiom · (.handle (.ontology id))) env (as.map Axiom.toTerm) w).ontology id =
      (w.ontology id).removeAll as := by
  induction as generalizing w with
  | nil => rfl
  | cons a as ih =>
    have hrun := Change.run_remove hm (has a List.mem_cons_self) env
    have h' : (w.setOntology id ((w.ontology id).remove a)).Manages id := hm.setOntology Ontology.remove_iri
    rw [List.map_cons, sweep, removeAxiom_world, hrun, ih h' fun b hb => has b (List.mem_cons_of_mem _ hb),
      World.ontology_setOntology hm.exists_ontology]
    rfl

end Authoring.Probe
