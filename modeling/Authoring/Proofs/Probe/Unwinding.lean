import Authoring.Proofs.Probe.Leaving

/-!
# How a scope of probes ends

Three things can fail in a scope of probes: a constructor, the body, and each of the removals. `Unwinding` is what the
scope does then, step by step: constructors are called until one fails (`Constructs`), the body is run unless one
has, and then each bound value is removed, the last one first, whatever becomes of the other removals (`Attempts`).
The fault of the constructor or of the body counts before those of the removals, and these count together, in the
order in which they have occurred (`verdict`).

`Probe.run_scope_iff` says that a scope does this and nothing else, for any constructors, body and way of removing.
-/

namespace Authoring.Probe

open Act

variable {env : Env} {w w' : World} {α : Type}

/-! ## Constructors -/

/-- Constructors are called in order, each with what is bound by then, until one fails. What a constructor has
returned is bound under its name after all others. -/
inductive Constructs (env : Env) : Bound → Named → World → Bound → Option Fault → World → Prop
  | done {bound : Bound} {w : World} : Constructs env bound [] w bound none w
  | next {bound : Bound} {name : String} {c : Constructor} {rest : Named} {w : World} {t : Term} {w₁ : World}
      {bound' : Bound} {fault : Option Fault} {w₂ : World} (call : c bound env w = (.ok t, w₁))
      (others : Constructs env (bound ++ [(.text name, t)]) rest w₁ bound' fault w₂) :
      Constructs env bound ((name, c) :: rest) w bound' fault w₂
  | fails {bound : Bound} {name : String} {c : Constructor} {rest : Named} {w : World} {f : Fault} {w₁ : World}
      (call : c bound env w = (.error f, w₁)) : Constructs env bound ((name, c) :: rest) w bound (some f) w₁

theorem Constructs.total (env : Env) (bound : Bound) (named : Named) (w : World) :
    ∃ bound' fault w', Constructs env bound named w bound' fault w' := by
  induction named generalizing bound w with
  | nil => exact ⟨bound, none, w, .done⟩
  | cons b rest ih =>
    obtain ⟨name, c⟩ := b
    rcases hc : c bound env w with ⟨f | t, w₁⟩
    · exact ⟨bound, some f, w₁, .fails hc⟩
    · obtain ⟨bound', fault, w₂, others⟩ := ih (bound ++ [(.text name, t)]) w₁
      exact ⟨bound', fault, w₂, .next hc others⟩

/-- Under different names this is how probes are bound. -/
theorem Constructs.run_bindAll {bound bound' : Bound} {named : Named} {fault : Option Fault}
    (h : Constructs env bound named w bound' fault w') (hn : (named.map (·.1)).Nodup)
    (hb : Unbound bound named) : bindAll bound (bindings named) env w = (.ok (bound', fault), w') := by
  rw [Probe.run_bindAll]
  induction h with
  | done => rfl
  | next call others ih =>
    obtain ⟨hname, hn⟩ := List.nodup_cons.mp hn
    obtain ⟨hput, hnext⟩ := hb.put hname _
    rw [construct, call]
    dsimp only
    rw [hput]
    exact ih hn hnext
  | fails call => rw [construct, call]

/-! ## Scopes -/

/-- What a scope of probes does in an ontology, and how it ends. -/
inductive Unwinding (remover : Term → Term → Act Unit) (o : Term) (env : Env) (named : Named)
    (body : Term → Act α) (w : World) : Except Fault α → World → Prop
  /-- A constructor fails: there is no body, and what is bound is removed. -/
  | refused {bound : Bound} {f : Fault} {w₁ : World} {answers : List (Except Fault Unit)} {w₂ : World}
      (constructs : Constructs env [] named w bound (some f) w₁)
      (removals : Attempts (remover · o) env (bound.map (·.2)).reverse w₁ answers w₂) :
      Unwinding remover o env named body w (verdict (.error f) answers) w₂
  /-- The body is run with all that is bound, which is removed however the body ends. -/
  | entered {bound : Bound} {w₁ : World} {own : Except Fault α} {w₂ : World} {answers : List (Except Fault Unit)}
      {w₃ : World} (constructs : Constructs env [] named w bound none w₁)
      (ends : body (.map bound) env w₁ = (own, w₂))
      (removals : Attempts (remover · o) env (bound.map (·.2)).reverse w₂ answers w₃) :
      Unwinding remover o env named body w (verdict own answers) w₃

theorem Unwinding.total (remover : Term → Term → Act Unit) (o : Term) (env : Env) (named : Named)
    (body : Term → Act α) (w : World) : ∃ r w', Unwinding remover o env named body w r w' := by
  obtain ⟨bound, fault, w₁, constructs⟩ := Constructs.total env [] named w
  cases fault with
  | some f =>
    obtain ⟨answers, removals⟩ := exists_attempts (remover · o) env (bound.map (·.2)).reverse w₁
    exact ⟨_, _, .refused constructs removals⟩
  | none =>
    obtain ⟨answers, removals⟩ :=
      exists_attempts (remover · o) env (bound.map (·.2)).reverse (body (.map bound) env w₁).2
    exact ⟨_, _, .entered constructs rfl removals⟩

theorem Unwinding.run_scope {remover : Term → Term → Act Unit} {o : Term} {named : Named} {body : Term → Act α}
    {w w₀ w' : World} {r : Except Fault α} (h : Unwinding remover o env named body w₀ r w')
    (hn : (named.map (·.1)).Nodup) {ontology : Term} (ho : Current.orGiven ontology env w = (.ok o, w₀)) :
    Scope.run (scope remover (bindings named) ontology) body env w = (r, w') := by
  rw [Scope.run, run_bind, scope, run_bind, ho]
  cases h with
  | refused constructs removals =>
    simp only [run_bind, constructs.run_bindAll hn (.nil named), removals.run_cleanUp_some]
    rfl
  | @entered _ _ own _ answers _ constructs ends removals =>
    simp only [run_bind, constructs.run_bindAll hn (.nil named), run_context, run_pure, run_attempt, run_within, ends]
    cases own with
    | error f => simp only [run_bind, removals.run_cleanUp_some]; rfl
    | ok a =>
      simp only [run_bind, removals.run_cleanUp_none, verdict]
      cases faults answers <;> rfl

/-- **How a scope ends.** Where its ontology is found, a scope of probes with different names ends in the way that its
constructors, its body and all removals give together; where not, nothing has been called. -/
theorem run_scope_iff (remover : Term → Term → Act Unit) {named : Named} (hn : (named.map (·.1)).Nodup)
    (ontology : Term) (body : Term → Act α) (env : Env) (w : World) :
    match Current.orGiven ontology env w with
    | (.ok o, w₀) => ∀ r w', Scope.run (scope remover (bindings named) ontology) body env w = (r, w') ↔
        Unwinding remover o env named body w₀ r w'
    | (.error f, w₀) => Scope.run (scope remover (bindings named) ontology) body env w = (.error f, w₀) := by
  rcases ho : Current.orGiven ontology env w with ⟨f | o, w₀⟩
  · dsimp only
    rw [Scope.run, run_bind, scope, run_bind, ho]
  · intro r w'
    constructor
    · intro hrun
      obtain ⟨r₁, w₁, h⟩ := Unwinding.total remover o env named body w₀
      obtain ⟨rfl, rfl⟩ := Prod.mk.inj (hrun.symm.trans (h.run_scope hn ho))
      exact h
    · intro h
      exact h.run_scope hn ho

/-- Probes of which the first and the last one are no axioms, so that they cannot be removed. The last one lists
the names that are bound before it. -/
def stubborn : Named :=
  [("word", fun _ => pure (.text "x")),
    ("stored", fun _ => pure (Axiom.declaration (.entity 0 ⟨.cls, "c"⟩)).toTerm),
    ("names", fun bound => pure (.tuple (bound.map (·.1))))]

/-- Both removals that fail are reported, the last one first, and the one between them is made. -/
theorem run_scope_iff_stubborn :
    Unwinding removeAxiom (.handle (.ontology 0)) .plain stubborn (fun bound => pure bound) .single
      (.error (.probeCleanup [.rejected (.notAxiom "('word', 'stored')"), .rejected (.notAxiom "'x'")]))
      (World.single.setOntology 0 ⟨"o", .null, [], [], []⟩) :=
  (run_scope_iff removeAxiom (by decide : (stubborn.map (·.1)).Nodup) (.handle (.ontology 0))
    (fun bound => pure bound) .plain .single _ _).mp rfl

end Authoring.Probe
