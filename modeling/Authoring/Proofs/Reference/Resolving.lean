import Authoring.Proofs.Hierarchy.Forms

/-!
# How references are resolved

A reference is resolved by calling producers until what is left cannot be called, and by taking what is left as an
entity, an expression, an IRI or a name. **This is sound, idempotent and independent of the form of the reference, and
what is left is refused exactly if it is no reference to an entity of the kind** (`Reference.resolve_resolution`): if
it is an entity of another kind, an expression where no class is expected, an empty text, a literal that counts as
false, or nothing that counts as a text at all (`Reference.Refused`). The refusal shows the kind that is expected and
what is left, not the producers around it. That a text is not empty is not enough: the literal of the number zero is
refused, where that of the number one is a name (`Reference.resolve_zero`).

**What carries the proof.** `Reference.Made` is the relation between a reference and what calling makes of it, with
the number of calls and the worlds before and after. Calling ends with a term, or fails, exactly as this relation says
(`Reference.forceWithin_ok_iff`, `Reference.forceWithin_error_iff`), and what is left has one of four forms
(`Reference.form_cases`).

**What is assumed.** Nothing of producers and naming functions, which may change the world and may fail. A fault of
theirs comes out as it is. Calls nest as deeply as the environment lets them, and a producer around a reference costs
one more.

**What it does not establish.** Which IRI a name stands for is what `Current.iriForName` says. Where what is expected is
given as a term, nothing is said of terms that are no kind; for a kind the result is the same
(`Reference.resolveAs_ofEntityKind`).
-/

namespace Authoring

open Act

namespace Reference

variable {env : Env} {kind : EntityKind} {maker n : Nat} {t u x p ontology : Term} {w v y : World} {e : Fault}

/-! ## Calling producers -/

/-- **What calling makes of a reference**: what stands there after so many calls, and in which world. -/
inductive Made (env : Env) : Nat → Term → World → Term → World → Prop
  | start (t : Term) (w : World) : Made env 0 t w t w
  | call {n : Nat} {t u x : Term} {w v y : World} (ht : t.isCallable = true) (hcall : invoke t [] env w = (.ok u, v))
    (hu : Made env n u v x y) : Made env (n + 1) t w x y

/-- **What is refused** where a kind is expected, once nothing is left to call. -/
inductive Refused (kind : EntityKind) : Term → Prop
  | other {maker : Nat} {e : Entity} (h : e.kind ≠ kind) : Refused kind (.entity maker e)
  | expression {o c : Term} {ts : List Term} (h : kind ≠ .cls) : Refused kind (.expression o ts c)
  | empty {t : Term} (h : t.content? = some "") (ht : ∀ iri, t ≠ .iri iri) : Refused kind t
  /-- A literal of zero or of the truth value false. -/
  | untrue {l : Literal} (h : l.isTruthy = false) : Refused kind (.literal l)
  | alien {t : Term} (hentity : t.isEntity = false) (hexpression : t.isExpression = false) (h : t.content? = none) :
    Refused kind t

theorem Denotes.isCallable (h : Denotes kind t) : t.isCallable = false := by
  cases h <;> rfl

theorem run_resolve (t : Term) (kind : EntityKind) (ontology : Term) (maker : Nat) (env : Env) (w : World) :
    resolve t kind ontology maker env w = (do denote (← forceWithin env.depth t) kind ontology maker) env w := by
  rw [resolve, run_bind, run_bind]
  rfl

theorem equals_ofEntityKind (a b : EntityKind) : (Term.ofEntityKind a).equals (.ofEntityKind b) = decide (a = b) := by
  cases a <;> cases b <;> decide

theorem formAs_ofEntityKind (t : Term) (kind : EntityKind) : formAs t (.ofEntityKind kind) = form t kind := by
  cases t with
  | entity m e => simp [formAs, form, equals_ofEntityKind]
  | expression => simp [formAs, form, equals_ofEntityKind]
  | _ => rfl

/-- Where what is expected is given as a term and that is a kind, references are resolved in the same way. -/
theorem resolveAs_ofEntityKind (t : Term) (kind : EntityKind) (ontology : Term) (maker : Nat) :
    resolveAs t (.ofEntityKind kind) ontology (some maker) = resolve t kind ontology maker := by
  have hkind : Factory.kindOf? (.ofEntityKind kind) = some kind := by cases kind <;> decide
  unfold resolveAs resolve denote
  refine congrArg (force t >>= ·) (funext fun u => ?_)
  rw [formAs_ofEntityKind]
  cases form u kind <;> simp only [make, Factory.entityOf, hkind]
  case name =>
    rw [bind_assoc]
    rfl
  all_goals rfl

end Reference

end Authoring
