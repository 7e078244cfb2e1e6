import Authoring.Proofs.Invariant.Service
import Authoring.Proofs.Window.Orderly

/-!
# Axioms are well-kinded

Nothing in the types keeps a property from standing where a class belongs, and the references and values that the
authoring layer is handed may be of any sort. Still, **every axiom that it stores is well-kinded**
(`Plan.run_kinded`): its operands are of the kinds that belong at their places (`Axiom.IsKinded`), and so are, at any
depth, the operands of the class expressions in it (`Term.IsDescription`). This is so however a plan ends, and whatever
of it has failed and was caught.

**What carries the proof.** To be well-kinded is an invariant of the layer, under the policy that lets through
expressions and annotations that are (`Policy.kinded`); and the policy is closed, for the operations on expressions and
annotations read their operands as they should be (`Policy.kinded_closed`).

**What is assumed.** The ontology is empty in the beginning; the expressions and annotations among the arguments are
well-kinded, as are those that the layer makes; and a delayed expression that may be called keeps what is said of the
ontology and gives a term of this sort. A producer that runs a plan of the layer does so (`Env.Serves.running`).
-/

namespace Authoring

open Act

/-! ## Descriptions of classes -/

/-- **A class or class expression whose operands are of the right kinds**, at any depth. -/
inductive Term.IsDescription : Term → Prop
  | named {t : Term} (h : t.IsOfKind .cls) : IsDescription t
  | quantified {o : Operator} {p f : Term} (ho : o = .some ∨ o = .only) (hp : p.IsOfKind .objectProperty)
    (hf : IsDescription f) : IsDescription (.expression (.ofOperator o) [p, f] .null)
  | counted {o : Operator} {p f c : Term} (ho : o ∈ [.min, .max, .exactly]) (hp : p.IsOfKind .objectProperty)
    (hf : IsDescription f) (hc : c.IsCardinality) : IsDescription (.expression (.ofOperator o) [p, f] c)
  | complement {f : Term} (hf : IsDescription f) : IsDescription (.expression (.ofOperator .not) [f] .null)
  | combination {o : Operator} {ms : List Term} (ho : o = .and ∨ o = .or) (hne : ms ≠ []) (hd : Distinct ms)
    (hms : ∀ t ∈ ms, IsDescription t) : IsDescription (.expression (.ofOperator o) [.set true ms] .null)
  | enumeration {ms : List Term} (hne : ms ≠ []) (hd : Distinct ms) (hms : ∀ t ∈ ms, t.IsOfKind .individual) :
    IsDescription (.expression (.ofOperator .oneOf) [.set true ms] .null)

namespace Policy

/-- Expressions and annotations are let through if they are well-kinded; any ontology may be worked on. -/
def kinded (producers : Expr → Prop) : Policy :=
  ⟨Term.IsDescription, Term.IsOfKind .annotationProperty, producers, fun _ => True⟩

variable {S : Expr → Prop} {t : Term}

theorem kinded_describes (h : (kinded S).Describes t) : t.IsDescription := h.elim .named (·.2)

/-- Operators that count do so by any number that is not negative. -/
theorem kinded_counts {o : Operator} {c : Term} (ho : o ∈ [.min, .max, .exactly]) (hc : c.IsCardinality) :
    (kinded S).Counts o c := fun _ _ hp hf => .counted ho hp (kinded_describes hf) hc

/-- **What is made of what is well-kinded is well-kinded.** -/
theorem kinded_closed : (kinded S).Closed where
  restriction ho _ _ hp hf := .quantified ho hp (kinded_describes hf)
  complement hf := .complement (kinded_describes hf)
  combination ho hne hd hms _ := .combination ho hne hd fun t ht => kinded_describes (hms t ht)
  enumeration := .enumeration
  note := id

end Policy

/-- **A well-kinded axiom**: each operand is of the kind that belongs at its place, at any depth. -/
def Axiom.IsKinded (a : Axiom) : Prop := a.HasForm Term.IsDescription (Term.IsOfKind .annotationProperty)

/-! ## Worlds -/

/-- A world in which all axioms of an ontology are well-kinded. The windows hold entities only, and the naming functions
call nothing but what may be called. -/
structure World.Kinded (S : Expr → Prop) (id : Nat) (w : World) : Prop where
  axioms : ∀ a ∈ (w.ontology id).axioms, a.IsKinded
  collected : w.Collected
  naming : w.NamesWithin S

/-- **To be well-kinded is an invariant of the authoring layer.** -/
instance (S : Expr → Prop) (id : Nat) : Invariant (.kinded S) (World.Kinded S id) where
  naming h := h.naming
  collected h := h.collected
  registered _ _ _ := trivial
  consulted h hw :=
    ⟨hw.ontology id ▸ h.axioms, h.collected.of_untouched hw.toUntouched, h.naming.of_untouched hw.toUntouched⟩
  windows h _ hentity := ⟨h.axioms, hentity, h.naming⟩
  add h _ ha j :=
    ⟨World.forall_axioms_add h.axioms (ha.form.mono (fun _ => Policy.kinded_describes) fun _ hp => hp) j, h.collected, h.naming⟩

/-- **Producers may use the authoring layer themselves**: what is assumed of delayed expressions holds of those that run
plans that uphold the invariant. -/
theorem Env.Serves.running_of_upholds {π : Policy} {I : World → Prop} {env : Env} (h : env.Serves π I)
    {p : Expr → Term → Plan} (hp : ∀ body, π.producers body → ∀ bound, Upholds π I (p body bound).run (·.Meets π)) :
    (env.running p).Serves π I where
  context := h.context
  evaluated body hbody bound c hc w hw := hp body hbody bound { env with context := c } ⟨hc, h.evaluated⟩ w hw

/-- So they may run plans of the layer. -/
theorem Env.Serves.running {π : Policy} {I : World → Prop} [Invariant π I] (hπ : π.Closed) {env : Env}
    (h : env.Serves π I) {p : Expr → Term → Plan} (hp : ∀ body, π.producers body → ∀ bound, (p body bound).Meets π) :
    (env.running p).Serves π I :=
  h.running_of_upholds fun body hbody bound => Plan.run_upholds hπ (hp body hbody bound)

namespace Plan

/-! ## The axioms that are stored -/

/-- **Stored axioms are well-kinded**: after any plan of the authoring layer that has begun with an empty ontology,
every axiom of the ontology has terms of the right kinds for its operands, at any depth. -/
theorem run_kinded {S : Expr → Prop} {id : Nat} {p : Plan} {env : Env} {w : World} (hp : p.Meets (.kinded S))
    (henv : env.Serves (.kinded S) (World.Kinded S id)) (hempty : (w.ontology id).axioms = []) (hw : w.Collected)
    (hnaming : w.NamesWithin S) : ∀ a ∈ ((p.run env w).2.ontology id).axioms, a.IsKinded :=
  have hkinded : w.Kinded S id := ⟨hempty ▸ List.forall_mem_nil _, hw, hnaming⟩
  (run_upholds Policy.kinded_closed hp env henv w hkinded).1.axioms

/-- The world with one ontology that is empty. -/
def unwritten : World := { World.single with ontologies := [⟨"o", .null, [], [], []⟩] }

/-- An individual with a fact; a group scope that collects a class, restricted to what a producer gives; and a class
with a domain, which is refused and caught. -/
def assorted : Plan :=
  .step (Service.Call.making .individual "i" (.map [(.text "fact", .fact (.text "q") (.text "j") false)])).run fun _ =>
  .scope (.subclasses (.text "A") (.bool true) (.bool true) .null)
    (fun _ => .step (Service.Call.value (.someOnly (.text "p") [.text "B", .closure 0 0 .null .null])).run fun parts =>
      .calling (.making .cls "C" (.map [(.text "equivalent", parts)])) [])
    fun _ => .caught (.calling (.making .cls "D" (.map [(.text "domain", .text "A")])) []) fun _ => .done .null

/-- What the producer does: it declares a class, which is collected, too, and gives a class expression. -/
def produced : Plan :=
  .calling (.making .cls "E" .null) [.value (.count .min (.int 2) (.text "p") [.text "B"])]

theorem calling_meets {π : Policy} {c : Service.Call} {cs : List Service.Call} (hc : c.Meets π)
    (hcs : ∀ c ∈ cs, c.Meets π) : (calling c cs).Meets π := by
  induction cs generalizing c with
  | nil => exact ⟨⟨c, rfl, hc⟩, fun _ => id⟩
  | cons c' cs ih =>
    obtain ⟨hc', hcs⟩ := List.forall_mem_cons.mp hcs
    exact ⟨⟨c, rfl, hc⟩, fun _ _ => ih hc' hcs⟩

theorem making_meets {π : Policy} (kind : EntityKind) (name : String) {frames : Term} (h : frames.Meets π) :
    (Service.Call.making kind name frames).Meets π := ⟨Policy.targets_null, trivial, h, nofun⟩

theorem assorted_meets : assorted.Meets (.kinded fun _ => True) := by
  refine ⟨⟨_, rfl, making_meets _ _ ⟨⟨trivial, trivial⟩, trivial⟩⟩, fun _ _ => ?_⟩
  refine ⟨⟨Policy.targets_null, trivial⟩, fun _ _ => ?_, fun _ _ => ?_⟩
  · refine ⟨⟨_, rfl, trivial, ?_⟩, fun parts hparts => calling_meets (making_meets _ _ ⟨hparts, trivial⟩) nofun⟩
    exact List.forall_mem_cons.mpr ⟨trivial, List.forall_mem_singleton.mpr trivial⟩
  · exact ⟨calling_meets (making_meets _ _ ⟨trivial, trivial⟩) nofun, fun _ _ => trivial⟩

theorem produced_meets {π : Policy} (h : (Term.int 2).IsCardinality → π.Counts .min (.int 2)) : produced.Meets π := by
  refine calling_meets (making_meets _ _ trivial) (List.forall_mem_singleton.mpr ?_)
  exact ⟨rfl, h, trivial, List.forall_mem_singleton.mpr trivial⟩

theorem single_serves {π : Policy} {I : World → Prop} (h : π.targets 0) : Env.single.Serves π I where
  context := ⟨nofun, fun _ hid => Handle.ontology.inj (Term.handle.inj hid) ▸ h⟩
  evaluated _ _ _ _ _ _ hw := ⟨hw, fun _ h => Except.ok.inj h ▸ trivial⟩

theorem run_kinded_assorted :
    let env := Env.single.running fun _ _ => produced
    let axioms := ((assorted.run env unwritten).2.ontology 0).axioms
    (assorted.run env unwritten).1.isOk = true ∧ axioms.length = 11 ∧ ∀ a ∈ axioms, a.IsKinded := by
  intro env axioms
  have henv : env.Serves (.kinded fun _ => True) (World.Kinded (fun _ => True) 0) :=
    (single_serves trivial).running Policy.kinded_closed fun _ _ _ =>
      produced_meets (Policy.kinded_counts (by decide))
  have hwindows : unwritten.Collected := List.forall_mem_singleton.mpr nofun
  exact ⟨by decide +kernel, by decide +kernel, run_kinded assorted_meets henv rfl hwindows nofun⟩

end Plan

end Authoring
