import Authoring.Proofs.Kinds

/-!
# Groups have members enough

A group axiom keeps its members in one set, and two references may denote one member: by a name and by an IRI, by a
producer, or by an entity that is written twice. Still, **no group axiom that is stored is degenerate**
(`Plan.run_ample`): disjointness, sameness and difference are between two different members at least, and inverses are
one object property or two (`Axiom.IsAmple`). This is so however a plan ends, and whatever of it has failed and was
caught.

**What carries the proof.** The sizes of the sets are part of the form of an axiom, and every axiom that the layer adds
has its form (`Axiom.HasForm.isAmple`). So the invariant is kept under the most lenient policy.

**What is assumed.** The ontology is empty in the beginning, and a delayed expression that may be called keeps what is
said of the ontology, as one does that runs a plan of the layer. Expressions and annotations may be of any sort.
-/

namespace Authoring

open Act

/-- **A group axiom that is not degenerate**: two different members at least are disjoint, the same or different, and one
object property or two are inverses. -/
structure Axiom.IsAmple (a : Axiom) : Prop where
  several (hk : a.kind ∈ [.disjointClasses, .sameIndividual, .differentIndividuals]) :
    ∃ ms, a.operands = [.set true ms] ∧ Distinct ms ∧ 2 ≤ ms.length
  couple (hk : a.kind = .inverseObjectProperties) : ∃ ms, a.operands = [.set true ms] ∧ Distinct ms ∧
    1 ≤ ms.length ∧ ms.length ≤ 2 ∧ ∀ m ∈ ms, m.IsOfKind .objectProperty

namespace Axiom.HasForm

variable {E N : Term → Prop} {a : Axiom} {least : Nat} {most : Option Nat} {p : Place}

/-- An axiom whose one place is for a set has such a set. -/
theorem exists_members (ha : a.HasForm E N) (hk : a.kind.places = [.members least most p]) :
    ∃ ms, a.operands = [.set true ms] ∧ Distinct ms ∧ least ≤ ms.length ∧ (∀ n ∈ most, ms.length ≤ n) ∧
      ∀ m ∈ ms, p.Admits E N m := by
  rw [HasForm, hk] at ha
  cases hops : a.operands with
  | nil =>
    rw [hops] at ha
    cases ha
  | cons t ts =>
    rw [hops] at ha
    obtain ⟨⟨ms, rfl, hmembers⟩, hrest⟩ := List.forall₂_cons.mp ha
    cases hrest
    exact ⟨ms, rfl, hmembers⟩

/-- **An axiom that has its form is not degenerate**, whatever describes classes. -/
theorem isAmple (ha : a.HasForm E N) : a.IsAmple where
  several hk := by
    have hplaces : ∃ p, a.kind.places = [.members 2 none p] := by
      simp only [List.mem_cons, List.not_mem_nil, or_false] at hk
      rcases hk with hk | hk | hk <;> exact ⟨_, congrArg AxiomKind.places hk⟩
    obtain ⟨p, hplaces⟩ := hplaces
    obtain ⟨ms, hset, hd, hleast, -⟩ := ha.exists_members hplaces
    exact ⟨ms, hset, hd, hleast⟩
  couple hk := by
    obtain ⟨ms, hset, hd, hleast, hmost, hms⟩ := ha.exists_members (congrArg AxiomKind.places hk)
    exact ⟨ms, hset, hd, hleast, hmost 2 rfl, hms⟩

end Axiom.HasForm

/-! ## Worlds and plans -/

/-- A world in which no group axiom of an ontology is degenerate. The windows hold entities only, and the naming functions
call nothing but what may be called. -/
structure World.Ample (S : Expr → Prop) (id : Nat) (w : World) : Prop where
  axioms : ∀ a ∈ (w.ontology id).axioms, a.IsAmple
  collected : w.Collected
  naming : w.NamesWithin S

/-- Whatever may be worked on and whatever the expressions are made of, that no group axiom is degenerate is an invariant
of the authoring layer. -/
instance (S : Expr → Prop) (id : Nat) : Invariant (.lenient S fun _ => True) (World.Ample S id) where
  naming h := h.naming
  collected h := h.collected
  registered _ _ _ := trivial
  consulted h hw :=
    ⟨hw.ontology id ▸ h.axioms, h.collected.of_untouched hw.toUntouched, h.naming.of_untouched hw.toUntouched⟩
  windows h _ hentity := ⟨h.axioms, hentity, h.naming⟩
  add h _ ha j := ⟨World.forall_axioms_add h.axioms ha.form.isAmple j, h.collected, h.naming⟩

namespace Plan

/-- **No stored group axiom is degenerate**: after any plan of the authoring layer that has begun with an empty ontology,
whatever of it has failed, each axiom of the ontology on disjointness, sameness or difference has two different members
at least, and each on inverses has one member or two, which are object properties. -/
theorem run_ample {S : Expr → Prop} {id : Nat} {p : Plan} {env : Env} {w : World}
    (hp : p.Meets (.lenient S fun _ => True)) (henv : env.Serves (.lenient S fun _ => True) (World.Ample S id))
    (hempty : (w.ontology id).axioms = []) (hw : w.Collected) (hnaming : w.NamesWithin S) :
    ∀ a ∈ ((p.run env w).2.ontology id).axioms, a.IsAmple :=
  have hample : w.Ample S id := ⟨hempty ▸ List.forall_mem_nil _, hw, hnaming⟩
  (run_upholds Policy.lenient_closed hp env henv w hample).1.axioms

/-- An individual that is to be the same as itself and another, and a class that is to be disjoint from itself and from
what a producer gives; a property that is collected twice to be its own inverse, one that is collected alone, which is
refused and caught; and a class that is to be disjoint from others, all of which are the same. -/
def crowded : Plan :=
  .step (Service.Call.making .individual "i" (.map [(.text "same", .list [.text "i", .text "j"])])).run fun _ =>
  .step (Service.Call.making .cls "C" (.map [(.text "disjoint", .list [.text "C", .closure 0 0 .null .null])])).run fun _ =>
  .scope (.inverse .null)
    (fun _ => .calling (.making .objectProperty "p" .null) [.making .objectProperty "p" .null]) fun _ =>
  .caught (.scope (.inverse .null) (fun _ => .calling (.making .objectProperty "q" .null) []) .done) fun _ =>
  .scope (.disjoint .null) (fun _ => .calling (.making .cls "D" .null) [.making .cls "D" .null]) .done

theorem crowded_meets : crowded.Meets (.lenient (fun _ => True) fun _ => True) := by
  have making : ∀ kind name, (Service.Call.making kind name .null).Meets (.lenient (fun _ => True) fun _ => True) :=
    fun kind name => making_meets kind name trivial
  refine ⟨⟨_, rfl, making_meets _ _ ⟨⟨trivial, trivial, trivial⟩, trivial⟩⟩, fun _ _ => ?_⟩
  refine ⟨⟨_, rfl, making_meets _ _ ⟨⟨trivial, trivial, trivial⟩, trivial⟩⟩, fun _ _ => ?_⟩
  refine ⟨Policy.targets_null, fun _ _ => ?_, fun _ _ => ⟨⟨Policy.targets_null, fun _ _ => ?_, fun _ => id⟩, fun _ _ => ?_⟩⟩
  · exact calling_meets (making _ _) (List.forall_mem_singleton.mpr (making _ _))
  · exact calling_meets (making _ _) (List.forall_mem_nil _)
  · refine ⟨Policy.targets_null, fun _ _ => ?_, fun _ => id⟩
    exact calling_meets (making _ _) (List.forall_mem_singleton.mpr (making _ _))

theorem run_ample_crowded :
    let env := Env.single.running fun _ _ => produced
    let axioms := ((crowded.run env unwritten).2.ontology 0).axioms
    (crowded.run env unwritten).1.isOk = true ∧ axioms.length = 9 ∧ ∀ a ∈ axioms, a.IsAmple := by
  intro env axioms
  have henv : env.Serves (.lenient (fun _ => True) fun _ => True) (World.Ample (fun _ => True) 0) :=
    (single_serves trivial).running Policy.lenient_closed fun _ _ _ => produced_meets fun _ _ _ _ _ => trivial
  have hwindows : unwritten.Collected := List.forall_mem_singleton.mpr (List.forall_mem_nil _)
  have hnaming : unwritten.NamesWithin fun _ => True := List.forall_mem_nil _
  exact ⟨by decide +kernel, by decide +kernel, run_ample crowded_meets henv rfl hwindows hnaming⟩

end Plan

end Authoring
