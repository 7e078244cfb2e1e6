import Authoring.Proofs.Hierarchy.Forms
import Authoring.Proofs.Hierarchy.Partners

/-!
# What is told of disjoint classes

Two kinds of axioms assert that classes are disjoint: a disjointness, of its members, and a disjoint union, of the
classes that it unites (`Ontology.AssertsDisjoint`). **The query goes by the disjointnesses alone**
(`Hierarchy.isDisjoint_told`). It always answers. Two different classes are told to be disjoint exactly if a stored
disjointness has both as members, in whatever order they are asked about. What only a disjoint union asserts is not told,
and adding one changes no answer (`Hierarchy.isDisjoint_overlooks`).

**What is assumed.** What the references denote, and the operands of the stored disjointnesses, are properly made
(`Term.IsRegular`, `Ontology.Proper`), as all classes and class expressions are that the operations make. Nothing is
assumed of the other axioms, or of what is called to read the references.
-/

namespace Authoring

open Act

/-- **The classes that an axiom asserts to be disjoint**: the members of a disjointness, and what a disjoint union
unites. -/
inductive Axiom.Separates : Axiom → List Term → Prop
  | disjointness (f : Bool) (ms : List Term) : Separates ⟨.disjointClasses, [.set f ms]⟩ ms
  | union (owner : Term) (f : Bool) (ms : List Term) : Separates ⟨.disjointUnion, [owner, .set f ms]⟩ ms

namespace Ontology

variable {o : Ontology} {k : AxiomKind} {a : Axiom} {s t : Term}

/-- **Asserted to be disjoint**: among the classes that a stored axiom separates. -/
def AssertsDisjoint (o : Ontology) (s t : Term) : Prop :=
  ∃ a ∈ o.axioms, ∃ ms, a.Separates ms ∧ ms.contains s = true ∧ ms.contains t = true

/-- Among the classes that a stored disjoint union unites. -/
def Unites (o : Ontology) (s t : Term) : Prop :=
  ∃ owner f ms, (⟨.disjointUnion, [owner, .set f ms]⟩ : Axiom) ∈ o.axioms ∧ ms.contains s = true ∧ ms.contains t = true

theorem assertsDisjoint_iff : o.AssertsDisjoint s t ↔ o.Joins .disjointClasses s t ∨ o.Unites s t := by
  constructor
  · rintro ⟨_, ha, ms, ⟨f, _⟩ | ⟨owner, f, _⟩, hs, ht⟩
    · exact .inl ⟨f, ms, ha, hs, ht⟩
    · exact .inr ⟨owner, f, ms, ha, hs, ht⟩
  · rintro (⟨f, ms, ha, hs, ht⟩ | ⟨owner, f, ms, ha, hs, ht⟩)
    · exact ⟨_, ha, ms, .disjointness f ms, hs, ht⟩
    · exact ⟨_, ha, ms, .union owner f ms, hs, ht⟩

end Ontology

namespace Hierarchy

open Reference Ontology

variable {env : Env} {w w₁ v : World} {ontology s t c d : Term} {id : Nat}

/-- **How the question is answered** whether two classes are disjoint, given what the two references denote. -/
structure ToldDisjoint (env : Env) (ontology s t : Term) (id : Nat) (c d : Term) (w v : World) (b : Bool) : Prop where
  /-- There is an answer, and nothing happens but that the references are read. -/
  answered : isDisjoint s t ontology env w = (.ok b, v)
  /-- It is yes if both are different members of a stored disjointness, and only then. -/
  joined : b = true ↔ (c == d) = false ∧ (v.ontology id).Joins .disjointClasses c d
  /-- So of different classes that are asserted to be disjoint those are missed that only a disjoint union separates. -/
  missed : (c == d) = false → ((v.ontology id).AssertsDisjoint c d ↔ b = true ∨ (v.ontology id).Unites c d)
  /-- The other way round the answer is the same. -/
  symmetric : isDisjoint d c (.handle (.ontology id)) env v = (.ok b, v)
  /-- After a disjoint union has been added, the answer is the same. -/
  unnoticed : ∀ owner ms, let v' := v.setOntology id ((v.ontology id).add (.disjointUnion owner ms))
    isDisjoint c d (.handle (.ontology id)) env v' = (.ok b, v')

/-- **Classes are told to be disjoint by the disjointnesses alone.** -/
theorem isDisjoint_told (hgiven : Current.orGiven ontology env w = (.ok (.handle (.ontology id)), w))
    (hs : resolveClass s (.handle (.ontology id)) env w = (.ok c, w₁))
    (ht : resolveClass t (.handle (.ontology id)) env w₁ = (.ok d, v)) (hc : c.IsRegular) (hd : d.IsRegular)
    (ho : (v.ontology id).Proper .disjointClasses) : ∃ b, ToldDisjoint env ontology s t id c d w v b := by
  have hcstable : c.isStable = true := Term.isStable_of_isBuilt hc.built
  have hdstable : d.isStable = true := Term.isStable_of_isBuilt hd.built
  have self : ∀ {e : Term}, Denotes .cls e → ∀ w, resolveClass e (.handle (.ontology id)) env w = (.ok e, w) :=
    fun he w => he.run_resolve _ _ env w
  have hcself := self (resolve_ok hs)
  have hdself := self (resolve_ok ht)
  have hjoined := partners_contains_iff ho hc hd
  refine ⟨((v.ontology id).partners .disjointClasses c).contains d, ?_, hjoined, ?_, ?_, ?_⟩
  · rw [isDisjoint, related_given hgiven]
    exact run_related hs ht hcstable hdstable
  · intro hcd
    rw [assertsDisjoint_iff, hjoined]
    simp only [hcd, true_and]
  · have hback : ((v.ontology id).partners .disjointClasses d).contains c =
        ((v.ontology id).partners .disjointClasses c).contains d := by
      apply Bool.eq_iff_iff.mpr
      rw [hjoined, partners_contains_iff ho hd hc, hd.beq_comm hc]
      exact and_congr_right' ⟨.symm, .symm⟩
    rw [isDisjoint, run_related (hdself v) (hcself v) hdstable hcstable, hback]
  · intro owner ms v'
    have hsame : (v'.ontology id).ofKind .disjointClasses = (v.ontology id).ofKind .disjointClasses := by
      rcases World.ontology_setOntology_or v id id ((v.ontology id).add (.disjointUnion owner ms)) with h | ⟨-, h⟩
      · rw [h]
      · rw [h, ofKind_add_of_ne (by simp [Axiom.disjointUnion])]
    rw [isDisjoint, run_related (hcself v') (hdself v') hcstable hdstable, partners_congr hsame]

/-- A class that is disjoint with the complement of another one, and the union of two. -/
def separated : World :=
  let cls (iri : String) : Term := .entity 0 ⟨.cls, iri⟩
  let complement : Term := .expression (.ofOperator .not) [cls "n:B"] .null
  { named with ontologies := [⟨"o", .null,
      [.disjointClasses [cls "n:A", complement], .disjointUnion (cls "n:A") [cls "n:B", cls "n:C"]], [], []⟩] }

/-- A produced name and a class expression are told to be disjoint. Two names are not, that only a disjoint union
separates. -/
theorem isDisjoint_told_complement :
    let o : Term := .handle (.ontology 0)
    let cls (iri : String) : Term := .entity 0 ⟨.cls, iri⟩
    let complement : Term := .expression (.ofOperator .not) [cls "n:B"] .null
    Current.orGiven .null unwrapping separated = (.ok o, separated) ∧
      resolveClass (.closure 0 0 (.text "A") .null) o unwrapping separated = (.ok (cls "n:A"), separated) ∧
      resolveClass complement o unwrapping separated = (.ok complement, separated) ∧
      (∀ iri, (cls iri).IsRegular) ∧ complement.IsRegular ∧ (separated.ontology 0).Proper .disjointClasses ∧
      ToldDisjoint unwrapping .null (.closure 0 0 (.text "A") .null) complement 0 (cls "n:A") complement separated
        separated true ∧
      ToldDisjoint unwrapping .null (.text "B") (.text "C") 0 (cls "n:B") (cls "n:C") separated separated false := by
  intro o cls complement
  have hgiven : Current.orGiven .null unwrapping separated = (.ok o, separated) := rfl
  have hproduced :
      resolveClass (.closure 0 0 (.text "A") .null) o unwrapping separated = (.ok (cls "n:A"), separated) := rfl
  have hcomplement : resolveClass complement o unwrapping separated = (.ok complement, separated) := rfl
  have hproper : (separated.ontology 0).Proper .disjointClasses := by
    unfold Ontology.Proper
    decide
  have hname : ∀ iri, (cls iri).IsRegular := fun iri => .entity 0 _
  have hregular : complement.IsRegular := ⟨rfl, rfl⟩
  obtain ⟨b, hb⟩ := isDisjoint_told hgiven hproduced hcomplement (hname _) hregular hproper
  obtain ⟨b', hb'⟩ :=
    isDisjoint_told (s := .text "B") (t := .text "C") hgiven rfl rfl (hname "n:B") (hname "n:C") hproper
  obtain rfl : true = b := by
    have h := hb.answered
    cases h
    rfl
  obtain rfl : false = b' := by
    have h := hb'.answered
    cases h
    rfl
  exact ⟨hgiven, hproduced, hcomplement, hname, hregular, hproper, hb, hb'⟩

/-- **A disjoint union is overlooked.** After a class has been made the disjoint union of two others an axiom asserts
that these are disjoint, but they are not told to be. -/
theorem isDisjoint_overlooks :
    let v := (Builder.addDisjointUnion (.text "A") [.text "B", .text "C"] .null .single .single).2
    let cls (iri : String) : Term := .entity 0 ⟨.cls, iri⟩
    (v.ontology 0).axioms = [.declaration (cls "c"), .disjointUnion (cls "o#A") [cls "o#B", cls "o#C"]] ∧
      (v.ontology 0).AssertsDisjoint (cls "o#B") (cls "o#C") ∧
      (isDisjoint (.text "B") (.text "C") .null .single v).1 = .ok false := by
  intro v cls
  have hstored : Axiom.disjointUnion (cls "o#A") [cls "o#B", cls "o#C"] ∈ (v.ontology 0).axioms :=
    List.mem_cons_of_mem _ List.mem_cons_self
  have hunites : (v.ontology 0).Unites (cls "o#B") (cls "o#C") := ⟨cls "o#A", true, _, hstored, rfl, rfl⟩
  exact ⟨rfl, assertsDisjoint_iff.mpr (.inr hunites), rfl⟩

end Hierarchy

end Authoring
