import Authoring.Change
import Authoring.Proofs.Ontology
import Authoring.Proofs.Reference

/-!
# What a store makes of changes

Every change of an ontology goes through the installed store, which asks whether it holds the ontology. If it
does (`World.Manages`), an addition or a removal of an axiom that can be compared does what `Ontology.add` and
`Ontology.remove` say, to this ontology and to nothing else (`Store.run_add`, `Store.run_discard`). If it does
not, or if what is to be changed is no ontology at all, the world stays as it is (`Store.run_add_of_not`).

So several additions to what is given as an ontology are made all together or not at all
(`Change.addAxioms_cases`): the first one is refused, or none is.

A world is *sound* if its stores list only ontologies that there are. The world before anything has been done
is, and so is one with changed axioms.
-/

namespace Authoring

namespace World

variable {w : World} {id j : Nat} {o o' : Ontology}

/-- The installed store holds the ontology, which is one that there is. -/
structure Manages (w : World) (id : Nat) : Prop where
  exists_ontology : id < w.ontologies.length
  holds : w.holds w.installed id = true

/-- Stores list nothing but ontologies. -/
def Sound (w : World) : Prop := ∀ s ∈ w.stores, ∀ e ∈ s.entries, e.2 < w.ontologies.length

theorem ontology_of_lt (h : id < w.ontologies.length) : w.ontology id = w.ontologies[id] := by
  rw [ontology, List.getD_eq_getElem?_getD, List.getElem?_eq_getElem h, Option.getD_some]

@[simp] theorem ontology_setOntology (h : id < w.ontologies.length) : (w.setOntology id o).ontology id = o := by
  have h' : id < (w.ontologies.set id o).length := by rwa [List.length_set]
  show (w.ontologies.set id o).getD id default = o
  rw [List.getD_eq_getElem?_getD, List.getElem?_eq_getElem h', Option.getD_some, List.getElem_set_self]

theorem ontology_setOntology_of_ne (h : j ≠ id) : (w.setOntology id o).ontology j = w.ontology j := by
  show (w.ontologies.set id o).getD j default = w.ontologies.getD j default
  rw [List.getD_eq_getElem?_getD, List.getD_eq_getElem?_getD, List.getElem?_set_ne (Ne.symm h)]

theorem setOntology_setOntology : (w.setOntology id o).setOntology id o' = w.setOntology id o' := by
  show { w with ontologies := _ } = _
  rw [setOntology, setOntology, List.set_set]

theorem setOntology_ontology : w.setOntology id (w.ontology id) = w := by
  have h : w.ontologies.set id (w.ontology id) = w.ontologies := by
    by_cases hid : id < w.ontologies.length
    · rw [ontology_of_lt hid, List.set_getElem_self]
    · exact List.set_eq_of_length_le (Nat.le_of_not_lt hid)
  rw [setOntology, h]

theorem setOntology_of_le (h : w.ontologies.length ≤ id) : w.setOntology id o = w := by
  rw [setOntology, List.set_eq_of_length_le h]

/-- Only at its own place is an ontology found that has been set. -/
theorem ontology_setOntology_or (w : World) (id j : Nat) (o : Ontology) :
    (w.setOntology id o).ontology j = w.ontology j ∨ id = j ∧ (w.setOntology id o).ontology j = o := by
  by_cases hid : id < w.ontologies.length
  · by_cases hj : j = id
    · subst hj
      exact .inr ⟨rfl, ontology_setOntology hid⟩
    · exact .inl (ontology_setOntology_of_ne hj)
  · exact .inl (by rw [setOntology_of_le (Nat.le_of_not_lt hid)])

/-- An ontology keeps its IRI when another of this IRI is put in its place. -/
theorem setOntology_iri {o : Ontology} (h : o.iri = (w.ontology id).iri) (j : Nat) :
    ((w.setOntology id o).ontology j).iri = (w.ontology j).iri := by
  rcases ontology_setOntology_or w id j o with hsame | ⟨rfl, hset⟩
  · rw [hsame]
  · rw [hset, h]

/-- So a store holds what it has held. -/
theorem holds_setOntology {o : Ontology} (h : o.iri = (w.ontology id).iri) (s j : Nat) :
    (w.setOntology id o).holds s j = w.holds s j := by
  rw [holds, holds, setOntology_iri h]
  rfl

/-- What is true of an ontology's axioms and of one that is added to some ontology is true of its axioms afterwards. -/
theorem forall_axioms_add {P : Axiom → Prop} (h : ∀ b ∈ (w.ontology id).axioms, P b) {a : Axiom} (ha : P a) (j : Nat) :
    ∀ b ∈ ((w.setOntology j ((w.ontology j).add a)).ontology id).axioms, P b := by
  rcases ontology_setOntology_or w j id ((w.ontology j).add a) with hsame | ⟨rfl, hadded⟩
  · rwa [hsame]
  · rw [hadded]
    exact Ontology.forall_axioms_add h ha

/-- What a term is now depends on what the windows hold, and on nothing else. -/
theorem settle_congr {w' : World} (h : w'.windows = w.windows) (t : Term) : w'.settle t = w.settle t := by
  have hcontents : ∀ n id, w'.contents true n id = w.contents true n id := by
    intro n
    induction n with
    | zero => exact fun _ => rfl
    | succ n ih =>
      intro id
      rw [contents, contents, window, window, h, funext ih]
  rw [settle, settle, h, funext (hcontents _)]

namespace Manages

/-- A change of its axioms leaves an ontology managed. -/
theorem setOntology (h : w.Manages id) (hiri : o.iri = (w.ontology id).iri) : (w.setOntology id o).Manages id := by
  refine ⟨?_, ?_⟩
  · rw [World.setOntology, List.length_set]
    exact h.exists_ontology
  · rw [World.holds, ontology_setOntology h.exists_ontology, hiri]
    exact h.holds

theorem of_untouched {w' : World} (h : w.Manages id) (hw : w.Untouched w') : w'.Manages id := by
  refine ⟨hw.ontologies ▸ h.exists_ontology, ?_⟩
  rw [hw.installed, hw.holds]
  exact h.holds

end Manages

namespace Sound

theorem initial (settings : Settings) : (World.initial settings).Sound := by
  intro s hs e he
  rw [List.mem_singleton.mp hs] at he
  cases he

theorem of_untouched {w' : World} (h : w.Sound) (hw : w.Untouched w') : w'.Sound := by
  intro s hs e he
  rw [hw.ontologies]
  exact h s (hw.stores ▸ hs) e he

theorem setOntology (h : w.Sound) : (w.setOntology id o).Sound := by
  intro s hs e he
  rw [World.setOntology, List.length_set]
  exact h s hs e he

/-- What the installed store holds is one of the ontologies. -/
theorem manages (h : w.Sound) (hid : w.holds w.installed id = true) : w.Manages id := by
  refine ⟨?_, hid⟩
  have hlookup : w.located w.installed (w.ontology id).iri = some id := by simpa [World.holds] using hid
  unfold located store at hlookup
  by_cases hs : w.installed < w.stores.length
  · rw [List.getD_eq_getElem?_getD, List.getElem?_eq_getElem hs, Option.getD_some] at hlookup
    obtain ⟨l₁, l₂, hl, -⟩ := List.lookup_eq_some_iff.mp hlookup
    exact h _ (List.getElem_mem hs) (_, id) (hl ▸ List.mem_append_right _ List.mem_cons_self)
  · rw [List.getD_eq_getElem?_getD, List.getElem?_eq_none (Nat.le_of_not_lt hs)] at hlookup
    cases hlookup

end Sound

/-- The world with one ontology, which declares one class and which the store holds, and with one empty
window. -/
def single : World :=
  { initial ⟨"en", "#"⟩ with
    ontologies := [⟨"o", .null, [.declaration (.entity 0 ⟨.cls, "c"⟩)], [], []⟩]
    stores := [⟨[("o", 0)], [.forget]⟩]
    windows := [[]] }

theorem single_sound : single.Sound := by
  intro s hs e he
  rw [List.mem_singleton.mp hs] at he
  rw [List.mem_singleton.mp he]
  exact Nat.one_pos

theorem single_manages : single.Manages 0 := ⟨Nat.one_pos, by decide⟩

theorem single_lawful : (single.ontology 0).Lawful where
  stable a ha := by
    rw [List.mem_singleton.mp ha]
    exact ⟨by decide, by decide⟩
  distinct := Distinct.cons_iff.mpr ⟨nofun, .nil⟩

end World

/-! ## The store's changes -/

namespace Store

open Act

variable {w : World} {id : Nat} {env : Env} {a : Axiom} {t u : Term}

theorem run_requireManaged (h : w.Manages id) (env : Env) :
    requireManaged w.installed (.handle (.ontology id)) env w = (.ok (), w) := by
  have hc : contains w.installed (.handle (.ontology id)) env w = (.ok true, w) := by
    rw [← h.holds]
    rfl
  rw [requireManaged, run_bind, hc]
  rfl

@[simp] theorem run_requireAxiom (a : Axiom) (env : Env) (w : World) :
    requireAxiom a.toTerm env w = (.ok a, w) := rfl

theorem run_add (h : w.Manages id) (ha : a.toTerm.isStable = true) (env : Env) :
    add w.installed (.handle (.ontology id)) a.toTerm env w =
      (.ok !(w.ontology id).axioms.contains a, w.setOntology id ((w.ontology id).add a)) := by
  simp only [add, run_bind, run_requireManaged h, run_requireAxiom, asOntology, run_pure, run_requireStable ha]
  rfl

theorem run_discard (h : w.Manages id) (ha : a.toTerm.isStable = true) (env : Env) :
    discard w.installed (.handle (.ontology id)) a.toTerm env w =
      (.ok ((w.ontology id).axioms.contains a), w.setOntology id ((w.ontology id).remove a)) := by
  simp only [discard, run_bind, run_requireManaged h, run_requireAxiom, asOntology, run_pure, run_requireStable ha]
  rfl

theorem exists_run_contains (store : Nat) (t : Term) (env : Env) (w : World) :
    ∃ b, contains store t env w = (.ok b, w) := by
  unfold contains
  split
  · exact ⟨_, rfl⟩
  · exact ⟨_, rfl⟩

/-- Asking whether a store manages what is given changes nothing. -/
theorem requireManaged_reads (store : Nat) (t : Term) : Reads (requireManaged store t) := by
  intro env w
  obtain ⟨b, h⟩ := exists_run_contains store t env w
  rw [requireManaged, run_bind, h]
  cases b <;> rfl

theorem requireAxiom_reads (t : Term) : Reads (requireAxiom t) := by
  unfold requireAxiom
  cases Axiom.ofTerm? t
  · exact fun _ _ => rfl
  · exact .pure _

/-- What is not an ontology that the store holds does not get past these two questions, whatever is asked
between them. -/
theorem refused_of_not {β γ : Type} {x : Act β} {f : β → Nat → Act γ} {store : Nat}
    (h : ∀ id, t = .handle (.ontology id) → w.holds store id = false) (hx : Reads x) :
    Refused env (do requireManaged store t; let b ← x; f b (← asOntology t)) w := by
  cases ht : t
  case handle handle =>
    cases handle
    case ontology id =>
      have hc : contains store (.handle (.ontology id)) env w = (.ok false, w) := by
        rw [← h id ht]
        rfl
      refine Refused.first ⟨.rejected (.unmanaged ((w.ontology id).inspect)), ?_⟩
      rw [requireManaged, run_bind, hc]
      rfl
    all_goals exact .second (requireManaged_reads _ _) fun _ => .second hx fun _ => .first .throw
  all_goals exact .second (requireManaged_reads _ _) fun _ => .second hx fun _ => .first .throw

/-- **An addition to anything but an ontology that the store holds** changes nothing. -/
theorem run_add_of_not {store : Nat} (h : ∀ id, t = .handle (.ontology id) → w.holds store id = false) :
    Refused env (add store t u) w :=
  refused_of_not h (requireAxiom_reads u)

/-- So is a removal. -/
theorem run_discard_of_not {store : Nat} (h : ∀ id, t = .handle (.ontology id) → w.holds store id = false) :
    Refused env (discard store t u) w :=
  refused_of_not h (requireAxiom_reads u)

/-- What an addition has done, if it has ended without a fault. -/
theorem add_ok {w' : World} {store : Nat} {new : Bool} (h : add store t a.toTerm env w = (.ok new, w')) :
    ∃ id, t = .handle (.ontology id) ∧ w' = w.setOntology id ((w.ontology id).add a) := by
  rw [add] at h
  obtain ⟨_, w₁, hmanaged, hrest⟩ := bind_ok h
  obtain rfl := (requireManaged_reads store t).eq_of_ok hmanaged
  rw [run_bind, run_requireAxiom] at hrest
  obtain ⟨id, w₂, hid, hafter⟩ := bind_ok hrest
  obtain ⟨rfl, rfl⟩ := asOntology_ok hid
  obtain ⟨_, w₃, hstable, hdone⟩ := bind_ok hafter
  obtain rfl := (Reads.requireStable _).eq_of_ok hstable
  cases hdone
  exact ⟨id, rfl, rfl⟩

/-- An axiom that has been added can be compared. -/
theorem add_stable {w' : World} {store : Nat} {new : Bool} (h : add store t a.toTerm env w = (.ok new, w')) :
    a.toTerm.isStable = true := by
  obtain ⟨_, w₁, -, hrest⟩ := bind_ok h
  rw [run_bind, run_requireAxiom] at hrest
  obtain ⟨id, w₂, -, hafter⟩ := bind_ok hrest
  obtain ⟨_, w₃, hstable, -⟩ := bind_ok hafter
  cases hs : a.toTerm.isStable with
  | true => rfl
  | false =>
    rw [run_requireStable_of_not hs] at hstable
    cases hstable

end Store

end Authoring
