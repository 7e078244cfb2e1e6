import Authoring.Hierarchy
import Authoring.Proofs.Authored

/-!
# What shares a symmetric axiom

A query for equivalent or disjoint classes answers with those that share a stored axiom of the kind with a class, that
class apart. If the operands of the stored axioms are properly made (`Ontology.Proper`), then two regular terms are
found to be partners exactly if they are different members of one stored set (`Ontology.partners_contains_iff`); what
else the axioms hold does not matter. A set that is added joins its members, and nothing else (`Ontology.joins_add`). The
query takes references, and all that matters of these is what they denote (`Hierarchy.run_related_of_pair`).

That an axiom is stored means only that an equal one is: its members may be in another order, and may have been made by
other factories. So equality is compared member by member here (`Ontology.joins_of_contains`). Between regular terms it
runs both ways, and does not depend on who is asked (`Term.IsRegular.same`).
-/

namespace Authoring

open Act

namespace Term

variable {t u v c d : Term} {ts us ms : List Term}

namespace IsRegular

theorem beq_symm (ht : t.IsRegular) (hu : u.isProper = true) (h : (t == u) = true) : (u == t) = true :=
  (ht.same hu h).symm.beq

theorem beq_comm (ht : t.IsRegular) (hu : u.IsRegular) : (t == u) = (u == t) :=
  Bool.eq_iff_iff.mpr ⟨ht.beq_symm hu.proper, hu.beq_symm ht.proper⟩

theorem beq_trans (ht : t.IsRegular) (htu : (t == u) = true) (huv : (u == v) = true) : (t == v) = true :=
  agrees_trans ht.built htu huv

/-- To be asked about an equal term comes to the same as to look for it. -/
theorem equals_iff (ht : t.IsRegular) (hu : u.isProper = true) : t.equals u = true ↔ (t == u) = true := by
  have hnumber : t.isNaN = false := by
    have hbuilt := ht.built
    cases t <;> first | rfl | cases hbuilt
  rw [equals, hnumber, Bool.false_and, Bool.not_false, Bool.and_true]
  exact ⟨fun h => (ht.same hu h).beq, fun h => (ht.same hu h false false).1⟩

/-- A regular term is found among some terms if it is found among the different ones of them. -/
theorem contains_eraseDups (hc : c.IsRegular) (ms : List Term) : ms.eraseDups.contains c = ms.contains c := by
  apply Bool.eq_iff_iff.mpr
  rw [List.contains_iff_exists_mem_beq, List.contains_iff_exists_mem_beq]
  constructor
  · rintro ⟨u, hu, hcu⟩
    exact ⟨u, Distinct.mem_of_mem_eraseDups hu, hcu⟩
  · rintro ⟨u, hu, hcu⟩
    obtain ⟨v, hv, huv⟩ := Distinct.exists_mem_eraseDups hu
    exact ⟨v, hv, hc.beq_trans hcu huv⟩

/-- Of fewer than two different regular terms, no two are different. -/
theorem beq_of_few (hms : ∀ t ∈ ms, t.IsRegular) (hfew : ms.eraseDups.length < 2) (hc : c.IsRegular)
    (hd : d.IsRegular) (hcm : ms.contains c = true) (hdm : ms.contains d = true) : (c == d) = true := by
  rw [← hc.contains_eraseDups] at hcm
  rw [← hd.contains_eraseDups] at hdm
  obtain ⟨u, hu, hcu⟩ := List.contains_iff_exists_mem_beq.mp hcm
  obtain ⟨v, hv, hdv⟩ := List.contains_iff_exists_mem_beq.mp hdm
  obtain ⟨x, hx⟩ : ∃ x, ms.eraseDups = [x] := List.length_eq_one_iff.mp (by
    have := List.length_pos_of_mem hu
    omega)
  rw [hx, List.mem_singleton] at hu hv
  subst hu hv
  have hproper : Term.isProper v = true := (hms v (Distinct.mem_of_mem_eraseDups (hx ▸ List.mem_cons_self))).proper
  exact hc.beq_trans hcu (hd.beq_symm hproper hdv)

end IsRegular

theorem HasNode.isRegular (h : t.HasNode) : t.IsRegular := by
  rcases h with h | h
  · cases t <;> cases h
    exact .entity _ _
  · exact h.isRegular

/-- Each member of a set finds one in a set that equals it. -/
theorem Same.exists_mem {f g : Bool} (h : Same (.set f ts) (.set g us)) (ht : t ∈ ts) : ∃ u ∈ us, (t == u) = true := by
  have hfound := (h true false).1
  simp only [agrees, Bool.and_eq_true, Bool.false_eq_true, if_false, areMembers_iff] at hfound
  exact hfound.2 t ht

end Term

/-- Looking for an axiom with one operand one finds such axioms with an equal one. -/
theorem Axiom.single_beq {k : AxiomKind} {t : Term} {a : Axiom} :
    ((⟨k, [t]⟩ : Axiom) == a) = true ↔ ∃ u, a = ⟨k, [u]⟩ ∧ (t == u) = true := by
  obtain ⟨j, us⟩ := a
  show Term.agrees true true (.statement k [t]) (.statement j us) = true ↔ _
  simp only [Term.agrees, Bool.and_eq_true, beq_iff_eq]
  constructor
  · rintro ⟨rfl, h⟩
    rcases us with _ | ⟨u, us⟩
    · cases h
    · simp only [Term.agreeAll, Bool.and_eq_true, List.isEmpty_iff] at h
      exact ⟨u, by rw [h.2], h.1⟩
  · rintro ⟨u, h, htu⟩
    cases h
    exact ⟨rfl, by simpa only [Term.agreeAll, Bool.and_eq_true] using ⟨htu, rfl⟩⟩

/-- A set of regular terms is regular. -/
theorem Axiom.isRegular_group {ts : List Term} (h : ∀ t ∈ ts, t.IsRegular) : (group ts).IsRegular :=
  Term.IsRegular.set_iff.mpr ⟨.eraseDups ts, fun t ht => h t (Distinct.mem_of_mem_eraseDups ht)⟩

namespace Ontology

open Term Axiom

variable {o : Ontology} {k : AxiomKind} {a : Axiom} {ts ms : List Term} {s t c d : Term}

/-- The operands of the axioms of a kind are properly made. -/
def Proper (k : AxiomKind) (o : Ontology) : Prop := ∀ a ∈ o.axioms, a.kind = k → ∀ t ∈ a.operands, t.isProper = true

theorem Proper.add (ho : o.Proper k) (ha : a.kind = k → ∀ t ∈ a.operands, t.isProper = true) : (o.add a).Proper k :=
  forall_axioms_add ho ha

/-- **Two members of one set**: of an axiom of a kind that is stored. -/
def Joins (o : Ontology) (k : AxiomKind) (s t : Term) : Prop :=
  ∃ f ms, (⟨k, [.set f ms]⟩ : Axiom) ∈ o.axioms ∧ ms.contains s = true ∧ ms.contains t = true

theorem Joins.symm (h : o.Joins k s t) : o.Joins k t s := by
  obtain ⟨f, ms, ha, hs, ht⟩ := h
  exact ⟨f, ms, ha, ht, hs⟩

/-- A stored axiom that equals one over a regular set has the members of that. -/
theorem joins_of_contains (ho : o.Proper k) (hms : (Term.set true ms).IsRegular)
    (hstored : o.axioms.contains ⟨k, [.set true ms]⟩ = true) (hs : s.IsRegular) (ht : t.IsRegular)
    (hsm : ms.contains s = true) (htm : ms.contains t = true) : o.Joins k s t := by
  obtain ⟨a, ha, heq⟩ := List.contains_iff_exists_mem_beq.mp hstored
  obtain ⟨u, rfl, hu⟩ := single_beq.mp heq
  have hproper : u.isProper = true := ho _ ha rfl u List.mem_cons_self
  have hsame := hms.same hproper hu
  have hset : ∃ us, u = .set true us := by
    cases u
    case set f us => exact ⟨us, by rw [frozen_of_isProper hproper]⟩
    all_goals simp [BEq.beq, agrees] at hu
  obtain ⟨us, rfl⟩ := hset
  have found : ∀ {r : Term}, r.IsRegular → ms.contains r = true → us.contains r = true := by
    intro r hr hrm
    obtain ⟨m, hm, hrm⟩ := List.contains_iff_exists_mem_beq.mp hrm
    obtain ⟨u, hu, hmu⟩ := hsame.exists_mem hm
    exact List.contains_iff_exists_mem_beq.mpr ⟨u, hu, hr.beq_trans hrm hmu⟩
  exact ⟨true, us, ha, found hs hsm, found ht htm⟩

/-- **An axiom over a set joins its members**, and nothing else that was not joined before. -/
theorem joins_add (ho : o.Proper k) (hms : (Term.set true ms).IsRegular) (hc : c.IsRegular) (hd : d.IsRegular) :
    (o.add ⟨k, [.set true ms]⟩).Joins k c d ↔ o.Joins k c d ∨ ms.contains c = true ∧ ms.contains d = true := by
  constructor
  · rintro ⟨f, us, ha, hcu, hdu⟩
    rw [add_eq] at ha
    dsimp only at ha
    split at ha
    · exact .inl ⟨f, us, ha, hcu, hdu⟩
    · rcases List.mem_append.mp ha with ha | ha
      · exact .inl ⟨f, us, ha, hcu, hdu⟩
      · cases List.mem_singleton.mp ha
        exact .inr ⟨hcu, hdu⟩
  · rintro (⟨f, us, ha, hcu, hdu⟩ | ⟨hcm, hdm⟩)
    · refine ⟨f, us, ?_, hcu, hdu⟩
      rw [add_eq]
      dsimp only
      split
      · exact ha
      · exact List.mem_append_left _ ha
    · have hproper : (o.add ⟨k, [.set true ms]⟩).Proper k :=
        ho.add fun _ => List.forall_mem_singleton.mpr hms.proper
      have hstored : (o.addAll [⟨k, [.set true ms]⟩]).axioms.contains ⟨k, [.set true ms]⟩ = true :=
        contains_addAll List.mem_cons_self
      exact joins_of_contains hproper hms hstored hc hd hcm hdm

/-- Of two axioms with equal operands that are built, an ontology has both or none. -/
theorem contains_of_same {o : Ontology} {k : AxiomKind} {c d : Term} (hc : c.isBuilt = true) (hd : d.isBuilt = true)
    (h : Same c d) : o.axioms.contains ⟨k, [c]⟩ = o.axioms.contains ⟨k, [d]⟩ := by
  have found : ∀ {c d : Term}, d.isBuilt = true → Same c d → o.axioms.contains ⟨k, [c]⟩ = true →
      o.axioms.contains ⟨k, [d]⟩ = true := by
    intro c d hd h hcontains
    obtain ⟨a, ha, hca⟩ := List.contains_iff_exists_mem_beq.mp hcontains
    obtain ⟨u, rfl, hcu⟩ := single_beq.mp hca
    exact List.contains_iff_exists_mem_beq.mpr ⟨_, ha, single_beq.mpr ⟨u, rfl, agrees_trans hd h.symm.beq hcu⟩⟩
  exact Bool.eq_iff_iff.mpr ⟨found hd h, found hc h.symm⟩

/-- Where a partner of a term comes from. -/
theorem mem_partners (ht : t ∈ o.partners k s) : ∃ f ms, (⟨k, [.set f ms]⟩ : Axiom) ∈ o.axioms ∧
    ms.contains s = true ∧ t ∈ ms ∧ t.equals s = false := by
  obtain ⟨⟨j, us⟩, hmem, hpartner⟩ := List.mem_flatMap.mp (Distinct.mem_of_mem_eraseDups ht)
  obtain ⟨hstored, hkind⟩ := List.mem_filter.mp hmem
  obtain rfl : j = k := by simpa using hkind
  dsimp only at hpartner
  split at hpartner
  next f ms =>
    split at hpartner
    next hs =>
      obtain ⟨ht, hne⟩ := List.mem_filter.mp hpartner
      exact ⟨f, ms, hstored, hs, ht, by simpa using hne⟩
    next => cases hpartner
  next => cases hpartner

/-- A member of an axiom is, up to equality, a partner of what is looked for among the members and found. -/
theorem exists_mem_partners {f : Bool} (ha : (⟨k, [.set f ms]⟩ : Axiom) ∈ o.axioms) (hs : ms.contains s = true)
    (ht : t ∈ ms) (hne : t.equals s = false) : ∃ u ∈ o.partners k s, (t == u) = true := by
  refine Distinct.exists_mem_eraseDups (List.mem_flatMap.mpr ⟨_, List.mem_filter.mpr ⟨ha, beq_self_eq_true k⟩, ?_⟩)
  dsimp only
  rw [if_pos hs]
  exact List.mem_filter.mpr ⟨ht, by rw [hne]; rfl⟩

/-- **Partners are different members of one set**, if axioms are properly made. -/
theorem partners_contains_iff (ho : o.Proper k) (hs : s.IsRegular) (ht : t.IsRegular) :
    (o.partners k s).contains t = true ↔ (s == t) = false ∧ o.Joins k s t := by
  have proper : ∀ {f : Bool} {ms : List Term}, (⟨k, [.set f ms]⟩ : Axiom) ∈ o.axioms → ∀ u ∈ ms, u.isProper = true := by
    intro f ms ha u hu
    have hset := ho _ ha rfl _ List.mem_cons_self
    rw [frozen_of_isProper hset] at hset
    exact (isProper_set.mp hset).2 u hu
  constructor
  · intro hcontains
    obtain ⟨u, hu, htu⟩ := List.contains_iff_exists_mem_beq.mp hcontains
    obtain ⟨f, ms, ha, hsm, hum, hne⟩ := mem_partners hu
    refine ⟨?_, f, ms, ha, hsm, List.contains_iff_exists_mem_beq.mpr ⟨u, hum, htu⟩⟩
    -- The member itself is left out, and so is whatever it finds.
    apply Bool.eq_false_iff.mpr
    intro hst
    have hup := proper ha u hum
    have hsu := hs.beq_trans hst htu
    have hus := (hs.of_agrees hup hsu).equals_iff hs.proper
    rw [hus.mpr (hs.beq_symm hup hsu)] at hne
    cases hne
  · rintro ⟨hst, f, ms, ha, hsm, htm⟩
    obtain ⟨u, hu, htu⟩ := List.contains_iff_exists_mem_beq.mp htm
    have hup := proper ha u hu
    have hur := ht.of_agrees hup htu
    have hne : u.equals s = false := by
      apply Bool.eq_false_iff.mpr
      intro heq
      have hts := ht.beq_trans htu ((hur.equals_iff hs.proper).mp heq)
      rw [ht.beq_symm hs.proper hts] at hst
      cases hst
    obtain ⟨v, hv, huv⟩ := exists_mem_partners ha hsm hu hne
    exact List.contains_iff_exists_mem_beq.mpr ⟨v, hv, ht.beq_trans htu huv⟩

/-! ## Sets of terms that have nodes -/

/-- The stored axioms of a kind are over sets of terms that have nodes: entities and class expressions. -/
def GroupsNodes (k : AxiomKind) (o : Ontology) : Prop :=
  ∀ a ∈ o.axioms, a.kind = k → ∃ ts, a = ⟨k, [Axiom.group ts]⟩ ∧ ∀ t ∈ ts, t.HasNode

/-- The equivalences and disjointnesses that are authored are over entities and class expressions. -/
theorem groupsNodes_of_isAuthored (h : ∀ a ∈ o.axioms, a.IsAuthored)
    (hk : k = .equivalentClasses ∨ k = .disjointClasses) : o.GroupsNodes k := by
  rintro a ha rfl
  cases h a ha with
  | group _ hts => exact ⟨_, rfl, hts⟩
  | ofProperty hother | subproperty hother | assertion hother =>
    dsimp only at hk
    rcases hk with rfl | rfl <;> simp at hother
  | characteristic c => cases c <;> rcases hk with hk | hk <;> cases hk
  | _ => rcases hk with hk | hk <;> cases hk

theorem GroupsNodes.proper (ho : o.GroupsNodes k) : o.Proper k := by
  intro a ha hk t ht
  obtain ⟨ts, rfl, hts⟩ := ho a ha hk
  rw [List.mem_singleton.mp ht]
  exact (isRegular_group fun t ht => (hts t ht).isRegular).proper

/-- **Members of one symmetric axiom are partners** of each other, unless they are equal. -/
theorem partners_contains (ho : o.GroupsNodes k) (hts : ∀ t ∈ ts, t.HasNode)
    (hstored : o.axioms.contains ⟨k, [Axiom.group ts]⟩ = true) (hs : s ∈ ts) (ht : t ∈ ts) :
    (o.partners k s).contains t = !(s == t) := by
  have hregular : ∀ t ∈ ts, t.IsRegular := fun t ht => (hts t ht).isRegular
  have member : ∀ {r : Term}, r ∈ ts → ts.eraseDups.contains r = true :=
    fun hr => List.contains_iff_exists_mem_beq.mpr (Distinct.exists_mem_eraseDups hr)
  have hjoins : o.Joins k s t := joins_of_contains ho.proper (isRegular_group hregular) hstored (hregular s hs)
    (hregular t ht) (member hs) (member ht)
  rw [Bool.eq_iff_iff, partners_contains_iff ho.proper (hregular s hs) (hregular t ht), Bool.not_eq_true']
  exact ⟨fun h => h.1, fun h => ⟨h, hjoins⟩⟩

end Ontology

namespace Hierarchy

open Reference

variable {env : Env} {w w₁ : World} {s t c d o : Term} {id : Nat}

/-- A reference that denotes something as a class does so in a query, too. -/
theorem reference_of_class (h : resolveClass s o env w = (.ok c, w₁)) : reference s o env w = (.ok c, w₁) := by
  cases s
  case entity m e =>
    by_cases he : e.kind = .cls
    · rw [reference, he]
      exact h
    · rw [resolveClass, resolve_other he] at h
      cases h
  all_goals exact h

/-- Two references that both denote something as a class do so in a query of the two. -/
theorem pair_of_classes {w₂ : World} (hs : resolveClass s o env w = (.ok c, w₁))
    (ht : resolveClass t o env w₁ = (.ok d, w₂)) : pair s t o env w = (.ok (c, d), w₂) := by
  have ht' : resolve t .cls o Factory.shared env w₁ = (.ok d, w₂) := ht
  rw [pair, run_bind, reference_of_class hs]
  cases resolve_ok hs with
  | entity | expression =>
    dsimp only
    rw [run_bind, ht']
    rfl

theorem run_partners {k : AxiomKind} {kind : EntityKind} (hc : Denotes kind c) (hstable : c.isStable = true) :
    Query.partners k (.handle (.ontology id)) c env w = (.ok ((w.ontology id).partners k c), w) := by
  have hfindable : requireFindable c env w = (.ok (), w) := by
    cases hc <;> exact run_requireStable hstable env w
  have hcurrent : Query.current (.handle (.ontology id)) env w = (.ok (w.ontology id), w) := rfl
  rw [Query.partners, run_bind, hcurrent]
  dsimp only
  cases ((w.ontology id).ofKind k).isEmpty
  · rw [if_neg (by simp), run_bind, hfindable]
    rfl
  · rfl

/-- **Whether two references are related** by a symmetric kind of axioms is whether what the one denotes is a partner of
what the other denotes. -/
theorem run_related_of_pair {k : AxiomKind} {kind : EntityKind}
    (h : pair s t (.handle (.ontology id)) env w = (.ok (c, d), w₁)) (hkind : Denotes kind c) (hc : c.isStable = true)
    (hd : d.isStable = true) :
    related k s t (.handle (.ontology id)) env w = (.ok (((w₁.ontology id).partners k c).contains d), w₁) := by
  rw [related, Current.orGiven_handle, pure_bind, run_bind, h]
  dsimp only
  rw [run_bind, run_partners hkind hc]
  dsimp only
  rw [run_bind, run_requireStable hd]
  rfl

theorem run_related {k : AxiomKind} {w₂ : World} (hs : resolveClass s (.handle (.ontology id)) env w = (.ok c, w₁))
    (ht : resolveClass t (.handle (.ontology id)) env w₁ = (.ok d, w₂)) (hc : c.isStable = true)
    (hd : d.isStable = true) :
    related k s t (.handle (.ontology id)) env w = (.ok (((w₂.ontology id).partners k c).contains d), w₂) :=
  run_related_of_pair (pair_of_classes hs ht) (resolve_ok hs) hc hd

end Hierarchy

end Authoring
