import Authoring.Proofs.Distinct
import Authoring.Proofs.Term.Built
import Mathlib.Data.List.Perm.Subperm

/-!
# Classes and class expressions

The terms that describe a class, nested to any depth (`Term.IsClass`): classes, restrictions of an object property
to a class, counting restrictions by a natural number, complements, intersections and unions of a set of them, and
enumerations of a set of individuals. These are the shapes that the operations on class expressions make, and they
are those that have a reading in a graph.

Between such terms equality is as it should be: it runs both ways, and does not depend on who is asked or on whether
a member of a set is looked for (`IsClass.same`). So it does not matter in which order the members of a set are kept
(`Same.setOf`).

Not all of this depends on the shape. A built term is *regular* (`Term.IsRegular`) if its sets are sets indeed: fixed,
and with no two equal members. Whatever is made as properly as that and equals a regular term in one sense equals it in
every sense, and is regular, too (`IsRegular.same`).

**What carries the proof.** Two sets are equal if there are as many members in the one as in the other and each of
the one finds a member of the other. As no two members of a set are equal, no two find the same one, and so every
member of the other is found (`exists_partner`).
-/

namespace Authoring

/-- If each element of a list has a partner in another list and no two of them have one in common, then there is a
choice of partners without repetitions. -/
theorem exists_partners {α : Type} {R : α → α → Prop} {l l' : List α}
    (hapart : l.Pairwise fun a b => ∀ c, R a c → ¬R b c) (h : ∀ a ∈ l, ∃ b ∈ l', R a b) :
    ∃ partner : α → α, (∀ a ∈ l, R a (partner a)) ∧ (l.map partner).Subperm l' := by
  classical
  let partner (a : α) : α := if ha : ∃ b ∈ l', R a b then ha.choose else a
  have hpartner : ∀ a ∈ l, partner a ∈ l' ∧ R a (partner a) := by
    intro a ha
    simp only [partner, dif_pos (h a ha)]
    exact (h a ha).choose_spec
  have hnodup : (l.map partner).Nodup := by
    refine List.pairwise_map.mpr (hapart.imp_of_mem fun {a b} ha hb hab heq => ?_)
    exact hab (partner a) (hpartner a ha).2 (heq ▸ (hpartner b hb).2)
  have hsub : l.map partner ⊆ l' := by
    intro b hb
    obtain ⟨a, ha, rfl⟩ := List.mem_map.mp hb
    exact (hpartner a ha).1
  exact ⟨partner, fun a ha => (hpartner a ha).2, hnodup.subperm hsub⟩

/-- So there are no more elements than possible partners. -/
theorem length_le_of_partners {α : Type} {R : α → α → Prop} {l l' : List α}
    (hapart : l.Pairwise fun a b => ∀ c, R a c → ¬R b c) (h : ∀ a ∈ l, ∃ b ∈ l', R a b) : l.length ≤ l'.length := by
  obtain ⟨partner, -, hsub⟩ := exists_partners hapart h
  simpa only [List.length_map] using hsub.length_le

/-- And if there are as many of the ones as of the others, then all of the others are partners. -/
theorem exists_partner {α : Type} {R : α → α → Prop} {l l' : List α} (hlength : l.length = l'.length)
    (hapart : l.Pairwise fun a b => ∀ c, R a c → ¬R b c) (h : ∀ a ∈ l, ∃ b ∈ l', R a b) :
    ∀ b ∈ l', ∃ a ∈ l, R a b := by
  obtain ⟨partner, hpartner, hsub⟩ := exists_partners hapart h
  have hperm : (l.map partner).Perm l' :=
    hsub.perm_of_length_le (by simp only [List.length_map, hlength, Nat.le_refl])
  intro b hb
  obtain ⟨a, ha, rfl⟩ := List.mem_map.mp (hperm.mem_iff.mpr hb)
  exact ⟨a, ha, hpartner a ha⟩

/-- Of two lists related one by one, each element of the second is related to one of the first. -/
theorem exists_mem_of_forall₂ {α β : Type} {R : α → β → Prop} {l : List α} {l' : List β} (h : List.Forall₂ R l l')
    {b : β} (hb : b ∈ l') : ∃ a ∈ l, R a b := by
  induction h with
  | nil => cases hb
  | cons hab _ ih =>
    rcases List.mem_cons.mp hb with rfl | hb
    · exact ⟨_, List.mem_cons_self, hab⟩
    · obtain ⟨a, ha, hab⟩ := ih hb
      exact ⟨a, List.mem_cons_of_mem _ ha, hab⟩

namespace Term

variable {s t u : Term} {o : Operator} {k b : Bool} {ts us : List Term}

/-! ## Terms that are equal in every sense -/

/-- Each of the two terms equals the other, whoever is asked and whether or not it is looked for. -/
def Same (t u : Term) : Prop := ∀ asKey turned, t.agrees asKey turned u = true ∧ u.agrees asKey turned t = true

namespace Same

theorem symm (h : Same t u) : Same u t := fun k b => (h k b).symm

theorem entity (m n : Nat) (e : Entity) : Same (.entity m e) (.entity n e) :=
  fun _ _ => ⟨entity_agrees.mpr ⟨n, rfl⟩, entity_agrees.mpr ⟨m, rfl⟩⟩

theorem beq (h : Same t u) : (t == u) = true := (h true true).1

theorem refl (t : Term) : Same t t := fun k b => ⟨agrees_refl k b t, agrees_refl k b t⟩

/-- Whatever equals a cardinality is a cardinality, and equals it in every sense. -/
theorem count {c d : Term} (hc : c.isCount = true) (h : c.agrees k b d = true) : Same c d ∧ d.isCount = true := by
  cases hq : c.quantity? with
  | none =>
    have hnull : c = .null := by
      cases c <;> simp_all [isCount]
    subst hnull
    rw [null_agrees] at h
    subst h
    exact ⟨refl _, rfl⟩
  | some q =>
    have hd := (number_agrees hq).mp h
    refine ⟨fun k b => ⟨(number_agrees hq).mpr hd, (number_agrees hd).mpr hq⟩, ?_⟩
    cases d <;> simp_all [isCount, quantity?]

/-- Expressions of one operator are equal if their operands are, one by one, and their cardinalities. -/
theorem expression_count {c d : Term} (h : List.Forall₂ Same ts us) (hc : Same c d) :
    Same (.expression (.ofOperator o) ts c) (.expression (.ofOperator o) us d) := by
  have agree : ∀ {ts us : List Term}, List.Forall₂ Same ts us → ∀ k b, agreeAll k b ts us = true := by
    intro ts us h k b
    induction h with
    | nil => rfl
    | cons ht _ ih => exact Bool.and_eq_true_iff.mpr ⟨(ht k b).1, ih⟩
  intro k b
  simp only [agrees, Bool.and_eq_true]
  exact ⟨⟨⟨agrees_refl k b _, agree h k b⟩, (hc k b).1⟩,
    ⟨agrees_refl k b _, agree (h.flip.imp fun _ _ => symm) k b⟩, (hc k b).2⟩

theorem expression {c : Term} (h : List.Forall₂ Same ts us) : Same (.expression (.ofOperator o) ts c)
    (.expression (.ofOperator o) us c) := expression_count h (refl c)

/-- Sets of one size are equal if each member of either is equal to one of the other. -/
theorem set {f g : Bool} (hlength : ts.length = us.length) (hts : ∀ t ∈ ts, ∃ u ∈ us, Same t u)
    (hus : ∀ u ∈ us, ∃ t ∈ ts, Same t u) : Same (.set f ts) (.set g us) := by
  have agree : ∀ {f g : Bool} {ts us : List Term}, ts.length = us.length → (∀ t ∈ ts, ∃ u ∈ us, Same t u) →
      (∀ u ∈ us, ∃ t ∈ ts, Same t u) → ∀ k b, (Term.set f ts).agrees k b (.set g us) = true := by
    intro f g ts us hlength hts hus k b
    simp only [agrees, Bool.and_eq_true, beq_iff_eq]
    refine ⟨hlength, ?_⟩
    cases b
    · simp only [Bool.false_eq_true, if_false, areMembers_iff]
      intro t ht
      obtain ⟨u, hu, htu⟩ := hts t ht
      exact ⟨u, hu, (htu true true).1⟩
    · simp only [if_true, List.all_eq_true, isMember_iff]
      intro u hu
      obtain ⟨t, ht, htu⟩ := hus u hu
      exact ⟨t, ht, (htu true false).1⟩
  intro k b
  refine ⟨agree hlength hts hus k b, agree hlength.symm ?_ ?_ k b⟩
  · exact fun u hu => (hus u hu).imp fun t ht => ht.imp_right symm
  · exact fun t ht => (hts t ht).imp fun u hu => hu.imp_right symm

end Same

/-- Terms that are equal one by one to built terms of which none finds an earlier one are distinct, too. -/
theorem distinct_of_same (hts : ∀ t ∈ ts, t.isBuilt = true) (hd : Distinct ts) (h : List.Forall₂ Same ts us) :
    Distinct us := by
  induction h with
  | nil => exact .nil
  | @cons t u ts us htu hsame ih =>
    obtain ⟨head, tail⟩ := Distinct.cons_iff.mp hd
    refine Distinct.cons_iff.mpr ⟨fun v hv => Bool.eq_false_iff.mpr fun hvu => ?_,
      ih (fun t ht => hts t (List.mem_cons_of_mem _ ht)) tail⟩
    obtain ⟨s, hs, hsv⟩ := exists_mem_of_forall₂ hsame hv
    have hbuilt := hts s (List.mem_cons_of_mem _ hs)
    have hst : (s == t) = true := agrees_trans hbuilt (agrees_trans hbuilt hsv.beq hvu) htu.symm.beq
    rw [head s hs] at hst
    cases hst

/-- The set of terms that are equal, one by one and in whatever order, to the members of a set is equal to the
set. -/
theorem Same.setOf {ms : List Term} (hbuilt : ∀ t ∈ ms, t.isBuilt = true) (hd : Distinct ms)
    (hsymm : ∀ t ∈ ms, ∀ u ∈ ms, (t == u) = true → (u == t) = true) (hperm : ts.Perm ms)
    (h : List.Forall₂ Same ts us) : Same (.set true ms) (Term.setOf true us) := by
  have hts : Distinct ts := hd.perm hperm.symm hsymm
  have hus : Distinct us := distinct_of_same (fun t ht => hbuilt t (hperm.mem_iff.mp ht)) hts h
  rw [Term.setOf, hus.eraseDups_eq]
  refine .set (hperm.length_eq.symm.trans h.length_eq) (fun t ht => ?_) fun u hu => ?_
  · obtain ⟨u, hu, hut⟩ := exists_mem_of_forall₂ (h.flip.imp fun _ _ => symm) (hperm.mem_iff.mpr ht)
    exact ⟨u, hu, hut.symm⟩
  · obtain ⟨t, ht, htu⟩ := exists_mem_of_forall₂ h hu
    exact ⟨t, hperm.mem_iff.mp ht, htu⟩

/-- What is found among the members of a set by asking either way. -/
theorem exists_of_set_agrees {f g : Bool} (h : (Term.set f ts).agrees k b (.set g us) = true) :
    ts.length = us.length ∧ ((∀ t ∈ ts, ∃ u ∈ us, t.agrees true true u = true) ∨
      ∀ u ∈ us, ∃ t ∈ ts, t.agrees true false u = true) := by
  simp only [agrees, Bool.and_eq_true, beq_iff_eq] at h
  refine ⟨h.1, ?_⟩
  cases b
  · exact .inl (by simpa only [Bool.false_eq_true, if_false, areMembers_iff] using h.2)
  · exact .inr (by simpa only [if_true, List.all_eq_true, isMember_iff] using h.2)

/-- Equal sets have as many members. -/
theorem Same.length_eq {f g : Bool} (h : Same (.set f ts) (.set g us)) : ts.length = us.length :=
  (exists_of_set_agrees (h true true).1).1

/-- No two distinct built terms have an equal one in common, for they are equal by way of that one. -/
theorem apart_of_distinct (hts : ∀ t ∈ ts, t.isBuilt = true) (dts : Distinct ts) :
    ts.Pairwise fun a b => ∀ c, Same a c → ¬Same b c := by
  apply dts.imp_of_mem
  intro a b _ hb hba c hac hbc
  rw [show (b == a) = true from agrees_trans (hts b hb) hbc.beq hac.symm.beq] at hba
  cases hba

/-- Sets that hold the same members, up to equality, are equal if the members are built. -/
theorem Same.set_of_members {f g : Bool} (hts : ∀ t ∈ ts, t.isBuilt = true) (hus : ∀ u ∈ us, u.isBuilt = true)
    (dts : Distinct ts) (dus : Distinct us) (h : ∀ t ∈ ts, ∃ u ∈ us, Same t u) (h' : ∀ u ∈ us, ∃ t ∈ ts, Same t u) :
    Same (.set f ts) (.set g us) := by
  have hback : ∀ u ∈ us, ∃ t ∈ ts, Same u t := fun u hu => (h' u hu).imp fun t ht => ht.imp_right symm
  have hle := length_le_of_partners (apart_of_distinct hts dts) h
  have hge := length_le_of_partners (apart_of_distinct hus dus) hback
  exact .set (Nat.le_antisymm hle hge) h h'

/-- Members of which those that are equal in one sense are equal in every sense, and built, make equal sets if the
sets are equal in one sense. -/
theorem same_set {f g : Bool} (hts : areBuilt ts = true) (dts : Distinct ts) (dus : Distinct us)
    (hsame : ∀ t ∈ ts, ∀ u ∈ us, ∀ k b, t.agrees k b u = true → Same t u ∧ u.isBuilt = true)
    (h : (Term.set f ts).agrees k b (.set g us) = true) :
    Same (.set f ts) (.set g us) ∧ ∀ u ∈ us, ∃ t ∈ ts, Same t u ∧ u.isBuilt = true := by
  obtain ⟨hlength, h | h⟩ := exists_of_set_agrees h
  · have hpartner : ∀ t ∈ ts, ∃ u ∈ us, Same t u := by
      intro t ht
      obtain ⟨u, hu, htu⟩ := h t ht
      exact ⟨u, hu, (hsame t ht u hu _ _ htu).1⟩
    have hpartner' := exists_partner hlength (apart_of_distinct (areBuilt_iff.mp hts) dts) hpartner
    refine ⟨.set hlength hpartner hpartner', ?_⟩
    intro u hu
    obtain ⟨t, ht, htu⟩ := hpartner' u hu
    exact ⟨t, ht, hsame t ht u hu true true htu.beq⟩
  · have hpartner : ∀ u ∈ us, ∃ t ∈ ts, Same t u ∧ u.isBuilt = true := by
      intro u hu
      obtain ⟨t, ht, htu⟩ := h u hu
      exact ⟨t, ht, hsame t ht u hu _ _ htu⟩
    have hbuilt : ∀ u ∈ us, u.isBuilt = true := by
      intro u hu
      obtain ⟨t, -, -, hu⟩ := hpartner u hu
      exact hu
    have hfound : ∀ u ∈ us, ∃ t ∈ ts, Same u t := by
      intro u hu
      obtain ⟨t, ht, htu, -⟩ := hpartner u hu
      exact ⟨t, ht, htu.symm⟩
    have hpartner' := exists_partner hlength.symm (apart_of_distinct hbuilt dus) hfound
    exact ⟨(Same.set hlength.symm hfound hpartner').symm, hpartner⟩

/-- Statements of one operand are equal if the operands are. -/
theorem Same.statement {k : AxiomKind} (h : Same t u) : Same (.statement k [t]) (.statement k [u]) := by
  intro asKey turned
  simpa [agrees, agreeAll] using h asKey turned

theorem operator_agrees {o' : Operator} : (Term.ofOperator o).agrees k b (.ofOperator o') = true ↔ o = o' := by
  constructor
  · intro h
    have hword : o.word = o'.word := by
      cases b <;> simp only [ofOperator, agrees, atomAgrees, keywordAgrees, Keyword.word, Bool.false_eq_true, if_true,
        if_false, beq_iff_eq] at h
      · exact h
      · exact h.symm
    revert hword
    cases o <;> cases o' <;> decide
  · rintro rfl
    exact agrees_refl k b _

/-! ## Terms that are properly made -/

mutual
/-- Whether the expressions and sets that a term is made of are what they should be: an expression has one of the
operators, and a set is fixed and none of its members finds an earlier one. Operands and members may be anything. -/
def isProper : Term → Bool
  | .expression (.keyword (.operator _)) ts _ => areProper ts
  | .set true ts => decide (Distinct ts) && areProper ts
  | .expression .. | .set .. => false
  | _ => true
def areProper : List Term → Bool
  | [] => true
  | t :: ts => t.isProper && areProper ts
end

theorem areProper_iff : ∀ {ts : List Term}, areProper ts = true ↔ ∀ t ∈ ts, t.isProper = true
  | [] => by simp [areProper]
  | t :: ts => by simp [areProper, areProper_iff]

theorem isProper_set : (Term.set true ts).isProper = true ↔ Distinct ts ∧ ∀ t ∈ ts, t.isProper = true := by
  show (decide (Distinct ts) && areProper ts) = true ↔ _
  rw [Bool.and_eq_true, decide_eq_true_iff, areProper_iff]

/-- A proper expression has one of the operators. -/
theorem exists_operator_of_isProper {c : Term} (h : (Term.expression s ts c).isProper = true) :
    ∃ o, s = .ofOperator o ∧ areProper ts = true := by
  unfold isProper at h
  split at h
  next heq =>
    cases heq
    exact ⟨_, rfl, h⟩
  all_goals simp_all

/-- A proper set is fixed. -/
theorem frozen_of_isProper {f : Bool} (h : (Term.set f ts).isProper = true) : f = true := by
  cases f
  · cases h
  · rfl

/-- **A regular term**: one that is built, and properly. -/
structure IsRegular (t : Term) : Prop where
  built : t.isBuilt = true
  proper : t.isProper = true

mutual
theorem same_of_agrees : ∀ {t u : Term} {k b : Bool}, t.isBuilt = true → t.isProper = true → u.isProper = true →
    t.agrees k b u = true → Same t u ∧ u.isBuilt = true
  | .entity m e, u, k, b, _, _, _, h => by
    obtain ⟨n, rfl⟩ := entity_agrees.mp h
    exact ⟨.entity m n e, rfl⟩
  | .expression (.keyword (.operator o)) ts c, u, k, b, ht, htp, hup, h => by
    obtain ⟨hts, hc⟩ := Bool.and_eq_true_iff.mp ht
    cases u <;> simp only [agrees, Bool.and_eq_true, Bool.false_eq_true] at h
    next p us d =>
      obtain ⟨⟨hop, htus⟩, hcd⟩ := h
      obtain ⟨p, rfl, hus⟩ := exists_operator_of_isProper hup
      obtain rfl := operator_agrees.mp hop
      obtain ⟨hall, husb⟩ := forall₂_same_of_agreeAll hts htp hus htus
      obtain ⟨hcount, hd⟩ := Same.count hc hcd
      exact ⟨.expression_count hall hcount, Bool.and_eq_true_iff.mpr ⟨husb, hd⟩⟩
  | .set true ts, u, k, b, ht, htp, hup, h => by
    have hts : areBuilt ts = true := ht
    cases u
    case set g us =>
      obtain rfl := frozen_of_isProper hup
      obtain ⟨dts, htsp⟩ := isProper_set.mp htp
      obtain ⟨dus, husp⟩ := isProper_set.mp hup
      obtain ⟨hsame, hbuilt⟩ := same_set hts dts dus
        (fun t ht u hu _ _ htu => same_of_agrees_of_mem hts (areProper_iff.mpr htsp) ht (husp u hu) htu) h
      refine ⟨hsame, areBuilt_iff.mpr fun u hu => ?_⟩
      obtain ⟨t, -, -, hu⟩ := hbuilt u hu
      exact hu
    all_goals simp [agrees] at h
theorem forall₂_same_of_agreeAll : ∀ {ts us : List Term} {k b : Bool}, areBuilt ts = true → areProper ts = true →
    areProper us = true → agreeAll k b ts us = true → List.Forall₂ Same ts us ∧ areBuilt us = true
  | [], us, k, b, _, _, _, h => by
    cases us
    · exact ⟨.nil, rfl⟩
    · cases h
  | t :: ts, us, k, b, ht, htp, hup, h => by
    obtain ⟨ht, hts⟩ := Bool.and_eq_true_iff.mp ht
    obtain ⟨htp, htsp⟩ := Bool.and_eq_true_iff.mp htp
    cases us <;> simp only [agreeAll, Bool.and_eq_true, Bool.false_eq_true] at h
    obtain ⟨hup, husp⟩ := Bool.and_eq_true_iff.mp hup
    obtain ⟨hsame, hu⟩ := same_of_agrees ht htp hup h.1
    obtain ⟨hall, hus⟩ := forall₂_same_of_agreeAll hts htsp husp h.2
    exact ⟨.cons hsame hall, Bool.and_eq_true_iff.mpr ⟨hu, hus⟩⟩
theorem same_of_agrees_of_mem : ∀ {ts : List Term} {t u : Term} {k b : Bool}, areBuilt ts = true →
    areProper ts = true → t ∈ ts → u.isProper = true → t.agrees k b u = true → Same t u ∧ u.isBuilt = true
  | s :: ts, t, u, k, b, hs, hsp, ht, hup, h => by
    obtain ⟨hs, hts⟩ := Bool.and_eq_true_iff.mp hs
    obtain ⟨hsp, htsp⟩ := Bool.and_eq_true_iff.mp hsp
    rcases List.mem_cons.mp ht with hst | ht
    · rw [hst] at h ⊢
      exact same_of_agrees hs hsp hup h
    · exact same_of_agrees_of_mem hts htsp ht hup h
end

namespace IsRegular

theorem entity (m : Nat) (e : Entity) : IsRegular (.entity m e) := ⟨rfl, rfl⟩

/-- **What a regular term equals** in one sense it equals in every sense, so far as that is properly made. -/
theorem same (ht : IsRegular t) (hu : u.isProper = true) (h : t.agrees k b u = true) : Same t u :=
  (same_of_agrees ht.built ht.proper hu h).1

/-- What is properly made and equals a regular term is regular. -/
theorem of_agrees (ht : IsRegular t) (hu : u.isProper = true) (h : t.agrees k b u = true) : IsRegular u :=
  ⟨(same_of_agrees ht.built ht.proper hu h).2, hu⟩

theorem set_iff : IsRegular (.set true ts) ↔ Distinct ts ∧ ∀ t ∈ ts, IsRegular t := by
  constructor
  · intro h
    obtain ⟨hd, hp⟩ := isProper_set.mp h.proper
    exact ⟨hd, fun t ht => ⟨areBuilt_iff.mp h.built t ht, hp t ht⟩⟩
  · rintro ⟨hd, h⟩
    exact ⟨areBuilt_iff.mpr fun t ht => (h t ht).built, isProper_set.mpr ⟨hd, fun t ht => (h t ht).proper⟩⟩

theorem expression {c : Term} (hts : ∀ t ∈ ts, IsRegular t) (hc : c.isCount = true) :
    IsRegular (.expression (.ofOperator o) ts c) where
  built := Bool.and_eq_true_iff.mpr ⟨areBuilt_iff.mpr fun t ht => (hts t ht).built, hc⟩
  proper := areProper_iff.mpr fun t ht => (hts t ht).proper

end IsRegular

/-- Lists of regular terms make equal sets if each term of either is equal to one of the other. -/
theorem Same.setOf_of_values (hts : ∀ t ∈ ts, t.IsRegular) (hus : ∀ u ∈ us, u.IsRegular)
    (h : ∀ t ∈ ts, ∃ u ∈ us, (t == u) = true) (h' : ∀ u ∈ us, ∃ t ∈ ts, (u == t) = true) :
    Same (Term.setOf true ts) (Term.setOf true us) := by
  -- What is equal to a value of the other list is equal to the one that is kept for it.
  have kept : ∀ {ts us : List Term}, (∀ t ∈ ts, t.IsRegular) → (∀ u ∈ us, u.IsRegular) →
      (∀ t ∈ ts, ∃ u ∈ us, (t == u) = true) → ∀ t ∈ ts.eraseDups, ∃ u ∈ us.eraseDups, Same t u := by
    intro ts us hts hus h t ht
    have ht := Distinct.mem_of_mem_eraseDups ht
    obtain ⟨u, hu, htu⟩ := h t ht
    obtain ⟨m, hm, hum⟩ := Distinct.exists_mem_eraseDups hu
    exact ⟨m, hm, (hts t ht).same (hus m (Distinct.mem_of_mem_eraseDups hm)).proper (agrees_trans (hts t ht).built htu hum)⟩
  refine .set_of_members (fun t ht => (hts t (Distinct.mem_of_mem_eraseDups ht)).built)
    (fun u hu => (hus u (Distinct.mem_of_mem_eraseDups hu)).built) (.eraseDups ts) (.eraseDups us) (kept hts hus h) ?_
  exact fun u hu => (kept hus hts h' u hu).imp fun t ht => ht.imp_right symm

/-- Lists of the same regular terms, in whatever order and however often each, make equal sets. -/
theorem Same.eraseDups (hts : ∀ t ∈ ts, t.IsRegular) (h : ts ⊆ us) (h' : us ⊆ ts) :
    Same (.set true ts.eraseDups) (.set true us.eraseDups) :=
  .setOf_of_values hts (fun u hu => hts u (h' hu)) (fun t ht => ⟨t, h ht, BEq.rfl⟩) fun u hu => ⟨u, h' hu, BEq.rfl⟩

/-! ## The shapes -/

/-- An entity of a kind, of whatever maker. -/
def IsOfKind (kind : EntityKind) (t : Term) : Prop := ∃ m iri, t = .entity m ⟨kind, iri⟩

instance (kind : EntityKind) : ∀ t : Term, Decidable (t.IsOfKind kind)
  | .entity m e =>
    if h : e.kind = kind then .isTrue ⟨m, e.iri, h ▸ rfl⟩ else .isFalse fun ⟨_, _, he⟩ => h (by cases he; rfl)
  | .null | .bool _ | .int _ | .float _ | .text _ | .iri _ | .literal _ | .keyword _ | .expression .. | .note .. | .fact ..
  | .statement .. | .tuple _ | .list _ | .set .. | .map _ | .handle _ | .closure .. | .naming .. | .hook .. | .stats _
  | .settings _ | .listing _ => .isFalse nofun

/-- Whether an operator makes a restriction with a cardinality: none for one that quantifies, and a natural number
for one that counts. -/
def Restricts : Operator → Term → Prop
  | .some, c | .only, c => c = .null
  | .min, c | .max, c | .exactly, c => ∃ n : Nat, c = .int n
  | _, _ => False

/-- **A class or class expression**, of the shapes that the operations on class expressions make. -/
inductive IsClass : Term → Prop
  | named (m : Nat) (iri : String) : IsClass (.entity m ⟨.cls, iri⟩)
  | restriction {o : Operator} {p f c : Term} (ho : Restricts o c) (hp : IsOfKind .objectProperty p)
    (hf : IsClass f) : IsClass (.expression (.ofOperator o) [p, f] c)
  | complement {f : Term} (hf : IsClass f) : IsClass (.expression (.ofOperator .not) [f] .null)
  | combination {o : Operator} {ms : List Term} (ho : o = .and ∨ o = .or) (hne : ms ≠ []) (hd : Distinct ms)
    (hms : ∀ t ∈ ms, IsClass t) : IsClass (.expression (.ofOperator o) [.set true ms] .null)
  | enumeration {ms : List Term} (hne : ms ≠ []) (hd : Distinct ms) (hms : ∀ t ∈ ms, IsOfKind .individual t) :
    IsClass (.expression (.ofOperator .oneOf) [.set true ms] .null)

theorem IsOfKind.isEntity {kind : EntityKind} (h : IsOfKind kind t) : t.isEntity = true := by
  obtain ⟨m, iri, rfl⟩ := h
  rfl

theorem IsOfKind.isStable {kind : EntityKind} (h : IsOfKind kind t) : t.isStable = true := by
  obtain ⟨m, iri, rfl⟩ := h
  rfl

theorem IsOfKind.isRegular {kind : EntityKind} (h : IsOfKind kind t) : IsRegular t := by
  obtain ⟨m, iri, rfl⟩ := h
  exact .entity m _

theorem IsOfKind.isBuilt {kind : EntityKind} (h : IsOfKind kind t) : t.isBuilt = true := h.isRegular.built

theorem Restricts.isCount {c : Term} (h : Restricts o c) : c.isCount = true := by
  cases o <;> simp only [Restricts] at h
  case some | only =>
    subst h
    rfl
  case min | max | exactly =>
    obtain ⟨n, rfl⟩ := h
    rfl

/-- Between an entity and any term equality is equality in every sense. -/
theorem IsOfKind.same {kind : EntityKind} (h : IsOfKind kind t) (htu : t.agrees k b u = true) : Same t u := by
  obtain ⟨m, iri, rfl⟩ := h
  obtain ⟨n, rfl⟩ := entity_agrees.mp htu
  exact .entity m n _

namespace IsClass

theorem isRegular (h : IsClass t) : IsRegular t := by
  induction h with
  | named m iri => exact .entity m _
  | restriction ho hp _ ih =>
    obtain ⟨m, iri, rfl⟩ := hp
    refine .expression ?_ ho.isCount
    simpa using ⟨IsRegular.entity m _, ih⟩
  | complement _ ih => exact .expression (by simpa using ih) rfl
  | combination _ _ hd _ ih =>
    refine .expression ?_ rfl
    simpa only [List.mem_singleton, forall_eq] using IsRegular.set_iff.mpr ⟨hd, ih⟩
  | enumeration _ hd hms =>
    refine .expression ?_ rfl
    simpa only [List.mem_singleton, forall_eq] using IsRegular.set_iff.mpr ⟨hd, fun t ht => (hms t ht).isRegular⟩

theorem isBuilt (h : IsClass t) : t.isBuilt = true := h.isRegular.built

/-- **Between classes equality is equality in every sense.** -/
theorem same (ht : IsClass t) (hu : IsClass u) (h : t.agrees k b u = true) : Same t u :=
  ht.isRegular.same hu.isRegular.proper h

end IsClass

end Term

end Authoring
