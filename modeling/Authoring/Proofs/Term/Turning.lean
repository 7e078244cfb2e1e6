import Authoring.Proofs.Term.Built

/-!
# Who is asked

The comparison of terms is one question with a direction and two senses. To turn the question round is to ask the
other term (`Term.agrees_turned`), and what equals a term as a key equals it in the plain sense, too
(`Term.agrees_of_asKey`). Both hold of all terms, built or not, although the directions and the senses are defined
apart from each other.

**What carries the proof.** Both are by recursion on the first term. A term that holds no other is compared at once,
and differs from every one that does (`Term.agrees_apart`); sets and maps are compared by what is found among their
members and entries (`Term.set_agrees_iff`, `Term.map_agrees_iff`).
-/

namespace Authoring.Term

variable {t u : Term} {k b : Bool}

/-- Whether a term holds other terms by which it is compared. -/
def isCompound : Term → Bool
  | .expression .. | .note .. | .fact .. | .statement .. | .tuple _ | .list _ | .set .. | .map _ => true
  | _ => false

theorem agrees_atom (ht : t.isCompound = false) : t.agrees k b u = if b then atomAgrees k u t else atomAgrees k t u := by
  cases t <;> first | rfl | cases ht

/-- What holds other terms differs from what holds none, whoever is asked. -/
theorem agrees_apart (ht : t.isCompound = true) (hu : u.isCompound = false) :
    t.agrees k b u = false ∧ u.agrees k b t = false := by
  constructor
  · cases t <;> cases ht <;> cases u <;> first | rfl | cases hu
  · rw [agrees_atom hu]
    cases t <;> cases ht <;> cases u <;> cases hu <;> cases b <;> simp [atomAgrees, keywordAgrees, quantity?]

/-! ## Sets and maps by what is found in them -/

theorem set_agrees_iff {f g : Bool} {ts us : List Term} : (Term.set f ts).agrees k b (.set g us) = true ↔
    ts.length = us.length ∧ if b then ∀ u ∈ us, ∃ t ∈ ts, t.agrees true false u = true
      else ∀ t ∈ ts, ∃ u ∈ us, t.agrees true true u = true := by
  cases b <;> simp [agrees, isMember_iff, areMembers_iff]

theorem isEntry_iff {f : Term × Term} : ∀ {es : List (Term × Term)},
    isEntry k es f = true ↔ ∃ e ∈ es, entryAgrees k false true e f = true
  | [] => by simp [isEntry]
  | e :: es => by simp [isEntry, isEntry_iff]

theorem areEntries_iff {fs : List (Term × Term)} : ∀ {es : List (Term × Term)},
    areEntries k es fs = true ↔ ∀ e ∈ es, ∃ f ∈ fs, entryAgrees k true false e f = true
  | [] => by simp [areEntries]
  | e :: es => by simp [areEntries, areEntries_iff]

theorem map_agrees_iff {es fs : List (Term × Term)} : (Term.map es).agrees k b (.map fs) = true ↔
    es.length = fs.length ∧ if b then ∀ f ∈ fs, ∃ e ∈ es, entryAgrees k false true e f = true
      else ∀ e ∈ es, ∃ f ∈ fs, entryAgrees k true false e f = true := by
  cases b <;> simp [agrees, isEntry_iff, areEntries_iff]

/-! ## The question turned round -/

/-- Where one of the terms holds no other, both questions are asked at once. -/
theorem agrees_turned_of_not (h : t.isCompound = false ∨ u.isCompound = false) :
    u.agrees k (!b) t = t.agrees k b u := by
  cases ht : t.isCompound <;> cases hu : u.isCompound
  · rw [agrees_atom ht, agrees_atom hu]
    cases b <;> rfl
  · rw [(agrees_apart hu ht).1, (agrees_apart hu ht).2]
  · rw [(agrees_apart ht hu).1, (agrees_apart ht hu).2]
  · simp [ht, hu] at h

mutual
/-- **To turn the question is to ask the other.** -/
theorem agrees_turned : ∀ (t u : Term) (k b : Bool), u.agrees k (!b) t = t.agrees k b u
  | .expression o ts c, u, k, b => by
    cases u
    case expression p us d =>
      simp only [agrees, agrees_turned o p k b, agreeAll_turned ts us k b, agrees_turned c d k b]
    all_goals first | rfl | exact agrees_turned_of_not (.inr rfl)
  | .note p l, u, k, b => by
    cases u
    case note q m => simp only [agrees, agrees_turned p q k b, Literal.agrees_comm l m]
    all_goals first | rfl | exact agrees_turned_of_not (.inr rfl)
  | .fact p t n, u, k, b => by
    cases u
    case fact q s m => simp only [agrees, agrees_turned p q k b, agrees_turned t s k b, Bool.beq_comm (a := m)]
    all_goals first | rfl | exact agrees_turned_of_not (.inr rfl)
  | .statement j ts, u, k, b => by
    cases u
    case statement i us => simp only [agrees, agreeAll_turned ts us k b, BEq.comm (a := i)]
    all_goals first | rfl | exact agrees_turned_of_not (.inr rfl)
  | .tuple ts, u, k, b => by
    cases u
    case tuple us => exact agreeAll_turned ts us k b
    all_goals first | rfl | exact agrees_turned_of_not (.inr rfl)
  | .list ts, u, k, b => by
    cases u
    case list us => exact agreeAll_turned ts us k b
    all_goals first | rfl | exact agrees_turned_of_not (.inr rfl)
  | .set f ts, u, k, b => by
    cases u
    case set g us =>
      have asked : ∀ t ∈ ts, ∀ (u : Term) b, u.agrees true (!b) t = t.agrees true b u :=
        fun t ht u b => agrees_turned_of_mem ts t u true b ht
      rw [Bool.eq_iff_iff, set_agrees_iff, set_agrees_iff, eq_comm]
      refine and_congr_right fun _ => ?_
      cases b
      · refine forall₂_congr fun t ht => exists_congr fun u => and_congr_right fun _ => ?_
        rw [← asked t ht u true]
        rfl
      · refine forall₂_congr fun u _ => exists_congr fun t => and_congr_right fun ht => ?_
        rw [← asked t ht u false]
        rfl
    all_goals first | rfl | exact agrees_turned_of_not (.inr rfl)
  | .map es, u, k, b => by
    cases u
    case map fs =>
      have asked : ∀ e ∈ es, ∀ f a c, entryAgrees k (!a) (!c) f e = entryAgrees k a c e f :=
        fun e he f a c => entryAgrees_turned_of_mem es e f k a c he
      rw [Bool.eq_iff_iff, map_agrees_iff, map_agrees_iff, eq_comm]
      refine and_congr_right fun _ => ?_
      cases b
      · refine forall₂_congr fun e he => exists_congr fun f => and_congr_right fun _ => ?_
        rw [← asked e he f true false]
        rfl
      · refine forall₂_congr fun f _ => exists_congr fun e => and_congr_right fun he => ?_
        rw [← asked e he f false true]
        rfl
    all_goals first | rfl | exact agrees_turned_of_not (.inr rfl)
  | .null, u, k, b | .bool _, u, k, b | .int _, u, k, b | .float _, u, k, b | .text _, u, k, b | .iri _, u, k, b
  | .literal _, u, k, b | .keyword _, u, k, b | .entity .., u, k, b | .handle _, u, k, b | .closure .., u, k, b
  | .naming .., u, k, b | .hook .., u, k, b | .stats _, u, k, b | .settings _, u, k, b
  | .listing _, u, k, b => agrees_turned_of_not (.inl rfl)
theorem agreeAll_turned : ∀ (ts us : List Term) (k b : Bool), agreeAll k (!b) us ts = agreeAll k b ts us
  | [], us, k, b => by cases us <;> rfl
  | t :: ts, us, k, b => by
    cases us
    case nil => rfl
    case cons u us => simp only [agreeAll, agrees_turned t u k b, agreeAll_turned ts us k b]
theorem agrees_turned_of_mem : ∀ (ts : List Term) (t u : Term) (k b : Bool), t ∈ ts →
    u.agrees k (!b) t = t.agrees k b u
  | s :: ts, t, u, k, b, ht => by
    rcases List.mem_cons.mp ht with hst | ht
    · rw [hst]
      exact agrees_turned s u k b
    · exact agrees_turned_of_mem ts t u k b ht
theorem entryAgrees_turned : ∀ (e f : Term × Term) (k a b : Bool),
    entryAgrees k (!a) (!b) f e = entryAgrees k a b e f
  | (s, t), (u, v), k, a, b => by simp only [entryAgrees, agrees_turned s u true a, agrees_turned t v k b]
theorem entryAgrees_turned_of_mem : ∀ (es : List (Term × Term)) (e f : Term × Term) (k a b : Bool), e ∈ es →
    entryAgrees k (!a) (!b) f e = entryAgrees k a b e f
  | d :: es, e, f, k, a, b, he => by
    rcases List.mem_cons.mp he with hde | he
    · rw [hde]
      exact entryAgrees_turned d f k a b
    · exact entryAgrees_turned_of_mem es e f k a b he
end

/-! ## Keys and values -/

theorem keywordAgrees_of_asKey {j : Keyword} (h : keywordAgrees true j u = true) : keywordAgrees false j u = true := by
  cases u <;> simp_all [keywordAgrees]

theorem atomAgrees_of_asKey (h : atomAgrees true t u = true) : atomAgrees false t u = true := by
  cases t
  case keyword j => exact keywordAgrees_of_asKey h
  all_goals cases u <;> exact h

mutual
/-- **What equals a term as a key equals it in the plain sense.** Not the other way round: a literal with a language may
equal a keyword, but is never taken for it. -/
theorem agrees_of_asKey : ∀ {t u : Term} {b : Bool}, t.agrees true b u = true → t.agrees false b u = true
  | .expression o ts c, u, b, h => by
    cases u <;> simp only [agrees, Bool.and_eq_true, Bool.false_eq_true] at h ⊢
    exact ⟨⟨agrees_of_asKey h.1.1, agreeAll_of_asKey h.1.2⟩, agrees_of_asKey h.2⟩
  | .note p l, u, b, h => by
    cases u <;> simp only [agrees, Bool.and_eq_true, Bool.false_eq_true] at h ⊢
    exact ⟨agrees_of_asKey h.1, h.2⟩
  | .fact p t n, u, b, h => by
    cases u <;> simp only [agrees, Bool.and_eq_true, Bool.false_eq_true] at h ⊢
    exact ⟨⟨agrees_of_asKey h.1.1, agrees_of_asKey h.1.2⟩, h.2⟩
  | .statement j ts, u, b, h => by
    cases u <;> simp only [agrees, Bool.and_eq_true, Bool.false_eq_true] at h ⊢
    exact ⟨h.1, agreeAll_of_asKey h.2⟩
  | .tuple ts, u, b, h => by
    cases u <;> simp only [agrees, Bool.false_eq_true] at h ⊢
    exact agreeAll_of_asKey h
  | .list ts, u, b, h => by
    cases u <;> simp only [agrees, Bool.false_eq_true] at h ⊢
    exact agreeAll_of_asKey h
  | .set f ts, u, b, h => h
  | .map es, u, b, h => by
    cases u
    case map fs =>
      rw [map_agrees_iff] at h ⊢
      refine ⟨h.1, ?_⟩
      have h := h.2
      cases b
      · intro e he
        obtain ⟨f, hf, hef⟩ := h e he
        exact ⟨f, hf, entryAgrees_of_asKey_of_mem he hef⟩
      · intro f hf
        obtain ⟨e, he, hef⟩ := h f hf
        exact ⟨e, he, entryAgrees_of_asKey_of_mem he hef⟩
    all_goals cases h
  | .null, u, b, h | .bool _, u, b, h | .int _, u, b, h | .float _, u, b, h | .text _, u, b, h | .iri _, u, b, h
  | .literal _, u, b, h | .keyword _, u, b, h | .entity .., u, b, h | .handle _, u, b, h | .closure .., u, b, h
  | .naming .., u, b, h | .hook .., u, b, h | .stats _, u, b, h | .settings _, u, b, h | .listing _, u, b, h => by
    rw [agrees_atom rfl] at h ⊢
    cases b <;> simp only [Bool.false_eq_true, if_true, if_false] at h ⊢ <;> exact atomAgrees_of_asKey h
theorem agreeAll_of_asKey : ∀ {ts us : List Term} {b : Bool}, agreeAll true b ts us = true → agreeAll false b ts us = true
  | [], us, b, h => h
  | t :: ts, us, b, h => by
    cases us <;> simp only [agreeAll, Bool.and_eq_true, Bool.false_eq_true] at h ⊢
    exact ⟨agrees_of_asKey h.1, agreeAll_of_asKey h.2⟩
theorem entryAgrees_of_asKey : ∀ {e f : Term × Term} {a b : Bool}, entryAgrees true a b e f = true →
    entryAgrees false a b e f = true
  | (s, t), f, a, b, h => by
    simp only [entryAgrees, Bool.and_eq_true] at h ⊢
    exact ⟨h.1, agrees_of_asKey h.2⟩
theorem entryAgrees_of_asKey_of_mem : ∀ {es : List (Term × Term)} {e f : Term × Term} {a b : Bool}, e ∈ es →
    entryAgrees true a b e f = true → entryAgrees false a b e f = true
  | d :: es, e, f, a, b, he, h => by
    rcases List.mem_cons.mp he with hde | he
    · rw [hde] at h ⊢
      exact entryAgrees_of_asKey h
    · exact entryAgrees_of_asKey_of_mem he h
end

end Authoring.Term
