import Authoring.Term.Equality

/-!
# Terms that are built from entities

A class expression is meant to be built from entities and class expressions: its operator is one of the
operators, its operands are entities, class expressions or fixed sets of these, and its cardinality, if it
has one, is a number. Nothing in a script enforces this, so it is a predicate (`Term.isBuilt`) and not a type.

**What it gives.** A built term can be a member of a set and part of a stored axiom
(`isStable_of_isBuilt`). And equality, which for arbitrary terms neither runs both ways nor composes, composes
when the first of three terms is built (`agrees_trans`): an IRI or a literal, which alone tell a keyword from
its word, can only stand in the second or third.

`Term.isFit` says of a value of a frame what is expected of it there: an expression is built, and an
annotation is along an annotation property. Values of the other sorts are looked through when they are used.
-/

namespace Authoring

/-- What is equal to a literal that is nothing but its text is nothing but its text. -/
theorem Literal.isPlain_of_agrees {l m : Literal} (h : l.agrees m = true)
    (hl : l.isPlain = true) : m.isPlain = true := by
  simp only [Literal.isPlain, Bool.and_eq_true, Option.isNone_iff_eq_none] at hl ⊢
  simp only [Literal.agrees, hl.1, hl.2, Bool.and_eq_true, beq_iff_eq] at h
  refine ⟨?_, h.1.2.symm⟩
  cases hm : m.language with
  | none => rfl
  | some g => simp [hm] at h

namespace Term

/-- Whether a term can stand where an expression has its cardinality: null or a number. -/
def isCount : Term → Bool
  | .null => true
  | t => t.quantity?.isSome

mutual
/-- Whether a term is an entity, or an expression or a fixed set over such terms. -/
def isBuilt : Term → Bool
  | .entity .. => true
  | .expression (.keyword (.operator _)) ts c => areBuilt ts && c.isCount
  | .set true ts => areBuilt ts
  | _ => false
def areBuilt : List Term → Bool
  | [] => true
  | t :: ts => t.isBuilt && areBuilt ts
end

/-- Whether a value of a frame is as it should be, so far as nothing looks through it before it is used. -/
def isFit : Term → Bool
  | .expression o ts c => (Term.expression o ts c).isBuilt
  | .note (.entity _ ⟨.annotationProperty, _⟩) _ => true
  | .note .. => false
  | _ => true

/-- A fit annotation is along an entity. -/
theorem isEntity_of_isFit {p : Term} {l : Literal} (h : (Term.note p l).isFit = true) : p.isEntity = true := by
  cases p
  case entity => rfl
  all_goals cases h

theorem areBuilt_iff : ∀ {ts : List Term}, areBuilt ts = true ↔ ∀ t ∈ ts, t.isBuilt = true
  | [] => by simp [areBuilt]
  | t :: ts => by simp [areBuilt, areBuilt_iff]

theorem areStable_iff {ts : List Term} : areStable ts = true ↔ ∀ t ∈ ts, t.isStable = true := by
  induction ts with
  | nil => simp [areStable]
  | cons t ts ih => simp [areStable, ih]

theorem isStable_of_isCount {c : Term} (h : c.isCount = true) : c.isStable = true := by
  cases c <;> simp [isCount, quantity?] at h <;> rfl

mutual
/-- A built term can be a member of a set. -/
theorem isStable_of_isBuilt : ∀ {t : Term}, t.isBuilt = true → t.isStable = true
  | .entity .., _ => rfl
  | .expression (.keyword (.operator _)) ts c, h => by
    obtain ⟨hts, hc⟩ := Bool.and_eq_true_iff.mp h
    simp [isStable, areStable_of_areBuilt hts, isStable_of_isCount hc]
  | .set true ts, h => rfl
theorem areStable_of_areBuilt : ∀ {ts : List Term}, areBuilt ts = true → areStable ts = true
  | [], _ => rfl
  | t :: ts, h => by
    obtain ⟨ht, hts⟩ := Bool.and_eq_true_iff.mp h
    simp [areStable, isStable_of_isBuilt ht, areStable_of_areBuilt hts]
end

/-! ## Equality with an entity -/

theorem atomAgrees_entity_left {k : Bool} {m : Nat} {e : Entity} {t : Term} :
    atomAgrees k (.entity m e) t = true ↔ ∃ n, t = .entity n e := by
  constructor
  · intro h
    cases t <;> simp [atomAgrees, quantity?] at h
    exact ⟨_, by rw [h]⟩
  · rintro ⟨n, rfl⟩
    simp [atomAgrees]

theorem atomAgrees_entity_right {k : Bool} {m : Nat} {e : Entity} {t : Term} :
    atomAgrees k t (.entity m e) = true ↔ ∃ n, t = .entity n e := by
  constructor
  · intro h
    cases t <;> simp [atomAgrees, keywordAgrees, quantity?] at h
    exact ⟨_, by rw [h]⟩
  · rintro ⟨n, rfl⟩
    simp [atomAgrees]

/-- Only the same entity, of whatever maker, is equal to an entity. -/
theorem entity_agrees {k b : Bool} {m : Nat} {e : Entity} {t : Term} :
    (Term.entity m e).agrees k b t = true ↔ ∃ n, t = .entity n e := by
  cases b
  · exact atomAgrees_entity_left
  · exact atomAgrees_entity_right

theorem agrees_entity {k b : Bool} {m : Nat} {e : Entity} {t : Term} :
    t.agrees k b (.entity m e) = true ↔ ∃ n, t = .entity n e := by
  constructor
  · intro h
    cases t <;> simp [agrees] at h
    all_goals cases b <;> simp [atomAgrees, keywordAgrees, quantity?] at h
    all_goals exact ⟨_, by rw [h]⟩
  · rintro ⟨n, rfl⟩
    exact entity_agrees.mpr ⟨m, rfl⟩

theorem equals_entity {m : Nat} {e : Entity} {t : Term} :
    t.equals (.entity m e) = true ↔ ∃ n, t = .entity n e := by
  rw [equals, Bool.and_eq_true, agrees_entity]
  constructor
  · exact fun h => h.1
  · rintro ⟨n, rfl⟩
    exact ⟨⟨n, rfl⟩, rfl⟩

/-! ## Texts and handles as keys -/

theorem text_beq {s t : String} : (Term.text s == Term.text t) = (t == s) := rfl

/-- Looking for a handle one finds this handle only. -/
theorem handle_beq {h : Handle} {t : Term} : (Term.handle h == t) = true ↔ t = .handle h := by
  constructor
  · intro ht
    have ht : t.atomAgrees true (.handle h) = true := ht
    cases t <;> simp [atomAgrees, keywordAgrees, quantity?] at ht
    exact congrArg Term.handle ht
  · rintro rfl
    exact BEq.rfl

theorem handle_beq_handle {i j : Handle} : (Term.handle i == Term.handle j) = decide (j = i) := by
  rw [Bool.eq_iff_iff, handle_beq, decide_eq_true_iff, Term.handle.injEq]

/-! ## Equality with a number, with null and with a keyword -/

/-- Whether two quantities are there and agree. -/
def quantitiesAgree : Option Quantity → Option Quantity → Bool
  | some m, some n => m == n
  | _, _ => false

theorem quantitiesAgree_left {q : Quantity} {r : Option Quantity} :
    quantitiesAgree (some q) r = true ↔ some q = r := by
  cases r <;> simp [quantitiesAgree]

theorem quantitiesAgree_right {q : Quantity} {r : Option Quantity} :
    quantitiesAgree r (some q) = true ↔ r = some q := by
  cases r <;> simp [quantitiesAgree]

theorem atomAgrees_number {k : Bool} {c d : Term} {q : Quantity} (hc : c.quantity? = some q) :
    (atomAgrees k c d = true ↔ some q = d.quantity?) ∧ (atomAgrees k d c = true ↔ d.quantity? = some q) := by
  cases c
  case bool | int | float =>
    constructor
    · refine Iff.trans ?_ quantitiesAgree_left
      rw [← hc]
      cases d <;> exact Iff.rfl
    · cases d
      case keyword => simp [atomAgrees, keywordAgrees, quantity?]
      all_goals
        refine Iff.trans ?_ quantitiesAgree_right
        rw [← hc]
        exact Iff.rfl
  all_goals cases hc

theorem number_agrees {k b : Bool} {c d : Term} {q : Quantity} (hc : c.quantity? = some q) :
    c.agrees k b d = true ↔ d.quantity? = some q := by
  have h := atomAgrees_number (k := k) (d := d) hc
  cases c
  case bool | int | float =>
    cases b
    · exact h.1.trans eq_comm
    · exact h.2
  all_goals cases hc

theorem null_agrees {k b : Bool} {d : Term} : Term.null.agrees k b d = true ↔ d = .null := by
  cases b <;> cases d <;> simp [agrees, atomAgrees, keywordAgrees, quantity?]

/-- Equality composes from where an expression has its cardinality. -/
theorem count_trans {k b : Bool} {c d e : Term} (hc : c.isCount = true) (h₁ : c.agrees k b d = true)
    (h₂ : d.agrees k b e = true) : c.agrees k b e = true := by
  cases hq : c.quantity? with
  | none =>
    have : c = .null := by cases c <;> simp_all [isCount]
    subst this
    rw [null_agrees] at h₁
    subst h₁
    exact h₂
  | some q =>
    rw [number_agrees hq] at h₁ ⊢
    rwa [number_agrees h₁] at h₂

/-- Equality composes from a keyword: what a keyword equals is known by its word. -/
theorem keyword_trans {b : Bool} {k : Keyword} {u v : Term} (h₁ : (Term.keyword k).agrees true b u = true)
    (h₂ : u.agrees true b v = true) : (Term.keyword k).agrees true b v = true := by
  cases b
  · cases u <;> simp [agrees, atomAgrees, keywordAgrees] at h₁
    case literal l =>
      cases v <;> simp [agrees, atomAgrees, quantity?] at h₂
      rename_i m
      have htext : l.text = m.text := by
        simp only [Literal.agrees, Bool.and_eq_true, beq_iff_eq] at h₂
        exact h₂.1.1
      simp [agrees, atomAgrees, keywordAgrees, h₁.1, htext, Literal.isPlain_of_agrees h₂ h₁.2]
    all_goals
      cases v <;> simp [agrees, atomAgrees, keywordAgrees, quantity?] at h₂ ⊢
    all_goals simp_all
  · cases u <;> simp [agrees, atomAgrees, keywordAgrees, quantity?] at h₁
    all_goals
      cases v <;> simp [agrees, atomAgrees, keywordAgrees, quantity?] at h₂ ⊢
    all_goals simp_all

/-! ## Sets by their members -/

theorem isMember_iff : ∀ {ts : List Term} {u : Term},
    isMember ts u = true ↔ ∃ t ∈ ts, t.agrees true false u = true
  | [], u => by simp [isMember]
  | t :: ts, u => by simp [isMember, isMember_iff]

theorem areMembers_iff : ∀ {ts us : List Term},
    areMembers ts us = true ↔ ∀ t ∈ ts, ∃ u ∈ us, t.agrees true true u = true
  | [], us => by simp [areMembers]
  | t :: ts, us => by simp [areMembers, areMembers_iff]

/-! ## Equality composes -/

mutual
/-- **Equality composes from a built term.** The second and third terms are arbitrary. -/
theorem agrees_trans : ∀ {s u v : Term} {b : Bool}, s.isBuilt = true → s.agrees true b u = true →
    u.agrees true b v = true → s.agrees true b v = true
  | .entity m e, u, v, b, _, h₁, h₂ => by
    obtain ⟨n, rfl⟩ := entity_agrees.mp h₁
    obtain ⟨p, rfl⟩ := entity_agrees.mp h₂
    exact entity_agrees.mpr ⟨p, rfl⟩
  | .expression (.keyword (.operator o)) ts c, u, v, b, hs, h₁, h₂ => by
    obtain ⟨hts, hc⟩ := Bool.and_eq_true_iff.mp hs
    cases u <;> simp only [agrees, Bool.and_eq_true, Bool.false_eq_true] at h₁
    cases v <;> simp only [agrees, Bool.and_eq_true, Bool.false_eq_true] at h₂
    simp only [agrees, Bool.and_eq_true]
    exact ⟨⟨keyword_trans h₁.1.1 h₂.1.1, agreeAll_trans hts h₁.1.2 h₂.1.2⟩, count_trans hc h₁.2 h₂.2⟩
  | .set true ts, u, v, b, hs, h₁, h₂ => by
    have hts : areBuilt ts = true := hs
    cases u <;> simp only [agrees, Bool.and_eq_true, Bool.false_eq_true] at h₁
    cases v <;> simp only [agrees, Bool.and_eq_true, Bool.false_eq_true] at h₂
    simp only [agrees, Bool.and_eq_true]
    obtain ⟨hl₁, h₁⟩ := h₁
    obtain ⟨hl₂, h₂⟩ := h₂
    refine ⟨by simp_all, ?_⟩
    cases b
    · simp only [Bool.false_eq_true, if_false, areMembers_iff] at h₁ h₂ ⊢
      intro t ht
      obtain ⟨u, hu, htu⟩ := h₁ t ht
      obtain ⟨v, hv, huv⟩ := h₂ u hu
      exact ⟨v, hv, agrees_trans_of_mem hts ht htu huv⟩
    · simp only [if_true, List.all_eq_true, isMember_iff] at h₁ h₂ ⊢
      intro v hv
      obtain ⟨u, hu, huv⟩ := h₂ v hv
      obtain ⟨t, ht, htu⟩ := h₁ u hu
      exact ⟨t, ht, agrees_trans_of_mem hts ht htu huv⟩
theorem agreeAll_trans : ∀ {ts us vs : List Term} {b : Bool}, areBuilt ts = true →
    agreeAll true b ts us = true → agreeAll true b us vs = true → agreeAll true b ts vs = true
  | [], us, vs, b, _, h₁, h₂ => by
    cases us
    · exact h₂
    · cases h₁
  | t :: ts, us, vs, b, h, h₁, h₂ => by
    obtain ⟨ht, hts⟩ := Bool.and_eq_true_iff.mp h
    cases us <;> simp only [agreeAll, Bool.and_eq_true, Bool.false_eq_true] at h₁
    cases vs <;> simp only [agreeAll, Bool.and_eq_true, Bool.false_eq_true] at h₂
    simp only [agreeAll, Bool.and_eq_true]
    exact ⟨agrees_trans ht h₁.1 h₂.1, agreeAll_trans hts h₁.2 h₂.2⟩
theorem agrees_trans_of_mem : ∀ {ts : List Term} {t u v : Term} {b : Bool}, areBuilt ts = true → t ∈ ts →
    t.agrees true b u = true → u.agrees true b v = true → t.agrees true b v = true
  | s :: ts, t, u, v, b, h, ht, h₁, h₂ => by
    obtain ⟨hs, hts⟩ := Bool.and_eq_true_iff.mp h
    rcases List.mem_cons.mp ht with hst | ht
    · rw [hst] at h₁ ⊢
      exact agrees_trans hs h₁ h₂
    · exact agrees_trans_of_mem hts ht h₁ h₂
end
end Term

end Authoring
