import Authoring.Proofs.Distinct
import Authoring.Proofs.Frame

/-!
# What frames give each tag

Written frames *give* a tag the leaves of the values of all keys that name the tag, in the order of the keys
(`FrameMap.given`). Two sets of frames in one shape have, for each tag, what the first set gives it, and then what the
second set gives it (`FrameMap.valuesOf_merge`). So it does not matter in what order keys of different tags stand, how
the tags are spelled, how values are nested and where there are nulls.

**What carries the proof.** Keys are compared by an equality that is coarser than identity, but equal keys have the same
content and so name the same tag (`FrameTag.ofTerm?_of_beq`). And frames in one shape are *normal*: each key that names
a tag is that tag, and no key is there twice (`FrameMap.IsNormal`).
-/

namespace Authoring

namespace Term

variable {a b : Term} {asKey turned : Bool}

/-- A number has no content. -/
theorem content?_of_quantity? {q : Quantity} (h : a.quantity? = some q) : a.content? = none := by
  cases a <;> first | rfl | cases h

theorem content?_of_keywordAgrees {k : Keyword} (h : keywordAgrees asKey k b = true) : b.content? = some k.word := by
  unfold keywordAgrees at h
  split at h
  case h_4 l => exact congrArg some (eq_of_beq (Bool.and_eq_true_iff.mp h).1).symm
  case h_5 => cases h
  all_goals exact congrArg some (eq_of_beq h).symm

theorem content?_of_atomAgrees (h : atomAgrees asKey a b = true) : a.content? = b.content? := by
  unfold atomAgrees at h
  split at h
  case h_2 | h_3 | h_5 => exact congrArg some (eq_of_beq h)
  case h_4 => exact (content?_of_keywordAgrees h).symm
  case h_6 l m =>
    simp only [Literal.agrees, Bool.and_eq_true, beq_iff_eq] at h
    exact congrArg some h.1.1
  case h_15 =>
    split at h
    next hm hn => rw [content?_of_quantity? hm, content?_of_quantity? hn]
    next => cases h
  all_goals rfl

/-- **Equal terms have the same content**, whoever is asked. -/
theorem content?_of_agrees (h : a.agrees asKey turned b = true) : a.content? = b.content? := by
  have atom : ∀ {a b : Term}, (if turned then atomAgrees asKey b a else atomAgrees asKey a b) = true →
      a.content? = b.content? := by
    intro a b h
    split at h
    · exact (content?_of_atomAgrees h).symm
    · exact content?_of_atomAgrees h
  cases a
  case expression | note | fact | statement | tuple | list | set | map =>
    unfold agrees at h
    split at h
    · rfl
    · cases h
  all_goals exact atom h

end Term

namespace FrameTag

variable {k j : Term} {tag : FrameTag}

/-- A tag is named by what counts as a text. -/
theorem ofTerm?_eq (k : Term) : ofTerm? k = k.content?.bind ofText? := by
  unfold ofTerm?
  split
  next t => exact (ofText?_word t).symm
  next => rfl

/-- Equal keys name the same tag. -/
theorem ofTerm?_of_beq (h : (k == j) = true) : ofTerm? k = ofTerm? j := by
  rw [ofTerm?_eq, ofTerm?_eq, Term.content?_of_agrees h]

end FrameTag

namespace FrameMap

variable {m n : FrameMap} {es : List (Term × Term)} {k : Term} {vs : List Term} {tag : FrameTag}

/-- **What written frames give a tag**: the leaves of the values of the keys that name it, in their order. -/
def given (tag : FrameTag) (es : List (Term × Term)) : List Term :=
  (es.filter fun e => FrameTag.ofTerm? e.1 = some tag).flatMap fun e => e.2.flatten

/-! ## Frames in one shape -/

/-- Frames in one shape: each key that names a tag is the tag, and no key finds an earlier one. -/
structure IsNormal (m : FrameMap) : Prop where
  keys : ∀ e ∈ m, keyOf e.1 = e.1
  distinct : Distinct (m.map (·.1))

theorem keyOf_of_tag (h : FrameTag.ofTerm? k = some tag) : keyOf k = .ofTag tag := by
  unfold keyOf
  rw [h]

theorem keyOf_of_none (h : FrameTag.ofTerm? k = none) : keyOf k = k := by
  unfold keyOf
  rw [h]

@[simp] theorem ofTerm?_keyOf (k : Term) : FrameTag.ofTerm? (keyOf k) = FrameTag.ofTerm? k := by
  cases h : FrameTag.ofTerm? k with
  | none => rw [keyOf_of_none h, h]
  | some tag =>
    rw [keyOf_of_tag h]
    rfl

theorem keyOf_keyOf (k : Term) : keyOf (keyOf k) = keyOf k := by
  cases h : FrameTag.ofTerm? k with
  | none => rw [keyOf_of_none h, keyOf_of_none h]
  | some tag =>
    rw [keyOf_of_tag h]
    rfl

/-- The keys of frames after values have been added: the old ones, and the new one unless it finds one of them. -/
theorem extend_keys (k : Term) (vs : List Term) (m : FrameMap) : (extend k vs m).map (·.1) =
    if (m.map (·.1)).contains k then m.map (·.1) else m.map (·.1) ++ [k] := by
  induction m with
  | nil => rfl
  | cons e m ih =>
    rw [extend, List.map_cons, List.contains_cons]
    cases hk : k == e.1 with
    | true => simp
    | false =>
      simp only [Bool.false_eq_true, if_false, Bool.false_or, List.map_cons, ih]
      split <;> rfl

namespace IsNormal

theorem nil : IsNormal [] := ⟨nofun, .nil⟩

theorem tail {e : Term × List Term} (h : IsNormal (e :: m)) : IsNormal m :=
  ⟨fun f hf => h.keys f (List.mem_cons_of_mem _ hf), (Distinct.cons_iff.mp h.distinct).2⟩

theorem extend (h : IsNormal m) (hk : keyOf k = k) (vs : List Term) : IsNormal (extend k vs m) := by
  have hkeys : ∀ j ∈ (FrameMap.extend k vs m).map (·.1), keyOf j = j := by
    have hold : ∀ j ∈ m.map (·.1), keyOf j = j := List.forall_mem_map.mpr h.keys
    rw [extend_keys]
    split
    · exact hold
    · exact List.forall_mem_append.mpr ⟨hold, List.forall_mem_singleton.mpr hk⟩
  refine ⟨List.forall_mem_map.mp hkeys, ?_⟩
  rw [extend_keys]
  split
  next => exact h.distinct
  next hc =>
    refine h.distinct.append (Distinct.cons_iff.mpr ⟨nofun, .nil⟩) fun j hj => ?_
    rw [List.mem_singleton.mp hj]
    simpa using hc

theorem normalize (es : List (Term × Term)) : IsNormal (normalize es) := by
  have extendAll : ∀ (es : List (Term × Term)) {m : FrameMap}, IsNormal m → IsNormal (extendAll m es) := by
    intro es
    induction es with
    | nil => exact id
    | cons e es ih => exact fun h => ih (h.extend (keyOf_keyOf e.1) _)
  exact extendAll es nil

theorem foldl_extend (hn : IsNormal n) (hm : IsNormal m) :
    IsNormal (n.foldl (fun m e => FrameMap.extend e.1 e.2 m) m) := by
  induction n generalizing m with
  | nil => exact hm
  | cons e n ih => exact ih hn.tail (hm.extend (hn.keys e List.mem_cons_self) e.2)

theorem merge (defaults explicit : List (Term × Term)) : IsNormal (merge defaults explicit) :=
  (normalize explicit).foldl_extend (normalize defaults)

end IsNormal

/-! ## The values of a tag -/

theorem valuesOf_cons (e : Term × List Term) (m : FrameMap) (k : Term) :
    valuesOf (e :: m) k = if k == e.1 then e.2 else m.valuesOf k := by
  rw [valuesOf, Keyed.lookup_first]
  split <;> rfl

theorem valuesOf_extend_self (k : Term) (vs : List Term) (m : FrameMap) :
    (extend k vs m).valuesOf k = m.valuesOf k ++ vs := by
  induction m with
  | nil => simp [extend, valuesOf]
  | cons e m ih =>
    rw [extend, valuesOf_cons]
    cases hk : k == e.1 with
    | true => simp [valuesOf_cons, hk]
    | false => simp [valuesOf_cons, hk, ih]

/-- What is added to a key that does not name the tag is not found under the tag. -/
theorem valuesOf_extend_of_ne (h : FrameTag.ofTerm? k ≠ some tag) (vs : List Term) (m : FrameMap) :
    (extend k vs m).valuesOf (.ofTag tag) = m.valuesOf (.ofTag tag) := by
  have apart : ∀ {j : Term}, (Term.ofTag tag == j) = true → FrameTag.ofTerm? j = some tag :=
    fun hj => (FrameTag.ofTerm?_of_beq hj).symm
  induction m with
  | nil =>
    rw [extend, valuesOf_cons, if_neg fun hk => h (apart hk)]
  | cons e m ih =>
    rw [extend]
    cases hk : k == e.1 with
    | true =>
      have he : ¬(Term.ofTag tag == e.1) = true := fun he => h ((FrameTag.ofTerm?_of_beq hk).trans (apart he))
      simp [valuesOf_cons, he]
    | false => simp [valuesOf_cons, ih]

/-- What is added to a key is found under the tag that it names. -/
theorem valuesOf_extend_keyOf (k : Term) (vs : List Term) (m : FrameMap) (tag : FrameTag) :
    (extend (keyOf k) vs m).valuesOf (.ofTag tag) =
      m.valuesOf (.ofTag tag) ++ if FrameTag.ofTerm? k = some tag then vs else [] := by
  by_cases hk : FrameTag.ofTerm? k = some tag
  · rw [keyOf_of_tag hk, if_pos hk, valuesOf_extend_self]
  · rw [if_neg hk, List.append_nil, valuesOf_extend_of_ne (by rwa [ofTerm?_keyOf])]

theorem given_cons (e : Term × Term) (es : List (Term × Term)) (tag : FrameTag) :
    given tag (e :: es) = (if FrameTag.ofTerm? e.1 = some tag then e.2.flatten else []) ++ given tag es := by
  unfold given
  rw [List.filter_cons]
  split <;> simp_all

/-- **Frames in one shape have for each tag what the written frames give it.** -/
theorem valuesOf_normalize (es : List (Term × Term)) (tag : FrameTag) :
    (normalize es).valuesOf (.ofTag tag) = given tag es := by
  have extendAll : ∀ (es : List (Term × Term)) (m : FrameMap),
      (extendAll m es).valuesOf (.ofTag tag) = m.valuesOf (.ofTag tag) ++ given tag es := by
    intro es
    induction es with
    | nil => exact fun m => (List.append_nil _).symm
    | cons e es ih =>
      intro m
      rw [given_cons, ← List.append_assoc, ← valuesOf_extend_keyOf]
      exact ih _
  exact extendAll es []

theorem valuesOf_eq_nil (h : ∀ e ∈ m, (k == e.1) = false) : m.valuesOf k = [] := by
  induction m with
  | nil => rfl
  | cons e m ih =>
    obtain ⟨he, hm⟩ := List.forall_mem_cons.mp h
    rw [valuesOf_cons, he]
    exact ih hm

/-- Of the keys of normal frames only one names a tag. -/
theorem IsNormal.valuesOf_tail {e : Term × List Term} (h : IsNormal (e :: m)) (he : FrameTag.ofTerm? e.1 = some tag) :
    m.valuesOf (.ofTag tag) = [] := by
  have tag_of_key : ∀ f ∈ e :: m, FrameTag.ofTerm? f.1 = some tag → f.1 = .ofTag tag :=
    fun f hf hk => (h.keys f hf).symm.trans (keyOf_of_tag hk)
  refine valuesOf_eq_nil fun f hf => Bool.eq_false_iff.mpr fun hfound => ?_
  have hkey : f.1 = .ofTag tag := tag_of_key f (List.mem_cons_of_mem _ hf) (FrameTag.ofTerm?_of_beq hfound).symm
  have hdistinct : (f.1 == e.1) = false := (Distinct.cons_iff.mp h.distinct).1 f.1 (List.mem_map_of_mem hf)
  rw [hkey, tag_of_key e List.mem_cons_self he, BEq.rfl] at hdistinct
  cases hdistinct

/-- Values of normal frames that are added one by one come after those that are there. -/
theorem valuesOf_foldl_extend (hn : IsNormal n) (m : FrameMap) (tag : FrameTag) :
    (n.foldl (fun m e => extend e.1 e.2 m) m).valuesOf (.ofTag tag) =
      m.valuesOf (.ofTag tag) ++ n.valuesOf (.ofTag tag) := by
  induction n generalizing m with
  | nil => exact (List.append_nil _).symm
  | cons e n ih =>
    have hkey : keyOf e.1 = e.1 := hn.keys e List.mem_cons_self
    have hfirst := valuesOf_extend_keyOf e.1 e.2 m tag
    rw [hkey] at hfirst
    rw [List.foldl_cons, ih hn.tail, hfirst, valuesOf_cons, List.append_assoc]
    congr 1
    by_cases he : FrameTag.ofTerm? e.1 = some tag
    · have hself : (Term.ofTag tag == e.1) = true := by
        rw [← hkey, keyOf_of_tag he]
        exact BEq.rfl
      rw [if_pos he, if_pos hself, hn.valuesOf_tail he, List.append_nil]
    · rw [if_neg he, if_neg fun hk => he (FrameTag.ofTerm?_of_beq hk).symm, List.nil_append]

/-- **Two sets of frames in one** have for each tag what the first gives it, then what the second gives it. -/
theorem valuesOf_merge (defaults explicit : List (Term × Term)) (tag : FrameTag) :
    (merge defaults explicit).valuesOf (.ofTag tag) = given tag defaults ++ given tag explicit := by
  rw [merge, valuesOf_foldl_extend (.normalize explicit), valuesOf_normalize, valuesOf_normalize]

/-! ## The keys -/

section
variable {p : Term → Bool}

/-- A key that finds one of the frames is not the first of its sort, if equal keys are of one sort. -/
theorem find?_keys_extend (hp : ∀ k j, (k == j) = true → p k = p j) (k : Term) (vs : List Term) (m : FrameMap) :
    ((extend k vs m).map (·.1)).find? p = (m.map (·.1) ++ [k]).find? p := by
  rw [extend_keys]
  split
  next hc =>
    obtain ⟨j, hj, hk⟩ := List.contains_iff_exists_mem_beq.mp hc
    rw [List.find?_append]
    cases hpk : p k with
    | false => simp [hpk]
    | true =>
      have hfound : ((m.map (·.1)).find? p).isSome = true := List.find?_isSome.mpr ⟨j, hj, (hp k j hk).symm.trans hpk⟩
      rw [Option.or_of_isSome hfound]
  next => rfl

theorem find?_keys_foldl (hp : ∀ k j, (k == j) = true → p k = p j) (n m : FrameMap) :
    ((n.foldl (fun m e => extend e.1 e.2 m) m).map (·.1)).find? p = (m.map (·.1) ++ n.map (·.1)).find? p := by
  induction n generalizing m with
  | nil => simp
  | cons e n ih =>
    rw [List.foldl_cons, ih, List.find?_append, find?_keys_extend hp, ← List.find?_append, List.append_assoc]
    rfl

theorem find?_keys_normalize (hp : ∀ k j, (k == j) = true → p k = p j) (es : List (Term × Term)) :
    ((normalize es).map (·.1)).find? p = (es.map fun e => keyOf e.1).find? p := by
  have extendAll : ∀ (es : List (Term × Term)) (m : FrameMap),
      ((extendAll m es).map (·.1)).find? p = (m.map (·.1) ++ es.map fun e => keyOf e.1).find? p := by
    intro es
    induction es with
    | nil => simp [FrameMap.extendAll]
    | cons e es ih =>
      intro m
      rw [FrameMap.extendAll, List.foldl_cons]
      refine (ih _).trans ?_
      rw [List.find?_append, find?_keys_extend hp, ← List.find?_append, List.append_assoc]
      rfl
  exact extendAll es []

/-- **The first key of some sort** in two sets of frames in one is the first one that is written, those of the defaults
before the explicit ones. -/
theorem find?_keys_merge (hp : ∀ k j, (k == j) = true → p k = p j) (defaults explicit : List (Term × Term)) :
    ((merge defaults explicit).map (·.1)).find? p = ((defaults ++ explicit).map fun e => keyOf e.1).find? p := by
  rw [merge, find?_keys_foldl hp, List.find?_append, find?_keys_normalize hp, find?_keys_normalize hp,
    ← List.find?_append, List.map_append]

/-- The first element whose image does not have a property. -/
theorem find?_map_not_iff {α β : Type} {P : β → Prop} [DecidablePred P] {g : α → β} {l : List α} {b : β} :
    (l.map g).find? (fun c => !decide (P c)) = some b ↔
      ∃ before a after, l = before ++ a :: after ∧ (∀ c ∈ before, P (g c)) ∧ ¬P (g a) ∧ g a = b := by
  rw [List.find?_map, Option.map_eq_some_iff]
  constructor
  · rintro ⟨a, h, hb⟩
    obtain ⟨ha, before, after, hl, hbefore⟩ := List.find?_eq_some_iff_append.mp h
    exact ⟨before, a, after, hl, fun c hc => by simpa using hbefore c hc, by simpa using ha, hb⟩
  · rintro ⟨before, a, after, hl, hbefore, ha, hb⟩
    refine ⟨a, List.find?_eq_some_iff_append.mpr ⟨by simpa using ha, before, after, hl, ?_⟩, hb⟩
    exact fun c hc => by simpa using hbefore c hc

/-- **The first key without some property** in two sets of frames in one is the first one that is written. -/
theorem exists_first_merge {P : Term → Prop} (hP : ∀ k j, (k == j) = true → (P k ↔ P j)) (hkey : ∀ k, P (keyOf k) ↔ P k)
    (defaults explicit : List (Term × Term)) (key : Term) :
    (∃ before e after, merge defaults explicit = before ++ e :: after ∧ (∀ b ∈ before, P b.1) ∧ ¬P e.1 ∧ e.1 = key) ↔
      ∃ before e after, defaults ++ explicit = before ++ e :: after ∧ (∀ b ∈ before, P b.1) ∧ ¬P e.1 ∧
        keyOf e.1 = key := by
  classical
  have hfound := find?_keys_merge (p := fun k => !decide (P k)) (fun k j h => by simp only [hP k j h]) defaults explicit
  have hwritten := find?_map_not_iff (P := P) (g := fun e : Term × Term => keyOf e.1) (l := defaults ++ explicit) (b := key)
  simp only [hkey] at hwritten
  rw [← hwritten, ← hfound, find?_map_not_iff]

/-- **The keys of two sets of frames in one** name a tag of some sort if and only if all written keys do. -/
theorem forall_keys_merge {Q : FrameTag → Prop} (defaults explicit : List (Term × Term)) :
    (∀ e ∈ merge defaults explicit, ∃ tag, e.1 = .ofTag tag ∧ Q tag) ↔
      ∀ e ∈ defaults ++ explicit, ∃ tag, FrameTag.ofTerm? e.1 = some tag ∧ Q tag := by
  classical
  let p : Term → Bool := fun k => !decide (∃ tag, FrameTag.ofTerm? k = some tag ∧ Q tag)
  have hp : ∀ k j, (k == j) = true → p k = p j := fun k j h => by simp only [p, FrameTag.ofTerm?_of_beq h]
  have hnormal : ∀ e ∈ merge defaults explicit, (∃ tag, e.1 = .ofTag tag ∧ Q tag) ↔
      ∃ tag, FrameTag.ofTerm? e.1 = some tag ∧ Q tag := by
    intro e he
    refine exists_congr fun tag => and_congr_left fun _ => ?_
    constructor
    · intro h
      rw [h]
      rfl
    · exact fun h => ((IsNormal.merge defaults explicit).keys e he).symm.trans (keyOf_of_tag h)
  have hnone := iff_of_eq (congrArg (· = none) (find?_keys_merge hp defaults explicit))
  simp only [List.find?_eq_none, List.forall_mem_map, p, ofTerm?_keyOf, Bool.not_eq_true', decide_eq_false_iff_not,
    Classical.not_not] at hnone
  rw [forall₂_congr hnormal, hnone]

end

end FrameMap

end Authoring
