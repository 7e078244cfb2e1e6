import Authoring.Proofs.Frame.Given

/-!
# Merging frames

Frames are brought to one shape and joined again and again on their way to an entity: where they are written, by the
builder, with the defaults of the scopes, by the compiler. That is harmless. Frames in one shape stay as they are, no
frames are neutral on both sides, no value is lost or doubled, and each tag has its values in the order in which they
were written, however the joins are grouped. Keys that name no tag are kept as they are, and for these the grouping is
harmless exactly if they are *coherent* (`FrameMap.merging`).

**What carries the proof.** Joining two sets of frames is bringing to one shape the first followed by the second
(`FrameMap.merge_eq_normalize`), from which the laws follow as they do for lists. This is where the keys matter: a
value that the second set keeps under one key is carried to wherever that key goes, so whatever finds the key has to
go there too (`FrameMap.join_extend`).

**What is assumed.** Keys are coherent if among them finding runs both ways and composes. Texts, IRIs and literals are
(`FrameMap.coherent_of_strings`), and so are texts and keywords (`FrameMap.coherent_of_words`). All of them together
are not: an IRI finds a keyword of its text and a keyword finds that text, but the IRI does not find the text. Where
all three are keys, the grouping decides whether the values of the IRI join those of the text
(`FrameMap.merge_not_assoc`).
-/

namespace Authoring

namespace FrameMap

variable {m n : FrameMap} {es a b c : List (Term × Term)} {j k : Term} {us vs ks : List Term}

/-- Frames in one shape joined to others, key by key. -/
def join (m n : FrameMap) : FrameMap := n.foldl (fun m e => extend e.1 e.2 m) m

theorem join_cons (m : FrameMap) (e : Term × List Term) (n : FrameMap) :
    join m (e :: n) = join (extend e.1 e.2 m) n := rfl

theorem normalize_append (a b : List (Term × Term)) : normalize (a ++ b) = extendAll (normalize a) b :=
  List.foldl_append

/-- The leaves of all values of written frames. -/
def leaves (es : List (Term × Term)) : List Term := es.flatMap fun e => e.2.flatten

/-- The leaves of the values of those written keys that a key finds. -/
def givenTo (k : Term) (es : List (Term × Term)) : List Term := leaves (es.filter fun e => k == keyOf e.1)

/-! ## Frames in one shape stay as they are -/

/-- Frames in one shape are normal and hold nothing but leaves. -/
structure IsSettled (m : FrameMap) : Prop extends IsNormal m where
  flat : All (fun t => t.flatten = [t]) m

namespace IsSettled

theorem tail {e : Term × List Term} (h : IsSettled (e :: m)) : IsSettled m :=
  ⟨h.toIsNormal.tail, fun f hf => h.flat f (List.mem_cons_of_mem _ hf)⟩

theorem flatten_head {e : Term × List Term} (h : IsSettled (e :: m)) : Term.flatten (.tuple e.2) = e.2 :=
  Term.flattenAll_of_forall (h.flat e List.mem_cons_self)

theorem normalize (es : List (Term × Term)) : IsSettled (normalize es) :=
  ⟨.normalize es, .normalize fun _ _ _ ht => Term.flatten_of_mem_flatten ht⟩

theorem merge (a b : List (Term × Term)) : IsSettled (merge a b) :=
  ⟨.merge a b, .merge (fun _ _ _ ht => Term.flatten_of_mem_flatten ht) fun _ _ _ ht => Term.flatten_of_mem_flatten ht⟩

end IsSettled

/-- Writing settled frames on top of others joins them. -/
theorem extendAll_entries (hn : IsSettled n) (m : FrameMap) : extendAll m n.entries = join m n := by
  induction n generalizing m with
  | nil => rfl
  | cons e n ih =>
    have hstep : extend (keyOf e.1) (Term.flatten (.tuple e.2)) m = extend e.1 e.2 m := by
      rw [hn.keys e List.mem_cons_self, hn.flatten_head]
    calc extendAll m (entries (e :: n))
        = extendAll (extend (keyOf e.1) (Term.flatten (.tuple e.2)) m) (entries n) := rfl
      _ = extendAll (extend e.1 e.2 m) (entries n) := by rw [hstep]
      _ = join (extend e.1 e.2 m) n := ih hn.tail _

theorem extend_of_new (h : ∀ e ∈ m, (k == e.1) = false) (vs : List Term) : extend k vs m = m ++ [(k, vs)] := by
  induction m with
  | nil => rfl
  | cons e m ih =>
    obtain ⟨he, hm⟩ := List.forall_mem_cons.mp h
    rw [extend, he, if_neg Bool.false_ne_true, ih hm]
    rfl

/-- Keys that find no earlier one are put at the end. -/
theorem join_eq_append (h : Distinct ((m ++ n).map (·.1))) : join m n = m ++ n := by
  induction n generalizing m with
  | nil => exact (List.append_nil m).symm
  | cons e n ih =>
    rw [List.map_append] at h
    have hnew : ∀ f ∈ m, (e.1 == f.1) = false := fun f hf =>
      (List.pairwise_append.mp h).2.2 f.1 (List.mem_map_of_mem hf) e.1 List.mem_cons_self
    rw [join_cons, extend_of_new hnew, ih (by simpa using h)]
    simp

/-- **Settled frames, brought to one shape, are what they were.** -/
theorem IsSettled.normalize_entries (h : IsSettled m) : FrameMap.normalize m.entries = m := by
  rw [FrameMap.normalize, extendAll_entries h]
  exact join_eq_append h.distinct

/-! ## Nothing is lost or doubled -/

theorem values_extend (k : Term) (vs : List Term) (m : FrameMap) :
    ((extend k vs m).flatMap (·.2)).Perm (m.flatMap (·.2) ++ vs) := by
  induction m with
  | nil => simp [extend]
  | cons e m ih =>
    rw [extend]
    split
    · simp only [List.flatMap_cons, List.append_assoc]
      exact List.perm_append_comm.append_left e.2
    · simp only [List.flatMap_cons, List.append_assoc]
      exact ih.append_left e.2

theorem values_extendAll (m : FrameMap) (es : List (Term × Term)) :
    ((extendAll m es).flatMap (·.2)).Perm (m.flatMap (·.2) ++ leaves es) := by
  induction es generalizing m with
  | nil => simp [extendAll, leaves]
  | cons e es ih =>
    refine (ih _).trans (((values_extend _ _ m).append_right _).trans ?_)
    rw [List.append_assoc]
    rfl

/-- Joining writes the second set on top of the first. -/
theorem merge_eq_extendAll (a b : List (Term × Term)) :
    merge a b = extendAll (normalize a) (normalize b).entries := (extendAll_entries (.normalize b) _).symm

theorem leaves_append (a b : List (Term × Term)) : leaves (a ++ b) = leaves a ++ leaves b := List.flatMap_append

theorem leaves_entries (h : IsSettled m) : leaves m.entries = m.flatMap (·.2) := by
  induction m with
  | nil => rfl
  | cons e m ih =>
    calc leaves (entries (e :: m)) = Term.flatten (.tuple e.2) ++ leaves (entries m) := rfl
      _ = e.2 ++ m.flatMap (·.2) := by rw [h.flatten_head, ih h.tail]

/-- **The values of two sets of frames in one are the leaves of the two**, each as often as it was written. -/
theorem values_merge (a b : List (Term × Term)) : ((merge a b).flatMap (·.2)).Perm (leaves (a ++ b)) := by
  have hshape : ∀ es, ((normalize es).flatMap (·.2)).Perm (leaves es) := values_extendAll []
  have hjoin := values_extendAll (normalize a) (normalize b).entries
  rw [leaves_entries (.normalize b), ← merge_eq_extendAll] at hjoin
  rw [leaves_append]
  exact hjoin.trans ((hshape a).append (hshape b))

theorem leaves_merge (a b : List (Term × Term)) : (leaves (merge a b).entries).Perm (leaves (a ++ b)) := by
  rw [leaves_entries (.merge a b)]
  exact values_merge a b

/-- However three sets of frames are grouped. -/
theorem values_grouped (a b c : List (Term × Term)) :
    ((merge (merge a b).entries c).flatMap (·.2)).Perm (leaves (a ++ b ++ c)) ∧
      ((merge a (merge b c).entries).flatMap (·.2)).Perm (leaves (a ++ b ++ c)) := by
  constructor
  · refine (values_merge _ c).trans ?_
    rw [leaves_append, leaves_append]
    exact (leaves_merge a b).append_right _
  · refine (values_merge a _).trans ?_
    rw [List.append_assoc, leaves_append, leaves_append]
    exact (leaves_merge b c).append_left _

/-! ## Coherent keys -/

/-- Keys among which finding runs both ways and composes. -/
structure Coherent (ks : List Term) : Prop where
  symm : ∀ i ∈ ks, ∀ j ∈ ks, (i == j) = true → (j == i) = true
  trans : ∀ i ∈ ks, ∀ j ∈ ks, ∀ k ∈ ks, (i == j) = true → (j == k) = true → (i == k) = true

/-- The written keys that name no tag. -/
def unknown (es : List (Term × Term)) : List Term := (es.map (·.1)).filter fun k => FrameTag.ofTerm? k = none

/-- The keys under which the values of written frames are kept. -/
def kept (es : List (Term × Term)) : List Term := es.map fun e => keyOf e.1

theorem mem_unknown : k ∈ unknown es ↔ FrameTag.ofTerm? k = none ∧ ∃ e ∈ es, e.1 = k := by
  simp only [unknown, List.mem_filter, List.mem_map, decide_eq_true_eq, and_comm]

/-- A kept key is a tag, or an unknown key as it was written. -/
theorem tag_or_mem_unknown (h : k ∈ kept es) : (∃ tag, k = .ofTag tag) ∨ k ∈ unknown es := by
  obtain ⟨e, he, rfl⟩ := List.mem_map.mp h
  cases hk : FrameTag.ofTerm? e.1 with
  | some tag => exact .inl ⟨tag, keyOf_of_tag hk⟩
  | none => exact .inr (mem_unknown.mpr ⟨by rw [ofTerm?_keyOf, hk], e, he, (keyOf_of_none hk).symm⟩)

namespace Coherent

theorem mono (h : Coherent ks) {js : List Term} (hs : js ⊆ ks) : Coherent js :=
  ⟨fun i hi j hj => h.symm i (hs hi) j (hs hj), fun i hi j hj k hk => h.trans i (hs hi) j (hs hj) k (hs hk)⟩

/-- **Kept keys are coherent if the unknown ones are**: a tag finds nothing but itself. -/
theorem kept (h : Coherent (unknown es)) : Coherent (kept es) := by
  have alike : ∀ i ∈ FrameMap.kept es, ∀ j ∈ FrameMap.kept es, (i == j) = true →
      i = j ∨ i ∈ unknown es ∧ j ∈ unknown es := by
    intro i hi j hj hij
    have hname : FrameTag.ofTerm? i = FrameTag.ofTerm? j := FrameTag.ofTerm?_of_beq hij
    rcases tag_or_mem_unknown hi with ⟨s, rfl⟩ | hi <;> rcases tag_or_mem_unknown hj with ⟨t, rfl⟩ | hj
    · cases hname
      exact .inl rfl
    · rw [(mem_unknown.mp hj).1] at hname
      cases hname
    · rw [(mem_unknown.mp hi).1] at hname
      cases hname
    · exact .inr ⟨hi, hj⟩
  constructor
  · intro i hi j hj hij
    rcases alike i hi j hj hij with rfl | ⟨hi, hj⟩
    · exact hij
    · exact h.symm i hi j hj hij
  · intro i hi j hj k hk hij hjk
    rcases alike i hi j hj hij with rfl | ⟨hi, hj⟩
    · exact hjk
    · rcases alike j ‹_› k hk hjk with rfl | ⟨-, hk⟩
      · exact hij
      · exact h.trans i hi j hj k hk hij hjk

end Coherent

/-- Texts, IRIs and literals are coherent. -/
theorem coherent_of_strings (h : ∀ k ∈ ks, (∃ s, k = .text s) ∨ (∃ s, k = .iri s) ∨ ∃ l, k = .literal l) :
    Coherent ks := by
  have literal_trans : ∀ {l m n : Literal}, l.agrees m = true → m.agrees n = true → l.agrees n = true := by
    intro l m n
    simp only [Literal.agrees, Language.agrees, Bool.and_eq_true, beq_iff_eq]
    rcases l with ⟨_, _ | _, _⟩ <;> rcases m with ⟨_, _ | _, _⟩ <;> rcases n with ⟨_, _ | _, _⟩ <;>
      simp +contextual
  constructor
  · intro i hi j hj hij
    rcases h i hi with ⟨s, rfl⟩ | ⟨s, rfl⟩ | ⟨l, rfl⟩ <;> rcases h j hj with ⟨t, rfl⟩ | ⟨t, rfl⟩ | ⟨m, rfl⟩ <;>
      simp_all [BEq.beq, Term.agrees, Term.atomAgrees, Term.quantity?, Literal.agrees_comm]
  · intro i hi j hj k hk hij hjk
    rcases h i hi with ⟨s, rfl⟩ | ⟨s, rfl⟩ | ⟨l, rfl⟩ <;> rcases h j hj with ⟨t, rfl⟩ | ⟨t, rfl⟩ | ⟨m, rfl⟩ <;>
      rcases h k hk with ⟨u, rfl⟩ | ⟨u, rfl⟩ | ⟨n, rfl⟩ <;>
      simp_all [BEq.beq, Term.agrees, Term.atomAgrees, Term.quantity?]
    exact literal_trans hjk hij

/-- Texts and keywords are coherent. -/
theorem coherent_of_words (h : ∀ k ∈ ks, (∃ s, k = .text s) ∨ ∃ w, k = .keyword w) : Coherent ks := by
  have same : ∀ i ∈ ks, ∀ j ∈ ks, (i == j) = true ↔ i.content? = j.content? := by
    intro i hi j hj
    rcases h i hi with ⟨s, rfl⟩ | ⟨s, rfl⟩ <;> rcases h j hj with ⟨t, rfl⟩ | ⟨t, rfl⟩ <;>
      simp [BEq.beq, Term.agrees, Term.atomAgrees, Term.keywordAgrees, Term.content?, eq_comm]
  exact ⟨fun i hi j hj hij => (same j hj i hi).mpr ((same i hi j hj).mp hij).symm,
    fun i hi j hj k hk hij hjk => (same i hi k hk).mpr (((same i hi j hj).mp hij).trans ((same j hj k hk).mp hjk))⟩

/-! ## Joining is writing one after the other -/

theorem keys_extend_subset (hm : m.map (·.1) ⊆ ks) (hk : k ∈ ks) : (extend k vs m).map (·.1) ⊆ ks := by
  rw [extend_keys]
  split
  · exact hm
  · exact List.append_subset.mpr ⟨hm, List.cons_subset.mpr ⟨hk, List.nil_subset _⟩⟩

section
variable (hks : Coherent ks)
include hks

/-- After values have been added under a key, whatever finds that key finds one of the frames. -/
theorem contains_extend (hm : m.map (·.1) ⊆ ks) (hj : j ∈ ks) (hk : k ∈ ks) (hkj : (k == j) = true) :
    ((extend j us m).map (·.1)).contains k = true := by
  rw [extend_keys]
  split
  next hfound =>
    obtain ⟨i, hi, hji⟩ := List.contains_iff_exists_mem_beq.mp hfound
    exact List.contains_iff_exists_mem_beq.mpr ⟨i, hi, hks.trans k hk j hj i (hm hi) hkj hji⟩
  next => exact List.contains_iff_exists_mem_beq.mpr ⟨j, List.mem_append_right _ List.mem_cons_self, hkj⟩

/-- Values that are added under two keys of which one finds the other go to the same place. -/
theorem extend_extend (hm : m.map (·.1) ⊆ ks) (hj : j ∈ ks) (hk : k ∈ ks) (hkj : (k == j) = true) :
    extend k vs (extend j us m) = extend j (us ++ vs) m := by
  induction m with
  | nil => simp [extend, hkj]
  | cons e m ih =>
    obtain ⟨he, hm⟩ := List.cons_subset.mp hm
    cases hje : j == e.1 with
    | true =>
      have hke : (k == e.1) = true := hks.trans k hk j hj e.1 he hkj hje
      simp [extend, hje, hke]
    | false =>
      have hke : (k == e.1) = false := Bool.eq_false_iff.mpr fun hke => by
        rw [hks.trans j hj k hk e.1 he (hks.symm k hk j hj hkj) hke] at hje
        cases hje
      simp [extend, hje, hke, ih hm]

/-- Values that are added under a key that is there, and under another one, may be added in either order. -/
theorem extend_comm (hm : m.map (·.1) ⊆ ks) (hj : j ∈ ks) (hk : k ∈ ks) (hjk : (j == k) = false)
    (hfound : (m.map (·.1)).contains k = true) : extend j us (extend k vs m) = extend k vs (extend j us m) := by
  induction m with
  | nil => cases hfound
  | cons e m ih =>
    obtain ⟨he, hm⟩ := List.cons_subset.mp hm
    cases hke : k == e.1 with
    | true =>
      have hje : (j == e.1) = false := Bool.eq_false_iff.mpr fun hje => by
        rw [hks.trans j hj e.1 he k hk hje (hks.symm k hk e.1 he hke)] at hjk
        cases hjk
      simp [extend, hke, hje]
    | false =>
      have hfound : (m.map (·.1)).contains k = true := by simpa [hke] using hfound
      cases hje : j == e.1 with
      | true => simp [extend, hke, hje]
      | false => simp [extend, hke, hje, ih hm hfound]

/-- Values that are added under a key that is there, and that no other frames are joined to, may be added before. -/
theorem join_extend_left (hm : m.map (·.1) ⊆ ks) (hn : n.map (·.1) ⊆ ks) (hk : k ∈ ks)
    (hapart : ∀ e ∈ n, (e.1 == k) = false) (hfound : (m.map (·.1)).contains k = true) :
    join (extend k vs m) n = extend k vs (join m n) := by
  induction n generalizing m with
  | nil => rfl
  | cons e n ih =>
    obtain ⟨he, hn⟩ := List.cons_subset.mp hn
    obtain ⟨hapart, hrest⟩ := List.forall_mem_cons.mp hapart
    have hfound' : ((extend e.1 e.2 m).map (·.1)).contains k = true := by
      rw [extend_keys]
      split
      · exact hfound
      · rw [List.contains_append, hfound, Bool.true_or]
    rw [join_cons, extend_comm hks hm he hk hapart hfound, ih (keys_extend_subset hm he) hn hrest hfound', join_cons]

/-- **Values go where their key goes**, whether they are added before the frames are joined to others or after. -/
theorem join_extend (hm : m.map (·.1) ⊆ ks) (hn : n.map (·.1) ⊆ ks) (hdistinct : Distinct (n.map (·.1)))
    (hk : k ∈ ks) : join m (extend k vs n) = extend k vs (join m n) := by
  induction n generalizing m with
  | nil => rfl
  | cons e n ih =>
    obtain ⟨he, hn⟩ := List.cons_subset.mp hn
    obtain ⟨hhead, htail⟩ := Distinct.cons_iff.mp hdistinct
    have hkeys : (extend e.1 e.2 m).map (·.1) ⊆ ks := keys_extend_subset hm he
    cases hke : k == e.1 with
    | true =>
      have hfound : ((extend e.1 e.2 m).map (·.1)).contains k = true := contains_extend hks hm he hk hke
      have hapart : ∀ f ∈ n, (f.1 == k) = false := fun f hf => Bool.eq_false_iff.mpr fun hfk => by
        have hfe : (f.1 == e.1) = true :=
          hks.trans f.1 (hn (List.mem_map_of_mem hf)) k hk e.1 he hfk hke
        rw [hhead f.1 (List.mem_map_of_mem hf)] at hfe
        cases hfe
      rw [extend, hke, if_pos rfl, join_cons, join_cons, ← join_extend_left hks hkeys hn hk hapart hfound,
        extend_extend hks hm he hk hke]
    | false => rw [extend, hke, if_neg Bool.false_ne_true, join_cons, join_cons, ih hkeys hn htail]

end

theorem keys_extendAll_subset (hm : m.map (·.1) ⊆ ks) (hes : kept es ⊆ ks) : (extendAll m es).map (·.1) ⊆ ks := by
  induction es generalizing m with
  | nil => exact hm
  | cons e es ih =>
    obtain ⟨he, hes⟩ := List.cons_subset.mp hes
    exact ih (keys_extend_subset hm he) hes

theorem keys_normalize_subset (hes : kept es ⊆ ks) : (normalize es).map (·.1) ⊆ ks :=
  keys_extendAll_subset (List.nil_subset _) hes

/-- Frames that are written on top of others may be written before these are joined to a third set. -/
theorem join_extendAll (hks : Coherent ks) (hm : m.map (·.1) ⊆ ks) (hes : kept es ⊆ ks) :
    ∀ {n : FrameMap}, IsNormal n → n.map (·.1) ⊆ ks → join m (extendAll n es) = extendAll (join m n) es := by
  induction es with
  | nil => exact fun _ _ => rfl
  | cons e es ih =>
    intro n hn hkeys
    obtain ⟨he, hes⟩ := List.cons_subset.mp hes
    refine (ih hes (hn.extend (keyOf_keyOf e.1) _) (keys_extend_subset hkeys he)).trans ?_
    rw [join_extend hks hm hkeys hn.distinct he]
    rfl

/-- **Two sets of frames in one are the first followed by the second, in one shape**, if the keys are coherent. -/
theorem merge_eq_normalize (h : Coherent (unknown (a ++ b))) : merge a b = normalize (a ++ b) := by
  have hkept : kept (a ++ b) = kept a ++ kept b := List.map_append
  have ha : kept a ⊆ kept (a ++ b) := hkept ▸ List.subset_append_left _ _
  have hb : kept b ⊆ kept (a ++ b) := hkept ▸ List.subset_append_right _ _
  rw [normalize_append]
  exact join_extendAll h.kept (keys_normalize_subset ha) hb .nil (List.nil_subset _)

/-- What is joined may be settled first. -/
theorem merge_settled_left (hm : IsSettled m) (b : List (Term × Term)) : merge m.entries b = join m (normalize b) :=
  congrArg (join · (normalize b)) hm.normalize_entries

theorem merge_settled_right (a : List (Term × Term)) (hn : IsSettled n) : merge a n.entries = join (normalize a) n :=
  congrArg (join (normalize a)) hn.normalize_entries

theorem unknown_append (a b : List (Term × Term)) : unknown (a ++ b) = unknown a ++ unknown b := by
  simp [unknown]

/-- **Three sets of frames may be joined in either grouping**, if their keys are coherent. -/
theorem merge_assoc (h : Coherent (unknown (a ++ b ++ c))) :
    merge (merge a b).entries c = merge a (merge b c).entries := by
  have hab : Coherent (unknown (a ++ b)) := h.mono (unknown_append (a ++ b) c ▸ List.subset_append_left _ _)
  have habc : Coherent (unknown (a ++ (b ++ c))) := by rwa [← List.append_assoc]
  have hbc : Coherent (unknown (b ++ c)) := habc.mono (unknown_append a (b ++ c) ▸ List.subset_append_right _ _)
  calc merge (merge a b).entries c
      = join (merge a b) (normalize c) := merge_settled_left (.merge a b) c
    _ = join (normalize (a ++ b)) (normalize c) := by rw [merge_eq_normalize hab]
    _ = normalize (a ++ b ++ c) := merge_eq_normalize h
    _ = normalize (a ++ (b ++ c)) := by rw [List.append_assoc]
    _ = join (normalize a) (normalize (b ++ c)) := (merge_eq_normalize habc).symm
    _ = join (normalize a) (merge b c) := by rw [merge_eq_normalize hbc]
    _ = merge a (merge b c).entries := (merge_settled_right a (.merge b c)).symm

/-! ## Each key has its values in their order -/

theorem givenTo_cons (k : Term) (e : Term × Term) (es : List (Term × Term)) :
    givenTo k (e :: es) = (if k == keyOf e.1 then e.2.flatten else []) ++ givenTo k es := by
  unfold givenTo leaves
  rw [List.filter_cons]
  split <;> simp

/-- Values that are added under a key are found under the keys that find it. -/
theorem valuesOf_extend (hks : Coherent ks) (hm : m.map (·.1) ⊆ ks) (hj : j ∈ ks) (hk : k ∈ ks) :
    (extend j vs m).valuesOf k = m.valuesOf k ++ if k == j then vs else [] := by
  induction m with
  | nil => rw [extend, valuesOf_cons]; rfl
  | cons e m ih =>
    obtain ⟨he, hm⟩ := List.cons_subset.mp hm
    have hall : (k == e.1) = true → (j == e.1) = (k == j) := fun hke => by
      refine Bool.eq_iff_iff.mpr ⟨fun hje => ?_, fun hkj => ?_⟩
      · exact hks.trans k hk e.1 he j hj hke (hks.symm j hj e.1 he hje)
      · exact hks.trans j hj k hk e.1 he (hks.symm k hk j hj hkj) hke
    have hapart : (k == e.1) = false → (j == e.1) = true → (k == j) = false := fun hke hje =>
      Bool.eq_false_iff.mpr fun hkj => by
        rw [hks.trans k hk j hj e.1 he hkj hje] at hke
        cases hke
    rw [extend]
    cases hke : k == e.1 with
    | true =>
      rw [hall hke]
      split <;> simp_all [valuesOf_cons]
    | false =>
      cases hje : j == e.1 with
      | true => simp [valuesOf_cons, hke, hapart hke hje]
      | false => simp [valuesOf_cons, hke, ih hm]

/-- **Frames in one shape have for each key what the written frames give it**, if the keys are coherent. -/
theorem valuesOf_normalize_kept (hks : Coherent ks) (hes : kept es ⊆ ks) (hk : k ∈ ks) :
    (normalize es).valuesOf k = givenTo k es := by
  have extendAll : ∀ {m : FrameMap}, m.map (·.1) ⊆ ks →
      (extendAll m es).valuesOf k = m.valuesOf k ++ givenTo k es := by
    induction es with
    | nil => exact fun _ => (List.append_nil _).symm
    | cons e es ih =>
      intro m hm
      obtain ⟨he, hes⟩ := List.cons_subset.mp hes
      rw [givenTo_cons, ← List.append_assoc, ← valuesOf_extend hks hm he hk]
      exact ih hes (keys_extend_subset hm he)
  exact extendAll (List.nil_subset _)

/-- The keys of frames in one shape are the kept keys, each once and in their order. -/
theorem keys_normalize (es : List (Term × Term)) : (normalize es).map (·.1) = (kept es).eraseDups := by
  have extendAll : ∀ m : FrameMap, (extendAll m es).map (·.1) =
      (kept es).foldl (fun l k => if l.contains k then l else l ++ [k]) (m.map (·.1)) := by
    induction es with
    | nil => exact fun _ => rfl
    | cons e es ih =>
      intro m
      refine (ih _).trans ?_
      rw [extend_keys]
      rfl
  refine (extendAll []).trans ?_
  have hall : (kept es).filter (fun k => !List.contains [] k) = kept es := List.filter_eq_self.mpr fun _ _ => rfl
  rw [List.map_nil, Distinct.foldl_insert, hall, List.nil_append]

/-- Frames with distinct keys are listed by their keys. -/
theorem eq_map_valuesOf (h : Distinct (m.map (·.1))) : m = (m.map (·.1)).map fun k => (k, m.valuesOf k) := by
  induction m with
  | nil => rfl
  | cons e m ih =>
    obtain ⟨hhead, htail⟩ := Distinct.cons_iff.mp h
    have hself : valuesOf (e :: m) e.1 = e.2 := by rw [valuesOf_cons, BEq.rfl, if_pos rfl]
    have hrest : (m.map (·.1)).map (fun k => (k, valuesOf (e :: m) k)) = (m.map (·.1)).map fun k => (k, valuesOf m k) :=
      List.map_congr_left fun k hk => by rw [valuesOf_cons, hhead k hk, if_neg Bool.false_ne_true]
    rw [List.map_cons, List.map_cons, hself, hrest, ← ih htail]

/-- **Frames in one shape, in full**: each kept key once, in the order in which they came, with what it is given. -/
theorem normalize_eq_map (h : Coherent (unknown es)) :
    normalize es = (kept es).eraseDups.map fun k => (k, givenTo k es) := by
  rw [eq_map_valuesOf (IsNormal.normalize es).distinct, keys_normalize]
  refine List.map_congr_left fun k hk => ?_
  rw [valuesOf_normalize_kept h.kept (fun _ h => h) (Distinct.mem_of_mem_eraseDups hk)]

/-- What settled frames give a tag is what they have for it. -/
theorem given_entries (hm : IsSettled m) (tag : FrameTag) : given tag m.entries = m.valuesOf (.ofTag tag) := by
  rw [← valuesOf_normalize, hm.normalize_entries]

/-! ## The laws -/

/-- If joining is associative on frames with one value each, the keys of these are coherent. -/
theorem coherent_of_assoc (hks : ∀ k ∈ ks, FrameTag.ofTerm? k = none)
    (h : ∀ a b c, unknown (a ++ b ++ c) ⊆ ks → merge (merge a b).entries c = merge a (merge b c).entries) :
    Coherent ks := by
  have single : ∀ i ∈ ks, ∀ j ∈ ks, ∀ k ∈ ks, extend k [.int 3] (extend j [.int 2] [(i, [.int 1])]) =
      join [(i, [.int 1])] (extend k [.int 3] [(j, [.int 2])]) := by
    intro i hi j hj k hk
    have shape : ∀ l ∈ ks, ∀ n, normalize [(l, .int n)] = [(l, [.int n])] := fun l hl n => by
      simp [normalize, extendAll, extend, keyOf_of_none (hks l hl), Term.flatten]
    have hassoc := h [(i, .int 1)] [(j, .int 2)] [(k, .int 3)] fun l hl => by
      obtain ⟨-, e, he, rfl⟩ := mem_unknown.mp hl
      simp only [List.cons_append, List.nil_append, List.mem_cons, List.not_mem_nil, or_false] at he
      rcases he with rfl | rfl | rfl <;> assumption
    rw [merge_settled_left (.merge _ _), merge_settled_right _ (.merge _ _)] at hassoc
    rwa [merge, merge, shape i hi, shape j hj, shape k hk] at hassoc
  constructor
  · intro i hi j hj hij
    refine Bool.not_eq_false _ |>.mp fun hji => ?_
    simpa [extend, join, hij, hji] using single i hi j hj i hi
  · intro i hi j hj k hk hij hjk
    refine Bool.not_eq_false _ |>.mp fun hik => ?_
    simpa [extend, join, hij, hjk, hik] using single k hk j hj i hi

/-- **Merging frames is a monoid, up to keys that are found one way only.** Frames in one shape stay as they are, no
frames are neutral, no value is lost or doubled, and each tag has its values in the order in which they were written,
however three sets of frames are grouped. If the keys that name no tag are coherent then either grouping gives the same
frames, which are all that was written, by the first of each key; and on frames with keys of a given sort the grouping
is immaterial only if those are coherent. -/
theorem merging (a b c : List (Term × Term)) :
    normalize (normalize a).entries = normalize a ∧ merge [] a = normalize a ∧ merge a [] = normalize a ∧
    (((merge (merge a b).entries c).flatMap (·.2)).Perm (leaves (a ++ b ++ c)) ∧
      ((merge a (merge b c).entries).flatMap (·.2)).Perm (leaves (a ++ b ++ c))) ∧
    (∀ tag, (merge (merge a b).entries c).valuesOf (.ofTag tag) = given tag a ++ given tag b ++ given tag c ∧
      (merge a (merge b c).entries).valuesOf (.ofTag tag) = given tag a ++ given tag b ++ given tag c) ∧
    (Coherent (unknown (a ++ b ++ c)) →
      merge (merge a b).entries c = merge a (merge b c).entries ∧
      merge (merge a b).entries c = (kept (a ++ b ++ c)).eraseDups.map fun k => (k, givenTo k (a ++ b ++ c))) ∧
    ∀ ks, (∀ k ∈ ks, FrameTag.ofTerm? k = none) →
      ((∀ x y z, unknown (x ++ y ++ z) ⊆ ks → merge (merge x y).entries z = merge x (merge y z).entries) ↔
        Coherent ks) := by
  refine ⟨(IsSettled.normalize a).normalize_entries, ?_, rfl, values_grouped a b c, fun tag => ⟨?_, ?_⟩,
    fun h => ⟨merge_assoc h, ?_⟩, fun ks hks => ⟨coherent_of_assoc hks, fun h x y z hxyz => merge_assoc (h.mono hxyz)⟩⟩
  · exact join_eq_append (m := []) (IsNormal.normalize a).distinct
  · rw [valuesOf_merge, given_entries (.merge a b), valuesOf_merge]
  · rw [valuesOf_merge, given_entries (.merge b c), valuesOf_merge, List.append_assoc]
  · have hab : Coherent (unknown (a ++ b)) := h.mono (unknown_append (a ++ b) c ▸ List.subset_append_left _ _)
    rw [merge_settled_left (.merge a b), merge_eq_normalize hab, ← normalize_eq_map h]
    exact merge_eq_normalize h

/-- Spellings of one tag, and a text and a keyword of one content that name none. -/
theorem merging_spellings :
    let a : List (Term × Term) := [(.text ":SubClass", .int 1), (.text "color", .int 2)]
    let b : List (Term × Term) := [(.ofTag .subclass, .list [.null, .int 3]), (.keyword (.entityKind .cls), .int 4)]
    let c : List (Term × Term) := [(.text "class", .int 5), (.text "subclass", .tuple [.list [.int 6], .int 7])]
    merge (merge a b).entries c = merge a (merge b c).entries ∧
      merge a (merge b c).entries = [(.ofTag .subclass, [.int 1, .int 3, .int 6, .int 7]), (.text "color", [.int 2]),
        (.keyword (.entityKind .cls), [.int 4, .int 5])] := by
  intro a b c
  have hcoherent : Coherent (unknown (a ++ b ++ c)) := coherent_of_words fun k hk => by
    obtain ⟨-, e, he, rfl⟩ := mem_unknown.mp hk
    simp only [a, b, c, List.cons_append, List.nil_append, List.mem_cons, List.not_mem_nil, or_false] at he
    rcases he with rfl | rfl | rfl | rfl | rfl | rfl <;> simp [Term.ofTag]
  exact ⟨((merging a b c).2.2.2.2.2.1 hcoherent).1, rfl⟩

/-- **The grouping matters** where a text, a keyword and an IRI of one content are keys. -/
theorem merge_not_assoc : ¬∀ a b c, merge (merge a b).entries c = merge a (merge b c).entries := by
  intro h
  have hregrouped := h [(.text "class", .int 1)] [(.keyword (.entityKind .cls), .int 2)] [(.iri "class", .int 3)]
  exact absurd (congrArg List.length hregrouped) (by decide +kernel)

end FrameMap

end Authoring
