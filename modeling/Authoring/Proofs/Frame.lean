import Authoring.Frame
import Authoring.Keyed
import Authoring.Proofs.Calm

/-!
# Frames and their values

Whatever is true of all leaves of written frames is true of all values of the frames in one shape, and so it is when two
sets of frames are joined (`FrameMap.All`).

Frames are *fit* if every value that is left after flattening is: class expressions are built, and annotations
are along annotation properties (`Term.Fit`). Written frames are fit by their leaves (`FrameMap.AreFit`), and
frames in one shape by their values, each of which is then its own only leaf (`FrameMap.IsFit`). Joining fit frames
keeps them fit, and so does writing them out again.
-/

namespace Authoring

namespace Term

mutual
/-- What is left after flattening is its own only leaf. -/
theorem flatten_of_mem_flatten : ∀ {t u : Term}, u ∈ t.flatten → u.flatten = [u]
  | .null, u, h => by cases h
  | .list ts, u, h => flatten_of_mem_flattenAll h
  | .tuple ts, u, h => flatten_of_mem_flattenAll h
  | .bool _, u, h | .int _, u, h | .float _, u, h | .text _, u, h | .iri _, u, h | .literal _, u, h
  | .keyword _, u, h | .entity _ _, u, h | .expression _ _ _, u, h | .note _ _, u, h | .fact _ _ _, u, h
  | .statement _ _, u, h | .set _ _, u, h | .map _, u, h | .handle _, u, h | .closure _ _ _ _, u, h
  | .naming _ _, u, h | .hook _ _, u, h | .stats _, u, h | .settings _, u, h | .listing _, u, h => by
    rw [List.mem_singleton.mp h]
    rfl
theorem flatten_of_mem_flattenAll : ∀ {ts : List Term} {u : Term}, u ∈ flattenAll ts → u.flatten = [u]
  | [], u, h => by cases h
  | t :: ts, u, h => by
    rcases List.mem_append.mp h with h | h
    · exact flatten_of_mem_flatten h
    · exact flatten_of_mem_flattenAll h
end

/-- Leaves are left as they are. -/
theorem flattenAll_of_forall {ts : List Term} (h : ∀ t ∈ ts, t.flatten = [t]) : flattenAll ts = ts := by
  rw [flattenAll_eq_flatMap]
  induction ts with
  | nil => rfl
  | cons t ts ih =>
    rw [List.flatMap_cons, h t List.mem_cons_self, ih fun u hu => h u (List.mem_cons_of_mem _ hu)]
    rfl

end Term

/-- What is found stands under some key. -/
theorem Keyed.exists_mem_of_lookup {α β : Type} [BEq α] {k : α} {v : β} {es : List (α × β)}
    (h : es.lookup k = some v) : ∃ j, (j, v) ∈ es := by
  induction es with
  | nil => cases h
  | cons e es ih =>
    rw [lookup_first] at h
    split at h
    · cases h
      exact ⟨e.1, List.mem_cons_self⟩
    · obtain ⟨j, hj⟩ := ih h
      exact ⟨j, List.mem_cons_of_mem _ hj⟩

/-- Something is found after a put only if it was there, or the key is looked for. -/
theorem Keyed.isSome_lookup_put {α β : Type} [BEq α] {k j : α} {v : β} {es : List (α × β)}
    (h : ((put k v es).lookup j).isSome = true) : (es.lookup j).isSome = true ∨ (j == k) = true := by
  induction es with
  | nil =>
    rw [put, lookup_first] at h
    split at h
    · exact .inr ‹_›
    · cases h
  | cons e es ih =>
    rw [put] at h
    rw [lookup_first]
    by_cases hj : (j == e.1) = true
    · exact .inl (by rw [if_pos hj]; rfl)
    · rw [if_neg hj]
      split at h
      · rw [lookup_first, if_neg hj] at h
        exact .inl h
      · rw [lookup_first, if_neg hj] at h
        exact ih h

namespace FrameMap

variable {m : FrameMap} {es : List (Term × Term)} {k : Term} {vs : List Term} {P : Term → Prop} {S : Expr → Prop}

/-! ## Frames all of whose values have a property -/

/-- Whether all values of frames in one shape have a property. -/
def All (P : Term → Prop) (m : FrameMap) : Prop := ∀ e ∈ m, ∀ t ∈ e.2, P t

theorem All.extend (h : All P m) (hvs : ∀ t ∈ vs, P t) : All P (extend k vs m) := by
  induction m with
  | nil =>
    intro e he
    rw [List.mem_singleton.mp he]
    exact hvs
  | cons e m ih =>
    obtain ⟨he, hm⟩ := List.forall_mem_cons.mp h
    rw [FrameMap.extend]
    split
    · refine List.forall_mem_cons.mpr ⟨?_, hm⟩
      intro t ht
      exact (List.mem_append.mp ht).elim (he t) (hvs t)
    · exact List.forall_mem_cons.mpr ⟨he, ih hm⟩

theorem All.extendAll (h : All P m) (hes : ∀ e ∈ es, ∀ t ∈ e.2.flatten, P t) : All P (extendAll m es) := by
  unfold FrameMap.extendAll
  induction es generalizing m with
  | nil => exact h
  | cons e es ih =>
    obtain ⟨he, hes⟩ := List.forall_mem_cons.mp hes
    exact ih (h.extend he) hes

/-- Written frames in one shape have the leaves of what is written as their values. -/
theorem All.normalize (h : ∀ e ∈ es, ∀ t ∈ e.2.flatten, P t) : All P (normalize es) := All.extendAll nofun h

/-- The values of two sets of frames in one are those of the two. -/
theorem All.merge {defaults explicit : List (Term × Term)} (hd : ∀ e ∈ defaults, ∀ t ∈ e.2.flatten, P t)
    (he : ∀ e ∈ explicit, ∀ t ∈ e.2.flatten, P t) : All P (merge defaults explicit) := by
  have fold : ∀ (n m : FrameMap), All P n → All P m → All P (n.foldl (fun m e => FrameMap.extend e.1 e.2 m) m) := by
    intro n
    induction n with
    | nil => exact fun _ _ hm => hm
    | cons e n ih =>
      intro m hn hm
      obtain ⟨he, hn⟩ := List.forall_mem_cons.mp hn
      exact ih _ hn (hm.extend he)
  exact fold _ _ (normalize he) (normalize hd)

theorem All.valuesOf (h : All P m) (k : Term) : ∀ t ∈ m.valuesOf k, P t := by
  intro t ht
  unfold FrameMap.valuesOf at ht
  cases hk : m.lookup k with
  | none =>
    rw [hk] at ht
    cases ht
  | some vs =>
    rw [hk] at ht
    obtain ⟨j, hj⟩ := Keyed.exists_mem_of_lookup hk
    exact h _ hj t ht

/-! ## Fit frames -/

/-- A value that is fit and its own only leaf. -/
def IsValue (S : Expr → Prop) (t : Term) : Prop := t.Fit S ∧ t.flatten = [t]

/-- Whether frames in one shape are fit. -/
def IsFit (S : Expr → Prop) (m : FrameMap) : Prop := ∀ e ∈ m, ∀ t ∈ e.2, IsValue S t

/-- Whether written frames are fit. -/
def AreFit (S : Expr → Prop) (es : List (Term × Term)) : Prop := ∀ e ∈ es, ∀ t ∈ e.2.flatten, t.Fit S

/-- The leaves of fit frames are fit, and are their own only leaves. -/
theorem AreFit.isValue (h : AreFit S es) : ∀ e ∈ es, ∀ t ∈ e.2.flatten, IsValue S t :=
  fun e he t ht => ⟨h e he t ht, Term.flatten_of_mem_flatten ht⟩

/-- Joining fit frames gives fit frames. -/
theorem AreFit.merge {defaults explicit : List (Term × Term)} (hd : AreFit S defaults) (he : AreFit S explicit) :
    IsFit S (merge defaults explicit) := All.merge hd.isValue he.isValue

/-- Fit frames that are written out are fit. -/
theorem IsFit.entries (h : IsFit S m) : AreFit S m.entries := by
  intro e he t ht
  obtain ⟨f, hf, rfl⟩ := List.mem_map.mp he
  have hvalues := h f hf
  have hflat : Term.flatten (.tuple f.2) = f.2 := Term.flattenAll_of_forall fun t ht => (hvalues t ht).2
  rw [hflat] at ht
  exact (hvalues t ht).1

theorem IsFit.valuesOf (h : IsFit S m) (k : Term) : ∀ t ∈ m.valuesOf k, t.Fit S :=
  fun t ht => (All.valuesOf h k t ht).1

end FrameMap

end Authoring
