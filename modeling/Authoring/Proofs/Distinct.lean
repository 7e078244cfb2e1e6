/-!
# Lists without repetitions, up to a comparison

Axioms and terms are compared by an equality that is reflexive and no more than that: it need not run both ways
and need not compose. So the library's facts about lists without repetitions, which are for lawful equality,
do not apply, and the few that are needed are here for `ReflBEq`.

A list is *distinct* if no element finds an earlier one. What adding elements one by one makes of a list
(`foldl_insert`) needs no assumption about it; that removing elements one by one removes those elements and no
others (`foldl_eraseP`) needs a distinct list.
-/

namespace Authoring

variable {α : Type u} [BEq α]

/-- No element of the list finds an earlier one. -/
def Distinct (l : List α) : Prop := l.Pairwise fun a b => (b == a) = false

instance (l : List α) : Decidable (Distinct l) := inferInstanceAs (Decidable (l.Pairwise _))

namespace Distinct

theorem nil : Distinct ([] : List α) := List.Pairwise.nil

theorem cons_iff {a : α} {l : List α} : Distinct (a :: l) ↔ (∀ b ∈ l, (b == a) = false) ∧ Distinct l :=
  List.pairwise_cons

theorem sublist {l l' : List α} (h : l'.Sublist l) (hl : Distinct l) : Distinct l' :=
  List.Pairwise.sublist h hl

theorem eraseDups_sublist : ∀ l : List α, l.eraseDups.Sublist l
  | [] => List.Sublist.refl _
  | a :: l => by
    have : (l.filter fun c => !c == a).length < l.length + 1 := Nat.lt_succ_of_le (List.length_filter_le ..)
    rw [List.eraseDups_cons]
    exact ((eraseDups_sublist _).trans List.filter_sublist).cons_cons a
termination_by l => l.length

theorem mem_of_mem_eraseDups {a : α} {l : List α} (h : a ∈ l.eraseDups) : a ∈ l :=
  (eraseDups_sublist l).subset h

/-- Every element finds one that is kept. -/
theorem exists_mem_eraseDups [ReflBEq α] {a : α} : ∀ {l : List α}, a ∈ l → ∃ b ∈ l.eraseDups, a == b
  | b :: l, h => by
    have : (l.filter fun c => !c == b).length < l.length + 1 := Nat.lt_succ_of_le (List.length_filter_le ..)
    rw [List.eraseDups_cons]
    cases hab : a == b with
    | true => exact ⟨b, List.mem_cons_self, hab⟩
    | false =>
      rcases List.mem_cons.mp h with rfl | h
      · rw [BEq.rfl] at hab
        cases hab
      · have left : a ∈ l.filter fun c => !c == b := List.mem_filter.mpr ⟨h, by simp [hab]⟩
        obtain ⟨c, hc, hac⟩ := exists_mem_eraseDups left
        exact ⟨c, List.mem_cons_of_mem _ hc, hac⟩
termination_by l => l.length

theorem eraseDups : ∀ l : List α, Distinct l.eraseDups
  | [] => nil
  | a :: l => by
    have : (l.filter fun c => !c == a).length < l.length + 1 := Nat.lt_succ_of_le (List.length_filter_le ..)
    rw [List.eraseDups_cons, cons_iff]
    refine ⟨?_, eraseDups _⟩
    intro b hb
    simpa using (List.mem_filter.mp (mem_of_mem_eraseDups hb)).2
termination_by l => l.length

/-- Nothing is erased from a distinct list. -/
theorem eraseDups_eq {l : List α} (h : Distinct l) : l.eraseDups = l := by
  induction l with
  | nil => rfl
  | cons a l ih =>
    obtain ⟨head, tail⟩ := cons_iff.mp h
    have hkept : l.filter (fun b => !b == a) = l := List.filter_eq_self.mpr fun b hb => by rw [head b hb]; rfl
    rw [List.eraseDups_cons, hkept, ih tail]

/-- A list stays distinct in another order, if its elements find each other both ways or not at all. -/
theorem perm {l l' : List α} (h : Distinct l) (hl : l.Perm l')
    (hsymm : ∀ a ∈ l, ∀ b ∈ l, (a == b) = true → (b == a) = true) : Distinct l' := by
  have hboth : l.Pairwise fun a b => (b == a) = false ∧ (a == b) = false := by
    refine h.imp_of_mem fun {a b} ha hb hba => ⟨hba, Bool.eq_false_iff.mpr fun hab => ?_⟩
    rw [hsymm a ha b hb hab] at hba
    cases hba
  exact (hboth.perm hl fun h => h.symm).imp fun h => h.1

/-- A list stays distinct if a distinct list is put after it whose elements it does not contain. -/
theorem append {l l' : List α} (hl : Distinct l) (hl' : Distinct l')
    (h : ∀ b ∈ l', l.contains b = false) : Distinct (l ++ l') := by
  refine List.pairwise_append.mpr ⟨hl, hl', ?_⟩
  intro a ha b hb
  cases hba : b == a
  · rfl
  · have := h b hb
    rw [← Bool.not_eq_true, List.contains_iff_exists_mem_beq] at this
    exact absurd ⟨a, ha, hba⟩ this

/-! ## One by one -/

/-- Adding elements one by one, each unless it finds one that is there. -/
theorem foldl_insert (as l : List α) :
    as.foldl (fun l a => if l.contains a then l else l ++ [a]) l =
      l ++ (as.filter fun a => !l.contains a).eraseDups := by
  induction as generalizing l with
  | nil => simp
  | cons a as ih =>
    rw [List.foldl_cons, ih]
    cases ha : l.contains a with
    | true => simp [ha]
    | false =>
      -- What the longer list contains is what the list contains, and what finds the new element.
      have grown : (fun b => !(l ++ [a]).contains b) = fun b => !b == a && !l.contains b := by
        funext b
        rw [List.contains_append, Bool.not_or, Bool.and_comm]
        simp [List.contains_cons]
      rw [if_neg Bool.false_ne_true, grown, List.filter_cons_of_pos (by rw [ha]; rfl), List.eraseDups_cons,
        List.filter_filter, List.append_assoc]
      rfl

/-- Removing the elements with a property one by one, each by what it finds first, leaves the others. -/
theorem foldl_eraseP [ReflBEq α] (p : α → Bool) {l : List α} (h : Distinct l) :
    (l.filter p).foldl (fun l a => l.eraseP (a == ·)) l = l.filter (!p ·) := by
  induction l with
  | nil => rfl
  | cons a l ih =>
    obtain ⟨head, tail⟩ := cons_iff.mp h
    cases ha : p a with
    | true => simp [ha, ih tail]
    | false =>
      -- No element of the rest finds the first, so all removals pass over it.
      have pass : ∀ bs : List α, (∀ b ∈ bs, (b == a) = false) → ∀ l : List α,
          bs.foldl (fun l b => l.eraseP (b == ·)) (a :: l) =
            a :: bs.foldl (fun l b => l.eraseP (b == ·)) l := by
        intro bs
        induction bs with
        | nil => exact fun _ _ => rfl
        | cons b bs ihbs =>
          intro hbs l
          rw [List.foldl_cons, List.eraseP_cons_of_neg (by simp [hbs b List.mem_cons_self]),
            ihbs fun c hc => hbs c (List.mem_cons_of_mem _ hc)]
          rfl
      have passed := pass (l.filter p) (fun b hb => head b (List.mem_filter.mp hb).1) l
      simp [ha, passed, ih tail]

end Distinct

end Authoring
