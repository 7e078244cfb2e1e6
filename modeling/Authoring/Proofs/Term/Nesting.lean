import Authoring.Act
import Mathlib.Data.Finset.Card
import Mathlib.Logic.Relation

/-!
# Nested values

Lists and tuples nest, and a window is a list too: the list of what it holds now. So a value has items
(`World.items?`), these have items, and so on. A value is *nested* to some depth if this comes to an end on every path
(`World.IsNested`), and then its leaves are those of its items, one item after the other
(`World.IsNested.leaves_of_items`).

**What carries the proof.** Windows are looked into down to a number of levels only, as many as there are windows. That
is enough for every nested value: whoever goes into a window does not meet it again, so with each window that is entered
there is one less to come (`World.inside_ssubset`).

**What is left out** are lists that hold themselves, and no others: a value is nested exactly if no window that stands
in it holds itself, be it at any depth (`World.isNested_iff`). Builders put nothing but entities into windows; it takes
a script that records a list in that very list.
-/

namespace Authoring

open Relation

namespace World

variable {w : World} {t u : Term} {ts : List Term} {id : Nat}

/-! ## Items -/

/-- The items of a list or a tuple. A window is a list of what it holds. -/
def items? (w : World) : Term → Option (List Term)
  | .tuple ts | .list ts => some ts
  | .handle (.window id) => some (w.window id)
  | _ => none

/-- Whether a term is an item of another one. -/
def IsItem (w : World) (u t : Term) : Prop := ∃ ts, w.items? t = some ts ∧ u ∈ ts

/-- **A nested value**: going from a value to an item of it, and from there to an item of that, one comes to an end. -/
def IsNested (w : World) (t : Term) : Prop := Acc w.IsItem t

theorem isNested_of_items?_eq_none (h : w.items? t = none) : w.IsNested t :=
  Acc.intro t fun _ ⟨_, hts, _⟩ => nomatch h.symm.trans hts

theorem isNested_iff_of_items (h : w.items? t = some ts) : w.IsNested t ↔ ∀ u ∈ ts, w.IsNested u := by
  constructor
  · exact fun ht u hu => Acc.inv ht ⟨ts, h, hu⟩
  · intro hts
    refine Acc.intro t fun u ⟨us, hus, hu⟩ => ?_
    cases h.symm.trans hus
    exact hts u hu

@[simp] theorem isNested_tuple : w.IsNested (.tuple ts) ↔ ∀ u ∈ ts, w.IsNested u := isNested_iff_of_items rfl

@[simp] theorem isNested_list : w.IsNested (.list ts) ↔ ∀ u ∈ ts, w.IsNested u := isNested_iff_of_items rfl

theorem isNested_window : w.IsNested (.handle (.window id)) ↔ ∀ u ∈ w.window id, w.IsNested u :=
  isNested_iff_of_items rfl

/-- Nothing that is nested stands in itself. -/
theorem IsNested.irrefl (h : w.IsNested t) : ¬TransGen w.IsItem t t := by
  have hinside : Acc (TransGen w.IsItem) t := h.transGen
  induction hinside with
  | intro t hbelow ih => exact fun hcycle => ih t hcycle (acc_transGen_iff.mp (hbelow t hcycle)) hcycle

/-- What stands in a nested value is nested. -/
theorem IsNested.of_stands (h : w.IsNested t) (hstands : ReflTransGen w.IsItem u t) : w.IsNested u := by
  induction hstands with
  | refl => exact h
  | tail _ hitem ih => exact ih (Acc.inv h hitem)

/-! ## Windows that are still to come -/

open Classical in
/-- The windows that stand in a value, itself included. -/
noncomputable def inside (w : World) (t : Term) : Finset Nat :=
  (Finset.range w.windows.length).filter fun id => ReflTransGen w.IsItem (.handle (.window id)) t

theorem mem_inside :
    id ∈ w.inside t ↔ id < w.windows.length ∧ ReflTransGen w.IsItem (.handle (.window id)) t := by
  simp only [inside, Finset.mem_filter, Finset.mem_range]

theorem inside_subset (h : w.IsItem u t) : w.inside u ⊆ w.inside t := by
  intro id hid
  obtain ⟨hlt, hstands⟩ := mem_inside.mp hid
  exact mem_inside.mpr ⟨hlt, hstands.tail h⟩

/-- A window that holds anything is one of those that there are. -/
theorem lt_of_mem_window (h : u ∈ w.window id) : id < w.windows.length := by
  refine Nat.lt_of_not_le fun hle => ?_
  rw [window, List.getD_eq_getElem?_getD, List.getElem?_eq_none hle] at h
  cases h

/-- **Whoever goes into a window does not meet it again**, unless it holds itself. -/
theorem inside_ssubset (hapart : ¬TransGen w.IsItem (.handle (.window id)) (.handle (.window id)))
    (h : u ∈ w.window id) : w.inside u ⊂ w.inside (.handle (.window id)) := by
  have hitem : w.IsItem u (.handle (.window id)) := ⟨_, rfl, h⟩
  refine Finset.ssubset_iff_subset_ne.mpr ⟨inside_subset hitem, fun heq => hapart ?_⟩
  have hself : id ∈ w.inside u := heq ▸ mem_inside.mpr ⟨lt_of_mem_window h, .refl⟩
  exact .tail' (mem_inside.mp hself).2 hitem

/-- In an item there are fewer windows, or else it is a smaller term. -/
theorem inside_item (hapart : ∀ id, t = .handle (.window id) → ¬TransGen w.IsItem t t) (h : w.IsItem u t) :
    (w.inside u).card < (w.inside t).card ∨ (w.inside u).card ≤ (w.inside t).card ∧ sizeOf u < sizeOf t := by
  have hle : (w.inside u).card ≤ (w.inside t).card := Finset.card_le_card (inside_subset h)
  obtain ⟨ts, hts, hu⟩ := h
  unfold items? at hts
  split at hts <;> cases hts
  case h_1 | h_2 =>
    have hlt := List.sizeOf_lt_of_mem hu
    refine .inr ⟨hle, ?_⟩
    simp only [Term.tuple.sizeOf_spec, Term.list.sizeOf_spec]
    omega
  case h_3 id => exact .inl (Finset.card_lt_card (inside_ssubset (hapart id rfl) hu))

/-- The induction is on the windows inside, and on the size of the term where these do not become fewer. -/
theorem isNested_of_apart (t : Term) (h : ∀ id, ReflTransGen w.IsItem (.handle (.window id)) t →
    ¬TransGen w.IsItem (.handle (.window id)) (.handle (.window id))) : w.IsNested t :=
  Acc.intro t fun u hu => isNested_of_apart u fun id hstands => h id (hstands.tail hu)
termination_by ((w.inside t).card, sizeOf t)
decreasing_by
  rcases inside_item (fun id ht => ht ▸ h id (ht ▸ .refl)) hu with hlt | ⟨hle, hlt⟩
  · exact .left _ _ hlt
  · exact (Nat.lt_or_eq_of_le hle).elim (.left _ _) fun heq => heq ▸ .right _ hlt

/-- **A value is nested exactly if no window that stands in it holds itself.** -/
theorem isNested_iff :
    w.IsNested t ↔ ∀ id, ReflTransGen w.IsItem (.handle (.window id)) t →
      ¬TransGen w.IsItem (.handle (.window id)) (.handle (.window id)) :=
  ⟨fun h _ hstands => (h.of_stands hstands).irrefl, isNested_of_apart t⟩

/-! ## Looking into windows -/

/-- Terms are looked into one by one. -/
theorem expandAll_eq_map (deep : Bool) (contents : Nat → List Term) (ts : List Term) :
    Term.expandAll deep contents ts = ts.map (Term.expand deep contents) := by
  induction ts with
  | nil => rfl
  | cons t ts ih => exact congrArg _ ih

/-- What is no list holds no window. -/
theorem expand_of_items?_eq_none (h : w.items? t = none) (contents : Nat → List Term) :
    t.expand false contents = t := by
  cases t
  case handle k => cases k <;> first | rfl | cases h
  all_goals first | rfl | cases h

/-- What a window holds, if it is looked into deeper than there are windows in its items. -/
theorem contents_eq_map {n : Nat} (h : ∀ u ∈ w.window id, (w.inside u).card < n) :
    w.contents false n id = (w.window id).map (Term.expand false (w.contents false (n - 1))) := by
  cases n with
  | zero =>
    have hempty : w.window id = [] := List.eq_nil_iff_forall_not_mem.mpr fun u hu => Nat.not_lt_zero _ (h u hu)
    rw [hempty]
    rfl
  | succ n => rfl

theorem IsNested.card_inside_lt (h : w.IsNested (.handle (.window id))) :
    ∀ u ∈ w.window id, (w.inside u).card < (w.inside (.handle (.window id))).card :=
  fun _ hu => Finset.card_lt_card (inside_ssubset h.irrefl hu)

/-- **A nested value may be looked into to any depth** that is no less than the number of the windows inside. -/
theorem IsNested.expand_contents (h : w.IsNested t) {m n : Nat} (hm : (w.inside t).card ≤ m)
    (hn : (w.inside t).card ≤ n) : t.expand false (w.contents false m) = t.expand false (w.contents false n) := by
  induction h generalizing m n with
  | intro t hbelow ih =>
    have hnested : w.IsNested t := Acc.intro t hbelow
    have items : ∀ {ts}, w.items? t = some ts → ∀ {m n}, (∀ u ∈ ts, (w.inside u).card ≤ m) →
        (∀ u ∈ ts, (w.inside u).card ≤ n) →
        ts.map (Term.expand false (w.contents false m)) = ts.map (Term.expand false (w.contents false n)) :=
      fun hts _ _ hm hn => List.map_congr_left fun u hu => ih u ⟨_, hts, hu⟩ (hm u hu) (hn u hu)
    have le : ∀ {ts n}, w.items? t = some ts → (w.inside t).card ≤ n → ∀ u ∈ ts, (w.inside u).card ≤ n :=
      fun hts hn _ hu => (Finset.card_le_card (inside_subset ⟨_, hts, hu⟩)).trans hn
    cases hts : w.items? t with
    | none => rw [expand_of_items?_eq_none hts, expand_of_items?_eq_none hts]
    | some ts =>
      unfold items? at hts
      split at hts <;> cases hts
      case h_1 | h_2 =>
        rw [Term.expand, Term.expand, expandAll_eq_map, expandAll_eq_map, items rfl (le rfl hm) (le rfl hn)]
      case h_3 id =>
        -- One level is used up by this window, and in its items there is one window less.
        have lt : ∀ {n}, (w.inside (.handle (.window id))).card ≤ n → ∀ u ∈ w.window id, (w.inside u).card < n :=
          fun hn u hu => (hnested.card_inside_lt u hu).trans_le hn
        have pred : ∀ {n}, (w.inside (.handle (.window id))).card ≤ n → ∀ u ∈ w.window id, (w.inside u).card ≤ n - 1 :=
          fun hn u hu => Nat.le_sub_one_of_lt (lt hn u hu)
        rw [Term.expand, Term.expand, contents_eq_map (lt hm), contents_eq_map (lt hn), items rfl (pred hm) (pred hn)]

theorem card_inside_le (w : World) (t : Term) : (w.inside t).card ≤ w.windows.length := by
  have hsubset : w.inside t ⊆ Finset.range w.windows.length := fun _ h => Finset.mem_range.mpr (mem_inside.mp h).1
  calc (w.inside t).card ≤ (Finset.range w.windows.length).card := Finset.card_le_card hsubset
    _ = w.windows.length := Finset.card_range _

/-- **A nested window, spread out, is the list of what it holds**, spread out. -/
theorem IsNested.spread_window (h : w.IsNested (.handle (.window id))) :
    w.spread (.handle (.window id)) = .list ((w.window id).map w.spread) := by
  have lt : ∀ u ∈ w.window id, (w.inside u).card < w.windows.length :=
    fun u hu => (h.card_inside_lt u hu).trans_le (card_inside_le w _)
  rw [spread, Term.expand, contents_eq_map lt]
  refine congrArg Term.list (List.map_congr_left fun u hu => ?_)
  exact (isNested_window.mp h u hu).expand_contents (Nat.le_sub_one_of_lt (lt u hu)) (lt u hu).le

/-! ## Leaves -/

/-- The leaves of a value as it is now. -/
def leaves (w : World) (t : Term) : List Term := (w.spread t).flatten

/-- **The leaves of a nested value are those of its items**, one after the other. -/
theorem IsNested.leaves_of_items (h : w.IsNested t) (hts : w.items? t = some ts) :
    w.leaves t = ts.flatMap w.leaves := by
  have spread_items : Term.flattenAll (ts.map w.spread) = ts.flatMap w.leaves := by
    rw [Term.flattenAll_eq_flatMap, List.flatMap_map]
    rfl
  unfold items? at hts
  split at hts <;> cases hts
  case h_1 | h_2 =>
    rw [← spread_items, leaves, spread, Term.expand, expandAll_eq_map, Term.flatten]
    rfl
  case h_3 id => rw [← spread_items, leaves, h.spread_window, Term.flatten]

/-- A leaf: neither null, nor a list or a tuple. -/
def IsLeaf (w : World) (t : Term) : Prop := t ≠ .null ∧ w.items? t = none

/-- A leaf is its own only leaf. -/
theorem IsLeaf.leaves_eq (h : w.IsLeaf t) : w.leaves t = [t] := by
  have hspread : w.spread t = t := expand_of_items?_eq_none h.2 _
  rw [leaves, hspread]
  obtain ⟨hnull, hitems⟩ := h
  cases t <;> first | rfl | contradiction

theorem leaves_null (w : World) : w.leaves .null = [] := rfl

end World

end Authoring
