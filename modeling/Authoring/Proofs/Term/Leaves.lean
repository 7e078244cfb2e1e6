import Authoring.Proofs.Running
import Authoring.Proofs.Term.Nesting
import Authoring.Script.Evaluate
import Mathlib.Data.List.Sort

/-!
# The leaves of nested values

Wherever any number of values can be given they may stand alone, in lists, in lists of lists, with nulls among them, and
all of that is flattened before it is used: by the frames, by the builders of expressions, by the groups of axioms.
**Flattening a nested value gives exactly its leaves, in their order** (`Script.flatten_leaves`), also those that count
as false.

What the leaves are, and which comes first, is said by positions (`World.at?`): they are what stands at some position
and is neither null nor a list, in the lexical order of the positions. That determines them
(`World.LeafPlaces.unique`).

**The grouping does not matter, and is all that does not.** To wrap items, to put in nulls, and to undo either, anywhere
in a value, leaves the leaves as they are. And any two nested values with the same leaves can be made of each other in
this way (`World.IsNested.regroups_iff`): both are brought to the flat tuple of their leaves.
-/

namespace Authoring

open Act Relation

namespace World

variable {w : World} {t u : Term} {ts us : List Term}

/-! ## Leaves at their positions -/

/-- The term at a position: the number of an item, then the number of an item of that, and so on. -/
def at? (w : World) : Term → List Nat → Option Term
  | t, [] => some t
  | t, i :: p => ((w.items? t).bind (·[i]?)).bind fun u => w.at? u p

theorem at?_cons_of_items (h : w.items? t = some ts) (i : Nat) (p : List Nat) :
    w.at? t (i :: p) = ts[i]?.bind fun u => w.at? u p := by
  rw [at?, h, Option.bind_some]

/-- What has no items has one position, and stands there itself. -/
theorem at?_of_items?_eq_none (h : w.items? t = none) {p : List Nat} : w.at? t p = some u ↔ p = [] ∧ t = u := by
  cases p with
  | nil => simp [at?]
  | cons i p => simp [at?, h]

/-- **The leaves of a value with their positions**, in the order of these. -/
structure LeafPlaces (w : World) (t : Term) (places : List (List Nat × Term)) : Prop where
  ordered : places.Pairwise fun a b => a.1 < b.1
  mem_iff : ∀ p u, (p, u) ∈ places ↔ w.at? t p = some u ∧ w.IsLeaf u

/-- Whether terms are the leaves of a value, in order. -/
def ListsLeaves (w : World) (t : Term) (us : List Term) : Prop :=
  ∃ places, w.LeafPlaces t places ∧ places.map (·.2) = us

/-- There is only one list of the leaves with their positions. -/
theorem LeafPlaces.unique {as bs : List (List Nat × Term)} (ha : w.LeafPlaces t as) (hb : w.LeafPlaces t bs) :
    as = bs := by
  have : Std.Irrefl fun a b : List Nat × Term => a.1 < b.1 := ⟨fun a => List.lt_irrefl a.1⟩
  have : Std.Antisymm fun a b : List Nat × Term => a.1 < b.1 := ⟨fun a b h h' => absurd h' (List.lt_asymm h)⟩
  exact ha.ordered.eq_of_mem_iff hb.ordered fun e => (ha.mem_iff e.1 e.2).trans (hb.mem_iff e.1 e.2).symm

/-- The leaves of items with their positions, the items being numbered from some number on. -/
theorem exists_places_of_items (h : ∀ u ∈ ts, w.ListsLeaves u (w.leaves u)) (k : Nat) :
    ∃ places : List (List Nat × Term), places.Pairwise (fun a b => a.1 < b.1) ∧
      (∀ p v, (p, v) ∈ places ↔
        ∃ i u q, ts[i]? = some u ∧ p = (k + i) :: q ∧ w.at? u q = some v ∧ w.IsLeaf v) ∧
      places.map (·.2) = ts.flatMap w.leaves := by
  induction ts generalizing k with
  | nil => exact ⟨[], .nil, by simp, rfl⟩
  | cons t ts ih =>
    obtain ⟨hhead, htail⟩ := List.forall_mem_cons.mp h
    obtain ⟨first, hfirst, hleaves⟩ := hhead
    obtain ⟨rest, hordered, hmem, hrest⟩ := ih htail (k + 1)
    refine ⟨first.map (fun e => (k :: e.1, e.2)) ++ rest, ?_, fun p v => ?_, ?_⟩
    · refine List.pairwise_append.mpr ⟨List.pairwise_map.mpr ?_, hordered, ?_⟩
      · exact hfirst.ordered.imp fun hlt => List.cons_lt_cons_self.mpr hlt
      · intro a ha b hb
        obtain ⟨e, -, rfl⟩ := List.mem_map.mp ha
        obtain ⟨i, u, q, -, hb, -⟩ := (hmem b.1 b.2).mp hb
        rw [hb]
        exact List.cons_lt_cons_iff.mpr (.inl (by omega))
    · rw [List.mem_append, hmem, List.mem_map]
      constructor
      · rintro (⟨e, he, heq⟩ | ⟨i, u, q, hu, rfl, hq⟩)
        · cases heq
          exact ⟨0, t, e.1, rfl, rfl, (hfirst.mem_iff e.1 e.2).mp he⟩
        · exact ⟨i + 1, u, q, hu, by rw [Nat.add_right_comm, Nat.add_assoc], hq⟩
      · rintro ⟨_ | i, u, q, hu, rfl, hq⟩
        · cases hu
          exact .inl ⟨(q, v), (hfirst.mem_iff q v).mpr hq, rfl⟩
        · exact .inr ⟨i, u, q, hu, by rw [Nat.add_right_comm, Nat.add_assoc], hq⟩
    · have hfirst' : (first.map fun e => (k :: e.1, e.2)).map (·.2) = w.leaves t := by
        rw [List.map_map]
        exact hleaves
      rw [List.map_append, hfirst', hrest, List.flatMap_cons]

/-- **The leaves of a nested value are what stands at its positions**, in their order. -/
theorem IsNested.listsLeaves (h : w.IsNested t) : w.ListsLeaves t (w.leaves t) := by
  induction h with
  | intro t hbelow ih =>
    have hnested : w.IsNested t := Acc.intro t hbelow
    cases hts : w.items? t with
    | some ts =>
      obtain ⟨places, hordered, hmem, hleaves⟩ := exists_places_of_items (fun u hu => ih u ⟨ts, hts, hu⟩) 0
      refine ⟨places, ⟨hordered, fun p v => (hmem p v).trans ?_⟩, hleaves.trans (hnested.leaves_of_items hts).symm⟩
      constructor
      · rintro ⟨i, u, q, hu, rfl, hq, hleaf⟩
        rw [Nat.zero_add, at?_cons_of_items hts, hu]
        exact ⟨hq, hleaf⟩
      · rintro ⟨hp, hleaf⟩
        cases p with
        | nil =>
          cases hp
          cases hts.symm.trans hleaf.2
        | cons i q =>
          rw [at?_cons_of_items hts] at hp
          obtain ⟨u, hu, hq⟩ := Option.bind_eq_some_iff.mp hp
          exact ⟨i, u, q, hu, by rw [Nat.zero_add], hq, hleaf⟩
    | none =>
      by_cases hleaf : w.IsLeaf t
      · refine ⟨[([], t)], ⟨List.pairwise_singleton _ _, fun p v => ?_⟩, hleaf.leaves_eq.symm⟩
        rw [List.mem_singleton, Prod.mk.injEq, at?_of_items?_eq_none hts]
        constructor
        · rintro ⟨rfl, rfl⟩
          exact ⟨⟨rfl, rfl⟩, hleaf⟩
        · rintro ⟨⟨rfl, rfl⟩, -⟩
          exact ⟨rfl, rfl⟩
      · have hnull : t = .null := by_contra fun hnull => hleaf ⟨hnull, hts⟩
        refine ⟨[], ⟨.nil, fun p v => ⟨nofun, fun ⟨hp, hv⟩ => ?_⟩⟩, ?_⟩
        · exact absurd (((at?_of_items?_eq_none hts).mp hp).2 ▸ hv) hleaf
        · rw [hnull]
          rfl

/-- What is a leaf of a value is a leaf. -/
theorem IsNested.isLeaf_of_mem_leaves (h : w.IsNested t) (hu : u ∈ w.leaves t) : w.IsLeaf u := by
  obtain ⟨places, hplaces, hleaves⟩ := h.listsLeaves
  rw [← hleaves] at hu
  obtain ⟨e, he, rfl⟩ := List.mem_map.mp hu
  exact ((hplaces.mem_iff e.1 e.2).mp he).2

/-- A tuple of leaves has these leaves. -/
theorem leaves_tuple_of_isLeaf (h : ∀ u ∈ us, w.IsLeaf u) : w.leaves (.tuple us) = us := by
  have hnested : w.IsNested (.tuple us) := isNested_tuple.mpr fun u hu => isNested_of_items?_eq_none (h u hu).2
  calc w.leaves (.tuple us) = us.flatMap w.leaves := hnested.leaves_of_items rfl
    _ = us.flatMap fun u => [u] := List.flatMap_congr fun u hu => (h u hu).leaves_eq
    _ = us := List.flatMap_singleton' us

/-! ## Regrouping -/

/-- **One value regrouped into another**, in one place. Whatever is called a list here may be a tuple or a window. -/
inductive Regroups (w : World) : Term → Term → Prop where
  /-- The value is put into a list of its own. -/
  | wrap {t u : Term} : w.items? u = some [t] → Regroups w t u
  /-- Successive items are put into a list of their own; they may be all items of the value, one, or none. -/
  | gather {t m u : Term} {as ms bs : List Term} : w.items? t = some (as ++ ms ++ bs) → w.items? m = some ms →
      w.items? u = some (as ++ m :: bs) → Regroups w t u
  /-- A null is put in among the items. -/
  | null {t u : Term} {as bs : List Term} : w.items? t = some (as ++ bs) → w.items? u = some (as ++ .null :: bs) →
      Regroups w t u
  /-- One of the items is regrouped. -/
  | inside {a b t u : Term} {as bs : List Term} : Regroups w a b → w.items? t = some (as ++ a :: bs) →
      w.items? u = some (as ++ b :: bs) → Regroups w t u

/-- Regrouping makes no difference to being nested. -/
theorem Regroups.isNested_iff (h : w.Regroups t u) : w.IsNested t ↔ w.IsNested u := by
  have hnull : w.IsNested .null := isNested_of_items?_eq_none rfl
  induction h with
  | wrap hu => rw [isNested_iff_of_items hu, List.forall_mem_singleton]
  | gather ht hm hu =>
    rw [isNested_iff_of_items ht, isNested_iff_of_items hu, List.append_assoc]
    simp only [List.forall_mem_append, List.forall_mem_cons, isNested_iff_of_items hm]
  | null ht hu =>
    rw [isNested_iff_of_items ht, isNested_iff_of_items hu]
    simp only [List.forall_mem_append, List.forall_mem_cons, hnull, true_and]
  | inside _ ht hu ih =>
    rw [isNested_iff_of_items ht, isNested_iff_of_items hu]
    simp only [List.forall_mem_append, List.forall_mem_cons, ih]

/-- **Regrouping leaves the leaves as they are.** -/
theorem Regroups.leaves_eq (h : w.Regroups t u) (ht : w.IsNested t) : w.leaves t = w.leaves u := by
  have hu : w.IsNested u := h.isNested_iff.mp ht
  induction h with
  | wrap hitems => rw [hu.leaves_of_items hitems, List.flatMap_singleton]
  | @gather t m u as ms bs htitems hmitems huitems =>
    have hm : w.IsNested m := (isNested_iff_of_items huitems).mp hu m (List.mem_append_right _ List.mem_cons_self)
    calc w.leaves t = (as ++ ms ++ bs).flatMap w.leaves := ht.leaves_of_items htitems
      _ = as.flatMap w.leaves ++ (ms.flatMap w.leaves ++ bs.flatMap w.leaves) := by
        rw [List.flatMap_append, List.flatMap_append, List.append_assoc]
      _ = (as ++ m :: bs).flatMap w.leaves := by
        rw [← hm.leaves_of_items hmitems, List.flatMap_append, List.flatMap_cons]
      _ = w.leaves u := (hu.leaves_of_items huitems).symm
  | @null t u as bs htitems huitems =>
    rw [ht.leaves_of_items htitems, hu.leaves_of_items huitems]
    simp only [List.flatMap_append, List.flatMap_cons, leaves_null, List.nil_append]
  | @inside a b t u as bs _ htitems huitems ih =>
    have ha : w.IsNested a := (isNested_iff_of_items htitems).mp ht a (List.mem_append_right _ List.mem_cons_self)
    have hb : w.IsNested b := (isNested_iff_of_items huitems).mp hu b (List.mem_append_right _ List.mem_cons_self)
    rw [ht.leaves_of_items htitems, hu.leaves_of_items huitems]
    simp only [List.flatMap_append, List.flatMap_cons, ih ha hb]

/-- So does any number of regroupings, done or undone. -/
theorem leaves_eq_of_regrouped (h : EqvGen w.Regroups t u) :
    (w.IsNested t ↔ w.IsNested u) ∧ (w.IsNested t → w.leaves t = w.leaves u) := by
  induction h with
  | rel t u h => exact ⟨h.isNested_iff, h.leaves_eq⟩
  | refl t => exact ⟨.rfl, fun _ => rfl⟩
  | symm t u _ ih => exact ⟨ih.1.symm, fun hu => (ih.2 (ih.1.mpr hu)).symm⟩
  | trans t u v _ _ ih ih' => exact ⟨ih.1.trans ih'.1, fun ht => (ih.2 ht).trans (ih'.2 (ih.1.mp ht))⟩

/-- Regrouping an item of a tuple, in any number of steps. -/
theorem regrouped_item {a b : Term} (h : EqvGen w.Regroups a b) (as bs : List Term) :
    EqvGen w.Regroups (.tuple (as ++ a :: bs)) (.tuple (as ++ b :: bs)) := by
  induction h with
  | rel a b h => exact .rel _ _ (.inside h rfl rfl)
  | refl a => exact .refl _
  | symm a b _ ih => exact .symm _ _ ih
  | trans a b c _ _ ih ih' => exact .trans _ _ _ ih ih'

/-- A tuple of items that can be regrouped into tuples can be regrouped into one, item by item. -/
theorem regrouped_items {f : Term → List Term} (h : ∀ u ∈ ts, EqvGen w.Regroups u (.tuple (f u))) (as : List Term) :
    EqvGen w.Regroups (.tuple (as ++ ts)) (.tuple (as ++ ts.flatMap f)) := by
  induction ts generalizing as with
  | nil => exact .refl _
  | cons t ts ih =>
    obtain ⟨ht, hts⟩ := List.forall_mem_cons.mp h
    have hitem : EqvGen w.Regroups (.tuple (as ++ t :: ts)) (.tuple (as ++ .tuple (f t) :: ts)) :=
      regrouped_item ht as ts
    have hgather : w.Regroups (.tuple (as ++ f t ++ ts)) (.tuple (as ++ .tuple (f t) :: ts)) := .gather rfl rfl rfl
    have hrest : EqvGen w.Regroups (.tuple (as ++ f t ++ ts)) (.tuple (as ++ f t ++ ts.flatMap f)) :=
      ih hts (as ++ f t)
    rw [List.flatMap_cons, ← List.append_assoc]
    exact .trans _ _ _ hitem (.trans _ _ _ (.symm _ _ (.rel _ _ hgather)) hrest)

/-- **Every nested value can be regrouped into the tuple of its leaves.** -/
theorem IsNested.regrouped_leaves (h : w.IsNested t) : EqvGen w.Regroups t (.tuple (w.leaves t)) := by
  induction h with
  | intro t hbelow ih =>
    have hnested : w.IsNested t := Acc.intro t hbelow
    have hwrap : w.Regroups t (.tuple [t]) := .wrap rfl
    cases hts : w.items? t with
    | some ts =>
      have hgather : w.Regroups (.tuple ts) (.tuple [t]) :=
        @Regroups.gather w _ t _ [] ts [] (by rw [List.append_nil]; rfl) hts rfl
      have hitems : EqvGen w.Regroups (.tuple ts) (.tuple (ts.flatMap w.leaves)) :=
        regrouped_items (fun u hu => ih u ⟨ts, hts, hu⟩) []
      rw [hnested.leaves_of_items hts]
      exact .trans _ _ _ (.rel _ _ hwrap) (.trans _ _ _ (.symm _ _ (.rel _ _ hgather)) hitems)
    | none =>
      by_cases hnull : t = .null
      · subst hnull
        have hnone : w.Regroups (.tuple []) (.tuple [.null]) := @Regroups.null w _ _ [] [] rfl rfl
        exact .trans _ _ _ (.rel _ _ hwrap) (.symm _ _ (.rel _ _ hnone))
      · rw [IsLeaf.leaves_eq ⟨hnull, hts⟩]
        exact .rel _ _ hwrap

/-- **What a nested value can be regrouped into are the nested values with the same leaves.** -/
theorem IsNested.regroups_iff (h : w.IsNested t) :
    EqvGen w.Regroups t u ↔ w.IsNested u ∧ w.leaves u = w.leaves t := by
  constructor
  · intro hregrouped
    obtain ⟨hnested, hleaves⟩ := leaves_eq_of_regrouped hregrouped
    exact ⟨hnested.mp h, (hleaves h).symm⟩
  · rintro ⟨hu, hleaves⟩
    have hback : EqvGen w.Regroups u (.tuple (w.leaves t)) := hleaves ▸ hu.regrouped_leaves
    exact .trans _ _ _ h.regrouped_leaves (.symm _ _ hback)

end World

/-- The leaves of arguments are those of the tuple of them. -/
theorem Act.run_leaves (ts : List Term) (env : Env) (w : World) :
    leaves ts env w = (.ok (w.leaves (.tuple ts)), w) := by
  have htuple : w.spread (.tuple ts) = .tuple (ts.map w.spread) := by
    rw [World.spread, Term.expand, World.expandAll_eq_map]
    rfl
  rw [World.leaves, htuple]
  rfl

namespace Script

variable {env : Env} {w : World} {t : Term} {us : List Term}

/-! ## Flattening -/

/-- Whether a script that has a value flattened is answered with given leaves, and nothing else happens. -/
def Flattens (env : Env) (w : World) (t : Term) (us : List Term) : Prop :=
  ∃ op, general.lookup "flatten" = some op ∧ op.call [t] [] env w = (.ok (.tuple us), w)

theorem flattens_iff : Flattens env w t us ↔ w.leaves t = us := by
  have hcall : ∀ op, general.lookup "flatten" = some op →
      op.call [t] [] env w = (.ok (.tuple (w.leaves t)), w) := by
    intro op hop
    cases hop
    have hsingle : w.leaves (.tuple [t]) = w.leaves t := List.append_nil _
    show (do return Term.tuple (← Act.leaves [t]) : Act Term) env w = _
    rw [run_bind, run_leaves, hsingle]
    rfl
  constructor
  · rintro ⟨op, hop, hanswer⟩
    cases (hcall op hop).symm.trans hanswer
    rfl
  · rintro rfl
    exact ⟨_, rfl, hcall _ rfl⟩

/-- **What is to be expected of flattening a nested value.** -/
structure IsFlattening (env : Env) (w : World) (t : Term) (us : List Term) : Prop where
  /-- This is the answer, and there is no other. -/
  answers : ∀ vs, Flattens env w t vs ↔ vs = us
  /-- It lists the leaves, each at its position, and nothing else does. -/
  leaves : ∀ vs, w.ListsLeaves t vs ↔ vs = us
  /-- A leaf that is given alone is its own only leaf. -/
  alone : w.IsLeaf t → us = [t]
  /-- To flatten the answer again changes nothing. -/
  again : Flattens env w (.tuple us) us
  /-- Lists put together have the leaves of both. -/
  append : ∀ ts ts', w.items? t = some (ts ++ ts') →
    ∃ vs vs', Flattens env w (.list ts) vs ∧ Flattens env w (.list ts') vs' ∧ us = vs ++ vs'
  /-- The values that can be regrouped into this one are the nested ones with the same answer. -/
  regroups : ∀ u, EqvGen w.Regroups t u ↔ w.IsNested u ∧ Flattens env w u us

/-- **Flattening gives exactly the leaves**, of every nested value, in every world. -/
theorem flatten_leaves (env : Env) (h : w.IsNested t) : ∃ us, IsFlattening env w t us := by
  have hleaf : ∀ u ∈ w.leaves t, w.IsLeaf u := fun u hu => h.isLeaf_of_mem_leaves hu
  refine ⟨w.leaves t, fun vs => flattens_iff.trans eq_comm, fun vs => ⟨?_, ?_⟩, fun ht => ht.leaves_eq,
    flattens_iff.mpr (World.leaves_tuple_of_isLeaf hleaf), fun ts ts' hts => ?_, fun u => ?_⟩
  · rintro ⟨places, hplaces, rfl⟩
    obtain ⟨places', hplaces', hleaves⟩ := h.listsLeaves
    rw [← hleaves, hplaces.unique hplaces']
  · rintro rfl
    exact h.listsLeaves
  · have hitems : ∀ u ∈ ts ++ ts', w.IsNested u := (World.isNested_iff_of_items hts).mp h
    obtain ⟨hleft, hright⟩ := List.forall_mem_append.mp hitems
    have hlist : ∀ {us : List Term}, (∀ u ∈ us, w.IsNested u) → us.flatMap w.leaves = w.leaves (.list us) :=
      fun hus => ((World.isNested_list.mpr hus).leaves_of_items rfl).symm
    refine ⟨_, _, flattens_iff.mpr rfl, flattens_iff.mpr rfl, ?_⟩
    rw [h.leaves_of_items hts, List.flatMap_append, hlist hleft, hlist hright]
  · rw [h.regroups_iff, flattens_iff]

/-- Values that count as false, some of them in windows of which one holds the other. -/
theorem flatten_leaves_false :
    let w : World := { World.initial ⟨"en", "#"⟩ with windows := [[.int 0, .handle (.window 1)], [.null, .text ""]] }
    let t : Term := .list [.null, .tuple [.bool false, .list []], .handle (.window 0), .map []]
    let us : List Term := [.bool false, .int 0, .text "", .map []]
    w.IsNested t ∧ Flattens (environment .outermost) w t us ∧ w.ListsLeaves t us ∧
      EqvGen w.Regroups t (.tuple us) := by
  intro w t us
  have atom : ∀ u, w.items? u = none → w.IsNested u := fun _ => World.isNested_of_items?_eq_none
  have inner : w.IsNested (.handle (.window 1)) := World.isNested_window.mpr (by
    simpa [show w.window 1 = [.null, .text ""] from rfl] using ⟨atom .null rfl, atom (.text "") rfl⟩)
  have outer : w.IsNested (.handle (.window 0)) := World.isNested_window.mpr (by
    simpa [show w.window 0 = [.int 0, .handle (.window 1)] from rfl] using ⟨atom (.int 0) rfl, inner⟩)
  have hnested : w.IsNested t := by
    simpa [t] using ⟨atom .null rfl, atom (.bool false) rfl, outer, atom (.map []) rfl⟩
  obtain ⟨vs, h⟩ := flatten_leaves (environment .outermost) hnested
  have hanswer : Flattens (environment .outermost) w t us := ⟨_, rfl, rfl⟩
  obtain rfl : us = vs := (h.answers us).mp hanswer
  have hflat : w.IsNested (.tuple us) := by
    simpa [us] using ⟨atom (.bool false) rfl, atom (.int 0) rfl, atom (.text "") rfl, atom (.map []) rfl⟩
  exact ⟨hnested, hanswer, (h.leaves us).mpr rfl, (h.regroups _).mpr ⟨hflat, h.again⟩⟩

end Script

end Authoring
