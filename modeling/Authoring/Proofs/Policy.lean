import Authoring.Proofs.Frame
import Authoring.Proofs.Reference
import Authoring.Proofs.Term.Description

/-!
# What is let through

The values that are handed to the authoring layer are terms of any sort, and most mistakes in them are found out only
when they are used. Two kinds of mistake are not: a class expression and an annotation are taken as they come, whatever
they are made of. A `Policy` says which of these are let through, which delayed expressions may be called and which
ontologies may be worked on. A term *meets* a policy if all that would be used of it does (`Term.Meets`): the leaves of
its nested lists and tuples, the values of its entries, and the two references of a fact.

What meets a policy does so when it is taken apart (`Meets.flatten`) and when its windows are looked into
(`Meets.expand`), and so do frames (`FrameMap.All.entries_meet`).

A policy is *closed* if it lets through the expressions and annotations that the operations on them make
(`Policy.Closed`), a cardinality apart: whether a restriction of that cardinality is let through is asked for each
(`Policy.Counts`).
-/

namespace Authoring

/-- What is let through in the terms that are handed to the authoring layer. -/
structure Policy where
  /-- The class expressions. -/
  expressions : Term → Prop
  /-- The properties of annotations. -/
  properties : Term → Prop
  /-- The delayed expressions that may be called. -/
  producers : Expr → Prop
  /-- The ontologies that may be worked on. -/
  targets : Nat → Prop

namespace Term

mutual
/-- Whether a term meets a policy, so far as it is used. -/
def Meets (π : Policy) : Term → Prop
  | .expression o ts c => π.expressions (.expression o ts c)
  | .note p _ => π.properties p
  | .fact p t _ => p.Meets π ∧ t.Meets π
  | .closure _ _ body _ => π.producers body
  | .tuple ts => AllMeet π ts
  | .list ts => AllMeet π ts
  | .map es => EntriesMeet π es
  | _ => True
def AllMeet (π : Policy) : List Term → Prop
  | [] => True
  | t :: ts => t.Meets π ∧ AllMeet π ts
def EntriesMeet (π : Policy) : List (Term × Term) → Prop
  | [] => True
  | e :: es => EntryMeets π e ∧ EntriesMeet π es
/-- The key of an entry is only compared. -/
def EntryMeets (π : Policy) : Term × Term → Prop
  | (_, v) => v.Meets π
end

variable {π : Policy} {t : Term}

theorem allMeet_iff : ∀ {ts : List Term}, AllMeet π ts ↔ ∀ t ∈ ts, t.Meets π
  | [] => by simp [AllMeet]
  | t :: ts => by simp [AllMeet, allMeet_iff]

theorem entriesMeet_iff : ∀ {es : List (Term × Term)}, EntriesMeet π es ↔ ∀ e ∈ es, e.2.Meets π
  | [] => by simp [EntriesMeet]
  | (k, v) :: es => by simp [EntriesMeet, EntryMeets, entriesMeet_iff]

theorem meets_of_isEntity (h : t.isEntity = true) : t.Meets π := by
  cases t <;> cases h
  exact trivial

/-- What a term calls that meets a policy may be called. -/
theorem Meets.bodies : ∀ {t : Term}, t.Meets π → ∀ b ∈ t.bodies, π.producers b
  | .closure .., h, _, hb => List.mem_singleton.mp hb ▸ h
  | .fact .., h, b, hb => (List.mem_append.mp hb).elim (Meets.bodies h.1 b) (Meets.bodies h.2 b)
  | .null, _, _, hb | .bool _, _, _, hb | .int _, _, _, hb | .float _, _, _, hb | .text _, _, _, hb
  | .iri _, _, _, hb | .literal _, _, _, hb | .keyword _, _, _, hb | .entity _ _, _, _, hb
  | .expression _ _ _, _, _, hb | .note _ _, _, _, hb | .statement _ _, _, _, hb | .tuple _, _, _, hb
  | .list _, _, _, hb | .set _ _, _, _, hb | .map _, _, _, hb | .handle _, _, _, hb | .naming _ _, _, _, hb
  | .hook _ _, _, _, hb | .stats _, _, _, hb | .settings _, _, _, hb | .listing _, _, _, hb => nomatch hb

mutual
/-- The leaves of a term that meets a policy meet it. -/
theorem Meets.flatten : ∀ {t u : Term}, t.Meets π → u ∈ t.flatten → u.Meets π
  | .null, _, _, hu => nomatch hu
  | .list ts, u, h, hu => AllMeet.flattenAll (show AllMeet π ts from h) hu
  | .tuple ts, u, h, hu => AllMeet.flattenAll (show AllMeet π ts from h) hu
  | .bool _, u, h, hu | .int _, u, h, hu | .float _, u, h, hu | .text _, u, h, hu | .iri _, u, h, hu
  | .literal _, u, h, hu | .keyword _, u, h, hu | .entity _ _, u, h, hu | .expression _ _ _, u, h, hu
  | .note _ _, u, h, hu | .fact _ _ _, u, h, hu | .statement _ _, u, h, hu | .set _ _, u, h, hu
  | .map _, u, h, hu | .handle _, u, h, hu | .closure _ _ _ _, u, h, hu | .naming _ _, u, h, hu
  | .hook _ _, u, h, hu | .stats _, u, h, hu | .settings _, u, h, hu | .listing _, u, h, hu => by
    rw [List.mem_singleton.mp hu]
    exact h
theorem AllMeet.flattenAll : ∀ {ts : List Term} {u : Term}, AllMeet π ts → u ∈ flattenAll ts → u.Meets π
  | [], _, _, hu => nomatch hu
  | _ :: _, _, h, hu => (List.mem_append.mp hu).elim (Meets.flatten h.1) (AllMeet.flattenAll h.2)
end

section
variable {contents : Nat → List Term}

mutual
/-- A term that meets a policy meets it with its windows replaced by terms that do. -/
theorem Meets.expand (hc : ∀ id, ∀ t ∈ contents id, t.Meets π) : ∀ {t : Term}, t.Meets π →
    (t.expand false contents).Meets π
  | .handle (.window id), _ => allMeet_iff.mpr (hc id)
  | .tuple ts, h => AllMeet.expandAll hc (show AllMeet π ts from h)
  | .list ts, h => AllMeet.expandAll hc (show AllMeet π ts from h)
  | .map _, h | .expression _ _ _, h | .note _ _, h | .fact _ _ _, h | .statement _ _, h => h
  | .null, h | .bool _, h | .int _, h | .float _, h | .text _, h | .iri _, h | .literal _, h | .keyword _, h
  | .entity _ _, h | .set _ _, h | .handle (.ontology _), h | .handle (.store _), h | .handle (.factory _), h
  | .handle (.options _), h | .closure _ _ _ _, h | .naming _ _, h | .hook _ _, h | .stats _, h | .settings _, h
  | .listing _, h => h
theorem AllMeet.expandAll (hc : ∀ id, ∀ t ∈ contents id, t.Meets π) : ∀ {ts : List Term},
    AllMeet π ts → AllMeet π (Term.expandAll false contents ts)
  | [], _ => trivial
  | _ :: _, h => ⟨Meets.expand hc h.1, AllMeet.expandAll hc h.2⟩
end

end

end Term

namespace World

variable {π : Policy} {w : World}

/-- The windows hold nothing but entities. -/
def Collected (w : World) : Prop := ∀ ts ∈ w.windows, ∀ t ∈ ts, t.isEntity = true

theorem Collected.of_untouched {w' : World} (h : w.Collected) (hw : w.Untouched w') : w'.Collected :=
  fun ts hts => h ts (hw.windows ▸ hts)

theorem Collected.window (h : w.Collected) (n : Nat) : ∀ t ∈ w.window n, t.isEntity = true := by
  intro t ht
  unfold World.window at ht
  rw [List.getD_eq_getElem?_getD] at ht
  cases hn : w.windows[n]? with
  | none =>
    rw [hn] at ht
    cases ht
  | some ts =>
    rw [hn] at ht
    exact h ts (List.mem_of_getElem? hn) t ht

/-- An entity that is put at the end of a window leaves windows that hold nothing else. -/
theorem Collected.push (h : w.Collected) {t : Term} (ht : t.isEntity = true) (n : Nat) :
    ∀ ts ∈ w.windows.set n (w.window n ++ [t]), ∀ u ∈ ts, u.isEntity = true := by
  intro ts hts
  rcases List.mem_or_eq_of_mem_set hts with hts | rfl
  · exact h ts hts
  · exact List.forall_mem_append.mpr ⟨h.window n, List.forall_mem_singleton.mpr ht⟩

/-- A term that meets a policy does so when its windows are looked into. -/
theorem Collected.spread (h : w.Collected) {t : Term} (ht : t.Meets π) : (w.spread t).Meets π := by
  refine Term.Meets.expand (fun n u hu => ?_) ht
  unfold World.contents at hu
  split at hu
  · cases hu
  · obtain ⟨e, he, rfl⟩ := List.mem_map.mp hu
    have hentity := h.window _ e he
    cases e <;> cases hentity
    exact trivial

/-- Looking into the windows, the leaves of terms that meet a policy meet it. -/
theorem Collected.leaves (h : w.Collected) {ts : List Term} (hts : ∀ t ∈ ts, t.Meets π) :
    ∀ u ∈ Term.flattenAll (ts.map w.spread), u.Meets π := by
  intro u hu
  refine Term.AllMeet.flattenAll (Term.allMeet_iff.mpr fun v hv => ?_) hu
  obtain ⟨t, ht, rfl⟩ := List.mem_map.mp hv
  exact h.spread (hts t ht)

end World

namespace FrameMap

variable {π : Policy} {m : FrameMap} {es : List (Term × Term)}

/-- Written frames whose values meet a policy have leaves that do. -/
theorem leaves_meet (h : ∀ e ∈ es, e.2.Meets π) : ∀ e ∈ es, ∀ t ∈ e.2.flatten, t.Meets π :=
  fun e he _ ht => (h e he).flatten ht

/-- Frames that are written out meet the policy that their values meet. -/
theorem All.entries_meet (h : All (·.Meets π) m) : ∀ e ∈ m.entries, e.2.Meets π := by
  intro e he
  obtain ⟨f, hf, rfl⟩ := List.mem_map.mp he
  exact Term.allMeet_iff.mpr (h f hf)

end FrameMap

/-! ## Classes and closed policies -/

namespace Policy

variable {π : Policy} {t : Term}

/-- Whatever a term is, it is no ontology that may not be worked on. -/
def Targets (π : Policy) (t : Term) : Prop := ∀ id, t = .handle (.ontology id) → π.targets id

theorem targets_null : π.Targets .null := nofun

/-- A class, or a class expression that is let through. -/
def Describes (π : Policy) (t : Term) : Prop := t.IsOfKind .cls ∨ t.isExpression = true ∧ π.expressions t

theorem Describes.meets (h : π.Describes t) : t.Meets π := by
  rcases h with ⟨m, iri, rfl⟩ | ⟨he, h⟩
  · exact trivial
  · cases t <;> cases he
    exact h

theorem Describes.not_set (ms : List Term) : ¬π.Describes (.set true ms) := by
  rintro (⟨m, iri, h⟩ | ⟨h, -⟩) <;> cases h

/-- Restrictions with an operator and a cardinality are let through. -/
def Counts (π : Policy) (o : Operator) (c : Term) : Prop :=
  ∀ p f, p.IsOfKind .objectProperty → π.Describes f → π.expressions (.expression (.ofOperator o) [p, f] c)

/-- **A closed policy** lets through what the operations on class expressions and annotations make, of classes that are
let through, and of entities of the right kinds. -/
structure Closed (π : Policy) : Prop where
  restriction {o : Operator} (ho : o = .some ∨ o = .only) : π.Counts o .null
  complement {f : Term} (hf : π.Describes f) : π.expressions (.expression (.ofOperator .not) [f] .null)
  combination {o : Operator} {ms : List Term} (ho : o = .and ∨ o = .or) (hne : ms ≠ []) (hd : Distinct ms)
    (hms : ∀ t ∈ ms, π.Describes t) (hs : ∀ t ∈ ms, t.isStable = true) :
    π.expressions (.expression (.ofOperator o) [.set true ms] .null)
  enumeration {ms : List Term} (hne : ms ≠ []) (hd : Distinct ms) (hms : ∀ t ∈ ms, t.IsOfKind .individual) :
    π.expressions (.expression (.ofOperator .oneOf) [.set true ms] .null)
  note {p : Term} (hp : p.IsOfKind .annotationProperty) : π.properties p

/-- Expressions and annotations of any sort are let through, and some ontologies may be worked on. -/
def lenient (S : Expr → Prop) (T : Nat → Prop) : Policy := ⟨fun _ => True, fun _ => True, S, T⟩

theorem lenient_closed {S : Expr → Prop} {T : Nat → Prop} : (lenient S T).Closed where
  restriction _ _ _ _ _ := trivial
  complement _ := trivial
  combination _ _ _ _ _ := trivial
  enumeration _ _ _ := trivial
  note _ := trivial

end Policy

/-- What can be denoted where a class is expected is a class or a class expression. -/
theorem Reference.Denotes.describes {π : Policy} {t : Term} (h : Denotes .cls t) (ht : t.Meets π) :
    π.Describes t := by
  cases h with
  | entity m iri => exact .inl ⟨m, iri, rfl⟩
  | expression => exact .inr ⟨rfl, ht⟩

end Authoring
