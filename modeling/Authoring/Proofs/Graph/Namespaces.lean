import Authoring.Proofs.Alike
import Authoring.Proofs.Graph.Rendering
import Mathlib.Data.List.Nodup

/-!
# The namespace of an ontology, and the IRIs that names stand for

A rendering abbreviates one namespace of an ontology, its IRI with a hash sign behind it. A name, where the ontology has
no naming function, stands for the IRI of the ontology with the separator of the settings and the name behind it. So the
prefix is of use for what is named if and only if the separator begins with a hash sign.

**Main statement** (`Graph.prefix_serves_iff`): the namespace is abbreviated, by the prefix of the ontology or by that
prefix with a number, and which names it serves.

**What carries the proof.** A table of prefixes is one to one (`Abbreviation.OneToOne`), and remains so when a namespace
is bound. A prefix that is taken gets a number that makes it free: among as many numbers as there are entries, and one
more, not all can be taken (`Abbreviation.numbered_spec`).
-/

namespace Authoring

namespace Abbreviation

variable {table table' : Table} {stem asked space q : String}

/-- No prefix stands for two namespaces, and no namespace has two prefixes. -/
structure OneToOne (table : Table) : Prop where
  prefixes : (table.map (·.1)).Nodup
  spaces : (table.map (·.2)).Nodup

theorem standard_oneToOne : OneToOne standard := by constructor <;> decide

/-- A namespace is abbreviated by a prefix: the prefix stands for it, and it has no other one. -/
structure Abbreviates (table : Table) (q space : String) : Prop where
  stands : table.lookup q = some space
  only : prefixOf table space = some q

/-- What may be given for the prefix that is asked for: that prefix, or if it stands for something else that prefix with
a number. A prefix without letters is called by a word then. -/
def Variant (table : Table) (asked space q : String) : Prop :=
  q = asked ∨ (∃ other, table.lookup asked = some other ∧ other ≠ space) ∧
    ∃ n : Nat, q = (if asked == "" then "default" else asked) ++ toString n

namespace OneToOne

theorem abbreviates (h : OneToOne table) (hq : table.lookup q = some space) : Abbreviates table q space := by
  refine ⟨hq, ?_⟩
  obtain ⟨before, after, htable, -⟩ := List.lookup_eq_some_iff.mp hq
  have hmem : (q, space) ∈ table := htable ▸ List.mem_append_right _ List.mem_cons_self
  unfold prefixOf
  cases hfind : table.find? fun e => e.2 == space with
  | none => exact absurd (List.find?_eq_none.mp hfind _ hmem) (by simp)
  | some e =>
    have he : e.2 = space := by simpa using List.find?_some hfind
    have heq : e = (q, space) := List.inj_on_of_nodup_map h.spaces (List.mem_of_find?_eq_some hfind) hmem he
    rw [heq, Option.map_some]

/-- A namespace takes a free prefix in place of the one it has. -/
theorem assign (h : OneToOne table) (hfree : table.lookup q = none) (space : String) :
    OneToOne (assign table q space) ∧ Abbreviates (assign table q space) q space := by
  have hkept : (table.filter fun e => !(e.2 == space)).Sublist table := List.filter_sublist
  have hq : ∀ e ∈ table, e.1 ≠ q := fun e he heq => by
    have := List.lookup_eq_none_iff.mp hfree e he
    simp [heq] at this
  have hone : OneToOne (Abbreviation.assign table q space) := by
    refine ⟨?_, ?_⟩ <;> rw [Abbreviation.assign, List.map_append, List.nodup_append]
    · refine ⟨h.prefixes.sublist (hkept.map _), List.nodup_singleton _, ?_⟩
      rintro _ ha _ hb rfl
      obtain ⟨e, he, rfl⟩ := List.mem_map.mp ha
      exact hq e (hkept.subset he) (List.mem_singleton.mp hb)
    · refine ⟨h.spaces.sublist (hkept.map _), List.nodup_singleton _, ?_⟩
      rintro _ ha _ hb rfl
      obtain ⟨e, he, rfl⟩ := List.mem_map.mp ha
      simpa [List.mem_singleton.mp hb] using (List.mem_filter.mp he).2
  refine ⟨hone, hone.abbreviates ?_⟩
  have hnone : (table.filter fun e => !(e.2 == space)).lookup q = none :=
    List.lookup_eq_none_iff.mpr fun e he => List.lookup_eq_none_iff.mp hfree e (hkept.subset he)
  rw [Abbreviation.assign, List.lookup_append, hnone, Option.none_or, List.lookup_cons_self]

end OneToOne

/-- Whether a prefix with a number stands for another namespace. -/
def Taken (table : Table) (stem space : String) (n : Nat) : Prop :=
  ∃ other, table.lookup (stem ++ toString n) = some other ∧ other ≠ space

theorem numbered_eq (table : Table) (stem space : String) (fuel n : Nat) :
    ∃ m, numbered table stem space fuel n = stem ++ toString m ∧
      (Taken table stem space m → m = n + fuel ∧ ∀ k, n ≤ k → k < m → Taken table stem space k) := by
  induction fuel generalizing n with
  | zero => exact ⟨n, rfl, fun _ => ⟨rfl, fun k hk hlt => absurd hlt (Nat.not_lt.mpr hk)⟩⟩
  | succ fuel ih =>
    unfold numbered
    dsimp only
    cases hlookup : table.lookup (stem ++ toString n) with
    | none =>
      refine ⟨n, rfl, ?_⟩
      rintro ⟨other, hother, -⟩
      cases hlookup.symm.trans hother
    | some s =>
      by_cases hs : s = space
      · refine ⟨n, by simp [hs], ?_⟩
        rintro ⟨other, hother, hne⟩
        cases hlookup.symm.trans hother
        exact absurd hs hne
      · obtain ⟨m, hm, htaken⟩ := ih (n + 1)
        refine ⟨m, by simpa [hs] using hm, fun h => ?_⟩
        obtain ⟨rfl, hall⟩ := htaken h
        refine ⟨by omega, fun k hk hlt => ?_⟩
        rcases Nat.eq_or_lt_of_le hk with rfl | hk
        · exact ⟨s, hlookup, hs⟩
        · exact hall k hk hlt

/-- Numbers are read off their digits. -/
theorem toString_injective {m n : Nat} (h : toString m = toString n) : m = n := by
  have hdigits : Nat.toDigits 10 m = Nat.toDigits 10 n := by
    rw [← Nat.toList_repr, ← Nat.toList_repr]
    exact congrArg String.toList h
  rw [← Nat.ofDigitChars_toDigits (b := 10) (by decide) (by decide) (n := m), hdigits,
    Nat.ofDigitChars_toDigits (by decide) (by decide)]

/-- The prefix with a number that is found is not taken: with more numbers than entries, not all of them are. -/
theorem numbered_spec (table : Table) (stem space : String) :
    ∃ m, numbered table stem space table.length 1 = stem ++ toString m ∧ ¬Taken table stem space m := by
  obtain ⟨m, hm, htaken⟩ := numbered_eq table stem space table.length 1
  refine ⟨m, hm, fun h => ?_⟩
  obtain ⟨rfl, hall⟩ := htaken h
  let candidates := (List.range' 1 (table.length + 1)).map fun k => stem ++ toString k
  have hnodup : candidates.Nodup := by
    refine (List.nodup_range' 1).map fun a b hab => ?_
    exact toString_injective ((String.append_right_inj stem).mp hab)
  have hsub : candidates ⊆ table.map (·.1) := by
    intro c hc
    obtain ⟨k, hk, rfl⟩ := List.mem_map.mp hc
    have hbounds := List.mem_range'_1.mp hk
    have hk : Taken table stem space k := by
      rcases Nat.lt_or_ge k (1 + table.length) with hlt | hge
      · exact hall k hbounds.1 hlt
      · rwa [show k = 1 + table.length by omega]
    obtain ⟨other, hother, -⟩ := hk
    obtain ⟨before, after, htable, -⟩ := List.lookup_eq_some_iff.mp hother
    exact htable ▸ List.mem_map.mpr ⟨_, List.mem_append_right _ List.mem_cons_self, rfl⟩
  have hlength := (List.subperm_of_subset hnodup hsub).length_le
  simp only [candidates, List.length_map, List.length_range'] at hlength
  omega

/-- **Binding keeps the namespace**, and at most renames the prefix. -/
theorem bind_abbreviates (h : OneToOne table) (hasked : ' ' ∉ asked.toList) (space : String) :
    ∃ table' q, bind table asked space = .ok table' ∧ OneToOne table' ∧ Abbreviates table' q space ∧
      Variant table asked space q := by
  unfold bind
  rw [if_neg (by simpa using hasked)]
  cases hlookup : table.lookup asked with
  | none => exact ⟨_, asked, rfl, (h.assign hlookup space).1, (h.assign hlookup space).2, .inl rfl⟩
  | some other =>
    by_cases hother : other = space
    · subst hother
      exact ⟨table, asked, by simp, h, h.abbreviates hlookup, .inl rfl⟩
    · obtain ⟨m, hm, hfree⟩ := numbered_spec table (if asked == "" then "default" else asked) space
      have hvariant : Variant table asked space ((if asked == "" then "default" else asked) ++ toString m) :=
        .inr ⟨⟨other, hlookup, hother⟩, m, rfl⟩
      dsimp only
      rw [if_neg (by simpa using hother), hm]
      cases hnumbered : table.lookup ((if asked == "" then "default" else asked) ++ toString m) with
      | none => exact ⟨_, _, rfl, (h.assign hnumbered space).1, (h.assign hnumbered space).2, hvariant⟩
      | some s =>
        have hs : s = space := by
          by_contra hs
          exact hfree ⟨s, hnumbered, hs⟩
        exact ⟨table, _, rfl, h, h.abbreviates (hs ▸ hnumbered), hvariant⟩

end Abbreviation

/-! ## What a name stands for -/

namespace Current

open Act

variable {env : Env} {w : World} {given : Term} {id : Nat}

/-- Where an ontology has no naming function, a name stands for the ontology's IRI, the separator and the name. -/
theorem run_iriForName (ho : orGiven given env w = (.ok (.handle (.ontology id)), w))
    (hnaming : w.policy (.handle (.ontology id)) = .null) (n : String) :
    ∃ v, iriForName (.text n) given env w = (.ok ((w.ontology id).iri ++ w.settings.separator ++ n), v) ∧
      w.Asked v := by
  obtain ⟨v, hpolicy, hasked⟩ := run_policyFor (o := .handle (.ontology id)) nofun rfl env w
  refine ⟨v, ?_, hasked⟩
  rw [iriForName_eq, run_bind, ho]
  dsimp only
  rw [run_bind, hpolicy, hnaming, ← hasked.ontology, ← hasked.settings]
  rfl

end Current

namespace Graph

variable {env : Env} {w : World} {o : Ontology} {given : Term} {id : Nat} {s : String}

/-- The prefix of an ontology is a text, not an empty one, without a space. -/
structure HasPrefix (o : Ontology) (s : String) : Prop where
  content : o.abbreviation.content? = some s
  nonempty : o.abbreviation.isTruthy = true
  spaceless : ' ' ∉ s.toList

/-- A prefix without the colons at its end. -/
def stem (s : String) : String := String.ofList (s.toList.reverse.dropWhile (· == ':')).reverse

/-- The namespace that a rendering abbreviates by the prefix of the ontology. -/
def space (o : Ontology) : String := o.iri ++ "#"

/-- **The rendering abbreviates the namespace**, by the prefix of the ontology or a variant of it. -/
theorem HasPrefix.abbreviates (h : HasPrefix o s) : ∃ table q, abbreviations o = .ok table ∧
    Abbreviation.Abbreviates table q (space o) ∧ Abbreviation.Variant Abbreviation.standard (stem s) (space o) q := by
  have hstem : ' ' ∉ (stem s).toList := by
    intro hmem
    rw [stem, String.toList_ofList, List.mem_reverse] at hmem
    exact h.spaceless (List.mem_reverse.mp ((List.dropWhile_sublist _).subset hmem))
  obtain ⟨table, q, hbind, -, hq, hvariant⟩ :=
    Abbreviation.bind_abbreviates Abbreviation.standard_oneToOne hstem (space o)
  refine ⟨table, q, ?_, hq, hvariant⟩
  rw [abbreviations, if_pos h.nonempty, h.content]
  exact hbind

/-- A text with another behind it begins with a namespace of the ontology exactly if what stands behind the IRI begins
with a hash sign. -/
theorem begins_iff (iri tail : String) : (∃ rest, iri ++ tail = iri ++ "#" ++ rest) ↔ ∃ rest, tail = "#" ++ rest := by
  simp only [String.append_assoc, String.append_right_inj]

/-- **The prefix of an ontology and the IRIs of its names.** A rendering abbreviates the namespace of the ontology, by its
prefix or by that prefix with a number, and a name stands for an IRI in that namespace if and only if the separator and
the name together begin with a hash sign; so all names do if and only if the separator does. -/
theorem prefix_serves_iff (ho : Current.orGiven given env w = (.ok (.handle (.ontology id)), w))
    (hgiven : HasPrefix (w.ontology id) s) (hnaming : w.policy (.handle (.ontology id)) = .null) :
    (∃ table q, abbreviations (w.ontology id) = .ok table ∧
      Abbreviation.Abbreviates table q (space (w.ontology id)) ∧
      Abbreviation.Variant Abbreviation.standard (stem s) (space (w.ontology id)) q ∧
      ∀ l, list w (w.ontology id) = .ok l → l.abbreviation = some q) ∧
    (∀ n, ∃ iri v, Current.iriForName (.text n) given env w = (.ok iri, v) ∧
      ((∃ rest, iri = space (w.ontology id) ++ rest) ↔ ∃ rest, w.settings.separator ++ n = "#" ++ rest)) ∧
    ((∀ n iri v, Current.iriForName (.text n) given env w = (.ok iri, v) →
        ∃ rest, iri = space (w.ontology id) ++ rest) ↔
      ∃ rest, w.settings.separator = "#" ++ rest) := by
  refine ⟨?_, fun n => ?_, fun h => ?_, ?_⟩
  · obtain ⟨table, q, htable, hq, hvariant⟩ := hgiven.abbreviates
    refine ⟨table, q, htable, hq, hvariant, fun l hl => ?_⟩
    rw [list, htable] at hl
    cases hgraph : ofOntology w (w.ontology id) with
    | error e =>
      rw [hgraph] at hl
      cases hl
    | ok g =>
      rw [hgraph] at hl
      cases hl
      exact hq.only
  · obtain ⟨v, hrun, -⟩ := Current.run_iriForName ho hnaming n
    exact ⟨_, v, hrun, by rw [String.append_assoc, space, begins_iff]⟩
  · obtain ⟨v, hrun, -⟩ := Current.run_iriForName ho hnaming ""
    have hbegins := h _ _ _ hrun
    rwa [String.append_empty, space, begins_iff] at hbegins
  · rintro ⟨rest, hseparator⟩ n iri v hrun
    obtain ⟨v', hrun', -⟩ := Current.run_iriForName ho hnaming n
    cases hrun.symm.trans hrun'
    rw [String.append_assoc, space, begins_iff]
    exact ⟨rest ++ n, by rw [hseparator, String.append_assoc]⟩

/-- One ontology with a prefix, under settings with a separator. -/
def separatedBy (abbreviation separator : String) : World :=
  { World.initial ⟨"en", separator⟩ with
    ontologies := [⟨"http://example.org/test", .text abbreviation, [], [], []⟩]
    stores := [⟨[("http://example.org/test", 0)], [.forget]⟩] }

/-- With the separator of the default settings, all names are in the namespace; a prefix that is taken is renamed. -/
theorem prefix_serves_iff_default : let w := separatedBy "owl:" "#"
    HasPrefix (w.ontology 0) "owl:" ∧ w.policy (.handle (.ontology 0)) = .null ∧
    (∃ table q, abbreviations (w.ontology 0) = .ok table ∧
      Abbreviation.Abbreviates table q "http://example.org/test#" ∧
      Abbreviation.Variant Abbreviation.standard "owl" "http://example.org/test#" q) ∧
    ∀ n iri v, Current.iriForName (.text n) (.handle (.ontology 0)) .plain w = (.ok iri, v) →
      ∃ rest, iri = "http://example.org/test#" ++ rest := by
  intro w
  have hgiven : HasPrefix (w.ontology 0) "owl:" := ⟨rfl, rfl, by decide⟩
  have hcurrent : Current.orGiven (.handle (.ontology 0)) .plain w = (.ok (.handle (.ontology 0)), w) := rfl
  obtain ⟨⟨table, q, htable, hq, hvariant, -⟩, -, hall⟩ := prefix_serves_iff hcurrent hgiven rfl
  refine ⟨hgiven, rfl, ⟨table, q, htable, hq, ?_⟩, hall.mpr ⟨"", rfl⟩⟩
  rwa [show stem "owl:" = "owl" by decide] at hvariant

/-- With another separator the namespace is abbreviated as before, and a name stands for an IRI outside it. -/
theorem prefix_serves_none : let w := separatedBy "test:" "/"
    HasPrefix (w.ontology 0) "test:" ∧ w.policy (.handle (.ontology 0)) = .null ∧
    (∃ table, abbreviations (w.ontology 0) = .ok table ∧
      Abbreviation.Abbreviates table "test" "http://example.org/test#") ∧
    (Current.iriForName (.text "A") (.handle (.ontology 0)) .plain w).1 = .ok "http://example.org/test/A" ∧
    ¬∃ rest, "http://example.org/test/A" = "http://example.org/test#" ++ rest := by
  refine ⟨⟨rfl, rfl, by decide⟩, rfl, ⟨_, rfl, ?_, ?_⟩, rfl, ?_⟩
  · decide
  · decide
  · rintro ⟨rest, h⟩
    have hchars := congrArg (fun s => s.toList.take 24) h
    simp [String.toList_append] at hchars

end Graph

end Authoring
