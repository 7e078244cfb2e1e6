import Authoring.Proofs.Hierarchy.Forms
import Authoring.Proofs.Term.Turning

/-!
# Intersections and unions go by values

The classes of an intersection or union are references in nested lists, with nulls among them, each in whatever form a
reference may have. What comes out depends only on the set of the values that they denote.

**Main statement** (`Expression.joins_values`): without any reference the value is bad, and only then; if all denote one
value it is this value itself that comes out, and only then; otherwise it is an expression over the set of the values,
which has two members at least. So references that denote the same set give the same. And to close a property
(`Expression.someOnly`) gives one restriction for each value and, at the end, one to what the union is.

**What carries the proof.** Whether two sets are equal is a question about these sets alone, asked either way, and two
values that are the only members of equal sets are equal in every sense (`Term.Same.of_singletons`).

**What is assumed.** Nothing of what is called to read the references, which may change the world; but they have been
read. A value that can be no member of a set, such as an expression that holds a list, is refused, even if it is the only
one (`Junction.Joins.unstable`). As equality of values need not run both ways, sets are the same here if each equals the
other; of values that are built as they should be, each need only equal one of the other set (`Junction.Joins.regular`).
-/

namespace Authoring

open Act

namespace Act

variable {env : Env} {α β : Type}

/-- What a traversal ends with is, one by one, what its act has ended with. -/
theorem forall₂_of_mapM_ok {f : α → Act β} {l : List α} {bs : List β} {w w' : World}
    (h : l.mapM f env w = (.ok bs, w')) : List.Forall₂ (fun a b => ∃ v v', f a env v = (.ok b, v')) l bs := by
  induction l generalizing w bs with
  | nil =>
    cases h
    exact .nil
  | cons a l ih =>
    rw [List.mapM_cons] at h
    obtain ⟨b, w₁, hb, h⟩ := bind_ok h
    obtain ⟨bs, w₂, hbs, h⟩ := bind_ok h
    cases h
    exact .cons ⟨w, w₁, hb⟩ (ih hbs)

/-- To go on with each value of a traversal is to go on with the list of them. -/
theorem mapM_bind_pure {γ : Type} (f : α → Act β) (g : β → γ) (l : List α) :
    (l.mapM fun a => f a >>= fun b => pure (g b)) = l.mapM f >>= fun bs => pure (bs.map g) := by
  induction l with
  | nil => rfl
  | cons a l ih =>
    simp only [List.mapM_cons, ih, bind_assoc, pure_bind]
    rfl

/-- Among terms of which one is not stable the first such one is refused. -/
theorem run_forM_requireStable_of_not {ts : List Term} (h : ∃ t ∈ ts, t.isStable = false) (env : Env) (w : World) :
    ts.forM requireStable env w = (.error .wrongSort, w) := by
  induction ts with
  | nil => simp at h
  | cons t ts ih =>
    rw [forM_cons, run_bind]
    cases ht : t.isStable with
    | false => rw [run_requireStable_of_not ht]
    | true =>
      rw [run_requireStable ht]
      obtain ⟨u, hu, hunstable⟩ := h
      rcases List.mem_cons.mp hu with rfl | hu
      · rw [ht] at hunstable
        cases hunstable
      · exact ih ⟨u, hu, hunstable⟩

end Act

namespace Term

variable {t u c : Term} {ts us cs ms : List Term}

/-! ## Sets that equal each other -/

/-- Two sets each of which equals the other are equal in every sense. -/
theorem Same.of_sets {f g : Bool} (h : (Term.set f ts).equals (.set g us) = true)
    (h' : (Term.set g us).equals (.set f ts) = true) : Same (.set f ts) (.set g us) := by
  have asked : ∀ k, (Term.set f ts).agrees k false (.set g us) = true := fun _ => (Bool.and_eq_true_iff.mp h).1
  have asked' : ∀ k, (Term.set g us).agrees k false (.set f ts) = true := fun _ => (Bool.and_eq_true_iff.mp h').1
  intro k b
  cases b
  · exact ⟨asked k, asked' k⟩
  · exact ⟨(agrees_turned _ _ k false).trans (asked' k), (agrees_turned _ _ k false).trans (asked k)⟩

/-- Terms that are equal as keys, whichever is asked, are equal in every sense. -/
theorem Same.of_keys (h : ∀ b, t.agrees true b u = true) : Same t u := by
  have turned : ∀ b, u.agrees true b t = true := by
    intro b
    have := (agrees_turned t u true !b).trans (h !b)
    rwa [Bool.not_not] at this
  intro k b
  cases k
  · exact ⟨agrees_of_asKey (h b), agrees_of_asKey (turned b)⟩
  · exact ⟨h b, turned b⟩

/-- The only members of sets that are equal are equal. -/
theorem Same.of_singletons {f g : Bool} (h : Same (.set f [t]) (.set g [u])) : Same t u := by
  refine .of_keys fun b => ?_
  have found := (set_agrees_iff.mp (h true !b).1).2
  cases b <;> simpa using found

/-- What is equal in every sense is equal, unless it is a number that does not equal itself. -/
theorem Same.equals (h : Same t u) (ht : t.isNaN = false) : t.equals u = true := by
  rw [Term.equals, (h false false).1, ht]
  rfl

/-- **The members of the set of some values**: these values and no others, each of them once. -/
structure AreMembersOf (ms cs : List Term) : Prop where
  values : ms ⊆ cs
  found : ∀ c ∈ cs, ∃ m ∈ ms, (c == m) = true
  distinct : Distinct ms

theorem areMembersOf_eraseDups (cs : List Term) : AreMembersOf cs.eraseDups cs where
  values _ := Distinct.mem_of_mem_eraseDups
  found _ := Distinct.exists_mem_eraseDups
  distinct := .eraseDups cs

/-- A set has no other member than the first value exactly if all are equal to this. -/
theorem eraseDups_eq_iff : (c :: cs).eraseDups = [c] ↔ ∀ d ∈ c :: cs, (d == c) = true := by
  rw [List.eraseDups_cons, List.cons_eq_cons, and_iff_right rfl, List.forall_mem_cons, and_iff_right BEq.rfl]
  constructor
  · intro h d hd
    by_contra hdc
    have kept : d ∈ cs.filter fun b => !b == c := List.mem_filter.mpr ⟨hd, by simp [hdc]⟩
    obtain ⟨m, hm, -⟩ := Distinct.exists_mem_eraseDups kept
    rw [h] at hm
    cases hm
  · intro h
    rw [List.filter_eq_nil_iff.mpr fun d hd => by rw [h d hd]; decide]
    rfl

theorem length_eraseDups_eq_one_iff : (c :: cs).eraseDups.length = 1 ↔ (c :: cs).eraseDups = [c] := by
  rw [List.eraseDups_cons, List.length_cons, Nat.add_eq_right, List.length_eq_zero_iff, List.cons_eq_cons, and_iff_right rfl]

end Term

namespace Expression

open Reference

variable {env : Env} {w v : World} {classes cs : List Term} {c p : Term} {o : Operator}

/-! ## What comes out for values -/

/-- What references to classes denote, read one after the other. -/
def denoted (classes : List Term) : Act (List Term) := do
  (← leaves classes).mapM fun t => resolveClass t .null

/-- The ways of combining classes. -/
inductive Junction where
  | meet
  | join

namespace Junction

def operator : Junction → Operator
  | .meet => .and
  | .join => .or

/-- The intersection or union of classes. -/
def of : Junction → List Term → Act Term
  | .meet => Expression.and
  | .join => Expression.or

theorem of_eq (j : Junction) (classes : List Term) : j.of classes = denoted classes >>= combine j.operator := by
  cases j <;> exact (bind_assoc _ _ _).symm

/-- What comes out for a value and others after it. -/
def result (j : Junction) (c : Term) (cs : List Term) : Term :=
  if (c :: cs).eraseDups.length = 1 then c else .expression (.ofOperator j.operator) [Term.setOf true (c :: cs)] .null

theorem result_one (j : Junction) (h : ∀ d ∈ c :: cs, (d == c) = true) : j.result c cs = c :=
  if_pos (Term.length_eraseDups_eq_one_iff.mpr (Term.eraseDups_eq_iff.mpr h))

theorem result_several (j : Junction) (h : ¬∀ d ∈ c :: cs, (d == c) = true) :
    j.result c cs = .expression (.ofOperator j.operator) [Term.setOf true (c :: cs)] .null :=
  if_neg fun hlength => h (Term.eraseDups_eq_iff.mp (Term.length_eraseDups_eq_one_iff.mp hlength))

/-- The first value comes out exactly if all are equal to it, for an expression over a set is not one of its members. -/
theorem result_eq_iff (j : Junction) : j.result c cs = c ↔ ∀ d ∈ c :: cs, (d == c) = true := by
  refine ⟨fun h => ?_, j.result_one⟩
  by_contra hnot
  rw [j.result_several hnot, Term.setOf, List.eraseDups_cons] at h
  have hsize := congrArg sizeOf h
  simp only [Term.expression.sizeOf_spec, List.cons.sizeOf_spec, Term.set.sizeOf_spec] at hsize
  omega

theorem run_combine_of_not (j : Junction) (h : ∃ c ∈ cs, c.isStable = false) (env : Env) (w : World) :
    combine j.operator cs env w = (.error .wrongSort, w) := by
  cases cs with
  | nil => simp at h
  | cons c cs => rw [combine, run_bind, run_forM_requireStable_of_not h]

theorem run_combine (j : Junction) (h : ∀ d ∈ c :: cs, d.isStable = true) (env : Env) (w : World) :
    combine j.operator (c :: cs) env w = (.ok (j.result c cs), w) := by
  have hstable := run_forM_requireStable h env
  have hset : Factory.takesSet (.ofOperator j.operator) = true := by
    rw [Factory.takesSet_ofOperator]
    cases j <;> rfl
  rw [combine, run_bind, hstable, result]
  dsimp only
  split
  · rfl
  · rw [Factory.expression, Factory.expressionOf, run_bind]
    show (if Factory.takesSet (.ofOperator j.operator) then _ else _ : Act Term) env w = _
    rw [if_pos hset, Act.setOf, run_bind, run_bind, hstable]
    rfl

/-- The three ways in which combining values ends. -/
theorem run_combine_cases (j : Junction) (cs : List Term) (env : Env) (w : World) :
    (cs = [] ∧ combine j.operator cs env w = (.error (.badValue (.noMembers j.operator)), w)) ∨
    ((∃ c ∈ cs, c.isStable = false) ∧ combine j.operator cs env w = (.error .wrongSort, w)) ∨
    ∃ c ds, cs = c :: ds ∧ (∀ d ∈ cs, d.isStable = true) ∧ combine j.operator cs env w = (.ok (j.result c ds), w) := by
  by_cases hnot : ∃ c ∈ cs, c.isStable = false
  · exact .inr (.inl ⟨hnot, j.run_combine_of_not hnot env w⟩)
  · have hstable : ∀ c ∈ cs, c.isStable = true := fun c hc => by
      by_contra hc'
      exact hnot ⟨c, hc, Bool.eq_false_iff.mpr hc'⟩
    cases cs with
    | nil => exact .inl ⟨rfl, rfl⟩
    | cons c ds => exact .inr (.inr ⟨c, ds, rfl, hstable, j.run_combine hstable env w⟩)

end Junction

/-- What is denoted is a class or an expression. -/
theorem denotes_of_denoted (h : denoted classes env w = (.ok cs, v)) : ∀ c ∈ cs, Denotes .cls c := by
  intro c hc
  obtain ⟨t, -, w₁, w₂, hresolve⟩ :=
    exists_mem_of_forall₂ (forall₂_of_mapM_ok (l := Term.flattenAll (classes.map w.spread)) h) hc
  exact resolve_ok hresolve

theorem isNaN_of_denotes (h : Denotes .cls c) : c.isNaN = false := by
  cases h <;> rfl

/-- There is a value for each reference, once lists are flattened. -/
theorem denoted_eq_nil_iff (h : denoted classes env w = (.ok cs, v)) :
    cs = [] ↔ Term.flattenAll (classes.map w.spread) = [] := by
  have hlength := (forall₂_of_mapM_ok (l := Term.flattenAll (classes.map w.spread)) h).length_eq
  rw [← List.length_eq_zero_iff, ← hlength, List.length_eq_zero_iff]

theorem Junction.run_of (j : Junction) (h : denoted classes env w = (.ok cs, v)) :
    j.of classes env w = combine j.operator cs env v := by
  rw [j.of_eq, run_bind, h]

/-- Outcomes that are the same: values each of which equals the other, or one fault. -/
inductive SameOutcome : Except Fault Term → Except Fault Term → Prop
  | values {r s : Term} (h : r.equals s = true) (h' : s.equals r = true) : SameOutcome (.ok r) (.ok s)
  | fault (e : Fault) : SameOutcome (.error e) (.error e)

variable {env' : Env} {w' v' : World} {classes' cs' : List Term}

/-- **Values of one set give the same.** -/
theorem Junction.sameOutcome (j : Junction) (h : denoted classes env w = (.ok cs, v))
    (h' : denoted classes' env' w' = (.ok cs', v')) (hstable : ∀ c ∈ cs, c.isStable = true)
    (hstable' : ∀ c ∈ cs', c.isStable = true) (hsame : Term.Same (Term.setOf true cs) (Term.setOf true cs')) :
    SameOutcome (j.of classes env w).1 (j.of classes' env' w').1 := by
  have hlength : cs.eraseDups.length = cs'.eraseDups.length := hsame.length_eq
  have hdenotes := denotes_of_denoted h
  have hdenotes' := denotes_of_denoted h'
  rw [j.run_of h, j.run_of h']
  cases cs with
  | nil =>
    cases cs' with
    | nil => exact .fault _
    | cons c' cs' => rw [List.eraseDups_cons] at hlength; cases hlength
  | cons c cs =>
    cases cs' with
    | nil => rw [List.eraseDups_cons] at hlength; cases hlength
    | cons c' cs' =>
      rw [j.run_combine hstable, j.run_combine hstable']
      by_cases hone : (c :: cs).eraseDups.length = 1
      · have hone' : (c' :: cs').eraseDups.length = 1 := hlength ▸ hone
        rw [result, result, if_pos hone, if_pos hone']
        rw [Term.setOf, Term.setOf, Term.length_eraseDups_eq_one_iff.mp hone,
          Term.length_eraseDups_eq_one_iff.mp hone'] at hsame
        have hsame := Term.Same.of_singletons hsame
        exact .values (hsame.equals (isNaN_of_denotes (hdenotes c List.mem_cons_self)))
          (hsame.symm.equals (isNaN_of_denotes (hdenotes' c' List.mem_cons_self)))
      · have hsame : Term.Same (.expression (.ofOperator j.operator) [Term.setOf true (c :: cs)] .null)
            (.expression (.ofOperator j.operator) [Term.setOf true (c' :: cs')] .null) := .expression (.cons hsame .nil)
        rw [result, result, if_neg hone, if_neg (hlength ▸ hone)]
        exact .values (hsame.equals rfl) (hsame.symm.equals rfl)

/-- **What an intersection or union makes of references**, read in a world `w`, given the values `cs` that they denote and
the world `v` in which these have been read. -/
structure Junction.Joins (j : Junction) (env : Env) (classes cs : List Term) (w v : World) : Prop where
  /-- The value is bad if there is no reference once lists are flattened, and only then. -/
  none_left : (∃ x, (j.of classes env w).1 = .error (.badValue x)) ↔ Term.flattenAll (classes.map w.spread) = []
  /-- It is of the wrong sort if a value can be no member of a set, and only then. -/
  unstable : (j.of classes env w).1 = .error .wrongSort ↔ ∃ c ∈ cs, c.isStable = false
  /-- The first value itself comes out if all are equal to it, and only then. -/
  one : (∀ c ∈ cs, c.isStable = true) → ∀ c ∈ cs.head?,
    j.of classes env w = (.ok c, v) ↔ ∀ d ∈ cs, (d == c) = true
  /-- Otherwise it is an expression over the set of the values, which has two members at least. -/
  several : (∀ c ∈ cs, c.isStable = true) → ∀ c ∈ cs.head?, (¬∀ d ∈ cs, (d == c) = true) → ∃ ms,
    j.of classes env w = (.ok (.expression (.ofOperator j.operator) [.set true ms] .null), v) ∧
      Term.AreMembersOf ms cs ∧ 2 ≤ ms.length
  /-- Whatever denotes the same set gives the same, wherever it is read. -/
  alike : (∀ c ∈ cs, c.isStable = true) → ∀ env' w' classes' cs' v', denoted classes' env' w' = (.ok cs', v') →
    (∀ c ∈ cs', c.isStable = true) → (Term.setOf true cs).equals (Term.setOf true cs') = true →
    (Term.setOf true cs').equals (Term.setOf true cs) = true →
    SameOutcome (j.of classes env w).1 (j.of classes' env' w').1
  /-- Of values that are built as they should be, those of the one set need only be among those of the other. -/
  regular : (∀ c ∈ cs, c.IsRegular) → ∀ env' w' classes' cs' v', denoted classes' env' w' = (.ok cs', v') →
    (∀ c ∈ cs', c.IsRegular) → (∀ c ∈ cs, ∃ d ∈ cs', (c == d) = true) → (∀ d ∈ cs', ∃ c ∈ cs, (d == c) = true) →
    SameOutcome (j.of classes env w).1 (j.of classes' env' w').1

theorem Junction.joins (j : Junction) (h : denoted classes env w = (.ok cs, v)) : j.Joins env classes cs w v where
  none_left := by
    rw [← denoted_eq_nil_iff h, j.run_of h]
    rcases j.run_combine_cases cs env v with ⟨rfl, hrun⟩ | ⟨⟨c, hc, -⟩, hrun⟩ | ⟨c, ds, rfl, -, hrun⟩ <;> rw [hrun]
    · exact ⟨fun _ => rfl, fun _ => ⟨_, rfl⟩⟩
    · exact ⟨nofun, fun hnil => absurd hc (hnil ▸ List.not_mem_nil)⟩
    · exact ⟨nofun, nofun⟩
  unstable := by
    rw [j.run_of h]
    rcases j.run_combine_cases cs env v with ⟨rfl, hrun⟩ | ⟨hnot, hrun⟩ | ⟨c, ds, rfl, hstable, hrun⟩ <;> rw [hrun]
    · exact ⟨nofun, nofun⟩
    · exact ⟨fun _ => hnot, fun _ => rfl⟩
    · refine ⟨nofun, ?_⟩
      rintro ⟨d, hd, hnot⟩
      rw [hstable d hd] at hnot
      cases hnot
  one hstable c hc := by
    obtain ⟨ds, rfl⟩ := List.head?_eq_some_iff.mp hc
    rw [j.run_of h, j.run_combine hstable, ← j.result_eq_iff]
    rw [Prod.mk.injEq, Except.ok.injEq, and_iff_left rfl]
  several hstable c hc hnot := by
    obtain ⟨ds, rfl⟩ := List.head?_eq_some_iff.mp hc
    refine ⟨(c :: ds).eraseDups, ?_, Term.areMembersOf_eraseDups _, ?_⟩
    · rw [j.run_of h, j.run_combine hstable, j.result_several hnot]
      rfl
    · have hlength := mt Term.length_eraseDups_eq_one_iff.mp (mt Term.eraseDups_eq_iff.mp hnot)
      rw [List.eraseDups_cons, List.length_cons] at hlength ⊢
      omega
  alike hstable env' w' classes' cs' v' h' hstable' hs hs' :=
    j.sameOutcome h h' hstable hstable' (.of_sets hs hs')
  regular hcs env' w' classes' cs' v' h' hcs' hfound hfound' :=
    j.sameOutcome h h' (fun c hc => Term.isStable_of_isBuilt (hcs c hc).built)
      (fun c hc => Term.isStable_of_isBuilt (hcs' c hc).built) (.setOf_of_values hcs hcs' hfound hfound')

/-- What comes out denotes itself. -/
theorem Junction.denotes (j : Junction) {u : Term} (h : j.of classes env w = (.ok u, v)) : Denotes .cls u := by
  rw [j.of_eq] at h
  obtain ⟨cs, w₁, hcs, hcombine⟩ := bind_ok h
  rcases j.run_combine_cases cs env w₁ with ⟨-, hrun⟩ | ⟨-, hrun⟩ | ⟨c, ds, rfl, -, hrun⟩ <;> rw [hrun] at hcombine
  · cases hcombine
  · cases hcombine
  · cases hcombine
    unfold result
    split
    · exact denotes_of_denoted hcs c List.mem_cons_self
    · exact .expression rfl

/-! ## Closing a property -/

/-- The restriction of a property, by an operator that takes no set. -/
def restriction (o : Operator) (q c : Term) : Term := .expression (.ofOperator o) [q, c] .null

theorem restrictEach_eq (ho : o.takesSet = false) (p : Term) (fillers : List Term) : restrictEach o p fillers = (do
    let q ← resolveObjectProperty p .null
    return (← denoted fillers).map (restriction o q)) := by
  have hmake : ∀ q c, Factory.expression o [q, c] .null = pure (restriction o q c) := by
    intro q c
    rw [Factory.expression, Factory.expressionOf, Factory.takesSet_ofOperator, ho]
    rfl
  unfold restrictEach denoted
  simp only [hmake, mapM_bind_pure, bind_assoc]

/-- A single restriction stands for itself, and is the one item of the list that is made of it. -/
theorem items_oneOrMany (q : Term) (cs : List Term) :
    (match oneOrMany (cs.map (restriction o q)) with
      | .list ts => ts
      | t => [t]) = cs.map (restriction o q) := by
  match cs with
  | [] | [_] | _ :: _ :: _ => rfl

/-- What denotes itself is the one leaf of its list, and its own value. -/
theorem run_denoted (h : Denotes .cls c) (env : Env) (w : World) : denoted [c] env w = (.ok [c], w) := by
  have hleaves : leaves [c] env w = (.ok [c], w) := by cases h <;> rfl
  rw [denoted, run_bind, hleaves]
  dsimp only
  rw [List.mapM_cons, run_bind, resolveClass, h.run_resolve]
  rfl

/-- **What closes a property** is made of restrictions to each value, and of one to the union of the values. -/
theorem someOnly_eq (p : Term) (fillers : List Term) : someOnly p fillers = (do
    let q ← resolveObjectProperty p .null
    let cs ← denoted fillers
    let u ← Expression.or fillers
    let q' ← resolveObjectProperty p .null
    return .list (cs.map (restriction .some q) ++ [restriction .only q' u])) := by
  unfold someOnly Expression.some only
  simp only [restrictEach_eq (show Operator.some.takesSet = false from rfl),
    restrictEach_eq (show Operator.only.takesSet = false from rfl), bind_assoc, pure_bind]
  funext env w
  refine run_bind_congr fun q w₁ _ => run_bind_congr fun cs w₂ _ => run_bind_congr fun u w₃ hu => ?_
  refine run_bind_congr fun q' w₄ _ => ?_
  rw [run_bind, run_denoted (Junction.join.denotes hu)]
  exact congrArg (fun ts => (Except.ok (Term.list (ts ++ [restriction .only q' u])), w₄)) (items_oneOrMany q cs)

/-- **Intersections and unions go by values.** Of references that have been read, whatever their forms and however nested,
what they join to depends on the set of their values only; and closing a property is made of such joins. -/
theorem joins_values (h : denoted classes env w = (.ok cs, v)) :
    (∀ j : Junction, j.Joins env classes cs w v) ∧ ∀ p : Term, someOnly p classes = (do
      let q ← resolveObjectProperty p .null
      let cs ← denoted classes
      let u ← Expression.or classes
      let q' ← resolveObjectProperty p .null
      return .list (cs.map (restriction .some q) ++ [restriction .only q' u])) :=
  ⟨fun j => j.joins h, fun p => someOnly_eq p classes⟩

/-- Three references to two classes, in nested lists with a null: a name, what produces a name, and an IRI. In another order,
and without the repetition, they denote the same set. -/
theorem joins_values_nested :
    let env := Hierarchy.unwrapping
    let w := Hierarchy.named
    let a : Term := .entity 0 ⟨.cls, "n:A"⟩
    let b : Term := .entity 0 ⟨.cls, "n:B"⟩
    let p : Term := .entity 0 ⟨.objectProperty, "p"⟩
    let classes : List Term := [.list [.text "A", .null, .tuple [.closure 0 0 (.text "B") .null]], .iri "n:A"]
    let others : List Term := [.text "B", .list [a]]
    denoted classes env w = (.ok [a, b, a], w) ∧ denoted others env w = (.ok [b, a], w) ∧
      Expression.or classes env w = (.ok (.expression (.ofOperator .or) [.set true [a, b]] .null), w) ∧
      SameOutcome (Expression.or classes env w).1 (Expression.or others env w).1 ∧
      Expression.and [.text "A", .iri "n:A"] env w = (.ok a, w) ∧
      someOnly (.iri "p") [.text "A"] env w = (.ok (.list [restriction .some p a, restriction .only p a]), w) := by
  intro env w a b p classes others
  have hclasses : denoted classes env w = (.ok [a, b, a], w) := rfl
  have hothers : denoted others env w = (.ok [b, a], w) := rfl
  have hsingle : denoted [.text "A", .iri "n:A"] env w = (.ok [a, a], w) := rfl
  have hone : denoted [.text "A"] env w = (.ok [a], w) := rfl
  refine ⟨hclasses, hothers, rfl, ?_, ?_, ?_⟩
  · refine ((joins_values hclasses).1 .join).alike (by decide) _ _ _ _ _ hothers (by decide) (by decide) (by decide)
  · exact (((joins_values hsingle).1 .meet).one (by decide) a rfl).mpr (by decide)
  · rw [(joins_values hone).2]
    rfl

/-- An expression that holds a list denotes itself, but does not come out, although it is the only value. -/
theorem joins_values_list :
    let e := restriction .some (.entity 0 ⟨.objectProperty, "p"⟩) (.list [.text "x"])
    denoted [e] .single .single = (.ok [e], .single) ∧ (∀ d ∈ [e], (d == e) = true) ∧
      ∀ j : Junction, j.of [e] .single .single = (.error .wrongSort, .single) := by
  intro e
  refine ⟨rfl, by decide, fun j => ?_⟩
  cases j <;> rfl

end Expression

end Authoring
