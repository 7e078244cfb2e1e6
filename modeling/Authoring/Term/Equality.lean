import Authoring.Term

/-!
# When two terms are equal

Equality of terms is coarser than having the same parts:

* the language of a literal may be spelled in either case;
* a truth value equals the number it stands for, and a double the whole number that it is;
* a keyword equals the text of its word;
* two sets are equal when they have the same members, in whatever order these are kept and whether or not
  the sets can change, and two maps when they have the same entries;
* two entities are equal whichever factory made them.

It is also a question with a direction. A keyword, asked, finds itself equal to every IRI and literal of its
text; these, asked, know themselves equal only to their like. So the text `label`, the tag of that name and
the IRI `label` are not an equivalence class, and each comparison has to say who is asked.

`Term.agrees` is the one definition behind all of them, in two senses:

* `Term.equals a b` asks `a` about `b`.
* `a == b` is what members of sets and keys of maps are found by: looking for `a` one finds `b`. What is kept
  is asked about what is looked for. Here a literal with a language or a datatype is never taken for a
  keyword, for the two are kept in different places.

Main statement: every term agrees with itself, in both senses and directions (`Term.agrees_refl`).
-/

namespace Authoring

/-- What a number is compared by: the whole number that it is or, for any other double, its bits. -/
inductive Quantity where
  | whole (value : Int)
  | fraction (bits : UInt64)
  deriving DecidableEq

namespace Term

def quantity? : Term → Option Quantity
  | .bool b => some (.whole (if b then 1 else 0))
  | .int n => some (.whole n)
  | .float x =>
    match x.toInt? with
    | some n => some (.whole n)
    | none => some (.fraction x.bits)
  | _ => none

/-- Whether a keyword equals a term that counts as a text. -/
def keywordAgrees (asKey : Bool) (k : Keyword) : Term → Bool
  | .text s => k.word == s
  | .keyword j => k.word == j.word
  | .iri s => k.word == s
  | .literal l => k.word == l.text && (!asKey || l.isPlain)
  | _ => false

/-- Whether a term that holds no other term equals another one. -/
def atomAgrees (asKey : Bool) (left right : Term) : Bool :=
  match left, right with
  | .null, .null => true
  | .text s, .text t => s == t
  | .text s, .keyword k => s == k.word
  | .keyword k, t => keywordAgrees asKey k t
  | .iri s, .iri t => s == t
  | .literal l, .literal m => l.agrees m
  | .entity _ e, .entity _ f => e == f
  | .handle h, .handle j => h == j
  | .closure n _ _ _, .closure m _ _ _ => n == m
  | .naming n _, .naming m _ => n == m
  | .hook s _, .hook t _ => s == t
  | .stats s, .stats t => s == t
  | .settings s, .settings t => s == t
  | .listing l, .listing m => l == m
  | t, u =>
    match t.quantity?, u.quantity? with
    | some m, some n => m == n
    | _, _ => false

mutual
/-- **Whether a term equals another.** The first is asked about the second or, if the question is `turned`,
the second about the first. -/
def agrees (asKey turned : Bool) : Term → Term → Bool
  | .expression o ts c, u =>
    match u with
    | .expression p us d =>
      o.agrees asKey turned p && agreeAll asKey turned ts us && c.agrees asKey turned d
    | _ => false
  | .note p l, u =>
    match u with
    | .note q m => p.agrees asKey turned q && l.agrees m
    | _ => false
  | .fact p t b, u =>
    match u with
    | .fact q s d => p.agrees asKey turned q && t.agrees asKey turned s && b == d
    | _ => false
  | .statement k ts, u =>
    match u with
    | .statement j us => k == j && agreeAll asKey turned ts us
    | _ => false
  | .tuple ts, u =>
    match u with
    | .tuple us => agreeAll asKey turned ts us
    | _ => false
  | .list ts, u =>
    match u with
    | .list us => agreeAll asKey turned ts us
    | _ => false
  | .set _ ts, u =>
    match u with
    | .set _ us =>
      ts.length == us.length && if turned then us.all (fun u => isMember ts u) else areMembers ts us
    | _ => false
  | .map es, u =>
    match u with
    | .map fs =>
      es.length == fs.length &&
        if turned then fs.all (fun f => isEntry asKey es f) else areEntries asKey es fs
    | _ => false
  | t, u => if turned then atomAgrees asKey u t else atomAgrees asKey t u
termination_by structural t => t
/-- Whether the terms of two lists agree one by one. -/
def agreeAll (asKey turned : Bool) : List Term → List Term → Bool
  | [], us => us.isEmpty
  | t :: ts, us =>
    match us with
    | [] => false
    | u :: us => t.agrees asKey turned u && agreeAll asKey turned ts us
termination_by structural ts => ts
/-- Whether a term is found among the members of a set, which are asked about it. -/
def isMember : List Term → Term → Bool
  | [], _ => false
  | t :: ts, u => t.agrees true false u || isMember ts u
termination_by structural ts => ts
/-- Whether each of some terms is found among the members of a set. -/
def areMembers : List Term → List Term → Bool
  | [], _ => true
  | t :: ts, us => us.any (fun u => t.agrees true true u) && areMembers ts us
termination_by structural ts => ts
/-- Whether an entry is found among those of a map: its key by the keys, and there its value. -/
def isEntry (asKey : Bool) : List (Term × Term) → Term × Term → Bool
  | [], _ => false
  | e :: es, f => entryAgrees asKey false true e f || isEntry asKey es f
termination_by structural es => es
/-- Whether each of some entries is found among those of a map. -/
def areEntries (asKey : Bool) : List (Term × Term) → List (Term × Term) → Bool
  | [], _ => true
  | e :: es, fs => fs.any (fun f => entryAgrees asKey true false e f) && areEntries asKey es fs
termination_by structural es => es
def entryAgrees (asKey keyTurned turned : Bool) : Term × Term → Term × Term → Bool
  | (k, v), f => k.agrees true keyTurned f.1 && v.agrees asKey turned f.2
termination_by structural e => e
end

/-- Looking for the first term one finds the second. -/
instance : BEq Term where
  beq a b := a.agrees true true b

/-- Whether a term is a number that does not equal itself when asked. -/
def isNaN : Term → Bool
  | .float x => x.isNaN
  | _ => false

/-- The answer of the first term, asked about the second. -/
def equals (a b : Term) : Bool := a.agrees false false b && !(a.isNaN && b.isNaN)

/-- A set of the given terms: of several equal ones the first is kept. -/
def setOf (frozen : Bool) (ts : List Term) : Term := .set frozen ts.eraseDups

/-! ## Every term agrees with itself -/

theorem areMembers_of_forall {ts us : List Term}
    (h : ∀ t ∈ ts, ∃ u ∈ us, t.agrees true true u = true) : areMembers ts us = true := by
  induction ts with
  | nil => rfl
  | cons t ts ih =>
    simp only [areMembers, Bool.and_eq_true, List.any_eq_true]
    exact ⟨h t (List.mem_cons_self ..), ih fun s hs => h s (List.mem_cons_of_mem _ hs)⟩

theorem isMember_of_mem {ts : List Term} {t u : Term} (ht : t ∈ ts)
    (h : t.agrees true false u = true) : isMember ts u = true := by
  induction ts with
  | nil => cases ht
  | cons s ts ih =>
    simp only [isMember, Bool.or_eq_true]
    rcases List.mem_cons.1 ht with rfl | ht
    · exact .inl h
    · exact .inr (ih ht)

theorem areEntries_of_forall {asKey : Bool} {es fs : List (Term × Term)}
    (h : ∀ e ∈ es, ∃ f ∈ fs, entryAgrees asKey true false e f = true) :
    areEntries asKey es fs = true := by
  induction es with
  | nil => rfl
  | cons e es ih =>
    simp only [areEntries, Bool.and_eq_true, List.any_eq_true]
    exact ⟨h e (List.mem_cons_self ..), ih fun s hs => h s (List.mem_cons_of_mem _ hs)⟩

theorem isEntry_of_mem {asKey : Bool} {es : List (Term × Term)} {e f : Term × Term} (he : e ∈ es)
    (h : entryAgrees asKey false true e f = true) : isEntry asKey es f = true := by
  induction es with
  | nil => cases he
  | cons s es ih =>
    simp only [isEntry, Bool.or_eq_true]
    rcases List.mem_cons.1 he with rfl | he
    · exact .inl h
    · exact .inr (ih he)

theorem agreeAll_of_forall {asKey turned : Bool} {ts : List Term}
    (h : ∀ t ∈ ts, t.agrees asKey turned t = true) : agreeAll asKey turned ts ts = true := by
  induction ts with
  | nil => rfl
  | cons t ts ih =>
    simp only [agreeAll, Bool.and_eq_true]
    exact ⟨h t (List.mem_cons_self ..), ih fun s hs => h s (List.mem_cons_of_mem _ hs)⟩

/-- **Every term agrees with itself**, in both senses and directions. -/
theorem agrees_refl (asKey turned : Bool) (t : Term) : t.agrees asKey turned t = true :=
  match t with
  | .expression o ts c => by
    have hts : agreeAll asKey turned ts ts = true := agreeAll_of_forall fun t ht => by
      have := List.sizeOf_lt_of_mem ht
      exact agrees_refl asKey turned t
    simp [agrees, hts, agrees_refl asKey turned o, agrees_refl asKey turned c]
  | .note p l => by simp [agrees, agrees_refl asKey turned p, Literal.agrees_refl]
  | .fact p t b => by simp [agrees, agrees_refl asKey turned p, agrees_refl asKey turned t]
  | .statement k ts => by
    have hts : agreeAll asKey turned ts ts = true := agreeAll_of_forall fun t ht => by
      have := List.sizeOf_lt_of_mem ht
      exact agrees_refl asKey turned t
    simp [agrees, hts]
  | .tuple ts => agreeAll_of_forall fun t ht => by
    have := List.sizeOf_lt_of_mem ht
    exact agrees_refl asKey turned t
  | .list ts => agreeAll_of_forall fun t ht => by
    have := List.sizeOf_lt_of_mem ht
    exact agrees_refl asKey turned t
  | .set _ ts => by
    have hts : ∀ t ∈ ts, ∀ b, t.agrees true b t = true := fun t ht b => by
      have := List.sizeOf_lt_of_mem ht
      exact agrees_refl true b t
    cases turned with
    | true =>
      simp only [agrees, beq_self_eq_true, Bool.true_and, if_true, List.all_eq_true]
      exact fun t ht => isMember_of_mem ht (hts t ht false)
    | false =>
      simp only [agrees, beq_self_eq_true, Bool.true_and, Bool.false_eq_true, if_false]
      exact areMembers_of_forall fun t ht => ⟨t, ht, hts t ht true⟩
  | .map es => by
    have hes : ∀ e ∈ es, ∀ b c, entryAgrees asKey b c e e = true := fun e he b c => by
      obtain ⟨k, v⟩ := e
      have : 1 + sizeOf k + sizeOf v < sizeOf es := List.sizeOf_lt_of_mem he
      simp [entryAgrees, agrees_refl true b k, agrees_refl asKey c v]
    cases turned with
    | true =>
      simp only [agrees, beq_self_eq_true, Bool.true_and, if_true, List.all_eq_true]
      exact fun e he => isEntry_of_mem he (hes e he false true)
    | false =>
      simp only [agrees, beq_self_eq_true, Bool.true_and, Bool.false_eq_true, if_false]
      exact areEntries_of_forall fun e he => ⟨e, he, hes e he true false⟩
  | .null | .bool _ | .int _ | .text _ | .iri _ | .keyword _ | .entity .. | .handle _ | .closure ..
  | .naming .. | .hook .. | .stats _ | .settings _ | .listing _ => by
    cases turned <;> simp [agrees, atomAgrees, keywordAgrees, quantity?]
  | .literal l => by cases turned <;> simp [agrees, atomAgrees, Literal.agrees_refl]
  | .float x => by
    cases turned <;> simp only [agrees, atomAgrees, quantity?] <;> cases x.toInt? <;> simp
termination_by sizeOf t
decreasing_by
  all_goals simp_wf
  all_goals omega

instance : ReflBEq Term where
  rfl := agrees_refl true true _

end Term

end Authoring
