import Authoring.Term.Equality

/-!
# Frames

A frame is a tag with values: one facet of an entity, such as its superclasses or its labels. Frames are
written freely: a tag in any case, with colons in front, or by another name; a value alone, in a list, in
nested lists, or null. `FrameMap.normalize` brings them to one shape, a flat list of values for each tag, and
`FrameMap.merge` joins two sets of frames, the defaults before the explicit ones.

A key that names no tag is kept as it is, so that it can be reported.
-/

namespace Authoring

namespace FrameTag

/-- A text as tags and characteristics are read: without the colons in front, in lower case. -/
def fold (s : String) : String :=
  String.ofList ((s.toList.dropWhile (· == ':')).map Char.toLower)

/-- The other names of tags. -/
def aliases : List (String × FrameTag) := [
  ("inverseof", .inverse),
  ("inverse_of", .inverse),
  ("subpropertyof", .superproperty),
  ("subproperty", .superproperty),
  ("sub_property_of", .superproperty),
  ("characteristics", .characteristic)]

/-- The tag that a text names. -/
def ofText? (s : String) : Option FrameTag :=
  let word := fold s
  match aliases.lookup word with
  | some t => some t
  | none => all.find? (·.word == word)

/-- The tag that a term names: a tag itself, or a text that names one. -/
def ofTerm? : Term → Option FrameTag
  | .keyword (.tag t) => some t
  | t => t.content?.bind ofText?

/-- The tags of annotations, which every kind of entity takes. -/
def forAll : List FrameTag := [.note, .comment, .label]

/-- The tags that a kind of entity takes. -/
def allowed : EntityKind → List FrameTag
  | .cls => [.name, .subclass, .equivalent, .disjoint] ++ forAll
  | .objectProperty => [.domain, .range, .inverse, .superproperty, .characteristic] ++ forAll
  | .annotationProperty => [.superproperty] ++ forAll
  | .individual => [.type, .fact, .same, .different] ++ forAll

/-- Every tag is named by its own word. -/
theorem ofText?_word (t : FrameTag) : ofText? t.word = some t := by cases t <;> decide +kernel

end FrameTag

namespace Characteristic

/-- The characteristic that a text names; underscores and hyphens do not count. -/
def ofText? (s : String) : Option Characteristic :=
  let word := String.ofList ((FrameTag.fold s).toList.filter fun c => c != '_' && c != '-')
  all.find? (·.word == word)

/-- The characteristic that a term names: a characteristic itself, or a text that names one. -/
def ofTerm? : Term → Option Characteristic
  | .keyword (.characteristic c) => some c
  | t => t.content?.bind ofText?

end Characteristic

/-! ## Flat values -/

namespace Term

mutual
/-- The leaves of nested lists and tuples, in order, without the nulls. A term that is no list or tuple is
its own only leaf. -/
def flatten : Term → List Term
  | .null => []
  | .list ts => flattenAll ts
  | .tuple ts => flattenAll ts
  | t => [t]
def flattenAll : List Term → List Term
  | [] => []
  | t :: ts => t.flatten ++ flattenAll ts
end

theorem flattenAll_eq_flatMap (ts : List Term) : flattenAll ts = ts.flatMap flatten := by
  induction ts with
  | nil => rfl
  | cons t ts ih => simp [flattenAll, ih]

theorem flattenAll_append (ts us : List Term) : flattenAll (ts ++ us) = flattenAll ts ++ flattenAll us := by
  simp [flattenAll_eq_flatMap]

end Term

/-! ## Frame maps -/

/-- The values of each tag, in the order in which the tags first came. -/
abbrev FrameMap := List (Term × List Term)

namespace FrameMap

/-- The key under which the values of a written key are kept. -/
def keyOf (k : Term) : Term :=
  match FrameTag.ofTerm? k with
  | some t => Term.ofTag t
  | none => k

/-- The values of a key; none if it is absent. -/
def valuesOf (m : FrameMap) (k : Term) : List Term := (m.lookup k).getD []

/-- Adds values at the end of those of a key. -/
def extend (k : Term) (vs : List Term) : FrameMap → FrameMap
  | [] => [(k, vs)]
  | e :: es => if k == e.1 then (e.1, e.2 ++ vs) :: es else e :: extend k vs es

/-- The frames of written entries, entry by entry on top of those that are there. -/
def extendAll (m : FrameMap) (es : List (Term × Term)) : FrameMap :=
  es.foldl (fun m e => extend (keyOf e.1) e.2.flatten m) m

/-- **Written frames in one shape**: a flat list of values for each tag. -/
def normalize (es : List (Term × Term)) : FrameMap := extendAll [] es

/-- **Two sets of frames in one**: for each tag the values of the defaults, then the explicit ones. -/
def merge (defaults explicit : List (Term × Term)) : FrameMap :=
  (normalize explicit).foldl (fun m e => extend e.1 e.2 m) (normalize defaults)

/-- Frames as entries of a map. -/
def entries (m : FrameMap) : List (Term × Term) := m.map fun e => (e.1, .tuple e.2)

def toTerm (m : FrameMap) : Term := .map m.entries

end FrameMap

end Authoring
