import Authoring.Text.Quoted
import Authoring.Vocabulary

/-!
# Literals

A literal is a text with a language, with a datatype, or with neither. Its language may be spelled in either
case: two literals are equal when their texts and datatypes agree exactly and their languages agree but for
case, although each keeps the spelling that it was given.

A language is one or more letters, then any number of groups of letters and digits, each after a hyphen
(`isLanguage`). It may be taken from a value that only counts as a text, and then it is listed and shown in
messages as that value is, while its `content` is what decides equality.
-/

namespace Authoring

/-- The language of a literal: its text, and the forms in which it is listed and shown. -/
structure Language where
  content : String
  written : String
  shown : String
  deriving DecidableEq, Repr, Inhabited

namespace Language

/-- The language that a text names. -/
def ofText (s : String) : Language := ⟨s, s, Text.quote s⟩

/-- The lower case of an ASCII letter; every other character is its own. -/
def lowerCase (s : String) : String := String.ofList (s.toList.map Char.toLower)

/-- Languages agree when they differ at most in case. -/
def agrees (g h : Language) : Bool := lowerCase g.content == lowerCase h.content

theorem agrees_refl (g : Language) : g.agrees g = true := by simp [agrees]

theorem agrees_comm (g h : Language) : g.agrees h = h.agrees g := by
  simp only [agrees]
  exact Bool.beq_comm

end Language

structure Literal where
  text : String
  language : Option Language
  datatype : Option String
  deriving DecidableEq, Repr, Inhabited

namespace Literal

/-- A plain literal. -/
def plain (text : String) : Literal := ⟨text, none, none⟩

/-- Whether a literal is nothing but its text. -/
def isPlain (l : Literal) : Bool := l.language.isNone && l.datatype.isNone

/-- Whether two literals are equal. -/
def agrees (l m : Literal) : Bool :=
  l.text == m.text && l.datatype == m.datatype &&
    match l.language, m.language with
    | none, none => true
    | some g, some h => g.agrees h
    | _, _ => false

theorem agrees_refl (l : Literal) : l.agrees l = true := by
  cases h : l.language <;> simp [agrees, h, Language.agrees_refl]

theorem agrees_comm (l m : Literal) : l.agrees m = m.agrees l := by
  simp only [agrees, Bool.beq_comm (a := l.text), Bool.beq_comm (a := l.datatype)]
  cases l.language <;> cases m.language <;> simp [Language.agrees_comm]

/-- Whether characters are zeros, at least one of them at the end, and with a point among or before them if
one may stand there. -/
def areZeros (point : Bool) : List Char → Bool
  | ['0'] => true
  | '0' :: rest => areZeros point rest
  | '.' :: rest => point && areZeros false rest
  | _ => false

/-- Whether a text spells zero. -/
def isZero (point : Bool) (s : String) : Bool :=
  match s.toList with
  | '-' :: rest | '+' :: rest => areZeros point rest
  | digits => areZeros point digits

/-- The datatypes of whole numbers. -/
def wholeNumbers : List String :=
  ["integer", "long", "int", "short", "byte", "nonNegativeInteger", "positiveInteger", "nonPositiveInteger",
    "negativeInteger", "unsignedLong", "unsignedInt", "unsignedShort", "unsignedByte"].map Vocabulary.xsd

/-- The datatypes of numbers with a point. -/
def pointedNumbers : List String := ["decimal", "double", "float"].map Vocabulary.xsd

/-- Whether a literal counts as true: that of a number or truth value as the value does, any other if its text
is not empty. What spells no number, although its datatype is one of numbers, counts by its text too. -/
def isTruthy (l : Literal) : Bool :=
  l.text != "" &&
    match l.datatype with
    | none => true
    | some d =>
      if d = Vocabulary.xsd "boolean" then ["true", "1"].contains (Language.lowerCase l.text)
      else if d ∈ wholeNumbers then !isZero false l.text
      else if d ∈ pointedNumbers then !isZero true l.text
      else true

/-- The part of a language from a given point on: `started` says whether the group that is being read has a
character yet, and `letters` whether it is the first group, which holds letters only. -/
def isLanguageFrom (letters started : Bool) : List Char → Bool
  | [] => started
  | ['\n'] => started
  | c :: rest =>
    if c = '-' then started && isLanguageFrom false false rest
    else (c.isAlpha || !letters && c.isDigit) && isLanguageFrom letters true rest

/-- Whether a text is a language: letters, then groups of letters and digits after hyphens. One line break
at its end is let through. -/
def isLanguage (s : String) : Bool := isLanguageFrom true false s.toList

/-- A literal as a value is written: its text between double quotes, then its language or datatype. -/
def written (l : Literal) : String :=
  Text.quoteDouble l.text ++
    match l.language, l.datatype with
    | some g, _ => "@" ++ g.written
    | none, some d => "^^<" ++ d ++ ">"
    | none, none => ""

/-- A literal as messages show it. -/
def inspect (l : Literal) : String :=
  let language := match l.language with
    | some g => ", lang=" ++ g.shown
    | none => ""
  let datatype := match l.datatype with
    | some d => ", datatype=rdflib.term.URIRef(" ++ Text.quote d ++ ")"
    | none => ""
  "rdflib.term.Literal(" ++ Text.quote l.text ++ language ++ datatype ++ ")"

end Literal

end Authoring
