/-!
# Reading whole numbers

A whole number is read from a text as it is written by hand: blanks around it do not count, it may have a
sign, and a single underscore may stand between two digits. Main statement: what is read from digits alone is
their value (`readDigits_append`).
-/

namespace Authoring.Decimal

def isBlank (c : Char) : Bool := c == ' ' || 9 ≤ c.toNat && c.toNat ≤ 13

def digitValue (c : Char) : Nat := c.toNat - '0'.toNat

/-- Reads the rest of a number after its beginning, given the value of that and whether it ends in a digit. -/
def readDigits (value : Nat) (afterDigit : Bool) : List Char → Option Nat
  | [] => if afterDigit then some value else none
  | c :: cs =>
    if c.isDigit then readDigits (value * 10 + digitValue c) true cs
    else if c == '_' && afterDigit then readDigits value false cs
    else none

/-- The whole number that a text reads as. -/
def readWhole (s : String) : Option Int :=
  let trimmed := ((s.toList.dropWhile isBlank).reverse.dropWhile isBlank).reverse
  match trimmed with
  | '-' :: cs => (readDigits 0 false cs).map fun n => -(n : Int)
  | '+' :: cs => (readDigits 0 false cs).map Int.ofNat
  | cs => (readDigits 0 false cs).map Int.ofNat

/-- Digits are read from the left: each stands for ten times the value before it and its own. -/
theorem readDigits_append (value : Nat) (cs rest : List Char) (h : ∀ c ∈ cs, c.isDigit = true) :
    readDigits value true (cs ++ rest) =
      readDigits (cs.foldl (fun n c => n * 10 + digitValue c) value) true rest := by
  induction cs generalizing value with
  | nil => rfl
  | cons c cs ih =>
    have hc : c.isDigit = true := h c (List.mem_cons_self ..)
    simp only [List.cons_append, readDigits, hc, if_true, List.foldl_cons]
    exact ih _ fun d hd => h d (List.mem_cons_of_mem _ hd)

end Authoring.Decimal
