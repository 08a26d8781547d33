import OrderedBag.Order
import OrderedBag.Text.Display

/-!
# Kinds of elements

Bags hold whole numbers, texts, or texts filed under a number. Each kind has a natural order and
some orders by which it may be sorted instead; under some of those, different elements compare
equal.

* `Tagged` — a text filed under a number, ordered by that number alone
* `Order.magnitude`, `Order.evenFirst`, … — further orders of whole numbers
* `Order.shortFirst`, `Order.caseless`, … — further orders of texts
-/

namespace OrderedBag

/-- A text that is filed under a number. -/
structure Tagged where
  /-- The number, which alone decides order and equality. -/
  key : Int
  /-- The text. -/
  tag : String

namespace Tagged

/-- Only the number counts. -/
instance : Ord Tagged := ⟨compareOn key⟩

instance : Std.TransOrd Tagged :=
  inferInstanceAs (Std.TransCmp (compareOn key))

instance : Shown Tagged where
  display t := toString t.key ++ ":" ++ t.tag
  sketch t :=
    .record "Tagged" [("key", .atom (toString t.key)), ("tag", Shown.sketch t.tag)]

end Tagged

namespace Order

/-! ## Whole numbers -/

/-- By absolute value alone. -/
def magnitudeOnly : Order Int :=
  byKey Int.natAbs

/-- By absolute value, the negative number first. -/
def magnitude : Order Int :=
  magnitudeOnly.thenBy natural

/-- Even numbers before odd ones, each by size. -/
def evenFirst : Order Int :=
  (byKey fun n : Int => n % 2).thenBy natural

/-- By the last digit alone, counted upwards from the next lower multiple of ten. -/
def lastDigit : Order Int :=
  byKey fun n : Int => n % 10

/-! ## Texts -/

/-- By the number of characters alone. -/
def length : Order String :=
  byKey String.length

/-- By the number of characters, then in the order of the alphabet. -/
def shortFirst : Order String :=
  length.thenBy natural

/-- In the order of the alphabet, where capital letters of ASCII count as small ones. -/
def caseless : Order String :=
  byKey fun s : String => s.map Char.toLower

/-- In the order of the alphabet, read from the last character to the first. -/
def fromTheEnd : Order String :=
  byKey fun s : String => s.toList.reverse

/-! ## Filed texts -/

/-- By the text alone. -/
def tagOnly : Order Tagged :=
  byKey Tagged.tag

/-- By the number, then by the text. -/
def keyThenTag : Order Tagged :=
  natural.thenBy tagOnly

end Order

end OrderedBag
