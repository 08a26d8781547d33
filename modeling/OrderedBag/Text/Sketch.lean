/-!
# Sketches of values

A sketch is the outline of a value, to be written on one line or, with four spaces of indentation
for each level, one item to a line and a comma after each.

* `Sketch.compact` — on one line
* `Sketch.pretty` — one item to a line
-/

namespace OrderedBag

/-- The outline of a value. -/
inductive Sketch
  /-- A text of its own. -/
  | atom (text : String)
  /-- A name and a sketch for each field. -/
  | record (name : String) (fields : List (String × Sketch))
  /-- A name and a sketch for each part. -/
  | tuple (name : String) (parts : List Sketch)
  /-- A sketch for each item, in order. -/
  | list (items : List Sketch)
  /-- A sketch for each member. -/
  | set (members : List Sketch)

namespace Sketch

mutual

/-- The sketch on one line. -/
def compact : Sketch → String
  | atom text => text
  | record name fields => name ++ " \x7b " ++ ", ".intercalate (compactFields fields) ++ " \x7d"
  | tuple name parts => name ++ "(" ++ ", ".intercalate (compactItems parts) ++ ")"
  | list items => "[" ++ ", ".intercalate (compactItems items) ++ "]"
  | set members => "\x7b" ++ ", ".intercalate (compactItems members) ++ "\x7d"

/-- Each sketch on one line. -/
def compactItems : List Sketch → List String
  | [] => []
  | s :: rest => s.compact :: compactItems rest

/-- Each field on one line. -/
def compactFields : List (String × Sketch) → List String
  | [] => []
  | (name, s) :: rest => (name ++ ": " ++ s.compact) :: compactFields rest

end

/-- The blanks in front of a line at some depth. -/
def indentation (depth : Nat) : String :=
  "".pushn ' ' (4 * depth)

/-- Items between brackets, one to a line; nothing stands between the brackets without items. -/
def block (depth : Nat) (opening : String) (items : List String) (closing : String) : String :=
  match items with
  | [] => opening ++ closing
  | items =>
    let lines := items.map fun item => indentation (depth + 1) ++ item ++ ",\n"
    opening ++ "\n" ++ String.join lines ++ indentation depth ++ closing

mutual

/-- The sketch with one item to a line, begun at some depth. -/
def prettyAt (depth : Nat) : Sketch → String
  | atom text => text
  | record name fields => block depth (name ++ " \x7b") (prettyFields (depth + 1) fields) "\x7d"
  | tuple name parts => block depth (name ++ "(") (prettyItems (depth + 1) parts) ")"
  | list items => block depth "[" (prettyItems (depth + 1) items) "]"
  | set members => block depth "\x7b" (prettyItems (depth + 1) members) "\x7d"

/-- Each sketch, begun at some depth. -/
def prettyItems (depth : Nat) : List Sketch → List String
  | [] => []
  | s :: rest => s.prettyAt depth :: prettyItems depth rest

/-- Each field, begun at some depth. -/
def prettyFields (depth : Nat) : List (String × Sketch) → List String
  | [] => []
  | (name, s) :: rest => (name ++ ": " ++ s.prettyAt depth) :: prettyFields depth rest

end

/-- The sketch with one item to a line. -/
def pretty (s : Sketch) : String :=
  s.prettyAt 0

end Sketch

end OrderedBag
