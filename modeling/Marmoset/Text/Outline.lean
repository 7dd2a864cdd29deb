/-!
# Outlines

An outline shows nested data on many lines: each part stands on a line of its own, four blanks
deeper than the thing it belongs to, and ends in a comma.
-/

namespace Marmoset.Text

/-- Nested data to be shown. -/
inductive Outline where
  /-- A text that needs no lines of its own. -/
  | leaf (text : String)
  /-- A name and parts without names, between parentheses; the name may be empty. -/
  | tuple (name : String) (parts : List Outline)
  /-- A name and parts with names, between braces. -/
  | record (name : String) (parts : List (String × Outline))
  /-- Items between brackets. -/
  | list (items : List Outline)

namespace Outline

def margin (depth : Nat) : String :=
  String.ofList (List.replicate (4 * depth) ' ')

mutual

/-- The text of an outline whose first line starts at the given depth. -/
def textAt (depth : Nat) : Outline → String
  | leaf text => text
  | tuple name parts =>
    name ++ "(\n" ++ String.join (partLines (depth + 1) parts) ++ margin depth ++ ")"
  | record name parts =>
    name ++ " \x7b\n" ++ String.join (fieldLines (depth + 1) parts) ++ margin depth ++ "\x7d"
  | list [] => "[]"
  | list (item :: items) =>
    "[\n" ++ margin (depth + 1) ++ item.textAt (depth + 1) ++ ",\n" ++
      String.join (partLines (depth + 1) items) ++ margin depth ++ "]"
termination_by structural o => o

def partLines (depth : Nat) : List Outline → List String
  | [] => []
  | part :: parts => (margin depth ++ part.textAt depth ++ ",\n") :: partLines depth parts
termination_by structural parts => parts

def fieldLines (depth : Nat) : List (String × Outline) → List String
  | [] => []
  | (name, part) :: parts =>
    (margin depth ++ name ++ ": " ++ part.textAt depth ++ ",\n") :: fieldLines depth parts
termination_by structural parts => parts

end

/-- The text of an outline. -/
def text (o : Outline) : String :=
  o.textAt 0

end Outline

end Marmoset.Text
