/-!
# Layouts of structured text

A structured text is a record with named fields, a tuple or a list. On one line (`Layout.flat`) its parts
follow each other after commas. On several lines (`Layout.block`) every part has its own lines, ends in a
comma and is indented by one step more than the whole; the layout says how deep the whole stands.

A part is itself laid out before it is put into the whole, with the layout `Layout.inner`. Text in which lines
end (`Layout.lines`) is indented like everything around it, on every line, also on one that holds nothing.
-/

namespace TreeWalk

inductive Layout where
  | flat
  /-- On several lines, in a text that is indented by `depth` steps. -/
  | block (depth : Nat)
  deriving DecidableEq

namespace Layout

def inner : Layout → Layout
  | flat => flat
  | block depth => block (depth + 1)

/-- The blanks at the start of a line. -/
def margin (depth : Nat) : String := String.ofList (List.replicate (4 * depth) ' ')

/-- Text that may have several lines of its own. -/
def lines (layout : Layout) (s : String) : String :=
  match layout with
  | flat => s
  | block depth => String.ofList (s.toList.flatMap fun c => if c = '\n' then c :: (margin depth).toList else [c])

/-- What stands between the opening of a text and its first part: a space on one line, or a new line. -/
def lead (layout : Layout) (space : String) : String :=
  match layout with
  | flat => space
  | block depth => "\n" ++ margin (depth + 1)

/-- What stands between two parts: a comma and a blank, or a comma and a new line. -/
def separator : Layout → String
  | flat => ", "
  | block depth => ",\n" ++ margin (depth + 1)

/-- What stands between the last part of a text and its closing: a space on one line, or a comma and a new line. -/
def trail (layout : Layout) (space : String) : String :=
  match layout with
  | flat => space
  | block depth => ",\n" ++ margin depth

/-- The parts of a text, of which there is at least one, between what opens and what closes it on one line, or
on lines of their own. -/
def enclose (layout : Layout) (opening closing space : String) (parts : List String) : String :=
  opening ++ layout.lead space ++ layout.separator.intercalate parts ++ layout.trail space ++ closing

/-- A record: its name, and its fields with their names in braces. A record has at least one field. -/
def record (layout : Layout) (name : String) (fields : List (String × String)) : String :=
  layout.enclose (name ++ " \x7b") "\x7d" " " (fields.map fun (field, text) => field ++ ": " ++ text)

/-- A tuple: its name, and its items in parentheses. A tuple has at least one item. -/
def tuple (layout : Layout) (name : String) (items : List String) : String :=
  layout.enclose (name ++ "(") ")" "" items

/-- A list: its items in brackets. -/
def list (layout : Layout) (items : List String) : String :=
  if items.isEmpty then "[]" else layout.enclose "[" "]" "" items

def option (layout : Layout) : Option String → String
  | none => "None"
  | some item => layout.tuple "Some" [item]

end Layout

end TreeWalk
