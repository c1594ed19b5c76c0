import Freshen.Text.Printable

/-!
# Dumps of values

A `Dump` describes a value for inspection: records with named fields, applied names, lists, and
atoms whose text is fixed.  It has two written forms.

- `Dump.compact`: on one line.
- `Dump.pretty`: one field or element per line, four blanks deeper than what holds it, each with a
  comma after it; an empty list stays `[]`.
- `Dump.quoted`: a string as an atom; what is not printable is written as an escape.
-/

namespace Freshen

/-- A value as a reader of a dump sees it. -/
inductive Dump where
  /-- A value whose text is the same in both forms. -/
  | atom (text : String)
  /-- `name { field: value, … }`. -/
  | record (name : String) (fields : List (String × Dump))
  /-- `name(arg, …)`. -/
  | apply (name : String) (args : List Dump)
  /-- `[item, …]`. -/
  | list (items : List Dump)

namespace Dump

/-- How one character is written inside a quoted string. -/
def quotedChar (c : Char) : String :=
  if c = '\x00' then "\\0"
  else if c = '\t' then "\\t"
  else if c = '\r' then "\\r"
  else if c = '\n' then "\\n"
  else if c = '"' then "\\\""
  else if c = '\\' then "\\\\"
  else if Printable.isPrintable c then String.singleton c
  else "\\u\x7b" ++ String.ofList (Nat.toDigits 16 c.toNat) ++ "\x7d"

/-- A string between quotes; what is not printable is written as an escape. -/
def quoted (text : String) : String :=
  "\"" ++ String.join (text.toList.map quotedChar) ++ "\""

/-- A string value. -/
def ofString (text : String) : Dump := atom (quoted text)

/-- An identifier. -/
def ofName (name : String) : Dump := atom ("Name(" ++ quoted name ++ ")")

/-- An optional value. -/
def ofOption : Option Dump → Dump
  | none => atom "None"
  | some d => apply "Some" [d]

/-- A truth value. -/
def ofBool (b : Bool) : Dump := atom (if b then "true" else "false")

mutual

/-- The written form on one line. -/
def compact : Dump → String
  | atom text => text
  | record name fields => name ++ " \x7b " ++ ", ".intercalate (compactFields fields) ++ " \x7d"
  | apply name args => name ++ "(" ++ ", ".intercalate (compactList args) ++ ")"
  | list items => "[" ++ ", ".intercalate (compactList items) ++ "]"
termination_by structural d => d

/-- The written forms of several values. -/
def compactList : List Dump → List String
  | [] => []
  | d :: ds => compact d :: compactList ds
termination_by structural ds => ds

/-- The written forms of several fields. -/
def compactFields : List (String × Dump) → List String
  | [] => []
  | ⟨key, d⟩ :: fields => (key ++ ": " ++ compact d) :: compactFields fields
termination_by structural fields => fields

end

/-- The blanks in front of a line at nesting depth `level`. -/
def margin (level : Nat) : String := String.ofList (List.replicate (4 * level) ' ')

mutual

/-- The written form on several lines; `level` is the nesting depth of the value. -/
def prettyAt (level : Nat) : Dump → String
  | atom text => text
  | record name fields =>
      name ++ " \x7b\n" ++ prettyFields (level + 1) fields ++ margin level ++ "\x7d"
  | apply name args => name ++ "(\n" ++ prettyList (level + 1) args ++ margin level ++ ")"
  | list items =>
      if items.isEmpty then "[]"
      else "[\n" ++ prettyList (level + 1) items ++ margin level ++ "]"
termination_by structural d => d

/-- Several values, each on lines of its own. -/
def prettyList (level : Nat) : List Dump → String
  | [] => ""
  | d :: ds => margin level ++ prettyAt level d ++ ",\n" ++ prettyList level ds
termination_by structural ds => ds

/-- Several fields, each on lines of its own. -/
def prettyFields (level : Nat) : List (String × Dump) → String
  | [] => ""
  | ⟨key, d⟩ :: fields =>
      margin level ++ key ++ ": " ++ prettyAt level d ++ ",\n" ++ prettyFields level fields
termination_by structural fields => fields

end

/-- The written form on several lines. -/
def pretty (d : Dump) : String := prettyAt 0 d

end Dump

end Freshen
