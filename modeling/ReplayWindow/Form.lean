/-!
Labelled text forms of values. A form is a tree of names, labelled fields and
items, and it can be written on one line or spread over indented lines. Both
layouts come from the same tree, so they always show the same content.
-/

namespace ReplayWindow

/-- The tree behind a printed value. A record with `more` set ends in two dots,
which stand for content that is not shown. -/
inductive Form where
  | atom (text : String)
  | field (label : String) (value : Form)
  | list (items : List Form)
  | tuple (name : String) (items : List Form)
  | record (name : String) (fields : List Form) (more : Bool)

namespace Form

mutual

/-- The form on one line. -/
def line : Form → String
  | .atom text => text
  | .field label value => label ++ ": " ++ value.line
  | .list items => "[" ++ ", ".intercalate (itemLines items) ++ "]"
  | .tuple name items => name ++ "(" ++ ", ".intercalate (itemLines items) ++ ")"
  | .record name fields more =>
    name ++ " \x7b " ++ ", ".intercalate (itemLines fields) ++ (if more then ", .." else "") ++
      " \x7d"

def itemLines : List Form → List String
  | [] => []
  | item :: rest => item.line :: itemLines rest

end

/-- An item of a block stands four spaces further in and ends in a comma. -/
def indentItem : List String → List String
  | [] => []
  | [last] => ["    " ++ last ++ ","]
  | first :: rest => ("    " ++ first) :: indentItem rest

def labelFirst (label : String) : List String → List String
  | [] => []
  | first :: rest => (label ++ ": " ++ first) :: rest

mutual

/-- The form as a block of lines, one item to a line. An empty list stays on
its line, and the two dots of an open record take no comma. -/
def block : Form → List String
  | .atom text => [text]
  | .field label value => labelFirst label value.block
  | .list [] => ["[]"]
  | .list (item :: rest) => "[" :: indentItem item.block ++ itemBlocks rest ++ ["]"]
  | .tuple name items => (name ++ "(") :: itemBlocks items ++ [")"]
  | .record name fields more =>
    (name ++ " \x7b") :: itemBlocks fields ++ (if more then ["    .."] else []) ++ ["\x7d"]

def itemBlocks : List Form → List String
  | [] => []
  | item :: rest => indentItem item.block ++ itemBlocks rest

end

/-- The form spread over indented lines. -/
def indented (form : Form) : String := "\n".intercalate form.block

def ofWord (word : UInt64) : Form := .atom (toString word)

def ofBool (flag : Bool) : Form := .atom (if flag then "true" else "false")

end Form

end ReplayWindow
