import ChipEight.Numeral

/-!
# JSON documents

The part of JSON that a report needs, and its written form: two blanks of indentation
a level, members in their given order, and nothing between the brackets of an empty
array or object.
-/

namespace ChipEight

/-- A JSON document whose numbers are natural. -/
inductive Json
  | number (value : Nat)
  | string (text : String)
  | array (items : List Json)
  | object (members : List (String × Json))

namespace Json

/-- A character inside a string. -/
def escape (c : Char) : String :=
  if c = '"' then "\\\""
  else if c = '\\' then "\\\\"
  else if c = '\n' then "\\n"
  else if c = '\r' then "\\r"
  else if c = '\t' then "\\t"
  else if c.toNat = 8 then "\\b"
  else if c.toNat = 12 then "\\f"
  else if c.toNat < 32 then "\\u" ++ Numeral.lowerHex 4 c.toNat
  else c.toString

/-- A text as a string. -/
def quote (text : String) : String :=
  "\"" ++ String.join (text.toList.map escape) ++ "\""

/-- The start of a line at a level. -/
def newline (level : Nat) : String :=
  "\n" ++ String.ofList (List.replicate (2 * level) ' ')

mutual

/-- The pieces of a document that stands at a level. -/
def pieces (level : Nat) : Json → List String
  | number value => [toString value]
  | string text => [quote text]
  | array [] => ["[]"]
  | array (item :: items) =>
    "[" :: newline (level + 1) :: pieces (level + 1) item ++
      itemPieces (level + 1) items ++ [newline level, "]"]
  | object [] => ["\x7b\x7d"]
  | object (member :: members) =>
    "\x7b" :: newline (level + 1) :: memberPieces (level + 1) member ++
      restPieces (level + 1) members ++ [newline level, "\x7d"]

/-- The pieces of the items after the first. -/
def itemPieces (level : Nat) : List Json → List String
  | [] => []
  | item :: items => "," :: newline level :: pieces level item ++ itemPieces level items

/-- The pieces of a member. -/
def memberPieces (level : Nat) : String × Json → List String
  | (key, value) => quote key :: ": " :: pieces level value

/-- The pieces of the members after the first. -/
def restPieces (level : Nat) : List (String × Json) → List String
  | [] => []
  | member :: members =>
    "," :: newline level :: memberPieces level member ++ restPieces level members

end

/-- The written form of a document. -/
def text (document : Json) : String :=
  String.join (pieces 0 document)

end Json

end ChipEight
