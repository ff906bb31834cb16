import JsonEmbed.C.Identifier
import JsonEmbed.Options
import JsonEmbed.Tag

/-!
# Declarations

An object is declared as a block of members in the order of its keys. A member holds a scalar, an
array of the observed length, or a nested block; keys whose values have no tag are left out. The
outermost block of a document is a structure, and nested ones are what the options say.

The text of a block is a list of lines, indented by one more tab a level.
-/

namespace JsonEmbed

/-- What kind of aggregate a block is. -/
inductive BlockKind where
  | struct
  | union
  deriving DecidableEq, Inhabited

/-- One member of a block, with its name and the tag of its value. A nested block carries the name
that closes it. -/
inductive Member where
  | scalar (name : String) (tag : Tag)
  | array (name : String) (tag : Tag) (length : Nat)
  | nested (name : String) (tag : Tag) (kind : BlockKind) (blockName : String)
      (members : List Member)
  deriving Inhabited

/-- The declaration of a variable: its aggregate, and its name. -/
structure Block where
  name : String
  kind : BlockKind
  members : List Member
  deriving Inhabited

namespace BlockKind

/-- The C keyword. -/
def keyword : BlockKind → String
  | struct => "struct"
  | union => "union"

/-- The kind of a block at a depth: the outermost is a structure. -/
def atDepth (layout : NestedLayout) : Nat → BlockKind
  | 0 => struct
  | _ + 1 =>
    match layout with
    | .union => union
    | .struct => struct

end BlockKind

namespace Member

/-- The name of a member. -/
def name : Member → String
  | scalar n _ | array n _ _ | nested n _ _ _ _ => n

/-- The tag of a member. -/
def tag : Member → Tag
  | scalar _ t | array _ t _ | nested _ t _ _ _ => t

/-- The member for a key and its value, if the value has a tag. Nested blocks are of the given
kind. -/
def ofJson? (below : BlockKind) (key : String) : Json → Option Member
  | .object ms =>
    some (nested (C.identifier key) .object below (C.identifier key) (ofMembers below ms))
  | .array xs =>
    match Json.arrayTag xs with
    | .invalid => none
    | t => some (array (C.identifier key) t xs.length)
  | v => v.scalarTag?.map (scalar (C.identifier key))
where
  /-- The members for the keys and values of an object. -/
  ofMembers (below : BlockKind) : List (String × Json) → List Member
    | [] => []
    | (key, v) :: rest =>
      match ofJson? below key v with
      | some m => m :: ofMembers below rest
      | none => ofMembers below rest

/-- The start of a line at a level. -/
def tabs (level : Nat) : String :=
  String.ofList (List.replicate level '\t')

/-- The lines of a member at a level. -/
def lines (level : Nat) : Member → List String
  | scalar n t => [tabs level ++ t.cType ++ " " ++ n ++ ";"]
  | array n t length => [tabs level ++ t.elementType ++ " " ++ n ++ "[" ++ Nat.repr length ++ "];"]
  | nested _ _ kind blockName ms =>
    (tabs level ++ kind.keyword ++ " \x7b") :: linesOfAll (level + 1) ms ++
      [tabs level ++ "\x7d " ++ blockName ++ ";"]
where
  /-- The lines of several members at a level. -/
  linesOfAll (level : Nat) : List Member → List String
    | [] => []
    | m :: ms => m.lines level ++ linesOfAll level ms

/-- A member as a JSON value. -/
def toJson : Member → Json
  | scalar n t => record n t (.string "Scalar")
  | array n t length =>
    record n t (.object [("Array", .object [("len", .number (.integer length))])])
  | nested n t kind blockName ms =>
    record n t (.object [("Nested", blockJson blockName kind (toJsonAll ms))])
where
  /-- The three properties of a member. -/
  record (n : String) (t : Tag) (layout : Json) : Json :=
    .object [("name", .string n), ("tag", t.toJson), ("layout", layout)]
  /-- The three properties of a block. -/
  blockJson (n : String) (kind : BlockKind) (members : List Json) : Json :=
    .object [("name", .string n),
      ("kind", .string (match kind with | .struct => "Struct" | .union => "Union")),
      ("fields", .array members)]
  /-- Several members as JSON values. -/
  toJsonAll : List Member → List Json
    | [] => []
    | m :: ms => m.toJson :: toJsonAll ms

end Member

namespace Block

/-- The block for an object at a depth, named after a text. -/
def ofMembers (options : Options) (depth : Nat) (name : String) (ms : List (String × Json)) :
    Block :=
  ⟨C.identifier name, .atDepth options.nestedLayout depth,
    Member.ofJson?.ofMembers (.atDepth options.nestedLayout (depth + 1)) ms⟩

/-- The lines of a block inside the main function, at a depth. -/
def lines (depth : Nat) (b : Block) : List String :=
  (Member.tabs (depth + 1) ++ b.kind.keyword ++ " \x7b") ::
    Member.lines.linesOfAll (depth + 2) b.members ++
      [Member.tabs (depth + 1) ++ "\x7d " ++ b.name ++ ";"]

/-- A block as a JSON value. -/
def toJson (b : Block) : Json :=
  Member.toJson.blockJson b.name b.kind (Member.toJson.toJsonAll b.members)

end Block

end JsonEmbed
