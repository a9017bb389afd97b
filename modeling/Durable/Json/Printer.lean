import Durable.Json.Basic

/-!
# The text of a JSON value

No blanks between the parts of a value.
-/

namespace Durable.Json

mutual

/-- The bytes of a value. -/
def render : Json → List UInt8
  | .null => [0x6E, 0x75, 0x6C, 0x6C]
  | .bool true => [0x74, 0x72, 0x75, 0x65]
  | .bool false => [0x66, 0x61, 0x6C, 0x73, 0x65]
  | .num literal => literal
  | .str raw => 0x22 :: raw ++ [0x22]
  | .arr items => 0x5B :: renderItems items ++ [0x5D]
  | .obj members => 0x7B :: renderMembers members ++ [0x7D]

/-- The bytes of the items of an array. -/
def renderItems : List Json → List UInt8
  | [] => []
  | [j] => render j
  | j :: k :: rest => render j ++ 0x2C :: renderItems (k :: rest)

/-- The bytes of the members of an object. -/
def renderMembers : List (List UInt8 × Json) → List UInt8
  | [] => []
  | [(name, j)] => 0x22 :: name ++ 0x22 :: 0x3A :: render j
  | (name, j) :: m :: rest =>
    0x22 :: name ++ 0x22 :: 0x3A :: render j ++ 0x2C :: renderMembers (m :: rest)

end

end Durable.Json
