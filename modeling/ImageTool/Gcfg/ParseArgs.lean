import ImageTool.Gcfg.LongEscapes
import ImageTool.Gcfg.ParseNumber
import ImageTool.Util.Reflect

/-!
# Arguments of a configuration line

What stands behind a keyword or the name of a property: a boolean, a quoted string, a number, a
vector of numbers, a size or a word of an enumeration.  A string is decoded into the buffer that
holds its line, from the beginning of the buffer on.
-/

namespace ImageTool.Gcfg

open ImageTool.Lib ImageTool.Util

/-- The bytes of a name that the program has. -/
def bytesOf (s : String) : List UInt8 := s.toList.map fun c => UInt8.ofNat c.toNat

/-- A C string in a property value, a character for each byte. -/
def textOf (bytes : List UInt8) : String := String.ofList (bytes.map fun c => Char.ofNat c.toNat)

/-- `' '` or `'\t'`. -/
def isBlank (c : UInt8) : Bool := c = 32 || c = 9

/-- `skip_space`. -/
def skipSpace (ptr : List UInt8) : List UInt8 := ptr.dropWhile isBlank

/-- `is_line_end`; the byte behind a string is zero. -/
def isLineEnd (c : UInt8) : Bool := c = 0 || c = 35

/-- What is behind a name that a string starts with, if a byte that ends the name follows. -/
def takeWord (ends : UInt8 → Bool) (name ptr : List UInt8) : Option (List UInt8) :=
  if name.isPrefixOf ptr && ends ((ptr.drop name.length).headD 0) then
    some (ptr.drop name.length)
  else none

/-- The byte behind the name of a keyword or a property. -/
def isWordEnd (c : UInt8) : Bool := isBlank c || isLineEnd c

/-- The byte behind a boolean or a word of an enumeration; a comment may not follow at once. -/
def isValueEnd (c : UInt8) : Bool := isBlank c || c = 0

/-- `mapping`. -/
def booleanMapping : List (String × Bool) :=
  [("on", true), ("yes", true), ("true", true), ("off", false), ("no", false), ("false", false)]

/-- The loop over the words of a table, as `gcfg_parse_boolean` and `gcfg_parse_enum` have it. -/
def takeEntry {α : Type} (table : List (String × α)) (input : List UInt8) :
    Option (α × List UInt8) :=
  table.findSome? fun entry =>
    (takeWord isValueEnd (bytesOf entry.1) input).map fun rest => (entry.2, rest)

/-- `gcfg_parse_boolean`. -/
def parseBoolean (input : List UInt8) : Except Report (Bool × List UInt8) :=
  match takeEntry booleanMapping input with
  | some p => .ok p
  | none => .error ⟨"expected boolean value, found '%.6s...'", input.take 6⟩

/-- `gcfg_parse_enum`. -/
def parseEnum (tokens : List (String × BitVec 32)) (input : List UInt8) :
    Except Report (BitVec 32 × List UInt8) :=
  match takeEntry tokens input with
  | some p => .ok p
  | none => .error ⟨"unexpected '%.5s...'", input.take 5⟩

/-- `++in` over one byte that has to be there. -/
def expectByte (c : UInt8) (format : String) (input : List UInt8) :
    Except Report (List UInt8) :=
  if input.headD 0 ≠ c then .error ⟨format, [input.headD 0]⟩ else .ok input.tail

/-- The loop of `gcfg_parse_vector`, with the numbers that are left. -/
def vectorLoop : Nat → Bool → List UInt8 → Except Report (List Number × List UInt8)
  | 0, _, input => .ok ([], input)
  | n + 1, first, input => do
      let input ← if first then .ok input else expectByte 44 "expected ',', found '%c'" input
      let (num, input) ← parseNumber (skipSpace input)
      let (nums, input) ← vectorLoop n false (skipSpace input)
      .ok (num :: nums, input)

/-- `gcfg_parse_vector`. -/
def parseVector (count : Nat) (input : List UInt8) : Except Report (List Number × List UInt8) := do
  let input ← expectByte 40 "expected '(', found '%c'" input
  let (nums, input) ← vectorLoop count true input
  let input ← expectByte 41 "expected ')', found '%c'" input
  .ok (nums, skipSpace input)

/-- The C string at a place of the buffer, which has `size` bytes. -/
def bufferString (mem : Bytes) (size i : Nat) : List UInt8 :=
  (mem.slice i size).takeWhile (· != 0)

/-- `gcfg_parse_string(file, ptr, file->buffer)`: the string at the beginning of the buffer, and
what is behind the closing quote.  `none` is a loop that does not end. -/
def parseStringInPlace (line ptr : List UInt8) :
    Option (Except Report (List UInt8 × List UInt8)) :=
  match parseString (line.length + 1) (lineMemory line) (line.length - ptr.length) 0 with
  | none => none
  | some (_, .error e) => some (.error ⟨e.message, []⟩)
  | some (mem, .ok pos) =>
      some (.ok (bufferString mem (line.length + 1) 0, bufferString mem (line.length + 1) pos))

/-- `GCFG_ARG_TYPE`, and any other value of the 32 bits it is kept in. -/
inductive ArgType where
  | none
  | boolean
  | string
  | number
  | size
  | vec2
  | vec3
  | vec4
  | unknown
  deriving DecidableEq

/-- What the callback of a keyword is given. -/
inductive Arg where
  | none
  | boolean (b : Bool)
  | string (s : List UInt8)
  | numbers (nums : List Number)
  | size (n : Nat)
  deriving DecidableEq

/-- The argument of a keyword as `apply_arg` reads it, and what is behind it. -/
def readArg (type : ArgType) (name line ptr : List UInt8) :
    Option (Except Report (Arg × List UInt8)) :=
  match type with
  | .none => some (.ok (.none, ptr))
  | .boolean => some ((parseBoolean ptr).map (Prod.map .boolean id))
  | .string => (parseStringInPlace line ptr).map (Except.map (Prod.map .string id))
  | .number => some ((parseNumber ptr).map (Prod.map (fun num => .numbers [num]) id))
  | .size => some ((parseSize ptr).map (Prod.map .size id))
  | .vec2 => some ((parseVector 2 ptr).map (Prod.map .numbers id))
  | .vec3 => some ((parseVector 3 ptr).map (Prod.map .numbers id))
  | .vec4 => some ((parseVector 4 ptr).map (Prod.map .numbers id))
  | .unknown => some (.error ⟨"[BUG] unknown argument type for '%s'", name⟩)

/-- The value of a property as `apply_reflection_arg` reads it, and what is behind it. -/
def readValue (desc : PropertyDesc) (line ptr : List UInt8) :
    Option (Except Report (PropertyValue × List UInt8)) :=
  match desc.type with
  | .string => (parseStringInPlace line ptr).map (Except.map (Prod.map (.string ∘ textOf) id))
  | .bool => some ((parseBoolean ptr).map (Prod.map .bool id))
  | .u32Number =>
      some ((decNum ptr 0xFFFFFFFF).map (Prod.map (fun n => .u32Number (n % 2 ^ 32)) id))
  | .u64Number => some ((decNum ptr (2 ^ 64 - 1)).map (Prod.map .u64Number id))
  | .u64Size => some ((parseSize ptr).map (Prod.map .u64Size id))
  | .enum => some ((parseEnum desc.enumEnt ptr).map (Prod.map .enum id))
  | .none => some (.error ⟨"[BUG] unknown data type for '%s'", bytesOf desc.name⟩)

end ImageTool.Gcfg
