import ImageTool.Gcfg.ParseArgs
import ImageTool.Gcfg.ValidUtf8

/-!
# The configuration parser

`gcfg_parse_file` works on lines.  A line sets a property of the object of the block it stands
in, or it has a keyword, whose callback creates an object; behind a `'{'` follow the lines of the
block of that object, or a listing, whose lines go to a callback of the keyword.

Keyword tables are lists that refer to each other, also in circles: a table is named by an index,
and a keyword has the index of the table for its block.  `none` is the null pointer.
-/

namespace ImageTool.Gcfg

open ImageTool.Lib ImageTool.Util

/-- `gcfg_keyword_t`; a callback that returns `NULL` or a negative number fails. -/
structure Keyword (κ ω σ : Type) where
  arg : ArgType
  name : List UInt8
  handle (arg : Arg) (parent : Option ω) : Call σ ω
  children : Option κ
  finalizeObject : Option (ω → Call σ Unit)
  handleListing : Option (ω → List UInt8 → Call σ Bool)

/-- What the parser works with: the keyword tables, the meta objects of an object, `object_drop`,
`report_error`, and whether `fetch_line` fails behind the last line. -/
structure Env (κ ω σ : Type) where
  keywords (table : κ) : List (Keyword κ ω σ)
  chain (obj : ω) : List (MetaObject σ)
  drop (obj : ω) (s : σ) : σ
  report (r : Report) (s : σ) : σ
  fetchFails : Bool

/-- `'{'`. -/
def openBrace : UInt8 := 123

/-- `'}'`. -/
def closeBrace : UInt8 := 125

/-- `(*ptr >= 'a' && *ptr <= 'z') || (*ptr >= 'A' && *ptr <= 'Z')`. -/
def isLetter (c : UInt8) : Bool := (97 ≤ c && c ≤ 122) || (65 ≤ c && c ≤ 90)

variable {κ ω σ : Type}

/-- `find_keyword`. -/
def findKeyword (keywords : List (Keyword κ ω σ)) (ptr : List UInt8) :
    Except Report (Keyword κ ω σ × List UInt8) :=
  if !isLetter (ptr.headD 0) && !isDigit (ptr.headD 0) then
    .error ⟨"Expected keyword, found '%.6s...'", ptr.take 6⟩
  else
    match keywords.findSome? fun kwd =>
        (takeWord isWordEnd kwd.name ptr).map fun rest => (kwd, skipSpace rest) with
    | some found => .ok found
    | none => .error ⟨"Unknown keyword '%.6s...'", ptr.take 6⟩

/-- `object_get_property_count`. -/
def objectGetPropertyCount (chain : List (MetaObject σ)) : Nat :=
  chain.foldl (fun sum m => sum + m.propertyCount) 0

/-- The descriptions of all properties; `none` is an index for which there is none. -/
def propertyDescs (chain : List (MetaObject σ)) : List (Option PropertyDesc) :=
  (List.range (objectGetPropertyCount chain)).map (objectGetPropertyDesc chain)

/-- The loop of `parse` over the properties: the index, the description, and what is behind the
name. -/
def findProperty : List (Option PropertyDesc) → Nat → List UInt8 →
    Option (Nat × PropertyDesc × List UInt8)
  | [], _, _ => none
  | none :: descs, i, ptr => findProperty descs (i + 1) ptr
  | some desc :: descs, i, ptr =>
      match takeWord isWordEnd (bytesOf desc.name) ptr with
      | some rest => some (i, desc, skipSpace rest)
      | none => findProperty descs (i + 1) ptr

namespace Env

variable (env : Env κ ω σ) {α : Type}

/-- Report an error and return -1. -/
def refuse (format : String) (shown : List UInt8) : Call σ α :=
  fun s => .fail (env.report ⟨format, shown⟩ s)

/-- What a function that reads from a line returns; `none` is a loop that does not end. -/
def reading (result : Option (Except Report α)) : Call σ α :=
  match result with
  | none => Call.stuck
  | some (.error r) => env.refuse r.format r.shown
  | some (.ok a) => pure a

/-- `object_drop`. -/
def release (obj : ω) : Call σ Unit := Call.modify (env.drop obj)

/-- Drop an object where a call fails. -/
def orDrop (child : ω) (m : Call σ α) : Call σ α := fun s =>
  match m s with
  | .ok a s => .ok a s
  | .fail s => .fail (env.drop child s)
  | .stuck => .stuck

/-- The object whose properties are looked up, which is none where the parent is `NULL`. -/
def descs (parent : Option ω) : List (Option PropertyDesc) :=
  match parent with
  | none => []
  | some obj => propertyDescs (env.chain obj)

/-- `object_set_property`, and the report where it fails. -/
def setProperty (parent : Option ω) (i : Nat) (desc : PropertyDesc) (value : PropertyValue) :
    Call σ Unit := fun s =>
  match parent with
  | none => .stuck
  | some obj =>
      match objectSetProperty (env.chain obj) i value s with
      | .ok _ s => .ok () s
      | .fail s => env.refuse "error setting property '%s'" (bytesOf desc.name) s
      | .stuck => .stuck

/-- `apply_reflection_arg`. -/
def applyReflectionArg (line ptr : List UInt8) (parent : Option ω) (i : Nat)
    (desc : PropertyDesc) : Call σ (List UInt8) := do
  let (value, rest) ← env.reading (readValue desc line ptr)
  env.setProperty parent i desc value
  pure (skipSpace rest)

/-- `plain_listing`: the lines behind the closing brace. -/
def plainListing (handle : List UInt8 → Call σ Bool) :
    List (List UInt8) → Call σ (List (List UInt8))
  | [] => if env.fetchFails then Call.fail else env.refuse "missing '\x7d' after listing" []
  | line :: lines => do
      if !isValidUtf8 line then env.refuse "encoding error (expected UTF-8)" []
      else
        let last ← handle line
        if last then
          let ptr := skipSpace line
          if ptr.headD 0 ≠ closeBrace then env.refuse "missing '\x7d' after listing" []
          else if !isLineEnd ((skipSpace ptr.tail).headD 0) then
            env.refuse "'\x7b' or '\x7d' must be followed by a line break" []
          else pure lines
        else plainListing handle lines

/-- What `parse` does with the rest of the line of a keyword once its object is created; `nested`
is the call of `parse` for the block. -/
def keywordBlock (nested : κ → Option ω → List (List UInt8) → Call σ (List (List UInt8)))
    (kwd : Keyword κ ω σ) (child : ω) (ptr : List UInt8) (lines : List (List UInt8)) :
    Call σ (List (List UInt8)) :=
  if ptr.headD 0 = openBrace then
    if !isLineEnd ((skipSpace ptr.tail).headD 0) then do
      env.release child
      env.refuse "'\x7b' or '\x7d' must be followed by a line break" []
    else
      match kwd.handleListing with
      | some handle => env.orDrop child (env.plainListing (handle child) lines)
      | none =>
          match kwd.children with
          | none => do
              env.release child
              env.refuse "Unexpected '\x7b' after %s" kwd.name
          | some table => env.orDrop child (nested table (some child) lines)
  else if !isLineEnd (ptr.headD 0) then do
    env.release child
    if kwd.arg = .none then env.refuse "'%s' must be folled by a line break" kwd.name
    else env.refuse "'%s <argument>' must be folled by a line break" kwd.name
  else pure lines

/-- The call of `finalize_object`. -/
def finalize (kwd : Keyword κ ω σ) (child : ω) : Call σ Unit :=
  match kwd.finalizeObject with
  | none => pure ()
  | some f => env.orDrop child (f child)

/-- What `parse` does with a keyword and the line behind it. -/
def keywordLine (nested : κ → Option ω → List (List UInt8) → Call σ (List (List UInt8)))
    (kwd : Keyword κ ω σ) (line ptr : List UInt8) (parent : Option ω)
    (lines : List (List UInt8)) : Call σ (List (List UInt8)) :=
  let haveArgs := !isLineEnd (ptr.headD 0) && ptr.headD 0 ≠ openBrace && ptr.headD 0 ≠ closeBrace
  if !haveArgs ∧ kwd.arg ≠ .none then env.refuse "Missing argument after %s" kwd.name
  else if haveArgs ∧ kwd.arg = .none then env.refuse "%s cannot have any arguments" kwd.name
  else do
    let (arg, rest) ← env.reading (readArg kwd.arg kwd.name line ptr)
    let child ← kwd.handle arg parent
    let lines ← env.keywordBlock nested kwd child (skipSpace rest) lines
    env.finalize kwd child
    env.release child
    pure lines

/-- `parse`: the lines behind the closing brace of the block.  The first number bounds the calls
and the turns of the loop. -/
def parse : Nat → κ → Option ω → Nat → List (List UInt8) → Call σ (List (List UInt8))
  | 0, _, _, _, _ => Call.stuck
  | _ + 1, _, _, level, [] =>
      if env.fetchFails then Call.fail
      else if level ≠ 0 then env.refuse "missing '\x7d' before end-of-file" []
      else pure []
  | fuel + 1, table, parent, level, line :: lines =>
      let ptr := skipSpace line
      if !isValidUtf8 line then env.refuse "encoding error (expected UTF-8)" []
      else
        match findProperty (env.descs parent) 0 ptr with
        | some (i, desc, ptr) => do
            let ptr ← env.applyReflectionArg line ptr parent i desc
            if ptr.headD 0 = openBrace then
              env.refuse "Unexpected '\x7b' after %s" (bytesOf desc.name)
            else if !isLineEnd (ptr.headD 0) then
              env.refuse "'%s <argument>' must be folled by a line break" (bytesOf desc.name)
            else parse fuel table parent level lines
        | none =>
            if isLetter (ptr.headD 0) then do
              let (kwd, ptr) ← env.reading (some (findKeyword (env.keywords table) ptr))
              let lines ← env.keywordLine (fun table parent => parse fuel table parent (level + 1))
                kwd line ptr parent lines
              parse fuel table parent level lines
            else if ptr.headD 0 = closeBrace then
              if level = 0 then env.refuse "Unexpected '\x7d' outside block" []
              else if !isLineEnd ((skipSpace ptr.tail).headD 0) then
                env.refuse "'\x7b' or '\x7d' must be followed by a line break" []
              else pure lines
            else if !isLineEnd (ptr.headD 0) then env.refuse "Unexpected %.6s..." (ptr.take 6)
            else parse fuel table parent level lines

/-- `gcfg_parse_file`; as many lines as there are, and one more, bound the calls. -/
def gcfgParseFile (table : κ) (usr : Option ω) (lines : List (List UInt8)) : Call σ Unit := do
  let _ ← env.parse (lines.length + 1) table usr 0 lines
  pure ()

end Env

end ImageTool.Gcfg
