import ImageTool.Gcfg.ParseFile

/-!
# Configuration items

What a configuration says, apart from how it is written: property settings, and objects with
their arguments, blocks and listings.  `Env.exec` is what it does, and `Shows` how it may be
written: an item on each line, with comments, empty lines and blanks where the parser skips them.

Which lines of a block set properties depends on the object of the block, and objects of one
keyword may differ in their properties.  So a block comes with the properties that its lines are
read with, and carrying it out requires that its object has just these.
-/

namespace ImageTool.Gcfg

open ImageTool.Lib ImageTool.Util

variable {κ ω σ : Type}

/-- The items of a block. -/
inductive Items (κ ω σ : Type) where
  | nil
  | setting (i : Nat) (desc : PropertyDesc) (value : PropertyValue) (more : Items κ ω σ)
  | object (kwd : Keyword κ ω σ) (arg : Arg) (more : Items κ ω σ)
  | listing (kwd : Keyword κ ω σ) (arg : Arg) (body : List (List UInt8)) (last : List UInt8)
      (more : Items κ ω σ)
  | block (kwd : Keyword κ ω σ) (arg : Arg) (descs : List (Option PropertyDesc))
      (inner : Items κ ω σ) (more : Items κ ω σ)

/-! ## What items do -/

namespace Env

variable (env : Env κ ω σ)

/-- Create an object, do something with it, finalize it and drop it. -/
def withObject (kwd : Keyword κ ω σ) (arg : Arg) (parent : Option ω) (m : ω → Call σ Unit) :
    Call σ Unit := do
  let child ← kwd.handle arg parent
  env.orDrop child (m child)
  env.finalize kwd child
  env.release child

/-- The lines of a listing: the callback reports the end at the last one, and not before. -/
def feedListing (feed : List UInt8 → Call σ Bool) (last : List UInt8) :
    List (List UInt8) → Call σ Unit
  | [] => do
      let stop ← feed last
      if stop then pure () else Call.fail
  | line :: body => do
      let stop ← feed line
      if stop then Call.fail else feedListing feed last body

/-- A listing for an object whose keyword has a callback for it. -/
def feedObject (kwd : Keyword κ ω σ) (child : ω) (body : List (List UInt8)) (last : List UInt8) :
    Call σ Unit :=
  match kwd.handleListing with
  | none => Call.fail
  | some feed => feedListing (feed child) last body

/-- The items of a block, for an object with the properties that the block is read with. -/
def within (descs : List (Option PropertyDesc)) (m : Option ω → Call σ Unit) (child : ω) :
    Call σ Unit :=
  if env.descs (some child) = descs then m (some child) else Call.fail

/-- Carry out items, for the object of the block that they stand in. -/
def exec : Items κ ω σ → Option ω → Call σ Unit
  | .nil, _ => pure ()
  | .setting i desc value more, parent => do
      env.setProperty parent i desc value
      exec more parent
  | .object kwd arg more, parent => do
      env.withObject kwd arg parent fun _ => pure ()
      exec more parent
  | .listing kwd arg body last more, parent => do
      env.withObject kwd arg parent fun child => feedObject kwd child body last
      exec more parent
  | .block kwd arg descs inner more, parent => do
      env.withObject kwd arg parent (env.within descs (exec inner))
      exec more parent

end Env

/-! ## How items are written -/

/-- Nothing more on a line, but blanks and a comment. -/
def AtEnd (ptr : List UInt8) : Prop := isLineEnd ((skipSpace ptr).headD 0) = true

instance (ptr : List UInt8) : Decidable (AtEnd ptr) := inferInstanceAs (Decidable (_ = true))

/-- A brace on a line, and nothing behind it. -/
def IsBrace (c : UInt8) (ptr : List UInt8) : Prop :=
  (skipSpace ptr).headD 0 = c ∧ AtEnd (skipSpace ptr).tail

/-- An argument behind a keyword, as far as its first byte shows. -/
def HaveArgs (ptr : List UInt8) : Prop :=
  isLineEnd (ptr.headD 0) = false ∧ ptr.headD 0 ≠ openBrace ∧ ptr.headD 0 ≠ closeBrace

instance (ptr : List UInt8) : Decidable (HaveArgs ptr) := inferInstanceAs (Decidable (_ ∧ _))

/-- A text that does not set a property. -/
structure PlainLine (descs : List (Option PropertyDesc)) (line : List UInt8) : Prop where
  valid : isValidUtf8 line = true
  plain : findProperty descs 0 (skipSpace line) = none

/-- A line that sets a property. -/
structure SettingLine (descs : List (Option PropertyDesc)) (i : Nat) (desc : PropertyDesc)
    (value : PropertyValue) (line ptr rest : List UInt8) : Prop where
  valid : isValidUtf8 line = true
  found : findProperty descs 0 (skipSpace line) = some (i, desc, ptr)
  read : readValue desc line ptr = some (.ok (value, rest))
  ends : AtEnd rest

/-- A line with a keyword and its argument, up to what is behind it. -/
structure KeywordLine (descs : List (Option PropertyDesc)) (keywords : List (Keyword κ ω σ))
    (kwd : Keyword κ ω σ) (arg : Arg) (line ptr rest : List UInt8) : Prop
    extends PlainLine descs line where
  letter : isLetter ((skipSpace line).headD 0) = true
  found : findKeyword keywords (skipSpace line) = .ok (kwd, ptr)
  args : HaveArgs ptr ↔ kwd.arg ≠ .none
  read : readArg kwd.arg kwd.name line ptr = some (.ok (arg, rest))

/-- A line that says nothing. -/
structure BlankLine (descs : List (Option PropertyDesc)) (line : List UInt8) : Prop
    extends PlainLine descs line where
  ends : AtEnd line

/-- The line behind a block. -/
structure CloseLine (descs : List (Option PropertyDesc)) (line : List UInt8) : Prop
    extends PlainLine descs line where
  brace : IsBrace closeBrace line

/-- The lines of a listing. -/
structure ListingLines (body : List (List UInt8)) (last : List UInt8) : Prop where
  valid : ∀ line ∈ body, isValidUtf8 line = true
  lastValid : isValidUtf8 last = true
  brace : IsBrace closeBrace last

/-- The items of a block on its lines, for a table of keywords and the properties of the
object. -/
inductive Shows (env : Env κ ω σ) :
    List (Option PropertyDesc) → κ → Items κ ω σ → List (List UInt8) → Prop
  | nil {descs : List (Option PropertyDesc)} {table : κ} : Shows env descs table .nil []
  | blank {descs : List (Option PropertyDesc)} {table : κ} {items : Items κ ω σ}
      {line : List UInt8} {lines : List (List UInt8)}
      (hline : BlankLine descs line) (h : Shows env descs table items lines) :
      Shows env descs table items (line :: lines)
  | setting {descs : List (Option PropertyDesc)} {table : κ} {i : Nat} {desc : PropertyDesc}
      {value : PropertyValue} {more : Items κ ω σ} {line ptr rest : List UInt8}
      {lines : List (List UInt8)} (hline : SettingLine descs i desc value line ptr rest)
      (h : Shows env descs table more lines) :
      Shows env descs table (.setting i desc value more) (line :: lines)
  | object {descs : List (Option PropertyDesc)} {table : κ} {kwd : Keyword κ ω σ} {arg : Arg}
      {more : Items κ ω σ} {line ptr rest : List UInt8} {lines : List (List UInt8)}
      (hline : KeywordLine descs (env.keywords table) kwd arg line ptr rest)
      (hend : AtEnd rest) (h : Shows env descs table more lines) :
      Shows env descs table (.object kwd arg more) (line :: lines)
  | listing {descs : List (Option PropertyDesc)} {table : κ} {kwd : Keyword κ ω σ} {arg : Arg}
      {more : Items κ ω σ} {line ptr rest last : List UInt8} {body lines : List (List UInt8)}
      (hline : KeywordLine descs (env.keywords table) kwd arg line ptr rest)
      (hopen : IsBrace openBrace rest) (hlisting : kwd.handleListing.isSome)
      (hlines : ListingLines body last) (h : Shows env descs table more lines) :
      Shows env descs table (.listing kwd arg body last more) (line :: (body ++ last :: lines))
  | block {descs inside : List (Option PropertyDesc)} {table inner : κ} {kwd : Keyword κ ω σ}
      {arg : Arg} {items more : Items κ ω σ} {line ptr rest close : List UInt8}
      {body lines : List (List UInt8)}
      (hline : KeywordLine descs (env.keywords table) kwd arg line ptr rest)
      (hopen : IsBrace openBrace rest) (hlisting : kwd.handleListing = none)
      (hchildren : kwd.children = some inner) (hitems : Shows env inside inner items body)
      (hclose : CloseLine inside close) (h : Shows env descs table more lines) :
      Shows env descs table (.block kwd arg inside items more)
        (line :: (body ++ close :: lines))

end ImageTool.Gcfg
