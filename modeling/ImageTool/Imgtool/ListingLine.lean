import ImageTool.Fstream.GetLine
import ImageTool.Fstree.CanonicalizePath
import ImageTool.Imgtool.ListingEntry
import ImageTool.Lib.Word

/-!
# Lines of a file listing

A line has a keyword, a name, the permissions, two owners and what the keyword asks for.
A line is a C string: a list of bytes without a zero.
-/

namespace ImageTool.Imgtool

open ImageTool.Lib ImageTool.Fstream ImageTool.Fstree

/-- The quotation mark. -/
def quote : UInt8 := 0x22

/-- The backslash. -/
def backslash : UInt8 := 0x5c

/-- The bytes of an ASCII string. -/
def ascii (s : String) : List UInt8 := s.toList.map fun c => UInt8.ofNat c.toNat

/-- `keywords`. -/
def keywords : List (String × FileSourceType) :=
  [("dir", .dir), ("file", .file), ("pipe", .fifo), ("sock", .socket), ("nod", .charDev),
    ("slink", .symlink), ("link", .hardLink)]

/-- `skip_space`. -/
def skipSpace : List UInt8 → Option (List UInt8)
  | [] => none
  | c :: line => if isSpace c then some (line.dropWhile isSpace) else none

/-- `isdigit`. -/
def isDigit (c : UInt8) : Bool := 0x30 ≤ c && c ≤ 0x39

/-- The loop of `read_number`. -/
def readNumberLoop (limit base : Nat) : Nat → List UInt8 → Option (Nat × List UInt8)
  | out, [] => some (out, [])
  | out, c :: line =>
      if isDigit c then
        let x := c.toNat - 0x30
        if x ≥ base ∨ out > (0xFFFFFFFF - x) / base ∨ out * base + x > limit then none
        else readNumberLoop limit base (out * base + x) line
      else some (out, c :: line)

/-- `read_number`. -/
def readNumber (limit base : Nat) : List UInt8 → Option (Nat × List UInt8)
  | [] => none
  | c :: line => if isDigit c then readNumberLoop limit base 0 (c :: line) else none

/-- The loop of `unescape`. -/
def unescapeLoop : List UInt8 → List UInt8
  | [] => []
  | c :: src =>
      if c = quote then []
      else if c = backslash then
        match src with
        | [] => []
        | d :: src' =>
            if d = backslash ∨ d = quote then d :: unescapeLoop src' else unescapeLoop (d :: src')
      else c :: unescapeLoop src

/-- `unescape`. -/
def unescape : List UInt8 → List UInt8
  | [] => []
  | c :: src => if c = quote then unescapeLoop src else c :: src

/-- The keyword a line begins with, and the line behind it. -/
def scanKeyword (line : List UInt8) : Option ((String × FileSourceType) × List UInt8) :=
  keywords.findSome? fun keyword =>
    let rest := line.drop keyword.1.length
    if (ascii keyword.1).isPrefixOf line ∧ (skipSpace rest).isSome then
      some (keyword, rest.dropWhile isSpace)
    else none

/-- A quoted name behind its first quote, and the line behind it. -/
def scanQuoted : List UInt8 → Option (List UInt8 × List UInt8)
  | [] => none
  | [c] => if c = quote then some ([], []) else none
  | c :: d :: line =>
      if c = quote then some ([], d :: line)
      else if c = backslash then (scanQuoted line).map fun out => (c :: d :: out.1, out.2)
      else (scanQuoted (d :: line)).map fun out => (c :: out.1, out.2)

/-- A word, and the line behind it. -/
def scanWord (line : List UInt8) : List UInt8 × List UInt8 :=
  (line.takeWhile (!isSpace ·), line.dropWhile (!isSpace ·))

/-- Report an error where there is no value. -/
def orFail {α : Type} (out : Option α) (msg : String) : Except String α :=
  match out with
  | some a => .ok a
  | none => .error msg

/-- The entry filename: a quoted one keeps its first quote. -/
def parseName (keyword : String) (line : List UInt8) :
    Except String (List UInt8 × List UInt8) :=
  match line with
  | [] => .error ("expected filename after `" ++ keyword ++ "`")
  | c :: rest =>
      if c = quote then do
        let out ← orFail (scanQuoted rest) "missing '\"'"
        pure (c :: out.1, out.2)
      else .ok (scanWord (c :: rest))

/-- Permissions, user and group; the line behind them if there is a blank. -/
def parseOwner (line : List UInt8) :
    Except String ((Nat × Nat × Nat) × Option (List UInt8)) := do
  let failMode := "expected octal file permissions after filename"
  let failUidgid := "expected numeric 32 bit user & group ID after filename"
  let line ← orFail (skipSpace line) failMode
  let mode ← orFail (readNumber 0o7777 8 line) failMode
  let line ← orFail (skipSpace mode.2) failUidgid
  let uid ← orFail (readNumber 0xFFFFFFFF 10 line) failUidgid
  let line ← orFail (skipSpace uid.2) failUidgid
  let gid ← orFail (readNumber 0xFFFFFFFF 10 line) failUidgid
  pure ((mode.1, uid.1, gid.1), skipSpace gid.2)

/-- `makedev`. -/
def makedev (major minor : Nat) : Nat :=
  (major &&& 0xFFF) <<< 8 ||| (major &&& 0xFFFFF000) <<< 32 ||| (minor &&& 0xFF) |||
    (minor &&& 0xFFFFFF00) <<< 12

/-- What the keyword asks for: the type, the device number, the target, and the line behind
them. -/
structure LineExtra where
  type : FileSourceType
  devno : Nat
  target : Option (List UInt8)
  line : Option (List UInt8)

/-- The type of a device, and what is reported of another letter. -/
def deviceType (c : UInt8) : Except String FileSourceType :=
  if c = 0x62 ∨ c = 0x42 then .ok .blockDev
  else if c = 0x63 ∨ c = 0x43 then .ok .charDev
  else
    let shown := if 0x20 ≤ c ∧ c ≤ 0x7E then Char.ofNat c.toNat else Char.ofNat 0
    .error ("unknown device type `" ++ String.singleton shown ++ "`")

/-- The type and the numbers of a device.  Of the device number 32 bits are passed on. -/
def parseDevice (line : Option (List UInt8)) : Except String LineExtra := do
  let failDevno := "expected major & minor device number after device type"
  let line ← orFail line failDevno
  let type ← deviceType (line.headD 0)
  let line ← orFail (skipSpace line.tail) failDevno
  let major ← orFail (readNumber 0xFFFFFFFF 10 line) failDevno
  let line ← orFail (skipSpace major.2) failDevno
  let minor ← orFail (readNumber 0xFFFFFFFF 10 line) failDevno
  pure ⟨type, u32 (makedev major.1 minor.1), none, skipSpace minor.2⟩

/-- The target of a link, or the contents of a file. -/
def parseTarget (keyword : String) (type : FileSourceType) (line : Option (List UInt8)) :
    Except String LineExtra :=
  match line with
  | none | some [] =>
      if type = .file then .ok ⟨type, 0, none, line⟩
      else .error ("missing target path for `" ++ keyword ++ "`")
  | some (c :: rest) =>
      let word := scanWord (c :: rest)
      if word.1 = [] then .error ("missing target path for `" ++ keyword ++ "`")
      else .ok ⟨type, 0, some word.1, skipSpace word.2⟩

/-- The part of a line behind the owners. -/
def parseExtra (keyword : String) (type : FileSourceType) (line : Option (List UInt8)) :
    Except String LineExtra :=
  match type with
  | .charDev => parseDevice line
  | .file | .symlink | .hardLink => parseTarget keyword type line
  | _ => .ok ⟨type, 0, none, line⟩

/-- Targets that are paths in the listing are made canonical. -/
def canonicalizeTarget (keyword : String) (type : FileSourceType) (target : Option (List UInt8)) :
    Except String (Option (List UInt8)) :=
  match target with
  | none => .ok none
  | some target =>
      if type = .hardLink ∨ type = .file then
        if canonicalizePath target = [] then
          .error ("missing target path for `" ++ keyword ++ "`")
        else .ok (some (canonicalizePath target))
      else .ok (some target)

/-- What `add_line` makes of a line before it is stored. -/
def parseLine (line : List UInt8) : Except String ListingEntry := do
  let keyword ← orFail (scanKeyword line)
    "expected `dir`, `file`, `pipe`, `sock`, `nod`, `slink` or `link`"
  let name ← parseName keyword.1.1 keyword.2
  let owner ← parseOwner name.2
  let extra ← parseExtra keyword.1.1 keyword.1.2 owner.2
  if extra.line.getD [] ≠ [] then
    .error ("unexpected extra arguments for `" ++ keyword.1.1 ++ "`")
  else do
    let target ← canonicalizeTarget keyword.1.1 extra.type extra.target
    pure
      { type := extra.type
        uid := owner.1.2.1
        gid := owner.1.2.2
        mode := owner.1.1
        name := canonicalizePath (unescape name.1)
        target := target
        devno := extra.devno }

/-! ## What a line that is accepted says -/

/-- What holds of every entry a line is parsed to. -/
structure ListingEntry.Parsed (e : ListingEntry) : Prop where
  uid : e.uid < 2 ^ 32
  gid : e.gid < 2 ^ 32
  mode : e.mode < 2 ^ 12
  devno : e.devno < 2 ^ 32
  name : 0 ∉ e.name
  target : ∀ target, e.target = some target → 0 ∉ target
  link : e.type = .symlink ∨ e.type = .hardLink → ∃ target, e.target = some target ∧ target ≠ []

theorem bind_eq_ok {α β : Type} {x : Except String α} {f : α → Except String β} {b : β} :
    (x >>= f) = .ok b ↔ ∃ a, x = .ok a ∧ f a = .ok b := by
  cases x with
  | error msg => exact ⟨nofun, nofun⟩
  | ok a =>
      constructor
      · intro h
        exact ⟨a, rfl, h⟩
      · intro h
        obtain ⟨_, hok, h⟩ := h
        cases hok
        exact h

theorem orFail_eq_ok {α : Type} {out : Option α} {msg : String} {a : α} :
    orFail out msg = .ok a ↔ out = some a := by
  cases out with
  | none => exact ⟨nofun, nofun⟩
  | some b =>
      constructor
      · intro h
        cases h
        rfl
      · intro h
        cases h
        rfl

variable {line rest : List UInt8}

theorem dropWhile_subset (p : UInt8 → Bool) (line : List UInt8) : line.dropWhile p ⊆ line :=
  (List.dropWhile_sublist p).subset

theorem skipSpace_subset (h : skipSpace line = some rest) : rest ⊆ line := by
  cases line with
  | nil => cases h
  | cons c line =>
      rw [skipSpace] at h
      by_cases hspace : isSpace c
      · rw [if_pos hspace] at h
        cases h
        exact List.subset_cons_of_subset c (dropWhile_subset isSpace line)
      · rw [if_neg hspace] at h
        cases h

theorem readNumberLoop_spec {limit base out n : Nat} (hout : out ≤ limit)
    (h : readNumberLoop limit base out line = some (n, rest)) : n ≤ limit ∧ rest ⊆ line := by
  induction line generalizing out with
  | nil =>
      cases h
      exact ⟨hout, List.Subset.refl _⟩
  | cons c line ih =>
      unfold readNumberLoop at h
      dsimp only at h
      split at h
      · split at h
        · cases h
        · rename_i hbound
          rw [not_or, not_or] at hbound
          obtain ⟨hle, hsub⟩ := ih (Nat.le_of_not_lt hbound.2.2) h
          exact ⟨hle, List.subset_cons_of_subset c hsub⟩
      · cases h
        exact ⟨hout, List.Subset.refl _⟩

theorem readNumber_spec {limit base n : Nat}
    (h : readNumber limit base line = some (n, rest)) : n ≤ limit ∧ rest ⊆ line := by
  cases line with
  | nil => cases h
  | cons c line =>
      rw [readNumber] at h
      by_cases hdigit : isDigit c
      · rw [if_pos hdigit] at h
        exact readNumberLoop_spec (Nat.zero_le _) h
      · rw [if_neg hdigit] at h
        cases h

theorem unescapeLoop_sublist (src : List UInt8) : (unescapeLoop src).Sublist src := by
  fun_induction unescapeLoop src with
  | case1 => exact .refl _
  | case2 => exact List.nil_sublist _
  | case3 => exact List.nil_sublist _
  | case4 => exact .cons _ (.cons_cons _ ‹_›)
  | case5 => exact .cons _ ‹_›
  | case6 => exact .cons_cons _ ‹_›

theorem unescape_subset (src : List UInt8) : unescape src ⊆ src := by
  cases src with
  | nil => exact List.Subset.refl _
  | cons c src =>
      rw [unescape]
      by_cases hquote : c = quote
      · rw [if_pos hquote]
        exact List.subset_cons_of_subset c (unescapeLoop_sublist src).subset
      · rw [if_neg hquote]
        exact List.Subset.refl _

theorem scanKeyword_subset {keyword : String × FileSourceType}
    (h : scanKeyword line = some (keyword, rest)) : rest ⊆ line := by
  obtain ⟨keyword', _, hfound⟩ := List.exists_of_findSome?_eq_some h
  dsimp only at hfound
  split at hfound
  · cases hfound
    exact List.Subset.trans (dropWhile_subset ..) (List.drop_subset ..)
  · cases hfound

theorem scanQuoted_subset {name : List UInt8} (h : scanQuoted line = some (name, rest)) :
    name ⊆ line ∧ rest ⊆ line := by
  fun_induction scanQuoted line generalizing name rest with
  | case1 => cases h
  | case2 =>
      cases h
      exact ⟨List.nil_subset _, List.nil_subset _⟩
  | case3 => cases h
  | case4 d line =>
      cases h
      exact ⟨List.nil_subset _, List.subset_cons_self ..⟩
  | case5 d line _ ih =>
      obtain ⟨out, hout, heq⟩ := Option.map_eq_some_iff.1 h
      cases heq
      obtain ⟨hname, hrest⟩ := ih hout
      exact ⟨List.cons_subset_cons _ (List.cons_subset_cons _ hname),
        List.subset_cons_of_subset _ (List.subset_cons_of_subset _ hrest)⟩
  | case6 c d line _ _ ih =>
      obtain ⟨out, hout, heq⟩ := Option.map_eq_some_iff.1 h
      cases heq
      obtain ⟨hname, hrest⟩ := ih hout
      exact ⟨List.cons_subset_cons _ hname, List.subset_cons_of_subset _ hrest⟩

theorem parseName_subset {keyword : String} {out : List UInt8 × List UInt8}
    (h : parseName keyword line = .ok out) : out.1 ⊆ line ∧ out.2 ⊆ line := by
  cases line with
  | nil => cases h
  | cons c line =>
      rw [parseName] at h
      by_cases hquote : c = quote
      · rw [if_pos hquote] at h
        obtain ⟨name, hname, hout⟩ := bind_eq_ok.1 h
        cases hout
        obtain ⟨hsub, hrest⟩ := scanQuoted_subset (orFail_eq_ok.1 hname)
        exact ⟨List.cons_subset_cons _ hsub, List.subset_cons_of_subset _ hrest⟩
      · rw [if_neg hquote] at h
        cases h
        exact ⟨(List.takeWhile_sublist _).subset, dropWhile_subset ..⟩

theorem parseOwner_spec {out : (Nat × Nat × Nat) × Option (List UInt8)}
    (h : parseOwner line = .ok out) : out.1.1 < 2 ^ 12 ∧ out.1.2.1 < 2 ^ 32 ∧
      out.1.2.2 < 2 ^ 32 ∧ ∀ rest, out.2 = some rest → rest ⊆ line := by
  obtain ⟨line₁, h₁, h⟩ := bind_eq_ok.1 h
  obtain ⟨mode, hmode, h⟩ := bind_eq_ok.1 h
  obtain ⟨line₂, h₂, h⟩ := bind_eq_ok.1 h
  obtain ⟨uid, huid, h⟩ := bind_eq_ok.1 h
  obtain ⟨line₃, h₃, h⟩ := bind_eq_ok.1 h
  obtain ⟨gid, hgid, h⟩ := bind_eq_ok.1 h
  cases h
  obtain ⟨hmodeLe, hmodeSub⟩ := readNumber_spec (orFail_eq_ok.1 hmode)
  obtain ⟨huidLe, huidSub⟩ := readNumber_spec (orFail_eq_ok.1 huid)
  obtain ⟨hgidLe, hgidSub⟩ := readNumber_spec (orFail_eq_ok.1 hgid)
  refine ⟨Nat.lt_succ_of_le hmodeLe, Nat.lt_succ_of_le huidLe, Nat.lt_succ_of_le hgidLe, ?_⟩
  intro rest hrest
  calc rest ⊆ gid.2 := skipSpace_subset hrest
    _ ⊆ line₃ := hgidSub
    _ ⊆ uid.2 := skipSpace_subset (orFail_eq_ok.1 h₃)
    _ ⊆ line₂ := huidSub
    _ ⊆ mode.2 := skipSpace_subset (orFail_eq_ok.1 h₂)
    _ ⊆ line₁ := hmodeSub
    _ ⊆ line := skipSpace_subset (orFail_eq_ok.1 h₁)

/-- What is read behind the owners. -/
structure LineExtra.Parsed (extra : LineExtra) (line : Option (List UInt8)) : Prop where
  devno : extra.devno < 2 ^ 32
  target : ∀ target, extra.target = some target → target ⊆ line.getD []
  link : extra.type = .symlink ∨ extra.type = .hardLink → ∃ target,
    extra.target = some target ∧ target ≠ []

theorem deviceType_eq {c : UInt8} {type : FileSourceType} (h : deviceType c = .ok type) :
    type = .blockDev ∨ type = .charDev := by
  unfold deviceType at h
  by_cases hblock : c = 0x62 ∨ c = 0x42
  · rw [if_pos hblock] at h
    cases h
    exact Or.inl rfl
  · rw [if_neg hblock] at h
    by_cases hchar : c = 0x63 ∨ c = 0x43
    · rw [if_pos hchar] at h
      cases h
      exact Or.inr rfl
    · rw [if_neg hchar] at h
      cases h

theorem parseDevice_spec {extra : LineExtra} {line : Option (List UInt8)}
    (h : parseDevice line = .ok extra) : extra.Parsed line := by
  obtain ⟨line₁, _, h⟩ := bind_eq_ok.1 h
  obtain ⟨type, htype, h⟩ := bind_eq_ok.1 h
  obtain ⟨line₂, _, h⟩ := bind_eq_ok.1 h
  obtain ⟨major, _, h⟩ := bind_eq_ok.1 h
  obtain ⟨line₃, _, h⟩ := bind_eq_ok.1 h
  obtain ⟨minor, _, h⟩ := bind_eq_ok.1 h
  cases h
  refine ⟨u32_lt _, nofun, ?_⟩
  intro hlink
  change type = .symlink ∨ type = .hardLink at hlink
  rcases deviceType_eq htype with rfl | rfl
  · exact absurd hlink (by decide)
  · exact absurd hlink (by decide)

theorem parseTarget_spec {keyword : String} {type : FileSourceType} {extra : LineExtra}
    {line : Option (List UInt8)} (h : parseTarget keyword type line = .ok extra) :
    extra.Parsed line := by
  have hnone : ∀ line, (if type = .file then Except.ok (LineExtra.mk type 0 none line)
      else .error ("missing target path for `" ++ keyword ++ "`")) = .ok extra →
        extra.Parsed line := by
    intro line h
    by_cases hfile : type = .file
    · rw [if_pos hfile] at h
      cases h
      refine ⟨Nat.two_pow_pos 32, nofun, ?_⟩
      intro hlink
      rw [hfile] at hlink
      rcases hlink with hlink | hlink <;> cases hlink
    · rw [if_neg hfile] at h
      cases h
  match line, h with
  | none, h => exact hnone none h
  | some [], h => exact hnone (some []) h
  | some (c :: rest), h =>
      rw [parseTarget] at h
      by_cases hword : (scanWord (c :: rest)).1 = []
      · rw [if_pos hword] at h
        cases h
      · rw [if_neg hword] at h
        cases h
        refine ⟨Nat.two_pow_pos 32, ?_, fun _ => ⟨_, rfl, hword⟩⟩
        intro target htarget
        cases htarget
        exact (List.takeWhile_sublist _).subset

theorem parseExtra_spec {keyword : String} {type : FileSourceType} {extra : LineExtra}
    {line : Option (List UInt8)} (h : parseExtra keyword type line = .ok extra) :
    extra.Parsed line := by
  have hother : ∀ type : FileSourceType, ¬ (type = .symlink ∨ type = .hardLink) →
      LineExtra.Parsed ⟨type, 0, none, line⟩ line :=
    fun _ hlink => ⟨Nat.two_pow_pos 32, nofun, fun hlink' => absurd hlink' hlink⟩
  unfold parseExtra at h
  cases type with
  | charDev => exact parseDevice_spec h
  | file => exact parseTarget_spec h
  | symlink => exact parseTarget_spec h
  | hardLink => exact parseTarget_spec h
  | dir =>
      cases h
      exact hother .dir (by decide)
  | fifo =>
      cases h
      exact hother .fifo (by decide)
  | socket =>
      cases h
      exact hother .socket (by decide)
  | blockDev =>
      cases h
      exact hother .blockDev (by decide)

theorem collapseSlashes_sublist (src : List UInt8) : (collapseSlashes src).Sublist src := by
  fun_induction collapseSlashes src with
  | case1 => exact .refl _
  | case2 => exact .cons _ ‹_›
  | case3 => exact .cons_cons _ ‹_›
  | case4 => exact .cons_cons _ ‹_›

theorem removeDots_sublist (start : Bool) (src : List UInt8) :
    (removeDots start src).Sublist src := by
  fun_induction removeDots start src with
  | case1 => exact .refl _
  | case2 => exact List.nil_sublist _
  | case3 => exact .refl _
  | case4 => exact .cons _ (.cons _ ‹_›)
  | case5 => exact .cons_cons _ ‹_›
  | case6 => exact .cons_cons _ ‹_›

theorem normalizeSlashes_sublist (path : List UInt8) : (normalizeSlashes path).Sublist path :=
  (collapseSlashes_sublist _).trans (List.dropWhile_sublist _)

theorem canonicalizePath_subset (path : List UInt8) : canonicalizePath path ⊆ path :=
  ((normalizeSlashes_sublist _).trans
    ((removeDots_sublist _ _).trans (normalizeSlashes_sublist _))).subset

theorem canonicalizeTarget_spec {keyword : String} {type : FileSourceType}
    {target out : Option (List UInt8)} (h : canonicalizeTarget keyword type target = .ok out) :
    (∀ path, out = some path → ∃ path', target = some path' ∧ path ⊆ path') ∧
      ((∃ path, target = some path ∧ path ≠ []) → ∃ path, out = some path ∧ path ≠ []) := by
  cases target with
  | none =>
      cases h
      exact ⟨nofun, nofun⟩
  | some target =>
      rw [canonicalizeTarget] at h
      by_cases htype : type = .hardLink ∨ type = .file
      · rw [if_pos htype] at h
        by_cases hempty : canonicalizePath target = []
        · rw [if_pos hempty] at h
          cases h
        · rw [if_neg hempty] at h
          cases h
          refine ⟨?_, fun _ => ⟨_, rfl, hempty⟩⟩
          intro path hpath
          cases hpath
          exact ⟨target, rfl, canonicalizePath_subset target⟩
      · rw [if_neg htype] at h
        cases h
        refine ⟨?_, id⟩
        intro path hpath
        exact ⟨path, hpath, List.Subset.refl _⟩

/-- What a line is parsed to. -/
theorem parseLine_parsed {e : ListingEntry} (h : parseLine line = .ok e) (hline : 0 ∉ line) :
    e.Parsed := by
  obtain ⟨keyword, hkeyword, h⟩ := bind_eq_ok.1 h
  obtain ⟨name, hname, h⟩ := bind_eq_ok.1 h
  obtain ⟨owner, howner, h⟩ := bind_eq_ok.1 h
  obtain ⟨extra, hextra, h⟩ := bind_eq_ok.1 h
  by_cases hrest : extra.line.getD [] ≠ []
  · rw [if_pos hrest] at h
    cases h
  · rw [if_neg hrest] at h
    obtain ⟨target, htarget, h⟩ := bind_eq_ok.1 h
    cases h
    have hkeywordSub := scanKeyword_subset (orFail_eq_ok.1 hkeyword)
    obtain ⟨hnameSub, hnameRest⟩ := parseName_subset hname
    obtain ⟨hmode, huid, hgid, hownerRest⟩ := parseOwner_spec howner
    have hextraParsed := parseExtra_spec hextra
    obtain ⟨htargetSub, htargetNonempty⟩ := canonicalizeTarget_spec htarget
    have hextraLine : owner.2.getD [] ⊆ line := by
      cases howner2 : owner.2 with
      | none => exact List.nil_subset _
      | some rest =>
          exact List.Subset.trans (hownerRest rest howner2)
            (List.Subset.trans hnameRest hkeywordSub)
    refine ⟨huid, hgid, hmode, hextraParsed.devno, ?_, ?_, ?_⟩
    · intro hzero
      exact hline (hkeywordSub (hnameSub (unescape_subset _ (canonicalizePath_subset _ hzero))))
    · intro path hpath hzero
      obtain ⟨path', hpath', hsub⟩ := htargetSub path hpath
      exact hline (hextraLine (hextraParsed.target path' hpath' (hsub hzero)))
    · intro hlink
      exact htargetNonempty (hextraParsed.link hlink)

end ImageTool.Imgtool
