import ImageTool.Gcfg.ParseFile

/-!
# The rule of the parser

What holds of the objects that are open, innermost first, and the state before a block is parsed
holds again behind it, on every text and however the parser returns, if the callbacks keep it.
-/

namespace ImageTool.Gcfg

open ImageTool.Lib ImageTool.Util

variable {κ ω σ : Type}

/-! ## Strings in the line buffer -/

section InPlace

variable {line ptr : List UInt8}

/-- Decoding a string in its own line ends. -/
theorem parseStringInPlace_isSome (hline : 0 ∉ line) (hptr : ptr <:+ line) :
    (parseStringInPlace line ptr).isSome := by
  obtain ⟨front, rfl⟩ := hptr
  have hheld : HoldsLine (lineMemory (front ++ ptr)) front.length ptr := by
    have hdrop := HoldsLine.drop (holdsLine_lineMemory hline)
    rwa [Nat.zero_add] at hdrop
  have hpos : (front ++ ptr).length - ptr.length = front.length := by
    rw [List.length_append, Nat.add_sub_cancel]
  unfold parseStringInPlace
  rw [hpos]
  have hstuck : parseString ((front ++ ptr).length + 1) (lineMemory (front ++ ptr)) front.length 0
      ≠ none := by
    cases ptr with
    | nil =>
        have hzero : lineMemory (front ++ []) front.length = 0 := hheld
        rw [parseString, hzero, if_pos (by decide)]
        exact Option.some_ne_none _
    | cons c body =>
        by_cases hquote : c = quote
        · subst hquote
          have hfuel : (quote :: body).length < (front ++ quote :: body).length + 1 := by simp
          have hends := parseString_ends hheld (Or.inl (Nat.zero_le _)) hfuel
          unfold Ends at hends
          cases hdecode : decodeWith readAll body with
          | none =>
              rw [hdecode] at hends
              obtain ⟨mem, e, hret⟩ := hends
              rw [hret]
              exact Option.some_ne_none _
          | some p =>
              rw [hdecode] at hends
              obtain ⟨pos, -, hret⟩ := hends
              rw [hret]
              exact Option.some_ne_none _
        · rw [parseString, hheld.1, if_pos hquote]
          exact Option.some_ne_none _
  cases hres : parseString ((front ++ ptr).length + 1) (lineMemory (front ++ ptr)) front.length
      0 with
  | none => exact absurd hres hstuck
  | some p =>
      obtain ⟨mem, ret⟩ := p
      cases ret <;> rfl

theorem readArg_isSome (type : ArgType) (name : List UInt8) (hline : 0 ∉ line)
    (hptr : ptr <:+ line) : (readArg type name line ptr).isSome := by
  cases type with
  | string =>
      rw [readArg, Option.isSome_map]
      exact parseStringInPlace_isSome hline hptr
  | none => rfl
  | boolean => rfl
  | number => rfl
  | size => rfl
  | vec2 => rfl
  | vec3 => rfl
  | vec4 => rfl
  | unknown => rfl

theorem readValue_isSome (desc : PropertyDesc) (hline : 0 ∉ line) (hptr : ptr <:+ line) :
    (readValue desc line ptr).isSome := by
  unfold readValue
  cases desc.type with
  | string =>
      rw [Option.isSome_map]
      exact parseStringInPlace_isSome hline hptr
  | none => rfl
  | bool => rfl
  | u32Number => rfl
  | u64Number => rfl
  | u64Size => rfl
  | enum => rfl

end InPlace

/-! ## What is left of a line -/

theorem skipSpace_suffix (ptr : List UInt8) : skipSpace ptr <:+ ptr := List.dropWhile_suffix _

theorem takeWord_suffix {ends : UInt8 → Bool} {name ptr rest : List UInt8}
    (h : takeWord ends name ptr = some rest) : rest <:+ ptr := by
  unfold takeWord at h
  split at h
  · cases h
    exact List.drop_suffix _ _
  · cases h

theorem findProperty_suffix {descs : List (Option PropertyDesc)} {i j : Nat}
    {desc : PropertyDesc} {ptr rest : List UInt8}
    (h : findProperty descs i ptr = some (j, desc, rest)) : rest <:+ ptr := by
  induction descs generalizing i with
  | nil => cases h
  | cons d descs ih =>
      cases d with
      | none => exact ih h
      | some d =>
          unfold findProperty at h
          split at h
          · rename_i rest' hword
            cases h
            exact (skipSpace_suffix _).trans (takeWord_suffix hword)
          · exact ih h

theorem findKeyword_ok {keywords : List (Keyword κ ω σ)} {kwd : Keyword κ ω σ}
    {ptr rest : List UInt8} (h : findKeyword keywords ptr = .ok (kwd, rest)) :
    kwd ∈ keywords ∧ rest <:+ ptr := by
  unfold findKeyword at h
  split at h
  · cases h
  · split at h
    · rename_i found hfound
      cases h
      obtain ⟨k, hk, hmap⟩ := List.exists_of_findSome?_eq_some hfound
      obtain ⟨rest', hword, heq⟩ := Option.map_eq_some_iff.1 hmap
      cases heq
      exact ⟨hk, (skipSpace_suffix _).trans (takeWord_suffix hword)⟩
    · cases h

theorem zero_notMem_tailBytes (k n : Nat) : (0 : UInt8) ∉ tailBytes k n := by
  induction k with
  | zero => exact List.not_mem_nil
  | succ k ih =>
      have hbyte : (0 : UInt8) ≠ UInt8.ofNat (0x80 + n / 64 ^ k % 64) := by
        rw [Ne, ← UInt8.toNat_inj, UInt8.toNat_ofNat', UInt8.toNat_zero]
        omega
      rw [tailBytes, List.mem_cons, not_or]
      exact ⟨hbyte, ih⟩

/-- A line that passes the check has no zero in it. -/
theorem zero_notMem_of_isValidUtf8 {line : List UInt8} (h : isValidUtf8 line = true) :
    0 ∉ line := by
  obtain ⟨chunks, hchunks, rfl⟩ := (isValidUtf8_iff line).1 h
  intro hmem
  obtain ⟨chunk, hchunk, hzero⟩ := List.mem_flatten.1 hmem
  obtain ⟨k, n, ⟨hk, hsize, hmin, -, -⟩, rfl⟩ := exists_sequence_of_isChunk (hchunks chunk hchunk)
  have hlead := leadSize_mul_le hk
  have hfirst : (0 : UInt8) ≠ UInt8.ofNat (marker k + n / 64 ^ (k - 1)) := by
    rw [Ne, ← UInt8.toNat_inj, UInt8.toNat_ofNat', UInt8.toNat_zero]
    -- in one byte the value itself is not zero
    have hmarker : 0xC0 ≤ marker k ∨ k = 1 := by
      simp only [List.mem_cons, List.not_mem_nil, or_false] at hk
      rcases hk with rfl | rfl | rfl | rfl | rfl
      · exact Or.inr rfl
      all_goals exact Or.inl (by decide)
    rcases hmarker with hmarker | rfl
    · generalize n / 64 ^ (k - 1) = q at hsize
      omega
    · have hleast : (minValByCount.getD 1 0).toNat = 0x20 := rfl
      rw [Nat.sub_self, Nat.pow_zero, Nat.div_one] at hsize ⊢
      omega
  rcases List.mem_cons.1 hzero with heq | htail
  · exact hfirst heq
  · exact zero_notMem_tailBytes _ _ htail

/-! ## The rule -/

/-- An argument that the parser may hand to the callback of a keyword. -/
def Arg.ReadAs (type : ArgType) (arg : Arg) : Prop :=
  ∃ name line ptr rest, isValidUtf8 line = true ∧
    readArg type name line ptr = some (.ok (arg, rest))

/-- The parent of the objects that are created next; `usr` is the object of the whole file. -/
def top (usr : Option ω) : List ω → Option ω
  | [] => usr
  | obj :: _ => some obj

/-- What the callbacks do, for a property `Open` of the open objects and the state.  `Hosts` holds
of a table and the object whose block it is for, `Made` of a keyword and an object that its
callback returns. -/
structure Respects (env : Env κ ω σ) (usr : Option ω) (Hosts : κ → Option ω → Prop)
    (Made : Keyword κ ω σ → ω → Prop) (Open : List ω → σ → Prop) : Prop where
  report {r : Report} {st : List ω} {s : σ} : Open st s → Open st (env.report r s)
  drop {child : ω} {st : List ω} {s : σ} : Open (child :: st) s → Open st (env.drop child s)
  setProperty {table : κ} {obj : ω} {st : List ω} {s : σ} {i : Nat} {value : PropertyValue} :
    Hosts table (some obj) → top usr st = some obj → Open st s →
      Call.Ends (objectSetProperty (env.chain obj) i value s) (fun _ => Open st) (Open st)
  handle {table : κ} {kwd : Keyword κ ω σ} {arg : Arg} {st : List ω} {s : σ} :
    kwd ∈ env.keywords table → Hosts table (top usr st) → arg.ReadAs kwd.arg → Open st s →
      Call.Ends (kwd.handle arg (top usr st) s)
        (fun child s => Made kwd child ∧ Open (child :: st) s) (Open st)
  nested {table : κ} {kwd : Keyword κ ω σ} {child : ω} :
    Made kwd child → kwd.children = some table → Hosts table (some child)
  listing {kwd : Keyword κ ω σ} {feed : ω → List UInt8 → Call σ Bool} {child : ω} {st : List ω}
    {line : List UInt8} {s : σ} :
    Made kwd child → kwd.handleListing = some feed → isValidUtf8 line = true →
      Open (child :: st) s → Call.Ends (feed child line s) (fun _ => Open (child :: st))
        (Open (child :: st))
  finalize {kwd : Keyword κ ω σ} {f : ω → Call σ Unit} {child : ω} {st : List ω} {s : σ} :
    Made kwd child → kwd.finalizeObject = some f → Open (child :: st) s →
      Call.Ends (f child s) (fun _ => Open (child :: st)) (Open (child :: st))

namespace Respects

variable {env : Env κ ω σ} {usr : Option ω} {Hosts : κ → Option ω → Prop}
  {Made : Keyword κ ω σ → ω → Prop} {Open : List ω → σ → Prop} {st : List ω} {s : σ} {child : ω}
  {kwd : Keyword κ ω σ} {lines : List (List UInt8)} {α : Type} {Q : α → σ → Prop}

theorem refuse (h : Respects env usr Hosts Made Open) (hopen : Open st s) (format : String)
    (shown : List UInt8) : Call.Ends (env.refuse (α := α) format shown s) Q (Open st) :=
  h.report hopen

theorem reading (h : Respects env usr Hosts Made Open) (hopen : Open st s)
    {result : Option (Except Report α)} (hsome : result.isSome) :
    Call.Ends (env.reading result s) (fun a s => result = some (.ok a) ∧ Open st s) (Open st) := by
  cases result with
  | none => cases hsome
  | some result =>
      cases result with
      | error r => exact h.refuse hopen _ _
      | ok a => exact ⟨rfl, hopen⟩

/-- Dropping an object and reporting an error behind it. -/
theorem releaseRefuse (h : Respects env usr Hosts Made Open) (hopen : Open (child :: st) s)
    (format : String) (shown : List UInt8) :
    Call.Ends ((do env.release child; env.refuse (α := α) format shown : Call σ α) s) Q
      (Open st) := h.report (h.drop hopen)

theorem orDrop (h : Respects env usr Hosts Made Open) {m : Call σ α}
    (hm : Call.Ends (m s) Q (Open (child :: st))) :
    Call.Ends (env.orDrop child m s) Q (Open st) := by
  unfold Env.orDrop
  cases hres : m s with
  | ok a s' =>
      rw [hres] at hm
      exact hm
  | fail s' =>
      rw [hres] at hm
      exact h.drop hm
  | stuck =>
      rw [hres] at hm
      exact hm

theorem plainListing (h : Respects env usr Hosts Made Open) (hmade : Made kwd child)
    {feed : ω → List UInt8 → Call σ Bool} (hfeed : kwd.handleListing = some feed)
    (hopen : Open (child :: st) s) :
    Call.Ends (env.plainListing (feed child) lines s)
      (fun rest s => rest.length ≤ lines.length ∧ Open (child :: st) s) (Open (child :: st)) := by
  induction lines generalizing s with
  | nil =>
      unfold Env.plainListing
      split
      · exact hopen
      · exact h.refuse hopen _ _
  | cons line lines ih =>
      unfold Env.plainListing
      split
      · exact h.refuse hopen _ _
      · rename_i hvalid
        refine Call.Ends.bind (h.listing hmade hfeed (by simpa using hvalid) hopen) ?_ fun _ => id
        intro last s hopen
        simp only
        split
        · split
          · exact h.refuse hopen _ _
          split
          · exact h.refuse hopen _ _
          · exact ⟨Nat.le_succ _, hopen⟩
        · refine (ih hopen).mono ?_ fun _ => id
          intro rest s hrest
          exact ⟨Nat.le_succ_of_le hrest.1, hrest.2⟩

theorem keywordBlock (h : Respects env usr Hosts Made Open) (hmade : Made kwd child)
    (hopen : Open (child :: st) s) {ptr : List UInt8}
    {nested : κ → Option ω → List (List UInt8) → Call σ (List (List UInt8))}
    (hnested : ∀ table, Hosts table (some child) → Call.Ends (nested table (some child) lines s)
      (fun rest s => rest.length ≤ lines.length ∧ Open (child :: st) s) (Open (child :: st))) :
    Call.Ends (env.keywordBlock nested kwd child ptr lines s)
      (fun rest s => rest.length ≤ lines.length ∧ Open (child :: st) s) (Open st) := by
  unfold Env.keywordBlock
  split
  · split
    · exact h.releaseRefuse hopen _ _
    · cases hfeed : kwd.handleListing with
      | some feed => exact h.orDrop (h.plainListing hmade hfeed hopen)
      | none =>
          cases hchildren : kwd.children with
          | none => exact h.releaseRefuse hopen _ _
          | some table => exact h.orDrop (hnested table (h.nested hmade hchildren))
  split
  · rw [Call.bind_apply]
    change Call.Ends ((if _ then _ else _ : Call σ _) _) _ _
    split
    · exact h.report (h.drop hopen)
    · exact h.report (h.drop hopen)
  · exact ⟨Nat.le_refl _, hopen⟩

theorem finalizes (h : Respects env usr Hosts Made Open) (hmade : Made kwd child)
    (hopen : Open (child :: st) s) :
    Call.Ends (env.finalize kwd child s) (fun _ => Open (child :: st)) (Open st) := by
  unfold Env.finalize
  cases hfinalize : kwd.finalizeObject with
  | none => exact hopen
  | some f => exact h.orDrop (h.finalize hmade hfinalize hopen)

theorem keywordLine (h : Respects env usr Hosts Made Open) {table : κ} {line ptr : List UInt8}
    {nested : κ → Option ω → List (List UInt8) → Call σ (List (List UInt8))}
    (hkwd : kwd ∈ env.keywords table) (hhosts : Hosts table (top usr st)) (hopen : Open st s)
    (hvalid : isValidUtf8 line = true) (hptr : ptr <:+ line)
    (hnested : ∀ table child s, Hosts table (some child) → Open (child :: st) s →
      Call.Ends (nested table (some child) lines s)
        (fun rest s => rest.length ≤ lines.length ∧ Open (child :: st) s) (Open (child :: st))) :
    Call.Ends (env.keywordLine nested kwd line ptr (top usr st) lines s)
      (fun rest s => rest.length ≤ lines.length ∧ Open st s) (Open st) := by
  have hsome := readArg_isSome kwd.arg kwd.name (zero_notMem_of_isValidUtf8 hvalid) hptr
  unfold Env.keywordLine
  simp only
  split
  · exact h.refuse hopen _ _
  split
  · exact h.refuse hopen _ _
  refine (h.reading hopen hsome).bind ?_ fun _ => id
  rintro ⟨arg, rest⟩ s ⟨hread, hopen⟩
  refine (h.handle hkwd hhosts ⟨_, _, _, _, hvalid, hread⟩ hopen).bind ?_ fun _ => id
  rintro child s ⟨hmade, hopen⟩
  refine (h.keywordBlock hmade hopen fun table ht => hnested table child s ht hopen).bind ?_
    fun _ => id
  rintro lines s ⟨hle, hopen⟩
  refine (h.finalizes hmade hopen).bind ?_ fun _ => id
  intro _ s hopen
  exact ⟨hle, h.drop hopen⟩

theorem applyReflectionArg (h : Respects env usr Hosts Made Open) {table : κ}
    {line ptr : List UInt8} {i : Nat} {desc : PropertyDesc} (hhosts : Hosts table (top usr st))
    (hopen : Open st s) (hvalid : isValidUtf8 line = true)
    (hfind : findProperty (env.descs (top usr st)) 0 (skipSpace line) = some (i, desc, ptr)) :
    Call.Ends (env.applyReflectionArg line ptr (top usr st) i desc s) (fun _ => Open st)
      (Open st) := by
  have hptr := (findProperty_suffix hfind).trans (skipSpace_suffix line)
  have hsome := readValue_isSome desc (zero_notMem_of_isValidUtf8 hvalid) hptr
  unfold Env.applyReflectionArg
  refine (h.reading hopen hsome).bind ?_ fun _ => id
  rintro ⟨value, rest⟩ s ⟨-, hopen⟩
  refine Call.Ends.bind (R := fun _ => Open st) ?_ (fun _ _ => id) fun _ => id
  unfold Env.setProperty
  cases htop : top usr st with
  | none =>
      rw [htop] at hfind
      cases hfind
  | some obj =>
      rw [htop] at hhosts
      have hset : Call.Ends (objectSetProperty (env.chain obj) i value s) (fun _ => Open st)
          (Open st) := h.setProperty hhosts htop hopen
      simp only
      cases hres : objectSetProperty (env.chain obj) i value s with
      | ok _ s' =>
          rw [hres] at hset
          exact hset
      | fail s' =>
          rw [hres] at hset
          exact h.refuse hset _ _
      | stuck =>
          rw [hres] at hset
          exact hset

/-- The rule: the parser returns, and the property holds again, for the same open objects. -/
theorem parse (h : Respects env usr Hosts Made Open) (fuel : Nat) {table : κ} {level : Nat}
    (hfuel : lines.length < fuel) (hhosts : Hosts table (top usr st)) (hopen : Open st s) :
    Call.Ends (env.parse fuel table (top usr st) level lines s)
      (fun rest s => rest.length ≤ lines.length ∧ Open st s) (Open st) := by
  induction fuel generalizing table level lines st s with
  | zero => cases hfuel
  | succ fuel ih =>
      cases lines with
      | nil =>
          unfold Env.parse
          split
          · exact hopen
          split
          · exact h.refuse hopen _ _
          · exact ⟨Nat.le_refl _, hopen⟩
      | cons line lines =>
          rw [List.length_cons] at hfuel
          have hlines : lines.length < fuel := Nat.lt_of_succ_lt_succ hfuel
          have hagain : ∀ rest : List (List UInt8), ∀ s, rest.length ≤ lines.length → Open st s →
              Call.Ends (env.parse fuel table (top usr st) level rest s)
                (fun rest s => rest.length ≤ lines.length + 1 ∧ Open st s) (Open st) := by
            intro rest s hle hopen
            refine (ih (Nat.lt_of_le_of_lt hle hlines) hhosts hopen).mono ?_ fun _ => id
            intro rest' s' h'
            exact ⟨by omega, h'.2⟩
          have hback : ∀ s, Open st s → Call.Ends (env.parse fuel table (top usr st) level lines s)
              (fun rest s => rest.length ≤ lines.length + 1 ∧ Open st s) (Open st) :=
            fun s => hagain lines s (Nat.le_refl _)
          unfold Env.parse
          simp only [List.length_cons]
          split
          · exact h.refuse hopen _ _
          rename_i hinvalid
          have hvalid : isValidUtf8 line = true := by simpa using hinvalid
          cases hfind : findProperty (env.descs (top usr st)) 0 (skipSpace line) with
          | some found =>
              obtain ⟨i, desc, ptr⟩ := found
              refine (h.applyReflectionArg hhosts hopen hvalid hfind).bind ?_ fun _ => id
              intro rest s hopen
              split
              · exact h.refuse hopen _ _
              split
              · exact h.refuse hopen _ _
              · exact hback s hopen
          | none =>
              simp only
              split
              · have hsome :
                    (some (findKeyword (env.keywords table) (skipSpace line))).isSome := rfl
                refine (h.reading hopen hsome).bind ?_ fun _ => id
                rintro ⟨kwd, ptr⟩ s ⟨hkeyword, hopen⟩
                obtain ⟨hkwd, hptr⟩ := findKeyword_ok (Option.some.inj hkeyword)
                refine (h.keywordLine hkwd hhosts hopen hvalid
                  (hptr.trans (skipSpace_suffix line)) ?_).bind ?_ fun _ => id
                · intro table' child s' hhosts' hopen'
                  exact @ih (child :: st) s' lines table' (level + 1) hlines hhosts' hopen'
                · rintro rest s ⟨hle, hopen⟩
                  exact hagain rest s hle hopen
              split
              · split
                · exact h.refuse hopen _ _
                split
                · exact h.refuse hopen _ _
                · exact ⟨Nat.le_succ _, hopen⟩
              split
              · exact h.refuse hopen _ _
              · exact hback s hopen

/-- The rule for a whole file. -/
theorem gcfgParseFile (h : Respects env usr Hosts Made Open) {table : κ} (hhosts : Hosts table usr)
    (hopen : Open [] s) : Call.Ends (env.gcfgParseFile table usr lines s) (fun _ => Open [])
      (Open []) := by
  have hparse : Call.Ends (env.parse (lines.length + 1) table (top usr []) 0 lines s)
      (fun rest s => rest.length ≤ lines.length ∧ Open [] s) (Open []) :=
    h.parse _ (Nat.lt_succ_self _) hhosts hopen
  exact hparse.bind (fun _ _ hrest => hrest.2) fun _ => id

end Respects

end ImageTool.Gcfg
