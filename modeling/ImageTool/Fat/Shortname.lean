import Mathlib.Data.List.DropRight
import ImageTool.Lib.Word

/-!
# Short names

`fatfs_mk_shortname` makes the eleven characters of a short name and says whether these still
are the name.  Where it says so, the name is what the VFAT rules read from the short name,
but for dots and blanks at its end: these are dropped and not told of.
-/

namespace ImageTool.Fat

open ImageTool.Lib

/-- `FAT_SHORTNAME`. -/
inductive Conversion where
  | error
  | ok
  | same
  | suffixed
  deriving DecidableEq, Repr

/-- The string `illegal`. -/
def illegal : List UInt8 :=
  [0x22, 0x2A, 0x2B, 0x2C, 0x2E, 0x2F, 0x3A, 0x3B, 0x3C, 0x3D, 0x3E, 0x3F, 0x5B, 0x5C, 0x5D,
    0x7C]

/-- `is_illegal_char`. -/
def isIllegalChar (c : UInt8) : Bool :=
  c ≤ 0x20 || c == 0x7F || illegal.contains c

/-- `islower`. -/
def isLower (c : UInt8) : Bool := 0x61 ≤ c && c ≤ 0x7A

/-- `toupper` of a lower case letter. -/
def toUpper (c : UInt8) : UInt8 := c - 0x20

/-- A blank. -/
def blank : UInt8 := 0x20

/-- A dot. -/
def dot : UInt8 := 0x2E

/-- `convert`: what becomes of the conversion, and the characters put out, at most `n`. -/
def convert : Nat → Conversion → List UInt8 → Conversion × List UInt8
  | 0, conv, [] => (conv, [])
  | 0, _, _ :: _ => (.suffixed, [])
  | _ + 1, conv, [] => (conv, [])
  | n + 1, conv, c :: cs =>
      if isIllegalChar c then
        let rest := convert n .suffixed (cs.dropWhile isIllegalChar)
        (rest.1, 0x5F :: rest.2)
      else if isLower c then
        let rest := convert n (if conv ≠ .suffixed then .ok else conv) cs
        (rest.1, toUpper c :: rest.2)
      else
        let rest := convert n conv cs
        (rest.1, c :: rest.2)

/-- The loop of `fatfs_mk_shortname` that finds the extension, from position `i` on: `ext` and
`ext_candidate`. -/
def findExtension : List UInt8 → Nat → Option Nat × Option Nat → Option Nat × Option Nat
  | [], _, found => found
  | c :: cs, i, (ext, candidate) =>
      if c = blank then findExtension cs (i + 1) (ext, candidate)
      else if c = dot then
        findExtension cs (i + 1) (ext, if candidate = none then some (i + 1) else candidate)
      else
        findExtension cs (i + 1) (if candidate ≠ none then candidate else ext, none)

/-- Characters and as many blanks as fit behind them. -/
def pad (n : Nat) (cs : List UInt8) : List UInt8 := cs ++ List.replicate (n - cs.length) blank

/-- The loop of `append_generation` from position `i` down. -/
def lastUsed (shortname : List UInt8) : Nat → Nat
  | 0 => 0
  | i + 1 => if shortname.getD (i + 1) 0 = blank then lastUsed shortname i else i + 1

/-- The text `~gen`, cut off to seven characters by `snprintf`. -/
def generationText (gen : Nat) : List UInt8 :=
  (0x7E :: (Nat.toDigits 10 gen).map fun c => UInt8.ofNat c.toNat).take 7

/-- `append_generation`. -/
def appendGeneration (shortname : List UInt8) (gen : Nat) : Conversion × List UInt8 :=
  if gen > 999999 then (.error, shortname)
  else
    let text := generationText gen
    let i := lastUsed shortname 7
    let i := if text.length > 8 - i then 8 - text.length else i
    (.suffixed, shortname.take i ++ text ++ shortname.drop (i + text.length))

/-- The loop over the blanks and dots at the end of a name without an extension. -/
def trimmed (name : List UInt8) : List UInt8 :=
  name.rdropWhile fun c => c = blank || c = dot

/-- The name and the extension `fatfs_mk_shortname` converts, and how many characters of the
second there are. -/
def splitName (name : List UInt8) : List UInt8 × List UInt8 :=
  match findExtension name 0 (none, none) with
  | (some ext, none) => (name.take (ext - 1), name.drop ext)
  | (some ext, some candidate) => (name.take (ext - 1), (name.drop ext).take (candidate - ext))
  | (none, _) => (trimmed name, [])

/-- `fatfs_mk_shortname`. -/
def mkShortname (name : List UInt8) (gen : Nat) : Conversion × List UInt8 :=
  if name.head? = some blank ∨ name.head? = some dot then (.error, List.replicate 11 blank)
  else
    let (base, extension) := splitName name
    let ext := convert 3 .same extension
    let stem := if base = [] then (ext.1, [0x5F]) else convert 8 ext.1 base
    let shortname := pad 8 stem.2 ++ pad 3 ext.2
    if stem.1 = .suffixed ∨ gen > 1 then appendGeneration shortname gen
    else (stem.1, shortname)

/-! ## What the VFAT rules read from a short name -/

/-- The stem and the extension without the blanks at their ends, joined by a dot. -/
def decodeShortname (shortname : List UInt8) : List UInt8 :=
  let stem := (shortname.take 8).rdropWhile fun c => c = blank
  let extension := ((shortname.drop 8).take 3).rdropWhile fun c => c = blank
  if extension = [] then stem else stem ++ dot :: extension

theorem length_pad {n : Nat} {cs : List UInt8} (h : cs.length ≤ n) : (pad n cs).length = n := by
  simp [pad]
  omega

theorem rdropWhile_pad {cs : List UInt8} (h : ∀ c ∈ cs, c ≠ blank) (n : Nat) :
    (pad n cs).rdropWhile (fun c => c = blank) = cs := by
  unfold pad
  induction n - cs.length with
  | zero =>
      rw [List.replicate_zero, List.append_nil, List.rdropWhile_eq_self_iff]
      intro hne
      simpa using h _ (List.getLast_mem hne)
  | succ k ih =>
      rw [List.replicate_succ', ← List.append_assoc, List.rdropWhile_concat_pos]
      · exact ih
      · simp

/-- A legal stem and extension are read back. -/
theorem decodeShortname_pad {stem extension : List UInt8} (hstem : stem.length ≤ 8)
    (hext : extension.length ≤ 3) (hs : ∀ c ∈ stem, c ≠ blank)
    (he : ∀ c ∈ extension, c ≠ blank) :
    decodeShortname (pad 8 stem ++ pad 3 extension) =
      if extension = [] then stem else stem ++ dot :: extension := by
  have htake : (pad 8 stem ++ pad 3 extension).take 8 = pad 8 stem :=
    List.take_left' (length_pad hstem)
  have hdrop : (pad 8 stem ++ pad 3 extension).drop 8 = pad 3 extension :=
    List.drop_left' (length_pad hstem)
  have hall : (pad 3 extension).take 3 = pad 3 extension :=
    List.take_of_length_le (Nat.le_of_eq (length_pad hext))
  unfold decodeShortname
  rw [htake, hdrop, hall, rdropWhile_pad hs, rdropWhile_pad he]

theorem length_decodeShortname_le (shortname : List UInt8) :
    (decodeShortname shortname).length ≤ 12 := by
  have hstem := (List.rdropWhile_prefix (fun c => decide (c = blank))
    (shortname.take 8)).length_le
  have hext := (List.rdropWhile_prefix (fun c => decide (c = blank))
    ((shortname.drop 8).take 3)).length_le
  simp only [List.length_take, List.length_drop] at hstem hext
  unfold decodeShortname
  dsimp only
  split
  · omega
  · simp only [List.length_append, List.length_cons]
    omega

/-! ## Conversions that change nothing -/

/-- A character of a short name that is left as it is. -/
def Keeps (c : UInt8) : Prop := isIllegalChar c = false ∧ isLower c = false

instance (c : UInt8) : Decidable (Keeps c) := inferInstanceAs (Decidable (_ ∧ _))

theorem convert_same {n : Nat} {conv : Conversion} {cs : List UInt8}
    (h : (convert n conv cs).1 = .same) :
    conv = .same ∧ (convert n conv cs).2 = cs ∧ cs.length ≤ n ∧ ∀ c ∈ cs, Keeps c := by
  induction n generalizing conv cs with
  | zero =>
      cases cs with
      | nil => exact ⟨h, rfl, Nat.le_refl 0, by simp⟩
      | cons c cs => cases h
  | succ n ih =>
      cases cs with
      | nil => exact ⟨h, rfl, Nat.zero_le _, by simp⟩
      | cons c cs =>
          unfold convert at h ⊢
          by_cases hill : isIllegalChar c = true
          · rw [if_pos hill] at h
            exact absurd (ih h).1 (by decide)
          · rw [if_neg hill] at h ⊢
            by_cases hlow : isLower c = true
            · rw [if_pos hlow] at h
              have hconv := (ih h).1
              split at hconv
              · cases hconv
              · rename_i hsuf
                exact absurd hconv (by simpa using fun hs => hsuf (by rw [hs]; decide))
            · rw [if_neg hlow] at h ⊢
              obtain ⟨hconv, hout, hlen, hkeeps⟩ := ih h
              rw [Bool.not_eq_true] at hill hlow
              exact ⟨hconv, congrArg (c :: ·) hout, Nat.succ_le_succ hlen,
                List.forall_mem_cons.2 ⟨⟨hill, hlow⟩, hkeeps⟩⟩

theorem convert_eq_self {n : Nat} {cs : List UInt8} (hlen : cs.length ≤ n)
    (hkeeps : ∀ c ∈ cs, Keeps c) : convert n .same cs = (.same, cs) := by
  induction n generalizing cs with
  | zero =>
      rw [List.length_eq_zero_iff.1 (Nat.le_zero.1 hlen)]
      rfl
  | succ n ih =>
      cases cs with
      | nil => rfl
      | cons c cs =>
          obtain ⟨⟨hill, hlow⟩, hrest⟩ := List.forall_mem_cons.1 hkeeps
          rw [convert, if_neg (by simp [hill]), if_neg (by simp [hlow]),
            ih (Nat.le_of_succ_le_succ hlen) hrest]

theorem length_convert_le (n : Nat) (conv : Conversion) (cs : List UInt8) :
    (convert n conv cs).2.length ≤ n := by
  induction n generalizing conv cs with
  | zero => cases cs <;> simp [convert]
  | succ n ih =>
      cases cs with
      | nil => simp [convert]
      | cons c cs =>
          unfold convert
          split
          · exact Nat.succ_le_succ (ih _ _)
          · split
            · exact Nat.succ_le_succ (ih _ _)
            · exact Nat.succ_le_succ (ih _ _)

/-- What the loop over a name has found behind `front`. -/
structure Found (front : List UInt8) (found : Option Nat × Option Nat) : Prop where
  ext : ∀ e, found.1 = some e → 0 < e ∧ front[e - 1]? = some dot ∧ e < front.length
  candidate : ∀ c, found.2 = some c → 0 < c ∧ front[c - 1]? = some dot ∧
    ∀ e, found.1 = some e → e < c

theorem Found.findExtension {front cs : List UInt8} {found : Option Nat × Option Nat}
    (h : Found front found) :
    Found (front ++ cs) (Fat.findExtension cs front.length found) := by
  induction cs generalizing front found with
  | nil =>
      rw [List.append_nil]
      exact h
  | cons c cs ih =>
      obtain ⟨ext, candidate⟩ := found
      have hold : ∀ k, 0 < k → front[k - 1]? = some dot → (front ++ [c])[k - 1]? = some dot := by
        intro k _ hdot
        rw [List.getElem?_append_left (List.getElem?_eq_some_iff.1 hdot).1, hdot]
      have hlen : (front ++ [c]).length = front.length + 1 := by simp
      have hstep : ∀ found', Found (front ++ [c]) found' →
          Found (front ++ c :: cs) (Fat.findExtension cs (front.length + 1) found') := by
        intro found' h'
        have hrec := ih h'
        rwa [hlen, List.append_assoc] at hrec
      unfold Fat.findExtension
      by_cases hblank : c = blank
      · rw [if_pos hblank]
        refine hstep _ ⟨fun e he => ?_, fun k hk => ?_⟩
        · obtain ⟨hpos, hdot, hlt⟩ := h.ext e he
          exact ⟨hpos, hold e hpos hdot, by omega⟩
        · obtain ⟨hpos, hdot, hlt⟩ := h.candidate k hk
          exact ⟨hpos, hold k hpos hdot, hlt⟩
      rw [if_neg hblank]
      by_cases hdot : c = dot
      · rw [if_pos hdot]
        refine hstep _ ⟨fun e he => ?_, fun k hk => ?_⟩
        · obtain ⟨hpos, hd, hlt⟩ := h.ext e he
          exact ⟨hpos, hold e hpos hd, by omega⟩
        · dsimp only at hk
          split at hk
          · cases hk
            refine ⟨Nat.succ_pos _, by simp [hdot], fun e he => ?_⟩
            have hlt := (h.ext e he).2.2
            omega
          · obtain ⟨hpos, hd, hlt⟩ := h.candidate k hk
            exact ⟨hpos, hold k hpos hd, hlt⟩
      · rw [if_neg hdot]
        refine hstep _ ⟨fun e he => ?_, fun k hk => by cases hk⟩
        dsimp only at he
        split at he
        · obtain ⟨hpos, hd, -⟩ := h.candidate e he
          have hlt := (List.getElem?_eq_some_iff.1 hd).1
          exact ⟨hpos, hold e hpos hd, by omega⟩
        · obtain ⟨hpos, hd, hlt⟩ := h.ext e he
          exact ⟨hpos, hold e hpos hd, by omega⟩

theorem found_name (name : List UInt8) : Found name (findExtension name 0 (none, none)) := by
  have hstart : Found [] (none, none) := ⟨fun _ h => (nomatch h), fun _ h => (nomatch h)⟩
  exact hstart.findExtension

theorem ne_blank_of_legal {c : UInt8} (h : isIllegalChar c = false) : c ≠ blank := by
  rintro rfl
  exact absurd h (by decide)

theorem ne_dot_of_legal {c : UInt8} (h : isIllegalChar c = false) : c ≠ dot := by
  rintro rfl
  exact absurd h (by decide)

theorem trimmed_eq_self {name : List UInt8} (hne : name ≠ [])
    (hlast : isIllegalChar (name.getLast hne) = false) : trimmed name = name := by
  unfold trimmed
  rw [List.rdropWhile_eq_self_iff]
  intro _
  simp [ne_blank_of_legal hlast, ne_dot_of_legal hlast]

theorem trimmed_ne_nil {name : List UInt8} (hblank : name.head? ≠ some blank)
    (hdot : name.head? ≠ some dot) (hne : name ≠ []) : trimmed name ≠ [] := by
  intro h
  unfold trimmed at h
  rw [List.rdropWhile_eq_nil_iff] at h
  obtain ⟨c, cs, rfl⟩ := List.exists_cons_of_ne_nil hne
  have hc := h c List.mem_cons_self
  simp only [List.head?_cons, ne_eq, Option.some.injEq] at hblank hdot
  simp [hblank, hdot] at hc

/-- A name is split at the dot in front of its extension, or has none; an extension that has
dots of its own is not legal. -/
theorem splitName_cases {name : List UInt8} (hblank : name.head? ≠ some blank)
    (hdot : name.head? ≠ some dot) (hne : name ≠ []) :
    (splitName name).1 ≠ [] ∧
      ((splitName name).2 = [] ∧ (splitName name).1 = trimmed name ∨
        (splitName name).2 ≠ [] ∧
          (name = (splitName name).1 ++ dot :: (splitName name).2 ∨
            dot ∈ (splitName name).2)) := by
  have hfound := found_name name
  unfold splitName
  generalize findExtension name 0 (none, none) = found at hfound
  obtain ⟨_ | e, candidate⟩ := found
  · exact ⟨trimmed_ne_nil hblank hdot hne, Or.inl ⟨rfl, rfl⟩⟩
  obtain ⟨hpos, hat, hlt⟩ := hfound.ext e rfl
  have hstart : 1 < e := by
    by_contra hle
    obtain rfl : e = 1 := by omega
    exact hdot (by rw [List.head?_eq_getElem?]; exact hat)
  have hbase : name.take (e - 1) ≠ [] := by
    have hlen : (name.take (e - 1)).length = e - 1 := by
      rw [List.length_take]
      omega
    intro hnil
    rw [hnil, List.length_nil] at hlen
    omega
  cases candidate with
  | none =>
      refine ⟨hbase, Or.inr ⟨?_, Or.inl ?_⟩⟩
      · simpa using hlt
      · obtain ⟨hin, hget⟩ := List.getElem?_eq_some_iff.1 hat
        have hdrop : name.drop (e - 1) = dot :: name.drop e := by
          rw [List.drop_eq_getElem_cons hin, hget, show e - 1 + 1 = e by omega]
        show name = name.take (e - 1) ++ dot :: name.drop e
        rw [← hdrop, List.take_append_drop]
  | some k =>
      obtain ⟨-, hk, hek⟩ := hfound.candidate k rfl
      have hlt' := hek e rfl
      have hmem : dot ∈ (name.drop e).take (k - e) := by
        apply List.mem_of_getElem? (i := k - 1 - e)
        rw [List.getElem?_take_of_lt (by omega), List.getElem?_drop,
          show e + (k - 1 - e) = k - 1 by omega, hk]
      exact ⟨hbase, Or.inr ⟨List.ne_nil_of_mem hmem, Or.inr hmem⟩⟩

theorem appendGeneration_ne_same (shortname : List UInt8) (gen : Nat) :
    (appendGeneration shortname gen).1 ≠ .same := by
  unfold appendGeneration
  split <;> simp

/-- What is said to be the name is a base, without an extension the name up to the dots and blanks
at its end, and with one the name up to a dot. -/
theorem mkShortname_same {name shortname : List UInt8} (hne : name ≠ [])
    (h : mkShortname name 1 = (.same, shortname)) :
    ∃ base extension : List UInt8, shortname = pad 8 base ++ pad 3 extension ∧
      (base.length ≤ 8 ∧ ∀ c ∈ base, Keeps c) ∧
      (extension.length ≤ 3 ∧ ∀ c ∈ extension, Keeps c) ∧
      (extension = [] ∧ base = trimmed name ∨
        extension ≠ [] ∧ name = base ++ dot :: extension) := by
  unfold mkShortname at h
  split at h
  · cases h
  rename_i hhead
  simp only [not_or] at hhead
  obtain ⟨hbase, hcases⟩ := splitName_cases hhead.1 hhead.2 hne
  generalize splitName name = parts at h hbase hcases
  obtain ⟨base, extension⟩ := parts
  dsimp only at h hbase hcases
  rw [if_neg hbase] at h
  split at h
  · exact absurd (congrArg Prod.fst h) (appendGeneration_ne_same _ _)
  obtain ⟨hsame, rfl⟩ := Prod.mk.inj h
  obtain ⟨hext, hstem, hstemlen, hstemkeeps⟩ := convert_same hsame
  obtain ⟨-, hextout, hextlen, hextkeeps⟩ := convert_same hext
  refine ⟨base, extension, by rw [hstem, hextout], ⟨hstemlen, hstemkeeps⟩, ⟨hextlen, hextkeeps⟩, ?_⟩
  rcases hcases with hnone | ⟨hsome, hname | hmem⟩
  · exact Or.inl hnone
  · exact Or.inr ⟨hsome, hname⟩
  · exact absurd rfl (ne_dot_of_legal (hextkeeps _ hmem).1)

/-- A name with an extension that is kept has no dots and blanks at its end. -/
theorem trimmed_extension {base extension : List UInt8} (hsome : extension ≠ [])
    (hkeeps : ∀ c ∈ extension, Keeps c) :
    trimmed (base ++ dot :: extension) = base ++ dot :: extension := by
  apply trimmed_eq_self (List.append_ne_nil_of_right_ne_nil _ (List.cons_ne_nil _ _))
  rw [List.getLast_append_of_ne_nil _ (List.cons_ne_nil _ _), List.getLast_cons hsome]
  exact (hkeeps _ (List.getLast_mem hsome)).1

/-- A short name that is said to be the name is read as the name without the dots and blanks at
its end. -/
theorem decodeShortname_same {name shortname : List UInt8} (hne : name ≠ [])
    (h : mkShortname name 1 = (.same, shortname)) :
    decodeShortname shortname = trimmed name := by
  obtain ⟨base, extension, rfl, ⟨hlen, hkeeps⟩, ⟨hextlen, hextkeeps⟩, hname⟩ :=
    mkShortname_same hne h
  rw [decodeShortname_pad hlen hextlen (fun c hc => ne_blank_of_legal (hkeeps c hc).1)
    (fun c hc => ne_blank_of_legal (hextkeeps c hc).1)]
  rcases hname with ⟨hnil, rfl⟩ | ⟨hsome, rfl⟩
  · rw [if_pos hnil]
  · rw [if_neg hsome, trimmed_extension hsome hextkeeps]

/-! ## Names that lose their end -/

/-- A base that is kept, with dots or blanks behind it. -/
structure LosesEnd (name : List UInt8) : Prop where
  ends : trimmed name ≠ name
  length : (trimmed name).length ≤ 8
  keeps : ∀ c ∈ trimmed name, Keeps c

theorem losesEnd_iff {name : List UInt8} : LosesEnd name ↔
    trimmed name ≠ name ∧ (trimmed name).length ≤ 8 ∧ ∀ c ∈ trimmed name, Keeps c :=
  ⟨fun ⟨hends, hlen, hkeeps⟩ => ⟨hends, hlen, hkeeps⟩,
    fun ⟨hends, hlen, hkeeps⟩ => ⟨hends, hlen, hkeeps⟩⟩

instance (name : List UInt8) : Decidable (LosesEnd name) :=
  letI : Decidable (∀ c ∈ trimmed name, Keeps c) := List.decidableBAll Keeps (trimmed name)
  decidable_of_iff _ losesEnd_iff.symm

/-- Dots and blanks at the end of a name are no extension. -/
theorem findExtension_trimmed {stem tail : List UInt8} (hstem : ∀ c ∈ stem, Keeps c)
    (htail : ∀ c ∈ tail, c = blank ∨ c = dot) (i : Nat) :
    (findExtension (stem ++ tail) i (none, none)).1 = none := by
  have hend : ∀ (tail : List UInt8) (i : Nat) (candidate : Option Nat),
      (∀ c ∈ tail, c = blank ∨ c = dot) →
        (findExtension tail i (none, candidate)).1 = none := by
    intro tail
    induction tail with
    | nil => exact fun _ _ _ => rfl
    | cons c cs ih =>
        intro i candidate h
        obtain ⟨hc, hcs⟩ := List.forall_mem_cons.1 h
        rw [findExtension]
        split
        · exact ih _ _ hcs
        · rename_i hblank
          rw [if_pos (hc.resolve_left hblank)]
          exact ih _ _ hcs
  induction stem generalizing i with
  | nil => exact hend tail i none htail
  | cons c cs ih =>
      obtain ⟨hc, hcs⟩ := List.forall_mem_cons.1 hstem
      rw [List.cons_append, findExtension, if_neg (ne_blank_of_legal hc.1),
        if_neg (ne_dot_of_legal hc.1), if_neg (by simp)]
      exact ih hcs _

theorem pad_eleven {cs : List UInt8} (h : cs.length ≤ 8) : pad 8 cs ++ pad 3 [] = pad 11 cs := by
  unfold pad
  rw [List.append_assoc, List.nil_append, List.length_nil, List.replicate_append_replicate]
  congr 2
  omega

/-- Such a name is said to be its short name, which has only the base. -/
theorem LosesEnd.mkShortname_eq {name : List UInt8} (h : LosesEnd name)
    (hne : trimmed name ≠ []) : mkShortname name 1 = (.same, pad 11 (trimmed name)) := by
  have hname : trimmed name ++ name.rtakeWhile (fun c => c = blank || c = dot) = name :=
    List.rdropWhile_append_rtakeWhile
  have htail : ∀ c ∈ name.rtakeWhile (fun c => c = blank || c = dot), c = blank ∨ c = dot := by
    intro c hc
    simpa using List.mem_rtakeWhile_imp hc
  have hhead : ¬ (name.head? = some blank ∨ name.head? = some dot) := by
    have hfirst := (h.keeps _ (List.head_mem hne)).1
    rw [← hname, List.head?_append_of_ne_nil _ hne, List.head?_eq_some_head hne]
    simpa using ⟨ne_blank_of_legal hfirst, ne_dot_of_legal hfirst⟩
  have hsplit : splitName name = (trimmed name, []) := by
    have hnone := findExtension_trimmed h.keeps htail 0
    rw [hname] at hnone
    unfold splitName
    generalize findExtension name 0 (none, none) = found at hnone
    obtain ⟨ext, candidate⟩ := found
    cases hnone
    rfl
  rw [mkShortname, if_neg hhead, hsplit]
  dsimp only
  rw [if_neg hne, convert_eq_self (Nat.zero_le 3) (by simp), convert_eq_self h.length h.keeps,
    if_neg (by simp), pad_eleven h.length]

/-- No other name loses its end while it is said to be its short name. -/
theorem losesEnd_of_same {name shortname : List UInt8} (hne : name ≠ [])
    (h : mkShortname name 1 = (.same, shortname)) (hends : trimmed name ≠ name) :
    LosesEnd name := by
  obtain ⟨base, extension, -, ⟨hlen, hkeeps⟩, ⟨-, hextkeeps⟩, hname⟩ := mkShortname_same hne h
  rcases hname with ⟨-, rfl⟩ | ⟨hsome, rfl⟩
  · exact ⟨hends, hlen, hkeeps⟩
  · exact absurd (trimmed_extension hsome hextkeeps) hends

/-! ## Length and generation -/

theorem lastUsed_le (shortname : List UInt8) (i : Nat) : lastUsed shortname i ≤ i := by
  induction i with
  | zero => simp [lastUsed]
  | succ i ih =>
      unfold lastUsed
      split <;> omega

theorem length_appendGeneration {shortname : List UInt8} (h : shortname.length = 11)
    (gen : Nat) : (appendGeneration shortname gen).2.length = 11 := by
  unfold appendGeneration
  split
  · exact h
  · have hlast := lastUsed_le shortname 7
    have htext : (generationText gen).length ≤ 7 := by
      unfold generationText
      simp
    dsimp only
    generalize generationText gen = text at *
    simp only [List.length_append, List.length_take, List.length_drop, h]
    split <;> omega

theorem length_mkShortname (name : List UInt8) (gen : Nat) :
    (mkShortname name gen).2.length = 11 := by
  unfold mkShortname
  split
  · simp
  generalize splitName name = parts
  obtain ⟨base, extension⟩ := parts
  dsimp only
  have hext := length_convert_le 3 .same extension
  have hstem : (if base = [] then ((convert 3 .same extension).1, [0x5F])
      else convert 8 (convert 3 .same extension).1 base).2.length ≤ 8 := by
    split
    · simp
    · exact length_convert_le _ _ _
  generalize (if base = [] then ((convert 3 .same extension).1, [0x5F])
      else convert 8 (convert 3 .same extension).1 base) = stem at *
  have hlen : (pad 8 stem.2 ++ pad 3 (convert 3 .same extension).2).length = 11 := by
    rw [List.length_append, length_pad hstem, length_pad hext]
  split
  · exact length_appendGeneration hlen gen
  · exact hlen

/-- Only the first short name that is tried can be the name. -/
theorem gen_le_one_of_same {name : List UInt8} {gen : Nat}
    (h : (mkShortname name gen).1 = .same) : gen ≤ 1 := by
  by_contra hgen
  unfold mkShortname at h
  split at h
  · cases h
  dsimp only at h
  rw [if_pos (Or.inr (by omega))] at h
  exact appendGeneration_ne_same _ _ h

/-- The loop of `fatfs_serialize_directory` that looks for a short name not in the list, from
generation `gen` on. -/
def shortnameLoop (taken : List (List UInt8)) (name : List UInt8) :
    Nat → Nat → Conversion × List UInt8
  | 0, _ => (.error, [])
  | n + 1, gen =>
      let tried := mkShortname name gen
      if tried.1 = .error then tried
      else if tried.2 ∈ taken then shortnameLoop taken name n (gen + 1)
      else tried

/-- The short name of a directory entry; generation 1000000 is an error. -/
def chooseShortname (taken : List (List UInt8)) (name : List UInt8) :
    Conversion × List UInt8 := shortnameLoop taken name 1000000 1

theorem shortnameLoop_cases (taken : List (List UInt8)) (name : List UInt8) (n gen : Nat) :
    (shortnameLoop taken name n gen).1 = .error ∨
      ∃ g, gen ≤ g ∧ shortnameLoop taken name n gen = mkShortname name g := by
  induction n generalizing gen with
  | zero => exact Or.inl rfl
  | succ n ih =>
      unfold shortnameLoop
      dsimp only
      split
      · exact Or.inr ⟨gen, Nat.le_refl _, rfl⟩
      · split
        · rcases ih (gen + 1) with herr | ⟨g, hg, heq⟩
          · exact Or.inl herr
          · exact Or.inr ⟨g, by omega, heq⟩
        · exact Or.inr ⟨gen, Nat.le_refl _, rfl⟩

/-- A name is its short name where no sibling has that. -/
theorem chooseShortname_same_iff {taken : List (List UInt8)} {name : List UInt8} :
    (chooseShortname taken name).1 = .same ↔
      (mkShortname name 1).1 = .same ∧ (mkShortname name 1).2 ∉ taken := by
  have hlater : (shortnameLoop taken name 999999 2).1 ≠ .same := by
    rcases shortnameLoop_cases taken name 999999 2 with herr | ⟨g, hg, heq⟩
    · rw [herr]
      exact nofun
    · rw [heq]
      intro hsame
      have hgen := gen_le_one_of_same hsame
      omega
  rw [chooseShortname, shortnameLoop]
  by_cases herr : (mkShortname name 1).1 = .error
  · simp [herr]
  · rw [if_neg herr]
    by_cases htaken : (mkShortname name 1).2 ∈ taken
    · simp [htaken, hlater]
    · simp [htaken]

end ImageTool.Fat
