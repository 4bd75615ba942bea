import ImageTool.Fat.Vfat
import Mathlib.Data.List.GetD
import Mathlib.Order.Interval.Finset.Nat

/-!
# The short names of a directory

`fatfs_serialize_directory` tries one generation after another until a short name is not in the
list of those it has written.  The generations of a name are different short names from the second
one on, so there is one left for each child of a directory with fewer than 999999 of them.
-/

namespace ImageTool.Fat

open ImageTool.Lib ImageTool.Fstream

/-! ## The list -/

/-- `struct short_list_t`.  Of the names, the first `used`. -/
structure ShortList where
  name : List (List UInt8)
  used : name.length ≤ 10

/-- `is_in_short_name_list`. -/
def isInShortNameList (list : List ShortList) (name : List UInt8) : Bool :=
  list.any fun it => it.name.contains name

/-- The loop of `add_to_short_name_list`: the first entry with room takes the name. -/
def addToEntries (name : List UInt8) : List ShortList → Option (List ShortList)
  | [] => none
  | it :: list =>
      if h : it.name.length < 10 then
        some (⟨it.name ++ [name], by rw [List.length_append]; exact h⟩ :: list)
      else (addToEntries name list).map (it :: ·)

/-- `add_to_short_name_list`. -/
def addToShortNameList (list : List ShortList) (name : List UInt8) : List ShortList :=
  (addToEntries name list).getD (⟨[name], by simp⟩ :: list)

/-- The loop of `fatfs_serialize_directory` over the generations of a name, from `gen` on. -/
def searchShortname (list : List ShortList) (name : List UInt8) :
    Nat → Nat → Conversion × List UInt8
  | 0, _ => (.error, [])
  | n + 1, gen =>
      let tried := mkShortname name gen
      if tried.1 = .error then tried
      else if isInShortNameList list tried.2 then searchShortname list name n (gen + 1)
      else tried

section Write

variable {ω : Type} (strm : Ostream ω) (fs : FsParameters)

/-- The loop of `fatfs_serialize_directory`, with the list it keeps. -/
def serializeListed : List ShortList → List Child → Call ω Unit
  | _, [] => pure ()
  | list, it :: rest =>
      if isNonAscii it.name then Call.fail
      else
        let (conv, shortname) := searchShortname list it.name 1000000 1
        if conv = .error then Call.fail
        else do
          Call.guard (conv = .ok ∨ conv = .suffixed) (writeLongEntry strm it.name shortname)
          writeShortEntry strm fs it shortname
          serializeListed (addToShortNameList list shortname) rest

/-- What the loop writes for children with the short names that have been found. -/
def writeNamed : List (Child × Conversion × List UInt8) → Call ω Unit
  | [] => pure ()
  | (it, conv, shortname) :: rest => do
      Call.guard (conv = .ok ∨ conv = .suffixed) (writeLongEntry strm it.name shortname)
      writeShortEntry strm fs it shortname
      writeNamed rest

end Write

/-- What the loop over the generations finds for one child after another. -/
def shortnames : List ShortList → List Child → List (Conversion × List UInt8)
  | _, [] => []
  | list, it :: rest =>
      let found := searchShortname list it.name 1000000 1
      found :: shortnames (addToShortNameList list found.2) rest

/-- The list has the names of `taken`. -/
def Lists (list : List ShortList) (taken : List (List UInt8)) : Prop :=
  ∀ x, isInShortNameList list x = true ↔ x ∈ taken

theorem isIn_cons (it : ShortList) (list : List ShortList) (x : List UInt8) :
    isInShortNameList (it :: list) x = true ↔ x ∈ it.name ∨ isInShortNameList list x = true := by
  unfold isInShortNameList
  rw [List.any_cons, Bool.or_eq_true, List.contains_iff_mem]

theorem isIn_addToEntries {name : List UInt8} {list list' : List ShortList}
    (h : addToEntries name list = some list') (x : List UInt8) :
    isInShortNameList list' x = true ↔ x = name ∨ isInShortNameList list x = true := by
  induction list generalizing list' with
  | nil => cases h
  | cons it list ih =>
      rw [addToEntries] at h
      split at h
      · cases h
        rw [isIn_cons, isIn_cons, List.mem_append, List.mem_singleton]
        tauto
      · obtain ⟨list₁, hlist₁, rfl⟩ := Option.map_eq_some_iff.1 h
        rw [isIn_cons, isIn_cons, ih hlist₁]
        tauto

/-- A name that is added is in the list, and nothing else is that was not. -/
theorem Lists.add {list : List ShortList} {taken : List (List UInt8)} (h : Lists list taken)
    (name : List UInt8) : Lists (addToShortNameList list name) (name :: taken) := by
  intro x
  rw [List.mem_cons, ← h x]
  unfold addToShortNameList
  cases hadd : addToEntries name list with
  | none =>
      change isInShortNameList (⟨[name], _⟩ :: list) x = true ↔ _
      rw [isIn_cons, List.mem_singleton]
  | some list' => exact isIn_addToEntries hadd x

theorem lists_nil : Lists [] [] := fun _ => iff_of_false Bool.false_ne_true List.not_mem_nil

theorem searchShortname_eq {list : List ShortList} {taken : List (List UInt8)}
    (h : Lists list taken) (name : List UInt8) (n gen : Nat) :
    searchShortname list name n gen = shortnameLoop taken name n gen := by
  induction n generalizing gen with
  | zero => rfl
  | succ n ih =>
      rw [searchShortname, shortnameLoop, ih, if_congr (h (mkShortname name gen).2) rfl rfl]

/-- A list in entries of ten names is as good as one of single names. -/
theorem serializeListed_eq {ω : Type} (strm : Ostream ω) (fs : FsParameters)
    {list : List ShortList} {taken : List (List UInt8)} (h : Lists list taken)
    (children : List Child) :
    serializeListed strm fs list children = serializeChildren strm fs taken children := by
  induction children generalizing list taken with
  | nil => rfl
  | cons it rest ih =>
      rw [serializeListed, serializeChildren, searchShortname_eq h, chooseShortname]
      split
      · rfl
      · dsimp only
        rw [ih (h.add _)]

/-! ## Legal characters -/

/-- A character of a short name. -/
structure LegalChar (c : UInt8) : Prop where
  ascii : c < 0x80
  legal : isIllegalChar c = false
  upper : isLower c = false

/-- A legal short name: eleven bytes, of which the base and the extension are characters and then
blanks, and the first one is none. -/
structure LegalShortname (shortname : List UInt8) : Prop where
  length : shortname.length = 11
  first : shortname.head? ≠ some blank
  base : ∃ cs, shortname.take 8 = pad 8 cs ∧ ∀ c ∈ cs, LegalChar c
  extension : ∃ cs, shortname.drop 8 = pad 3 cs ∧ ∀ c ∈ cs, LegalChar c

instance (c : UInt8) : Decidable (LegalChar c) :=
  decidable_of_iff (c < 0x80 ∧ isIllegalChar c = false ∧ isLower c = false)
    ⟨fun h => ⟨h.1, h.2.1, h.2.2⟩, fun h => ⟨h.1, h.2, h.3⟩⟩

theorem uint8_cases {p : UInt8 → Prop} (h : ∀ n < 256, p (UInt8.ofNat n)) (c : UInt8) : p c := by
  have hc := h c.toNat c.toNat_lt
  rwa [UInt8.ofNat_toNat] at hc

theorem lt_of_ascii (c : UInt8) : c &&& 0x80 = 0 → c < 0x80 :=
  uint8_cases (p := fun c => c &&& 0x80 = 0 → c < 0x80) (by decide +kernel) c

theorem legalChar_toUpper (c : UInt8) : isLower c = true → LegalChar (toUpper c) :=
  uint8_cases (p := fun c => isLower c = true → LegalChar (toUpper c)) (by decide +kernel) c

theorem LegalChar.ne_blank {c : UInt8} (h : LegalChar c) : c ≠ blank := ne_blank_of_legal h.legal

/-- The characters that are put out are legal ones. -/
theorem convert_legal {n : Nat} {conv : Conversion} {cs : List UInt8} (h : ∀ c ∈ cs, c < 0x80) :
    ∀ c ∈ (convert n conv cs).2, LegalChar c := by
  induction n generalizing conv cs with
  | zero => cases cs <;> exact fun c hc => absurd hc List.not_mem_nil
  | succ n ih =>
      cases cs with
      | nil => exact fun c hc => absurd hc List.not_mem_nil
      | cons c cs =>
          have hrest : ∀ x ∈ cs, x < 0x80 := fun x hx => h x (List.mem_cons_of_mem _ hx)
          have hdropped : ∀ x ∈ cs.dropWhile isIllegalChar, x < 0x80 :=
            fun x hx => hrest x ((List.dropWhile_suffix _).subset hx)
          rw [convert]
          by_cases hill : isIllegalChar c = true
          · rw [if_pos hill]
            exact List.forall_mem_cons.2 ⟨by decide, ih hdropped⟩
          · rw [if_neg hill]
            by_cases hlow : isLower c = true
            · rw [if_pos hlow]
              exact List.forall_mem_cons.2 ⟨legalChar_toUpper c hlow, ih hrest⟩
            · rw [if_neg hlow]
              rw [Bool.not_eq_true] at hill hlow
              exact List.forall_mem_cons.2 ⟨⟨h c List.mem_cons_self, hill, hlow⟩, ih hrest⟩

theorem convert_ne_nil (n : Nat) (conv : Conversion) {cs : List UInt8} (h : cs ≠ []) :
    (convert (n + 1) conv cs).2 ≠ [] := by
  obtain ⟨c, cs, rfl⟩ := List.exists_cons_of_ne_nil h
  rw [convert]
  split
  · exact List.cons_ne_nil _ _
  · split <;> exact List.cons_ne_nil _ _

theorem convert_ne_error {n : Nat} {conv : Conversion} {cs : List UInt8} (h : conv ≠ .error) :
    (convert n conv cs).1 ≠ .error := by
  induction n generalizing conv cs with
  | zero =>
      cases cs with
      | nil => exact h
      | cons c cs =>
          rw [convert]
          decide
  | succ n ih =>
      cases cs with
      | nil => exact h
      | cons c cs =>
          rw [convert]
          split
          · exact ih (by decide)
          · split
            · apply ih
              split
              · decide
              · exact h
            · exact ih h

/-! ## The generations of a name -/

/-- What a name becomes before its generation is put in. -/
structure Converted (conv : Conversion) (stem extension : List UInt8) : Prop where
  converted : conv ≠ .error
  named : stem ≠ []
  stemLength : stem.length ≤ 8
  extensionLength : extension.length ≤ 3
  stemLegal : ∀ c ∈ stem, LegalChar c
  extensionLegal : ∀ c ∈ extension, LegalChar c

/-- The name and the extension have characters of the name only. -/
theorem mem_splitName {name : List UInt8} {c : UInt8} :
    (c ∈ (splitName name).1 → c ∈ name) ∧ (c ∈ (splitName name).2 → c ∈ name) := by
  unfold splitName
  split
  · exact ⟨List.mem_of_mem_take, List.mem_of_mem_drop⟩
  · exact ⟨List.mem_of_mem_take, fun hc => List.mem_of_mem_drop (List.mem_of_mem_take hc)⟩
  · exact ⟨fun hc => (List.rdropWhile_prefix _ _).subset hc, fun hc => absurd hc List.not_mem_nil⟩

theorem mkShortname_eq {name : List UInt8} (hne : name ≠ []) (hascii : ∀ c ∈ name, c < 0x80)
    (hblank : name.head? ≠ some blank) (hdot : name.head? ≠ some dot) :
    ∃ conv stem extension, Converted conv stem extension ∧ ∀ gen, mkShortname name gen =
      if conv = .suffixed ∨ gen > 1 then appendGeneration (pad 8 stem ++ pad 3 extension) gen
      else (conv, pad 8 stem ++ pad 3 extension) := by
  have hbase := (splitName_cases hblank hdot hne).1
  have hstem : ∀ c ∈ (splitName name).1, c < 0x80 := fun c hc => hascii c (mem_splitName.1 hc)
  have hextension : ∀ c ∈ (splitName name).2, c < 0x80 := fun c hc => hascii c (mem_splitName.2 hc)
  obtain ⟨ext, hext⟩ : ∃ ext, convert 3 .same (splitName name).2 = ext := ⟨_, rfl⟩
  obtain ⟨made, hmade⟩ : ∃ made, convert 8 ext.1 (splitName name).1 = made := ⟨_, rfl⟩
  refine ⟨made.1, made.2, ext.2, ?_, fun gen => ?_⟩
  · rw [← hmade, ← hext]
    exact ⟨convert_ne_error (convert_ne_error nofun), convert_ne_nil 7 _ hbase,
      length_convert_le _ _ _, length_convert_le _ _ _, convert_legal hstem,
      convert_legal hextension⟩
  · rw [mkShortname, if_neg (not_or.2 ⟨hblank, hdot⟩)]
    dsimp only
    rw [if_neg hbase, hext, hmade]

/-- The loop stops at the last character that is not a blank. -/
theorem lastUsed_eq {shortname : List UInt8} {m : Nat} (i : Nat) (hm : m ≤ i)
    (hat : shortname.getD m 0 ≠ blank)
    (hbehind : ∀ j, m < j → j ≤ i → shortname.getD j 0 = blank) : lastUsed shortname i = m := by
  induction i with
  | zero => exact (Nat.le_zero.1 hm).symm
  | succ i ih =>
      rw [lastUsed]
      rcases Nat.lt_or_ge i m with hlt | hge
      · obtain rfl : m = i + 1 := by omega
        rw [if_neg hat]
      · rw [if_pos (hbehind (i + 1) (by omega) (Nat.le_refl _))]
        exact ih hge fun j hj hji => hbehind j hj (by omega)

section Generation

variable {stem extension : List UInt8} (hstem : stem ≠ []) (hlength : stem.length ≤ 8)
  (hlegal : ∀ c ∈ stem, LegalChar c)

include hstem hlength hlegal

theorem lastUsed_pad (extension : List UInt8) :
    lastUsed (pad 8 stem ++ extension) 7 = stem.length - 1 := by
  have hpos : 0 < stem.length := List.length_pos_iff.2 hstem
  have hpad : (pad 8 stem).length = 8 := length_pad hlength
  apply lastUsed_eq 7 (by omega)
  · rw [List.getD_append _ _ _ _ (by omega)]
    unfold pad
    rw [List.getD_append _ _ _ _ (by omega), List.getD_eq_getElem _ _ (by omega)]
    exact (hlegal _ (List.getElem_mem _)).ne_blank
  · intro j hj hj7
    rw [List.getD_append _ _ _ _ (by omega)]
    unfold pad
    rw [List.getD_append_right _ _ _ _ (by omega), List.getD_replicate _ (by omega)]

/-- The generation takes the place of the last character, or of the last bytes of the base. -/
theorem appendGeneration_pad (extension : List UInt8) {gen : Nat} (hgen : gen ≤ 999999) :
    appendGeneration (pad 8 stem ++ extension) gen = (.suffixed,
      pad 8 (stem.take (min (stem.length - 1) (8 - (generationText gen).length)) ++
        generationText gen) ++ extension) := by
  have hpos : 0 < stem.length := List.length_pos_iff.2 hstem
  have hpad : (pad 8 stem).length = 8 := length_pad hlength
  have htext : (generationText gen).length ≤ 7 := List.length_take_le _ _
  have htextPos : 0 < (generationText gen).length := by
    unfold generationText
    rw [List.take_succ_cons]
    exact Nat.succ_pos _
  rw [appendGeneration, if_neg (by omega), lastUsed_pad hstem hlength hlegal]
  dsimp only
  generalize generationText gen = text at *
  obtain ⟨i, hi⟩ : ∃ i, min (stem.length - 1) (8 - text.length) = i := ⟨_, rfl⟩
  have hplace : (if text.length > 8 - (stem.length - 1) then 8 - text.length
      else stem.length - 1) = i := by
    split <;> omega
  rw [hplace, hi]
  have htake : (pad 8 stem ++ extension).take i = stem.take i := by
    rw [List.take_append_of_le_length (by omega)]
    exact List.take_append_of_le_length (by omega)
  have hdrop : (pad 8 stem ++ extension).drop (i + text.length) =
      List.replicate (8 - (i + text.length)) blank ++ extension := by
    rw [List.drop_append_of_le_length (by omega)]
    unfold pad
    rw [List.drop_append, List.drop_of_length_le (by omega), List.nil_append, List.drop_replicate]
    congr 2
    omega
  have hlen : (stem.take i ++ text).length = i + text.length := by
    rw [List.length_append, List.length_take]
    omega
  rw [htake, hdrop, pad, hlen, List.append_assoc, List.append_assoc, List.append_assoc]

end Generation

/-! ## The text of a generation -/

/-- The digits of a generation. -/
def generationDigits (gen : Nat) : List UInt8 :=
  (Nat.toDigits 10 gen).map fun c => UInt8.ofNat c.toNat

theorem generationText_eq {gen : Nat} (hgen : gen ≤ 999999) :
    generationText gen = 0x7E :: generationDigits gen := by
  have hdigits : (Nat.toDigits 10 gen).length ≤ 6 :=
    (Nat.length_toDigits_le_iff (by decide) (by decide)).2 (by omega)
  apply List.take_of_length_le
  rw [List.length_cons, List.length_map]
  omega

theorem toNat_digit {c : Char} (hc : c.isDigit = true) : 48 ≤ c.toNat ∧ c.toNat ≤ 57 := by
  rw [Char.isDigit, Bool.and_eq_true, decide_eq_true_eq, decide_eq_true_eq] at hc
  exact ⟨UInt32.le_iff_toNat_le.1 hc.1, UInt32.le_iff_toNat_le.1 hc.2⟩

/-- A digit is a legal character, and no tilde. -/
theorem legalChar_digit {gen : Nat} {c : UInt8} (h : c ∈ generationDigits gen) :
    LegalChar c ∧ c ≠ 0x7E := by
  obtain ⟨d, hd, rfl⟩ := List.mem_map.1 h
  obtain ⟨hlow, hhigh⟩ := toNat_digit (Nat.isDigit_of_mem_toDigits (by decide) (by decide) hd)
  have hall : ∀ n ≤ 57, 48 ≤ n → LegalChar (UInt8.ofNat n) ∧ UInt8.ofNat n ≠ 0x7E := by
    decide
  exact hall d.toNat hhigh hlow

theorem generationDigits_injective {gen gen' : Nat}
    (h : generationDigits gen = generationDigits gen') : gen = gen' := by
  have hback : ∀ g, (generationDigits g).map (fun c => Char.ofNat c.toNat) = Nat.toDigits 10 g := by
    intro g
    have hchar : ∀ c ∈ Nat.toDigits 10 g, Char.ofNat (UInt8.ofNat c.toNat).toNat = id c := by
      intro c hc
      obtain ⟨-, hhigh⟩ := toNat_digit (Nat.isDigit_of_mem_toDigits (by decide) (by decide) hc)
      have hsize : c.toNat < UInt8.size := by
        have h256 : UInt8.size = 256 := rfl
        omega
      rw [UInt8.toNat_ofNat_of_lt' hsize, Char.ofNat_toNat, id_eq]
    rw [generationDigits, List.map_map]
    exact (List.map_congr_left hchar).trans (List.map_id _)
  calc
    gen = Nat.ofDigitChars 10 (Nat.toDigits 10 gen) 0 := Nat.ofDigitChars_ten_toDigits.symm
    _ = Nat.ofDigitChars 10 (Nat.toDigits 10 gen') 0 := by rw [← hback, h, hback]
    _ = gen' := Nat.ofDigitChars_ten_toDigits

/-- Behind the last of a character that is in neither tail the lists are the same. -/
theorem tail_eq_of_append {α : Type} {as as' bs bs' : List α} {c : α} (hbs : c ∉ bs)
    (hbs' : c ∉ bs')
    (h : as ++ c :: bs = as' ++ c :: bs') : bs = bs' := by
  rcases List.append_eq_append_iff.1 h with ⟨ms, -, hms⟩ | ⟨ms, -, hms⟩
  · cases ms with
    | nil => exact (List.cons.inj hms).2
    | cons m ms =>
        obtain ⟨-, rfl⟩ := List.cons.inj hms
        exact absurd (List.mem_append_right _ List.mem_cons_self) hbs
  · cases ms with
    | nil => exact ((List.cons.inj hms).2).symm
    | cons m ms =>
        obtain ⟨-, rfl⟩ := List.cons.inj hms
        exact absurd (List.mem_append_right _ List.mem_cons_self) hbs'

/-! ## A short name that is left -/

section Names

variable {name : List UInt8} (hne : name ≠ []) (hascii : ∀ c ∈ name, c < 0x80)
  (hblank : name.head? ≠ some blank) (hdot : name.head? ≠ some dot)

include hne hascii hblank hdot

/-- Up to generation 999999 there is a legal short name. -/
theorem mkShortname_legal {gen : Nat} (hgen : gen ≤ 999999) :
    (mkShortname name gen).1 ≠ .error ∧ LegalShortname (mkShortname name gen).2 := by
  obtain ⟨conv, stem, extension, hconverted, hmake⟩ := mkShortname_eq hne hascii hblank hdot
  have hlegal : ∀ base, base ≠ [] → base.length ≤ 8 → (∀ c ∈ base, LegalChar c) →
      LegalShortname (pad 8 base ++ pad 3 extension) := by
    intro base hbase hlength hchars
    have hpad := length_pad hlength
    refine ⟨?_, ?_, ⟨base, List.take_left' hpad, hchars⟩,
      ⟨extension, List.drop_left' hpad, hconverted.extensionLegal⟩⟩
    · rw [List.length_append, hpad, length_pad hconverted.extensionLength]
    · obtain ⟨c, cs, rfl⟩ := List.exists_cons_of_ne_nil hbase
      intro hfirst
      exact (hchars c List.mem_cons_self).ne_blank (Option.some.inj hfirst)
  rw [hmake]
  split
  · rw [appendGeneration_pad hconverted.named hconverted.stemLength hconverted.stemLegal _ hgen]
    refine ⟨nofun, hlegal _ ?_ ?_ ?_⟩
    · rw [generationText_eq hgen]
      exact List.append_ne_nil_of_right_ne_nil _ (List.cons_ne_nil _ _)
    · have htext : (generationText gen).length ≤ 7 := List.length_take_le _ _
      rw [List.length_append, List.length_take]
      omega
    · rw [generationText_eq hgen]
      intro c hc
      rcases List.mem_append.1 hc with htaken | htext
      · exact hconverted.stemLegal c (List.mem_of_mem_take htaken)
      · rcases List.mem_cons.1 htext with rfl | hdigit
        · decide
        · exact (legalChar_digit hdigit).1
  · exact ⟨hconverted.converted, hlegal _ hconverted.named hconverted.stemLength
      hconverted.stemLegal⟩

/-- From the second one on the generations of a name are different short names. -/
theorem mkShortname_injective {gen gen' : Nat} (hgen : 1 < gen ∧ gen ≤ 999999)
    (hgen' : 1 < gen' ∧ gen' ≤ 999999)
    (h : (mkShortname name gen).2 = (mkShortname name gen').2) : gen = gen' := by
  obtain ⟨conv, stem, extension, hconverted, hmake⟩ := mkShortname_eq hne hascii hblank hdot
  have hblanks : ∀ (g i : Nat), g ≤ 999999 → ∀ c ∈ stem.take i ++ 0x7E :: generationDigits g,
      c ≠ blank := by
    intro g i _ c hc
    rcases List.mem_append.1 hc with htaken | htext
    · exact (hconverted.stemLegal c (List.mem_of_mem_take htaken)).ne_blank
    · rcases List.mem_cons.1 htext with rfl | hdigit
      · decide
      · exact (legalChar_digit hdigit).1.ne_blank
  rw [hmake, hmake, if_pos (.inr hgen.1), if_pos (.inr hgen'.1),
    appendGeneration_pad hconverted.named hconverted.stemLength hconverted.stemLegal _ hgen.2,
    appendGeneration_pad hconverted.named hconverted.stemLength hconverted.stemLegal _ hgen'.2,
    generationText_eq hgen.2, generationText_eq hgen'.2] at h
  have hbase := congrArg (List.rdropWhile fun c => decide (c = blank)) (List.append_cancel_right h)
  rw [rdropWhile_pad (hblanks _ _ hgen.2), rdropWhile_pad (hblanks _ _ hgen'.2)] at hbase
  apply generationDigits_injective
  exact tail_eq_of_append (fun hmem => (legalChar_digit hmem).2 rfl)
    (fun hmem => (legalChar_digit hmem).2 rfl) hbase

/-- One of 999998 generations is not among fewer short names. -/
theorem exists_generation {taken : List (List UInt8)} (htaken : taken.length < 999998) :
    ∃ gen, 1 < gen ∧ gen ≤ 999999 ∧ (mkShortname name gen).2 ∉ taken := by
  by_contra hnone
  have hall : ∀ gen ∈ Finset.Icc 2 999999, (mkShortname name gen).2 ∈ taken.toFinset := by
    intro gen hmem
    rw [Finset.mem_Icc] at hmem
    rw [List.mem_toFinset]
    by_contra hfree
    exact hnone ⟨gen, by omega, hmem.2, hfree⟩
  have hinjective : Set.InjOn (fun gen => (mkShortname name gen).2) (Finset.Icc 2 999999) := by
    intro gen hmem gen' hmem' heq
    rw [Finset.coe_Icc, Set.mem_Icc] at hmem hmem'
    exact mkShortname_injective hne hascii hblank hdot ⟨by omega, hmem.2⟩ ⟨by omega, hmem'.2⟩ heq
  have hcard := Finset.card_le_card_of_injOn _ hall hinjective
  have hlist := List.toFinset_card_le taken
  rw [Nat.card_Icc] at hcard
  omega

/-- The loop finds a short name that is not taken, if there is one. -/
theorem shortnameLoop_finds {taken : List (List UInt8)} {n gen free : Nat} (hle : gen ≤ free)
    (hrounds : free < gen + n) (hlast : free ≤ 999999)
    (hfree : (mkShortname name free).2 ∉ taken) :
    (shortnameLoop taken name n gen).1 ≠ .error ∧ (shortnameLoop taken name n gen).2 ∉ taken ∧
      LegalShortname (shortnameLoop taken name n gen).2 := by
  induction n generalizing gen with
  | zero => omega
  | succ n ih =>
      obtain ⟨hok, hlegal⟩ := mkShortname_legal hne hascii hblank hdot (Nat.le_trans hle hlast)
      rw [shortnameLoop, if_neg hok]
      split
      · rename_i hin
        have hnext : gen ≠ free := by
          rintro rfl
          exact hfree hin
        exact ih (by omega) (by omega)
      · rename_i hout
        exact ⟨hok, hout, hlegal⟩

end Names

/-- A name of a child that can be stored. -/
structure Storable (name : List UInt8) : Prop where
  ascii : isNonAscii name = false
  blank : name.head? ≠ some blank
  dot : name.head? ≠ some dot

theorem Storable.lt {name : List UInt8} (h : Storable name) : ∀ c ∈ name, c < 0x80 := by
  intro c hc
  have hany := List.any_eq_false.1 h.ascii c hc
  exact lt_of_ascii c (by simpa using hany)

/-- With names taken the loop finds legal short names that are new, each of them different. -/
theorem shortnames_spec {list : List ShortList} {taken : List (List UInt8)}
    (hlist : Lists list taken) (children : List Child)
    (hcount : taken.length + children.length < 999999)
    (hstorable : ∀ it ∈ children, Storable it.name) :
    (∀ found ∈ shortnames list children, found.1 ≠ .error ∧ LegalShortname found.2 ∧
        found.2 ∉ taken) ∧
      ((shortnames list children).map Prod.snd).Nodup := by
  induction children generalizing list taken with
  | nil => exact ⟨fun found hfound => absurd hfound List.not_mem_nil, List.nodup_nil⟩
  | cons it rest ih =>
      rw [List.length_cons] at hcount
      have hit := hstorable it List.mem_cons_self
      have htaken : taken.length < 999998 := by omega
      obtain ⟨free, hfirst, hlast, hfree⟩ :=
        exists_generation it.named hit.lt hit.blank hit.dot htaken
      have hrounds : free < 1 + 1000000 := by omega
      obtain ⟨hok, hnew, hlegal⟩ := shortnameLoop_finds it.named hit.lt hit.blank hit.dot
        (Nat.le_of_lt hfirst) hrounds hlast hfree
      obtain ⟨hrest, hnodup⟩ := ih (hlist.add (shortnameLoop taken it.name 1000000 1).2)
        (by rw [List.length_cons]; omega)
        fun it' hit' => hstorable it' (List.mem_cons_of_mem _ hit')
      rw [shortnames, searchShortname_eq hlist]
      refine ⟨List.forall_mem_cons.2 ⟨⟨hok, hlegal, hnew⟩, fun found hfound => ?_⟩, ?_⟩
      · obtain ⟨hok', hlegal', hnew'⟩ := hrest found hfound
        exact ⟨hok', hlegal', fun htaken => hnew' (List.mem_cons_of_mem _ htaken)⟩
      · rw [List.map_cons, List.nodup_cons]
        refine ⟨fun hmem => ?_, hnodup⟩
        obtain ⟨found, hfound, heq⟩ := List.mem_map.1 hmem
        exact (hrest found hfound).2.2 (heq ▸ List.mem_cons_self)

/-- Where a short name is found for every child, the loop writes the entries of all children with
these. -/
theorem serializeListed_named {ω : Type} (strm : Ostream ω) (fs : FsParameters)
    {list : List ShortList} {children : List Child}
    (hascii : ∀ it ∈ children, isNonAscii it.name = false)
    (hfound : ∀ found ∈ shortnames list children, found.1 ≠ .error) :
    serializeListed strm fs list children =
      writeNamed strm fs (children.zip (shortnames list children)) := by
  induction children generalizing list with
  | nil => rfl
  | cons it rest ih =>
      rw [shortnames] at hfound ⊢
      rw [List.forall_mem_cons] at hfound
      rw [serializeListed, hascii it List.mem_cons_self, if_neg Bool.false_ne_true,
        List.zip_cons_cons, writeNamed]
      dsimp only
      rw [if_neg hfound.1, ih (fun it' hit' => hascii it' (List.mem_cons_of_mem _ hit')) hfound.2]

/-- An entry that is not a piece of a long name. -/
def isShortEntry (e : List UInt8) : Bool := e.getD 11 0 != dirEntLfn

/-- The names in the short entries of a directory. -/
def shortEntryNames (bytes : List UInt8) : List (List UInt8) :=
  ((records 32 bytes).filter isShortEntry).map (List.take 11)

theorem filter_longEntries {name shortname : List UInt8} {count n : Nat} :
    (longEntries name shortname count n).filter isShortEntry = [] := by
  rw [List.filter_eq_nil_iff]
  intro e he
  induction n with
  | zero => cases he
  | succ n ih =>
      rcases List.mem_cons.1 he with rfl | he
      · have hattrib : (longEntry name shortname count n).getD 11 0 = dirEntLfn :=
          getD_longDirEnt_attrib (length_part_le name n)
        rw [isShortEntry, hattrib]
        decide
      · exact ih he

/-- A child has one short entry, with its short name. -/
theorem shortEntry_names {fs : FsParameters} {n : Child} {conv : Conversion}
    {shortname : List UInt8} (hlen : shortname.length = 11) :
    ((childEntries fs n conv shortname).filter isShortEntry).map (List.take 11) =
      [shortname] := by
  have hlong : (if conv = .same then []
      else longEntries n.name shortname (longCount n.name) (longCount n.name)).filter
        isShortEntry = [] := by
    split
    · rfl
    · exact filter_longEntries
  have hshort : isShortEntry (shortEntry fs n shortname) = true := by
    rw [isShortEntry, bne_iff_ne, shortEntry, getD_dirEnt_flags hlen]
    exact flags_ne _
  rw [childEntries, List.filter_append, hlong, List.nil_append,
    List.filter_cons_of_pos hshort, List.filter_nil, List.map_singleton,
    shortEntry, take_dirEnt hlen]

/-- The short entries that are emitted have the short names that have been found. -/
theorem Emits.shortnames_eq {fs : FsParameters} {taken : List (List UInt8)}
    {children : List Child} {es : List (List UInt8)} (h : Emits fs taken children es)
    {list : List ShortList} (hlist : Lists list taken) :
    (es.filter isShortEntry).map (List.take 11) = (shortnames list children).map Prod.snd := by
  induction h generalizing list with
  | nil taken => rfl
  | @cons taken it rest conv shortname es chosen converted stored tail ih =>
      have hfound : searchShortname list it.name 1000000 1 = (conv, shortname) :=
        (searchShortname_eq hlist it.name 1000000 1).trans chosen
      rw [List.filter_append, List.map_append,
        shortEntry_names (length_chooseShortname chosen converted), shortnames, hfound,
        ih (hlist.add shortname)]
      rfl

/-- What is written to a stream has these names. -/
theorem serializeListed_names {ω : Type} {strm : Ostream ω} {received : ω → List UInt8}
    (hstrm : Collects strm received) {fs : FsParameters} {children : List Child} {w w' : ω}
    (h : serializeListed strm fs [] children w = .ok () w') :
    ∃ emitted, received w' = received w ++ emitted ∧
      shortEntryNames emitted = (shortnames [] children).map Prod.snd := by
  rw [serializeListed_eq strm fs lists_nil] at h
  obtain ⟨es, hes, hw'⟩ := serializeChildren_ok hstrm h
  refine ⟨_, hw', ?_⟩
  rw [shortEntryNames, records_flatten (by decide) hes.length_eq, hes.shortnames_eq lists_nil]

/-- In a directory with fewer than 999999 children, whose names are ASCII and begin neither with a
blank nor with a dot, the loop finds a short name for every child; the short names are legal ones
and different from each other, and they are what is written. -/
theorem serializeListed_unique {children : List Child} (hcount : children.length < 999999)
    (hstorable : ∀ it ∈ children, Storable it.name) :
    (∀ found ∈ shortnames [] children, found.1 ≠ .error ∧ LegalShortname found.2) ∧
      ((shortnames [] children).map Prod.snd).Nodup ∧
      ∀ {ω : Type} (strm : Ostream ω) (fs : FsParameters), serializeListed strm fs [] children =
          writeNamed strm fs (children.zip (shortnames [] children)) ∧
        ∀ {received : ω → List UInt8}, Collects strm received → ∀ {w w' : ω},
          serializeListed strm fs [] children w = .ok () w' →
          ∃ emitted, received w' = received w ++ emitted ∧
            shortEntryNames emitted = (shortnames [] children).map Prod.snd := by
  obtain ⟨hfound, hnodup⟩ := shortnames_spec lists_nil children
    (by rwa [List.length_nil, Nat.zero_add]) hstorable
  refine ⟨fun found hmem => ⟨(hfound found hmem).1, (hfound found hmem).2.1⟩, hnodup,
    fun strm fs => ⟨?_, fun hstrm _ _ h => serializeListed_names hstrm h⟩⟩
  exact serializeListed_named strm fs (fun it hit => (hstorable it hit).ascii)
    fun found hmem => (hfound found hmem).1

/-- Two names that differ in a character the first short names do not have. -/
def longNames : List Child :=
  [⟨"image file 1".toList.map fun c => UInt8.ofNat c.toNat, .file 0 0, 0, 0, by decide, by decide⟩,
    ⟨"image file 2".toList.map fun c => UInt8.ofNat c.toNat, .file 0 0, 0, 0, by decide, by decide⟩]

theorem serializeListed_longNames :
    ((shortnames [] longNames).map Prod.snd).Nodup ∧
      ∃ emitted, serializeListed collecting ⟨8, 516, 264192⟩ [] longNames [] = .ok () emitted ∧
        shortEntryNames emitted = (shortnames [] longNames).map Prod.snd := by
  have hstrm : Collects collecting id := by
    intro w data w' h
    cases h
    rfl
  have hval : (serializeListed collecting ⟨8, 516, 264192⟩ [] longNames []).val? = some () := rfl
  obtain ⟨w, hrun⟩ := Outcome.exists_ok hval
  have hstorable : ∀ it ∈ longNames, Storable it.name := by
    rw [longNames, List.forall_mem_cons, List.forall_mem_singleton]
    exact ⟨⟨by decide, by decide, by decide⟩, by decide, by decide, by decide⟩
  obtain ⟨-, hnodup, hwritten⟩ := serializeListed_unique (by decide) hstorable
  obtain ⟨emitted, hemitted, hnames⟩ := (hwritten collecting ⟨8, 516, 264192⟩).2 hstrm hrun
  obtain rfl : w = emitted := hemitted
  exact ⟨hnodup, w, hrun, hnames⟩

end ImageTool.Fat
