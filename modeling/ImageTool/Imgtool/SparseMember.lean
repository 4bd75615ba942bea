import ImageTool.Imgtool.TarIstream

/-!
# Reading a sparse member to its end

The rounds of `tar_istream_precache` are steps of a smaller machine, which pours zero bytes and
bytes of the archive out until the size of the member is reached.  The machine stops for ever
before a gap whose length it has to write is a multiple of `2 ^ 32`, and it goes on into the
archive behind the last region of a member.
-/

namespace ImageTool.Imgtool

open ImageTool.Lib ImageTool.Fstream

/-- What the contents of a member depend on: the regions to come, the position, what is left of
the size, and the archive ahead. -/
structure Member where
  map : List SparseRegion
  offset : Nat
  left : Nat
  archive : List UInt8

namespace Member

/-! ## The machine -/

/-- One round pours bytes out. -/
inductive Pours : Member → List UInt8 → Member → Prop
  | gap {region map offset left archive n} (hole : offset < region.offset) (pos : 0 < n)
      (le : n ≤ left) (low : n ≤ (region.offset - offset) % 2 ^ 32) :
      Pours ⟨region :: map, offset, left, archive⟩ (List.replicate n 0)
        ⟨region :: map, offset + n, left - n, archive⟩
  | data {region map offset left archive n} (inside : region.offset ≤ offset) (pos : 0 < n)
      (le : n ≤ left) (room : offset + n ≤ region.offset + region.count)
      (has : n ≤ archive.length) :
      Pours ⟨region :: map, offset, left, archive⟩ (archive.take n)
        ⟨region :: map, offset + n, left - n, archive.drop n⟩
  | next {region map offset left archive} (done : region.offset + region.count ≤ offset)
      (pos : 0 < left) :
      Pours ⟨region :: map, offset, left, archive⟩ [] ⟨map, offset, left, archive⟩
  | plain {offset left archive n} (pos : 0 < n) (le : n ≤ left) (has : n ≤ archive.length) :
      Pours ⟨[], offset, left, archive⟩ (archive.take n)
        ⟨[], offset + n, left - n, archive.drop n⟩

/-- Any number of rounds. -/
inductive Runs : Member → List UInt8 → Member → Prop
  | refl (m : Member) : Runs m [] m
  | step {m m₁ m' : Member} {bytes more : List UInt8} : Pours m bytes m₁ → Runs m₁ more m' →
      Runs m (bytes ++ more) m'

variable {m m' m'' : Member} {bytes more : List UInt8}

theorem Runs.single (h : Pours m bytes m') : Runs m bytes m' := by
  have hruns := Runs.step h (.refl m')
  rwa [List.append_nil] at hruns

theorem Runs.trans (h : Runs m bytes m') (h' : Runs m' more m'') : Runs m (bytes ++ more) m'' := by
  induction h with
  | refl m => exact h'
  | step hpour _ ih =>
      rw [List.append_assoc]
      exact .step hpour (ih h')

/-- Every byte that is poured out is taken off the size. -/
theorem Runs.length (h : Runs m bytes m') : bytes.length + m'.left = m.left := by
  induction h with
  | refl m => simp
  | step hpour _ ih =>
      cases hpour <;> simp at ih ⊢ <;> omega

/-- The archive is read from the front. -/
theorem Runs.archive (h : Runs m bytes m') :
    ∃ k ≤ m.archive.length, m'.archive = m.archive.drop k := by
  induction h with
  | refl m => exact ⟨0, Nat.zero_le _, rfl⟩
  | @step m m₁ m' bytes more hpour _ ih =>
      obtain ⟨k, hk, harchive⟩ := ih
      cases hpour with
      | gap => exact ⟨k, hk, harchive⟩
      | next => exact ⟨k, hk, harchive⟩
      | @data _ _ _ _ archive n _ _ _ _ has =>
          dsimp only at hk harchive ⊢
          rw [List.length_drop] at hk
          exact ⟨n + k, by omega, by rw [harchive, List.drop_drop]⟩
      | @plain _ _ archive n _ _ has =>
          dsimp only at hk harchive ⊢
          rw [List.length_drop] at hk
          exact ⟨n + k, by omega, by rw [harchive, List.drop_drop]⟩

/-! ## Gaps without an end -/

/-- A gap of `2 ^ 32` bytes or more is reached with more bytes left than the lowest 32 bits of its
length, where `count` bytes of the archive are ahead. -/
def Blocked : List SparseRegion → Nat → Nat → Nat → Prop
  | [], _, _, _ => False
  | region :: map, offset, left, count =>
      if 2 ^ 32 ≤ region.offset - offset then (region.offset - offset) % 2 ^ 32 < left
      else
        let start := max region.offset offset
        let want := region.offset + region.count - start
        want ≤ count ∧ Blocked map (start + want) (left - (start - offset) - want) (count - want)

/-- At the end of the member there is nothing to wait for. -/
theorem not_blocked_zero (map : List SparseRegion) (offset count : Nat) :
    ¬ Blocked map offset 0 count := by
  induction map generalizing offset count with
  | nil => exact id
  | cons region map ih =>
      rw [Blocked]
      split
      · exact Nat.not_lt_zero _
      · rintro ⟨-, hblocked⟩
        rw [Nat.zero_sub, Nat.zero_sub] at hblocked
        exact ih _ _ hblocked

/-- A gap that stops the machine is ahead. -/
def Stops (m : Member) : Prop := Blocked m.map m.offset m.left m.archive.length

theorem blocked_gap {region : SparseRegion} {map : List SparseRegion} {offset left n : Nat}
    (count : Nat) (hole : offset < region.offset) (hle : n ≤ left)
    (hlow : n ≤ (region.offset - offset) % 2 ^ 32) :
    Blocked (region :: map) offset left count ↔
      Blocked (region :: map) (offset + n) (left - n) count := by
  have hmod : (region.offset - (offset + n)) % 2 ^ 32 = (region.offset - offset) % 2 ^ 32 - n := by
    omega
  rw [Blocked, Blocked]
  by_cases hlong : 2 ^ 32 ≤ region.offset - offset
  · rw [if_pos hlong, if_pos (by omega), hmod]
    omega
  · have hmax : max region.offset offset = region.offset := by omega
    have hmax' : max region.offset (offset + n) = region.offset := by omega
    have hleft : left - n - (region.offset - (offset + n)) = left - (region.offset - offset) := by
      omega
    rw [if_neg hlong, if_neg (by omega), hmax, hmax']
    dsimp only
    rw [hleft]

theorem blocked_data {region : SparseRegion} {map : List SparseRegion} {offset left count n : Nat}
    (hinside : region.offset ≤ offset) (hroom : offset + n ≤ region.offset + region.count)
    (hcount : n ≤ count) :
    Blocked (region :: map) offset left count ↔
      Blocked (region :: map) (offset + n) (left - n) (count - n) := by
  have hmax : max region.offset offset = offset := by omega
  have hmax' : max region.offset (offset + n) = offset + n := by omega
  have hend : offset + n + (region.offset + region.count - (offset + n)) =
      offset + (region.offset + region.count - offset) := by omega
  have hleft : left - n - 0 - (region.offset + region.count - (offset + n)) =
      left - 0 - (region.offset + region.count - offset) := by omega
  have hrest : count - n - (region.offset + region.count - (offset + n)) =
      count - (region.offset + region.count - offset) := by omega
  rw [Blocked, Blocked, if_neg (by omega), if_neg (by omega)]
  dsimp only
  rw [hmax, hmax', Nat.sub_self, Nat.sub_self, hend, hleft, hrest]
  exact and_congr_left' (by omega)

theorem blocked_next {region : SparseRegion} {map : List SparseRegion} {offset left count : Nat}
    (hdone : region.offset + region.count ≤ offset) :
    Blocked (region :: map) offset left count ↔ Blocked map offset left count := by
  have hmax : max region.offset offset = offset := by omega
  have hwant : region.offset + region.count - offset = 0 := by omega
  rw [Blocked, if_neg (by omega)]
  dsimp only
  rw [hmax, hwant, Nat.sub_self, Nat.add_zero, Nat.sub_zero, Nat.sub_zero, Nat.sub_zero]
  exact and_iff_right (Nat.zero_le _)

/-- A round neither comes to a gap that was not ahead nor gets past one. -/
theorem Pours.stops_iff (h : Pours m bytes m') : Stops m ↔ Stops m' := by
  cases h with
  | gap hole _ le low => exact blocked_gap _ hole le low
  | data inside _ _ room has =>
      unfold Stops
      dsimp only
      rw [List.length_drop]
      exact blocked_data inside room has
  | next done _ => exact blocked_next done
  | plain => exact Iff.rfl

theorem Runs.stops_iff (h : Runs m bytes m') : Stops m ↔ Stops m' := by
  induction h with
  | refl m => exact Iff.rfl
  | step hpour _ ih => exact hpour.stops_iff.trans ih

/-- The machine has come to its end: the member is complete, or there is no more data. -/
def Ended (m : Member) : Prop :=
  m.left = 0 ∨ m.archive = [] ∧ ∀ region ∈ m.map.head?,
    region.offset ≤ m.offset ∧ m.offset < region.offset + region.count

theorem not_stops_of_ended (h : Ended m) : ¬ Stops m := by
  obtain ⟨map, offset, left, archive⟩ := m
  rcases h with hleft | ⟨harchive, hinside⟩
  · obtain rfl : left = 0 := hleft
    exact not_blocked_zero map offset archive.length
  · obtain rfl : archive = [] := harchive
    cases map with
    | nil => exact id
    | cons region map =>
        obtain ⟨hin, hlt⟩ := hinside region rfl
        dsimp only at hin hlt
        have hmax : max region.offset offset = offset := by omega
        rw [Stops, Blocked, if_neg (by dsimp only; omega)]
        dsimp only
        rw [hmax]
        rintro ⟨hwant, -⟩
        rw [List.length_nil] at hwant
        omega

end Member

/-! ## The stream carries the machine out -/

namespace TarIstream

open Member

variable {ω : Type} {wrapped : Call (Istream ω) Unit} {tholds : Istream ω → List UInt8 → Prop}
variable {strm strm' strm₁ : Istream (TarIstream ω)} {archive archive' archive₁ bytes : List UInt8}
variable {region : SparseRegion} {map : List SparseRegion}

/-- The machine a stream is in, with the archive ahead. -/
def memberOf (strm : Istream (TarIstream ω)) (archive : List UInt8) : Member :=
  ⟨strm.inner.sparse, strm.inner.offset, strm.inner.tar.apparentFileSize, archive⟩

/-- The stream has poured `bytes` into its buffer. -/
structure Poured (tholds : Istream ω → List UInt8 → Prop) (strm : Istream (TarIstream ω))
    (archive bytes : List UInt8) (strm' : Istream (TarIstream ω))
    (archive' : List UInt8) : Prop where
  stream : tholds strm'.inner.tar.tarStream archive'
  buffer : strm'.buffer = strm.buffer ++ bytes
  offset : strm'.bufferOffset = strm.bufferOffset
  runs : Runs (memberOf strm archive) bytes (memberOf strm' archive')

theorem Poured.trans {more : List UInt8} (h : Poured tholds strm archive bytes strm₁ archive₁)
    (h' : Poured tholds strm₁ archive₁ more strm' archive') :
    Poured tholds strm archive (bytes ++ more) strm' archive' where
  stream := h'.stream
  buffer := by rw [h'.buffer, h.buffer, List.append_assoc]
  offset := h'.offset.trans h.offset
  runs := h.runs.trans h'.runs

/-- The loop goes on with `strm₁`.  It comes nearer to its end, unless the machine stops. -/
structure GoesOn (tholds : Istream ω → List UInt8 → Prop) (strm : Istream (TarIstream ω))
    (archive bytes : List UInt8) (strm₁ : Istream (TarIstream ω)) (archive₁ : List UInt8) :
    Prop extends Poured tholds strm archive bytes strm₁ archive₁ where
  eof : strm₁.eof = false
  bounded : strm₁.buffer.length ≤ bufferSize
  nearer : ¬ Stops (memberOf strm archive) →
    strm₁.inner.sparse.length + strm.buffer.length <
      strm.inner.sparse.length + strm₁.buffer.length

/-- The loop is done: the end is known, or the buffer is full. -/
structure Done (tholds : Istream ω → List UInt8 → Prop) (strm : Istream (TarIstream ω))
    (archive bytes : List UInt8) (strm' : Istream (TarIstream ω)) (archive' : List UInt8) :
    Prop extends Poured tholds strm archive bytes strm' archive' where
  ended : strm'.eof = true → Ended (memberOf strm' archive')
  full : strm'.eof = false → bufferSize ≤ strm'.buffer.length

theorem zeroCount_le (gap : Nat) {diff : Nat} (h : diff < 2 ^ 31) :
    zeroCount gap diff ≤ diff ∧ zeroCount gap diff ≤ gap % 2 ^ 32 := by
  unfold zeroCount
  split <;> omega

theorem zeroCount_pos {gap diff : Nat} (hdiff : 0 < diff) (h : gap % 2 ^ 32 ≠ 0) :
    0 < zeroCount gap diff := by
  unfold zeroCount
  split <;> omega

theorem room_lt (strm : Istream (TarIstream ω)) : room strm < 2 ^ 31 := by
  have hle : room strm ≤ bufferSize := Nat.le_trans (Nat.min_le_left ..) (Nat.sub_le ..)
  exact Nat.lt_of_le_of_lt hle (by decide)

/-- A round in a gap. -/
theorem goesOn_gap (harchive : tholds strm.inner.tar.tarStream archive) (heof : strm.eof = false)
    (hroom : room strm ≠ 0) (hsparse : strm.inner.sparse = region :: map)
    (hgap : region.offset > strm.inner.offset) :
    GoesOn tholds strm archive
      (List.replicate (zeroCount (region.offset - strm.inner.offset) (room strm)) 0)
      (supply strm
        (List.replicate (zeroCount (region.offset - strm.inner.offset) (room strm)) 0))
      archive := by
  obtain ⟨hle, hlow⟩ := zeroCount_le (region.offset - strm.inner.offset) (room_lt strm)
  have hpos : (region.offset - strm.inner.offset) % 2 ^ 32 ≠ 0 →
      0 < zeroCount (region.offset - strm.inner.offset) (room strm) :=
    zeroCount_pos (Nat.pos_of_ne_zero hroom)
  generalize zeroCount (region.offset - strm.inner.offset) (room strm) = n at *
  unfold room at hle hroom
  refine ⟨⟨harchive, rfl, rfl, ?_⟩, heof, ?_, ?_⟩
  · have hmember : memberOf strm archive =
        ⟨region :: map, strm.inner.offset, strm.inner.tar.apparentFileSize, archive⟩ := by
      rw [memberOf, hsparse]
    have hmember' : memberOf (supply strm (List.replicate n 0)) archive =
        ⟨region :: map, strm.inner.offset + n, strm.inner.tar.apparentFileSize - n, archive⟩ := by
      unfold memberOf supply
      dsimp only
      rw [hsparse, List.length_replicate]
    rw [hmember, hmember']
    by_cases hzero : n = 0
    · subst hzero
      exact .refl _
    · exact .single (.gap hgap (Nat.pos_of_ne_zero hzero) (by omega) hlow)
  · change (strm.buffer ++ List.replicate n 0).length ≤ bufferSize
    rw [List.length_append, List.length_replicate]
    omega
  · intro hstops
    change _ < strm.inner.sparse.length + (strm.buffer ++ List.replicate n 0).length
    rw [List.length_append, List.length_replicate]
    change strm.inner.sparse.length + strm.buffer.length < _
    have hn : 0 < n := by
      apply hpos
      intro hzero
      apply hstops
      unfold Stops memberOf
      rw [hsparse, Blocked]
      dsimp only
      rw [if_pos (by omega)]
      omega
    omega

/-- A round that copies from the archive. -/
theorem copyData_cases (hw : Istream.Refills wrapped tholds)
    (loop : Call (Istream (TarIstream ω)) Unit) {diff : Nat}
    (harchive : tholds strm.inner.tar.tarStream archive) (heof : strm.eof = false)
    (hpos : 0 < diff) (hroom : diff ≤ bufferSize - strm.buffer.length)
    (hpours : ∀ n, 0 < n → n ≤ diff → n ≤ archive.length →
      Pours (memberOf strm archive) (archive.take n)
        ⟨strm.inner.sparse, strm.inner.offset + n, strm.inner.tar.apparentFileSize - n,
          archive.drop n⟩)
    (hended : archive = [] → Ended (memberOf strm archive)) :
    (∃ strm', copyData wrapped loop diff strm = .ok () strm' ∧
      Done tholds strm archive [] strm' archive) ∨
    ∃ strm₁ archive₁ bytes, copyData wrapped loop diff strm = loop strm₁ ∧
      GoesOn tholds strm archive bytes strm₁ archive₁ := by
  have hlimit : min diff Istream.readLimit = diff := by
    apply Nat.min_eq_left
    have hsize : bufferSize ≤ Istream.readLimit := by decide
    omega
  obtain ⟨tarStream, hread, harchive'⟩ := hw.read diff harchive
  rw [hlimit] at hread harchive'
  rw [copyData_eq loop hread]
  have hlength : (archive.take diff).length = min diff archive.length := List.length_take
  by_cases hnone : archive = []
  · left
    subst hnone
    rw [List.take_nil, List.length_nil, if_pos rfl]
    rw [List.drop_nil] at harchive'
    refine ⟨_, rfl, ⟨harchive', (List.append_nil _).symm, rfl, .refl _⟩, fun _ => hended rfl, ?_⟩
    intro hfalse
    cases hfalse
  · right
    have hsome : 0 < archive.length := List.length_pos_iff.2 hnone
    have hn : 0 < (archive.take diff).length := by omega
    have hpour := hpours (archive.take diff).length hn (by omega) (by omega)
    have htaken : archive.take (archive.take diff).length = archive.take diff := by
      rw [hlength, ← List.take_take, List.take_length]
    have hdropped : archive.drop (archive.take diff).length = archive.drop diff := by
      rw [hlength]
      rcases Nat.le_total diff archive.length with hshort | hlong
      · rw [Nat.min_eq_left hshort]
      · rw [Nat.min_eq_right hlong, List.drop_length, List.drop_eq_nil_of_le hlong]
    rw [htaken, hdropped] at hpour
    rw [if_neg (by omega)]
    refine ⟨_, _, _, rfl, ⟨harchive', rfl, rfl, .single hpour⟩, heof, ?_, fun _ => ?_⟩
    · change (strm.buffer ++ archive.take diff).length ≤ bufferSize
      rw [List.length_append]
      omega
    · change strm.inner.sparse.length + strm.buffer.length <
        strm.inner.sparse.length + (strm.buffer ++ archive.take diff).length
      rw [List.length_append]
      omega

theorem memberOf_cons (hsparse : strm.inner.sparse = region :: map) (archive : List UInt8) :
    memberOf strm archive =
      ⟨region :: map, strm.inner.offset, strm.inner.tar.apparentFileSize, archive⟩ := by
  rw [memberOf, hsparse]

/-- A round of the loop is a step of the machine, or the last one. -/
theorem round_cases (hw : Istream.Refills wrapped tholds)
    (harchive : tholds strm.inner.tar.tarStream archive) (heof : strm.eof = false)
    (hle : strm.buffer.length ≤ bufferSize) (fuel : Nat) :
    (∃ strm', precacheLoop wrapped (fuel + 1) strm = .ok () strm' ∧
      Done tholds strm archive [] strm' archive) ∨
    ∃ strm₁ archive₁ bytes,
      precacheLoop wrapped (fuel + 1) strm = precacheLoop wrapped fuel strm₁ ∧
        GoesOn tholds strm archive bytes strm₁ archive₁ := by
  have hnil : strm.buffer = strm.buffer ++ [] := (List.append_nil _).symm
  by_cases hfull : strm.buffer.length < bufferSize
  · by_cases hroom : room strm = 0
    · left
      rw [precacheLoop_done fuel hfull hroom]
      refine ⟨_, rfl, ⟨harchive, hnil, rfl, .refl _⟩, fun _ => .inl ?_, ?_⟩
      · unfold room at hroom
        change strm.inner.tar.apparentFileSize = 0
        omega
      · intro hfalse
        cases hfalse
    · have hpos := Nat.pos_of_ne_zero hroom
      cases hsparse : strm.inner.sparse with
      | nil =>
          rw [precacheLoop_plain fuel hfull hroom hsparse]
          apply copyData_cases hw _ harchive heof hpos (Nat.min_le_left ..)
          · intro n hn hdiff hhas
            have hmember : memberOf strm archive =
                ⟨[], strm.inner.offset, strm.inner.tar.apparentFileSize, archive⟩ := by
              rw [memberOf, hsparse]
            rw [hmember, hsparse]
            exact .plain hn (Nat.le_trans hdiff (Nat.min_le_right ..)) hhas
          · intro hnone
            refine .inr ⟨hnone, ?_⟩
            rw [memberOf, hsparse]
            exact nofun
      | cons region map =>
          rcases Nat.lt_or_ge strm.inner.offset region.offset with hgap | hin
          · right
            rw [precacheLoop_gap fuel hfull hroom hsparse hgap]
            exact ⟨_, _, _, rfl, goesOn_gap harchive heof hroom hsparse hgap⟩
          · rcases Nat.lt_or_ge (strm.inner.offset - region.offset) region.count with
              hcount | hcount
            · rw [precacheLoop_region fuel hfull hroom hsparse hin hcount]
              apply copyData_cases hw _ harchive heof
                (Nat.lt_min.2 ⟨hpos, Nat.sub_pos_of_lt hcount⟩)
                (Nat.le_trans (Nat.min_le_left ..) (Nat.min_le_left ..))
              · intro n hn hdiff hhas
                have hleft : room strm ≤ strm.inner.tar.apparentFileSize := Nat.min_le_right ..
                rw [memberOf_cons hsparse, hsparse]
                exact .data hin hn (by omega) (by omega) hhas
              · intro hnone
                refine .inr ⟨hnone, ?_⟩
                rw [memberOf_cons hsparse]
                rintro region' hregion'
                cases hregion'
                exact ⟨hin, by dsimp only; omega⟩
            · right
              rw [precacheLoop_next fuel hfull hroom hsparse hin hcount]
              refine ⟨_, archive, [], rfl, ⟨harchive, hnil, rfl, ?_⟩, heof, hle, fun _ => ?_⟩
              · rw [memberOf_cons hsparse]
                unfold room at hpos
                exact .single (.next (by omega) (by omega))
              · change map.length + strm.buffer.length < _
                rw [hsparse, List.length_cons]
                dsimp only
                omega
  · left
    refine ⟨strm, ?_, ⟨harchive, hnil, rfl, .refl _⟩, ?_, fun _ => Nat.le_of_not_lt hfull⟩
    · rw [precacheLoop]
      exact if_neg hfull
    · intro htrue
      rw [heof] at htrue
      cases htrue

/-- The loop gets stuck, or it is done with what the machine has poured out. -/
theorem precacheLoop_cases (hw : Istream.Refills wrapped tholds) (fuel : Nat)
    (harchive : tholds strm.inner.tar.tarStream archive) (heof : strm.eof = false)
    (hle : strm.buffer.length ≤ bufferSize) :
    precacheLoop wrapped fuel strm = .stuck ∨ ∃ strm' archive' bytes,
      precacheLoop wrapped fuel strm = .ok () strm' ∧
        Done tholds strm archive bytes strm' archive' := by
  induction fuel generalizing strm archive with
  | zero => exact .inl rfl
  | succ fuel ih =>
      rcases round_cases hw harchive heof hle fuel with
        ⟨strm', hdone, hend⟩ | ⟨strm₁, archive₁, bytes, hloop, hgoes⟩
      · exact .inr ⟨strm', archive, [], hdone, hend⟩
      · rw [hloop]
        rcases ih hgoes.stream hgoes.eof hgoes.bounded with
          hstuck | ⟨strm', archive', more, hok, hend⟩
        · exact .inl hstuck
        · exact .inr ⟨strm', archive', bytes ++ more, hok, hgoes.toPoured.trans hend.toPoured,
            hend.ended, hend.full⟩

/-- With no gap ahead that stops the machine the loop returns. -/
theorem precacheLoop_returns (hw : Istream.Refills wrapped tholds) (fuel : Nat)
    (harchive : tholds strm.inner.tar.tarStream archive) (heof : strm.eof = false)
    (hle : strm.buffer.length ≤ bufferSize) (hstops : ¬ Stops (memberOf strm archive))
    (hfuel : bufferSize + strm.inner.sparse.length < fuel + strm.buffer.length) :
    precacheLoop wrapped fuel strm ≠ .stuck := by
  induction fuel generalizing strm archive with
  | zero => omega
  | succ fuel ih =>
      rcases round_cases hw harchive heof hle fuel with
        ⟨strm', hdone, -⟩ | ⟨strm₁, archive₁, bytes, hloop, hgoes⟩
      · rw [hdone]
        exact nofun
      · have hnearer := hgoes.nearer hstops
        rw [hloop]
        exact ih hgoes.stream hgoes.eof hgoes.bounded (fun h => hstops (hgoes.runs.stops_iff.2 h))
          (by omega)

/-! ## The calls of a run -/

/-- The states of a run: between the calls the buffer is left to the readers. -/
inductive Called (wrapped : Call (Istream ω) Unit) (strm : Istream (TarIstream ω)) :
    Istream (TarIstream ω) → Prop
  | refl : Called wrapped strm strm
  | readers {t t' : Istream (TarIstream ω)} : Called wrapped strm t → t'.inner = t.inner →
      t'.eof = t.eof → Called wrapped strm t'
  | precache {t t' : Istream (TarIstream ω)} : Called wrapped strm t → t.eof = false →
      precache wrapped t = .ok () t' → Called wrapped strm t'

theorem Called.trans {t u : Istream (TarIstream ω)} (h : Called wrapped strm t)
    (h' : Called wrapped t u) : Called wrapped strm u := by
  induction h' with
  | refl => exact h
  | readers _ hinner heof ih => exact ih.readers hinner heof
  | precache _ heof hcall ih => exact ih.precache heof hcall

/-- A call pours bytes into an empty buffer. -/
theorem precache_cases (hw : Istream.Refills wrapped tholds)
    (harchive : tholds strm.inner.tar.tarStream archive) (heof : strm.eof = false) :
    precache wrapped strm = .stuck ∨ ∃ strm' archive' bytes, precache wrapped strm = .ok () strm' ∧
      Done tholds { strm with buffer := [], bufferOffset := 0 } archive bytes strm' archive' :=
  precacheLoop_cases hw _ harchive heof (Nat.zero_le _)

theorem precache_returns (hw : Istream.Refills wrapped tholds)
    (harchive : tholds strm.inner.tar.tarStream archive) (heof : strm.eof = false)
    (hstops : ¬ Stops (memberOf strm archive)) : precache wrapped strm ≠ .stuck :=
  precacheLoop_returns hw _ harchive heof (Nat.zero_le _) hstops (Nat.lt_succ_self _)

theorem Called.runs (hw : Istream.Refills wrapped tholds) {t : Istream (TarIstream ω)}
    (harchive : tholds strm.inner.tar.tarStream archive) (h : Called wrapped strm t) :
    ∃ archive' bytes, tholds t.inner.tar.tarStream archive' ∧
      Runs (memberOf strm archive) bytes (memberOf t archive') := by
  induction h with
  | refl => exact ⟨archive, [], harchive, .refl _⟩
  | @readers t t' _ hinner _ ih =>
      obtain ⟨archive', bytes, hstream, hruns⟩ := ih
      refine ⟨archive', bytes, hinner ▸ hstream, ?_⟩
      unfold memberOf at hruns ⊢
      rwa [hinner]
  | @precache t t' _ heof hcall ih =>
      obtain ⟨archive₁, bytes, hstream, hruns⟩ := ih
      rcases precache_cases hw hstream heof with hstuck | ⟨u, archive', more, hok, hdone⟩
      · rw [hstuck] at hcall
        cases hcall
      · rw [hok] at hcall
        cases hcall
        exact ⟨archive', bytes ++ more, hdone.stream, hruns.trans hdone.runs⟩

/-- Where the machine stops, a call of the run is stuck. -/
theorem exists_stuck (hw : Istream.Refills wrapped tholds) {t : Istream (TarIstream ω)}
    (harchive : tholds t.inner.tar.tarStream archive) (h : Called wrapped strm t)
    (heof : t.eof = false) (hstops : Stops (memberOf t archive)) :
    ∃ u, Called wrapped strm u ∧ u.eof = false ∧ precache wrapped u = .stuck := by
  induction hleft : t.inner.tar.apparentFileSize using Nat.strongRecOn generalizing t archive with
  | ind left ih =>
      rcases precache_cases hw harchive heof with hstuck | ⟨t', archive', bytes, hok, hdone⟩
      · exact ⟨t, h, heof, hstuck⟩
      · have hstops' : Stops (memberOf t' archive') := hdone.runs.stops_iff.1 hstops
        have heof' : t'.eof = false := by
          by_contra htrue
          rw [Bool.not_eq_false] at htrue
          exact not_stops_of_ended (hdone.ended htrue) hstops'
        have hfull := hdone.full heof'
        have hlength := hdone.runs.length
        rw [hdone.buffer, List.nil_append] at hfull
        change bytes.length + t'.inner.tar.apparentFileSize =
            t.inner.tar.apparentFileSize at hlength
        have hsize : 0 < bufferSize := by decide
        exact ih _ (by omega) hdone.stream (h.precache heof hok) heof' hstops' rfl

/-- Where no such gap is reached, every call of a run returns. -/
theorem Called.returns (hw : Istream.Refills wrapped tholds) {tar : FileSourceTar ω}
    (harchive : tholds tar.tarStream archive)
    (hblocked : ¬ Blocked map 0 tar.apparentFileSize archive.length)
    (h : Called wrapped (create tar map) strm) (heof : strm.eof = false) :
    TarIstream.precache wrapped strm ≠ .stuck := by
  have hstart : tholds (create tar map).inner.tar.tarStream archive := harchive
  obtain ⟨archive', bytes, hstream, hruns⟩ := h.runs hw hstart
  exact precache_returns hw hstream heof fun hstops => hblocked (hruns.stops_iff.2 hstops)

/-- Every call of a run returns if and only if no gap of `2 ^ 32` bytes or more is reached before
the archive ends with more of the size left than the lowest 32 bits of its length. -/
theorem precache_returns_iff (hw : Istream.Refills wrapped tholds) {tar : FileSourceTar ω}
    (harchive : tholds tar.tarStream archive) :
    (∀ strm, Called wrapped (create tar map) strm → strm.eof = false →
        precache wrapped strm ≠ .stuck) ↔
      ¬ Blocked map 0 tar.apparentFileSize archive.length := by
  constructor
  · intro hreturns hblocked
    have hstart : Called wrapped (create tar map) (create tar map) := .refl
    obtain ⟨u, hcalled, heof, hstuck⟩ := exists_stuck hw harchive hstart rfl hblocked
    exact hreturns u hcalled heof hstuck
  · intro hblocked strm hcalled heof
    exact hcalled.returns hw harchive hblocked heof

/-- A member with a gap between its two regions. -/
theorem precache_returns_gap :
    (∀ strm, Called FileIstream.precache
        (create ⟨FileIstream.openFd [65, 66] [], 4, 512⟩ [⟨0, 1⟩, ⟨3, 1⟩]) strm →
      strm.eof = false → precache FileIstream.precache strm ≠ .stuck) ↔
      ¬ Blocked [⟨0, 1⟩, ⟨3, 1⟩] 0 4 2 :=
  precache_returns_iff FileIstream.carries.refills
    (show FileIstream.Holds
        (⟨FileIstream.openFd [65, 66] [], 4, 512⟩ : FileSourceTar FileIstream).tarStream
          [65, 66] from
      FileIstream.openFd_holds List.not_mem_nil)

/-- A gap of which the lowest 32 bits are 0 is never left. -/
theorem precacheLoop_stuck (fuel : Nat) (hfull : strm.buffer.length < bufferSize)
    (hroom : room strm ≠ 0) (hsparse : strm.inner.sparse = region :: map)
    (hgap : region.offset > strm.inner.offset)
    (hzero : (region.offset - strm.inner.offset) % 2 ^ 32 = 0) :
    precacheLoop wrapped fuel strm = .stuck := by
  have hcount : zeroCount (region.offset - strm.inner.offset) (room strm) = 0 := by
    have hle := (zeroCount_le (region.offset - strm.inner.offset) (room_lt strm)).2
    omega
  have hsame : supply strm [] = strm := by
    unfold supply
    rw [List.append_nil]
    rfl
  induction fuel with
  | zero => rfl
  | succ fuel ih =>
      rw [precacheLoop_gap fuel hfull hroom hsparse hgap, hcount, List.replicate_zero, hsame, ih]

end TarIstream

/-! ## The map of a record -/

/-- The loop of `get_next_record` over the map: the sum of the counts, or nothing where a region
begins before the one in front of it has ended. -/
def checkMap : List SparseRegion → Nat → Nat → Option Nat
  | [], _, count => some count
  | it :: map, offset, count =>
      if it.offset < offset then none
      else checkMap map (u64 (it.offset + it.count)) (u64 (count + it.count))

/-- The check of `get_next_record` on a map. -/
def mapAccepted (map : List SparseRegion) (recordSize : Nat) : Bool :=
  match map with
  | [] => true
  | it :: _ => checkMap map it.offset 0 == some recordSize

/-- A region that begins at `2 ^ 32` is never reached. -/
theorem precache_hangs :
    mapAccepted [⟨2 ^ 32, 1⟩] 1 = true ∧
      ¬ ∀ strm, TarIstream.Called FileIstream.precache (TarIstream.create
          ⟨FileIstream.openFd [65] [], 2 ^ 32 + 1, 512⟩ [⟨2 ^ 32, 1⟩]) strm →
        strm.eof = false → TarIstream.precache FileIstream.precache strm ≠ .stuck := by
  refine ⟨by decide, fun hreturns => hreturns _ .refl rfl ?_⟩
  exact TarIstream.precacheLoop_stuck _ (by decide) (by decide) rfl (by decide) (by decide)

end ImageTool.Imgtool
