import ImageTool.Image.Volume

/-!
# `volume_memmove`

Moving an arbitrary byte range within a volume, block by block and in the
direction that does not overwrite source bytes still to be moved.  On a block
store the result is `Bytes.move` of the contents.
-/

namespace ImageTool.Image

open ImageTool.Lib

variable {σ : Type}

/-- The block move both copy loops issue: a whole block where both offsets are
zero and the chunk is a block, a partial move otherwise. -/
def moveChunk (vol : Volume σ) (srcIdx dstIdx srcOffset dstOffset diff : Nat) :
    Call σ Unit :=
  if srcOffset = 0 ∧ dstOffset = 0 ∧ diff = vol.blocksize then
    vol.moveBlock srcIdx dstIdx
  else
    vol.moveBlockPartial srcIdx dstIdx srcOffset dstOffset diff

/-- `copy_forward`.  The first argument bounds the number of rounds: each moves
at least one byte. -/
def copyForward (vol : Volume σ) : Nat → Nat → Nat → Nat → Call σ Unit
  | 0, _, _, size => if size = 0 then pure () else Call.stuck
  | fuel + 1, dst, src, size =>
      if size = 0 then pure () else
        let srcOffset := src % vol.blocksize
        let dstOffset := dst % vol.blocksize
        let srcDiff := vol.blocksize - srcOffset
        let dstDiff := vol.blocksize - dstOffset
        let diff := if srcDiff < dstDiff then srcDiff else dstDiff
        let diff := if diff > size then size else diff
        do
          moveChunk vol (src / vol.blocksize) (dst / vol.blocksize)
            srcOffset dstOffset diff
          copyForward vol fuel (u64 (dst + diff)) (u64 (src + diff)) (size - diff)

theorem copyForward_zero (vol : Volume σ) (fuel dst src : Nat) :
    copyForward vol fuel dst src 0 = pure () := by
  cases fuel <;> rfl

/-- The loop of `copy_backward`; `src` and `dst` are the addresses of the last
bytes still to be moved. -/
def copyBackwardLoop (vol : Volume σ) : Nat → Nat → Nat → Nat → Call σ Unit
  | 0, _, _, size => if size = 0 then pure () else Call.stuck
  | fuel + 1, dst, src, size =>
      if size = 0 then pure () else
        let srcDiff := src % vol.blocksize + 1
        let dstDiff := dst % vol.blocksize + 1
        let diff := if dstDiff < srcDiff then dstDiff else srcDiff
        let diff := if diff > size then size else diff
        let srcOffset := if srcDiff > diff then srcDiff - diff else 0
        let dstOffset := if dstDiff > diff then dstDiff - diff else 0
        do
          moveChunk vol (src / vol.blocksize) (dst / vol.blocksize)
            srcOffset dstOffset diff
          copyBackwardLoop vol fuel (sub64 dst diff) (sub64 src diff) (size - diff)

/-- `copy_backward`. -/
def copyBackward (vol : Volume σ) (dst src size : Nat) : Call σ Unit :=
  copyBackwardLoop vol size (u64 (dst + (size - 1))) (u64 (src + (size - 1))) size

/-- `volume_memmove`. -/
def volumeMemmove (vol : Volume σ) (dst src size : Nat) : Call σ Unit :=
  if src = dst ∨ size = 0 then pure ()
  else if src < dst ∧ u64 (src + size - 1) ≥ dst then
    copyBackward vol dst src size
  else
    copyForward vol size dst src size

/-! ## One round -/

section Round

variable {size : Nat}

/-- A round of `copy_forward` moves up to the end of one of the two blocks. -/
theorem copyForward_succ (vol : Volume σ) (fuel dst src : Nat) (hbs : 0 < vol.blocksize)
    (hsize : 0 < size) :
    ∃ diff, 0 < diff ∧ diff ≤ size ∧ src % vol.blocksize + diff ≤ vol.blocksize ∧
      dst % vol.blocksize + diff ≤ vol.blocksize ∧
      copyForward vol (fuel + 1) dst src size = (do
        moveChunk vol (src / vol.blocksize) (dst / vol.blocksize) (src % vol.blocksize)
          (dst % vol.blocksize) diff
        copyForward vol fuel (u64 (dst + diff)) (u64 (src + diff)) (size - diff)) := by
  have hsmod := Nat.mod_lt src hbs
  have hdmod := Nat.mod_lt dst hbs
  refine ⟨_, ?_, ?_, ?_, ?_, if_neg (Nat.ne_of_gt hsize)⟩
  all_goals split <;> split <;> omega

/-- A round of `copy_backward` moves down to the start of one of the two blocks. -/
theorem copyBackwardLoop_succ (vol : Volume σ) (fuel dst src : Nat) (hsize : 0 < size) :
    ∃ diff, 0 < diff ∧ diff ≤ size ∧ diff ≤ src % vol.blocksize + 1 ∧
      diff ≤ dst % vol.blocksize + 1 ∧
      copyBackwardLoop vol (fuel + 1) dst src size = (do
        moveChunk vol (src / vol.blocksize) (dst / vol.blocksize)
          (src % vol.blocksize + 1 - diff) (dst % vol.blocksize + 1 - diff) diff
        copyBackwardLoop vol fuel (sub64 dst diff) (sub64 src diff) (size - diff)) := by
  have hoffset : ∀ a d : Nat, (if a > d then a - d else 0) = a - d := by
    intro a d
    split <;> omega
  simp only [copyBackwardLoop, if_neg (Nat.ne_of_gt hsize), hoffset]
  refine ⟨_, ?_, ?_, ?_, ?_, rfl⟩
  all_goals split <;> split <;> omega

end Round

/-! ## Kept properties -/

section Keeps

variable {vol : Volume σ} {P : σ → Prop}

/-- A chunk that does not reach over the end of its source or destination block. -/
def WithinBlocks (bs srcOffset dstOffset size : Nat) : Prop :=
  srcOffset + size ≤ bs ∧ dstOffset + size ≤ bs

/-- A property that no move of a chunk within two blocks breaks. -/
def ChunksKeep (vol : Volume σ) (P : σ → Prop) : Prop :=
  ∀ i j a b n, (0 < vol.blocksize → WithinBlocks vol.blocksize a b n) →
    (moveChunk vol i j a b n).Keeps P

theorem copyForward_keeps (hk : ChunksKeep vol P) (fuel dst src size : Nat) :
    (copyForward vol fuel dst src size).Keeps P := by
  induction fuel generalizing dst src size with
  | zero => exact Call.Keeps.ite (Call.Keeps.pure _) Call.Keeps.stuck
  | succ fuel ih =>
      refine Call.Keeps.ite (Call.Keeps.pure _) (Call.Keeps.bind (hk _ _ _ _ _ ?_) fun _ =>
        ih _ _ _)
      intro hbs
      have hsmod := Nat.mod_lt src hbs
      have hdmod := Nat.mod_lt dst hbs
      constructor <;> split <;> split <;> omega

theorem copyBackwardLoop_keeps (hk : ChunksKeep vol P) (fuel dst src size : Nat) :
    (copyBackwardLoop vol fuel dst src size).Keeps P := by
  induction fuel generalizing dst src size with
  | zero => exact Call.Keeps.ite (Call.Keeps.pure _) Call.Keeps.stuck
  | succ fuel ih =>
      refine Call.Keeps.ite (Call.Keeps.pure _) (Call.Keeps.bind (hk _ _ _ _ _ ?_) fun _ =>
        ih _ _ _)
      intro hbs
      have hsmod := Nat.mod_lt src hbs
      have hdmod := Nat.mod_lt dst hbs
      generalize hdiff : (if (if dst % vol.blocksize + 1 < src % vol.blocksize + 1 then
          dst % vol.blocksize + 1 else src % vol.blocksize + 1) > size then size else
          if dst % vol.blocksize + 1 < src % vol.blocksize + 1 then
          dst % vol.blocksize + 1 else src % vol.blocksize + 1) = diff
      have hle : diff ≤ src % vol.blocksize + 1 ∧ diff ≤ dst % vol.blocksize + 1 := by
        subst hdiff
        split <;> split <;> omega
      constructor <;> split <;> omega

/-- What every chunk within two blocks keeps, `volume_memmove` keeps: it issues no other
moves. -/
theorem volumeMemmove_chunks (hk : ChunksKeep vol P) (dst src size : Nat) :
    (volumeMemmove vol dst src size).Keeps P :=
  Call.Keeps.ite (Call.Keeps.pure _) (Call.Keeps.ite
    (copyBackwardLoop_keeps hk _ _ _ _) (copyForward_keeps hk _ _ _ _))

theorem volumeMemmove_keeps (hk : vol.Keeps P) (dst src size : Nat) :
    (volumeMemmove vol dst src size).Keeps P :=
  volumeMemmove_chunks (fun _ _ _ _ _ _ =>
    Call.Keeps.ite (hk.moveBlock _ _) (hk.moveBlockPartial _ _ _ _ _)) dst src size

end Keeps

/-! ## Behaviour on a block store -/

section BlockStore

variable {vol : Volume σ} {count : Nat} {view : σ → Bytes}

/-- A chunk within one source and one destination block moves exactly its
bytes, whichever of the two operations carries it out. -/
theorem moveChunk_eq (hv : BlockStore vol count view) (s : σ)
    {i j a b n : Nat} (hi : i < count) (hj : j < count)
    (ha : a + n ≤ vol.blocksize) (hb : b + n ≤ vol.blocksize) :
    ∃ s', moveChunk vol i j a b n s = .ok () s' ∧
      view s' = (view s).move (j * vol.blocksize + b) (i * vol.blocksize + a) n := by
  unfold moveChunk
  split
  · rename_i h
    obtain ⟨rfl, rfl, rfl⟩ := h
    simpa using hv.moveBlock s i j hi hj
  · exact hv.moveBlockPartial s i j a b n hi hj ha hb

private theorem div_lt_of_add_le {a n count bs : Nat} (hn : 0 < n)
    (h : a + n ≤ count * bs) : a / bs < count := by
  apply Nat.div_lt_of_lt_mul
  rw [Nat.mul_comm]
  omega

theorem copyForward_eq (hv : BlockStore vol count view) :
    ∀ (fuel dst src size : Nat) (s : σ), size ≤ fuel →
      dst + size ≤ count * vol.blocksize → src + size ≤ count * vol.blocksize →
      dst + size ≤ 2 ^ 64 → src + size ≤ 2 ^ 64 →
      (dst ≤ src ∨ src + size ≤ dst) →
      ∃ s', copyForward vol fuel dst src size s = .ok () s' ∧
        view s' = (view s).move dst src size := by
  intro fuel
  induction fuel with
  | zero =>
      intro dst src size s hfuel _ _ _ _ _
      obtain rfl : size = 0 := by omega
      exact ⟨s, by simp [copyForward], by simp⟩
  | succ fuel ih =>
      intro dst src size s hfuel hdst hsrc hdst64 hsrc64 hdir
      by_cases hsize : size = 0
      · subst hsize
        exact ⟨s, by simp [copyForward], by simp⟩
      have hsdm := Nat.div_add_mod src vol.blocksize
      have hddm := Nat.div_add_mod dst vol.blocksize
      obtain ⟨diff, hpos, hle, hso, hdo, hround⟩ :=
        copyForward_succ vol fuel dst src hv.blocksize_pos (Nat.pos_of_ne_zero hsize)
      obtain ⟨s₁, hs₁, hview₁⟩ := moveChunk_eq hv s
        (div_lt_of_add_le (by omega) hsrc) (div_lt_of_add_le (by omega) hdst) hso hdo
      rw [Nat.mul_comm _ vol.blocksize, Nat.mul_comm _ vol.blocksize, hsdm, hddm]
        at hview₁
      rw [hround, Call.bind_apply, hs₁]
      -- the addresses may wrap only behind the last chunk
      by_cases hlast : size - diff = 0
      · obtain rfl : diff = size := by omega
        refine ⟨s₁, ?_, hview₁⟩
        rw [Outcome.bind_ok, hlast, copyForward_zero, Call.pure_apply]
      rw [u64_of_lt (by omega), u64_of_lt (by omega)]
      obtain ⟨s₂, hs₂, hview₂⟩ := ih (dst + diff) (src + diff) (size - diff) s₁
        (by omega) (by omega) (by omega) (by omega) (by omega) (by omega)
      refine ⟨s₂, hs₂, ?_⟩
      rw [hview₂, hview₁, Bytes.move_move_forward (by omega)]
      congr 1
      omega

theorem copyBackwardLoop_eq (hv : BlockStore vol count view)
    (dst src : Nat) (hdir : src ≤ dst) :
    ∀ (fuel size dstEnd srcEnd : Nat) (s : σ), size ≤ fuel →
      dst + size ≤ count * vol.blocksize → dst + size ≤ 2 ^ 64 →
      (0 < size → dstEnd = dst + size - 1 ∧ srcEnd = src + size - 1) →
      ∃ s', copyBackwardLoop vol fuel dstEnd srcEnd size s = .ok () s' ∧
        view s' = (view s).move dst src size := by
  intro fuel
  induction fuel with
  | zero =>
      intro size dstEnd srcEnd s hfuel _ _ _
      obtain rfl : size = 0 := by omega
      exact ⟨s, by simp [copyBackwardLoop], by simp⟩
  | succ fuel ih =>
      intro size dstEnd srcEnd s hfuel hdst hdst64 hends
      by_cases hsize : size = 0
      · subst hsize
        exact ⟨s, by simp [copyBackwardLoop], by simp⟩
      obtain ⟨hde, hse⟩ := hends (by omega)
      have hsdm := Nat.div_add_mod srcEnd vol.blocksize
      have hddm := Nat.div_add_mod dstEnd vol.blocksize
      have hsmod := Nat.mod_lt srcEnd hv.blocksize_pos
      have hdmod := Nat.mod_lt dstEnd hv.blocksize_pos
      obtain ⟨diff, hpos, hle, hso, hdo, hround⟩ :=
        copyBackwardLoop_succ vol fuel dstEnd srcEnd (Nat.pos_of_ne_zero hsize)
      obtain ⟨s₁, hs₁, hview₁⟩ := moveChunk_eq hv s
        (i := srcEnd / vol.blocksize) (j := dstEnd / vol.blocksize)
        (a := srcEnd % vol.blocksize + 1 - diff)
        (b := dstEnd % vol.blocksize + 1 - diff) (n := diff)
        (div_lt_of_add_le (n := 1) (by omega) (by omega))
        (div_lt_of_add_le (n := 1) (by omega) (by omega)) (by omega) (by omega)
      have hdstEq : dstEnd / vol.blocksize * vol.blocksize +
          (dstEnd % vol.blocksize + 1 - diff) = dst + (size - diff) := by
        rw [Nat.mul_comm]; omega
      have hsrcEq : srcEnd / vol.blocksize * vol.blocksize +
          (srcEnd % vol.blocksize + 1 - diff) = src + (size - diff) := by
        rw [Nat.mul_comm]; omega
      rw [hdstEq, hsrcEq] at hview₁
      rw [hround, Call.bind_apply, hs₁]
      obtain ⟨s₂, hs₂, hview₂⟩ := ih (size - diff) (sub64 dstEnd diff)
        (sub64 srcEnd diff) s₁ (by omega) (by omega) (by omega) (by
          intro hpos
          rw [sub64_of_le (by omega) (by omega), sub64_of_le (by omega) (by omega)]
          omega)
      refine ⟨s₂, hs₂, ?_⟩
      rw [hview₂, hview₁, Bytes.move_move_backward hdir]
      congr 1
      omega

/-- On a block store `volume_memmove` succeeds and moves the byte range, in
either direction and at any alignment. -/
theorem volumeMemmove_eq (hv : BlockStore vol count view)
    {dst src size : Nat} (s : σ)
    (hdst : dst + size ≤ count * vol.blocksize)
    (hsrc : src + size ≤ count * vol.blocksize)
    (hdst64 : dst + size ≤ 2 ^ 64) (hsrc64 : src + size ≤ 2 ^ 64) :
    ∃ s', volumeMemmove vol dst src size s = .ok () s' ∧
      view s' = (view s).move dst src size := by
  unfold volumeMemmove
  by_cases htriv : src = dst ∨ size = 0
  · rw [if_pos htriv]
    refine ⟨s, rfl, ?_⟩
    rcases htriv with rfl | rfl
    · rw [Bytes.move_self]
    · rw [Bytes.move_zero]
  rw [if_neg htriv, u64_of_lt (by omega)]
  by_cases hback : src < dst ∧ src + size - 1 ≥ dst
  · rw [if_pos hback]
    unfold copyBackward
    rw [u64_of_lt (by omega), u64_of_lt (by omega)]
    exact copyBackwardLoop_eq hv dst src (by omega) size size _ _ s
      (Nat.le_refl _) hdst hdst64 (by intro _; omega)
  · rw [if_neg hback]
    exact copyForward_eq hv size dst src size s (Nat.le_refl _) hdst hsrc
      hdst64 hsrc64 (by omega)

end BlockStore

/-! ## Refusal behind the end -/

section Refuses

variable {vol : Volume σ} {count : Nat}

theorem moveChunk_ok (hr : RefusesOutside vol count) {i j a b n : Nat} {s s' : σ}
    (h : moveChunk vol i j a b n s = .ok () s') : i < count ∧ j < count := by
  by_contra hout
  have hij : count ≤ i ∨ count ≤ j := by omega
  unfold moveChunk at h
  split at h
  · rw [hr.moveBlock s i j hij] at h
    cases h
  · rw [hr.moveBlockPartial s i j a b n hij] at h
    cases h

/-- A block below the count ends within the volume. -/
private theorem block_end_le {p n bs count : Nat} (hbs : 0 < bs) (h : p / bs < count)
    (hn : n ≤ bs - p % bs) : p + n ≤ count * bs := by
  have hdm := Nat.div_add_mod p bs
  have hmod := Nat.mod_lt p hbs
  calc p + n ≤ bs * (p / bs) + bs := by omega
    _ = (p / bs + 1) * bs := by rw [Nat.add_mul, Nat.one_mul, Nat.mul_comm]
    _ ≤ count * bs := Nat.mul_le_mul_right _ h

theorem copyForward_ok (hr : RefusesOutside vol count) (hbs : 0 < vol.blocksize) :
    ∀ (fuel dst src size : Nat) (s s' : σ), 0 < size → dst + size ≤ 2 ^ 64 →
      copyForward vol fuel dst src size s = .ok () s' →
      dst + size ≤ count * vol.blocksize := by
  intro fuel
  induction fuel with
  | zero =>
      intro dst src size s s' hsize _ h
      rw [copyForward, if_neg (by omega)] at h
      cases h
  | succ fuel ih =>
      intro dst src size s s' hsize h64 h
      obtain ⟨diff, hpos, hle, -, hblk, hround⟩ := copyForward_succ vol fuel dst src hbs hsize
      rw [hround, Call.bind_apply] at h
      obtain ⟨_, t, hres, h⟩ := Outcome.of_bind_eq_ok h
      have hin := block_end_le (n := diff) hbs (moveChunk_ok hr hres).2 (by omega)
      by_cases hlast : size - diff = 0
      · omega
      · rw [u64_of_lt (by omega)] at h
        have hrest := ih _ _ _ _ _ (by omega) (by omega) h
        omega

theorem copyBackwardLoop_ok (hr : RefusesOutside vol count) (hbs : 0 < vol.blocksize)
    {fuel dst src size : Nat} {s s' : σ} (hsize : 0 < size)
    (h : copyBackwardLoop vol fuel dst src size s = .ok () s') :
    dst < count * vol.blocksize := by
  cases fuel with
  | zero =>
      rw [copyBackwardLoop, if_neg (by omega)] at h
      cases h
  | succ fuel =>
      obtain ⟨diff, -, -, -, -, hround⟩ := copyBackwardLoop_succ vol fuel dst src hsize
      rw [hround, Call.bind_apply] at h
      obtain ⟨_, t, hres, -⟩ := Outcome.of_bind_eq_ok h
      have hmod := Nat.mod_lt dst hbs
      have hend := block_end_le (n := 1) hbs (moveChunk_ok hr hres).2 (by omega)
      omega

/-- A copy down to the first byte and on from the last address is refused. -/
theorem copyBackwardLoop_le (hr : RefusesOutside vol count) (hbs : 0 < vol.blocksize)
    (hbytes : count * vol.blocksize < 2 ^ 64) (fuel dst src size : Nat) {s s' : σ}
    (hdst : dst < 2 ^ 64) (h : copyBackwardLoop vol fuel dst src size s = .ok () s') :
    size ≤ dst + 1 := by
  induction fuel generalizing dst src size s with
  | zero =>
      unfold copyBackwardLoop at h
      split at h
      · omega
      · cases h
  | succ fuel ih =>
      by_contra hover
      have hin := copyBackwardLoop_ok hr hbs (by omega) h
      obtain ⟨diff, hpos, hle, hso, hdo, hround⟩ :=
        copyBackwardLoop_succ vol fuel dst src (show 0 < size by omega)
      have hmod := Nat.mod_le dst vol.blocksize
      rw [hround, Call.bind_apply] at h
      obtain ⟨_, t, -, h⟩ := Outcome.of_bind_eq_ok h
      by_cases hwrap : dst < diff
      · -- the next round starts behind the volume
        have hlast := copyBackwardLoop_ok hr hbs (by omega) h
        rw [sub64_of_lt hwrap (by omega)] at hlast
        omega
      · rw [sub64_of_le (by omega) hdst] at h
        have hrest := ih (dst - diff) _ (size - diff) (by omega) h
        omega

/-- Nor is a range moved up whose new place has no 64-bit end. -/
theorem volumeMemmove_wrapped (hr : RefusesOutside vol count) (hbs : 0 < vol.blocksize)
    (hbytes : count * vol.blocksize < 2 ^ 64) {dst src size : Nat} {s s' : σ}
    (hsrc : src < dst) (hover : dst < src + size) (hsrc64 : src + size ≤ 2 ^ 64)
    (h : volumeMemmove vol dst src size s = .ok () s') : dst + size ≤ 2 ^ 64 := by
  unfold volumeMemmove at h
  rw [if_neg (by omega), u64_of_lt (by omega), if_pos (by omega)] at h
  have hle := copyBackwardLoop_le hr hbs hbytes _ _ _ _ (u64_lt _) h
  unfold u64 at hle
  omega

/-- A volume that refuses what leaves it moves a range only where all of it fits. -/
theorem volumeMemmove_ok (hr : RefusesOutside vol count) (hbs : 0 < vol.blocksize)
    {dst src size : Nat} {s s' : σ} (hsize : 0 < size) (hne : src ≠ dst)
    (h64 : dst + size ≤ 2 ^ 64) (h : volumeMemmove vol dst src size s = .ok () s') :
    dst + size ≤ count * vol.blocksize := by
  unfold volumeMemmove at h
  rw [if_neg (by omega)] at h
  split at h
  · have hlast := copyBackwardLoop_ok hr hbs hsize h
    rw [u64_of_lt (by omega)] at hlast
    omega
  · exact copyForward_ok hr hbs _ _ _ _ _ _ hsize h64 h

end Refuses

/-! ## Copies that do not fit -/

section Beyond

variable {vol : Volume σ} {count : Nat} {view : σ → Bytes}

/-- A chunk is moved as it was asked for, or refused. -/
theorem moveChunk_cases (hv : BlockStore vol count view) (hr : RefusesOutside vol count)
    (s : σ) {i j a b n : Nat} (ha : a + n ≤ vol.blocksize) (hb : b + n ≤ vol.blocksize) :
    (j < count ∧ ∃ s', moveChunk vol i j a b n s = .ok () s' ∧
        view s' = (view s).move (j * vol.blocksize + b) (i * vol.blocksize + a) n) ∨
      moveChunk vol i j a b n s = .fail s := by
  by_cases hin : i < count ∧ j < count
  · exact Or.inl ⟨hin.2, moveChunk_eq hv s hin.1 hin.2 ha hb⟩
  · right
    have hout : count ≤ i ∨ count ≤ j := by omega
    unfold moveChunk
    split
    · exact hr.moveBlock s i j hout
    · exact hr.moveBlockPartial s i j a b n hout

/-- A copy that leaves the volume fails, and has changed nothing in front of its
destination. -/
theorem copyForward_beyond (hv : BlockStore vol count view) (hr : RefusesOutside vol count)
    (hbytes : count * vol.blocksize < 2 ^ 64) :
    ∀ (fuel dst src size : Nat) (s : σ), 0 < size → count * vol.blocksize < dst + size →
      Call.Returns (copyForward vol fuel dst src size s) (fun _ _ => False)
        fun s' => ∀ p < dst, view s' p = view s p := by
  intro fuel
  induction fuel with
  | zero =>
      intro dst src size s hsize _
      unfold copyForward
      rw [if_neg (by omega)]
      trivial
  | succ fuel ih =>
      intro dst src size s hsize hout
      have hbs := hv.blocksize_pos
      obtain ⟨diff, hpos, hle, hso, hdo, hround⟩ := copyForward_succ vol fuel dst src hbs hsize
      rw [hround, Call.bind_apply]
      rcases moveChunk_cases hv hr s (i := src / vol.blocksize) (j := dst / vol.blocksize)
        hso hdo with ⟨hj, s₁, hs₁, hview₁⟩ | hfail
      · have hend := block_end_le hbs hj (n := diff) (by omega)
        have hdm := Nat.div_add_mod dst vol.blocksize
        rw [Nat.mul_comm (dst / vol.blocksize), hdm] at hview₁
        rw [hs₁, Outcome.bind_ok, u64_of_lt (by omega)]
        apply (ih (dst + diff) _ (size - diff) s₁ (by omega) (by omega)).mono
        · intro _ _ h
          exact h
        · intro s' hs' p hp
          rw [hs' p (by omega), hview₁, Bytes.move_apply_of_lt hp]
      · rw [hfail]
        exact fun _ _ => rfl

/-- Moving a range behind itself and over the end of the volume. -/
theorem volumeMemmove_beyond (hv : BlockStore vol count view) (hr : RefusesOutside vol count)
    (hbytes : count * vol.blocksize < 2 ^ 64) {dst src size : Nat} (s : σ)
    (hsize : 0 < size) (hsrc : src + size ≤ dst) (hsrc64 : src + size ≤ 2 ^ 64)
    (hout : count * vol.blocksize < dst + size) :
    Call.Returns (volumeMemmove vol dst src size s) (fun _ _ => False)
      fun s' => ∀ p < dst, view s' p = view s p := by
  unfold volumeMemmove
  rw [if_neg (by omega), u64_of_lt (by omega), if_neg (by omega)]
  exact copyForward_beyond hv hr hbytes size dst src size s hsize hout

/-- Moving a range up over itself and over the end of the volume: the first chunk is
refused. -/
theorem volumeMemmove_refused (hv : BlockStore vol count view) (hr : RefusesOutside vol count)
    {dst src size : Nat} (s : σ) (hsrc : src < dst) (hover : dst < src + size)
    (h64 : dst + size ≤ 2 ^ 64) (hout : count * vol.blocksize < dst + size) :
    volumeMemmove vol dst src size s = .fail s := by
  have hbs := hv.blocksize_pos
  unfold volumeMemmove
  rw [if_neg (by omega), u64_of_lt (by omega), if_pos (by omega)]
  unfold copyBackward
  obtain ⟨fuel, rfl⟩ : ∃ fuel, size = fuel + 1 := ⟨size - 1, by omega⟩
  rw [u64_of_lt (by omega), u64_of_lt (by omega)]
  obtain ⟨diff, -, -, hso, hdo, hround⟩ := copyBackwardLoop_succ vol fuel
    (dst + (fuel + 1 - 1)) (src + (fuel + 1 - 1)) (Nat.succ_pos fuel)
  have hsmod := Nat.mod_lt (src + (fuel + 1 - 1)) hbs
  have hdmod := Nat.mod_lt (dst + (fuel + 1 - 1)) hbs
  rw [hround, Call.bind_apply]
  rcases moveChunk_cases hv hr s (i := (src + (fuel + 1 - 1)) / vol.blocksize)
    (j := (dst + (fuel + 1 - 1)) / vol.blocksize) (n := diff)
    (a := (src + (fuel + 1 - 1)) % vol.blocksize + 1 - diff)
    (b := (dst + (fuel + 1 - 1)) % vol.blocksize + 1 - diff) (by omega) (by omega)
    with ⟨hj, _⟩ | hfail
  · have := block_end_le hbs hj (n := 1) (by omega)
    omega
  · rw [hfail]
    rfl

end Beyond

/-! ## The moves of a copy -/

/-- A block move as it was asked for. -/
structure BlockMove where
  src : Nat
  dst : Nat
  srcOffset : Nat
  dstOffset : Nat
  size : Nat

/-- A call that is not recorded. -/
def unrecorded {α : Type} (m : Call σ α) : Call (σ × List BlockMove) α :=
  Call.zoom Prod.fst (fun s t => (t, s.2)) m

/-- A call that carries out a block move, put on record first. -/
def BlockMove.recorded (move : BlockMove) (m : Call σ Unit) :
    Call (σ × List BlockMove) Unit := do
  Call.modify fun s => (s.1, s.2 ++ [move])
  unrecorded m

/-- A volume that keeps a record of the block moves it is asked for. -/
def recording (vol : Volume σ) : Volume (σ × List BlockMove) where
  blocksize := vol.blocksize
  getMinBlockCount s := vol.getMinBlockCount s.1
  getMaxBlockCount s := vol.getMaxBlockCount s.1
  getBlockCount s := vol.getBlockCount s.1
  truncate size := unrecorded (vol.truncate size)
  readBlock i := unrecorded (vol.readBlock i)
  readPartialBlock i off n := unrecorded (vol.readPartialBlock i off n)
  writeBlock i b := unrecorded (vol.writeBlock i b)
  writePartialBlock i b off n := unrecorded (vol.writePartialBlock i b off n)
  moveBlock i j := BlockMove.recorded ⟨i, j, 0, 0, vol.blocksize⟩ (vol.moveBlock i j)
  moveBlockPartial i j a b n :=
    BlockMove.recorded ⟨i, j, a, b, n⟩ (vol.moveBlockPartial i j a b n)
  discardBlocks i n := unrecorded (vol.discardBlocks i n)
  commit := unrecorded vol.commit

section Recording

variable {vol : Volume σ} {count : Nat} {view : σ → Bytes}

@[simp] theorem recording_blocksize : (recording vol).blocksize = vol.blocksize := rfl

/-- A call on the volume inside, which succeeds, leaves the record alone. -/
private theorem exists_zoom {m : Call σ Unit} {s : σ × List BlockMove} {c : Bytes}
    (h : ∃ s', m s.1 = .ok () s' ∧ view s' = c) (log : List BlockMove) :
    ∃ s', (m s.1).mapState (fun t => (t, log)) = .ok () s' ∧ view s'.1 = c := by
  obtain ⟨t, ht, hview⟩ := h
  exact ⟨(t, log), by simp [ht], hview⟩

/-- The record does not change what the volume does. -/
theorem BlockStore.recording (hv : BlockStore vol count view) :
    BlockStore (recording vol) count fun s => view s.1 where
  blocksize_pos := hv.blocksize_pos
  maxBlockCount s := hv.maxBlockCount s.1
  readBlock s i hi := by
    show (vol.readBlock i s.1).mapState _ = _
    rw [hv.readBlock s.1 i hi]
    rfl
  readPartialBlock s i off n hi hn := by
    show (vol.readPartialBlock i off n s.1).mapState _ = _
    rw [hv.readPartialBlock s.1 i off n hi hn]
    rfl
  writeBlock s i b hi hb := exists_zoom (hv.writeBlock s.1 i b hi hb) s.2
  writePartialBlock s i b off n hi hn hb :=
    exists_zoom (hv.writePartialBlock s.1 i b off n hi hn hb) s.2
  moveBlock s i j hi hj := exists_zoom (hv.moveBlock s.1 i j hi hj) _
  moveBlockPartial s i j a b n hi hj ha hb :=
    exists_zoom (hv.moveBlockPartial s.1 i j a b n hi hj ha hb) _
  discardBlocks s i n h := exists_zoom (hv.discardBlocks s.1 i n h) s.2
  commit s := exists_zoom (hv.commit s.1) s.2

/-- A recorded move adds itself to the record and nothing else. -/
private theorem recorded_keeps {P : BlockMove → Prop} {move : BlockMove} (hmove : P move)
    (m : Call σ Unit) : (move.recorded m).Keeps fun s => ∀ x ∈ s.2, P x := by
  intro s hs
  have hall : ∀ x ∈ s.2 ++ [move], P x := by
    simp only [List.mem_append, List.mem_singleton]
    rintro x (hx | rfl)
    · exact hs x hx
    · exact hmove
  show Call.Returns ((m s.1).mapState fun t => (t, s.2 ++ [move])) _ _
  cases m s.1 with
  | ok a t => exact hall
  | fail t => exact hall
  | stuck => trivial

/-- The moves a copy asks for stay within one source and one destination block. -/
theorem volumeMemmove_withinBlocks (vol : Volume σ) (hbs : 0 < vol.blocksize)
    (dst src size : Nat) :
    (volumeMemmove (recording vol) dst src size).Keeps fun s =>
      ∀ m ∈ s.2, WithinBlocks vol.blocksize m.srcOffset m.dstOffset m.size := by
  apply volumeMemmove_chunks
  intro i j a b n hin
  have hfull : WithinBlocks vol.blocksize 0 0 vol.blocksize := by simp [WithinBlocks]
  unfold moveChunk
  exact Call.Keeps.ite (recorded_keeps hfull _) (recorded_keeps (hin hbs) _)

end Recording

section Ideal

variable {blocksize count dst src size : Nat}

/-- `volume_memmove` is `memmove`: for ranges of 64-bit byte addresses inside the volume it
succeeds, copies the source range as it was and changes nothing else, by moves that each
stay within one source and one destination block. -/
theorem volumeMemmove_memmove (hbs : 0 < blocksize)
    (hdst : dst + size ≤ count * blocksize) (hsrc : src + size ≤ count * blocksize)
    (hdst64 : dst + size ≤ 2 ^ 64) (hsrc64 : src + size ≤ 2 ^ 64) (w : Bytes) :
    ∃ (w' : Bytes) (moves : List BlockMove),
      volumeMemmove (idealVolume blocksize count) dst src size w = .ok () w' ∧
      w'.slice dst size = w.slice src size ∧
      (∀ p, p < dst ∨ dst + size ≤ p → w' p = w p) ∧
      volumeMemmove (recording (idealVolume blocksize count)) dst src size (w, []) =
        .ok () (w', moves) ∧
      ∀ m ∈ moves, WithinBlocks blocksize m.srcOffset m.dstOffset m.size := by
  have hstore : BlockStore (idealVolume blocksize count) count id :=
    idealVolume_blockStore hbs
  obtain ⟨w', hok, hview⟩ := volumeMemmove_eq hstore w hdst hsrc hdst64 hsrc64
  obtain ⟨⟨w'', moves⟩, hrec, hview'⟩ :=
    volumeMemmove_eq hstore.recording (w, []) hdst hsrc hdst64 hsrc64
  have hsame : w'' = w' := hview'.trans hview.symm
  subst hsame
  have hmove : w'' = w.move dst src size := hview
  have hkeeps : (volumeMemmove (recording (idealVolume blocksize count)) dst src size).Keeps
      fun s => ∀ m ∈ s.2, WithinBlocks blocksize m.srcOffset m.dstOffset m.size :=
    volumeMemmove_withinBlocks (idealVolume blocksize count) hbs dst src size
  have hwithin := hkeeps (w, []) (by simp)
  rw [hrec] at hwithin
  refine ⟨w'', moves, hok, ?_, ?_, hrec, hwithin⟩
  · rw [hmove, Bytes.slice_eq_iff]
    intro i hi
    rw [Bytes.move_apply_of_mem (by omega) (by omega)]
    congr 1
    omega
  · intro p hp
    rw [hmove]
    rcases hp with hp | hp
    · exact Bytes.move_apply_of_lt hp
    · exact Bytes.move_apply_of_ge hp

/-- Seven bytes move up by three, over themselves and across blocks of four. -/
theorem volumeMemmove_memmove_up :
    ∃ (w' : Bytes) (moves : List BlockMove),
      volumeMemmove (idealVolume 4 3) 4 1 7 (fun p => UInt8.ofNat p) = .ok () w' ∧
      w'.slice 4 7 = [1, 2, 3, 4, 5, 6, 7] ∧
      (∀ p, p < 4 ∨ 4 + 7 ≤ p → w' p = UInt8.ofNat p) ∧
      volumeMemmove (recording (idealVolume 4 3)) 4 1 7 (fun p => UInt8.ofNat p, []) =
        .ok () (w', moves) ∧
      ∀ m ∈ moves, WithinBlocks 4 m.srcOffset m.dstOffset m.size :=
  volumeMemmove_memmove (by decide) (by decide) (by decide) (by decide) (by decide)
    fun p => UInt8.ofNat p

end Ideal

end ImageTool.Image
