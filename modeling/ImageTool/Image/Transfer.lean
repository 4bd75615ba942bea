import ImageTool.Image.Truncation

/-!
# Moving blocks inside the file

The transfer loop of `move_block` gets ahead only by what `copy_file_range` reports.  At
the end of the file that is 0, and the loop asks again for ever.  A move ends, whatever
the system does, exactly if the file has the whole source block or will have it after
the first copy (`moveBlock_ends_iff`).
-/

namespace ImageTool.Image.FileVolume

open ImageTool.Lib ImageTool.Util

/-- The file has the source block to its end, or a copy of its first bytes to a block
behind it makes the file long enough. -/
def Backed (bs : Nat) (s : FileVolume) (src dst : Nat) : Prop :=
  src = dst ∨ s.bitmap.isSet src = false ∨ (src + 1) * bs ≤ s.file.size ∨
    (src < dst ∧ src * bs < s.file.size)

/-- A system that copies all the bytes there are. -/
def eagerHost : Host where
  hasFallocate := true
  copyFileRange f offIn _ size := some (min size (f.size - offIn))
  copy_le := by
    intro f i o n k h
    simp only [Option.some.injEq] at h
    omega
  copy_pos := by
    intro f i o n k h hn hi
    simp only [Option.some.injEq] at h
    omega

/-! ## The loop -/

section Loop

variable {host : Host} {offIn offOut size : Nat}

/-- Where the file has the whole range, every round copies something. -/
private theorem copyLoop_ends :
    ∀ (fuel : Nat) (f : OsFile) (processed : Nat), offIn + size ≤ f.size →
      size < processed + fuel → processed ≤ size →
      copyLoop host offIn offOut size fuel f processed ≠ none := by
  intro fuel
  induction fuel with
  | zero =>
      intro f processed _ hfuel hle
      omega
  | succ fuel ih =>
      intro f processed hfile hfuel hle
      unfold copyLoop
      by_cases hlt : processed < size
      · rw [if_pos hlt]
        cases hret : host.copyFileRange f (offIn + processed) (offOut + processed)
            (size - processed) with
        | none => simp
        | some ret =>
            have hcopied := host.copy_le f _ _ _ ret hret
            have hpos := host.copy_pos f _ _ _ ret hret (by omega) (by omega)
            have hgrown := OsFile.le_pwrite_size f (offOut + processed)
              (f.pread (offIn + processed) ret)
            exact ih _ _ (by omega) (by omega) (by omega)
      · rw [if_neg hlt]
        simp

/-- The first copy to a place behind the range makes the file long enough. -/
private theorem copyLoop_ends_upward {f : OsFile} (hbehind : offIn + size ≤ offOut)
    (hstart : offIn < f.size) :
    copyLoop host offIn offOut size (size + 1) f 0 ≠ none := by
  unfold copyLoop
  by_cases hlt : 0 < size
  · rw [if_pos hlt]
    cases hret : host.copyFileRange f (offIn + 0) (offOut + 0) (size - 0) with
    | none => simp
    | some ret =>
        have hcopied := host.copy_le f _ _ _ ret hret
        have hpos := host.copy_pos f _ _ _ ret hret (by omega) (by omega)
        have hlen : (f.pread (offIn + 0) ret).length = ret := by
          simp
          omega
        have hgrown : (f.pwrite (offOut + 0) (f.pread (offIn + 0) ret)).size =
            max f.size (offOut + 0 + (f.pread (offIn + 0) ret).length) :=
          OsFile.pwrite_size_of_ne (by omega)
        exact copyLoop_ends _ _ _ (by omega) (by omega) (by omega)
  · rw [if_neg hlt]
    simp

/-- A round that copies nothing is repeated for ever. -/
private theorem copyLoop_stalls {f : OsFile} {processed : Nat} (hlt : processed < size)
    (hret : host.copyFileRange f (offIn + processed) (offOut + processed)
      (size - processed) = some 0) (fuel : Nat) :
    copyLoop host offIn offOut size fuel f processed = none := by
  induction fuel with
  | zero => rfl
  | succ fuel ih =>
      have hread : f.pread (offIn + processed) 0 = [] := by simp [OsFile.pread]
      unfold copyLoop
      simp only [if_pos hlt, hret, hread, OsFile.pwrite_nil, Nat.add_zero, ih]

/-- A loop that has not ended when every byte could have been copied in a round of its
own never ends. -/
private theorem copyLoop_forever :
    ∀ (k : Nat) (f : OsFile) (processed : Nat), size ≤ processed + k →
      copyLoop host offIn offOut size (k + 1) f processed = none →
      ∀ fuel, copyLoop host offIn offOut size fuel f processed = none := by
  intro k
  induction k with
  | zero =>
      intro f processed hle hnone
      unfold copyLoop at hnone
      rw [if_neg (by omega)] at hnone
      cases hnone
  | succ k ih =>
      intro f processed hle hnone fuel
      unfold copyLoop at hnone
      by_cases hlt : processed < size
      · rw [if_pos hlt] at hnone
        cases hret : host.copyFileRange f (offIn + processed) (offOut + processed)
            (size - processed) with
        | none =>
            rw [hret] at hnone
            cases hnone
        | some ret =>
            rw [hret] at hnone
            by_cases hzero : ret = 0
            · rw [hzero] at hret
              exact copyLoop_stalls hlt hret fuel
            · have hrest := ih _ (processed + ret) (by omega) hnone
              cases fuel with
              | zero => rfl
              | succ fuel =>
                  unfold copyLoop
                  simp only [if_pos hlt, hret, hrest fuel]
      · rw [if_neg hlt] at hnone
        cases hnone

/-- Where the file ends inside the range and no copy makes it longer, the loop comes to
that end and stays there. -/
private theorem copyLoop_eager_stalls {f : OsFile} (hpos : 0 < size)
    (hend : f.size < offIn + size)
    (hfront : offOut + size ≤ offIn ∨ f.size ≤ offIn) (fuel : Nat) :
    copyLoop eagerHost offIn offOut size fuel f 0 = none := by
  have hret : ∀ (g : OsFile) (processed : Nat),
      eagerHost.copyFileRange g (offIn + processed) (offOut + processed)
        (size - processed) = some (min (size - processed) (g.size - (offIn + processed))) :=
    fun _ _ => rfl
  by_cases hsome : f.size ≤ offIn
  · have hzero : min (size - 0) (f.size - (offIn + 0)) = 0 := by omega
    exact copyLoop_stalls hpos (by rw [hret, hzero]) fuel
  · cases fuel with
    | zero => rfl
    | succ fuel =>
        have hcount : min (size - 0) (f.size - (offIn + 0)) = f.size - offIn := by omega
        have hlen : (f.pread (offIn + 0) (f.size - offIn)).length = f.size - offIn := by
          simp
        have hsize : (f.pwrite (offOut + 0) (f.pread (offIn + 0) (f.size - offIn))).size =
            f.size := by
          have hgrown : (f.pwrite (offOut + 0) (f.pread (offIn + 0) (f.size - offIn))).size =
              max f.size (offOut + 0 + (f.pread (offIn + 0) (f.size - offIn)).length) :=
            OsFile.pwrite_size_of_ne (by omega)
          rw [hgrown, hlen]
          omega
        have hzero : min (size - (f.size - offIn))
            (f.size - (offIn + (f.size - offIn))) = 0 := by omega
        unfold copyLoop
        rw [if_pos (by omega), hret, hcount]
        dsimp only
        rw [Nat.zero_add]
        exact copyLoop_stalls (by omega) (by rw [hret, hsize, hzero]) fuel

end Loop

/-! ## Moving a block -/

section Move

variable {bs : Nat} {s : FileVolume} {host : Host}

private theorem transferBlocks_stuck_iff {src dst : Nat} :
    transferBlocks host bs src dst 1 s = .stuck ↔
      copyLoop host (src * bs) (dst * bs) bs (bs + 1) s.file 0 = none := by
  unfold transferBlocks
  simp only [Nat.mul_one]
  cases copyLoop host (src * bs) (dst * bs) bs (bs + 1) s.file 0 with
  | none => simp
  | some res =>
      obtain ⟨f, processed⟩ := res
      simp only [reduceCtorEq, iff_false]
      split
      · simp only [Call.bind_apply, readRetry]
        split
        · simp [writeRetry]
        · simp
      · simp

private theorem discardBlocks_ne_stuck (i n : Nat) :
    discardBlocks host bs i n s ≠ .stuck := by
  unfold discardBlocks
  split
  · simp
  · dsimp only
    generalize (if n > s.maxBlockCount - i then s.maxBlockCount - i else n) = k
    split
    · simp
    · simp

/-- A move hangs where the loop asks for ever. -/
theorem moveBlock_stuck_iff {src dst : Nat} (hsrc : src < s.maxBlockCount)
    (hdst : dst < s.maxBlockCount) :
    moveBlock host bs src dst s = .stuck ↔
      src ≠ dst ∧ s.bitmap.isSet src = true ∧
        ∀ fuel, copyLoop host (src * bs) (dst * bs) bs fuel s.file 0 = none := by
  have hloop : (∀ fuel, copyLoop host (src * bs) (dst * bs) bs fuel s.file 0 = none) ↔
      copyLoop host (src * bs) (dst * bs) bs (bs + 1) s.file 0 = none :=
    ⟨fun h => h _, fun h => copyLoop_forever bs s.file 0 (by omega) h⟩
  rw [hloop, ← transferBlocks_stuck_iff (s := s)]
  unfold moveBlock
  rw [Call.bind_apply, checkBounds_ok hsrc (Nat.zero_add bs).le, Outcome.bind_ok,
    Call.bind_apply, checkBounds_ok hdst (Nat.zero_add bs).le, Outcome.bind_ok,
    Call.bind_apply, Call.get_apply, Outcome.bind_ok]
  by_cases heq : src = dst
  · rw [if_pos (Or.inl heq)]
    simp [heq]
  cases hset : s.bitmap.isSet src with
  | false =>
      cases hset' : s.bitmap.isSet dst with
      | false =>
          have hcond : src = dst ∨ (!false && !false) = true := Or.inr rfl
          rw [if_pos hcond]
          simp
      | true =>
          have hcond : ¬ (src = dst ∨ (!false && !true) = true) := by simp [heq]
          have htrue : (!false) = true := rfl
          rw [if_neg hcond, if_pos htrue]
          simp [discardBlocks_ne_stuck]
  | true =>
      have hcond : ¬ (src = dst ∨ (!true && !s.bitmap.isSet dst) = true) := by simp [heq]
      have hfalse : ¬ (!true) = true := Bool.false_ne_true
      rw [if_neg hcond, if_neg hfalse, Call.bind_apply]
      simp only [ne_eq, heq, not_false_eq_true, true_and]
      cases transferBlocks host bs src dst 1 s with
      | ok a t => simp [raiseUsed, setBit]
      | fail t => simp
      | stuck => simp

/-- A move ends under every system exactly if its source is backed by the file. -/
theorem moveBlock_ends_iff {src dst : Nat} (hsrc : src < s.maxBlockCount)
    (hdst : dst < s.maxBlockCount) :
    (∀ host, moveBlock host bs src dst s ≠ .stuck) ↔ Backed bs s src dst := by
  have hnext : (src + 1) * bs = src * bs + bs := by rw [Nat.add_mul, Nat.one_mul]
  constructor
  · intro hends
    by_contra hback
    simp only [Backed, not_or, Bool.not_eq_false, not_le, not_and] at hback
    obtain ⟨hne, hset, hend, hup⟩ := hback
    have hfront : dst * bs + bs ≤ src * bs ∨ s.file.size ≤ src * bs := by
      rcases Nat.lt_or_gt_of_ne hne with hlt | hgt
      · exact Or.inr (Nat.le_of_not_lt (hup hlt))
      · left
        calc dst * bs + bs = (dst + 1) * bs := by rw [Nat.add_mul, Nat.one_mul]
          _ ≤ src * bs := Nat.mul_le_mul_right _ hgt
    have hpos : 0 < bs := by
      by_contra hzero
      rw [Nat.eq_zero_of_not_pos hzero, Nat.mul_zero] at hend
      omega
    exact hends eagerHost ((moveBlock_stuck_iff hsrc hdst).2
      ⟨hne, hset, copyLoop_eager_stalls hpos (by omega) hfront⟩)
  · intro hback host hstuck
    obtain ⟨hne, hset, hnone⟩ := (moveBlock_stuck_iff hsrc hdst).1 hstuck
    rcases hback with heq | hclear | hfile | ⟨hlt, hstart⟩
    · exact hne heq
    · exact absurd (hclear.symm.trans hset) Bool.false_ne_true
    · exact copyLoop_ends _ _ _ (by omega) (by omega) (Nat.zero_le _) (hnone (bs + 1))
    · have hbehind : src * bs + bs ≤ dst * bs := by
        rw [← hnext]
        exact Nat.mul_le_mul_right _ hlt
      exact copyLoop_ends_upward hbehind hstart (hnone _)

end Move

/-! ## Runs -/

/-- A call does not move a block that is not backed. -/
def MovesBacked (bs : Nat) (s : FileVolume) (c : Host × Action) : Prop :=
  ∀ src dst, c.2 = .block (.move src dst) → src < s.maxBlockCount →
    dst < s.maxBlockCount → Backed bs s src dst

section Runs

variable {bs : Nat} {host : Host}

private theorem safe_of_returns {α : Type} {m : Call FileVolume α} (h : ∀ s, m s ≠ .stuck) :
    m.Safe fun _ => True := by
  refine ⟨fun s _ => ?_, fun s _ => h s⟩
  cases m s with
  | ok a t => trivial
  | fail t => trivial
  | stuck => trivial

private theorem safe_checkBounds (i off n : Nat) :
    (checkBounds bs i off n).Safe fun _ => True := by
  refine safe_of_returns fun s => ?_
  unfold checkBounds
  split
  · simp
  · split
    · simp
    · split
      · simp
      · simp

private theorem safe_readRetry (off n : Nat) :
    (FileVolume.readRetry off n).Safe fun _ => True := by
  refine safe_of_returns fun s => ?_
  unfold FileVolume.readRetry
  cases Util.readRetry s.file off n with
  | none => simp
  | some data => simp

private theorem safe_modify (f : FileVolume → FileVolume) :
    (Call.modify f).Safe fun _ => True := Call.Safe.modify fun _ _ => trivial

private theorem safe_readPartialBlock (i off n : Nat) :
    (readPartialBlock bs i off n).Safe fun _ => True :=
  (safe_checkBounds _ _ _).bind fun _ => Call.Safe.ite (Call.Safe.pure _)
    (Call.Safe.get.bind fun _ => Call.Safe.ite (Call.Safe.pure _)
      ((safe_readRetry _ _).bind fun _ => Call.Safe.pure _))

private theorem safe_writePartialBlock (i : Nat) (b : Buffer) (off n : Nat) :
    (writePartialBlock bs i b off n).Safe fun _ => True :=
  (safe_checkBounds _ _ _).bind fun _ => (safe_modify _).bind fun _ =>
    (safe_modify _).bind fun _ => safe_modify _

private theorem safe_moveBlockPartial (i j a b n : Nat) :
    (moveBlockPartial bs i j a b n).Safe fun _ => True :=
  (safe_checkBounds _ _ _).bind fun _ => (safe_checkBounds _ _ _).bind fun _ =>
    (safe_readRetry _ _).bind fun _ => (safe_modify _).bind fun _ => safe_modify _

/-- A move to or from a block outside the volume is refused. -/
private theorem moveBlock_outside {s : FileVolume} {src dst : Nat}
    (h : s.maxBlockCount ≤ src ∨ s.maxBlockCount ≤ dst) :
    moveBlock host bs src dst s = .fail s := by
  have hrefuse : ∀ i, s.maxBlockCount ≤ i → checkBounds bs i 0 bs s = .fail s := by
    intro i hi
    unfold checkBounds
    rw [if_pos hi]
  unfold moveBlock
  by_cases hsrc : s.maxBlockCount ≤ src
  · rw [Call.bind_apply, hrefuse src hsrc, Outcome.bind_fail]
  · rw [Call.bind_apply, checkBounds_ok (by omega) (Nat.zero_add bs).le, Outcome.bind_ok,
      Call.bind_apply, hrefuse dst (by omega), Outcome.bind_fail]

/-- Every call but a move of a block returns in every state, and a move does if its
source is backed. -/
theorem run_ne_stuck {s : FileVolume} {c : Host × Action} (h : MovesBacked bs s c) :
    c.2.run c.1 bs s ≠ .stuck := by
  obtain ⟨host, act⟩ := c
  have hunit : ∀ {m : Call FileVolume Unit}, m s ≠ .stuck →
      (do m; pure [] : Call FileVolume (List UInt8)) s ≠ .stuck := by
    intro m hm
    rw [Call.bind_apply]
    cases hres : m s with
    | ok a t => simp
    | fail t => simp
    | stuck => exact absurd hres hm
  cases act with
  | truncate size =>
      apply hunit
      unfold FileVolume.truncate
      dsimp only
      split
      · simp
      · split
        · simp
        · simp
  | setProperty prop value => exact hunit ((safe_modify _).ne_stuck s trivial)
  | block op =>
      cases op with
      | read i => exact (safe_readPartialBlock _ _ _).ne_stuck s trivial
      | readPartial i off n => exact (safe_readPartialBlock _ _ _).ne_stuck s trivial
      | write i b =>
          cases b with
          | none => exact hunit (discardBlocks_ne_stuck _ _)
          | some l => exact hunit ((safe_writePartialBlock _ _ _ _).ne_stuck s trivial)
      | writePartial i b off n =>
          exact hunit ((safe_writePartialBlock _ _ _ _).ne_stuck s trivial)
      | move src dst =>
          apply hunit
          show moveBlock host bs src dst s ≠ .stuck
          by_cases hin : src < s.maxBlockCount ∧ dst < s.maxBlockCount
          · exact (moveBlock_ends_iff hin.1 hin.2).2 (h src dst rfl hin.1 hin.2) host
          · rw [moveBlock_outside (by omega)]
            simp
      | movePartial i j a b n =>
          exact hunit ((safe_moveBlockPartial _ _ _ _ _).ne_stuck s trivial)
      | discard i n => exact hunit (discardBlocks_ne_stuck _ _)
      | commit =>
          apply hunit
          simp [volume, commit]

/-- Exactly the moves of backed blocks end under every system, in every state a volume
can get into, and a run whose moves are of that kind comes to its end. -/
theorem run_ends (bs : Nat) (file : OsFile) (maxSize : Nat) :
    (∀ s, Reached bs file maxSize s → ∀ src dst, src < s.maxBlockCount →
      dst < s.maxBlockCount →
      ((∀ host, moveBlock host bs src dst s ≠ .stuck) ↔ Backed bs s src dst)) ∧
    ∀ calls : List (Host × Action),
      Along (fun c => c.2.run c.1 bs) (MovesBacked bs) calls (fromFd bs file maxSize) →
      ∃ s, (runAll (fun c => c.2.run c.1 bs) calls (fromFd bs file maxSize)).2 = some s := by
  constructor
  · intro s _ src dst hsrc hdst
    exact moveBlock_ends_iff hsrc hdst
  · intro calls hcalls
    exact runAll_returns (fun s c h => run_ne_stuck h) hcalls

end Runs

theorem run_ends_full_block :
    (∀ host, moveBlock host 4 0 1 (fromFd 4 OsFile.empty 12) ≠ .stuck) ∧
      ∃ s, (runAll (fun c : Host × Action => c.2.run c.1 4)
        [(eagerHost, .block (.write 0 (some [1, 2, 3, 4]))), (eagerHost, .block (.move 0 1))]
        (fromFd 4 OsFile.empty 12)).2 = some s := by
  obtain ⟨hmove, hrun⟩ := run_ends 4 OsFile.empty 12
  constructor
  · exact (hmove _ Run.refl 0 1 (by decide) (by decide)).2 (Or.inr (Or.inl (by decide)))
  · apply hrun
    refine ⟨fun src dst h => ?_, fun src dst h _ _ => ?_, trivial⟩
    · cases h
    · cases h
      exact Or.inr (Or.inr (Or.inl (by decide)))

/-- A volume whose last marked block holds one byte. -/
def partlyBacked : FileVolume :=
  { fromFd 4 OsFile.empty 12 with
    file := OsFile.empty.pwrite 4 [7]
    bitmap := (Bitmap.create 0).set 1
    bytesUsed := 5 }

/-- Moving that block to the front never ends: the loop copies its byte and then asks at
the end of the file for ever. -/
theorem moveBlock_partlyBacked_stuck :
    Reached 4 OsFile.empty 12 partlyBacked ∧
      moveBlock eagerHost 4 1 0 partlyBacked = .stuck ∧
      ∀ fuel, copyLoop eagerHost 4 0 4 fuel partlyBacked.file 0 = none := by
  have hreached : Reached 4 OsFile.empty 12 partlyBacked :=
    Run.tail (eagerHost, .block (.writePartial 1 (some [7]) 0 1)) Run.refl trivial rfl
  have hstuck : moveBlock eagerHost 4 1 0 partlyBacked = .stuck := rfl
  exact ⟨hreached, hstuck, ((moveBlock_stuck_iff (by decide) (by decide)).1 hstuck).2.2⟩

end ImageTool.Image.FileVolume
