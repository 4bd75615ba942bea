import ImageTool.Fstree.MoveContent

/-!
# Appending and the contents of files

A file grows inside its last block or by one block in each round of
`fstree_file_append`, and a write reaches the bytes of one block only.
-/

namespace ImageTool.Fstree

open ImageTool.Lib ImageTool.Image ImageTool.Util

variable {σ : Type}

/-! ## Growing a file -/

/-- `c'` has the length of `c` with `data` behind it.  That is what it is up to byte `q`
of `c` and from the end of `c` on where `sound q` holds; if nothing but zeros was put
behind it, `c` itself is still there. -/
structure Grown (c data : List UInt8) (sound : Nat → Prop) (zeros : Prop)
    (c' : List UInt8) : Prop where
  length : c'.length = c.length + data.length
  agrees : ∀ q ≤ c.length, (c'.take q = c.take q ∧ c'.drop c.length = data) ↔ sound q
  kept : zeros → c'.take c.length = c

namespace Grown

variable {c c₁ c₂ data data' : List UInt8} {sound sound' : Nat → Prop} {zeros zeros' : Prop}

theorem of_append (h : c₁ = c ++ data) : Grown c data (fun _ => True) zeros c₁ := by
  subst h
  refine ⟨List.length_append, ?_, fun _ => List.take_left⟩
  intro q hq
  rw [List.take_append_of_le_length hq, List.drop_left]
  exact iff_true_intro ⟨rfl, rfl⟩

theorem eq_iff (h : Grown c data sound zeros c₁) : c₁ = c ++ data ↔ sound c.length := by
  rw [← h.agrees c.length (Nat.le_refl _), List.take_length]
  constructor
  · rintro rfl
    exact ⟨List.take_left, List.drop_left⟩
  · rintro ⟨htake, hdrop⟩
    rw [← List.take_append_drop c.length c₁, htake, hdrop]

theorem congr (h : Grown c data sound zeros c₁) (hsound : ∀ q ≤ c.length, sound q ↔ sound' q) :
    Grown c data sound' zeros c₁ :=
  ⟨h.length, fun q hq => (h.agrees q hq).trans (hsound q hq), h.kept⟩

/-- More bytes behind it, which arrive. -/
theorem trans (h : Grown c data sound zeros c₁) (h' : Grown c₁ data' sound' zeros' c₂)
    (hsound : sound' c₁.length) : Grown c (data ++ data') sound zeros c₂ := by
  have hle : c.length ≤ c₁.length := by
    rw [h.length]
    exact Nat.le_add_right _ _
  obtain rfl : c₂ = c₁ ++ data' := h'.eq_iff.2 hsound
  refine ⟨by simp [h.length, Nat.add_assoc], ?_, ?_⟩
  · intro q hq
    rw [← h.agrees q hq, List.take_append_of_le_length (Nat.le_trans hq hle),
      List.drop_append_of_le_length hle, List.append_left_inj]
  · intro hz
    rw [List.take_append_of_le_length hle]
    exact h.kept hz

end Grown

section Grow

variable {bs b o t ts d a : Nat} {view view' : Bytes} {n m : FileNode} {data : List UInt8}

theorem blockByte_sparse (h : Covers n.sparse b) : blockByte bs view n b o = 0 := if_pos h

theorem blockByte_stored (h : ¬ Covers n.sparse b) :
    blockByte bs view n b o = view ((n.startIndex + rank n.sparse b) * bs + o) := by
  unfold blockByte
  rw [if_neg h, Nat.add_mul, Nat.add_assoc]

/-- A write inside one block leaves the others alone. -/
theorem splice_other_block {x : Nat} (hne : x ≠ a) (ho : o < bs) (hfit : d + data.length ≤ bs) :
    view.splice (a * bs + d) data (x * bs + o) = view (x * bs + o) := by
  rcases Nat.lt_or_gt_of_ne hne with hlt | hgt
  · have hle := Nat.mul_le_mul_right bs hlt
    rw [Nat.succ_mul] at hle
    exact Bytes.splice_apply_of_lt (by omega)
  · have hle := Nat.mul_le_mul_right bs hgt
    rw [Nat.succ_mul] at hle
    exact Bytes.splice_apply_of_ge (by omega)

theorem blockByte_splice_ne (hne : ¬ Covers n.sparse b → n.startIndex + rank n.sparse b ≠ a)
    (ho : o < bs) (hfit : d + data.length ≤ bs) :
    blockByte bs (view.splice (a * bs + d) data) n b o = blockByte bs view n b o := by
  by_cases hb : Covers n.sparse b
  · rw [blockByte_sparse hb, blockByte_sparse hb]
  · rw [blockByte_stored hb, blockByte_stored hb, splice_other_block (hne hb) ho hfit]

/-- A write to a stored block of the file itself. -/
theorem blockByte_splice_self (hb : ¬ Covers n.sparse b) :
    blockByte bs (view.splice ((n.startIndex + rank n.sparse b) * bs + d) data) n b o =
      if d ≤ o ∧ o < d + data.length then data.getD (o - d) 0 else blockByte bs view n b o := by
  rw [blockByte_stored hb, blockByte_stored hb]
  unfold Bytes.splice
  by_cases hin : d ≤ o ∧ o < d + data.length
  · rw [if_pos hin, if_pos (by omega), Nat.add_sub_add_left]
  · rw [if_neg hin, if_neg (by omega)]

theorem blockByte_splice_other (hb : ¬ Covers n.sparse b) {x : Nat} (hne : x ≠ b)
    (ho : o < bs) (hfit : d + data.length ≤ bs) :
    blockByte bs (view.splice ((n.startIndex + rank n.sparse b) * bs + d) data) n x o =
      blockByte bs view n x o := by
  apply blockByte_splice_ne _ ho hfit
  intro hx
  rcases Nat.lt_or_gt_of_ne hne with hlt | hgt
  · have := rank_lt hx hlt
    omega
  · have := rank_lt hb hgt
    omega

/-- The bytes in front of `q`, block by block. -/
theorem take_contents_iff {q : Nat} (hbs : 0 < bs) (hq : q ≤ n.size) (hq' : q ≤ m.size) :
    (contents bs view' m).take q = (contents bs view n).take q ↔
      ∀ b o, o < bs → b * bs + o < q →
        blockByte bs view' m b o = blockByte bs view n b o := by
  unfold contents
  rw [Bytes.take_slice hq', Bytes.take_slice hq, Bytes.slice_eq_iff]
  constructor
  · intro h b o ho hin
    have hbyte := h _ hin
    rwa [Nat.zero_add, bytesOf_block ho, bytesOf_block ho] at hbyte
  · intro h p hp
    rw [Nat.zero_add]
    apply h
    · exact Nat.mod_lt _ hbs
    · rw [Nat.mul_comm, Nat.div_add_mod]
      exact hp

/-- The bytes behind the old end of a file that has grown inside its last block, or by one
block. -/
theorem drop_contents_iff (hsize : m.size = n.size + d) (hn : n.size = t * bs + ts)
    (hfit : ts + d ≤ bs) (hlen : data.length = d) :
    (contents bs view' m).drop n.size = data ↔
      ∀ k < d, blockByte bs view' m t (ts + k) = data.getD k 0 := by
  have hbyte : ∀ k < d, bytesOf bs view' m (n.size + k) =
      blockByte bs view' m t (ts + k) := by
    intro k hk
    rw [hn, Nat.add_assoc, bytesOf_block (by omega)]
  unfold contents
  rw [Bytes.drop_slice, hsize, Nat.add_sub_cancel_left, Nat.zero_add]
  constructor
  · intro h k hk
    rw [← hbyte k hk, ← h, Bytes.getD_slice hk]
  · intro h
    apply List.ext_getElem
    · rw [Bytes.length_slice, hlen]
    · intro k hk hk'
      rw [hlen] at hk'
      rw [Bytes.getElem_slice, hbyte k hk', h k hk', List.getD_eq_getElem?_getD,
        List.getElem?_eq_getElem (by omega), Option.getD_some]

/-- A file that has kept its bytes and got `data` behind them. -/
theorem contents_eq_append (hbs : 0 < bs) (hsize : m.size = n.size + d)
    (hn : n.size = t * bs + ts) (hfit : ts + d ≤ bs) (hlen : data.length = d)
    (hold : ∀ b o, o < bs → b * bs + o < n.size →
      blockByte bs view' m b o = blockByte bs view n b o)
    (hnew : ∀ k < d, blockByte bs view' m t (ts + k) = data.getD k 0) :
    contents bs view' m = contents bs view n ++ data := by
  have htake := (take_contents_iff hbs (Nat.le_refl n.size) (by omega)).2 hold
  have hall : (contents bs view n).take n.size = contents bs view n :=
    List.take_of_length_le (by simp)
  rw [← List.take_append_drop n.size (contents bs view' m), htake, hall,
    (drop_contents_iff hsize hn hfit hlen).2 hnew]

end Grow

/-! ## The last block -/

section FindTail

variable {lo t k real y : Nat} {rs rs' : List Region}

theorem Within.unique {hi x : Nat} {r r' : Region} (h : Within lo hi rs) (hr : r ∈ rs)
    (hr' : r' ∈ rs) (hx : r.Has x) (hx' : r'.Has x) : r = r' := by
  induction rs generalizing lo with
  | nil => cases hr
  | cons it next ih =>
      rcases List.mem_cons.1 hr with heq | hmem
      · rcases List.mem_cons.1 hr' with heq' | hmem'
        · rw [heq, heq']
        · exact absurd ⟨r', hmem', hx'⟩ (h.apart (heq ▸ hx))
      · rcases List.mem_cons.1 hr' with heq' | hmem'
        · exact absurd ⟨r, hmem, hx⟩ (h.apart (heq' ▸ hx'))
        · exact ih h.2.2 hmem hmem'

/-- A walk past all regions ends at the block behind them. -/
theorem findTail_none (hfound : (findTail t real rs).2 = none) :
    (∀ r ∈ rs, r.count < sub64 t r.index) ∧
      (real = u64 (y + total rs) → (findTail t real rs).1 = u64 y) := by
  induction rs generalizing real with
  | nil =>
      refine ⟨by simp, ?_⟩
      intro hreal
      rw [hreal, total_nil]
      rfl
  | cons it next ih =>
      unfold findTail at hfound ⊢
      split at hfound
      · rename_i hpass
        obtain ⟨hrest, haddr⟩ := ih (Option.map_eq_none_iff.1 hfound)
        rw [if_pos hpass]
        refine ⟨?_, ?_⟩
        · intro r hr
          rcases List.mem_cons.1 hr with rfl | hr
          · exact hpass
          · exact hrest r hr
        · intro hreal
          apply haddr
          rw [hreal, total_cons, Nat.add_comm it.count, ← Nat.add_assoc, sub64_u64_add]
      · cases hfound

/-- The walk passes a region where it ends in front of the block before the last. -/
theorem pass_iff {r : Region} (ht : t < 2 ^ 32) (h : Within lo (t + 1) rs) (hr : r ∈ rs) :
    r.count < sub64 t r.index ↔ r.index + r.count < t := by
  have hbounds := h.region hr
  rw [sub64_of_le (by omega) (by omega)]
  omega

theorem findTail_none_free (ht : t < 2 ^ 32) (h : Within lo (t + 1) rs)
    (hfound : (findTail t real rs).2 = none) : ¬ Covers rs t ∧ ¬ EndsAt rs t := by
  have hpass : ∀ r ∈ rs, r.index + r.count < t := by
    intro r hr
    exact (pass_iff ht h hr).1 ((findTail_none (y := 0) hfound).1 r hr)
  constructor
  · rintro ⟨r, hr, hin⟩
    have := hpass r hr
    unfold Region.Has at hin
    omega
  · rintro ⟨r, hr, hend⟩
    have := hpass r hr
    omega

/-- The region the walk ends at loses its last block: the last one of the file where
the region covers that, and the one in front of it where the region ends there. -/
theorem findTail_some (ht : t + 1 < 2 ^ 32) (h : Within lo (t + 1) rs)
    (hfound : (findTail t real rs).2 = some rs') :
    ∃ k, Covers rs k ∧ Removed lo (t + 1) k rs rs' ∧
      (k = t ∧ ¬ EndsAt rs t ∨ k + 1 = t ∧ EndsAt rs t) := by
  obtain ⟨r, hr, hstop, hbefore, hremoved⟩ := findTail_removed ht h hfound
  have hbounds := h.region hr
  rw [pass_iff (by omega) h hr] at hstop
  have hlast : r.Has (r.index + r.count - 1) := by
    unfold Region.Has
    omega
  refine ⟨r.index + r.count - 1, ⟨r, hr, hlast⟩, hremoved, ?_⟩
  by_cases hend : r.index + r.count = t
  · exact Or.inr ⟨by omega, r, hr, hend⟩
  · refine Or.inl ⟨by omega, ?_⟩
    rintro ⟨r', hr', hend'⟩
    have hbounds' := h.region hr'
    by_cases hlt : r'.index < r.index
    · have := (pass_iff (by omega) h hr').1 (hbefore r' hr' hlt)
      omega
    · -- both regions would hold the block in front of the last one
      have hsame : r = r' := by
        apply h.unique hr hr' (x := t - 1)
        · unfold Region.Has
          omega
        · unfold Region.Has
          omega
      rw [hsame] at hend
      exact hend hend'

/-- One sparse block more. -/
theorem rank_added {b : Nat} (hk : ¬ Covers rs k) (h : ∀ x, Covers rs' x ↔ Covers rs x ∨ x = k) :
    rank rs b = rank rs' b + if k < b then 1 else 0 := by
  induction b with
  | zero => rfl
  | succ b ih =>
      rw [rank_succ, rank_succ, ih]
      by_cases hb : b = k
      · subst hb
        have hcover : Covers rs' b := (h b).2 (Or.inr rfl)
        rw [if_neg (Nat.lt_irrefl b), if_pos hk, if_neg (not_not.2 hcover),
          if_pos (Nat.lt_succ_self b)]
      · have hsame : Covers rs' b ↔ Covers rs b := by simp [h, hb]
        have hlt : k < b + 1 ↔ k < b := by omega
        simp only [hsame, hlt]
        omega

/-- One sparse block less. -/
theorem rank_removed {hi b : Nat} (hk : Covers rs k) (h : Removed lo hi k rs rs') :
    rank rs' b = rank rs b + if k < b then 1 else 0 := by
  apply rank_added
  · rw [h.covers]
    exact fun hin => hin.2 rfl
  · intro x
    rw [h.covers]
    by_cases hx : x = k
    · simp [hx, hk]
    · simp [hx]

end FindTail

/-- What decides whether `d` bytes behind the end of a file with a partial last block
arrive, and the file is what it was up to byte `q`: the source takes a stored block right
behind a region for a part of it. -/
def TailSound (bs : Nat) (view : Bytes) (n : FileNode) (data : Buffer) (d q : Nat) : Prop :=
  EndsAt n.sparse (n.size / bs) →
    if isNullOrZero data d then
      ∀ k < d, blockByte bs view n (n.size / bs) (n.size % bs + k) = 0
    else
      ¬ Covers n.sparse (n.size / bs) ∧ ∀ o < bs, (n.size / bs - 1) * bs + o < q →
        blockByte bs view n (n.size / bs) o = 0

/-- A partial last block behind a region is stored, and holds nothing but zeros. -/
def TailFresh (bs : Nat) (view : Bytes) (n : FileNode) : Prop :=
  0 < n.size % bs → EndsAt n.sparse (n.size / bs) →
    ¬ Covers n.sparse (n.size / bs) ∧ ∀ o < bs, blockByte bs view n (n.size / bs) o = 0

/-- File `n` has become `m`: its last block is fresh if it was, or if it is a new one. -/
def StaysFresh (bs : Nat) (view view' : Bytes) (n m : FileNode) : Prop :=
  TailFresh bs view n ∨ n.blocks bs < m.blocks bs → TailFresh bs view' m

theorem StaysFresh.trans {bs : Nat} {view view' view'' : Bytes} {n m k : FileNode}
    (h : StaysFresh bs view view' n m) (h' : StaysFresh bs view' view'' m k) :
    StaysFresh bs view view'' n k := by
  intro hstart
  apply h'
  by_cases hlt : m.blocks bs < k.blocks bs
  · exact Or.inr hlt
  · exact Or.inl (h (hstart.imp_right fun hnk => by omega))

section LastBlock

variable {bs b o t ts d a e : Nat} {view view₁ : Bytes} {n n₁ m : FileNode} {data D : List UInt8}

theorem blocks_of_tail (h : 0 < n.size % bs) : n.blocks bs = n.size / bs + 1 := by
  unfold FileNode.blocks blockCount
  rw [if_neg (by omega)]

theorem size_eq (bs : Nat) (n : FileNode) : n.size = n.size / bs * bs + n.size % bs := by
  rw [Nat.mul_comm, Nat.div_add_mod]

/-- The last block does not change while the bytes behind the file fit into it. -/
theorem size_div_mod (hfit : n.size % bs + d < bs) :
    (n.size + d) / bs = n.size / bs ∧ (n.size + d) % bs = n.size % bs + d := by
  have hsum : n.size + d = bs * (n.size / bs) + (n.size % bs + d) := by
    have := Nat.div_add_mod n.size bs
    omega
  rw [hsum, Nat.mul_add_div (by omega), Nat.div_eq_of_lt hfit, Nat.mul_add_mod,
    Nat.mod_eq_of_lt hfit]
  exact ⟨rfl, rfl⟩

/-- The bytes behind the file go into the last block it has. -/
theorem StaysFresh.of_tail {view' : Bytes} (htail : 0 < n.size % bs)
    (hfit : n.size % bs + d ≤ bs) (hsize : m.size = n.size + d) (hsparse : m.sparse = n.sparse)
    (hbytes : EndsAt n.sparse (n.size / bs) → ∀ o < bs,
      blockByte bs view' m (n.size / bs) o = blockByte bs view n (n.size / bs) o) :
    StaysFresh bs view view' n m := by
  intro hstart hpos hends
  have hblocks : m.blocks bs = n.blocks bs := by
    unfold FileNode.blocks
    rw [hsize, blockCount_tail htail hfit]
  have hfresh : TailFresh bs view n := hstart.resolve_right (by omega)
  have hlt : n.size % bs + d < bs := by
    by_contra hge
    have hfull := next_block n.size (show 0 < bs by omega)
    rw [show bs - n.size % bs = d by omega, ← hsize] at hfull
    omega
  rw [hsize, hsparse, (size_div_mod hlt).1] at *
  obtain ⟨hfree, hzero⟩ := hfresh htail hends
  refine ⟨hfree, ?_⟩
  intro o ho
  rw [hbytes hends o ho]
  exact hzero o ho

/-- A write to the last block behind the end of the file. -/
theorem contents_splice_behind (hbs : 0 < bs) (hfree : ¬ Covers n.sparse (n.size / bs))
    (he : n.size % bs ≤ e) (hfit : e + D.length ≤ bs) :
    contents bs (view.splice ((n.startIndex + rank n.sparse (n.size / bs)) * bs + e) D) n =
      contents bs view n := by
  apply Bytes.slice_congr
  intro p _ hp
  have ho := Nat.mod_lt p hbs
  have hdiv := Nat.div_add_mod p bs
  have hsum := Nat.div_add_mod n.size bs
  unfold bytesOf
  by_cases hlast : p / bs = n.size / bs
  · rw [hlast] at hdiv ⊢
    rw [blockByte_splice_self hfree, if_neg (by omega)]
  · exact blockByte_splice_other hfree hlast ho hfit

/-- The same block of a file whose regions have changed elsewhere. -/
theorem blockByte_eq_of_rank (hcover : Covers m.sparse b ↔ Covers n.sparse b)
    (hplace : m.startIndex + rank m.sparse b = n.startIndex + rank n.sparse b) :
    blockByte bs view m b o = blockByte bs view n b o := by
  by_cases hb : Covers n.sparse b
  · rw [blockByte_sparse hb, blockByte_sparse (hcover.2 hb)]
  · rw [blockByte_stored hb, blockByte_stored (hcover.not.2 hb), hplace]

/-- A write to the last block of a file, which is stored. -/
theorem contents_write_last (hbs : 0 < bs) (hsize : m.size = n.size + d)
    (hn : n.size = t * bs + ts) (hfit : ts + d ≤ bs) (hlen : data.length = d)
    (hfree : ¬ Covers m.sparse t) (ha : m.startIndex + rank m.sparse t = a)
    (hin : e + D.length ≤ bs)
    (hold : ∀ b o, b < t → o < bs → blockByte bs view₁ m b o = blockByte bs view n b o)
    (hhead : ∀ o < ts, view₁.splice (a * bs + e) D (a * bs + o) = blockByte bs view n t o)
    (hnew : ∀ k < d, view₁.splice (a * bs + e) D (a * bs + (ts + k)) = data.getD k 0) :
    contents bs (view₁.splice (a * bs + e) D) m = contents bs view n ++ data := by
  apply contents_eq_append hbs hsize hn hfit hlen
  · intro b o ho hlt
    by_cases hb : b < t
    · have hne : ¬ Covers m.sparse b → m.startIndex + rank m.sparse b ≠ a := by
        intro hstored
        have := rank_lt hstored hb
        omega
      rw [blockByte_splice_ne hne ho hin, hold b o hb ho]
    · obtain rfl : b = t := by
        by_contra hne
        have hle := Nat.mul_le_mul_right bs (show t + 1 ≤ b by omega)
        rw [Nat.succ_mul] at hle
        omega
      rw [blockByte_stored hfree, ha]
      exact hhead o (by omega)
  · intro k hk
    rw [blockByte_stored hfree, ha]
    exact hnew k hk

/-- The last block is stored and takes the bytes. -/
theorem contents_tail_stored (hbs : 0 < bs) (hfit : n.size % bs + d ≤ bs)
    (hlen : data.length = d) (hfree : ¬ Covers n.sparse (n.size / bs)) :
    contents bs (view.splice
      ((n.startIndex + rank n.sparse (n.size / bs)) * bs + n.size % bs) data)
      { n with size := n.size + d } = contents bs view n ++ data := by
  apply contents_write_last (m := { n with size := n.size + d }) hbs rfl (size_eq bs n) hfit
    hlen hfree rfl (by omega)
  · intro b o _ _
    rfl
  · intro o ho
    rw [Bytes.splice_apply_of_lt (by omega)]
    exact (blockByte_stored hfree).symm
  · intro k hk
    rw [Bytes.splice_apply_of_mem (by omega) (by omega)]
    congr 1
    omega

/-- Nothing is written: the bytes behind the end of the file are in it now. -/
theorem grown_unwritten (hbs : 0 < bs) (hfit : n.size % bs + d ≤ bs) (zeros : Prop) :
    Grown (contents bs view n) (List.replicate d 0)
      (fun _ => ∀ k < d, blockByte bs view n (n.size / bs) (n.size % bs + k) = 0) zeros
      (contents bs view { n with size := n.size + d }) := by
  have htake : ∀ q ≤ n.size, (contents bs view { n with size := n.size + d }).take q =
      (contents bs view n).take q := by
    intro q hq
    exact (take_contents_iff hbs hq (Nat.le_trans hq (Nat.le_add_right _ _))).2
      fun _ _ _ _ => rfl
  refine ⟨by simp, ?_, ?_⟩
  · intro q hq
    rw [length_contents] at hq ⊢
    rw [htake q hq, drop_contents_iff rfl (size_eq bs n) hfit (List.length_replicate)]
    have hzero : ∀ k < d, (List.replicate d (0 : UInt8)).getD k 0 = 0 := by
      intro k hk
      simp [List.getD_eq_getElem?_getD, hk]
    constructor
    · intro h k hk
      exact (h.2 k hk).trans (hzero k hk)
    · intro h
      refine ⟨rfl, ?_⟩
      intro k hk
      exact (h k hk).trans (hzero k hk).symm
  · intro _
    rw [length_contents, htake n.size (Nat.le_refl _)]
    exact List.take_of_length_le (by simp)

end LastBlock

section Hole

variable {bs o ts d k start : Nat} {view view₁ : Bytes} {n m : FileNode} {rs' : List Region}
variable {data : List UInt8}

/-- File `n` has been moved to `start`, and gets a new last block behind its stored ones
while sparse block `k` is taken off its list. -/
structure TailAdded (bs k start : Nat) (view view₁ : Bytes) (n : FileNode)
    (rs' : List Region) : Prop where
  valid : n.Valid bs
  tail : 0 < n.size % bs
  data : ∀ q < n.stored bs * bs, view₁ (start * bs + q) = view (n.startIndex * bs + q)
  covers : Covers n.sparse k
  removed : Removed 0 (n.size / bs + 1) k n.sparse rs'
  place : k = n.size / bs ∨ k + 1 = n.size / bs

/-- The node of such a file, with `d` more bytes. -/
def addedNode (n : FileNode) (start d : Nat) (rs' : List Region) : FileNode :=
  ⟨n.size + d, start, rs'⟩

namespace TailAdded

theorem stored_eq (h : TailAdded bs k start view view₁ n rs') :
    n.stored bs = rank n.sparse (n.size / bs) +
      if ¬ Covers n.sparse (n.size / bs) then 1 else 0 := by
  rw [h.valid.stored_eq, blocks_of_tail h.tail, rank_succ]

theorem moved (h : TailAdded bs k start view view₁ n rs') {b : Nat} (hb : b ≤ n.size / bs)
    (ho : o < bs) :
    blockByte bs view₁ { n with startIndex := start } b o = blockByte bs view n b o := by
  apply blockByte_congr (m := { n with startIndex := start }) h.valid rfl h.data _ ho
  rw [blocks_of_tail h.tail]
  omega

/-- The blocks in front of the one that is no longer sparse. -/
theorem kept (h : TailAdded bs k start view view₁ n rs') {b : Nat} (hb : b < k) (ho : o < bs) :
    blockByte bs view₁ (addedNode n start d rs') b o = blockByte bs view n b o := by
  have hplace := h.place
  rw [← h.moved (b := b) (by omega) ho]
  apply blockByte_eq_of_rank
  · change Covers rs' b ↔ Covers n.sparse b
    rw [h.removed.covers]
    exact and_iff_left (by omega)
  · change start + rank rs' b = start + rank n.sparse b
    rw [rank_removed h.covers h.removed, if_neg (by omega), Nat.add_zero]

/-- The bytes of the new block. -/
theorem head (a : Nat) (ho : o < ts) :
    view₁.splice (a * bs + 0) (List.replicate ts 0 ++ data) (a * bs + o) = 0 := by
  rw [Bytes.splice_apply_of_mem (by omega) (by simp; omega),
    List.getD_eq_getElem?_getD, List.getElem?_append_left (by simp; omega)]
  simp [ho]

theorem rest (a : Nat) (hlen : data.length = d) (hk : o < d) :
    view₁.splice (a * bs + 0) (List.replicate ts 0 ++ data) (a * bs + (ts + o)) =
      data.getD o 0 := by
  have hplace : a * bs + (ts + o) - (a * bs + 0) - ts = o := by omega
  rw [Bytes.splice_apply_of_mem (by omega) (by simp; omega), List.getD_eq_getElem?_getD,
    List.getElem?_append_right (by simp), List.length_replicate, hplace,
    List.getD_eq_getElem?_getD]

/-- The last block was sparse. -/
theorem contents_eq (h : TailAdded bs k start view view₁ n rs') (hbs : 0 < bs)
    (hk : k = n.size / bs) (hfit : n.size % bs + d ≤ bs) (hlen : data.length = d) :
    contents bs (view₁.splice ((start + n.stored bs) * bs + 0)
      (List.replicate (n.size % bs) 0 ++ data)) (addedNode n start d rs') =
        contents bs view n ++ data := by
  subst hk
  have hstored := h.stored_eq
  rw [if_neg (not_not.2 h.covers)] at hstored
  apply contents_write_last (m := addedNode n start d rs') hbs rfl (size_eq bs n) hfit hlen
  · change ¬ Covers rs' _
    rw [h.removed.covers]
    exact fun hin => hin.2 rfl
  · change start + rank rs' _ = _
    rw [rank_removed h.covers h.removed, if_neg (Nat.lt_irrefl _), hstored]
  · simp
    omega
  · intro b o hb ho
    exact h.kept hb ho
  · intro o ho
    rw [head _ ho, blockByte_sparse h.covers]
  · intro o ho
    exact rest _ hlen ho

/-- A region ended in front of the last block. -/
theorem grown (h : TailAdded bs k start view view₁ n rs') (hbs : 0 < bs)
    (hk : k + 1 = n.size / bs) (hfit : n.size % bs + d ≤ bs) (hlen : data.length = d)
    (hdata : ∃ o < d, data.getD o 0 ≠ 0) {zeros : Prop} (hzeros : ¬ zeros) :
    Grown (contents bs view n) data
      (fun q => ¬ Covers n.sparse (n.size / bs) ∧
        ∀ o < bs, k * bs + o < q → blockByte bs view n (n.size / bs) o = 0) zeros
      (contents bs (view₁.splice ((start + n.stored bs) * bs + 0)
        (List.replicate (n.size % bs) 0 ++ data)) (addedNode n start d rs')) := by
  have hstored := h.stored_eq
  have hlast := rank_succ n.sparse k
  rw [if_neg (not_not.2 h.covers), hk] at hlast
  have hin : 0 + (List.replicate (n.size % bs) (0 : UInt8) ++ data).length ≤ bs := by
    simp
    omega
  have hsize : (addedNode n start d rs').size = n.size + d := rfl
  refine ⟨by rw [length_contents, length_contents, hlen, hsize], ?_, fun hz => absurd hz hzeros⟩
  intro q hq
  rw [length_contents] at hq ⊢
  rw [take_contents_iff hbs hq (by omega), drop_contents_iff hsize (size_eq bs n) hfit hlen]
  by_cases hcover : Covers n.sparse (n.size / bs)
  · -- the last block stays sparse, so that the bytes are lost
    constructor
    · rintro ⟨-, hnew⟩
      obtain ⟨o, ho, hne⟩ := hdata
      have hcover' : Covers rs' (n.size / bs) := by
        rw [h.removed.covers]
        exact ⟨hcover, by omega⟩
      have hbyte := hnew o ho
      rw [blockByte_sparse hcover'] at hbyte
      exact absurd hbyte.symm hne
    · intro hfree
      exact absurd hcover hfree.1
  · rw [if_pos hcover] at hstored
    have hfree : ¬ Covers rs' (n.size / bs) := by
      rw [h.removed.covers]
      exact fun hin => hcover hin.1
    have hfreek : ¬ Covers rs' k := by
      rw [h.removed.covers]
      exact fun hin => hin.2 rfl
    -- block `k` is now what the last block was
    have hplace : start + rank rs' k = start + rank n.sparse (n.size / bs) := by
      rw [rank_removed h.covers h.removed, if_neg (Nat.lt_irrefl _), Nat.add_zero, hlast,
        Nat.add_zero]
    have hlastplace : start + rank rs' (n.size / bs) = start + n.stored bs := by
      rw [rank_removed h.covers h.removed, if_pos (by omega), hstored]
    have hshift : ∀ o < bs, blockByte bs (view₁.splice ((start + n.stored bs) * bs + 0)
        (List.replicate (n.size % bs) 0 ++ data)) (addedNode n start d rs') k o =
          blockByte bs view n (n.size / bs) o := by
      intro o ho
      rw [blockByte_splice_ne _ ho hin]
      · rw [← h.moved (Nat.le_refl _) ho,
          blockByte_stored (n := { n with startIndex := start }) hcover,
          blockByte_stored (n := addedNode n start d rs') hfreek]
        exact congrArg (fun x => view₁ (x * bs + o)) hplace
      · intro _
        change start + rank rs' k ≠ _
        omega
    have hhead : ∀ o < n.size % bs, blockByte bs (view₁.splice ((start + n.stored bs) * bs + 0)
        (List.replicate (n.size % bs) 0 ++ data)) (addedNode n start d rs') (n.size / bs) o =
          0 := by
      intro o ho
      rw [blockByte_stored (n := addedNode n start d rs') hfree]
      change view₁.splice _ _ ((start + rank rs' (n.size / bs)) * bs + o) = 0
      rw [hlastplace]
      exact head _ ho
    have hmul : k * bs + bs = n.size / bs * bs := by
      rw [← hk, Nat.succ_mul]
    constructor
    · rintro ⟨hold, -⟩
      refine ⟨hcover, ?_⟩
      intro o ho hlt
      rw [← hshift o ho, hold k o ho hlt, blockByte_sparse h.covers]
    · rintro ⟨-, hzero⟩
      refine ⟨?_, ?_⟩
      · intro b o ho hlt
        rcases Nat.lt_trichotomy b k with hb | rfl | hb
        · rw [blockByte_splice_ne _ ho hin, h.kept hb ho]
          intro hstored'
          change start + rank rs' b ≠ _
          have hlt' := rank_lt hstored' hb
          have := rank_lt hfreek (Nat.lt_succ_self k)
          change rank rs' b < rank rs' k at hlt'
          omega
        · rw [hshift o ho, hzero o ho hlt, blockByte_sparse h.covers]
        · have hle := Nat.mul_le_mul_right bs hb
          rw [Nat.succ_mul] at hle
          obtain rfl : b = n.size / bs := by
            by_contra hne
            have hgt := Nat.mul_le_mul_right bs (show n.size / bs + 1 ≤ b by omega)
            have hsum := size_eq bs n
            have hmod := Nat.mod_lt n.size hbs
            rw [Nat.succ_mul] at hgt
            omega
          have hsum := size_eq bs n
          rw [hhead o (by omega), hzero o ho (by omega)]
      · intro o ho
        rw [blockByte_stored (n := addedNode n start d rs') hfree]
        change view₁.splice _ _ ((start + rank rs' (n.size / bs)) * bs + _) = _
        rw [hlastplace]
        exact rest _ hlen ho

end TailAdded

end Hole

end ImageTool.Fstree
