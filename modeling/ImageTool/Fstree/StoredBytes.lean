import ImageTool.Fstree.MoveContent

/-!
# The bytes a file is read from

A file reads as before exactly if each of its bytes that lies on the volume is what it was,
wherever the file starts now.  A file with a stored block behind the volume does not read at
all.
-/

namespace ImageTool.Fstree

open ImageTool.Lib ImageTool.Image ImageTool.Util

variable {σ : Type}

/-- Byte `q` of a file lies on the volume. -/
def FileNode.Stores (bs : Nat) (n : FileNode) (q : Nat) : Prop :=
  q < n.size ∧ ¬ Covers n.sparse (q / bs)

/-- Where it lies behind the start of the file. -/
def FileNode.byteAt (bs : Nat) (n : FileNode) (q : Nat) : Nat :=
  rank n.sparse (q / bs) * bs + q % bs

instance (bs : Nat) (n : FileNode) : DecidablePred (n.Stores bs) := fun _ =>
  inferInstanceAs (Decidable (_ ∧ _))

section Bytes

variable {bs q : Nat} {n m : FileNode} {view view' : Bytes}

theorem FileNode.Valid.byteAt_lt (h : n.Valid bs) (hbs : 0 < bs) (hq : n.Stores bs q) :
    n.byteAt bs q < n.stored bs * bs :=
  h.byte_lt hq.2 (div_lt_blocks hbs hq.1) (Nat.mod_lt q hbs)

theorem FileNode.Valid.stored_pos (h : n.Valid bs) (hbs : 0 < bs) (hq : n.Stores bs q) :
    0 < n.stored bs :=
  Nat.pos_of_mul_pos_right (Nat.zero_lt_of_lt (h.byteAt_lt hbs hq))

/-- A file that stores a block stores the first byte of one. -/
theorem FileNode.Valid.exists_stored (h : n.Valid bs) (hpos : 0 < n.stored bs) :
    ∃ b < n.blocks bs, ¬ Covers n.sparse b := by
  by_contra hnone
  have hall : rank n.sparse (n.blocks bs) = 0 := by
    apply Nat.count_iff_forall_not.2
    intro b hb hfree
    exact hnone ⟨b, hb, hfree⟩
  rw [h.stored_eq, hall] at hpos
  exact absurd hpos (Nat.lt_irrefl 0)

theorem bytesOf_stored (hfree : ¬ Covers n.sparse (q / bs)) :
    bytesOf bs view n q = view (n.startIndex * bs + n.byteAt bs q) := if_neg hfree

/-- The stored bytes decide. -/
theorem contents_eq_iff (hsize : m.size = n.size) (hsparse : m.sparse = n.sparse) :
    contents bs view' m = contents bs view n ↔ ∀ q, n.Stores bs q →
      view' (m.startIndex * bs + n.byteAt bs q) = view (n.startIndex * bs + n.byteAt bs q) := by
  have hplace : ∀ q, m.byteAt bs q = n.byteAt bs q := by
    intro q
    unfold FileNode.byteAt
    rw [hsparse]
  have hbyte : ∀ q, ¬ Covers n.sparse (q / bs) →
      bytesOf bs view' m q = view' (m.startIndex * bs + n.byteAt bs q) := by
    intro q hfree
    rw [bytesOf_stored (by rw [hsparse]; exact hfree), hplace]
  unfold contents
  rw [hsize, Bytes.slice_eq_iff]
  simp only [Nat.zero_add]
  constructor
  · intro hall q hq
    have hsame := hall q hq.1
    rwa [hbyte q hq.2, bytesOf_stored hq.2] at hsame
  · intro hall q hq
    by_cases hcover : Covers n.sparse (q / bs)
    · unfold bytesOf blockByte
      rw [hsparse, if_pos hcover, if_pos hcover]
    · rw [hbyte q hcover, bytesOf_stored hcover]
      exact hall q ⟨hq, hcover⟩

end Bytes

section Reads

variable {vol : Volume σ} {count j b : Nat} {view : σ → Bytes} {fs fs' : Fstree σ}
variable {n m : FileNode} {c : List UInt8}

/-- A file that may start elsewhere now reads as before. -/
theorem Housed.readsSame_iff (h : Housed vol.blocksize count fs)
    (hv : BlockStore vol count view) (hn : fs.files[j]? = some n) {start : Nat}
    (hn' : fs'.files[j]? = some { n with startIndex := start })
    (hplaced : Placed vol.blocksize count { n with startIndex := start }) :
    (∀ c, Reads vol j c fs' ↔ Reads vol j c fs) ↔
      ∀ q, n.Stores vol.blocksize q →
        view fs'.volume (start * vol.blocksize + n.byteAt vol.blocksize q) =
          view fs.volume (n.startIndex * vol.blocksize + n.byteAt vol.blocksize q) := by
  have hreads : ∀ c, Reads vol j c fs' ↔
      contents vol.blocksize (view fs'.volume) { n with startIndex := start } = c := by
    intro c
    rw [reads_iff_of_placed hv fun m hm => by
      rw [hn', Option.some.injEq] at hm
      exact hm ▸ hplaced]
    unfold fileContents
    rw [hn', Option.map_some, Option.some.injEq]
  have hbytes : contents vol.blocksize (view fs'.volume) { n with startIndex := start } =
      contents vol.blocksize (view fs.volume) n ↔ ∀ q, n.Stores vol.blocksize q →
        view fs'.volume (start * vol.blocksize + n.byteAt vol.blocksize q) =
          view fs.volume (n.startIndex * vol.blocksize + n.byteAt vol.blocksize q) :=
    contents_eq_iff rfl rfl
  rw [← hbytes]
  simp only [hreads, reads_iff_contents hv h hn]
  constructor
  · intro hall
    exact (hall _).2 rfl
  · intro hsame c
    rw [hsame]

/-- What there is to say about one file that is there, said about all. -/
theorem readsSame_all_iff {P : Nat → Prop} {C : Nat → FileNode → Prop}
    (hlength : fs'.files.length = fs.files.length)
    (hnode : ∀ j n, P j → fs.files[j]? = some n →
      ((∀ c, Reads vol j c fs' ↔ Reads vol j c fs) ↔ C j n)) :
    (∀ j, P j → ∀ c, Reads vol j c fs' ↔ Reads vol j c fs) ↔
      ∀ j n, P j → fs.files[j]? = some n → C j n := by
  constructor
  · intro hall j n hj hn
    exact (hnode j n hj hn).1 (hall j hj)
  · intro hall j hj
    cases hn : fs.files[j]? with
    | some n => exact (hnode j n hj hn).2 (hall j n hj hn)
    | none =>
        intro c
        have hout := List.getElem?_eq_none_iff.1 hn
        have hn' : fs'.files[j]? = none := List.getElem?_eq_none (by rw [hlength]; exact hout)
        constructor
        · intro hreads
          obtain ⟨_, hm, _⟩ := hreads.1
          rw [hn'] at hm
          cases hm
        · intro hreads
          obtain ⟨_, hm, _⟩ := hreads.1
          rw [hn] at hm
          cases hm

/-- Said about all files. -/
theorem readsSame_mem_iff {C : FileNode → Prop}
    (hlength : fs'.files.length = fs.files.length)
    (hnode : ∀ j n, fs.files[j]? = some n →
      ((∀ c, Reads vol j c fs' ↔ Reads vol j c fs) ↔ C n)) :
    (∀ j c, Reads vol j c fs' ↔ Reads vol j c fs) ↔ ∀ n ∈ fs.files, C n := by
  have hall := readsSame_all_iff (P := fun _ => True) (C := fun _ => C) hlength
    fun j n _ hn => hnode j n hn
  constructor
  · intro hsame n hn
    obtain ⟨j, hj⟩ := List.getElem?_of_mem hn
    exact hall.1 (fun j _ => hsame j) j n trivial hj
  · intro hsame j
    exact hall.2 (fun j n _ hn => hsame n (List.mem_of_getElem? hn)) j trivial

/-- A stored block behind the volume cannot be read. -/
theorem not_reads_of_outside (hr : RefusesOutside vol count) (hbs : 1 < vol.blocksize)
    (hm : fs.files[j]? = some m) (hvalid : m.Valid vol.blocksize)
    (hfree : ¬ Covers m.sparse b) (hb : b < m.blocks vol.blocksize)
    (hout : count ≤ m.startIndex + rank m.sparse b)
    (hlt : m.startIndex + rank m.sparse b < 2 ^ 64) : ¬ Reads vol j c fs := by
  intro hreads
  have hread := hreads.2 (b * vol.blocksize) 1
  have hin := (lt_blockCount_iff (by omega)).1 hb
  have hrank := rank_le m.sparse b
  have hsum : m.startIndex + b =
      m.startIndex + rank m.sparse b + (b - rank m.sparse b) := by omega
  have hblock : readPartialBlock vol j b 0 1 fs = .fail fs := by
    unfold readPartialBlock
    rw [Call.bind_apply, file_eq hm, Outcome.bind_ok, hsum, locate_stored hvalid.within hfree,
      u64_of_lt hlt]
    dsimp only
    rw [if_neg (by omega)]
    unfold onVolume
    rw [Call.zoom_apply, hr.readPartialBlock _ _ _ _ hout]
    rfl
  unfold fileRead at hread
  rw [if_neg Nat.one_ne_zero, Call.bind_apply, file_eq hm, Outcome.bind_ok, if_neg (by omega),
    if_neg (show ¬ 1 > m.size - b * vol.blocksize by omega), Call.bind_apply] at hread
  unfold fileReadLoop at hread
  rw [if_neg Nat.one_ne_zero, Nat.mul_div_cancel _ (by omega), Nat.mul_mod_left, Nat.sub_zero,
    if_pos hbs, Call.bind_apply, hblock, Outcome.bind_fail, Outcome.bind_fail] at hread
  cases hread

end Reads

end ImageTool.Fstree
