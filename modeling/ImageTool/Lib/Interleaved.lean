import Mathlib.Data.List.Sort
import Mathlib.Algebra.BigOperators.Group.List.Basic
import Mathlib.Algebra.Ring.Nat
import ImageTool.Lib.Bytes
import ImageTool.Lib.Extents

/-!
# Extents in a row

Extents that are packed below a top and take up all of it lie in a row without a hole: `Tiles`.
`Lined` is a row of extents on a byte store with something of its own in front of each.  A row gets
such a front for one more extent by opening a gap at the start of the extent and writing into the
gap.
-/

namespace ImageTool.Lib

variable {ι : Type*}

/-! ## Without a hole -/

/-- The extents, in the order of the list, take up what is between block `a` and block `b`. -/
def Tiles (e : ι → Extent) : Nat → Nat → List ι → Prop
  | a, b, [] => a = b
  | a, b, i :: rest => (e i).start = a ∧ Tiles e (e i).stop b rest

section Tiles

variable {a b top : Nat} {e : ι → Extent} {order ids : List ι}

/-- Extents one behind the other fit between two blocks, and leave no hole if they are as long
together as the blocks are apart. -/
theorem tiles_of_behind (hlow : ∀ i ∈ order, a ≤ (e i).start) (hhigh : ∀ i ∈ order, (e i).stop ≤ b)
    (horder : order.Pairwise fun i j => (e i).stop ≤ (e j).start) (hab : a ≤ b) :
    (order.map fun i => (e i).len).sum ≤ b - a ∧
      ((order.map fun i => (e i).len).sum = b - a → Tiles e a b order) := by
  induction order generalizing a with
  | nil =>
      constructor
      · exact Nat.zero_le _
      · intro hsum
        have hzero : (0 : Nat) = b - a := hsum
        show a = b
        omega
  | cons i rest ih =>
      rw [List.pairwise_cons] at horder
      rw [List.forall_mem_cons] at hlow hhigh
      have hstop : (e i).stop = (e i).start + (e i).len := rfl
      have hrest := ih horder.1 hhigh.2 horder.2 hhigh.1
      rw [List.map_cons, List.sum_cons]
      constructor
      · have hle := hrest.1
        omega
      · intro hsum
        have hle := hrest.1
        have hstart : (e i).start = a := by omega
        exact ⟨hstart, hrest.2 (by omega)⟩

/-- The extents that are not empty, sorted by where they start. -/
def rowOf (e : ι → Extent) (ids : List ι) : List ι :=
  (ids.filter fun i => 0 < (e i).len).mergeSort fun i j => (e i).start ≤ (e j).start

theorem mem_rowOf {i : ι} : i ∈ rowOf e ids ↔ i ∈ ids ∧ 0 < (e i).len := by
  unfold rowOf
  rw [List.mem_mergeSort, List.mem_filter, decide_eq_true_iff]

theorem rowOf_nodup (hids : ids.Nodup) : (rowOf e ids).Nodup := by
  unfold rowOf
  rw [(List.mergeSort_perm _ _).nodup_iff]
  exact hids.filter _

theorem rowOf_sorted : (rowOf e ids).Pairwise fun i j => (e i).start ≤ (e j).start := by
  have hsorted := @List.pairwise_mergeSort _ (fun i j => decide ((e i).start ≤ (e j).start))
    (by
      intro i j k hij hjk
      simp only [decide_eq_true_eq] at *
      omega)
    (by
      intro i j
      simp only [Bool.or_eq_true, decide_eq_true_eq]
      omega)
    (ids.filter fun i => 0 < (e i).len)
  exact hsorted.imp fun h => of_decide_eq_true h

theorem sum_rowOf :
    ((rowOf e ids).map fun i => (e i).len).sum = (ids.map fun i => (e i).len).sum := by
  have hperm := (List.mergeSort_perm (ids.filter fun i => 0 < (e i).len)
    fun i j => (e i).start ≤ (e j).start).map fun i => (e i).len
  unfold rowOf
  rw [hperm.sum_eq]
  induction ids with
  | nil => rfl
  | cons i ids ih =>
      have hrest := ih ((List.mergeSort_perm _ _).map _)
      by_cases hpos : 0 < (e i).len
      · rw [List.filter_cons_of_pos (by simpa using hpos), List.map_cons, List.map_cons,
          List.sum_cons, List.sum_cons, hrest]
      · rw [List.filter_cons_of_neg (by simpa using hpos), List.map_cons, List.sum_cons, hrest]
        omega

/-- Extents that are packed below a top and take up all of it lie in a row. -/
theorem Packed.tiles (h : Packed top e) (hids : ids.Nodup)
    (hsum : (ids.map fun i => (e i).len).sum = top) : Tiles e 0 top (rowOf e ids) := by
  have hbehind : (rowOf e ids).Pairwise fun i j => (e i).stop ≤ (e j).start := by
    have hboth := rowOf_sorted.and (rowOf_nodup hids (e := e))
    apply hboth.imp_of_mem
    intro i j hi hj hij
    have hapart := h.apart i j hij.2 (mem_rowOf.1 hi).2 (mem_rowOf.1 hj).2
    have hlen := (mem_rowOf.1 hj).2
    unfold Extent.Apart Extent.stop at *
    omega
  have htiles := tiles_of_behind (e := e) (a := 0) (b := top) (fun _ _ => Nat.zero_le _)
    (fun i hi => h.stop_le i (mem_rowOf.1 hi).2) hbehind (Nat.zero_le _)
  apply htiles.2
  rw [sum_rowOf, hsum, Nat.sub_zero]

end Tiles

/-! ## Rows of bytes -/

/-- From byte `a` up to byte `b` lie, for each index of the list, its front and its extent, which
holds its body. -/
def Lined (bs : Nat) (view : Bytes) (e : ι → Extent) (front body : ι → List UInt8) :
    Nat → Nat → List ι → Prop
  | a, b, [] => a = b
  | a, b, i :: rest =>
      (e i).start * bs = a + (front i).length ∧ (e i).len * bs = (body i).length ∧
        view.slice a (front i ++ body i).length = front i ++ body i ∧
        Lined bs view e front body (a + (front i ++ body i).length) b rest

section Lined

variable {bs a b : Nat} {view view' : Bytes} {e e' : ι → Extent}
variable {front front' body : ι → List UInt8} {order back : List ι} {i : ι}

theorem lined_append : Lined bs view e front body a b (order ++ back) ↔
    ∃ m, Lined bs view e front body a m order ∧ Lined bs view e front body m b back := by
  induction order generalizing a with
  | nil =>
      constructor
      · intro h
        exact ⟨a, rfl, h⟩
      · rintro ⟨m, rfl, h⟩
        exact h
  | cons i order ih =>
      constructor
      · rintro ⟨hstart, hlen, hslice, hrest⟩
        obtain ⟨m, hfront, hback⟩ := ih.1 hrest
        exact ⟨m, ⟨hstart, hlen, hslice, hfront⟩, hback⟩
      · rintro ⟨m, ⟨hstart, hlen, hslice, hfront⟩, hback⟩
        exact ⟨hstart, hlen, hslice, ih.2 ⟨m, hfront, hback⟩⟩

/-- What lies in a row, as one list of bytes. -/
theorem Lined.length (h : Lined bs view e front body a b order) :
    b = a + (order.flatMap fun i => front i ++ body i).length := by
  induction order generalizing a with
  | nil => exact h.symm
  | cons i order ih =>
      have hrest := ih h.2.2.2
      simp only [List.flatMap_cons, List.length_append] at hrest ⊢
      omega

theorem Lined.slice (h : Lined bs view e front body a b order) :
    view.slice a (order.flatMap fun i => front i ++ body i).length =
      order.flatMap fun i => front i ++ body i := by
  induction order generalizing a with
  | nil => rfl
  | cons i order ih =>
      obtain ⟨-, -, hslice, hrest⟩ := h
      rw [List.flatMap_cons, List.length_append, ← Bytes.slice_append, hslice, ih hrest]

/-- An extent of a row lies inside of it. -/
theorem Lined.bounds (h : Lined bs view e front body a b order) (hi : i ∈ order) :
    a ≤ (e i).start * bs ∧ (e i).start * bs + (e i).len * bs ≤ b := by
  induction order generalizing a with
  | nil => cases hi
  | cons j order ih =>
      obtain ⟨hstart, hlen, -, hrest⟩ := h
      have hb := hrest.length
      rw [List.length_append] at hb
      rcases List.mem_cons.1 hi with rfl | hmem
      · omega
      · have hin := ih hrest hmem
        rw [List.length_append] at hin
        omega

/-- The extents of a row start below what lies behind the row. -/
theorem Lined.start_lt (h : Lined bs view e front body a b order) (hi : i ∈ order)
    (hpos : 0 < (e i).len * bs) {p : Nat} (hp : b ≤ p * bs) : (e i).start < p := by
  have hend := (h.bounds hi).2
  have hlt : (e i).start * bs < p * bs := by omega
  exact Nat.lt_of_mul_lt_mul_right hlt

/-- The extents of a row start behind what lies in front of the row. -/
theorem Lined.le_start (h : Lined bs view e front body a b order) (hi : i ∈ order)
    (hbs : 0 < bs) {p : Nat} (hp : p * bs ≤ a) : p ≤ (e i).start :=
  Nat.le_of_mul_le_mul_right (Nat.le_trans hp (h.bounds hi).1) hbs

/-- A row that lies as it did, `d` blocks further up. -/
theorem Lined.shift (h : Lined bs view e front body a b order) (d : Nat)
    (he : ∀ i ∈ order, (e' i).start = (e i).start + d ∧ (e' i).len = (e i).len)
    (hfront : ∀ i ∈ order, front' i = front i)
    (hview : ∀ p, a ≤ p → p < b → view' (p + d * bs) = view p) :
    Lined bs view' e' front' body (a + d * bs) (b + d * bs) order := by
  induction order generalizing a with
  | nil => exact congrArg (· + d * bs) h
  | cons i order ih =>
      obtain ⟨hstart, hlen, hslice, hrest⟩ := h
      rw [List.forall_mem_cons] at he hfront
      have hb := hrest.length
      unfold Lined
      rw [hfront.1, he.1.1, he.1.2, Nat.add_mul, hstart]
      refine ⟨by omega, hlen, ?_, ?_⟩
      · refine Eq.trans ?_ hslice
        apply Bytes.slice_eq_iff.2
        intro k hk
        rw [show a + d * bs + k = a + k + d * bs by omega]
        exact hview (a + k) (by omega) (by omega)
      · rw [show a + d * bs + (front i ++ body i).length =
          a + (front i ++ body i).length + d * bs by omega]
        exact ih hrest he.2 hfront.2 fun p hp hp' => hview p (by omega) hp'

/-- Extents in a row with nothing in between. -/
theorem Tiles.lined {a b : Nat} (h : Tiles e a b order) (bs : Nat) (view : Bytes) :
    Lined bs view e (fun _ => [])
      (fun i => view.slice ((e i).start * bs) ((e i).len * bs)) (a * bs) (b * bs) order := by
  induction order generalizing a with
  | nil => exact congrArg (· * bs) h
  | cons i order ih =>
      obtain ⟨rfl, hrest⟩ := h
      have hnext := ih hrest
      unfold Extent.stop at hnext
      rw [Nat.add_mul] at hnext
      unfold Lined
      simp only [List.nil_append, List.length_nil, Nat.add_zero, Bytes.length_slice, true_and]
      exact hnext

/-- The bytes of a gap of `n` bytes that has been written to. -/
def filled (data : List UInt8) (n : Nat) : List UInt8 := data ++ List.replicate (n - data.length) 0

theorem length_filled {data : List UInt8} {n : Nat} (h : data.length ≤ n) :
    (filled data n).length = n := by
  unfold filled
  rw [List.length_append, List.length_replicate]
  omega

/-- A gap of `n` bytes at byte `a`, with something written at its beginning. -/
theorem slice_gap (view : Bytes) (a m : Nat) {n : Nat} {data : List UInt8}
    (hdata : data.length ≤ n) :
    (((view.move (a + n) a m).clear a n).splice a data).slice a n = filled data n := by
  have hsplit : data.length + (n - data.length) = n := Nat.add_sub_cancel' hdata
  unfold filled
  rw [← hsplit, ← Bytes.slice_append, Bytes.slice_splice_self, hsplit]
  congr 1
  apply Bytes.slice_eq_zeros
  intro p hp hp'
  rw [Bytes.splice_apply_of_ge hp, Bytes.open_gap_apply, if_neg (by omega), if_pos (by omega)]

variable [DecidableEq ι]

/-- A gap of `gap` blocks is opened at the start of an extent, and written to. -/
theorem Lined.insert (h : Lined bs view e front body a b order) (hi : i ∈ order)
    (hnodup : order.Nodup) {gap : Nat} {data : List UInt8} (hdata : data.length ≤ gap * bs)
    (hempty : front i = [])
    (he : ∀ j ∈ order, (e' j).len = (e j).len ∧ (e' j).start =
      if (e j).start ≥ (e i).start then (e j).start + gap else (e j).start)
    (hpos : ∀ j ∈ order, 0 < (e j).len * bs)
    (hview : view' = ((view.move ((e i).start * bs + gap * bs) ((e i).start * bs)
        (b - (e i).start * bs)).clear ((e i).start * bs) (gap * bs)).splice
      ((e i).start * bs) data) :
    Lined bs view' e' (Function.update front i (filled data (gap * bs))) body a (b + gap * bs)
      order := by
  obtain ⟨pre, post, rfl⟩ := List.append_of_mem hi
  obtain ⟨m, hpre, hmid⟩ := lined_append.1 h
  obtain ⟨hstart, hlen, hslice, hpost⟩ := hmid
  have hm := hpre.length
  have hb := hpost.length
  rw [hempty, List.nil_append] at hslice hpost hb
  rw [hempty, List.length_nil, Nat.add_zero] at hstart
  rw [hstart] at hview
  have hfilled := length_filled hdata
  -- what the volume shows in front of the gap and behind it
  have hbelow : ∀ p, p < m → view' p = view p := by
    intro p hp
    rw [hview, Bytes.splice_apply_of_lt hp, Bytes.open_gap_apply, if_pos hp]
  have habove : ∀ p, m ≤ p → p < b → view' (p + gap * bs) = view p := by
    intro p hp hp'
    rw [hview, Bytes.splice_apply_of_ge (by omega), Bytes.open_gap_apply, if_neg (by omega),
      if_neg (by omega), if_pos (by omega), Nat.add_sub_cancel]
  have hdis := List.nodup_append.1 hnodup
  have hipost : i ∉ post := (List.nodup_cons.1 hdis.2.1).1
  have hipre : i ∉ pre := fun hmem => hdis.2.2 i hmem i List.mem_cons_self rfl
  have hupdate : ∀ j, j ≠ i →
      Function.update front i (filled data (gap * bs)) j = front j :=
    fun j hj => Function.update_of_ne hj _ _
  have hbs : 0 < bs := Nat.pos_of_mul_pos_left (hpos i hi)
  -- the extents in front of the gap stay, the others move
  have hstay : ∀ j ∈ pre, (e' j).start = (e j).start + 0 ∧ (e' j).len = (e j).len := by
    intro j hj
    have hmem : j ∈ pre ++ i :: post := List.mem_append_left _ hj
    have hlt := hpre.start_lt hj (hpos j hmem) (Nat.le_of_eq hstart.symm)
    rw [(he j hmem).1, (he j hmem).2, if_neg (Nat.not_le.2 hlt)]
    exact ⟨rfl, rfl⟩
  have hmove : ∀ j ∈ post, (e' j).start = (e j).start + gap ∧ (e' j).len = (e j).len := by
    intro j hj
    have hmem : j ∈ pre ++ i :: post := List.mem_append_right _ (List.mem_cons_of_mem i hj)
    have hge := hpost.le_start hj hbs (p := (e i).start) (by omega)
    rw [(he j hmem).1, (he j hmem).2, if_pos hge]
    exact ⟨rfl, rfl⟩
  apply lined_append.2
  refine ⟨m, ?_, ?_⟩
  · have hshift : Lined bs view' e' (Function.update front i (filled data (gap * bs))) body
        (a + 0 * bs) (m + 0 * bs) pre := by
      apply hpre.shift 0 hstay fun j hj => hupdate j fun hji => hipre (hji ▸ hj)
      intro p _ hp
      rw [Nat.zero_mul]
      exact hbelow p hp
    rwa [Nat.zero_mul] at hshift
  · have hshift : Lined bs view' e' (Function.update front i (filled data (gap * bs))) body
        (m + (body i).length + gap * bs) (b + gap * bs) post := by
      apply hpost.shift gap hmove fun j hj => hupdate j fun hji => hipost (hji ▸ hj)
      exact fun p hp hp' => habove p (by omega) hp'
    have hself := (he i hi).2
    rw [if_pos (Nat.le_refl _)] at hself
    unfold Lined
    rw [Function.update_self, hself, (he i hi).1, Nat.add_mul, List.length_append, hfilled]
    refine ⟨by omega, hlen, ?_, ?_⟩
    · have hbody : view'.slice (m + gap * bs) (body i).length = body i := by
        refine Eq.trans ?_ hslice
        apply Bytes.slice_eq_iff.2
        intro k hk
        rw [show m + gap * bs + k = m + k + gap * bs by omega]
        exact habove (m + k) (by omega) (by omega)
      rw [← Bytes.slice_append, hbody, hview, slice_gap view m _ hdata]
    · rw [show m + (gap * bs + (body i).length) = m + (body i).length + gap * bs by omega]
      exact hshift

end Lined

end ImageTool.Lib
