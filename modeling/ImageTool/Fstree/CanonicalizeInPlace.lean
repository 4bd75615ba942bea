import ImageTool.Fstree.PathComponents
import ImageTool.Lib.CString

/-!
# Canonicalising in place

The passes of `fstree_canonicalize_path` as the source has them: a read and a write position in
one buffer.  What has been written, a gap, and what has not been read yet make up the buffer, so
a write falls into the gap or on the byte that has been read last.  An access outside of the
buffer and a loop that does not end are `none`.
-/

namespace ImageTool.Fstree

open ImageTool.Lib

namespace InPlace

/-- `*dst = c`. -/
def store (path : List UInt8) (dst : Nat) (c : UInt8) : Option (List UInt8) :=
  if dst < path.length then some (path.set dst c) else none

/-- `while (*src == '/') ++src;` -/
def skipSlashes : Nat → List UInt8 → Nat → Option Nat
  | 0, _, _ => none
  | fuel + 1, path, src => do
      let c ← path[src]?
      if c = slash then skipSlashes fuel path (src + 1) else some src

/-- The second loop of `normalize_slashes`.  The result is the buffer and `dst`. -/
def normalizeLoop : Nat → List UInt8 → Nat → Nat → Option (List UInt8 × Nat)
  | 0, _, _, _ => none
  | fuel + 1, path, dst, src => do
      let c ← path[src]?
      if c = 0 then some (path, dst)
      else if c = slash then do
        let src ← skipSlashes path.length path src
        let d ← path[src]?
        if d = 0 then some (path, dst)
        else do
          let path ← store path dst slash
          normalizeLoop fuel path (dst + 1) src
      else do
        let path ← store path dst c
        normalizeLoop fuel path (dst + 1) (src + 1)

/-- `normalize_slashes`. -/
def normalizeSlashes (path : List UInt8) : Option (List UInt8) := do
  let src ← skipSlashes path.length path 0
  let (path, dst) ← normalizeLoop path.length path 0 src
  store path dst 0

/-- `while (*src != '\0' && *src != '/') *(dst++) = *(src++);` -/
def copyLoop : Nat → List UInt8 → Nat → Nat → Option (List UInt8 × Nat × Nat)
  | 0, _, _, _ => none
  | fuel + 1, path, dst, src => do
      let c ← path[src]?
      if c = 0 ∨ c = slash then some (path, dst, src)
      else do
        let path ← store path dst c
        copyLoop fuel path (dst + 1) (src + 1)

/-- The loop of `fstree_canonicalize_path`. -/
def dotsLoop : Nat → List UInt8 → Nat → Nat → Option (List UInt8 × Nat)
  | 0, _, _, _ => none
  | fuel + 1, path, dst, src => do
      let c ← path[src]?
      if c = 0 then some (path, dst)
      else if c = dot ∧ path[src + 1]? = some 0 then some (path, dst)
      else if c = dot ∧ path[src + 1]? = some slash then dotsLoop fuel path dst (src + 2)
      else do
        let (path, dst, src) ← copyLoop path.length path dst src
        let c ← path[src]?
        if c = slash then do
          let path ← store path dst c
          dotsLoop fuel path (dst + 1) (src + 1)
        else dotsLoop fuel path dst src

/-- The loop and the terminator it ends with. -/
def removeDots (path : List UInt8) : Option (List UInt8) := do
  let (path, dst) ← dotsLoop path.length path 0 0
  store path dst 0

/-- `fstree_canonicalize_path`. -/
def canonicalizePath (path : List UInt8) : Option (List UInt8) := do
  let path ← normalizeSlashes path
  let path ← removeDots path
  normalizeSlashes path

end InPlace

/-! ## The gap -/

open InPlace hiding removeDots normalizeSlashes canonicalizePath

section Gap

variable {out gap text back : List UInt8} {c : UInt8} {fuel dst src : Nat}

theorem store_gap (hgap : gap ≠ []) (hdst : out.length = dst) (back : List UInt8) (c : UInt8) :
    store (out ++ (gap ++ back)) dst c = some ((out ++ [c]) ++ (gap.tail ++ back)) := by
  obtain ⟨j, gap, rfl⟩ := List.exists_cons_of_ne_nil hgap
  have hlt : dst < (out ++ (j :: gap ++ back)).length := by
    simp
    omega
  rw [store, if_pos hlt, List.cons_append, set_middle hdst]
  simp

/-- A byte is read, and one is written to the gap in front of what is unread then. -/
theorem store_next (hdst : out.length = dst) (c d : UInt8) (gap back : List UInt8) :
    ∃ gap' : List UInt8, gap'.length = gap.length ∧
      store (out ++ (gap ++ c :: back)) dst d = some ((out ++ [d]) ++ (gap' ++ back)) := by
  refine ⟨(gap ++ [c]).tail, by simp, ?_⟩
  have hgap : gap ++ [c] ≠ [] := by simp
  simpa using store_gap hgap hdst back d

theorem getElem?_unread (hsrc : out.length + gap.length = src) (c : UInt8) (back : List UInt8) :
    (out ++ (gap ++ c :: back))[src]? = some c := by
  rw [← List.append_assoc]
  exact getElem?_middle (by simpa using hsrc)

theorem getElem?_unread_succ (hsrc : out.length + gap.length = src) (c d : UInt8)
    (back : List UInt8) : (out ++ (gap ++ c :: d :: back))[src + 1]? = some d := by
  have hnext : out.length + (gap ++ [c]).length = src + 1 := by
    rw [List.length_append, List.length_singleton]
    omega
  simpa using getElem?_unread hnext d back

/-- The end of a pass: the terminator is written behind what the pass has kept. -/
theorem store_end (hdst : out.length = dst) (gap back : List UInt8) :
    ∃ gap' : List UInt8, gap'.length = gap.length ∧
      store (out ++ (gap ++ 0 :: back)) dst 0 = some (out ++ 0 :: (gap' ++ back)) := by
  obtain ⟨gap', hlength, hstore⟩ := store_next hdst 0 0 gap back
  exact ⟨gap', hlength, by simpa using hstore⟩

end Gap

/-! ## The passes -/

/-- A pass over a string in a buffer: what it keeps is at the front, and nothing behind the
terminator is touched. -/
def Rewrites (pass : List UInt8 → Option (List UInt8)) (kept : List UInt8 → List UInt8) : Prop :=
  ∀ text back, 0 ∉ text → ∃ gap : List UInt8, gap.length + (kept text).length = text.length ∧
    0 ∉ kept text ∧ pass (text ++ 0 :: back) = some (kept text ++ 0 :: (gap ++ back))

theorem Rewrites.comp {p q : List UInt8 → Option (List UInt8)} {f g : List UInt8 → List UInt8}
    (hp : Rewrites p f) (hq : Rewrites q g) :
    Rewrites (fun path => (p path).bind q) (fun text => g (f text)) := by
  intro text back htext
  obtain ⟨gap, hlength, hnul, hpass⟩ := hp text back htext
  obtain ⟨gap', hlength', hnul', hpass'⟩ := hq (f text) (gap ++ back) hnul
  refine ⟨gap' ++ gap, ?_, hnul', ?_⟩
  · rw [List.length_append]
    dsimp only
    omega
  · simp only [hpass, Option.bind_some, hpass']
    rw [List.append_assoc]

section Passes

variable {out gap text back : List UInt8} {c : UInt8} {fuel dst src : Nat}

theorem skipSlashes_eq (hfuel : text.length < fuel) (hsrc : out.length + gap.length = src)
    (back : List UInt8) : skipSlashes fuel (out ++ (gap ++ (text ++ 0 :: back))) src =
      some (src + (text.takeWhile (· = slash)).length) := by
  induction text generalizing gap fuel src with
  | nil =>
      obtain ⟨fuel, rfl⟩ := Nat.exists_eq_add_one_of_ne_zero (Nat.ne_of_gt hfuel)
      have hat := getElem?_unread hsrc 0 back
      simp only [skipSlashes, List.nil_append, hat]
      simp [slash]
  | cons c text ih =>
      obtain ⟨fuel, rfl⟩ :=
        Nat.exists_eq_add_one_of_ne_zero (Nat.ne_of_gt (Nat.zero_lt_of_lt hfuel))
      have hat := getElem?_unread hsrc c (text ++ 0 :: back)
      simp only [skipSlashes, List.cons_append, hat]
      by_cases hc : c = slash
      · have hnext : out.length + (gap ++ [c]).length = src + 1 := by
          rw [List.length_append, List.length_singleton]
          omega
        have hrest := ih (Nat.lt_of_succ_lt_succ hfuel) hnext
        simp only [List.append_assoc, List.singleton_append] at hrest
        subst hc
        simp [hrest]
        omega
      · simp [hc]

theorem notMem_collapseSlashes (htext : 0 ∉ text) : 0 ∉ collapseSlashes text := by
  induction text with
  | nil => exact htext
  | cons c text ih =>
      rw [List.mem_cons, not_or] at htext
      rw [collapseSlashes]
      split
      · split
        · exact ih htext.2
        · simpa [htext.1] using ih htext.2
      · simpa [htext.1] using ih htext.2

/-- Slashes in a row, and what is behind them. -/
theorem exists_run (text : List UInt8) : ∃ run rest : List UInt8, text = run ++ rest ∧
    (slash :: text).takeWhile (· = slash) = slash :: run ∧
    text.dropWhile (· = slash) = rest :=
  ⟨text.takeWhile (· = slash), text.dropWhile (· = slash),
    List.takeWhile_append_dropWhile.symm, by simp, rfl⟩

/-- A round of the loop that finds slashes. -/
theorem normalizeLoop_slash {run rest : List UInt8} (hrun : text = run ++ rest)
    (htake : (slash :: text).takeWhile (· = slash) = slash :: run)
    (hdst : out.length = dst) (hsrc : out.length + gap.length = src) (fuel : Nat)
    (back : List UInt8) :
    normalizeLoop (fuel + 1) (out ++ (gap ++ (slash :: text ++ 0 :: back))) dst src =
      match rest with
      | [] => some (out ++ (gap ++ (slash :: text ++ 0 :: back)), dst)
      | d :: _ => if d = 0 then some (out ++ (gap ++ (slash :: text ++ 0 :: back)), dst)
          else normalizeLoop fuel ((out ++ [slash]) ++ ((gap ++ slash :: run).tail ++
            (rest ++ 0 :: back))) (dst + 1) (src + (run.length + 1)) := by
  have hbuffer : out ++ (gap ++ (slash :: text ++ 0 :: back)) =
      out ++ ((gap ++ slash :: run) ++ (rest ++ 0 :: back)) := by
    simp [hrun]
  have hat : (out ++ (gap ++ (slash :: text ++ 0 :: back)))[src]? = some slash :=
    getElem?_unread hsrc slash (text ++ 0 :: back)
  have hskip : skipSlashes (out ++ (gap ++ (slash :: text ++ 0 :: back))).length
      (out ++ (gap ++ (slash :: text ++ 0 :: back))) src = some (src + (run.length + 1)) := by
    rw [skipSlashes_eq _ hsrc, htake, List.length_cons]
    simp only [List.length_append, List.length_cons]
    omega
  have hsrc' : out.length + (gap ++ slash :: run).length = src + (run.length + 1) := by
    rw [List.length_append, List.length_cons]
    omega
  have hgap : gap ++ slash :: run ≠ [] := by simp
  have hstore := store_gap hgap hdst (rest ++ 0 :: back) slash
  have hzero : slash ≠ 0 := by decide
  rw [normalizeLoop, hat]
  simp only [Option.bind_eq_bind, Option.bind_some, if_neg hzero, hskip]
  rw [hbuffer, hstore]
  cases rest with
  | nil =>
      have hend := getElem?_unread hsrc' 0 back
      rw [List.nil_append, hend]
      rfl
  | cons d rest =>
      have hend := getElem?_unread hsrc' d (rest ++ 0 :: back)
      rw [List.cons_append, hend]
      rfl

theorem normalizeLoop_eq (htext : 0 ∉ text) (hfuel : text.length < fuel)
    (hdst : out.length = dst) (hsrc : out.length + gap.length = src) (back : List UInt8) :
    ∃ gap' : List UInt8,
      gap'.length + (collapseSlashes text).length = gap.length + text.length ∧
      normalizeLoop fuel (out ++ (gap ++ (text ++ 0 :: back))) dst src =
        some (out ++ (collapseSlashes text ++ (gap' ++ 0 :: back)),
          dst + (collapseSlashes text).length) := by
  induction fuel generalizing out gap text dst src with
  | zero => exact absurd hfuel (Nat.not_lt_zero _)
  | succ fuel ih =>
      rcases text with _ | ⟨c, text⟩
      · refine ⟨gap, rfl, ?_⟩
        have hat := getElem?_unread hsrc 0 back
        simp only [normalizeLoop, List.nil_append, hat]
        simp [collapseSlashes]
      rw [List.mem_cons, not_or] at htext
      rw [List.length_cons] at hfuel
      by_cases hslash : c = slash
      · subst hslash
        obtain ⟨run, rest, hrun, htake, hdrop⟩ := exists_run text
        have hlength : text.length = run.length + rest.length := by
          rw [hrun, List.length_append]
        rw [normalizeLoop_slash hrun htake hdst hsrc, collapseSlashes_slash_cons, hdrop]
        rcases rest with _ | ⟨d, rest⟩
        · refine ⟨gap ++ slash :: run, ?_, ?_⟩
          · simp [hlength]
          · simp [hrun]
        · have hrest : 0 ∉ d :: rest := fun h => htext.2 (by simp [hrun, h])
          have hd : d ≠ 0 := by
            rintro rfl
            exact hrest List.mem_cons_self
          have hdst' : (out ++ [slash]).length = dst + 1 := by simp [hdst]
          have htail : (gap ++ slash :: run).tail.length = gap.length + run.length := by simp
          have hsrc' : (out ++ [slash]).length + (gap ++ slash :: run).tail.length =
              src + (run.length + 1) := by
            rw [hdst', htail]
            omega
          obtain ⟨gap', hlength', hloop⟩ := ih hrest (by omega) hdst' hsrc'
          refine ⟨gap', ?_, ?_⟩
          · rw [if_neg (List.cons_ne_nil d rest), List.length_cons, List.length_cons]
            omega
          · dsimp only
            rw [if_neg hd, if_neg (List.cons_ne_nil d rest), hloop]
            simp
            omega
      · obtain ⟨gap', hlength, hstore⟩ := store_next hdst c c gap (text ++ 0 :: back)
        have hdst' : (out ++ [c]).length = dst + 1 := by simp [hdst]
        have hsrc' : (out ++ [c]).length + gap'.length = src + 1 := by
          rw [hdst', hlength]
          omega
        obtain ⟨gap'', hlength', hloop⟩ :=
          ih htext.2 (Nat.lt_of_succ_lt_succ hfuel) hdst' hsrc'
        have hcollapse : collapseSlashes (c :: text) = c :: collapseSlashes text := by
          rw [collapseSlashes, if_neg hslash]
        have hat := getElem?_unread hsrc c (text ++ 0 :: back)
        refine ⟨gap'', ?_, ?_⟩
        · rw [hcollapse, List.length_cons, List.length_cons]
          omega
        · simp only [normalizeLoop, List.cons_append, hat]
          simp only [Option.bind_eq_bind, Option.bind_some, if_neg (Ne.symm htext.1),
            if_neg hslash, hstore, hloop, hcollapse]
          simp
          omega

theorem normalizeSlashes_rewrites :
    Rewrites InPlace.normalizeSlashes Fstree.normalizeSlashes := by
  intro text back htext
  have hsplit : text = text.takeWhile (· = slash) ++ text.dropWhile (· = slash) :=
    List.takeWhile_append_dropWhile.symm
  have hlength : text.length = (text.takeWhile (· = slash)).length +
      (text.dropWhile (· = slash)).length := by
    rw [← List.length_append, ← hsplit]
  have hrest : 0 ∉ text.dropWhile (· = slash) := fun h =>
    htext ((List.dropWhile_suffix _).subset h)
  have hfuel : text.length < (text ++ 0 :: back).length := by simp
  have hskip : skipSlashes (text ++ 0 :: back).length ([] ++ ([] ++ (text ++ 0 :: back))) 0 =
      some (0 + (text.takeWhile (· = slash)).length) := skipSlashes_eq hfuel rfl back
  have hloop : ∃ gap : List UInt8,
      gap.length + (Fstree.normalizeSlashes text).length = text.length ∧
      normalizeLoop (text ++ 0 :: back).length
        ([] ++ (text.takeWhile (· = slash) ++ (text.dropWhile (· = slash) ++ 0 :: back))) 0
        (text.takeWhile (· = slash)).length =
          some ([] ++ (Fstree.normalizeSlashes text ++ (gap ++ 0 :: back)),
            0 + (Fstree.normalizeSlashes text).length) := by
    rw [hlength]
    exact normalizeLoop_eq hrest (by omega) rfl (Nat.zero_add _) back
  obtain ⟨gap, hkept, hloop⟩ := hloop
  obtain ⟨gap', hlength', hstore⟩ := store_end rfl gap back
  refine ⟨gap', by omega, notMem_collapseSlashes hrest, ?_⟩
  rw [← List.append_assoc (List.takeWhile _ _), ← hsplit] at hloop
  simp only [List.nil_append, Nat.zero_add] at hskip hloop
  simp only [InPlace.normalizeSlashes, hskip, Option.bind_eq_bind, Option.bind_some, hloop]
  exact hstore

theorem copyLoop_eq (htext : 0 ∉ text) (hfuel : text.length < fuel)
    (hdst : out.length = dst) (hsrc : out.length + gap.length = src) (back : List UInt8) :
    ∃ gap' : List UInt8, gap'.length = gap.length ∧
      copyLoop fuel (out ++ (gap ++ (text ++ 0 :: back))) dst src =
        some ((out ++ text.takeWhile (· ≠ slash)) ++
            (gap' ++ (text.dropWhile (· ≠ slash) ++ 0 :: back)),
          dst + (text.takeWhile (· ≠ slash)).length,
          src + (text.takeWhile (· ≠ slash)).length) := by
  induction text generalizing out gap fuel dst src with
  | nil =>
      obtain ⟨fuel, rfl⟩ := Nat.exists_eq_add_one_of_ne_zero (Nat.ne_of_gt hfuel)
      refine ⟨gap, rfl, ?_⟩
      have hat := getElem?_unread hsrc 0 back
      simp only [copyLoop, List.nil_append, hat]
      simp
  | cons c text ih =>
      obtain ⟨fuel, rfl⟩ :=
        Nat.exists_eq_add_one_of_ne_zero (Nat.ne_of_gt (Nat.zero_lt_of_lt hfuel))
      rw [List.mem_cons, not_or] at htext
      have hat := getElem?_unread hsrc c (text ++ 0 :: back)
      by_cases hc : c = slash
      · refine ⟨gap, rfl, ?_⟩
        simp only [copyLoop, List.cons_append, hat]
        simp [hc]
      · obtain ⟨gap', hlength, hstore⟩ := store_next hdst c c gap (text ++ 0 :: back)
        have hdst' : (out ++ [c]).length = dst + 1 := by simp [hdst]
        have hsrc' : (out ++ [c]).length + gap'.length = src + 1 := by
          rw [hdst', hlength]
          omega
        obtain ⟨gap'', hlength', hloop⟩ :=
          ih htext.2 (Nat.lt_of_succ_lt_succ hfuel) hdst' hsrc'
        refine ⟨gap'', hlength'.trans hlength, ?_⟩
        simp only [copyLoop, List.cons_append, hat]
        simp only [Option.bind_eq_bind, Option.bind_some, Ne.symm htext.1, hc, or_self, if_false,
          hstore, hloop]
        simp [hc]
        omega

theorem notMem_removeDots (start : Bool) (htext : 0 ∉ text) : 0 ∉ removeDots start text := by
  fun_induction removeDots start text with
  | case1 => exact htext
  | case2 => exact List.not_mem_nil
  | case3 c hc => exact htext
  | case4 c d src hspecial ih =>
      simp only [List.mem_cons, not_or] at htext
      exact ih htext.2.2
  | case5 c d src hspecial ih =>
      rw [List.mem_cons, not_or] at htext ⊢
      exact ⟨htext.1, ih htext.2⟩
  | case6 c src ih =>
      rw [List.mem_cons, not_or] at htext ⊢
      exact ⟨htext.1, ih htext.2⟩

/-- A round of the loop at a component that is no single dot. -/
theorem dotsLoop_component {c : UInt8} (hc : c ≠ 0) (hdot : c :: text ≠ [dot])
    (hdots : ∀ rest, c :: text ≠ dot :: slash :: rest) (htext : 0 ∉ text)
    (hsrc : out.length + gap.length = src) (fuel : Nat) (back : List UInt8) :
    dotsLoop (fuel + 1) (out ++ (gap ++ (c :: text ++ 0 :: back))) dst src = (do
      let (path, dst, src) ← copyLoop (out ++ (gap ++ (c :: text ++ 0 :: back))).length
        (out ++ (gap ++ (c :: text ++ 0 :: back))) dst src
      let c ← path[src]?
      if c = slash then do
        let path ← store path dst c
        dotsLoop fuel path (dst + 1) (src + 1)
      else dotsLoop fuel path dst src) := by
  have hat : (out ++ (gap ++ (c :: text ++ 0 :: back)))[src]? = some c :=
    getElem?_unread hsrc c (text ++ 0 :: back)
  have hnext : c = dot → (out ++ (gap ++ (c :: text ++ 0 :: back)))[src + 1]? ≠ some 0 ∧
      (out ++ (gap ++ (c :: text ++ 0 :: back)))[src + 1]? ≠ some slash := by
    rintro rfl
    rcases text with _ | ⟨d, text⟩
    · exact absurd rfl hdot
    · have hd : (out ++ (gap ++ (dot :: d :: text ++ 0 :: back)))[src + 1]? = some d :=
        getElem?_unread_succ hsrc dot d (text ++ 0 :: back)
      rw [hd, ne_eq, ne_eq, Option.some.injEq, Option.some.injEq]
      refine ⟨?_, ?_⟩
      · rintro rfl
        exact htext List.mem_cons_self
      · rintro rfl
        exact hdots text rfl
  have hzero : ¬ (c = dot ∧ (out ++ (gap ++ (c :: text ++ 0 :: back)))[src + 1]? = some 0) :=
    fun h => (hnext h.1).1 h.2
  have hslash : ¬ (c = dot ∧
      (out ++ (gap ++ (c :: text ++ 0 :: back)))[src + 1]? = some slash) :=
    fun h => (hnext h.1).2 h.2
  rw [dotsLoop, hat]
  simp only [Option.bind_eq_bind, Option.bind_some, if_neg hc, if_neg hzero, if_neg hslash]

/-- The loop ends at the end of the string. -/
theorem dotsLoop_nil (hsrc : out.length + gap.length = src) (fuel : Nat) (back : List UInt8) :
    dotsLoop (fuel + 1) (out ++ (gap ++ 0 :: back)) dst src =
      some (out ++ (gap ++ 0 :: back), dst) := by
  have hat := getElem?_unread hsrc 0 back
  simp only [dotsLoop, hat]
  simp

/-- It ends at a last dot. -/
theorem dotsLoop_dot (hsrc : out.length + gap.length = src) (fuel : Nat) (back : List UInt8) :
    dotsLoop (fuel + 1) (out ++ (gap ++ dot :: 0 :: back)) dst src =
      some (out ++ (gap ++ dot :: 0 :: back), dst) := by
  have hat := getElem?_unread hsrc dot (0 :: back)
  have hend := getElem?_unread_succ hsrc dot 0 back
  have hdot : dot ≠ 0 := by decide
  rw [dotsLoop, hat]
  simp only [Option.bind_eq_bind, Option.bind_some, if_neg hdot, hend, and_self, if_true]

/-- A dot in front of a slash is skipped. -/
theorem dotsLoop_dot_slash (hsrc : out.length + gap.length = src) (fuel : Nat)
    (rest : List UInt8) : dotsLoop (fuel + 1) (out ++ (gap ++ dot :: slash :: rest)) dst src =
      dotsLoop fuel (out ++ (gap ++ dot :: slash :: rest)) dst (src + 2) := by
  have hat := getElem?_unread hsrc dot (slash :: rest)
  have hnext := getElem?_unread_succ hsrc dot slash rest
  have hdot : dot ≠ 0 := by decide
  have hzero : some slash ≠ some (0 : UInt8) := by decide
  rw [dotsLoop, hat]
  simp only [Option.bind_eq_bind, Option.bind_some, if_neg hdot, hnext, hzero, and_false,
    if_false, and_self, if_true]

/-- Any other component is copied, with the slash behind it. -/
theorem dotsLoop_copied {c : UInt8} (htext : 0 ∉ c :: text) (hdot : c :: text ≠ [dot])
    (hdots : ∀ rest, c :: text ≠ dot :: slash :: rest) (hdst : out.length = dst)
    (hsrc : out.length + gap.length = src) (fuel : Nat) (back : List UInt8) :
    ∃ gap' : List UInt8, gap'.length = gap.length ∧
      dotsLoop (fuel + 1) (out ++ (gap ++ (c :: text ++ 0 :: back))) dst src =
        let comp := (c :: text).takeWhile (· ≠ slash)
        match (c :: text).dropWhile (· ≠ slash) with
        | [] => dotsLoop fuel ((out ++ comp) ++ (gap' ++ 0 :: back)) (dst + comp.length)
            (src + comp.length)
        | _ :: rest => dotsLoop fuel (((out ++ comp) ++ [slash]) ++ (gap' ++ (rest ++ 0 :: back)))
            (dst + comp.length + 1) (src + comp.length + 1) := by
  have hc : c ≠ 0 := by
    rintro rfl
    exact htext List.mem_cons_self
  have hfuel : (c :: text).length < (out ++ (gap ++ (c :: text ++ 0 :: back))).length := by
    simp only [List.length_append, List.length_cons]
    omega
  obtain ⟨gap', hlength, hcopy⟩ := copyLoop_eq htext hfuel hdst hsrc back
  rw [dotsLoop_component hc hdot hdots (fun h => htext (List.mem_cons_of_mem c h)) hsrc, hcopy]
  generalize (c :: text).takeWhile (· ≠ slash) = comp
  have hsrc' : (out ++ comp).length + gap'.length = src + comp.length := by
    rw [List.length_append, hlength]
    omega
  have hdst' : (out ++ comp).length = dst + comp.length := by
    rw [List.length_append, hdst]
  simp only [Option.bind_eq_bind, Option.bind_some]
  rcases htail : (c :: text).dropWhile (· ≠ slash) with _ | ⟨d, rest⟩
  · have hat := getElem?_unread hsrc' 0 back
    have hend : (0 : UInt8) ≠ slash := by decide
    refine ⟨gap', hlength, ?_⟩
    simp only [List.nil_append, hat, Option.bind_some, if_neg hend]
  · have hd : d = slash := by
      have hhead := List.head?_dropWhile_not (fun x => decide (x ≠ slash)) (c :: text)
      rw [htail] at hhead
      simpa using hhead
    subst hd
    have hat := getElem?_unread hsrc' slash (rest ++ 0 :: back)
    obtain ⟨gap₂, hgap₂, hstore⟩ := store_next hdst' slash slash gap' (rest ++ 0 :: back)
    refine ⟨gap₂, hgap₂.trans hlength, ?_⟩
    rw [List.cons_append, hat]
    simp only [Option.bind_some, if_true, hstore]

theorem dotsLoop_eq (htext : 0 ∉ text) (hfuel : text.length < fuel)
    (hdst : out.length = dst) (hsrc : out.length + gap.length = src) (back : List UInt8) :
    ∃ gap' : List UInt8, gap'.length + (removeDots true text).length = gap.length + text.length ∧
      dotsLoop fuel (out ++ (gap ++ (text ++ 0 :: back))) dst src =
        some (out ++ (removeDots true text ++ (gap' ++ 0 :: back)),
          dst + (removeDots true text).length) := by
  induction fuel generalizing out gap text dst src with
  | zero => exact absurd hfuel (Nat.not_lt_zero _)
  | succ fuel ih =>
      rcases text with _ | ⟨c, text⟩
      · exact ⟨gap, rfl, dotsLoop_nil hsrc fuel back⟩
      by_cases hdot : c :: text = [dot]
      · have hloop : dotsLoop (fuel + 1) (out ++ (gap ++ dot :: 0 :: back)) dst src =
            some (out ++ (gap ++ dot :: 0 :: back), dst) := dotsLoop_dot hsrc fuel back
        rw [hdot]
        refine ⟨gap ++ [dot], by simp [removeDots], ?_⟩
        simpa [removeDots] using hloop
      by_cases hdots : ∃ rest, c :: text = dot :: slash :: rest
      · obtain ⟨rest, heq⟩ := hdots
        rw [heq] at htext hfuel ⊢
        have hkept : removeDots true (dot :: slash :: rest) = removeDots true rest := by
          rw [removeDots, if_pos ⟨rfl, rfl⟩]
        have hsrc' : out.length + (gap ++ [dot, slash]).length = src + 2 := by
          rw [List.length_append, List.length_cons, List.length_singleton]
          omega
        simp only [List.mem_cons, not_or] at htext
        simp only [List.length_cons] at hfuel
        obtain ⟨gap', hlength, hloop⟩ := ih htext.2.2 (by omega) hdst hsrc'
        refine ⟨gap', ?_, ?_⟩
        · rw [hkept, hlength]
          simp
          omega
        · rw [List.cons_append, List.cons_append, dotsLoop_dot_slash hsrc, hkept, ← hloop]
          simp
      · have hdots' : ∀ rest, c :: text ≠ dot :: slash :: rest := fun rest heq => hdots ⟨rest, heq⟩
        have hsplit : (c :: text).length = ((c :: text).takeWhile (· ≠ slash)).length +
            ((c :: text).dropWhile (· ≠ slash)).length := by
          rw [← List.length_append, List.takeWhile_append_dropWhile]
        obtain ⟨gap', hlength, hcopied⟩ := dotsLoop_copied htext hdot hdots' hdst hsrc fuel back
        rw [hcopied, removeDots_true hdot hdots', removeDots_false]
        generalize (c :: text).takeWhile (· ≠ slash) = comp at *
        have hdst' : (out ++ comp).length = dst + comp.length := by
          rw [List.length_append, hdst]
        rcases htail : (c :: text).dropWhile (· ≠ slash) with _ | ⟨d, rest⟩
        · have hsrc' : (out ++ comp).length + gap'.length = src + comp.length := by
            rw [List.length_append, hlength]
            omega
          have hfuel' : ([] : List UInt8).length < fuel := by
            simp only [List.length_cons, List.length_nil] at hfuel ⊢
            omega
          obtain ⟨gap'', hlength', hloop⟩ := ih List.not_mem_nil hfuel' hdst' hsrc'
          rw [htail] at hsplit
          refine ⟨gap'', ?_, ?_⟩
          · simp only [removeDots, List.length_nil, List.append_nil] at hlength' hsplit ⊢
            omega
          · simp only [removeDots, List.nil_append, List.append_nil] at hloop ⊢
            rw [hloop]
            simp
        · have hmem : ∀ b ∈ rest, b ∈ c :: text := by
            intro b hb
            apply (List.dropWhile_suffix fun b => decide (b ≠ slash)).subset
            rw [htail]
            exact List.mem_cons_of_mem d hb
          have hrest : 0 ∉ rest := fun h => htext (hmem 0 h)
          rw [htail] at hsplit
          simp only [List.length_cons] at hsplit hfuel
          have hdst₂ : ((out ++ comp) ++ [slash]).length = dst + comp.length + 1 := by
            rw [List.length_append, hdst', List.length_singleton]
          have hsrc₂ : ((out ++ comp) ++ [slash]).length + gap'.length = src + comp.length + 1 := by
            rw [hdst₂, hlength]
            omega
          obtain ⟨gap'', hlength', hloop⟩ := ih hrest (by omega) hdst₂ hsrc₂
          refine ⟨gap'', ?_, ?_⟩
          · simp only [List.length_append, List.length_cons]
            omega
          · dsimp only
            rw [hloop]
            simp
            omega

theorem removeDots_rewrites : Rewrites InPlace.removeDots (removeDots true) := by
  intro text back htext
  have hfuel : text.length < (text ++ 0 :: back).length := by simp
  have hloop : ∃ gap : List UInt8,
      gap.length + (removeDots true text).length = ([] : List UInt8).length + text.length ∧
      dotsLoop (text ++ 0 :: back).length ([] ++ ([] ++ (text ++ 0 :: back))) 0 0 =
        some ([] ++ (removeDots true text ++ (gap ++ 0 :: back)),
          0 + (removeDots true text).length) := dotsLoop_eq htext hfuel rfl rfl back
  obtain ⟨gap, hlength, hloop⟩ := hloop
  obtain ⟨gap', hlength', hstore⟩ := store_end rfl gap back
  simp only [List.nil_append, List.length_nil, Nat.zero_add] at hlength hloop
  refine ⟨gap', by omega, notMem_removeDots true htext, ?_⟩
  simp only [InPlace.removeDots, hloop, Option.bind_eq_bind, Option.bind_some]
  exact hstore

theorem canonicalizePath_rewrites :
    Rewrites InPlace.canonicalizePath Fstree.canonicalizePath :=
  normalizeSlashes_rewrites.comp (removeDots_rewrites.comp normalizeSlashes_rewrites)

end Passes

/-- In every buffer that holds a string, the function leaves the names of the path, joined by
single slashes; doing it twice is doing it once. -/
theorem canonicalizePath_inPlace (path back : List UInt8) (hpath : 0 ∉ path) :
    ∃ buffer, InPlace.canonicalizePath (path ++ 0 :: back) = some buffer ∧
      buffer.length = (path ++ 0 :: back).length ∧ buffer.drop (path.length + 1) = back ∧
      cstrAt buffer 0 = some (slashJoin (names path)) ∧
      SingleSlashes (slashJoin (names path)) ∧ (slashJoin (names path)).length ≤ path.length ∧
      ∃ again, InPlace.canonicalizePath buffer = some again ∧
        cstrAt again 0 = cstrAt buffer 0 := by
  have hshown : ∀ text back : List UInt8, 0 ∉ text → cstrAt (text ++ 0 :: back) 0 = some text := by
    intro text back htext
    have hstring : cstrAt ([] ++ (text ++ 0 :: back)) 0 =
        some (text ++ (0 :: back).takeWhile (· != 0)) :=
      cstrAt_append rfl htext List.mem_cons_self
    simpa using hstring
  obtain ⟨gap, hlength, hnul, hpass⟩ := canonicalizePath_rewrites path back hpath
  obtain ⟨gap', hlength', hnul', hpass'⟩ :=
    canonicalizePath_rewrites (canonicalizePath path) (gap ++ back) hnul
  rw [canonicalizePath_idem] at hnul' hpass'
  rw [← canonicalizePath_eq]
  refine ⟨_, hpass, ?_, ?_, hshown _ _ hnul, singleSlashes_canonicalizePath path,
    length_canonicalizePath_le path, _, hpass', ?_⟩
  · simp
    omega
  · have hsplit : canonicalizePath path ++ 0 :: (gap ++ back) =
        (canonicalizePath path ++ 0 :: gap) ++ back := by simp
    rw [hsplit, List.drop_left']
    simp
    omega
  · rw [hshown _ _ hnul', hshown _ _ hnul]

/-- `./a//b/.` in a buffer of nine bytes. -/
theorem canonicalizePath_inPlace_dots :
    ∃ buffer, InPlace.canonicalizePath ([46, 47, 97, 47, 47, 98, 47, 46] ++ 0 :: [1]) =
        some buffer ∧
      buffer.length = 10 ∧ buffer.drop 9 = [1] ∧
      cstrAt buffer 0 = some (slashJoin (names [46, 47, 97, 47, 47, 98, 47, 46])) ∧
      SingleSlashes (slashJoin (names [46, 47, 97, 47, 47, 98, 47, 46])) ∧
      (slashJoin (names [46, 47, 97, 47, 47, 98, 47, 46])).length ≤ 8 ∧
      ∃ again, InPlace.canonicalizePath buffer = some again ∧
        cstrAt again 0 = cstrAt buffer 0 :=
  canonicalizePath_inPlace [46, 47, 97, 47, 47, 98, 47, 46] [1] (by decide)

end ImageTool.Fstree
