import ImageTool.Fstree.CanonicalizePath
import Mathlib.Data.List.TakeWhile

/-!
# The components of a path

What the slashes of a path separate.  Canonicalising keeps the components that are neither empty
nor a single dot, and joins them by single slashes.
-/

namespace ImageTool.Fstree

/-- The components of a path, without the empty ones. -/
def components (path : List UInt8) : List (List UInt8) :=
  (path.splitOn slash).filter fun c => c ≠ []

/-- The components of a path that name something. -/
def names (path : List UInt8) : List (List UInt8) :=
  (path.splitOn slash).filter fun c => c ≠ [] ∧ c ≠ [dot]

/-- Components with a slash between each two of them. -/
def slashJoin (cs : List (List UInt8)) : List UInt8 := [slash].intercalate cs

/-- A component as a path can have it. -/
def IsComponent (c : List UInt8) : Prop := c ≠ [] ∧ slash ∉ c

section Components

variable {c path : List UInt8} {cs : List (List UInt8)}

@[simp] theorem slashJoin_nil : slashJoin [] = [] := rfl

@[simp] theorem slashJoin_singleton (c : List UInt8) : slashJoin [c] = c :=
  List.intercalate_singleton

theorem slashJoin_cons (c : List UInt8) (hcs : cs ≠ []) :
    slashJoin (c :: cs) = c ++ slash :: slashJoin cs := by
  unfold slashJoin
  rw [List.intercalate_cons_of_ne_nil hcs]
  simp

theorem slash_notMem_of_mem_splitOn (path : List UInt8) :
    ∀ c ∈ path.splitOn slash, slash ∉ c := by
  induction path with
  | nil => simp
  | cons d path ih =>
      obtain ⟨p, ps, hsplit⟩ := List.exists_cons_of_ne_nil (List.splitOn_ne_nil slash path)
      rw [List.splitOn_cons_eq_if_modifyHead]
      split
      · simpa using ih
      · rename_i hd
        rw [beq_iff_eq] at hd
        rw [hsplit] at ih ⊢
        simp only [List.modifyHead_cons, List.mem_cons, forall_eq_or_imp, not_or] at ih ⊢
        exact ⟨⟨fun heq => hd heq.symm, ih.1⟩, ih.2⟩

theorem isComponent_of_mem (h : c ∈ components path) : IsComponent c := by
  obtain ⟨hmem, hc⟩ := List.mem_filter.1 h
  exact ⟨of_decide_eq_true hc, slash_notMem_of_mem_splitOn path c hmem⟩

theorem names_eq (path : List UInt8) :
    names path = (components path).filter fun c => c ≠ [dot] := by
  unfold names components
  rw [List.filter_filter]
  exact List.filter_congr fun c _ => by simp [Bool.and_comm]

theorem mem_names : c ∈ names path ↔ c ∈ components path ∧ c ≠ [dot] := by
  simp [names_eq]

@[simp] theorem components_nil : components [] = [] := rfl

theorem components_slash_cons (path : List UInt8) :
    components (slash :: path) = components path := by
  unfold components
  simp [List.splitOn_cons_eq_if_modifyHead]

/-- The first component and what is behind it. -/
theorem components_cons (hc : IsComponent c) (path : List UInt8) :
    components (c ++ slash :: path) = c :: components path := by
  unfold components
  rw [List.splitOn_append_cons_self_of_not_mem hc.2]
  simp [hc.1]

theorem components_singleton (hc : IsComponent c) : components c = [c] := by
  unfold components
  rw [List.splitOn_eq_singleton hc.2]
  simp [hc.1]

theorem components_slashJoin (hcs : ∀ c ∈ cs, IsComponent c) : components (slashJoin cs) = cs := by
  induction cs with
  | nil => rfl
  | cons c cs ih =>
      rw [List.forall_mem_cons] at hcs
      rcases cs with _ | ⟨d, cs⟩
      · rw [slashJoin_singleton, components_singleton hcs.1]
      · rw [slashJoin_cons c (List.cons_ne_nil d cs), components_cons hcs.1, ih hcs.2]

/-- Components in front of a slash and behind it. -/
theorem components_append_slash (front path : List UInt8) :
    components (front ++ slash :: path) = components front ++ components path := by
  unfold components
  simp [List.splitOn_append_cons_self]

theorem names_append_slash (front path : List UInt8) :
    names (front ++ slash :: path) = names front ++ names path := by
  rw [names_eq, components_append_slash, List.filter_append, ← names_eq, ← names_eq]

theorem slashJoin_eq_nil_iff (hcs : ∀ c ∈ cs, IsComponent c) : slashJoin cs = [] ↔ cs = [] := by
  constructor
  · intro h
    have hcomponents := components_slashJoin hcs
    rwa [h, components_nil, eq_comm] at hcomponents
  · rintro rfl
    rfl

theorem length_slashJoin_filter_le (p : List UInt8 → Bool) (cs : List (List UInt8)) :
    (slashJoin (cs.filter p)).length ≤ (slashJoin cs).length := by
  induction cs with
  | nil => exact Nat.le_refl _
  | cons c cs ih =>
      rw [List.filter_cons]
      rcases cs with _ | ⟨d, cs⟩
      · split <;> simp
      · rw [slashJoin_cons c (List.cons_ne_nil d cs)]
        have hlength : (slashJoin (c :: (d :: cs).filter p)).length ≤
            (c ++ slash :: slashJoin (d :: cs)).length := by
          by_cases hnil : (d :: cs).filter p = []
          · simp [hnil]
          · rw [slashJoin_cons c hnil]
            simpa using ih
        split
        · exact hlength
        · rw [List.length_append, List.length_cons]
          omega

end Components

/-! ## What canonicalising leaves -/

section Canonical

-- the equations of the loops are derived here, once for all of the lemmas
attribute [local simp] collapseSlashes removeDots

variable {c path : List UInt8} {cs : List (List UInt8)}

theorem collapseSlashes_append (hc : slash ∉ c) (path : List UInt8) :
    collapseSlashes (c ++ path) = c ++ collapseSlashes path := by
  induction c with
  | nil => rfl
  | cons d c ih =>
      simp only [List.mem_cons, not_or] at hc
      rw [List.cons_append, collapseSlashes, if_neg (Ne.symm hc.1), ih hc.2, List.cons_append]

/-- Of some slashes in a row one is kept, if something is behind them. -/
theorem collapseSlashes_slash_cons (path : List UInt8) :
    collapseSlashes (slash :: path) =
      if path.dropWhile (· = slash) = [] then []
      else slash :: collapseSlashes (path.dropWhile (· = slash)) := by
  induction path with
  | nil => rfl
  | cons c path ih =>
      rw [collapseSlashes, if_pos rfl]
      by_cases hc : c = slash
      · subst hc
        have hnext : slash :: path = [] ∨ (slash :: path).head? = some slash := Or.inr rfl
        rw [if_pos hnext, ih, List.dropWhile_cons_of_pos (by simp)]
      · rw [if_neg (by simpa using hc), List.dropWhile_cons_of_neg (by simpa using hc),
          if_neg (List.cons_ne_nil c path)]

theorem normalizeSlashes_slash_cons (path : List UInt8) :
    normalizeSlashes (slash :: path) = normalizeSlashes path := by
  simp [normalizeSlashes]

theorem normalizeSlashes_component (hc : IsComponent c) (path : List UInt8) :
    normalizeSlashes (c ++ path) = c ++ collapseSlashes path := by
  have hdrop : (c ++ path).dropWhile (· = slash) = c ++ path := by
    obtain ⟨d, c, rfl⟩ := List.exists_cons_of_ne_nil hc.1
    have hd : d ≠ slash := fun heq => hc.2 (heq ▸ List.mem_cons_self)
    exact List.dropWhile_cons_of_neg (by simpa using hd)
  rw [normalizeSlashes, hdrop, collapseSlashes_append hc.2]

/-- `normalize_slashes` drops the empty components. -/
theorem normalizeSlashes_eq (path : List UInt8) :
    normalizeSlashes path = slashJoin (components path) := by
  have hsplit : ∀ cs : List (List UInt8), (∀ c ∈ cs, slash ∉ c) →
      normalizeSlashes (slashJoin cs) = slashJoin (cs.filter fun c => c ≠ []) := by
    intro cs
    induction cs with
    | nil => intro _; rfl
    | cons c cs ih =>
        intro hcs
        rw [List.forall_mem_cons] at hcs
        have hrest := ih hcs.2
        by_cases hc : c = []
        · subst hc
          rcases cs with _ | ⟨d, cs⟩
          · rfl
          · rw [slashJoin_cons [] (List.cons_ne_nil d cs), List.nil_append,
              normalizeSlashes_slash_cons, hrest]
            simp
        · have hkept : (c :: cs).filter (fun c => c ≠ []) = c :: cs.filter fun c => c ≠ [] := by
            simp [hc]
          rw [hkept]
          rcases cs with _ | ⟨d, cs⟩
          · have hnormal := normalizeSlashes_component ⟨hc, hcs.1⟩ []
            simpa [collapseSlashes] using hnormal
          · rw [slashJoin_cons c (List.cons_ne_nil d cs),
              normalizeSlashes_component ⟨hc, hcs.1⟩, collapseSlashes_slash_cons]
            have hparts : ∀ b ∈ (d :: cs).filter (fun c => c ≠ []), IsComponent b := by
              intro b hb
              obtain ⟨hmem, hne⟩ := List.mem_filter.1 hb
              exact ⟨of_decide_eq_true hne, hcs.2 b hmem⟩
            have hempty : (slashJoin (d :: cs)).dropWhile (· = slash) = [] ↔
                (d :: cs).filter (fun c => c ≠ []) = [] := by
              rw [← slashJoin_eq_nil_iff hparts, ← hrest, normalizeSlashes]
              constructor
              · intro h
                rw [h]
                rfl
              · intro h
                cases hdrop : (slashJoin (d :: cs)).dropWhile (· = slash) with
                | nil => rfl
                | cons e path =>
                    have he : e ≠ slash := by
                      have hhead := List.head?_dropWhile_not (fun x => decide (x = slash))
                        (slashJoin (d :: cs))
                      rw [hdrop] at hhead
                      simpa using hhead
                    rw [hdrop, collapseSlashes, if_neg he] at h
                    cases h
            by_cases hnil : (d :: cs).filter (fun c => c ≠ []) = []
            · rw [if_pos (hempty.2 hnil), hnil]
              simp
            · rw [if_neg (fun h => hnil (hempty.1 h)), slashJoin_cons c hnil, ← hrest]
              rfl
  have hpath := hsplit (path.splitOn slash) (slash_notMem_of_mem_splitOn path)
  rwa [slashJoin, List.intercalate_splitOn] at hpath

theorem forall_ne_slash (hc : slash ∉ c) : ∀ d ∈ c, decide (d ≠ slash) = true := by
  intro d hd
  exact decide_eq_true fun heq => hc (heq ▸ hd)

/-- Inside a component everything is copied up to the next slash. -/
theorem removeDots_false (path : List UInt8) :
    removeDots false path = path.takeWhile (· ≠ slash) ++
      match path.dropWhile (· ≠ slash) with
      | [] => []
      | _ :: rest => slash :: removeDots true rest := by
  induction path with
  | nil => rfl
  | cons c path ih =>
      rw [removeDots]
      by_cases hc : c = slash
      · subst hc
        simp
      · rw [decide_eq_false hc, ih]
        simp [hc]

/-- At the start of a component that is no single dot the same happens. -/
theorem removeDots_true (h : path ≠ [dot]) (h' : ∀ rest, path ≠ dot :: slash :: rest) :
    removeDots true path = removeDots false path := by
  rcases path with _ | ⟨c, _ | ⟨d, path⟩⟩
  · rfl
  · rw [removeDots, removeDots, if_neg (by simpa using h)]
    rfl
  · rw [removeDots, removeDots, if_neg]
    rintro ⟨rfl, rfl⟩
    exact h' path rfl

theorem removeDots_component (hc : IsComponent c) (hdot : c ≠ [dot]) (path : List UInt8) :
    removeDots true (c ++ slash :: path) = c ++ slash :: removeDots true path := by
  rw [removeDots_true, removeDots_false]
  · rw [List.takeWhile_append_of_pos (forall_ne_slash hc.2),
      List.dropWhile_append_of_pos (forall_ne_slash hc.2)]
    simp
  · intro heq
    have hmem : slash ∈ c ++ slash :: path := by simp
    rw [heq] at hmem
    exact absurd hmem (by decide)
  · intro rest heq
    rcases c with _ | ⟨x, _ | ⟨y, c⟩⟩
    · exact hc.1 rfl
    · rw [List.singleton_append, List.cons.injEq] at heq
      exact hdot (by rw [heq.1])
    · simp only [List.cons_append, List.cons.injEq] at heq
      have hy : y ≠ slash := fun h => hc.2 (by simp [h])
      exact hy heq.2.1

/-- The second pass drops single dots; a slash may be left at the end. -/
theorem components_removeDots (hcs : ∀ c ∈ cs, IsComponent c) :
    components (removeDots true (slashJoin cs)) = cs.filter fun c => c ≠ [dot] := by
  induction cs with
  | nil => rfl
  | cons c cs ih =>
      rw [List.forall_mem_cons] at hcs
      rcases cs with _ | ⟨d, cs⟩
      · rw [slashJoin_singleton]
        by_cases hc : c = [dot]
        · subst hc
          rfl
        · have hcut : removeDots true c = c := by
            rw [removeDots_true hc, removeDots_false]
            · rw [List.dropWhile_eq_nil_iff.2 (forall_ne_slash hcs.1.2)]
              simpa using List.takeWhile_eq_self_iff.2 (forall_ne_slash hcs.1.2)
            · intro rest heq
              exact hcs.1.2 (by simp [heq])
          rw [hcut, components_singleton hcs.1]
          simp [hc]
      · rw [slashJoin_cons c (List.cons_ne_nil d cs)]
        by_cases hc : c = [dot]
        · subst hc
          have hskip : removeDots true ([dot] ++ slash :: slashJoin (d :: cs)) =
              removeDots true (slashJoin (d :: cs)) := by
            rw [List.singleton_append, removeDots, if_pos ⟨rfl, rfl⟩]
          rw [hskip, ih hcs.2]
          simp
        · rw [removeDots_component hcs.1 hc, components_cons hcs.1, ih hcs.2]
          simp [hc]

/-- `fstree_canonicalize_path` joins the names in a path. -/
theorem canonicalizePath_eq (path : List UInt8) :
    canonicalizePath path = slashJoin (names path) := by
  have hparts : ∀ c ∈ components path, IsComponent c := fun c => isComponent_of_mem
  rw [canonicalizePath, normalizeSlashes_eq, normalizeSlashes_eq, components_removeDots hparts,
    names_eq]

theorem isComponent_of_mem_names (h : c ∈ names path) : IsComponent c :=
  isComponent_of_mem (mem_names.1 h).1

/-- The components of a canonical path are its names. -/
theorem components_canonicalizePath (path : List UInt8) :
    components (canonicalizePath path) = names path := by
  rw [canonicalizePath_eq, components_slashJoin fun c => isComponent_of_mem_names]

theorem names_canonicalizePath (path : List UInt8) :
    names (canonicalizePath path) = names path := by
  rw [names_eq, components_canonicalizePath, List.filter_eq_self]
  intro c hc
  simpa using (mem_names.1 hc).2

theorem canonicalizePath_idem (path : List UInt8) :
    canonicalizePath (canonicalizePath path) = canonicalizePath path := by
  rw [canonicalizePath_eq (canonicalizePath path), names_canonicalizePath, canonicalizePath_eq]

theorem length_canonicalizePath_le (path : List UInt8) :
    (canonicalizePath path).length ≤ path.length := by
  have hle := length_slashJoin_filter_le (fun c => c ≠ [] ∧ c ≠ [dot]) (path.splitOn slash)
  rwa [slashJoin, slashJoin, List.intercalate_splitOn, ← slashJoin, ← names,
    ← canonicalizePath_eq] at hle

/-- A path without a slash at its ends or two slashes in a row. -/
structure SingleSlashes (path : List UInt8) : Prop where
  leading : ∀ rest, path ≠ slash :: rest
  trailing : ∀ front, path ≠ front ++ [slash]
  doubled : ∀ front rest, path ≠ front ++ slash :: slash :: rest

theorem singleSlashes_slashJoin (hcs : ∀ c ∈ cs, IsComponent c) :
    SingleSlashes (slashJoin cs) := by
  have hsplit : ∀ front rest, slashJoin cs = front ++ slash :: rest →
      [] ∉ front.splitOn slash ∧ [] ∉ rest.splitOn slash := by
    intro front rest heq
    have hne : cs ≠ [] := by
      rintro rfl
      simp at heq
    have hjoin := List.splitOn_intercalate slash (fun c hc => (hcs c hc).2) hne
    rw [← slashJoin, heq, List.splitOn_append_cons_self] at hjoin
    have hempty : [] ∉ cs := fun h => (hcs [] h).1 rfl
    rw [← hjoin] at hempty
    simpa using hempty
  constructor
  · intro rest heq
    have hfront := (hsplit [] rest heq).1
    simp at hfront
  · intro front heq
    have hrest := (hsplit front [] heq).2
    simp at hrest
  · intro front rest heq
    have hrest := (hsplit front (slash :: rest) heq).2
    simp [List.splitOn_cons_eq_if_modifyHead] at hrest

theorem singleSlashes_canonicalizePath (path : List UInt8) :
    SingleSlashes (canonicalizePath path) := by
  rw [canonicalizePath_eq]
  exact singleSlashes_slashJoin fun c => isComponent_of_mem_names

end Canonical

end ImageTool.Fstree
