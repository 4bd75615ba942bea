import ImageTool.Fstree.PathComponents

/-!
# Directory trees

A directory is what `readdir` returns of it, one entry after another, with `.` and `..` wherever
they stand.  The entries below a directory are listed with the names that lead to them, each
directory in front of what is in it.
-/

namespace ImageTool.Imgtool.Directory

open ImageTool.Fstree

/-- What `create_entry` reads of `struct stat`, the type of the file apart. -/
structure Stat where
  permissions : Nat
  uid : Nat
  gid : Nat
  rdev : Nat
  ctime : Int
  mtime : Int
  size : Nat
  deriving DecidableEq

/-- A file that is no directory, with what can be read of it. -/
inductive Leaf where
  | blockDev
  | charDev
  | file (data : List UInt8)
  | symlink (target : List UInt8)
  | fifo
  | socket
  deriving DecidableEq

/-- The entries of a directory, in the order of `readdir`. -/
inductive Entries where
  | nil
  | dot (rest : Entries)
  | dotdot (rest : Entries)
  | leaf (name : List UInt8) (sb : Stat) (file : Leaf) (rest : Entries)
  | dir (name : List UInt8) (sb : Stat) (below : Entries) (rest : Entries)

/-- What a name stands for. -/
inductive Found where
  | leaf (sb : Stat) (file : Leaf)
  | dir (sb : Stat) (below : Entries)

/-- The file a name stands for in a directory. -/
def Entries.lookup (key : List UInt8) : Entries → Option Found
  | .nil => none
  | .dot rest => rest.lookup key
  | .dotdot rest => rest.lookup key
  | .leaf name sb file rest => if name = key then some (.leaf sb file) else rest.lookup key
  | .dir name sb below rest => if name = key then some (.dir sb below) else rest.lookup key

/-- The name of a file. -/
structure IsName (name : List UInt8) : Prop where
  component : IsComponent name
  no_nul : 0 ∉ name
  ne_dot : name ≠ [dot]
  ne_dotdot : name ≠ [dot, dot]

/-- Every name is the name of one file, and symlinks have strings for targets. -/
def Entries.WF : Entries → Prop
  | .nil => True
  | .dot rest => rest.WF
  | .dotdot rest => rest.WF
  | .leaf name _ file rest =>
      IsName name ∧ rest.lookup name = none ∧ (∀ target, file = .symlink target → 0 ∉ target) ∧
        rest.WF
  | .dir name _ below rest => IsName name ∧ rest.lookup name = none ∧ below.WF ∧ rest.WF

/-- The file that some names lead to, from a directory on. -/
inductive IsAt : Entries → List (List UInt8) → Found → Prop where
  | here {root : Entries} {name : List UInt8} {found : Found} (h : root.lookup name = some found) :
      IsAt root [name] found
  | inside {root below : Entries} {name : List UInt8} {sb : Stat} {path : List (List UInt8)}
      {found : Found} (h : root.lookup name = some (.dir sb below))
      (hpath : IsAt below path found) :
      IsAt root (name :: path) found

/-- The files below a directory that names lead to, with the names. -/
def Entries.files (path : List (List UInt8)) : Entries → List (List (List UInt8) × Found)
  | .nil => []
  | .dot rest => rest.files path
  | .dotdot rest => rest.files path
  | .leaf name sb file rest => (path ++ [name], .leaf sb file) :: rest.files path
  | .dir name sb below rest =>
      (path ++ [name], .dir sb below) :: (below.files (path ++ [name]) ++ rest.files path)

section Files

variable {root rest below : Entries} {name key : List UInt8} {path p q : List (List UInt8)}
  {found : Found} {sb : Stat} {file : Leaf}

/-- Where names lead is known from the files the first of them stands for. -/
theorem IsAt.congr (h : IsAt root q found)
    (hlookup : ∀ key found, root.lookup key = some found → rest.lookup key = some found) :
    IsAt rest q found := by
  cases h with
  | here h => exact .here (hlookup _ _ h)
  | inside h hpath => exact .inside (hlookup _ _ h) hpath

theorem lookup_ne (hname : rest.lookup name = none) (h : rest.lookup key = some found) :
    name ≠ key := by
  rintro rfl
  rw [hname] at h
  cases h

theorem isAt_leaf (hname : rest.lookup name = none) :
    IsAt (.leaf name sb file rest) q found ↔
      (q = [name] ∧ found = .leaf sb file) ∨ IsAt rest q found := by
  constructor
  · intro h
    cases h with
    | @here _ key _ h =>
        rw [Entries.lookup] at h
        split at h
        · rename_i hkey
          cases h
          exact Or.inl ⟨by rw [hkey], rfl⟩
        · exact Or.inr (.here h)
    | @inside _ below key sb path _ h hpath =>
        rw [Entries.lookup] at h
        split at h
        · cases h
        · exact Or.inr (.inside h hpath)
  · intro h
    cases h with
    | inl h =>
        rw [h.1, h.2]
        exact .here (by rw [Entries.lookup, if_pos rfl])
    | inr h =>
        apply h.congr
        intro key found hkey
        rw [Entries.lookup, if_neg (lookup_ne hname hkey), hkey]

theorem isAt_dir (hname : rest.lookup name = none) :
    IsAt (.dir name sb below rest) q found ↔
      (q = [name] ∧ found = .dir sb below) ∨ (∃ p, q = name :: p ∧ IsAt below p found) ∨
        IsAt rest q found := by
  constructor
  · intro h
    cases h with
    | @here _ key _ h =>
        rw [Entries.lookup] at h
        split at h
        · rename_i hkey
          cases h
          exact Or.inl ⟨by rw [hkey], rfl⟩
        · exact Or.inr (Or.inr (.here h))
    | @inside _ below key sb path _ h hpath =>
        rw [Entries.lookup] at h
        split at h
        · rename_i hkey
          cases h
          exact Or.inr (Or.inl ⟨path, by rw [hkey], hpath⟩)
        · exact Or.inr (Or.inr (.inside h hpath))
  · intro h
    have hself : (Entries.dir name sb below rest).lookup name = some (.dir sb below) := by
      rw [Entries.lookup, if_pos rfl]
    rcases h with ⟨rfl, rfl⟩ | ⟨p, rfl, hp⟩ | h
    · exact .here hself
    · exact .inside hself hp
    · apply h.congr
      intro key found hkey
      rw [Entries.lookup, if_neg (lookup_ne hname hkey), hkey]

/-- A file that is listed is the one its names lead to, and every one is listed. -/
theorem mem_files (h : root.WF) : (p, found) ∈ root.files path ↔
    ∃ q, p = path ++ q ∧ IsAt root q found := by
  induction root generalizing path p with
  | nil =>
      constructor
      · intro hmem
        cases hmem
      · rintro ⟨q, -, hq⟩
        cases hq with
        | here h => cases h
        | inside h => cases h
  | dot rest ih =>
      have hsame : ∀ q, IsAt (.dot rest) q found ↔ IsAt rest q found :=
        fun q => ⟨fun h => h.congr fun _ _ h => h, fun h => h.congr fun _ _ h => h⟩
      simp only [hsame]
      exact ih h
  | dotdot rest ih =>
      have hsame : ∀ q, IsAt (.dotdot rest) q found ↔ IsAt rest q found :=
        fun q => ⟨fun h => h.congr fun _ _ h => h, fun h => h.congr fun _ _ h => h⟩
      simp only [hsame]
      exact ih h
  | leaf name sb file rest ih =>
      obtain ⟨-, hname, -, hrest⟩ := h
      rw [Entries.files, List.mem_cons, Prod.mk.injEq, ih hrest]
      simp only [isAt_leaf hname]
      constructor
      · rintro (⟨rfl, rfl⟩ | ⟨q, rfl, hq⟩)
        · exact ⟨[name], rfl, Or.inl ⟨rfl, rfl⟩⟩
        · exact ⟨q, rfl, Or.inr hq⟩
      · rintro ⟨q, rfl, ⟨rfl, rfl⟩ | hq⟩
        · exact Or.inl ⟨rfl, rfl⟩
        · exact Or.inr ⟨q, rfl, hq⟩
  | dir name sb below rest ihBelow ih =>
      obtain ⟨-, hname, hbelow, hrest⟩ := h
      rw [Entries.files, List.mem_cons, Prod.mk.injEq, List.mem_append, ihBelow hbelow, ih hrest]
      simp only [isAt_dir hname, List.append_assoc, List.singleton_append]
      constructor
      · rintro (⟨rfl, rfl⟩ | ⟨q, rfl, hq⟩ | ⟨q, rfl, hq⟩)
        · exact ⟨[name], rfl, Or.inl ⟨rfl, rfl⟩⟩
        · exact ⟨name :: q, rfl, Or.inr (Or.inl ⟨q, rfl, hq⟩)⟩
        · exact ⟨q, rfl, Or.inr (Or.inr hq)⟩
      · rintro ⟨q, rfl, ⟨rfl, rfl⟩ | ⟨p, rfl, hp⟩ | hq⟩
        · exact Or.inl ⟨rfl, rfl⟩
        · exact Or.inr (Or.inl ⟨p, rfl, hp⟩)
        · exact Or.inr (Or.inr ⟨q, rfl, hq⟩)

/-- The first name that leads to a file of a directory stands for something in it. -/
theorem exists_of_mem_files (h : root.WF) (hmem : (p, found) ∈ root.files path) :
    ∃ name q first, p = path ++ name :: q ∧ root.lookup name = some first := by
  obtain ⟨q, rfl, hq⟩ := (mem_files h).1 hmem
  cases hq with
  | @here _ name _ h => exact ⟨name, [], _, rfl, h⟩
  | @inside _ _ name _ q _ h hpath => exact ⟨name, q, _, rfl, h⟩

/-- No file is listed behind one that is in it, or a second time. -/
theorem files_pairwise (h : root.WF) (path : List (List UInt8)) :
    (root.files path).Pairwise fun a b => ¬ b.1 <+: a.1 := by
  have hother : ∀ {rest : Entries} {name : List UInt8} {q : List (List UInt8)}
      {path : List (List UInt8)} {b : List (List UInt8) × Found}, rest.WF →
      rest.lookup name = none → b ∈ rest.files path → ¬ b.1 <+: path ++ name :: q := by
    intro rest name q path b hrest hname hmem hprefix
    obtain ⟨key, r, first, hb, hkey⟩ := @exists_of_mem_files _ _ _ b.2 hrest hmem
    rw [hb, List.prefix_append_right_inj, List.cons_prefix_cons] at hprefix
    exact lookup_ne hname hkey hprefix.1.symm
  induction root generalizing path with
  | nil => exact List.Pairwise.nil
  | dot rest ih => exact ih h path
  | dotdot rest ih => exact ih h path
  | leaf name sb file rest ih =>
      obtain ⟨-, hname, -, hrest⟩ := h
      rw [Entries.files, List.pairwise_cons]
      exact ⟨fun b hb => hother hrest hname hb, ih hrest path⟩
  | dir name sb below rest ihBelow ih =>
      obtain ⟨-, hname, hbelow, hrest⟩ := h
      rw [Entries.files, List.pairwise_cons, List.pairwise_append]
      refine ⟨?_, ihBelow hbelow _, ih hrest path, ?_⟩
      · intro b hb
        cases List.mem_append.1 hb with
        | inl hb =>
            obtain ⟨key, r, first, hpath, -⟩ := @exists_of_mem_files _ _ _ b.2 hbelow hb
            rw [hpath]
            intro hprefix
            have hlen := hprefix.length_le
            simp at hlen
        | inr hb => exact hother hrest hname hb
      · intro a ha b hb
        obtain ⟨key, r, first, hpath, -⟩ := @exists_of_mem_files _ _ _ a.2 hbelow ha
        rw [hpath, List.append_assoc, List.singleton_append]
        exact hother hrest hname hb

theorem files_nodup (h : root.WF) (path : List (List UInt8)) :
    ((root.files path).map Prod.fst).Nodup := by
  rw [List.Nodup, List.pairwise_map]
  apply (files_pairwise h path).imp
  intro a b hnot heq
  rw [heq] at hnot
  exact hnot (List.prefix_refl _)

end Files

end ImageTool.Imgtool.Directory
