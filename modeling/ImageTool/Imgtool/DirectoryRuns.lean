import ImageTool.Fstream.Lines
import ImageTool.Imgtool.DirectorySource

/-!
# Draining a directory source

What a source has yet to answer with is what `readdir` has yet to return at every level of its
stack, each file with all that is below it.
-/

namespace ImageTool.Imgtool.Directory

open ImageTool.Lib ImageTool.Fstream ImageTool.Fstree

/-- The record of the file that some names lead to. -/
def recordAt (path : List (List UInt8)) : Found → FileSourceRecord
  | .dir sb _ => baseRecord .dir sb (slashJoin path)
  | .leaf sb (.file _) => { baseRecord .file sb (slashJoin path) with size := u64 sb.size }
  | .leaf sb (.symlink target) =>
      { baseRecord .symlink sb (slashJoin path) with linkTarget := some target }
  | .leaf sb file => baseRecord file.type sb (slashJoin path)

/-- A record and, for a regular file, the stream of its data. -/
def itemAt (file : List (List UInt8) × Found) : SourceItem (List UInt8) :=
  match file.2 with
  | .leaf _ (.file data) => (recordAt file.1 file.2, some data)
  | _ => (recordAt file.1 file.2, none)

/-- What is below a file. -/
def Found.files (path : List (List UInt8)) : Found → List (List (List UInt8) × Found)
  | .leaf _ _ => []
  | .dir _ below => below.files path

/-- What an entry stands for is as it has to be. -/
def Found.WF : Found → Prop
  | .leaf _ file => ∀ target, file = .symlink target → 0 ∉ target
  | .dir _ below => below.WF

/-- Names with a slash behind each. -/
def pathText (path : List (List UInt8)) : List UInt8 := path.flatMap (· ++ [slash])

/-- What `readdir` has yet to return is part of the directory. -/
structure IsRest (all rest : Entries) : Prop where
  wf : rest.WF
  lookup : ∀ key found, rest.lookup key = some found → all.lookup key = some found

/-- The name a level has for a directory, and the names that lead to it. -/
inductive LevelName : List (List UInt8) → List (List UInt8) → List UInt8 → Prop where
  | root : LevelName [] [] []
  | below {path : List (List UInt8)} {name : List UInt8} (h : 0 ∉ name) :
      LevelName path (path ++ [name]) (name ++ [slash])

/-- The files a stack has yet to answer with, and the names that lead to its top. -/
inductive Pending :
    List (List UInt8) → SourceDir → List (List (List UInt8) × Found) → Prop where
  | done : Pending [] [] []
  | level {path path' : List (List UInt8)} {next : SourceDir}
      {items : List (List (List UInt8) × Found)} {all rest : Entries} {name : List UInt8}
      (hnext : Pending path next items) (hname : LevelName path path' name)
      (hrest : IsRest all rest) :
      Pending path' (⟨⟨all, rest⟩, name⟩ :: next) (rest.files path' ++ items)

section Runs

variable {root all rest below : Entries} {name lname : List UInt8} {found : Found} {sb : Stat}
  {file : Leaf} {path path' : List (List UInt8)} {stack : SourceDir} {fuel : Nat}
  {items : List (List (List UInt8) × Found)} {f : List (List UInt8) × Found}

/-! ## The text of a path -/

theorem pathText_append (path : List (List UInt8)) (name : List UInt8) :
    pathText (path ++ [name]) = pathText path ++ (name ++ [slash]) := by
  unfold pathText
  rw [List.flatMap_append, List.flatMap_singleton]

theorem slashJoin_append (path : List (List UInt8)) (name : List UInt8) :
    slashJoin (path ++ [name]) = pathText path ++ name := by
  induction path with
  | nil => exact slashJoin_singleton name
  | cons c path ih =>
      have hne : path ++ [name] ≠ [] := by simp
      rw [List.cons_append, slashJoin_cons c hne, ih]
      simp [pathText]

theorem LevelName.text_eq (h : LevelName path path' lname) :
    pathText path' = pathText path ++ lname := by
  cases h with
  | root => rfl
  | below h => exact pathText_append path _

theorem LevelName.no_nul (h : LevelName path path' lname) : 0 ∉ lname := by
  cases h with
  | root => exact List.not_mem_nil
  | below h =>
      rw [List.mem_append, List.mem_singleton]
      intro hmem
      cases hmem with
      | inl hmem => exact h hmem
      | inr hslash => exact absurd hslash (by decide)

/-- The names of the levels, put together from the root on. -/
theorem Pending.text_eq (h : Pending path stack items) :
    stack.reverse.flatMap DirLevel.name = pathText path := by
  induction h with
  | done => rfl
  | level hnext hname hrest ih =>
      rw [List.reverse_cons, List.flatMap_append, ih, List.flatMap_singleton, hname.text_eq]

theorem Pending.no_nul (h : Pending path stack items) : 0 ∉ pathText path := by
  induction h with
  | done => exact List.not_mem_nil
  | level hnext hname hrest ih =>
      rw [hname.text_eq, List.mem_append]
      intro hmem
      cases hmem with
      | inl hmem => exact ih hmem
      | inr hmem => exact hname.no_nul hmem

/-- The path of an answer leads from the root to the file. -/
theorem Pending.fullPath_eq (h : Pending path stack items) (hname : 0 ∉ name) :
    ∃ text, fullPath stack name = some text ∧ cString text = slashJoin (path ++ [name]) := by
  refine ⟨pathText path ++ (name ++ [0]), ?_, ?_⟩
  · rw [Directory.fullPath_eq, h.text_eq]
  · have hno : 0 ∉ pathText path ++ name := by
      rw [List.mem_append]
      intro hmem
      cases hmem with
      | inl hmem => exact h.no_nul hmem
      | inr hmem => exact hname hmem
    have hassoc : pathText path ++ (name ++ [0]) = pathText path ++ name ++ 0 :: [] :=
      (List.append_assoc ..).symm
    have hcut := takeWhile_nul (pathText path ++ name) []
    have hwhole := cString_eq hno
    unfold cString at hwhole ⊢
    rw [hassoc, hcut, hwhole, slashJoin_append]

/-! ## One answer -/

theorem IsRest.self (h : root.WF) : IsRest root root := ⟨h, fun _ _ h => h⟩

theorem IsRest.leaf (h : IsRest all (.leaf name sb file rest)) :
    all.lookup name = some (.leaf sb file) ∧ IsRest all rest := by
  obtain ⟨-, hname, -, hrest⟩ := h.wf
  constructor
  · apply h.lookup
    rw [Entries.lookup, if_pos rfl]
  · constructor
    · exact hrest
    · intro key found hkey
      apply h.lookup
      rw [Entries.lookup, if_neg (lookup_ne hname hkey), hkey]

theorem IsRest.dir (h : IsRest all (.dir name sb below rest)) :
    all.lookup name = some (.dir sb below) ∧ IsRest all rest := by
  obtain ⟨-, hname, -, hrest⟩ := h.wf
  constructor
  · apply h.lookup
    rw [Entries.lookup, if_pos rfl]
  · constructor
    · exact hrest
    · intro key found hkey
      apply h.lookup
      rw [Entries.lookup, if_neg (lookup_ne hname hkey), hkey]

/-- An entry of the top level as it is returned: `.` and `..` are not. -/
theorem nextEntry_name (h : IsName name) {dirrd dirrd' : DirStream} {next : SourceDir}
    (hread : readdir dirrd = some (name, dirrd')) :
    nextEntry (fuel + 1) (⟨dirrd, lname⟩ :: next) = some (some name, ⟨dirrd', lname⟩ :: next) := by
  have hdots : ¬ (name = [dot] ∨ name = [dot, dot]) := by
    intro hdots
    cases hdots with
    | inl hdot => exact h.ne_dot hdot
    | inr hdotdot => exact h.ne_dotdot hdotdot
  rw [nextEntry]
  simp only [hread, if_neg hdots]

theorem stackLength_cons (all rest : Entries) (lname : List UInt8) (next : SourceDir) :
    stackLength (⟨⟨all, rest⟩, lname⟩ :: next) = rest.length + 1 + stackLength next :=
  List.sum_cons

/-- The loop leaves directories that have nothing left, until it has an entry or no directory. -/
theorem nextEntry_eq (h : Pending path stack items) (hfuel : stackLength stack < fuel) :
    (items = [] ∧ nextEntry fuel stack = some (none, [])) ∨
      ∃ path' name found top next items',
        items = (path' ++ [name], found) :: (found.files (path' ++ [name]) ++ items') ∧
        nextEntry fuel stack = some (some name, top :: next) ∧
        Pending path' (top :: next) items' ∧ top.dirrd.all.lookup name = some found ∧
        IsName name ∧ found.WF := by
  induction fuel generalizing path stack items with
  | zero => exact absurd hfuel (Nat.not_lt_zero _)
  | succ fuel ih =>
      cases h with
      | done => exact Or.inl ⟨rfl, rfl⟩
      | @level path0 _ next items all rest lname hnext hname hrest =>
          rw [stackLength_cons] at hfuel
          cases rest with
          | nil => exact ih hnext (Nat.lt_of_lt_of_le (Nat.lt_add_of_pos_left (Nat.succ_pos _))
              (Nat.le_of_lt_succ hfuel))
          | dot rest =>
              have hdots : (Entries.dot rest).length = rest.length + 1 := rfl
              have hless : stackLength (⟨⟨all, rest⟩, lname⟩ :: next) < fuel := by
                rw [stackLength_cons]
                omega
              exact ih (.level hnext hname ⟨hrest.wf, hrest.lookup⟩) hless
          | dotdot rest =>
              have hdots : (Entries.dotdot rest).length = rest.length + 1 := rfl
              have hless : stackLength (⟨⟨all, rest⟩, lname⟩ :: next) < fuel := by
                rw [stackLength_cons]
                omega
              exact ih (.level hnext hname ⟨hrest.wf, hrest.lookup⟩) hless
          | leaf name sb file rest =>
              obtain ⟨hisName, -, htarget, -⟩ := hrest.wf
              have hread : readdir ⟨all, .leaf name sb file rest⟩ = some (name, ⟨all, rest⟩) := rfl
              exact Or.inr ⟨path, name, .leaf sb file, _, _, _, rfl,
                nextEntry_name hisName hread, .level hnext hname hrest.leaf.2, hrest.leaf.1,
                hisName, htarget⟩
          | dir name sb below rest =>
              obtain ⟨hisName, -, hbelow, -⟩ := hrest.wf
              have hread : readdir ⟨all, .dir name sb below rest⟩ = some (name, ⟨all, rest⟩) := rfl
              have hitems : (Entries.dir name sb below rest).files path ++ items =
                  (path ++ [name], .dir sb below) ::
                    (below.files (path ++ [name]) ++ (rest.files path ++ items)) := by
                rw [Entries.files, List.cons_append, List.append_assoc]
              exact Or.inr ⟨path, name, .dir sb below, _, _, _, hitems,
                nextEntry_name hisName hread, .level hnext hname hrest.dir.2, hrest.dir.1,
                hisName, hbelow⟩

/-- The record has the whole path, and of a symlink the whole target. -/
theorem createEntry_eq (h : Pending path stack items) (hname : IsName name) (hfound : found.WF) :
    createEntry stack name found = some (recordAt (path ++ [name]) found) := by
  obtain ⟨text, htext, hpath⟩ := h.fullPath_eq hname.no_nul
  unfold createEntry
  rw [htext, Option.bind_eq_bind, Option.bind_some]
  cases found with
  | dir sb below => simp only [recordAt, hpath]
  | leaf sb file =>
      cases file with
      | symlink target =>
          have hcut := takeWhile_nul target []
          have hwhole := cString_eq (hfound target rfl)
          unfold cString at hwhole
          simp only [readlinkFull_eq, Option.bind_some, recordAt, hpath]
          rw [cString, hcut, hwhole]
      | file data => simp only [recordAt, hpath]
      | blockDev => simp only [recordAt, hpath]
      | charDev => simp only [recordAt, hpath]
      | fifo => simp only [recordAt, hpath]
      | socket => simp only [recordAt, hpath]

theorem getNextRecord_done (h : Pending path stack []) : getNextRecord stack = .ok none [] := by
  cases nextEntry_eq h (Nat.lt_succ_self _) with
  | inl hend =>
      unfold getNextRecord
      simp only [hend.2]
  | inr hentry =>
      obtain ⟨_, _, _, _, _, _, hitems, -⟩ := hentry
      cases hitems

/-- The first of the files is the answer, and the others are still to come. -/
theorem getNextRecord_next (h : Pending path stack (f :: items)) :
    ∃ path' stack', getNextRecord stack = .ok (some (itemAt f)) stack' ∧
      Pending path' stack' items := by
  cases nextEntry_eq h (Nat.lt_succ_self _) with
  | inl hend => cases hend.1
  | inr hentry =>
      obtain ⟨path', name, found, top, next, items', hitems, hnext, hpending, hlookup, hname,
        hfound⟩ := hentry
      cases hitems
      have hrecord := createEntry_eq hpending hname hfound
      unfold getNextRecord
      simp only [hnext, hlookup, hrecord]
      cases found with
      | dir sb below =>
          exact ⟨_, _, rfl, .level hpending (.below hname.no_nul) (.self hfound)⟩
      | leaf sb file =>
          cases file with
          | file data => exact ⟨_, _, rfl, hpending⟩
          | symlink target => exact ⟨_, _, rfl, hpending⟩
          | blockDev => exact ⟨_, _, rfl, hpending⟩
          | charDev => exact ⟨_, _, rfl, hpending⟩
          | fifo => exact ⟨_, _, rfl, hpending⟩
          | socket => exact ⟨_, _, rfl, hpending⟩

/-! ## All answers -/

theorem drain_eq (h : Pending path stack items) (hfuel : items.length < fuel) :
    drain fuel stack = .ok (items.map itemAt) [] := by
  induction items generalizing path stack fuel with
  | nil =>
      cases fuel with
      | zero => exact absurd hfuel (Nat.not_lt_zero _)
      | succ fuel =>
          have hdone := getNextRecord_done h
          rw [drain, Call.bind_apply, hdone]
          rfl
  | cons f items ih =>
      cases fuel with
      | zero => exact absurd hfuel (Nat.not_lt_zero _)
      | succ fuel =>
          obtain ⟨path', stack', hanswer, hpending⟩ := getNextRecord_next h
          have hmore := ih hpending (Nat.lt_of_succ_lt_succ hfuel)
          rw [drain, Call.bind_apply, hanswer, Outcome.bind_ok]
          dsimp only
          rw [Call.bind_apply, hmore]
          rfl

theorem create_pending (h : root.WF) : Pending [] (create root) (root.files []) := by
  have hlevel := Pending.level .done .root (IsRest.self h)
  rwa [List.append_nil] at hlevel

/-- Every file below the root is answered once, with its path and target, a directory in front of
what is in it.  Then the end is answered, as often as it is asked for. -/
theorem directory_enumerated (root : Entries) (h : root.WF) :
    ∃ files : List (List (List UInt8) × Found),
      (∀ path found, (path, found) ∈ files ↔ IsAt root path found) ∧
      (files.map Prod.fst).Nodup ∧
      (files.Pairwise fun a b => ¬ b.1 <+: a.1) ∧
      (∀ fuel, files.length < fuel → drain fuel (create root) = .ok (files.map itemAt) []) ∧
      getNextRecord [] = .ok none [] := by
  refine ⟨root.files [], ?_, files_nodup h [], files_pairwise h [], ?_,
    getNextRecord_done .done⟩
  · intro path found
    rw [mem_files h]
    constructor
    · rintro ⟨q, rfl, hq⟩
      exact hq
    · exact fun hq => ⟨path, rfl, hq⟩
  · exact fun fuel hfuel => drain_eq (create_pending h) hfuel

/-- A directory `a` between `.` and `..`, and a symlink in it. -/
def nestedRoot : Entries :=
  .dot (.dir [97] ⟨0o755, 0, 0, 0, 0, 0, 0⟩
    (.leaf [98] ⟨0o777, 0, 0, 0, 0, 0, 3⟩ (.symlink [46, 46, 47]) (.dotdot .nil)) (.dotdot .nil))

theorem nestedRoot_wf : nestedRoot.WF := by
  have ha : IsName [97] := ⟨⟨by simp, by decide⟩, by decide, by decide, by decide⟩
  have hb : IsName [98] := ⟨⟨by simp, by decide⟩, by decide, by decide, by decide⟩
  refine ⟨ha, rfl, ⟨hb, rfl, ?_, trivial⟩, trivial⟩
  intro target htarget
  cases htarget
  decide

theorem directory_enumerated_nested :
    ∃ files : List (List (List UInt8) × Found),
      (∀ path found, (path, found) ∈ files ↔ IsAt nestedRoot path found) ∧
      (files.map Prod.fst).Nodup ∧
      (files.Pairwise fun a b => ¬ b.1 <+: a.1) ∧
      (∀ fuel, files.length < fuel → drain fuel (create nestedRoot) = .ok (files.map itemAt) []) ∧
      getNextRecord [] = .ok none [] :=
  directory_enumerated nestedRoot nestedRoot_wf

end Runs

end ImageTool.Imgtool.Directory
