import ImageTool.Gcfg.ConfigItems
import ImageTool.Gcfg.ObjectLifetimes

/-!
# What the parser accepts

Each function of the parser is characterised by what it means that it succeeds; the texts that
are accepted are then those that show items which can be carried out.
-/

namespace ImageTool.Gcfg

open ImageTool.Lib ImageTool.Util

variable {κ ω σ : Type}

/-! ## What success means -/

section Success

variable {env : Env κ ω σ} {kwd : Keyword κ ω σ} {child : ω} {s s' : σ} {α : Type} {a : α}
  {lines rest : List (List UInt8)} {line ptr tail : List UInt8}
  {nested : κ → Option ω → List (List UInt8) → Call σ (List (List UInt8))}

theorem refuse_ok {format : String} {shown : List UInt8} :
    env.refuse format shown s = .ok a s' ↔ False := by
  constructor
  · intro h
    cases h
  · exact False.elim

theorem reading_ok {result : Option (Except Report α)} :
    env.reading result s = .ok a s' ↔ result = some (.ok a) ∧ s' = s := by
  cases result with
  | none =>
      constructor
      · intro h
        cases h
      · rintro ⟨h, -⟩
        cases h
  | some result =>
      cases result with
      | error r =>
          constructor
          · intro h
            cases h
          · rintro ⟨h, -⟩
            cases h
      | ok b =>
          constructor
          · intro h
            cases h
            exact ⟨rfl, rfl⟩
          · rintro ⟨h, rfl⟩
            cases h
            rfl

theorem orDrop_ok {m : Call σ α} : env.orDrop child m s = .ok a s' ↔ m s = .ok a s' := by
  unfold Env.orDrop
  cases m s with
  | ok b t => exact Iff.rfl
  | fail t =>
      constructor
      · intro h
        cases h
      · intro h
        cases h
  | stuck => exact Iff.rfl

theorem release_refuse_ok {format : String} {shown : List UInt8} :
    ((env.release child s).bind fun _ => env.refuse format shown) = .ok a s' ↔ False := refuse_ok

theorem pure_eq_ok {b : α} : (pure b : Call σ α) s = .ok a s' ↔ a = b ∧ s' = s := by
  constructor
  · exact Call.pure_ok
  · rintro ⟨rfl, rfl⟩
    rfl

theorem withObject_ok {arg : Arg} {parent : Option ω} {m : ω → Call σ Unit} {u : Unit} :
    env.withObject kwd arg parent m s = .ok u s' ↔ ∃ child s₁ s₂ s₃,
      kwd.handle arg parent s = .ok child s₁ ∧ m child s₁ = .ok () s₂ ∧
      env.finalize kwd child s₂ = .ok () s₃ ∧ s' = env.drop child s₃ := by
  unfold Env.withObject
  simp only [Call.bind_apply, Outcome.bind_eq_ok, orDrop_ok]
  constructor
  · rintro ⟨child, s₁, hhandle, _, s₂, hm, _, s₃, hfinalize, hrelease⟩
    cases hrelease
    exact ⟨child, s₁, s₂, s₃, hhandle, hm, hfinalize, rfl⟩
  · rintro ⟨child, s₁, s₂, s₃, hhandle, hm, hfinalize, rfl⟩
    exact ⟨child, s₁, hhandle, (), s₂, hm, (), s₃, hfinalize, rfl⟩

theorem haveArgs_eq : (!isLineEnd (ptr.headD 0) && decide (ptr.headD 0 ≠ openBrace) &&
    decide (ptr.headD 0 ≠ closeBrace)) = decide (HaveArgs ptr) := by
  rw [Bool.eq_iff_iff, Bool.and_eq_true, Bool.and_eq_true, Bool.not_eq_true', decide_eq_true_eq,
    decide_eq_true_eq, decide_eq_true_eq, and_assoc]
  exact Iff.rfl

/-- The check of a closing brace. -/
theorem closing_ok {format format' : String} {shown shown' : List UInt8} :
    (if (skipSpace line).headD 0 ≠ closeBrace then env.refuse format shown
      else if !isLineEnd ((skipSpace (skipSpace line).tail).headD 0) then
        env.refuse format' shown'
      else pure lines : Call σ (List (List UInt8))) s = .ok rest s' ↔
      IsBrace closeBrace line ∧ rest = lines ∧ s' = s := by
  unfold IsBrace AtEnd
  generalize (skipSpace line).headD 0 = c
  generalize isLineEnd ((skipSpace (skipSpace line).tail).headD 0) = e
  simp only [Call.ite_apply]
  split
  · rename_i hne
    simp [refuse_ok, hne]
  · rename_i heq
    cases e with
    | false => simp [refuse_ok]
    | true => simp only [Bool.not_true, Bool.false_eq_true, if_false, pure_eq_ok, not_not.1 heq,
        true_and]

/-- A turn of the loop of a listing. -/
theorem plainListing_cons {feed : List UInt8 → Call σ Bool} :
    env.plainListing feed (line :: lines) s = .ok rest s' ↔
      isValidUtf8 line = true ∧ ∃ stop s₁, feed line s = .ok stop s₁ ∧
        (stop = true ∧ IsBrace closeBrace line ∧ rest = lines ∧ s' = s₁ ∨
          stop = false ∧ env.plainListing feed lines s₁ = .ok rest s') := by
  rw [Env.plainListing, Call.ite_apply]
  cases hvalid : isValidUtf8 line with
  | false => simp [refuse_ok]
  | true =>
      have hstep : ∀ stop s₁, (if stop = true then
          (if (skipSpace line).headD 0 ≠ closeBrace then
              env.refuse "missing '\x7d' after listing" []
            else if !isLineEnd ((skipSpace (skipSpace line).tail).headD 0) then
              env.refuse "'\x7b' or '\x7d' must be followed by a line break" []
            else pure lines)
          else env.plainListing feed lines : Call σ (List (List UInt8))) s₁ = .ok rest s' ↔
          stop = true ∧ IsBrace closeBrace line ∧ rest = lines ∧ s' = s₁ ∨
            stop = false ∧ env.plainListing feed lines s₁ = .ok rest s' := by
        intro stop s₁
        cases stop with
        | true => simpa using closing_ok
        | false => simp
      rw [if_neg (by simp), Call.bind_apply, Outcome.bind_eq_ok]
      simp only [true_and]
      exact exists_congr fun stop => exists_congr fun s₁ => and_congr_right fun _ => hstep stop s₁

/-- The lines of a listing, up to the closing one. -/
theorem plainListing_ok {feed : List UInt8 → Call σ Bool} :
    env.plainListing feed lines s = .ok rest s' ↔ ∃ body last, lines = body ++ last :: rest ∧
      ListingLines body last ∧ Env.feedListing feed last body s = .ok () s' := by
  induction lines generalizing s with
  | nil =>
      constructor
      · intro h
        unfold Env.plainListing at h
        split at h <;> cases h
      · rintro ⟨body, last, h, -⟩
        cases body <;> cases h
  | cons line lines ih =>
      rw [plainListing_cons]
      constructor
      · rintro ⟨hvalid, stop, s₁, hfeed, ⟨rfl, hbrace, rfl, rfl⟩ | ⟨rfl, hmore⟩⟩
        · refine ⟨[], line, rfl, ⟨by simp, hvalid, hbrace⟩, ?_⟩
          rw [Env.feedListing, Call.bind_apply, hfeed]
          rfl
        · obtain ⟨body, last, rfl, hlines, hbody⟩ := ih.1 hmore
          refine ⟨line :: body, last, rfl, ⟨?_, hlines.lastValid, hlines.brace⟩, ?_⟩
          · intro l hl
            rcases List.mem_cons.1 hl with rfl | hl
            · exact hvalid
            · exact hlines.valid l hl
          · rw [Env.feedListing, Call.bind_apply, hfeed]
            exact hbody
      · rintro ⟨body, last, hsplit, hlines, hbody⟩
        cases body with
        | nil =>
            obtain ⟨rfl, rfl⟩ := List.cons.inj hsplit
            rw [Env.feedListing, Call.bind_apply, Outcome.bind_eq_ok] at hbody
            obtain ⟨stop, s₁, hfeed, hstop⟩ := hbody
            cases stop with
            | false => cases hstop
            | true =>
                cases hstop
                exact ⟨hlines.lastValid, true, _, hfeed, Or.inl ⟨rfl, hlines.brace, rfl, rfl⟩⟩
        | cons l body =>
            obtain ⟨rfl, rfl⟩ := List.cons.inj hsplit
            rw [Env.feedListing, Call.bind_apply, Outcome.bind_eq_ok] at hbody
            obtain ⟨stop, s₁, hfeed, hstop⟩ := hbody
            refine ⟨hlines.valid _ (List.mem_cons_self ..), stop, s₁, hfeed, ?_⟩
            cases stop with
            | true => cases hstop
            | false =>
                refine Or.inr ⟨rfl, ih.2 ⟨body, last, rfl, ⟨?_, hlines.lastValid, hlines.brace⟩,
                  hstop⟩⟩
                intro l' hl'
                exact hlines.valid l' (List.mem_cons_of_mem _ hl')

/-- The rest of the line of a keyword, and the block if there is one. -/
theorem keywordBlock_ok : env.keywordBlock nested kwd child (skipSpace tail) lines s = .ok rest s' ↔
    AtEnd tail ∧ rest = lines ∧ s' = s ∨ IsBrace openBrace tail ∧
      ((∃ feed, kwd.handleListing = some feed ∧
          env.plainListing (feed child) lines s = .ok rest s') ∨
        kwd.handleListing = none ∧ ∃ table, kwd.children = some table ∧
          nested table (some child) lines s = .ok rest s') := by
  have hopen : isLineEnd openBrace = false := rfl
  unfold Env.keywordBlock IsBrace AtEnd
  generalize (skipSpace (skipSpace tail).tail).headD 0 = d
  generalize (skipSpace tail).headD 0 = c
  by_cases hbrace : c = openBrace
  · subst hbrace
    rw [if_pos rfl, hopen]
    cases isLineEnd d with
    | true =>
        cases hfeed : kwd.handleListing with
        | some feed => simp [orDrop_ok]
        | none =>
            cases hchildren : kwd.children with
            | some table => simp [orDrop_ok]
            | none => simp [release_refuse_ok]
    | false => simp [release_refuse_ok]
  · rw [if_neg hbrace]
    cases isLineEnd c with
    | true => simp only [Bool.not_true, Bool.false_eq_true, if_false, pure_eq_ok, hbrace,
        false_and, or_false, true_and]
    | false =>
        simp only [Bool.not_false, if_true, hbrace, false_and, or_false, Bool.false_eq_true,
          iff_false]
        rw [Call.bind_apply]
        change (if _ then _ else _ : Call σ _) _ ≠ _
        split <;> exact fun h => refuse_ok.1 h

/-- The line of a keyword. -/
theorem keywordLine_ok {parent : Option ω} :
    env.keywordLine nested kwd line ptr parent lines s = .ok rest s' ↔
      (HaveArgs ptr ↔ kwd.arg ≠ .none) ∧ ∃ arg tail child s₁ s₂ s₃,
        readArg kwd.arg kwd.name line ptr = some (.ok (arg, tail)) ∧
        kwd.handle arg parent s = .ok child s₁ ∧
        env.keywordBlock nested kwd child (skipSpace tail) lines s₁ = .ok rest s₂ ∧
        env.finalize kwd child s₂ = .ok () s₃ ∧ s' = env.drop child s₃ := by
  have hread : ∀ s, (do
      let found ← env.reading (readArg kwd.arg kwd.name line ptr)
      let child ← kwd.handle found.1 parent
      let lines ← env.keywordBlock nested kwd child (skipSpace found.2) lines
      env.finalize kwd child
      env.release child
      pure lines : Call σ (List (List UInt8))) s = .ok rest s' ↔
      ∃ arg tail child s₁ s₂ s₃,
        readArg kwd.arg kwd.name line ptr = some (.ok (arg, tail)) ∧
        kwd.handle arg parent s = .ok child s₁ ∧
        env.keywordBlock nested kwd child (skipSpace tail) lines s₁ = .ok rest s₂ ∧
        env.finalize kwd child s₂ = .ok () s₃ ∧ s' = env.drop child s₃ := by
    intro s
    simp only [Call.bind_apply, Outcome.bind_eq_ok, reading_ok]
    constructor
    · rintro ⟨⟨arg, tail⟩, s₀, ⟨hread, rfl⟩, child, s₁, hhandle, lines', s₂, hblock, _, s₃,
        hfinalize, _, s₄, hrelease, hpure⟩
      cases hrelease
      cases hpure
      exact ⟨arg, tail, child, s₁, s₂, s₃, hread, hhandle, hblock, hfinalize, rfl⟩
    · rintro ⟨arg, tail, child, s₁, s₂, s₃, hread, hhandle, hblock, hfinalize, rfl⟩
      exact ⟨(arg, tail), s, ⟨hread, rfl⟩, child, s₁, hhandle, rest, s₂, hblock, (), s₃,
        hfinalize, (), env.drop child s₃, rfl, rfl⟩
  unfold Env.keywordLine
  simp only [haveArgs_eq]
  by_cases hargs : HaveArgs ptr
  · by_cases hnone : kwd.arg = .none
    · simp [hargs, hnone, refuse_ok]
    · rw [← hread]
      simp [hargs, hnone]
  · by_cases hnone : kwd.arg = .none
    · rw [← hread]
      simp [hargs, hnone]
    · simp [hargs, hnone, refuse_ok]

/-- The three forms that a keyword has: on a line of its own, with a listing, with a block. -/
theorem keywordLine_forms {parent : Option ω} :
    env.keywordLine nested kwd line ptr parent lines s = .ok rest s' ↔
      (HaveArgs ptr ↔ kwd.arg ≠ .none) ∧ ∃ arg tail,
        readArg kwd.arg kwd.name line ptr = some (.ok (arg, tail)) ∧
        (AtEnd tail ∧ rest = lines ∧
            env.withObject kwd arg parent (fun _ => pure ()) s = .ok () s' ∨
          (∃ body last, IsBrace openBrace tail ∧ kwd.handleListing.isSome ∧
            lines = body ++ last :: rest ∧ ListingLines body last ∧
            env.withObject kwd arg parent
              (fun child => Env.feedObject kwd child body last) s = .ok () s') ∨
          (∃ table child s₁ s₂ s₃, IsBrace openBrace tail ∧ kwd.handleListing = none ∧
            kwd.children = some table ∧ kwd.handle arg parent s = .ok child s₁ ∧
            nested table (some child) lines s₁ = .ok rest s₂ ∧
            env.finalize kwd child s₂ = .ok () s₃ ∧ s' = env.drop child s₃)) := by
  rw [keywordLine_ok]
  refine and_congr_right fun _ => exists_congr fun arg => exists_congr fun tail => ?_
  simp only [keywordBlock_ok, plainListing_ok, withObject_ok, pure_eq_ok]
  constructor
  · rintro ⟨child, s₁, s₂, s₃, hread, hhandle, hform, hfinalize, hdrop⟩
    refine ⟨hread, ?_⟩
    rcases hform with ⟨hend, rfl, rfl⟩ |
      ⟨hopen, ⟨feed, hfeed, body, last, rfl, hlines, hbody⟩ | ⟨hnone, table, hchildren, hnested⟩⟩
    · exact Or.inl ⟨hend, rfl, child, _, _, s₃, hhandle, ⟨trivial, rfl⟩, hfinalize, hdrop⟩
    · refine Or.inr (Or.inl ⟨body, last, hopen, by rw [hfeed]; rfl, rfl, hlines, child, s₁, s₂, s₃,
        hhandle, ?_, hfinalize, hdrop⟩)
      rw [Env.feedObject, hfeed]
      exact hbody
    · exact Or.inr (Or.inr ⟨table, child, s₁, s₂, s₃, hopen, hnone, hchildren, hhandle, hnested,
        hfinalize, hdrop⟩)
  · rintro ⟨hread, ⟨hend, rfl, child, s₁, s₂, s₃, hhandle, ⟨-, rfl⟩, hfinalize, hdrop⟩ |
      ⟨body, last, hopen, hsome, rfl, hlines, child, s₁, s₂, s₃, hhandle, hbody, hfinalize,
        hdrop⟩ |
      ⟨table, child, s₁, s₂, s₃, hopen, hnone, hchildren, hhandle, hnested, hfinalize, hdrop⟩⟩
    · exact ⟨child, s₂, s₂, s₃, hread, hhandle, Or.inl ⟨hend, rfl, rfl⟩, hfinalize, hdrop⟩
    · obtain ⟨feed, hfeed⟩ := Option.isSome_iff_exists.1 hsome
      rw [Env.feedObject, hfeed] at hbody
      exact ⟨child, s₁, s₂, s₃, hread, hhandle, Or.inr ⟨hopen, Or.inl ⟨feed, hfeed, body, last, rfl,
        hlines, hbody⟩⟩, hfinalize, hdrop⟩
    · exact ⟨child, s₁, s₂, s₃, hread, hhandle, Or.inr ⟨hopen, Or.inr ⟨hnone, table, hchildren,
        hnested⟩⟩, hfinalize, hdrop⟩

/-- What is left behind a keyword and its block. -/
theorem keywordLine_length {parent : Option ω}
    (h : env.keywordLine nested kwd line ptr parent lines s = .ok rest s')
    (hnested : ∀ table child s rest s', nested table (some child) lines s = .ok rest s' →
      rest.length ≤ lines.length) : rest.length ≤ lines.length := by
  obtain ⟨-, arg, tail, -, hform⟩ := keywordLine_forms.1 h
  rcases hform with ⟨-, rfl, -⟩ | ⟨body, last, -, -, rfl, -⟩ |
    ⟨table, child, s₁, s₂, s₃, -, -, -, -, hblock, -⟩
  · exact Nat.le_refl _
  · rw [List.length_append, List.length_cons]
    omega
  · exact hnested _ _ _ _ _ hblock

/-- The parser at the end of the file. -/
theorem parse_nil {fuel level : Nat} {table : κ} {parent : Option ω} :
    env.parse (fuel + 1) table parent level [] s = .ok rest s' ↔
      env.fetchFails = false ∧ level = 0 ∧ rest = [] ∧ s' = s := by
  rw [Env.parse, Call.ite_apply]
  cases env.fetchFails with
  | true =>
      constructor
      · intro h
        cases h
      · rintro ⟨h, -⟩
        cases h
  | false =>
      by_cases hlevel : level = 0
      · simp only [Bool.false_eq_true, if_false, hlevel, ne_eq, not_true_eq_false, pure_eq_ok,
          true_and]
      · simp [hlevel, refuse_ok]

/-- The parser stops at a line that is not UTF-8. -/
theorem parse_valid {fuel level : Nat} {table : κ} {parent : Option ω}
    (h : env.parse (fuel + 1) table parent level (line :: lines) s = .ok rest s') :
    isValidUtf8 line = true := by
  by_contra hinvalid
  rw [Env.parse, Call.ite_apply, if_pos (by simpa using hinvalid), refuse_ok] at h
  exact h

theorem letter_plain {c : UInt8} (h : isLetter c = true) :
    isLineEnd c = false ∧ c ≠ closeBrace := by
  constructor
  · cases hend : isLineEnd c with
    | false => rfl
    | true =>
        rw [isLineEnd, Bool.or_eq_true, decide_eq_true_eq, decide_eq_true_eq] at hend
        rcases hend with rfl | rfl
        · exact absurd h (by decide)
        · exact absurd h (by decide)
  · rintro rfl
    exact absurd h (by decide)

/-- A turn of the loop of the parser that sets a property. -/
theorem parse_setting {fuel level i : Nat} {table : κ} {parent : Option ω} {desc : PropertyDesc}
    (hvalid : isValidUtf8 line = true)
    (hfind : findProperty (env.descs parent) 0 (skipSpace line) = some (i, desc, ptr)) :
    env.parse (fuel + 1) table parent level (line :: lines) s = .ok rest s' ↔
      ∃ value tail s₁, readValue desc line ptr = some (.ok (value, tail)) ∧ AtEnd tail ∧
        env.setProperty parent i desc value s = .ok () s₁ ∧
        env.parse fuel table parent level lines s₁ = .ok rest s' := by
  have hopen : isLineEnd openBrace = false := rfl
  have hstep : ∀ tail s₁, (if (skipSpace tail).headD 0 = openBrace then
        env.refuse "Unexpected '\x7b' after %s" (bytesOf desc.name)
      else if !isLineEnd ((skipSpace tail).headD 0) then
        env.refuse "'%s <argument>' must be folled by a line break" (bytesOf desc.name)
      else env.parse fuel table parent level lines : Call σ (List (List UInt8))) s₁ = .ok rest s' ↔
      AtEnd tail ∧ env.parse fuel table parent level lines s₁ = .ok rest s' := by
    intro tail s₁
    unfold AtEnd
    generalize (skipSpace tail).headD 0 = c
    simp only [Call.ite_apply]
    split
    · rename_i hbrace
      rw [hbrace, hopen]
      simp [refuse_ok]
    · cases isLineEnd c <;> simp [refuse_ok]
  rw [Env.parse, hvalid, hfind]
  simp only [Bool.not_true, Bool.false_eq_true, if_false, Call.bind_apply, Outcome.bind_eq_ok,
    Env.applyReflectionArg, reading_ok]
  constructor
  · rintro ⟨ptr', s₁, ⟨⟨value, tail⟩, s₀, ⟨hread, rfl⟩, _, s₂, hset, hpure⟩, h⟩
    cases hpure
    obtain ⟨hend, hmore⟩ := (hstep tail s₁).1 h
    exact ⟨value, tail, s₁, hread, hend, hset, hmore⟩
  · rintro ⟨value, tail, s₁, hread, hend, hset, hmore⟩
    exact ⟨skipSpace tail, s₁, ⟨(value, tail), s, ⟨hread, rfl⟩, (), s₁, hset, rfl⟩,
      (hstep tail s₁).2 ⟨hend, hmore⟩⟩

/-- A turn of the loop of the parser that sets no property. -/
theorem parse_plain {fuel level : Nat} {table : κ} {parent : Option ω}
    (hline : PlainLine (env.descs parent) line) :
    env.parse (fuel + 1) table parent level (line :: lines) s = .ok rest s' ↔
      AtEnd line ∧ env.parse fuel table parent level lines s = .ok rest s' ∨
      (∃ kwd ptr more s₁, isLetter ((skipSpace line).headD 0) = true ∧
        findKeyword (env.keywords table) (skipSpace line) = .ok (kwd, ptr) ∧
        env.keywordLine (fun table parent => env.parse fuel table parent (level + 1)) kwd line ptr
          parent lines s = .ok more s₁ ∧
        env.parse fuel table parent level more s₁ = .ok rest s') ∨
      IsBrace closeBrace line ∧ level ≠ 0 ∧ rest = lines ∧ s' = s := by
  have hbrace : isLineEnd closeBrace = false := rfl
  rw [Env.parse, hline.valid]
  simp only [hline.plain, Bool.not_true, Bool.false_eq_true, if_false]
  cases hletter : isLetter ((skipSpace line).headD 0) with
  | true =>
      obtain ⟨hend, hclose⟩ := letter_plain hletter
      have hnotEnd : ¬ AtEnd line := by
        unfold AtEnd
        rw [hend]
        decide
      have hnotClose : ¬ IsBrace closeBrace line := fun h => hclose h.1
      simp only [if_true, Call.bind_apply, Outcome.bind_eq_ok, reading_ok, hnotEnd, hnotClose,
        false_and, false_or, or_false, Option.some.injEq, true_and]
      constructor
      · rintro ⟨⟨kwd, ptr⟩, s₀, ⟨hfind, rfl⟩, more, s₁, hkeyword, hmore⟩
        exact ⟨kwd, ptr, more, s₁, hfind, hkeyword, hmore⟩
      · rintro ⟨kwd, ptr, more, s₁, hfind, hkeyword, hmore⟩
        exact ⟨(kwd, ptr), s, ⟨hfind, rfl⟩, more, s₁, hkeyword, hmore⟩
  | false =>
      unfold AtEnd IsBrace AtEnd
      generalize isLineEnd ((skipSpace (skipSpace line).tail).headD 0) = e
      generalize (skipSpace line).headD 0 = c
      simp only [Bool.false_eq_true, if_false, false_and, exists_false, false_or]
      by_cases hclose : c = closeBrace
      · rw [if_pos hclose, hclose, hbrace]
        by_cases hlevel : level = 0
        · simp [hlevel, refuse_ok]
        · cases e with
          | true =>
              simp only [hlevel, if_false, Bool.not_true, Bool.false_eq_true, false_and, false_or,
                true_and, pure_eq_ok, ne_eq, not_false_eq_true]
          | false => simp [hlevel, refuse_ok]
      · rw [if_neg hclose]
        cases isLineEnd c <;> simp [hclose, refuse_ok]

end Success

/-! ## The bound on the calls -/

section Fuel

variable {env : Env κ ω σ} {fuel level : Nat} {table : κ} {parent : Option ω} {s s' : σ}
  {lines rest : List (List UInt8)}

/-- What is left when the parser returns. -/
theorem parse_length (h : env.parse fuel table parent level lines s = .ok rest s') :
    rest.length ≤ lines.length := by
  induction fuel generalizing table parent level lines rest s s' with
  | zero => cases h
  | succ fuel ih =>
      cases lines with
      | nil =>
          obtain ⟨-, -, rfl, -⟩ := parse_nil.1 h
          exact Nat.le_refl _
      | cons line lines =>
          have hvalid := parse_valid h
          rw [List.length_cons]
          cases hfind : findProperty (env.descs parent) 0 (skipSpace line) with
          | some found =>
              obtain ⟨value, tail, s₁, -, -, -, hmore⟩ := (parse_setting hvalid hfind).1 h
              exact Nat.le_succ_of_le (ih hmore)
          | none =>
              rcases (parse_plain ⟨hvalid, hfind⟩).1 h with ⟨-, hmore⟩ |
                ⟨kwd, ptr, more, s₁, -, -, hkeyword, hmore⟩ | ⟨-, -, rfl, -⟩
              · exact Nat.le_succ_of_le (ih hmore)
              · have hle := keywordLine_length hkeyword fun _ _ _ _ _ => ih
                exact Nat.le_succ_of_le (Nat.le_trans (ih hmore) hle)
              · exact Nat.le_succ _

/-- A bound above the number of lines may be any. -/
theorem parse_fuel (hfuel : lines.length < fuel) :
    env.parse (fuel + 1) table parent level lines s = .ok rest s' ↔
      env.parse fuel table parent level lines s = .ok rest s' := by
  induction fuel generalizing table parent level lines rest s s' with
  | zero => cases hfuel
  | succ fuel ih =>
      cases lines with
      | nil => rw [parse_nil, parse_nil]
      | cons line lines =>
          have hlines : lines.length < fuel := Nat.lt_of_succ_lt_succ hfuel
          cases hvalid : isValidUtf8 line with
          | false =>
              rw [Env.parse, Env.parse, hvalid]
              exact Iff.rfl
          | true =>
              cases hfind : findProperty (env.descs parent) 0 (skipSpace line) with
              | some found =>
                  rw [parse_setting hvalid hfind, parse_setting hvalid hfind]
                  simp only [ih hlines]
              | none =>
                  have hkeyword : ∀ kwd ptr more s₁,
                      env.keywordLine (fun table parent =>
                        env.parse (fuel + 1) table parent (level + 1)) kwd line ptr parent lines s =
                          .ok more s₁ ↔
                      env.keywordLine (fun table parent =>
                        env.parse fuel table parent (level + 1)) kwd line ptr parent lines s =
                          .ok more s₁ := by
                    intro kwd ptr more s₁
                    simp only [keywordLine_forms, ih hlines]
                  rw [parse_plain ⟨hvalid, hfind⟩, parse_plain ⟨hvalid, hfind⟩]
                  simp only [ih hlines, hkeyword]
                  refine or_congr_right (or_congr_left ?_)
                  refine exists_congr fun kwd => exists_congr fun ptr => exists_congr fun more =>
                    exists_congr fun s₁ => and_congr_right fun _ => and_congr_right fun _ =>
                    and_congr_right fun hline => ?_
                  have hle := keywordLine_length hline fun _ _ _ _ _ => parse_length
                  exact ih (Nat.lt_of_le_of_lt hle hlines)

theorem parse_enough (hfuel : lines.length < fuel) :
    env.parse fuel table parent level lines s = .ok rest s' ↔
      env.parse (lines.length + 1) table parent level lines s = .ok rest s' := by
  induction fuel with
  | zero => cases hfuel
  | succ fuel ih =>
      rcases Nat.lt_succ_iff_lt_or_eq.1 hfuel with hlt | rfl
      · rw [parse_fuel hlt, ih hlt]
      · exact Iff.rfl

end Fuel

/-! ## Accepted texts -/

section Accepted

variable {env : Env κ ω σ} {descs : List (Option PropertyDesc)} {fuel level : Nat} {table : κ}
  {parent : Option ω} {s s' : σ} {lines rest front : List (List UInt8)} {items : Items κ ω σ}

theorem within_ok {m : Option ω → Call σ Unit} {child : ω} {u : Unit} :
    env.within descs m child s = .ok u s' ↔
      env.descs (some child) = descs ∧ m (some child) s = .ok u s' := by
  unfold Env.within
  rw [Call.ite_apply]
  split
  · rename_i hdescs
    simp [hdescs]
  · rename_i hdescs
    constructor
    · intro h
      cases h
    · intro h
      exact absurd h.1 hdescs

/-- Where the parser stops: at the end of the file, or behind the closing brace of the block. -/
def Stops (env : Env κ ω σ) (descs : List (Option PropertyDesc)) (level : Nat)
    (lines rest : List (List UInt8)) : Prop :=
  level = 0 ∧ env.fetchFails = false ∧ lines = [] ∧ rest = [] ∨
    level ≠ 0 ∧ ∃ close, CloseLine descs close ∧ lines = close :: rest

/-- What the parser accepts shows items, and they are carried out. -/
theorem parse_sound (h : env.parse fuel table parent level lines s = .ok rest s') :
    ∃ items front more, Shows env (env.descs parent) table items front ∧
      env.exec items parent s = .ok () s' ∧ lines = front ++ more ∧
      Stops env (env.descs parent) level more rest := by
  induction fuel generalizing table parent level lines rest s s' with
  | zero => cases h
  | succ fuel ih =>
      cases lines with
      | nil =>
          obtain ⟨hfetch, hlevel, rfl, rfl⟩ := parse_nil.1 h
          exact ⟨.nil, [], [], .nil, rfl, rfl, Or.inl ⟨hlevel, hfetch, rfl, rfl⟩⟩
      | cons line lines =>
          have hvalid := parse_valid h
          cases hfind : findProperty (env.descs parent) 0 (skipSpace line) with
          | some found =>
              obtain ⟨i, desc, ptr⟩ := found
              obtain ⟨value, tail, s₁, hread, hend, hset, hmore⟩ := (parse_setting hvalid hfind).1 h
              obtain ⟨items, front, more, hshows, hexec, rfl, hstops⟩ := ih hmore
              refine ⟨.setting i desc value items, line :: front, more,
                .setting ⟨hvalid, hfind, hread, hend⟩ hshows, ?_, rfl, hstops⟩
              rw [Env.exec, Call.bind_apply, hset]
              exact hexec
          | none =>
              have hplain : PlainLine (env.descs parent) line := ⟨hvalid, hfind⟩
              rcases (parse_plain hplain).1 h with ⟨hend, hmore⟩ |
                ⟨kwd, ptr, more, s₁, hletter, hfound, hkeyword, hmore⟩ |
                ⟨hclose, hlevel, rfl, rfl⟩
              · obtain ⟨items, front, more, hshows, hexec, rfl, hstops⟩ := ih hmore
                exact ⟨items, line :: front, more, .blank ⟨hplain, hend⟩ hshows, hexec, rfl, hstops⟩
              · obtain ⟨items, front, stop, hshows, hexec, rfl, hstops⟩ := ih hmore
                obtain ⟨hargs, arg, tail, hread, hform⟩ := keywordLine_forms.1 hkeyword
                have hline : KeywordLine (env.descs parent) (env.keywords table) kwd arg line ptr
                    tail := ⟨hplain, hletter, hfound, hargs, hread⟩
                rcases hform with ⟨hend, rfl, hobject⟩ |
                  ⟨body, last, hopen, hlisting, rfl, hlines, hobject⟩ |
                  ⟨inner, child, s₂, s₃, s₄, hopen, hlisting, hchildren, hhandle, hnested,
                    hfinalize, rfl⟩
                · refine ⟨.object kwd arg items, line :: front, stop, .object hline hend hshows, ?_,
                    rfl, hstops⟩
                  rw [Env.exec, Call.bind_apply, hobject]
                  exact hexec
                · refine ⟨.listing kwd arg body last items, line :: (body ++ last :: front), stop,
                    .listing hline hopen hlisting hlines hshows, ?_, by simp, hstops⟩
                  rw [Env.exec, Call.bind_apply, hobject]
                  exact hexec
                · obtain ⟨innerItems, body, more, hinner, hrun, rfl, hinnerStops⟩ := ih hnested
                  rcases hinnerStops with ⟨hzero, -⟩ | ⟨-, close, hclose, rfl⟩
                  · exact absurd hzero (Nat.succ_ne_zero _)
                  refine ⟨.block kwd arg (env.descs (some child)) innerItems items,
                    line :: (body ++ close :: front), stop,
                    .block hline hopen hlisting hchildren hinner hclose hshows, ?_, by simp, hstops⟩
                  have hobject : env.withObject kwd arg parent
                      (env.within (env.descs (some child)) (env.exec innerItems)) s = .ok () _ :=
                    withObject_ok.2
                      ⟨child, s₂, s₃, s₄, hhandle, within_ok.2 ⟨rfl, hrun⟩, hfinalize, rfl⟩
                  rw [Env.exec, Call.bind_apply, hobject]
                  exact hexec
              · exact ⟨.nil, [], line :: rest, .nil, rfl, rfl,
                  Or.inr ⟨hlevel, line, ⟨hplain, hclose⟩, rfl⟩⟩

/-- Lines that show items which can be carried out are parsed. -/
theorem parse_complete (h : Shows env descs table items front) (hdescs : env.descs parent = descs)
    {s₁ : σ} (hexec : env.exec items parent s = .ok () s₁) {more : List (List UInt8)}
    (hmore : env.parse (more.length + 1) table parent level more s₁ = .ok rest s') :
    env.parse ((front ++ more).length + 1) table parent level (front ++ more) s = .ok rest s' := by
  induction h generalizing parent level s s₁ rest s' more with
  | nil =>
      cases hexec
      exact hmore
  | blank hline h ih =>
      subst hdescs
      exact (parse_plain hline.toPlainLine).2 (Or.inl ⟨hline.ends, ih rfl hexec hmore⟩)
  | setting hline h ih =>
      subst hdescs
      obtain ⟨hvalid, hfind, hread, hend⟩ := hline
      rw [Env.exec, Call.bind_apply, Outcome.bind_eq_ok] at hexec
      obtain ⟨_, s₀, hset, hexec⟩ := hexec
      exact (parse_setting hvalid hfind).2
        ⟨_, _, _, hread, hend, hset, ih rfl hexec hmore⟩
  | object hline hend h ih =>
      subst hdescs
      rw [Env.exec, Call.bind_apply, Outcome.bind_eq_ok] at hexec
      obtain ⟨_, s₀, hobject, hexec⟩ := hexec
      refine (parse_plain hline.toPlainLine).2 (Or.inr (Or.inl ⟨_, _, _, s₀, hline.letter,
        hline.found, ?_, ih rfl hexec hmore⟩))
      exact keywordLine_forms.2 ⟨hline.args, _, _, hline.read, Or.inl ⟨hend, rfl, hobject⟩⟩
  | @listing _ table kwd arg items line ptr tail last body lines hline hopen hlisting hlines h ih =>
      subst hdescs
      rw [Env.exec, Call.bind_apply, Outcome.bind_eq_ok] at hexec
      obtain ⟨_, s₀, hobject, hexec⟩ := hexec
      have hsplit : line :: (body ++ last :: lines) ++ more =
          line :: (body ++ last :: (lines ++ more)) := by simp
      have hcontinue : env.parse ((body ++ last :: (lines ++ more)).length + 1) table parent level
          (lines ++ more) s₀ = .ok rest s' := by
        rw [parse_enough (by simp; omega)]
        exact ih rfl hexec hmore
      rw [hsplit]
      refine (parse_plain hline.toPlainLine).2 (Or.inr (Or.inl ⟨_, _, _, s₀, hline.letter,
        hline.found, ?_, hcontinue⟩))
      exact keywordLine_forms.2 ⟨hline.args, _, _, hline.read,
        Or.inr (Or.inl ⟨body, last, hopen, hlisting, rfl, hlines, hobject⟩)⟩
  | @block _ inside table inner kwd arg innerItems items line ptr tail close body lines hline hopen
      hlisting hchildren hitems hclose h ihInner ih =>
      subst hdescs
      rw [Env.exec, Call.bind_apply, Outcome.bind_eq_ok] at hexec
      obtain ⟨_, s₀, hobject, hexec⟩ := hexec
      obtain ⟨child, s₂, s₃, s₄, hhandle, hwithin, hfinalize, rfl⟩ := withObject_ok.1 hobject
      -- the properties the block is read with are those of its object
      obtain ⟨hinside, hrun⟩ := within_ok.1 hwithin
      subst hinside
      have hsplit : line :: (body ++ close :: lines) ++ more =
          line :: (body ++ close :: (lines ++ more)) := by simp
      have hbrace : env.parse ((close :: (lines ++ more)).length + 1) inner (some child) (level + 1)
          (close :: (lines ++ more)) s₃ = .ok (lines ++ more) s₃ :=
        (parse_plain hclose.toPlainLine).2
          (Or.inr (Or.inr ⟨hclose.brace, Nat.succ_ne_zero _, rfl, rfl⟩))
      have hcontinue : env.parse ((body ++ close :: (lines ++ more)).length + 1) table parent level
          (lines ++ more) (env.drop child s₄) = .ok rest s' := by
        rw [parse_enough (by simp; omega)]
        exact ih rfl hexec hmore
      rw [hsplit]
      refine (parse_plain hline.toPlainLine).2 (Or.inr (Or.inl ⟨_, _, _, _, hline.letter,
        hline.found, ?_, hcontinue⟩))
      exact keywordLine_forms.2 ⟨hline.args, _, _, hline.read,
        Or.inr (Or.inr ⟨inner, child, s₂, s₃, s₄, hopen, hlisting, hchildren, hhandle,
          ihInner rfl hrun hbrace, hfinalize, rfl⟩)⟩

/-- A file is accepted exactly if it shows items that can be carried out, and the callbacks are
called as those items say. -/
theorem gcfgParseFile_ok_iff : env.gcfgParseFile table parent lines s = .ok () s' ↔
    env.fetchFails = false ∧ ∃ items, Shows env (env.descs parent) table items lines ∧
      env.exec items parent s = .ok () s' := by
  unfold Env.gcfgParseFile
  rw [Call.bind_apply, Outcome.bind_eq_ok]
  constructor
  · rintro ⟨rest, s₁, hparse, hpure⟩
    cases hpure
    obtain ⟨items, front, more, hshows, hexec, rfl, hstops⟩ := parse_sound hparse
    rcases hstops with ⟨-, hfetch, rfl, -⟩ | ⟨hlevel, -⟩
    · rw [List.append_nil]
      exact ⟨hfetch, items, hshows, hexec⟩
    · exact absurd rfl hlevel
  · rintro ⟨hfetch, items, hshows, hexec⟩
    have hend : env.parse (([] : List (List UInt8)).length + 1) table parent 0 [] s' = .ok [] s' :=
      parse_nil.2 ⟨hfetch, rfl, rfl, rfl⟩
    have hparse := parse_complete hshows rfl hexec hend
    rw [List.append_nil] at hparse
    exact ⟨[], s', hparse, rfl⟩

end Accepted

/-- A keyword that makes an object of a kind, with a block. -/
def volumeKeyword (name : String) (kind : Bool) : Keyword Unit Bool Nat where
  arg := .none
  name := bytesOf name
  handle _ _ s := .ok kind s
  children := some ()
  finalizeObject := none
  handleListing := none

/-- Two keywords with one table for their blocks.  Only the objects of the first have a property;
the state counts how often it is set. -/
def volumeEnv : Env Unit Bool Nat where
  keywords _ := [volumeKeyword "fat" true, volumeKeyword "cpio" false]
  chain obj := if obj then [⟨[⟨.u32Number, "label", []⟩], fun _ _ s => .ok () (s + 1),
    fun _ s => .fail s⟩] else []
  drop _ s := s
  report _ s := s
  fetchFails := false

/-- A block of each, the first with its property. -/
theorem gcfgParseFile_ok_iff_shared :
    ∃ items, Shows volumeEnv [] () items [bytesOf "fat \x7b", bytesOf "label 7", bytesOf "\x7d",
        bytesOf "cpio \x7b", bytesOf "\x7d"] ∧
      volumeEnv.exec items none 0 = .ok () 1 := by
  have hval : (volumeEnv.gcfgParseFile () none [bytesOf "fat \x7b", bytesOf "label 7",
      bytesOf "\x7d", bytesOf "cpio \x7b", bytesOf "\x7d"] 0).val? = some () := by decide +kernel
  have hstate : (volumeEnv.gcfgParseFile () none [bytesOf "fat \x7b", bytesOf "label 7",
      bytesOf "\x7d", bytesOf "cpio \x7b", bytesOf "\x7d"] 0).state? = some 1 := by decide +kernel
  exact (gcfgParseFile_ok_iff.1 (Outcome.eq_ok hstate hval)).2

end ImageTool.Gcfg
