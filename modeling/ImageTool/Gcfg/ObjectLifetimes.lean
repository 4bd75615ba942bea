import ImageTool.Gcfg.ParseRule
import ImageTool.Lib.Agreement

/-!
# The objects that the parser holds

Every callback of a keyword hands the parser a reference to an object, and the parser gives it
back with `object_drop`.  The runs of the parser are observed through a log beside the state.
-/

namespace ImageTool.Gcfg

open ImageTool.Lib ImageTool.Util

variable {κ ω σ : Type}

/-- What happens to the references of the parser. -/
inductive ObjectEvent (ω : Type) where
  | created (child : ω) (parent : Option ω)
  | dropped (obj : ω)

/-- A log that leaves some objects open, innermost first: an object is created for the innermost
open one, and dropped when it is itself the innermost. -/
inductive Nested (usr : Option ω) : List (ObjectEvent ω) → List ω → Prop
  | start : Nested usr [] []
  | created {log : List (ObjectEvent ω)} {st : List ω} (child : ω) (h : Nested usr log st) :
      Nested usr (log ++ [.created child (top usr st)]) (child :: st)
  | dropped {log : List (ObjectEvent ω)} {st : List ω} {child : ω}
      (h : Nested usr log (child :: st)) : Nested usr (log ++ [.dropped child]) st

/-- How often an object has been created, and how often dropped. -/
def creations [DecidableEq ω] (obj : ω) (log : List (ObjectEvent ω)) : Nat :=
  log.countP fun e => match e with
    | .created child _ => child = obj
    | .dropped _ => false

@[inherit_doc creations]
def drops [DecidableEq ω] (obj : ω) (log : List (ObjectEvent ω)) : Nat :=
  log.countP fun e => match e with
    | .created _ _ => false
    | .dropped o => o = obj

/-- An object is open as often as it has been created and not dropped. -/
theorem Nested.balance [DecidableEq ω] {usr : Option ω} {log : List (ObjectEvent ω)}
    {st : List ω} (h : Nested usr log st) (obj : ω) :
    creations obj log = drops obj log + st.count obj := by
  unfold creations drops
  induction h with
  | start => rfl
  | created child h ih =>
      rw [List.countP_append, List.countP_append, ih, List.count_cons, List.countP_singleton,
        List.countP_singleton]
      simp only [decide_eq_true_eq, beq_iff_eq, Bool.false_eq_true, if_false]
      omega
  | dropped h ih =>
      rw [List.countP_append, List.countP_append, ih, List.count_cons, List.countP_singleton,
        List.countP_singleton]
      simp only [decide_eq_true_eq, beq_iff_eq, Bool.false_eq_true, if_false]
      omega

/-! ## The log beside the state -/

/-- A state with a log. -/
abbrev Logged (ω σ : Type) := σ × List (ObjectEvent ω)

/-- A call that leaves the log alone. -/
def unlogged {α : Type} (m : Call σ α) : Call (Logged ω σ) α :=
  Call.zoom Prod.fst (fun s s' => (s', s.2)) m

/-- A call whose object is noted. -/
def noteCreated (parent : Option ω) (m : Call σ ω) : Call (Logged ω σ) ω := do
  let child ← unlogged m
  Call.modify fun s => (s.1, s.2 ++ [.created child parent])
  pure child

/-- A meta object of the state alone. -/
def loggedMeta (m : MetaObject σ) : MetaObject (Logged ω σ) where
  desc := m.desc
  setProperty i value := unlogged (m.setProperty i value)
  getProperty i := unlogged (m.getProperty i)

/-- A keyword whose objects are noted. -/
def Keyword.logged (kwd : Keyword κ ω σ) : Keyword κ ω (Logged ω σ) where
  arg := kwd.arg
  name := kwd.name
  handle arg parent := noteCreated parent (kwd.handle arg parent)
  children := kwd.children
  finalizeObject := kwd.finalizeObject.map fun f child => unlogged (f child)
  handleListing := kwd.handleListing.map fun f child line => unlogged (f child line)

/-- The callbacks as they are, with the references of the parser noted. -/
def Env.logged (env : Env κ ω σ) : Env κ ω (Logged ω σ) where
  keywords table := (env.keywords table).map Keyword.logged
  chain obj := (env.chain obj).map loggedMeta
  drop obj s := (env.drop obj s.1, s.2 ++ [.dropped obj])
  report r s := (env.report r s.1, s.2)
  fetchFails := env.fetchFails

/-- Callbacks that return. -/
structure Env.Returns (env : Env κ ω σ) : Prop where
  handle {table : κ} {kwd : Keyword κ ω σ} (hkwd : kwd ∈ env.keywords table) (arg : Arg)
    (parent : Option ω) (s : σ) : kwd.handle arg parent s ≠ .stuck
  finalize {table : κ} {kwd : Keyword κ ω σ} {f : ω → Call σ Unit}
    (hkwd : kwd ∈ env.keywords table) (hf : kwd.finalizeObject = some f) (child : ω) (s : σ) :
    f child s ≠ .stuck
  listing {table : κ} {kwd : Keyword κ ω σ} {feed : ω → List UInt8 → Call σ Bool}
    (hkwd : kwd ∈ env.keywords table) (hfeed : kwd.handleListing = some feed) (child : ω)
    (line : List UInt8) (s : σ) : feed child line s ≠ .stuck
  setProperty (obj : ω) (i : Nat) (value : PropertyValue) (s : σ) :
    objectSetProperty (env.chain obj) i value s ≠ .stuck

section Logged

variable {usr : Option ω} {st : List ω} {s : Logged ω σ} {α : Type}

/-- The parser holds the objects that the log leaves open. -/
def HoldsOpen (usr : Option ω) (st : List ω) (s : Logged ω σ) : Prop := Nested usr s.2 st

theorem unlogged_holdsOpen {m : Call σ α} (hm : m s.1 ≠ .stuck) (h : HoldsOpen usr st s) :
    Call.Ends (unlogged m s) (fun _ => HoldsOpen usr st) (HoldsOpen usr st) := by
  unfold unlogged
  rw [Call.zoom_apply]
  cases hres : m s.1 with
  | ok a s' => exact h
  | fail s' => exact h
  | stuck => exact absurd hres hm

theorem noteCreated_holdsOpen {m : Call σ ω} (hm : m s.1 ≠ .stuck) (h : HoldsOpen usr st s) :
    Call.Ends (noteCreated (top usr st) m s) (fun child => HoldsOpen usr (child :: st))
      (HoldsOpen usr st) := by
  refine (unlogged_holdsOpen hm h).bind ?_ fun _ => id
  intro child s h
  exact Nested.created child h

theorem metaFromPropertyIndex_logged (chain : List (MetaObject σ)) (idx : Nat) :
    metaFromPropertyIndex (chain.map loggedMeta) idx =
      (metaFromPropertyIndex chain idx).map fun p => (loggedMeta (ω := ω) p.1, p.2) := by
  induction chain generalizing idx with
  | nil => rfl
  | cons m chain ih =>
      have hcount : (loggedMeta (ω := ω) m).propertyCount = m.propertyCount := rfl
      rw [List.map_cons, metaFromPropertyIndex, metaFromPropertyIndex, hcount, ih]
      split <;> rfl

theorem objectSetProperty_logged (chain : List (MetaObject σ)) (i : Nat) (value : PropertyValue) :
    objectSetProperty (chain.map (loggedMeta (ω := ω))) i value =
      unlogged (objectSetProperty chain i value) := by
  unfold objectSetProperty
  rw [metaFromPropertyIndex_logged]
  cases metaFromPropertyIndex chain i <;> rfl

/-- The log follows the rule of the parser. -/
theorem logged_respects {env : Env κ ω σ} (h : env.Returns) (usr : Option ω) :
    Respects env.logged usr (fun _ _ => True)
      (fun kwd _ => ∃ table, kwd ∈ env.logged.keywords table) (HoldsOpen usr) where
  report hopen := hopen
  drop hopen := Nested.dropped hopen
  setProperty _ _ hopen := by
    rw [Env.logged, objectSetProperty_logged]
    exact unlogged_holdsOpen (h.setProperty _ _ _ _) hopen
  handle hkwd _ _ hopen := by
    obtain ⟨kwd, hmem, rfl⟩ := List.mem_map.1 hkwd
    refine (noteCreated_holdsOpen (h.handle hmem _ _ _) hopen).mono ?_ fun _ => id
    intro child s hchild
    exact ⟨⟨_, hkwd⟩, hchild⟩
  nested _ _ := trivial
  listing hmade hfeed _ hopen := by
    obtain ⟨table, hkwd⟩ := hmade
    obtain ⟨kwd, hmem, rfl⟩ := List.mem_map.1 hkwd
    obtain ⟨feed, hsource, rfl⟩ := Option.map_eq_some_iff.1 hfeed
    exact unlogged_holdsOpen (h.listing hmem hsource _ _ _) hopen
  finalize hmade hf hopen := by
    obtain ⟨table, hkwd⟩ := hmade
    obtain ⟨kwd, hmem, rfl⟩ := List.mem_map.1 hkwd
    obtain ⟨f, hsource, rfl⟩ := Option.map_eq_some_iff.1 hf
    exact unlogged_holdsOpen (h.finalize hmem hsource _ _) hopen

end Logged

/-! ## The log changes nothing -/

/-- The state beside the log. -/
def SameState (s : Logged ω σ) (t : σ) : Prop := s.1 = t

section SameState

variable {α : Type} {env : Env κ ω σ} {kwd : Keyword κ ω σ} {lines : List (List UInt8)}

theorem unlogged_agree (m : Call σ α) : Call.Agree (SameState (ω := ω)) (unlogged m) m := by
  rintro ⟨s, log⟩ t rfl
  unfold unlogged
  rw [Call.zoom_apply]
  change ((m s).mapState _).Agree SameState (m s)
  cases m s with
  | ok a s' => exact ⟨rfl, rfl⟩
  | fail s' => exact rfl
  | stuck => trivial

theorem noteCreated_agree (parent : Option ω) (m : Call σ ω) :
    Call.Agree SameState (noteCreated parent m) m := by
  have hm : (m >>= pure) = m := by
    funext s
    rw [Call.bind_apply]
    cases m s <;> rfl
  have hbind : Call.Agree SameState (noteCreated parent m) (m >>= pure) := by
    apply (unlogged_agree m).bind
    intro child s t hst
    exact ⟨rfl, hst⟩
  rwa [hm] at hbind

theorem refuse_agree (format : String) (shown : List UInt8) :
    Call.Agree SameState (env.logged.refuse (α := α) format shown) (env.refuse format shown) := by
  rintro ⟨s, log⟩ t rfl
  exact rfl

theorem reading_agree (result : Option (Except Report α)) :
    Call.Agree SameState (env.logged.reading result) (env.reading result) := by
  cases result with
  | none => exact Call.Agree.stuck
  | some result =>
      cases result with
      | error r => exact refuse_agree _ _
      | ok a => exact Call.Agree.pure a

theorem release_agree (child : ω) :
    Call.Agree SameState (env.logged.release child) (env.release child) := by
  apply Call.Agree.modify
  rintro ⟨s, log⟩ t rfl
  exact rfl

theorem orDrop_agree {m : Call (Logged ω σ) α} {m' : Call σ α} (child : ω)
    (h : Call.Agree SameState m m') :
    Call.Agree SameState (env.logged.orDrop child m) (env.orDrop child m') := by
  intro s t hst
  have hm := h s t hst
  unfold Env.orDrop
  cases hres : m s with
  | ok a s' =>
      rw [hres] at hm
      obtain ⟨t', heq, hst'⟩ := hm.ok_left
      rw [heq]
      exact ⟨rfl, hst'⟩
  | fail s' =>
      rw [hres] at hm
      obtain ⟨t', heq, hst'⟩ := hm.fail_left
      rw [heq]
      exact congrArg (env.drop child) hst'
  | stuck =>
      rw [hres] at hm
      rw [hm.stuck_left]
      trivial

theorem descs_logged (parent : Option ω) : env.logged.descs parent = env.descs parent := by
  cases parent with
  | none => rfl
  | some obj =>
      have hdesc : ∀ i, objectGetPropertyDesc ((env.chain obj).map (loggedMeta (ω := ω))) i =
          objectGetPropertyDesc (env.chain obj) i := by
        intro i
        unfold objectGetPropertyDesc
        rw [metaFromPropertyIndex_logged]
        cases metaFromPropertyIndex (env.chain obj) i <;> rfl
      have hcount : objectGetPropertyCount ((env.chain obj).map (loggedMeta (ω := ω))) =
          objectGetPropertyCount (env.chain obj) := by
        unfold objectGetPropertyCount
        rw [List.foldl_map]
        rfl
      change propertyDescs ((env.chain obj).map loggedMeta) = propertyDescs (env.chain obj)
      unfold propertyDescs
      rw [hcount]
      exact List.map_congr_left fun i _ => hdesc i

theorem setProperty_agree (parent : Option ω) (i : Nat) (desc : PropertyDesc)
    (value : PropertyValue) : Call.Agree SameState (env.logged.setProperty parent i desc value)
      (env.setProperty parent i desc value) := by
  cases parent with
  | none => exact Call.Agree.stuck
  | some obj =>
      intro s t hst
      have hset := unlogged_agree (objectSetProperty (env.chain obj) i value) s t hst
      unfold Env.setProperty
      simp only
      rw [show env.logged.chain obj = (env.chain obj).map loggedMeta from rfl,
        objectSetProperty_logged]
      cases hres : unlogged (objectSetProperty (env.chain obj) i value) s with
      | ok a s' =>
          rw [hres] at hset
          obtain ⟨t', heq, hst'⟩ := hset.ok_left
          rw [heq]
          exact ⟨rfl, hst'⟩
      | fail s' =>
          rw [hres] at hset
          obtain ⟨t', heq, hst'⟩ := hset.fail_left
          rw [heq]
          exact refuse_agree _ _ _ _ hst'
      | stuck =>
          rw [hres] at hset
          rw [hset.stuck_left]
          trivial

theorem applyReflectionArg_agree (line ptr : List UInt8) (parent : Option ω) (i : Nat)
    (desc : PropertyDesc) : Call.Agree SameState
      (env.logged.applyReflectionArg line ptr parent i desc)
      (env.applyReflectionArg line ptr parent i desc) := by
  apply (reading_agree _).bind
  rintro ⟨value, rest⟩
  exact (setProperty_agree parent i desc value).bind fun _ => Call.Agree.pure _

theorem plainListing_agree {feed : List UInt8 → Call (Logged ω σ) Bool}
    {feed' : List UInt8 → Call σ Bool}
    (hfeed : ∀ line, Call.Agree SameState (feed line) (feed' line)) :
    Call.Agree SameState (env.logged.plainListing feed lines) (env.plainListing feed' lines) := by
  induction lines with
  | nil => exact Call.Agree.ite Call.Agree.fail (refuse_agree _ _)
  | cons line lines ih =>
      refine Call.Agree.ite (refuse_agree _ _) ((hfeed line).bind ?_)
      intro last
      exact Call.Agree.ite (Call.Agree.ite (refuse_agree _ _)
        (Call.Agree.ite (refuse_agree _ _) (Call.Agree.pure _))) ih

theorem keywordBlock_agree
    {nested : κ → Option ω → List (List UInt8) → Call (Logged ω σ) (List (List UInt8))}
    {nested' : κ → Option ω → List (List UInt8) → Call σ (List (List UInt8))}
    (hnested : ∀ table parent lines,
      Call.Agree SameState (nested table parent lines) (nested' table parent lines))
    (child : ω) (ptr : List UInt8) : Call.Agree SameState
      (env.logged.keywordBlock nested kwd.logged child ptr lines)
      (env.keywordBlock nested' kwd child ptr lines) := by
  refine Call.Agree.ite (Call.Agree.ite ?_ ?_) (Call.Agree.ite ?_ (Call.Agree.pure _))
  · exact (release_agree child).bind fun _ => refuse_agree _ _
  · rw [Keyword.logged]
    cases hlisting : kwd.handleListing with
    | some feed => exact orDrop_agree child (plainListing_agree fun line => unlogged_agree _)
    | none =>
        cases hchildren : kwd.children with
        | none => exact (release_agree child).bind fun _ => refuse_agree _ _
        | some table => exact orDrop_agree child (hnested table (some child) lines)
  · exact (release_agree child).bind fun _ =>
      Call.Agree.ite (refuse_agree _ _) (refuse_agree _ _)

theorem finalize_agree (child : ω) : Call.Agree SameState (env.logged.finalize kwd.logged child)
    (env.finalize kwd child) := by
  unfold Env.finalize
  rw [Keyword.logged]
  cases hfinalize : kwd.finalizeObject with
  | none => exact Call.Agree.pure ()
  | some f => exact orDrop_agree child (unlogged_agree (f child))

theorem keywordLine_agree
    {nested : κ → Option ω → List (List UInt8) → Call (Logged ω σ) (List (List UInt8))}
    {nested' : κ → Option ω → List (List UInt8) → Call σ (List (List UInt8))}
    (hnested : ∀ table parent lines,
      Call.Agree SameState (nested table parent lines) (nested' table parent lines))
    (line ptr : List UInt8) (parent : Option ω) : Call.Agree SameState
      (env.logged.keywordLine nested kwd.logged line ptr parent lines)
      (env.keywordLine nested' kwd line ptr parent lines) := by
  refine Call.Agree.ite (refuse_agree _ _) (Call.Agree.ite (refuse_agree _ _) ?_)
  apply (reading_agree _).bind
  rintro ⟨arg, rest⟩
  apply (noteCreated_agree parent (kwd.handle arg parent)).bind
  intro child
  apply (keywordBlock_agree hnested child _).bind
  intro lines
  apply (finalize_agree child).bind
  intro _
  exact (release_agree child).bind fun _ => Call.Agree.pure _

theorem findKeyword_logged (keywords : List (Keyword κ ω σ)) (ptr : List UInt8) :
    findKeyword (keywords.map Keyword.logged) ptr =
      (findKeyword keywords ptr).map fun p => (p.1.logged, p.2) := by
  have hfind : (keywords.map Keyword.logged).findSome? (fun kwd =>
      (takeWord isWordEnd kwd.name ptr).map fun rest => (kwd, skipSpace rest)) =
      (keywords.findSome? fun kwd =>
        (takeWord isWordEnd kwd.name ptr).map fun rest => (kwd, skipSpace rest)).map
          fun p => (p.1.logged, p.2) := by
    induction keywords with
    | nil => rfl
    | cons kwd keywords ih =>
        rw [List.map_cons, List.findSome?_cons, List.findSome?_cons, ih,
          show kwd.logged.name = kwd.name from rfl]
        cases takeWord isWordEnd kwd.name ptr <;> rfl
  unfold findKeyword
  rw [hfind]
  split
  · rfl
  · cases keywords.findSome? fun kwd =>
      (takeWord isWordEnd kwd.name ptr).map fun rest => (kwd, skipSpace rest) <;> rfl

/-- The parser does the same with the log as without it. -/
theorem parse_agree (fuel : Nat) (table : κ) (parent : Option ω) (level : Nat) :
    Call.Agree SameState (env.logged.parse fuel table parent level lines)
      (env.parse fuel table parent level lines) := by
  induction fuel generalizing table parent level lines with
  | zero => exact Call.Agree.stuck
  | succ fuel ih =>
      cases lines with
      | nil =>
          exact Call.Agree.ite Call.Agree.fail
            (Call.Agree.ite (refuse_agree _ _) (Call.Agree.pure _))
      | cons line lines =>
          refine Call.Agree.ite (refuse_agree _ _) ?_
          simp only
          rw [descs_logged]
          cases findProperty (env.descs parent) 0 (skipSpace line) with
          | some found =>
              apply (applyReflectionArg_agree line _ parent _ _).bind
              intro rest
              exact Call.Agree.ite (refuse_agree _ _) (Call.Agree.ite (refuse_agree _ _)
                (ih table parent level))
          | none =>
              refine Call.Agree.ite ?_ (Call.Agree.ite ?_ ?_)
              · rw [show env.logged.keywords table = (env.keywords table).map Keyword.logged from
                  rfl, findKeyword_logged]
                cases findKeyword (env.keywords table) (skipSpace line) with
                | error r => exact refuse_agree _ _
                | ok p =>
                    apply (keywordLine_agree (fun table parent lines =>
                      ih table parent (level + 1)) line p.2 parent).bind
                    intro rest
                    exact ih table parent level
              · exact Call.Agree.ite (refuse_agree _ _)
                  (Call.Agree.ite (refuse_agree _ _) (Call.Agree.pure _))
              · exact Call.Agree.ite (refuse_agree _ _) (ih table parent level)

end SameState

/-- On every text and however it returns, the parser drops each object it was handed as often as
it was handed it, in the reverse order, and no object is created but for the innermost open
one. -/
theorem gcfgParseFile_nested [DecidableEq ω] {env : Env κ ω σ} (h : env.Returns) (table : κ)
    (usr : Option ω) (lines : List (List UInt8)) (s : σ) :
    ∃ s' log, (env.gcfgParseFile table usr lines s).state? = some s' ∧
      (env.logged.gcfgParseFile table usr lines (s, [])).state? = some (s', log) ∧
      Nested usr log [] ∧ ∀ obj, creations obj log = drops obj log := by
  have hopen : HoldsOpen usr [] (s, []) := Nested.start
  have hends : Call.Ends (env.logged.gcfgParseFile table usr lines (s, []))
      (fun _ => HoldsOpen usr []) (HoldsOpen usr []) :=
    (logged_respects h usr).gcfgParseFile trivial hopen
  have hagree : Call.Agree SameState (env.logged.gcfgParseFile table usr lines)
      (env.gcfgParseFile table usr lines) :=
    (parse_agree _ _ _ _).bind fun _ => Call.Agree.pure ()
  have hrun := hagree (s, []) s rfl
  have hbalance : ∀ log, Nested usr log [] → ∀ obj, creations obj log = drops obj log :=
    fun log hlog obj => hlog.balance obj
  cases hres : env.logged.gcfgParseFile table usr lines (s, []) with
  | ok _ r =>
      rw [hres] at hrun hends
      obtain ⟨t, heq, rfl⟩ := hrun.ok_left
      exact ⟨_, _, by rw [heq]; rfl, rfl, hends, hbalance _ hends⟩
  | fail r =>
      rw [hres] at hrun hends
      obtain ⟨t, heq, rfl⟩ := hrun.fail_left
      exact ⟨_, _, by rw [heq]; rfl, rfl, hends, hbalance _ hends⟩
  | stuck =>
      rw [hres] at hends
      exact hends.elim

/-- A keyword that takes a string and creates the next object, with blocks of the same keyword. -/
def nodeKeyword : Keyword Unit Nat Nat where
  arg := .string
  name := bytesOf "node"
  handle _ _ := fun s => .ok s (s + 1)
  children := some ()
  finalizeObject := none
  handleListing := none

/-- Callbacks that only count. -/
def nodeEnv : Env Unit Nat Nat where
  keywords _ := [nodeKeyword]
  chain _ := []
  drop _ s := s
  report _ s := s
  fetchFails := false

theorem nodeEnv_returns : nodeEnv.Returns where
  handle hkwd arg parent s := by
    rw [List.mem_singleton.1 hkwd]
    intro hstuck
    cases hstuck
  finalize hkwd hf child s := by
    rw [List.mem_singleton.1 hkwd] at hf
    cases hf
  listing hkwd hfeed child line s := by
    rw [List.mem_singleton.1 hkwd] at hfeed
    cases hfeed
  setProperty obj i value s := by
    intro hstuck
    cases hstuck

/-- A block that is not closed. -/
theorem gcfgParseFile_nested_unclosed :
    ∃ s' log, (nodeEnv.gcfgParseFile () none [bytesOf "node \"a\" \x7b"] 0).state? = some s' ∧
      (nodeEnv.logged.gcfgParseFile () none [bytesOf "node \"a\" \x7b"] (0, [])).state? =
        some (s', log) ∧
      Nested none log [] ∧ ∀ obj, creations obj log = drops obj log :=
  gcfgParseFile_nested nodeEnv_returns () none _ 0

end ImageTool.Gcfg
