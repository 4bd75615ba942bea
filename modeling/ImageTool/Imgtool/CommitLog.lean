import ImageTool.Imgtool.Registrations

/-!
# What a commit does, in which order

The calls of a commit, over all registrations a configuration can make and whatever
the callbacks return.
-/

namespace ImageTool.Imgtool.DepTracker

open ImageTool.Lib

/-- The object whose turn it is; the volume of a file system is committed in the turn
of that file system. -/
def Event.turn : Event → Option Nat
  | .commit obj => some obj
  | .build fs => some fs
  | .commitVolume _ => none

/-- Every object is committed or built after everything that is stacked on it, and
the extra commit of a volume follows the building of its file system. -/
structure InOrder (rs : List Registration) (log : List Event) : Prop where
  stacked : ∀ pre e post o x, log = pre ++ e :: post → e.turn = some o → Stacked rs x o →
    (∃ e' ∈ pre, e'.turn = some x) ∧ ∀ e' ∈ post, e'.turn ≠ some x
  volume : ∀ pre fs post, log = pre ++ .commitVolume fs :: post →
    ∃ pre', pre = pre' ++ [.build fs]

/-- The first call for a node is its turn. -/
theorem events_eq (k : NodeKey) :
    ∃ e rest, events k = e :: rest ∧ e.turn = some k.obj ∧ ∀ e' ∈ rest, e'.turn = none := by
  unfold events
  cases k.type with
  | filesystem => exact ⟨_, _, rfl, rfl, by simp [Event.turn]⟩
  | volume => exact ⟨_, _, rfl, rfl, by simp⟩
  | partition => exact ⟨_, _, rfl, rfl, by simp⟩
  | partMgr => exact ⟨_, _, rfl, rfl, by simp⟩

section Log

variable {pre post log : List Event} {e : Event} {o : Nat}

/-- A turn in the calls of some nodes is that of one of them, behind all calls for the
nodes in front of it. -/
theorem split_of_turn {out : List NodeKey} (hlog : pre ++ e :: post <+: out.flatMap events)
    (hturn : e.turn = some o) : ∃ front k back, out = front ++ k :: back ∧ k.obj = o ∧
      pre = front.flatMap events ∧ ∀ e' ∈ post, e'.turn ≠ none →
        e' ∈ back.flatMap events := by
  induction out generalizing pre with
  | nil =>
      have hnil := List.prefix_nil.1 hlog
      simp at hnil
  | cons k out ih =>
      obtain ⟨e₀, rest, hevents, hturn₀, hrest⟩ := events_eq k
      rw [List.flatMap_cons] at hlog
      -- either the call lies behind those for the first node, or it is the first one
      by_cases hlen : (events k).length ≤ pre.length
      · have hfirst : events k <+: pre := by
          apply List.prefix_of_prefix_length_le (List.prefix_append _ (out.flatMap events)) _ hlen
          exact (List.prefix_append _ _).trans hlog
        obtain ⟨pre', rfl⟩ := hfirst
        rw [List.append_assoc, List.prefix_append_right_inj] at hlog
        obtain ⟨front, k', back, rfl, hobj, rfl, hpost⟩ := ih hlog
        exact ⟨k :: front, k', back, rfl, hobj, by rw [List.flatMap_cons], hpost⟩
      · cases pre with
        | nil =>
            rw [hevents, List.nil_append, List.cons_append] at hlog
            obtain ⟨heq, htail⟩ := List.cons_prefix_cons.1 hlog
            subst heq
            refine ⟨[], k, out, rfl, Option.some.inj (hturn₀.symm.trans hturn), rfl, ?_⟩
            intro e' he' hne
            rcases List.mem_append.1 (htail.subset he') with hmem | hmem
            · exact absurd (hrest e' hmem) hne
            · exact hmem
        | cons e₁ pre =>
            exfalso
            rw [hevents, List.cons_append, List.cons_append] at hlog
            obtain ⟨_, htail⟩ := List.cons_prefix_cons.1 hlog
            rw [hevents, List.length_cons, List.length_cons] at hlen
            have hmem : e ∈ rest := by
              have hlong : pre ++ [e] <+: rest ++ out.flatMap events := by
                refine List.IsPrefix.trans ⟨post, ?_⟩ htail
                rw [List.append_assoc, List.singleton_append]
              have hshort : pre ++ [e] <+: rest := by
                apply List.prefix_of_prefix_length_le hlong (List.prefix_append _ _)
                rw [List.length_append, List.length_singleton]
                omega
              exact hshort.subset (List.mem_append_right _ (List.mem_singleton.2 rfl))
            rw [hrest e hmem] at hturn
            cases hturn

/-- The volume of a file system is committed right behind its building. -/
theorem build_before_volume {out : List NodeKey} {fs : Nat}
    (hlog : pre ++ .commitVolume fs :: post <+: out.flatMap events) :
    ∃ pre', pre = pre' ++ [.build fs] := by
  induction out generalizing pre with
  | nil =>
      have hnil := List.prefix_nil.1 hlog
      simp at hnil
  | cons k out ih =>
      rw [List.flatMap_cons] at hlog
      by_cases hlen : (events k).length ≤ pre.length
      · have hfirst : events k <+: pre := by
          apply List.prefix_of_prefix_length_le (List.prefix_append _ (out.flatMap events)) _ hlen
          exact (List.prefix_append _ _).trans hlog
        obtain ⟨pre', rfl⟩ := hfirst
        rw [List.append_assoc, List.prefix_append_right_inj] at hlog
        obtain ⟨pre'', rfl⟩ := ih hlog
        exact ⟨events k ++ pre'', by rw [List.append_assoc]⟩
      · obtain ⟨e₀, rest, hevents, hturn₀, _⟩ := events_eq k
        cases pre with
        | nil =>
            exfalso
            rw [hevents, List.nil_append, List.cons_append] at hlog
            obtain ⟨heq, _⟩ := List.cons_prefix_cons.1 hlog
            rw [← heq] at hturn₀
            cases hturn₀
        | cons e₁ pre =>
            rw [List.length_cons] at hlen
            cases htype : k.type with
            | filesystem =>
                have hk : events k = [.build k.obj, .commitVolume k.obj] := by
                  unfold events
                  rw [htype]
                rw [hk] at hlog hlen
                change ¬ 2 ≤ pre.length + 1 at hlen
                have hpre : pre = [] := List.length_eq_zero_iff.1 (by omega)
                subst hpre
                obtain ⟨rfl, htail⟩ := List.cons_prefix_cons.1 hlog
                obtain ⟨heq, _⟩ := List.cons_prefix_cons.1 htail
                cases heq
                exact ⟨[], rfl⟩
            | volume =>
                unfold events at hlen
                rw [htype] at hlen
                simp at hlen
            | partition =>
                unfold events at hlen
                rw [htype] at hlen
                simp at hlen
            | partMgr =>
                unfold events at hlen
                rw [htype] at hlen
                simp at hlen

theorem inOrder_of_log {rs : List Registration} (h : Disciplined rs)
    {out left : List NodeKey}
    (helim : Elim (Below (registered rs).edges) (registered rs).keys out left)
    (hlog : log <+: out.flatMap events) : InOrder rs log where
  stacked := by
    intro pre e post o x hsplit hturn hstacked
    subst hsplit
    obtain ⟨front, k, back, rfl, hobj, rfl, hpost⟩ := split_of_turn hlog hturn
    have hnodup := helim.nodup (registered_linked rs).nodup
    have hk : k ∈ front ++ k :: back := List.mem_append_right _ (List.mem_cons_self ..)
    -- every node of the object below lies in front
    have hfront : ∀ kx ∈ (registered rs).keys, kx.obj = x → kx ∈ front := by
      intro kx hkx hx
      have hlt := idxOf_lt_of_stacked h helim hstacked hkx hx hobj hk
      have hkfront : k ∉ front := fun hmem =>
        List.disjoint_of_nodup_append hnodup hmem (List.mem_cons_self ..)
      rw [List.idxOf_append_of_notMem hkfront, List.idxOf_cons_self, Nat.add_zero] at hlt
      by_contra hnot
      rw [List.idxOf_append_of_notMem hnot] at hlt
      omega
    obtain ⟨kx, hkx, hx⟩ : ∃ kx ∈ (registered rs).keys, kx.obj = x := by
      obtain ⟨y, ⟨r, hr, hrx, _⟩, _⟩ := Relation.TransGen.head'_iff.1 hstacked
      exact ⟨r.child, child_mem_keys hr, hrx⟩
    constructor
    · obtain ⟨e', rest, hevents, hturn', _⟩ := events_eq kx
      refine ⟨e', List.mem_flatMap.2 ⟨kx, hfront kx hkx hx, ?_⟩, by rw [hturn', hx]⟩
      rw [hevents]
      exact List.mem_cons_self ..
    · intro e' he' hturn'
      have hback := hpost e' he' (by rw [hturn']; exact Option.some_ne_none x)
      obtain ⟨k', hk', hmem⟩ := List.mem_flatMap.1 hback
      have hobj' : k'.obj = x := by
        obtain ⟨e₀, rest, hevents, hturn₀, hrest⟩ := events_eq k'
        rw [hevents] at hmem
        rcases List.mem_cons.1 hmem with rfl | hmem
        · exact Option.some.inj (hturn₀.symm.trans hturn')
        · rw [hrest e' hmem] at hturn'
          cases hturn'
      have hkey : k' ∈ (registered rs).keys :=
        helim.mem_of_mem (List.mem_append_right _ (List.mem_cons_of_mem _ hk'))
      exact List.disjoint_of_nodup_append hnodup (hfront k' hkey hobj')
        (List.mem_cons_of_mem _ hk')
  volume := by
    intro pre fs post hsplit
    subst hsplit
    exact build_before_volume hlog

/-- Every file system is built once. -/
theorem count_build {out : List NodeKey} {fs : Nat} (hnodup : out.Nodup) :
    (out.flatMap events).count (.build fs) = if ⟨.filesystem, fs⟩ ∈ out then 1 else 0 := by
  induction out with
  | nil => rfl
  | cons k out ih =>
      obtain ⟨hk, hnodup'⟩ := List.nodup_cons.1 hnodup
      rw [List.flatMap_cons, List.count_append, ih hnodup']
      by_cases heq : k = ⟨.filesystem, fs⟩
      · subst heq
        rw [if_neg hk, if_pos (List.mem_cons_self ..)]
        simp [events]
      · have hzero : (events k).count (.build fs) = 0 := by
          rw [List.count_eq_zero]
          unfold events
          cases k with
          | mk type obj =>
              cases type with
              | filesystem =>
                  have hne : fs ≠ obj := fun h => heq (by rw [h])
                  simp [hne]
              | volume => simp
              | partition => simp
              | partMgr => simp
        have hiff : (⟨.filesystem, fs⟩ : NodeKey) ∈ k :: out ↔ ⟨.filesystem, fs⟩ ∈ out := by
          rw [List.mem_cons]
          exact ⟨fun h => h.resolve_left fun h' => heq h'.symm, Or.inr⟩
        rw [hzero, Nat.zero_add]
        exact if_congr hiff.symm rfl rfl

/-- A commit returns.  After registrations as the parser makes them it takes its turns
in order whatever the callbacks return, and where they all succeed it succeeds and
builds every file system once.  Where registrations form a cycle it fails. -/
theorem commit_inOrder (ret : Callbacks) (rs : List Registration) :
    ∃ s, (commit ret ⟨registered rs, []⟩).state? = some s ∧
      (Disciplined rs → InOrder rs s.log ∧ (AllSucceed ret →
        commit ret ⟨registered rs, []⟩ = .ok () s ∧
          ∀ fs parent, .addFs fs parent ∈ rs → s.log.count (.build fs) = 1)) ∧
      ((∃ k, Relation.TransGen (Below (registered rs).edges) k k) →
        commit ret ⟨registered rs, []⟩ = .fail s) := by
  have hlinked := registered_linked rs
  obtain ⟨out, left, l, s, helim, hl, hlog, hend⟩ := commit_committed ret hlinked
  rw [List.nil_append] at hlog
  refine ⟨s, ?_, ?_, ?_⟩
  · rcases hend with ⟨hok, _⟩ | ⟨hfail, _⟩
    · rw [hok]
      rfl
    · rw [hfail]
      rfl
  · intro h
    refine ⟨inOrder_of_log h helim (hlog ▸ hl), fun hall => ?_⟩
    rcases hend with ⟨hok, hleft, hlall⟩ | ⟨_, hstuck⟩
    · refine ⟨hok, ?_⟩
      intro fs parent hfs
      have hmem : (⟨.filesystem, fs⟩ : NodeKey) ∈ out := by
        have hkey := helim.perm.mem_iff.2 (child_mem_keys hfs)
        rwa [hleft, List.append_nil] at hkey
      rw [hlog, hlall, count_build (helim.nodup hlinked.nodup), if_pos hmem]
    · -- some node left waits for no other
      obtain ⟨hne, hwait⟩ := hstuck hall
      obtain ⟨x, hx, hfree⟩ := Elim.exists_free (fun k => rank rs k.obj) (below_rank_lt h) hne
      exact absurd (hwait x hx) hfree
  · rintro ⟨k, hcycle⟩
    rcases hend with ⟨_, hleft, _⟩ | ⟨hfail, _⟩
    · subst hleft
      exact absurd hcycle (helim.acyclic (fun c p hedge => hlinked.edges _ hedge) k)
    · exact hfail

end Log

/-- The object a call acts on; `volume` is what a file system has in its tree. -/
def Event.target (volume : Nat → Nat) : Event → Nat
  | .commit obj => obj
  | .build fs => fs
  | .commitVolume fs => volume fs

/-- Two file systems on one volume: the volume is committed when only one of them has
been built. -/
theorem commit_volume_early :
    ∃ rs volume s, Disciplined rs ∧ (∀ fs parent, .addFs fs parent ∈ rs → volume fs = parent) ∧
      commit (fun _ _ => true) ⟨registered rs, []⟩ = .ok () s ∧
      ∃ pre e post x, s.log = pre ++ e :: post ∧ Stacked rs x (e.target volume) ∧
        ∀ e' ∈ pre, e'.target volume ≠ x := by
  refine ⟨[.addFs 2 0, .addFs 1 0, .addVolume 0 none], fun _ => 0, _, ?_, ?_, rfl,
    [.build 2], .commitVolume 2, [.build 1, .commitVolume 1, .commit 0], 1, rfl, ?_, ?_⟩
  · refine ⟨⟨⟨trivial, ?_, ?_⟩, ?_, ?_⟩, ?_, ?_⟩
    · rintro ⟨r, hr, _⟩
      cases hr
    · intro p hp
      cases hp
    · rintro ⟨r, hr, hobj⟩
      rw [List.mem_singleton.1 hr] at hobj
      cases hobj
    · intro p hp
      cases hp
      exact ⟨_, List.mem_cons_self .., rfl, Or.inl rfl⟩
    · rintro ⟨r, hr, hobj⟩
      rcases List.mem_cons.1 hr with rfl | hr
      · cases hobj
      · rw [List.mem_singleton.1 hr] at hobj
        cases hobj
    · intro p hp
      cases hp
      exact ⟨_, List.mem_cons_of_mem _ (List.mem_cons_self ..), rfl, Or.inl rfl⟩
  · intro fs parent hfs
    simp only [List.mem_cons, Registration.addFs.injEq, reduceCtorEq, List.not_mem_nil,
      or_false] at hfs
    rcases hfs with ⟨_, rfl⟩ | ⟨_, rfl⟩ <;> rfl
  · exact Relation.TransGen.single
      ⟨.addFs 1 0, List.mem_cons_of_mem _ (List.mem_cons_self ..), rfl, rfl⟩
  · intro e' he'
    rw [List.mem_singleton.1 he']
    decide

end ImageTool.Imgtool.DepTracker
