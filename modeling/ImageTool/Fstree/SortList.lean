import ImageTool.Lib.Chain

/-!
# Sorting a linked list

The merge sort on nodes that are linked by a pointer each, as `fstree_sort_node_list` and
`fstree_sort_node_list_by_type` do it on two of the pointers of a node.  The merge sort on
lists says what comes out.
-/

namespace ImageTool.Fstree

open Lib

section Sorting

variable {α : Type} [DecidableEq α]

/-- `*next_ptr = it`; `next_ptr` is the head of the list at first and then the pointer of a
node. -/
def storeNext (next : α → Option α) (head nextPtr it : Option α) : (α → Option α) × Option α :=
  match nextPtr with
  | none => (next, it)
  | some last => (Function.update next last it, head)

/-- The loop of `merge`; the first argument bounds it. -/
def mergeLoop (cb : α → α → Int) : Nat → (α → Option α) → Option α → Option α → Option α →
    Option α → Option ((α → Option α) × Option α)
  | 0, _, _, _, _, _ => none
  | fuel + 1, next, head, nextPtr, lhs, rhs =>
      match lhs, rhs with
      | some l, some r =>
          if cb l r ≤ 0 then
            let (next', head') := storeNext next head nextPtr (some l)
            mergeLoop cb fuel next' head' (some l) (next l) (some r)
          else
            let (next', head') := storeNext next head nextPtr (some r)
            mergeLoop cb fuel next' head' (some r) (some l) (next r)
      | lhs, rhs => some (storeNext next head nextPtr (if lhs ≠ none then lhs else rhs))

/-- `merge` and `merge_by_type`. -/
def mergeLinks (cb : α → α → Int) (fuel : Nat) (next : α → Option α) (lhs rhs : Option α) :
    Option ((α → Option α) × Option α) :=
  mergeLoop cb fuel next none none lhs rhs

/-- The loop that ends with `half` in the middle and `prev` in front of it. -/
def halveLoop (next : α → Option α) : Nat → Option α → Option α → Option α →
    Option (Option α × Option α)
  | _, none, half, prev => some (half, prev)
  | 0, some _, _, _ => none
  | _ + 1, some _, none, _ => none
  | fuel + 1, some it, some half, _ =>
      halveLoop next fuel ((next it).bind next) (next half) (some half)

/-- `fstree_sort_node_list` and `fstree_sort_node_list_by_type`; the second argument bounds
the loops and the depth. -/
def sortLinks (cb : α → α → Int) : Nat → (α → Option α) → Option α →
    Option ((α → Option α) × Option α)
  | 0, _, _ => none
  | fuel + 1, next, head => do
      match ← halveLoop next (fuel + 1) head head head with
      | (none, _) => some (next, head)
      | (some _, none) => none
      | (some half, some prev) =>
          -- the two calls touch different nodes, so their order does not matter
          let (next, lhs) ← sortLinks cb fuel (Function.update next prev none) head
          let (next, rhs) ← sortLinks cb fuel next (some half)
          mergeLinks cb (fuel + 1) next lhs rhs

end Sorting

section Specification

variable {α : Type} [DecidableEq α] {cb : α → α → Int} {next : α → Option α}
  {head nextPtr lhs rhs it half prev : Option α} {list left right : List α} {fuel : Nat}

/-- `cb(lhs, rhs) <= 0`. -/
def cbLe (cb : α → α → Int) (lhs rhs : α) : Bool := decide (cb lhs rhs ≤ 0)

/-- What `*next_ptr` reads. -/
def loadNext (next : α → Option α) (head nextPtr : Option α) : Option α :=
  match nextPtr with
  | none => head
  | some last => next last

theorem loadNext_storeNext : loadNext (storeNext next head nextPtr it).1
    (storeNext next head nextPtr it).2 nextPtr = it := by
  cases nextPtr with
  | none => rfl
  | some last => exact Function.update_self ..

theorem storeNext_head (hne : nextPtr ≠ none) : (storeNext next head nextPtr it).2 = head := by
  cases nextPtr with
  | none => exact absurd rfl hne
  | some last => rfl

theorem storeNext_of_ne {a : α} (hne : nextPtr ≠ some a) :
    (storeNext next head nextPtr it).1 a = next a := by
  cases nextPtr with
  | none => rfl
  | some last =>
      have hlast : a ≠ last := by
        intro heq
        rw [heq] at hne
        exact hne rfl
      exact Function.update_of_ne hlast ..

/-- What a loop that links nodes behind a place leaves: a chain from that place on, and the
other pointers as they were. -/
structure LinkedBehind (next : α → Option α) (head nextPtr : Option α) (nodes merged : List α)
    (next' : α → Option α) (head' : Option α) : Prop where
  chain : Chain next' (loadNext next' head' nextPtr) merged
  head_eq : nextPtr ≠ none → head' = head
  frame : ∀ a, a ∉ nodes → nextPtr ≠ some a → next' a = next a

theorem linkedBehind_store (head : Option α) (nodes : List α) (hit : Chain next it list)
    (hplace : ∀ a ∈ list, nextPtr ≠ some a) :
    LinkedBehind next head nextPtr nodes list (storeNext next head nextPtr it).1
      (storeNext next head nextPtr it).2 where
  chain := by
    rw [loadNext_storeNext]
    exact hit.congr fun a ha => storeNext_of_ne (hplace a ha)
  head_eq := storeNext_head
  frame a _ hne := storeNext_of_ne hne

/-- A node that is linked first stands first. -/
theorem LinkedBehind.cons {a : α} {nodes nodes' merged : List α} {next' : α → Option α}
    {head' : Option α}
    (h : LinkedBehind (storeNext next head nextPtr (some a)).1
      (storeNext next head nextPtr (some a)).2 (some a) nodes merged next' head')
    (hplace : ∀ c ∈ nodes', nextPtr ≠ some c) (ha : a ∈ nodes') (hsub : nodes ⊆ nodes') :
    LinkedBehind next head nextPtr nodes' (a :: merged) next' head' where
  chain := by
    refine ⟨?_, h.chain⟩
    have hne : (some a : Option α) ≠ none := Option.some_ne_none a
    cases nextPtr with
    | none => exact h.head_eq hne
    | some last =>
        have hlast : last ∉ nodes := fun hmem => hplace last (hsub hmem) rfl
        have hother : (some a : Option α) ≠ some last := fun heq => hplace a ha heq.symm
        have hkept := h.frame last hlast hother
        change next' last = some a
        rw [hkept]
        exact Function.update_self ..
  head_eq hne := by
    rw [h.head_eq (Option.some_ne_none a)]
    exact storeNext_head hne
  frame c hc hne := by
    have hother : (some a : Option α) ≠ some c := by
      intro heq
      cases heq
      exact hc ha
    rw [h.frame c (fun hmem => hc (hsub hmem)) hother]
    exact storeNext_of_ne hne

/-- The two lists are merged behind the place of `next_ptr`. -/
theorem mergeLoop_spec (cb : α → α → Int) (head : Option α)
    (hlhs : Chain next lhs left) (hrhs : Chain next rhs right)
    (hnodup : (left ++ right).Nodup) (hplace : ∀ a ∈ left ++ right, nextPtr ≠ some a)
    (hfuel : left.length + right.length < fuel) :
    ∃ next' head', mergeLoop cb fuel next head nextPtr lhs rhs = some (next', head') ∧
      LinkedBehind next head nextPtr (left ++ right) (left.merge right (cbLe cb)) next' head' := by
  induction fuel generalizing next head nextPtr lhs rhs left right with
  | zero => omega
  | succ fuel ih =>
      cases left with
      | nil =>
          rw [chain_nil] at hlhs
          subst hlhs
          have hstore := linkedBehind_store head ([] ++ right) hrhs hplace
          rw [List.nil_merge]
          exact ⟨_, _, rfl, hstore⟩
      | cons l left =>
          obtain ⟨rfl, hleft⟩ := hlhs
          cases right with
          | nil =>
              rw [chain_nil] at hrhs
              subst hrhs
              rw [List.append_nil] at hplace
              have hlhs : Chain next (some l) (l :: left) := ⟨rfl, hleft⟩
              have hstore := linkedBehind_store head (l :: left ++ []) hlhs hplace
              rw [List.merge_right]
              exact ⟨_, _, rfl, hstore⟩
          | cons r right =>
              obtain ⟨rfl, hright⟩ := hrhs
              simp only [List.length_cons] at hfuel
              -- storing a node does not touch what is still to be merged
              have hkeep : ∀ (it : Option α), ∀ a ∈ l :: left ++ r :: right,
                  (storeNext next head nextPtr it).1 a = next a :=
                fun it a ha => storeNext_of_ne (hplace a ha)
              have hlhs : ∀ it, Chain (storeNext next head nextPtr it).1 (some l) (l :: left) := by
                intro it
                have hchain : Chain next (some l) (l :: left) := ⟨rfl, hleft⟩
                exact hchain.congr fun a ha => hkeep it a (List.mem_append_left _ ha)
              have hrhs : ∀ it, Chain (storeNext next head nextPtr it).1 (some r) (r :: right) := by
                intro it
                have hchain : Chain next (some r) (r :: right) := ⟨rfl, hright⟩
                exact hchain.congr fun a ha => hkeep it a (List.mem_append_right _ ha)
              by_cases hle : cb l r ≤ 0
              · have hrest : left ++ r :: right ⊆ l :: left ++ r :: right := by simp
                have hnot := List.nodup_cons.1 hnodup
                have hplace' : ∀ a ∈ left ++ r :: right, (some l : Option α) ≠ some a := by
                  intro a ha heq
                  cases heq
                  exact hnot.1 ha
                have hchain := (hlhs (some l)).2
                rw [hkeep (some l) l (by simp)] at hchain
                obtain ⟨next', head', hloop, hlinked⟩ :=
                  ih _ hchain (hrhs (some l)) hnot.2 hplace'
                    (by simp only [List.length_cons]; omega)
                have hmerge : (l :: left).merge (r :: right) (cbLe cb) =
                    l :: left.merge (r :: right) (cbLe cb) := by
                  simp [cbLe, hle]
                rw [hmerge]
                refine ⟨next', head', ?_, hlinked.cons hplace (by simp) hrest⟩
                rw [mergeLoop, if_pos hle]
                exact hloop
              · have hrest : l :: left ++ right ⊆ l :: left ++ r :: right :=
                  ((List.Sublist.refl _).append (List.sublist_cons_self r right)).subset
                have hnot := List.nodup_cons.1 (List.nodup_middle.1 hnodup)
                have hplace' : ∀ a ∈ l :: left ++ right, (some r : Option α) ≠ some a := by
                  intro a ha heq
                  cases heq
                  exact hnot.1 ha
                have hchain := (hrhs (some r)).2
                rw [hkeep (some r) r (by simp)] at hchain
                obtain ⟨next', head', hloop, hlinked⟩ :=
                  ih _ (hlhs (some r)) hchain hnot.2 hplace'
                    (by simp only [List.length_cons]; omega)
                have hmerge : (l :: left).merge (r :: right) (cbLe cb) =
                    r :: (l :: left).merge right (cbLe cb) := by
                  simp [cbLe, hle]
                rw [hmerge]
                refine ⟨next', head', ?_, hlinked.cons hplace (by simp) hrest⟩
                rw [mergeLoop, if_neg hle]
                exact hloop

omit [DecidableEq α] in
/-- The loop over the list leaves `half` behind the first half of the nodes, rounded up, and
`prev` at the last node of that half. -/
theorem halveLoop_spec {steps rest : List α} (prev : Option α) (hit : Chain next it steps)
    (hhalf : Chain next half rest) (hle : steps.length ≤ rest.length)
    (hfuel : steps.length ≤ fuel) :
    ∃ half' prev', halveLoop next fuel it half prev = some (half', prev') ∧
      Chain next half' (rest.drop ((steps.length + 1) / 2)) ∧
      prev' = (rest.take ((steps.length + 1) / 2)).getLast?.or prev := by
  induction fuel generalizing it half prev steps rest with
  | zero =>
      cases List.length_eq_zero_iff.1 (Nat.le_zero.1 hfuel)
      rw [chain_nil] at hit
      subst hit
      exact ⟨half, prev, rfl, by simpa using hhalf, by simp⟩
  | succ fuel ih =>
      cases steps with
      | nil =>
          rw [chain_nil] at hit
          subst hit
          exact ⟨half, prev, rfl, by simpa using hhalf, by simp⟩
      | cons a steps =>
          obtain ⟨rfl, hsteps⟩ := hit
          cases rest with
          | nil => simp at hle
          | cons b rest =>
              obtain ⟨rfl, hrest⟩ := hhalf
              simp only [List.length_cons] at hle hfuel
              -- two nodes of the one list for each node of the other
              have hnext : Chain next ((next a).bind next) steps.tail := by
                cases steps with
                | nil =>
                    rw [chain_nil] at hsteps
                    rw [hsteps]
                    rfl
                | cons c steps =>
                    rw [hsteps.1]
                    exact hsteps.2
              have htail : steps.tail.length = steps.length - 1 := List.length_tail
              obtain ⟨half', prev', hloop, hchain, hprev⟩ :=
                ih (some b) hnext hrest (by omega) (by omega)
              have hcount : (steps.length + 1 + 1) / 2 = (steps.tail.length + 1) / 2 + 1 := by
                omega
              refine ⟨half', prev', hloop, ?_, ?_⟩
              · rw [List.length_cons, hcount, List.drop_succ_cons]
                exact hchain
              · rw [hprev, List.length_cons, hcount, List.take_succ_cons, List.getLast?_cons]
                cases (rest.take ((steps.tail.length + 1) / 2)).getLast? <;> simp

omit [DecidableEq α] in
/-- A list of more than one node is cut behind `prev`, and `half` is the next node. -/
theorem halveLoop_cut (h : Chain next head list) (hlength : 1 < list.length)
    (hfuel : list.length ≤ fuel) :
    ∃ front prev half back, halveLoop next fuel head head head = some (some half, some prev) ∧
      list = front ++ prev :: half :: back ∧ next prev = some half ∧
      front ++ [prev] = list.take ((list.length + 1) / 2) ∧
      half :: back = list.drop ((list.length + 1) / 2) := by
  obtain ⟨half, prev, hhalve, hback, hprev⟩ :=
    halveLoop_spec head h h (Nat.le_refl _) hfuel
  have htake : list.take ((list.length + 1) / 2) ≠ [] := by
    rw [← List.length_pos_iff, List.length_take]
    omega
  have hdrop : list.drop ((list.length + 1) / 2) ≠ [] := by
    rw [← List.length_pos_iff, List.length_drop]
    omega
  have hfront := List.dropLast_append_getLast htake
  rw [List.getLast?_eq_getLast_of_ne_nil htake, Option.some_or] at hprev
  obtain ⟨it, back, hsplit⟩ := List.exists_cons_of_ne_nil hdrop
  rw [hsplit] at hback
  have hwhole := List.take_append_drop ((list.length + 1) / 2) list
  rw [← hfront, hsplit, List.append_assoc, List.singleton_append] at hwhole
  rw [← hwhole] at h
  refine ⟨_, _, it, back, ?_, hwhole.symm, h.behind.1, hfront, hsplit.symm⟩
  rw [hhalve, hback.1, hprev]

omit [DecidableEq α] in
theorem halveLoop_short (h : Chain next head list) (hlength : list.length ≤ 1)
    (hfuel : list.length ≤ fuel) :
    ∃ prev, halveLoop next fuel head head head = some (none, prev) := by
  obtain ⟨half, prev, hhalve, hback, _⟩ :=
    halveLoop_spec head h h (Nat.le_refl _) hfuel
  have hdrop : list.drop ((list.length + 1) / 2) = [] := by
    rw [List.drop_eq_nil_iff]
    omega
  rw [hdrop, chain_nil] at hback
  rw [hback] at hhalve
  exact ⟨prev, hhalve⟩

omit [DecidableEq α] in
theorem mergeSort_short (le : α → α → Bool) (hlength : list.length ≤ 1) :
    list.mergeSort le = list := by
  match list, hlength with
  | [], _ => exact List.mergeSort_nil
  | [a], _ => exact List.mergeSort_singleton a

omit [DecidableEq α] in
theorem mergeSort_halves (le : α → α → Bool) (hlength : 1 < list.length) :
    list.mergeSort le = ((list.take ((list.length + 1) / 2)).mergeSort le).merge
      ((list.drop ((list.length + 1) / 2)).mergeSort le) le := by
  match list, hlength with
  | a :: b :: list, _ =>
      rw [List.mergeSort]
      simp

/-- The nodes are linked in the order of a merge sort on their list; other nodes are not
touched. -/
theorem sortLinks_spec (cb : α → α → Int) (h : Chain next head list) (hfuel : list.length < fuel) :
    ∃ next' head', sortLinks cb fuel next head = some (next', head') ∧
      Chain next' head' (list.mergeSort (cbLe cb)) ∧ ∀ a, a ∉ list → next' a = next a := by
  induction fuel generalizing next head list with
  | zero => omega
  | succ fuel ih =>
      by_cases hlength : list.length ≤ 1
      · obtain ⟨prev, hhalve⟩ := halveLoop_short h hlength (Nat.le_of_lt hfuel)
        rw [mergeSort_short _ hlength]
        refine ⟨next, head, ?_, h, fun _ _ => rfl⟩
        simp [sortLinks, hhalve]
      · have hmany : 1 < list.length := Nat.lt_of_not_le hlength
        obtain ⟨front, prev, half, back, hhalve, hsplit, hnext, hfront, hback⟩ :=
          halveLoop_cut h hmany (Nat.le_of_lt hfuel)
        have hsorted := mergeSort_halves (cbLe cb) hmany
        rw [← hfront, ← hback] at hsorted
        have hcount := congrArg List.length hsplit
        simp only [List.length_append, List.length_cons] at hcount
        rw [hsplit] at h
        have hnodup := h.nodup
        rw [← List.singleton_append, ← List.append_assoc] at hnodup
        have hapart := (List.nodup_append.1 hnodup).2.2
        obtain ⟨hleft, hright⟩ := h.cut
        rw [hnext] at hright
        -- the first half
        obtain ⟨next₁, lhs, hsort₁, hlhs, hkeep₁⟩ :=
          ih hleft (by simp only [List.length_append, List.length_singleton]; omega)
        have hright₁ : Chain next₁ (some half) (half :: back) :=
          hright.congr fun a ha => hkeep₁ a fun hmem => hapart a hmem a ha rfl
        -- the second half
        obtain ⟨next₂, rhs, hsort₂, hrhs, hkeep₂⟩ :=
          ih hright₁ (by simp only [List.length_cons]; omega)
        have hlhs₂ : Chain next₂ lhs ((front ++ [prev]).mergeSort (cbLe cb)) :=
          hlhs.congr fun a ha => hkeep₂ a fun hmem =>
            hapart a (List.mem_mergeSort.1 ha) a hmem rfl
        have hperm : ((front ++ [prev]).mergeSort (cbLe cb) ++
            (half :: back).mergeSort (cbLe cb)).Perm (front ++ [prev] ++ half :: back) :=
          (List.mergeSort_perm _ _).append (List.mergeSort_perm _ _)
        have hsum := hperm.length_eq
        simp only [List.length_append, List.length_cons, List.length_nil] at hsum
        obtain ⟨next', head', hmerge, hlinked⟩ := mergeLoop_spec cb none hlhs₂ hrhs
          (hperm.nodup_iff.2 hnodup) (fun a _ => (Option.some_ne_none a).symm)
          (show _ < fuel + 1 by omega)
        rw [← hsorted] at hlinked
        refine ⟨next', head', ?_, hlinked.chain, ?_⟩
        · simp only [sortLinks, hhalve, hsort₁, hsort₂, mergeLinks, hmerge, Option.bind_eq_bind,
            Option.bind_some]
        · intro a ha
          have hnot : a ∉ front ++ [prev] ++ half :: back := by
            intro hmem
            rw [List.append_assoc, List.singleton_append, ← hsplit] at hmem
            exact ha hmem
          have hmerged : a ∉ (front ++ [prev]).mergeSort (cbLe cb) ++
              (half :: back).mergeSort (cbLe cb) := fun hmem => hnot (hperm.mem_iff.1 hmem)
          rw [List.mem_append, not_or] at hnot
          have hprev : a ≠ prev := by
            intro heq
            rw [heq] at hnot
            exact hnot.1 (by simp)
          calc next' a = next₂ a := hlinked.frame a hmerged (Option.some_ne_none a).symm
            _ = next₁ a := hkeep₂ a hnot.2
            _ = Function.update next prev none a := hkeep₁ a hnot.1
            _ = next a := Function.update_of_ne hprev ..

end Specification

section Order

variable {α : Type} {cb : α → α → Int}

/-- A comparison that is a total preorder. -/
structure TotalPreorder (cb : α → α → Int) : Prop where
  trans : ∀ a b c, cb a b ≤ 0 → cb b c ≤ 0 → cb a c ≤ 0
  total : ∀ a b, cb a b ≤ 0 ∨ cb b a ≤ 0

/-- Two nodes compare equal. -/
def cbEqual (cb : α → α → Int) (lhs rhs : α) : Bool := cbLe cb lhs rhs && cbLe cb rhs lhs

/-- The same nodes in the order of a comparison; those that compare equal stand as before. -/
structure SortedStable (cb : α → α → Int) (list sorted : List α) : Prop where
  perm : sorted.Perm list
  ordered : sorted.Pairwise fun lhs rhs => cb lhs rhs ≤ 0
  stable : ∀ a, sorted.filter (cbEqual cb a) = list.filter (cbEqual cb a)

theorem sortedStable_mergeSort (h : TotalPreorder cb) (list : List α) :
    SortedStable cb list (list.mergeSort (cbLe cb)) := by
  have htrans : ∀ a b c, cbLe cb a b = true → cbLe cb b c = true → cbLe cb a c = true := by
    intro a b c hab hbc
    exact decide_eq_true (h.trans a b c (of_decide_eq_true hab) (of_decide_eq_true hbc))
  have htotal : ∀ a b, (cbLe cb a b || cbLe cb b a) = true := by
    intro a b
    simpa [cbLe] using h.total a b
  have hperm : (list.mergeSort (cbLe cb)).Perm list := List.mergeSort_perm list (cbLe cb)
  constructor
  · exact hperm
  · exact (List.pairwise_mergeSort htrans htotal list).imp of_decide_eq_true
  · intro a
    -- equal nodes are sorted as they stand
    have hequal : (list.filter (cbEqual cb a)).Pairwise fun b c => cbLe cb b c = true := by
      rw [List.pairwise_filter]
      apply List.pairwise_of_forall
      intro b c hb hc
      simp only [cbEqual, Bool.and_eq_true] at hb hc
      exact htrans b a c hb.2 hc.1
    have hsub : (list.filter (cbEqual cb a)).Sublist (list.mergeSort (cbLe cb)) :=
      List.sublist_mergeSort htrans htotal hequal List.filter_sublist
    have hfilter := hsub.filter (cbEqual cb a)
    rw [List.filter_filter] at hfilter
    simp only [Bool.and_self] at hfilter
    exact (hfilter.eq_of_length (hperm.filter _).length_eq.symm).symm

end Order

end ImageTool.Fstree
