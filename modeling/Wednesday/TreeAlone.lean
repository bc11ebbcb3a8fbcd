import Wednesday.BtreeFailure
import Wednesday.Lib.Agree
import Wednesday.Lib.Machine
import Wednesday.TreeThreads

/-!
A client that is left alone in a call. Its steps follow `btree_table_insert` and
`btree_table_lookup`: they report the same and leave the same, but for the frames which the
enclosing `try` adds to the trace of an error.
-/

namespace Wednesday

open Lib Prog

/-- A step of a client as a step of a machine. -/
def advance {α : Type} : Outcome Fault Sys (TreeNext α) → Advance (α × Sys) (TableReply × Sys)
  | .success (.goto p) t => .goes (p, t)
  | .success (.ret reply) t => .halts (reply, t)
  | .failure _ => .stuck
  | .fault _ => .stuck

theorem advance_eq_goes {α : Type} {o : Outcome Fault Sys (TreeNext α)} {p : α} {t : Sys} :
    advance o = .goes (p, t) ↔ o = .success (.goto p) t := by
  cases o with
  | success next u => cases next <;> simp [advance]
  | failure u => simp [advance]
  | fault r => simp [advance]

theorem advance_eq_halts {α : Type} {o : Outcome Fault Sys (TreeNext α)}
    {reply : TableReply} {t : Sys} :
    advance o = .halts (reply, t) ↔ o = .success (.ret reply) t := by
  cases o with
  | success next u => cases next <;> simp [advance]
  | failure u => simp [advance]
  | fault r => simp [advance]

def insertNext (key value : Blob) (c : InsertPoint × Sys) :
    Advance (InsertPoint × Sys) (TableReply × Sys) :=
  advance (insertStep key value c.1 c.2)

def lookupNext (key : Blob) (c : LookupPoint × Sys) :
    Advance (LookupPoint × Sys) (TableReply × Sys) :=
  advance (lookupStep key c.1 c.2)

/-- The states differ in the trace of the error only. -/
def SameButTrace (s t : Sys) : Prop :=
  ∃ e : ErrorState, e.code = s.err.code ∧ t = { s with err := e }

/-- The call has failed, and the client is at this point. -/
def FailedAt {α : Type} (p : α) (u : Sys) (c : α × Sys) : Prop :=
  u.err.code ≠ 0 ∧ c.1 = p ∧ SameButTrace u c.2

/-- The call reports the code of the error it has failed with. -/
def FailsWith {α : Type} (next : α × Sys → Advance (α × Sys) (TableReply × Sys)) (u : Sys)
    (c : α × Sys) : Prop :=
  u.err.code ≠ 0 ∧ ∃ v, next c = .halts (.failed (errorGetCode u.err), v) ∧ SameButTrace u v

section

variable {α β : Type} {p q : α} {s t u : Sys} {page : PageRef} {c : α × Sys} {n : Nat}

theorem SameButTrace.refl (s : Sys) : SameButTrace s s := ⟨s.err, rfl, rfl⟩

theorem SameButTrace.retrace {e : ErrorState} (h : SameButTrace s t) (hcode : e.code = s.err.code) :
    SameButTrace { s with err := e } t := by
  obtain ⟨e', hcode', rfl⟩ := h
  exact ⟨e', hcode'.trans hcode.symm, rfl⟩

theorem FailedAt.here (hcode : u.err.code ≠ 0) : FailedAt p u (p, u) := ⟨hcode, rfl, .refl u⟩

/-- What a page is unfixed in does not depend on the errors. -/
theorem ignores_err_pagerUnfix (e : ErrorState) (page : PageRef) :
    Ignores (fun s : Sys => { s with err := e }) (pagerUnfix page) := by
  intro s
  simp only [pagerUnfix, getPager, modifyPager, latchReleaseWrite, latchReleaseRead,
    bind_apply, get_apply, Outcome.bind_success, pure_apply]
  split
  · simp only [bind_apply, modify_apply, get_apply, Outcome.bind_success, pure_apply, assert_apply]
    split <;> rfl
  · simp only [bind_apply, modify_apply, get_apply, Outcome.bind_success, pure_apply, assert_apply]
    split <;> rfl

theorem failure_code {site : Site} {code : Int} {texts : List String}
    (h : (failure site code texts : Call β) s = .failure u) : u.err.code = code ∧ code ≠ 0 := by
  by_cases hcode : code = 0
  · rw [failure, bind_apply, get_apply, Outcome.bind_success, reportFailure,
      errorPush, if_pos hcode] at h
    cases h
  · obtain ⟨e, hrun, he⟩ := failure_apply (α := β) site hcode texts s
    rw [hrun] at h
    cases h
    exact ⟨he, hcode⟩

theorem tryCall_code {site : Site} {text : String} {m : Call β}
    (h : tryCall site text m s = .failure u) :
    u.err.code ≠ 0 := by
  cases hm : m s with
  | success a v =>
      rw [tryCall, recover_success hm] at h
      cases h
  | failure v =>
      rw [tryCall, recover_failure hm] at h
      obtain ⟨heq, hne⟩ := failure_code h
      exact heq ▸ hne
  | fault r =>
      rw [tryCall, recover_fault hm] at h
      cases h

theorem pagerUnfix_err (h : pagerUnfix page s = .success () t) : t.err = s.err := by
  have hsame : pagerUnfix page s = (pagerUnfix page s).mapState fun s' =>
      { s' with err := s.err } :=
    ignores_err_pagerUnfix s.err page s
  rw [h, Outcome.mapState_success] at hsame
  have heq : t = { t with err := s.err } := by
    injection hsame
  rw [heq]

/-! ### What follows a call -/

variable {next : α × Sys → Advance (α × Sys) (TableReply × Sys)} {Q : β → Sys → α × Sys → Prop}

/-- The frame that a `try` adds does not show where only the code of the error is looked at. -/
theorem matches_tryCall {site : Site} {text : String} {m : Call β} {E : Sys → α × Sys → Prop}
    (hcode : ∀ u c, E u c → u.err.code ≠ 0)
    (htrace : ∀ (e : ErrorState) u c, E u c → e.code = u.err.code → E { u with err := e } c)
    (h : Matches next n (m s) c Q E) : Matches next n (tryCall site text m s) c Q E := by
  refine matches_recover h fun u c' hfailed => ?_
  obtain ⟨e, hrun, he⟩ := failure_apply (α := β) site (hcode u c' hfailed) ["try " ++ text] u
  have hfail : (do
      let s ← get
      failure site (errorGetCode s.err) ["try " ++ text] : Call β) u =
        .failure { u with err := e } := hrun
  rw [hfail]
  exact ⟨0, c', .here c', htrace e u c' hfailed he⟩

theorem FailedAt.tryCall {site : Site} {text : String} {m : Call β}
    (h : Matches next n (m s) c Q (FailedAt p)) :
    Matches next n (tryCall site text m s) c Q (FailedAt p) :=
  matches_tryCall (fun _ _ he => he.1)
    (fun _ _ _ he hcode => ⟨hcode.symm ▸ he.1, he.2.1, he.2.2.retrace hcode⟩) h

theorem FailsWith.tryCall {site : Site} {text : String} {m : Call β}
    (h : Matches next n (m s) c Q (FailsWith next)) :
    Matches next n (tryCall site text m s) c Q (FailsWith next) := by
  refine matches_tryCall (fun _ _ he => he.1) (fun e u c he hcode => ?_) h
  obtain ⟨hne, v, hhalts, hsame⟩ := he
  exact ⟨hcode.symm ▸ hne, v, hhalts.trans (by rw [errorGetCode, errorGetCode, hcode]),
    hsame.retrace hcode⟩

theorem matches_failure {site : Site} {code : Int} {texts : List String} (hcode : code ≠ 0)
    (hnext : next (p, s) = advance (recover (failure site code texts) (pure (.goto q)) s)) :
    Matches next n ((failure site code texts : Call β) s) (p, s) Q (FailedAt q) := by
  obtain ⟨e, he, hcode'⟩ := reportFailure_ok s.err site texts hcode
  have hrun : (failure site code texts : Call β) s = .failure { s with err := e } := by
    simp [failure, he]
  have hstep : (failure site code texts : Call (TreeNext α)) s = .failure { s with err := e } := by
    simp [failure, he]
  rw [recover_failure hstep] at hnext
  rw [hrun]
  exact ⟨1, _, .one hnext, .here (hcode' ▸ hcode)⟩

/-- A page is unfixed in a step of its own. -/
theorem matches_unfix {E : Sys → α × Sys → Prop}
    (hnext : ∀ v, next (p, v) = advance ((do pagerUnfix page; pure (TreeNext.goto q)) v)) :
    Matches next n (pagerUnfix page s) (p, s) (fun _ u c => c = (q, u)) E := by
  have hstep := hnext s
  rw [bind_apply] at hstep
  cases hrun : pagerUnfix page s with
  | success _ u =>
      rw [hrun] at hstep
      exact ⟨1, _, .one hstep, rfl⟩
  | failure u => exact absurd hrun pagerUnfix_ne_failure
  | fault r =>
      rw [hrun] at hstep
      exact Or.inl ⟨0, _, .here _, hstep⟩

theorem FailedAt.unfix {E : Sys → α × Sys → Prop} (h : FailedAt p s c)
    (hnext : ∀ v, next (p, v) = advance ((do pagerUnfix page; pure (TreeNext.goto q)) v)) :
    Matches next n (pagerUnfix page s) c (fun _ => FailedAt q) E := by
  obtain ⟨x, v⟩ := c
  obtain ⟨hcode, rfl, e, he, rfl⟩ := h
  have hstep := hnext { s with err := e }
  rw [bind_apply, ignores_err_pagerUnfix e page s] at hstep
  cases hrun : pagerUnfix page s with
  | success _ u =>
      have herr := pagerUnfix_err hrun
      rw [hrun] at hstep
      exact ⟨1, _, .one hstep, herr ▸ hcode, rfl, e, he.trans (herr ▸ rfl), rfl⟩
  | failure u => exact absurd hrun pagerUnfix_ne_failure
  | fault r =>
      rw [hrun] at hstep
      exact Or.inl ⟨0, _, .here _, hstep⟩

/-- A call that is made in a step of its own. -/
theorem matches_call {m : Call β} {k : β → Sys → α}
    (hsuccess : ∀ b u, m s = .success b u → next (p, s) = .goes (k b u, u))
    (hfailure : ∀ u, m s = .failure u → u.err.code ≠ 0 ∧ next (p, s) = .goes (q, u))
    (hfault : ∀ r, m s = .fault r → next (p, s) = .stuck) :
    Matches next n (m s) (p, s) (fun b u c => c = (k b u, u)) (FailedAt q) := by
  refine matches_step (fun b u hrun => ⟨_, hsuccess b u hrun, rfl⟩) (fun u hrun => ?_) hfault
  obtain ⟨hcode, hgoes⟩ := hfailure u hrun
  exact ⟨_, hgoes, .here hcode⟩

end

/-! ### Lookups -/

section

variable {key : Blob} {s t u : Sys} {page : PageRef} {n fuel : Nat}

theorem matches_fixChild (next : PageId) :
    Matches (lookupNext key) n (tryCall ⟨"src/btree.c", "btree_lookup", 466⟩
        "pager_fix(btree->pager, next, true, &child)" (treeFix next) s) (.fixChild page next, s)
      (fun child u c => c = (.visit child [page], u)) (FailedAt (.exit page none)) := by
  refine matches_call (fun child u h => ?_) (fun u h => ⟨tryCall_code h, ?_⟩) fun r h => ?_
  · simp [lookupNext, lookupStep, recover, h, advance]
  · simp [lookupNext, lookupStep, recover, h, advance]
  · simp [lookupNext, lookupStep, recover, h, advance]

/-- The loop of `btree_lookup`. -/
theorem matches_lookupLoop :
    Matches (lookupNext key) n (lookupLoop key n (s, page)) (.visit page [], s)
      (fun _ w c => c = (.visit w.2 [], w.1) ∧ pageIsInner (pageFlags (w.1.page w.2)) = false)
      fun w c => FailedAt (.exit w.2 none) w.1 c := by
  induction n generalizing s page with
  | zero => exact Or.inr ⟨_, .here _⟩
  | succ n ih =>
      simp only [lookupLoop, bind_apply, readVar_apply, Outcome.bind_success,
        lift_apply, readPage_apply, Outcome.mapState_success]
      rcases hfind : pageFindPointer (s.page page) key with ⟨found, index⟩
      by_cases hinner : pageIsInner (pageFlags (s.page page)) = true
      · rw [if_pos hinner]
        by_cases hnext : childAt (s.page page) index ≠ 0
        · have hvisit : lookupNext key (.visit page [], s) =
              .goes (.fixChild page (childAt (s.page page) index), s) := by
            simp [lookupNext, lookupStep, hinner, hfind, hnext, advance]
          simp only [bind_apply, assert_true hnext, Outcome.bind_success]
          rw [Nat.add_comm]
          refine Matches.after ?_ (.one hvisit)
          refine matches_lift_bind (matches_fixChild _) (fun _ _ h => h) fun child u c hfix => ?_
          rw [hfix]
          refine matches_lift_bind (matches_unfix (q := .visit child []) fun _ => rfl)
            (fun _ _ h => h) fun _ v c hunfix => ?_
          rw [hunfix]
          exact ih
        · simp only [bind_apply, assert_false hnext, Outcome.bind_fault]
          refine Or.inl ⟨0, _, .here _, ?_⟩
          simp [lookupNext, lookupStep, hinner, hfind, hnext, advance]
      · rw [if_neg hinner]
        exact ⟨0, _, .here _, rfl, eq_false_of_ne_true hinner⟩

/-- A lookup that has failed leaves the page and reports. -/
theorem FailedAt.leavePage {c : LookupPoint × Sys} {E : Sys → LookupPoint × Sys → Prop}
    (h : FailedAt (.exit page none) s c) :
    Matches (lookupNext key) n (pagerUnfix page s) c (fun _ => FailsWith (lookupNext key)) E := by
  obtain ⟨x, v⟩ := c
  obtain ⟨hcode, rfl, e, he, rfl⟩ := h
  have hunfix := ignores_err_pagerUnfix e page s
  have hstep : lookupNext key (.exit page none, { s with err := e }) =
      advance ((pagerUnfix page { s with err := e }).bind fun _ => retFailure) := rfl
  rw [hunfix] at hstep
  cases hrun : pagerUnfix page s with
  | success _ u =>
      have herr := pagerUnfix_err hrun
      rw [hrun] at hstep
      refine ⟨0, _, .here _, herr ▸ hcode, _, hstep.trans ?_, e, he.trans (herr ▸ rfl), rfl⟩
      rw [errorGetCode, herr, ← he]
      rfl
  | failure u => exact absurd hrun pagerUnfix_ne_failure
  | fault r =>
      rw [hrun] at hstep
      exact Or.inl ⟨0, _, .here _, hstep⟩

/-- The pages of a lookup that has returned are left, and its value is not decoded yet. -/
theorem matches_btreeLookup : Matches (lookupNext key) n (btreeLookup n key s) (.readRoot, s)
    (fun ptr u c => c = (.decode ptr, u)) (FailsWith (lookupNext key)) := by
  have hread : lookupNext key (.readRoot, s) = .goes (.fixRoot s.tree.root, s) := rfl
  refine Matches.resume ?_ (.one hread)
  rw [btreeLookup, bind_apply, get_apply, Outcome.bind_success, bind_apply]
  refine matches_bind (R := fun page u c => c = (.visit page [], u)) ?_ fun page u c hfix => ?_
  · cases hrun : tryCall ⟨"src/btree.c", "btree_lookup", 448⟩
        "pager_fix(btree->pager, btree->root, true, &page)" (treeFix s.tree.root) s with
    | success page u =>
        refine ⟨1, _, .one ?_, rfl⟩
        simp [lookupNext, lookupStep, recover, hrun, advance]
    | failure u =>
        refine ⟨0, _, .here _, tryCall_code hrun, u, ?_, .refl u⟩
        simp [lookupNext, lookupStep, recover, hrun, advance, retFailure]
    | fault r =>
        refine Or.inl ⟨0, _, .here _, ?_⟩
        simp [lookupNext, lookupStep, recover, hrun, advance]
  · rw [hfix]
    refine matches_withVar (P := fun ptr w c => c = (.exit w.2 (some ptr), w.1))
      (matches_bind matches_lookupLoop fun _ w c hloop => ?_) (fun ptr v page c h => ?_)
      fun v page c h => h.leavePage
    · obtain ⟨v, page⟩ := w
      obtain ⟨rfl, hleaf⟩ := hloop
      simp only [bind_apply, readVar_apply, Outcome.bind_success, lift_apply, readPage_apply,
        Outcome.mapState_success]
      rcases hfind : pageFindPointer (v.page page) key with ⟨found, index⟩
      cases found with
      | false =>
          have hcode : ENOENT ≠ 0 := by decide
          refine matches_lift (matches_failure (q := LookupPoint.exit page none) hcode ?_)
          show advance (lookupStep key (.visit page []) v) = _
          simp only [lookupStep, bind_apply, readPage_apply, Outcome.bind_success, hfind,
            if_neg (ne_true_of_eq_false hleaf)]
          rfl
      | true =>
          refine ⟨1, _, .one ?_, rfl⟩
          simp [lookupNext, lookupStep, hfind, hleaf, advance]
    · rw [h]
      exact matches_unfix fun _ => rfl

/-- Alone, the steps of a client match `btree_table_lookup`. -/
theorem matches_btreeTableLookup (id : Nat) :
    Matches (lookupNext (tableKey s.stack id)) n (btreeTableLookup n id s) (.readRoot, s)
      (fun blob u c => lookupNext (tableKey s.stack id) c = .halts (.found blob.bytes, u))
      (FailsWith (lookupNext (tableKey s.stack id))) := by
  rw [btreeTableLookup, bind_apply, get_apply, Outcome.bind_success, bind_apply]
  refine matches_bind (FailsWith.tryCall matches_btreeLookup) fun ptr u c hptr => ?_
  exact ⟨0, c, .here c, hptr ▸ rfl⟩

end

/-! ### Inserts -/

section

variable {key value : Blob} {s t u : Sys} {root top parent page : PageRef} {index n : Nat}

theorem insertLeaf_code (h : insertLeaf page key value s = .failure u) : u.err.code ≠ 0 := by
  simp only [insertLeaf, bind_apply, get_apply, readPage_apply, Outcome.bind_success] at h
  cases hdata : pageInsertLeaf s.stack s.tree.pageSize (s.page page) key value with
  | error r => simp [hdata] at h
  | ok result =>
      rw [hdata] at h
      cases result with
      | some data => cases h
      | none =>
          have hfail : (failure ⟨"src/btree.c", "page_insert_leaf", 265⟩ EEXIST
              ["key already exists on leaf page"] :
            Call Unit) s = .failure u := h
          rw [(failure_code hfail).1]
          decide

/-- The leaf, which is unfixed whether the row was placed or not. -/
theorem matches_atLeaf {site : Site} {text : String}
    (hleaf : pageIsLeaf (pageFlags (s.page page)) = true) :
    Matches (insertNext key value) n (deferred (pagerUnfix page)
      (tryCall site text (insertLeaf page key value)) s)
      (.visit top page [], s) (fun _ u c => c = (.exit top [] true, u))
      (FailedAt (.exit top [] false)) := by
  refine matches_deferred (P := fun _ u c => c = (.exit top [page] true, u))
    (F := FailedAt (.exit top [page] false))
    (FailedAt.tryCall (matches_call (fun _ u h => ?_) (fun u h => ⟨insertLeaf_code h, ?_⟩)
      fun r h => ?_))
    (fun _ u c h => ?_) fun u c h => h.unfix fun _ => rfl
  · simp [insertNext, insertStep, hleaf, recover, h, advance]
  · simp [insertNext, insertStep, hleaf, recover, h, advance]
  · simp [insertNext, insertStep, hleaf, recover, h, advance]
  · rw [h]
    exact matches_unfix fun _ => rfl

theorem insertInner_ne_failure {id : PageId} : insertInner page index key id s ≠ .failure u := by
  intro h
  have hwp : wp (insertInner page index key id) (fun _ _ => True) (fun _ => False)
      (fun _ => True) s :=
    wp_insertInner (fun _ _ => trivial) fun _ _ => trivial
  exact hwp.failure h

/-- After a split the half without the key is unfixed. -/
theorem matches_unfixHalf {q r : PageRef} {E : Sys → InsertPoint × Sys → Prop}
    {leave : List PageRef} :
    Matches (insertNext key value) n ((pagerUnfix q s).bind fun _ => pure r)
      (.visit top r (q :: leave), s)
      (fun half u c => half = r ∧ c = (.visit top r leave, u)) E :=
  matches_bind (matches_unfix (q := InsertPoint.visit top r leave) fun _ => rfl) fun _ _ c h =>
    ⟨0, c, .here c, rfl, h⟩

/-- The split of a child, down to the half with the key. -/
theorem matches_splitChild :
    Matches (insertNext key value) n (splitChild parent page index key s)
      (.splitChild top parent page index, s)
      (fun half u c => c = (.visit top half [parent], u))
      (FailedAt (.exit top [parent] false)) := by
  rw [splitChild, bind_apply]
  cases hnext : tryCall ⟨"src/btree.c", "btree_insert_walk", 364⟩ "pager_next(btree->pager, &split)"
    treeNext s with
  | fault r =>
      refine Or.inl ⟨0, _, .here _, ?_⟩
      simp [insertNext, insertStep, recover, hnext, advance]
  | failure u =>
      refine ⟨1, _, .one ?_, .here (tryCall_code hnext)⟩
      simp [insertNext, insertStep, recover, hnext, advance]
  | success split u =>
      simp only [Outcome.bind_success, bind_apply, splitPage_apply]
      by_cases hcut : cellCount (u.page page) / 2 ≠ 0
      · rw [if_pos hcut, Outcome.bind_success, bind_apply]
        cases hinsert : insertInner parent index (u.splitKey page split.id) split.id
          (u.halved page split) with
        | fault r =>
            refine Or.inl ⟨0, _, .here _, ?_⟩
            simp [insertNext, insertStep, recover, hnext, splitPage_apply, hcut, hinsert, advance]
        | failure v => exact absurd hinsert insertInner_ne_failure
        | success _ v =>
            rw [Outcome.bind_success]
            by_cases hcompare : keyCompare key.data (u.splitKey page split.id).data < 0
            · rw [if_pos hcompare]
              refine (matches_unfixHalf.mono (fun half w c h => h.1 ▸ h.2) fun _ _ h => h).resume
                (.one ?_)
              simp [insertNext, insertStep, recover, hnext, splitPage_apply, hcut,
                hinsert, hcompare, advance]
            · rw [if_neg hcompare]
              refine (matches_unfixHalf.mono (fun half w c h => h.1 ▸ h.2) fun _ _ h => h).resume
                (.one ?_)
              simp [insertNext, insertStep, recover, hnext, splitPage_apply, hcut,
                hinsert, hcompare, advance]
      · rw [if_neg hcut]
        refine Or.inl ⟨0, _, .here _, ?_⟩
        simp [insertNext, insertStep, recover, hnext, splitPage_apply, hcut, advance]

/-- The new root over the halves of the old one. -/
def growRoot (key : Blob) (root split : PageRef) (splitKey : Blob) : Call PageRef := do
  let new ← tryCall ⟨"src/btree.c", "btree_insert", 407⟩ "pager_next(btree->pager, &new)" treeNext
  deferred (pagerUnfix new) do
    let s ← get
    writePage new (pageInitRoot s.tree.pageSize (← readPage new) (pageFlags (← readPage root))
      root.id splitKey split.id)
    setRoot new.id
    if keyCompare key.data splitKey.data < 0 then do
      pagerUnfix split
      pure root
    else do
      pagerUnfix root
      pure split

theorem matches_growRoot {split : PageRef} {splitKey : Blob} :
    Matches (insertNext key value) n (growRoot key root split splitKey s)
      (.newRoot root split splitKey, s)
      (fun half u c => c = (.visit half half [], u)) (FailedAt (.exit root [] false)) := by
  rw [growRoot, bind_apply]
  cases hnext : tryCall ⟨"src/btree.c", "btree_insert", 407⟩ "pager_next(btree->pager, &new)"
    treeNext s with
  | fault r =>
      refine Or.inl ⟨0, _, .here _, ?_⟩
      simp [insertNext, insertStep, recover, hnext, advance]
  | failure u =>
      refine ⟨1, _, .one ?_, .here (tryCall_code hnext)⟩
      simp [insertNext, insertStep, recover, hnext, advance]
  | success new u =>
      rw [Outcome.bind_success]
      let data := pageInitRoot u.tree.pageSize (u.page new)
          (pageFlags (u.page root)) root.id splitKey split.id
      let v : Sys :=
        { u.written new data with tree := { (u.written new data).tree with root := new.id } }
      have hwrite : insertNext key value (.newRoot root split splitKey, s) =
          .goes (.setRoot root split new splitKey, u.written new data) := by
        simp [insertNext, insertStep, recover, hnext, writePage, modifyPager,
          advance, Sys.written, data]
      refine Matches.resume ?_ (.one hwrite)
      refine matches_deferred (P := fun half u c => c = (.visit half half [new], u))
        (F := fun _ _ => False) ?_
        (fun half w c h => ?_) fun _ _ h => h.elim
      · show Matches _ _ ((if keyCompare key.data splitKey.data < 0 then do
            pagerUnfix split
            pure root
          else do
            pagerUnfix root
            pure split : Call PageRef) v) _ _ _
        by_cases hcompare : keyCompare key.data splitKey.data < 0
        · rw [if_pos hcompare]
          refine (matches_unfixHalf.mono (fun half w c h => h.1 ▸ h.2) fun _ _ h => h).resume
            (.one ?_)
          simp [insertNext, insertStep, setRoot, hcompare, advance, v]
        · rw [if_neg hcompare]
          refine (matches_unfixHalf.mono (fun half w c h => h.1 ▸ h.2) fun _ _ h => h).resume
            (.one ?_)
          simp [insertNext, insertStep, setRoot, hcompare, advance, v]
      · rw [h]
        exact matches_unfix fun _ => rfl

/-- The split of the root, down to the half with the key. -/
theorem matches_splitRoot :
    Matches (insertNext key value) n (splitRoot root key s) (.splitRoot root, s)
      (fun half u c => c = (.visit half half [], u)) (FailedAt (.exit root [] false)) := by
  rw [splitRoot, bind_apply]
  cases hnext : tryCall ⟨"src/btree.c", "btree_insert", 400⟩ "pager_next(btree->pager, &split)"
    treeNext s with
  | fault r =>
      refine Or.inl ⟨0, _, .here _, ?_⟩
      simp [insertNext, insertStep, recover, hnext, advance]
  | failure u =>
      refine ⟨1, _, .one ?_, .here (tryCall_code hnext)⟩
      simp [insertNext, insertStep, recover, hnext, advance]
  | success split u =>
      rw [Outcome.bind_success, bind_apply, splitPage_apply]
      by_cases hcut : cellCount (u.page root) / 2 ≠ 0
      · rw [if_pos hcut, Outcome.bind_success, bind_apply]
        have hhalved : insertNext key value (.splitRoot root, s) =
            .goes (.newRoot root split (u.splitKey root split.id), u.halved root split) := by
          simp [insertNext, insertStep, recover, hnext, splitPage_apply, hcut, advance]
        exact matches_growRoot.resume (.one hhalved)
      · rw [if_neg hcut]
        refine Or.inl ⟨0, _, .here _, ?_⟩
        simp [insertNext, insertStep, recover, hnext, splitPage_apply, hcut, advance]

/-- From a child that is to be fixed, with its parent, to a child with room. -/
theorem matches_enter {child : PageId} :
    Matches (insertNext key value) n (deferred (pagerUnfix parent) (do
        let page ← tryCall ⟨"src/btree.c", "btree_insert_walk", 358⟩
          "pager_fix(btree->pager, next, true, &page)" (treeFix child)
        if needsSplit (← readPage page) key value then splitChild parent page index key
        else pure page) s)
      (.fixChild top parent index child, s) (fun page u c => c = (.visit top page [], u))
      (FailedAt (.exit top [] false)) := by
  refine matches_deferred (P := fun page u c => c = (.visit top page [parent], u))
    (F := FailedAt (.exit top [parent] false)) ?_ (fun page u c h => ?_) fun u c h =>
    h.unfix fun _ => rfl
  · rw [bind_apply]
    refine matches_bind (R := fun page u c => c = (if needsSplit (u.page page) key value then
      .splitChild top parent page index else .visit top page [parent], u)) ?_ fun page u c h => ?_
    · refine matches_call (fun page u h => ?_) (fun u h => ⟨tryCall_code h, ?_⟩) fun r h => ?_
      · simp [insertNext, insertStep, recover, h, advance]
      · simp [insertNext, insertStep, recover, h, advance]
      · simp [insertNext, insertStep, recover, h, advance]
    · rw [h, bind_apply, readPage_apply, Outcome.bind_success]
      by_cases hfull : needsSplit (u.page page) key value = true
      · rw [if_pos hfull, if_pos hfull]
        exact matches_splitChild
      · rw [if_neg hfull, if_neg hfull]
        exact ⟨0, _, .here _, rfl⟩
  · rw [h]
    exact matches_unfix fun _ => rfl

/-- `btree_insert_walk`. -/
theorem matches_btreeInsertWalk (hinner : pageIsInner (pageFlags (s.page parent)) = true) :
    Matches (insertNext key value) n (btreeInsertWalk n parent key value s)
      (.visit top parent [], s)
      (fun _ u c => c = (.exit top [] true, u)) (FailedAt (.exit top [] false)) := by
  induction n generalizing s parent with
  | zero => exact Or.inr ⟨_, .here _⟩
  | succ n ih =>
      have hleaf : ¬ pageIsLeaf (pageFlags (s.page parent)) = true := by
        rw [pageIsInner_eq] at hinner
        simpa using hinner
      simp only [btreeInsertWalk, bind_apply, readPage_apply, Outcome.bind_success,
        assert_true hinner]
      by_cases hspace : payloadPutLen (pageFlags (s.page parent)) key value ≤
        freeSpace (s.page parent)
      · rw [assert_true hspace, Outcome.bind_success, bind_apply]
        rcases hfind : pageFindPointer (s.page parent) key with ⟨found, index⟩
        cases found with
        | true =>
            have hdescend : descend parent key value s = deferred (pagerUnfix parent)
                (failure ⟨"src/btree.c", "btree_insert_walk", 347⟩ EEXIST
                  ["key already exists on page"]) s := by
              simp only [descend, deferred, bind_apply, readPage_apply, Outcome.bind_success, hfind]
            rw [hdescend]
            refine matches_bind (R := fun _ _ _ => False) ?_ fun _ _ _ h => h.elim
            refine matches_deferred (P := fun _ _ _ => False)
              (matches_failure (q := InsertPoint.exit top [parent] false)
              (show EEXIST ≠ 0 by decide) ?_)
              (fun _ _ _ h => h.elim) fun u c h => h.unfix fun _ => rfl
            simp [insertNext, insertStep, hleaf, hspace, hfind]
        | false =>
            by_cases hchild : childAt (s.page parent) index ≠ 0
            · have hvisit : insertNext key value (.visit top parent [], s) =
                  .goes (.fixChild top parent index (childAt (s.page parent) index), s) := by
                simp [insertNext, insertStep, hleaf, hspace, hfind, hchild, advance]
              have hdescend : descend parent key value s = deferred (pagerUnfix parent) (do
                  let page ← tryCall ⟨"src/btree.c", "btree_insert_walk", 358⟩
                    "pager_fix(btree->pager, next, true, &page)"
                      (treeFix (childAt (s.page parent) index))
                  if needsSplit (← readPage page) key value then splitChild parent page index key
                  else pure page) s := by
                simp only [descend, deferred, bind_apply, readPage_apply, Outcome.bind_success,
                  hfind, assert_true hchild]
              rw [hdescend, Nat.add_comm]
              refine Matches.after ?_ (.one hvisit)
              refine matches_bind matches_enter fun page u c h => ?_
              rw [h, bind_apply, readPage_apply, Outcome.bind_success]
              by_cases hleaf' : pageIsLeaf (pageFlags (u.page page)) = true
              · rw [if_pos hleaf']
                exact matches_atLeaf hleaf'
              · rw [if_neg hleaf']
                exact FailedAt.tryCall (ih (by simpa [pageIsInner_eq] using hleaf'))
            · have hdescend : descend parent key value s = .fault .childZero := by
                simp only [descend, deferred, bind_apply, readPage_apply, Outcome.bind_success,
                  hfind, assert_false hchild, Outcome.bind_fault]
              rw [hdescend, Outcome.bind_fault]
              refine Or.inl ⟨0, _, .here _, ?_⟩
              simp [insertNext, insertStep, hleaf, hspace, hfind, hchild, advance]
      · rw [assert_false hspace, Outcome.bind_fault]
        refine Or.inl ⟨0, _, .here _, ?_⟩
        simp [insertNext, insertStep, hleaf, hspace, advance]

/-- The guard of the root, after the insert has succeeded. -/
theorem matches_guard {E : Sys → InsertPoint × Sys → Prop} :
    Matches (insertNext key value) n (deferGuard (pagerUnfix root) s) (.exit root [] true, s)
      (fun _ u c => insertNext key value c = .halts (.inserted, u)) E := by
  have hstep : insertNext key value (.exit root [] true, s) =
      advance ((deferGuard (pagerUnfix root) s).bind fun _ => pure (.ret .inserted)) := rfl
  cases hrun : deferGuard (pagerUnfix root) s with
  | success _ u =>
      rw [hrun] at hstep
      exact ⟨0, _, .here _, hstep⟩
  | failure u => exact absurd hrun deferGuard_ne_failure
  | fault r =>
      rw [hrun] at hstep
      exact Or.inl ⟨0, _, .here _, hstep⟩

/-- The guard of the root, after the insert has failed. -/
theorem FailedAt.guard {c : InsertPoint × Sys} {E : Sys → InsertPoint × Sys → Prop}
    (h : FailedAt (.exit root [] false) s c) :
    Matches (insertNext key value) n (deferGuard (pagerUnfix root) s) c
      (fun _ => FailsWith (insertNext key value)) E := by
  obtain ⟨x, v⟩ := c
  obtain ⟨hcode, rfl, e, he, rfl⟩ := h
  have hrun (t : Sys) (ht : t.err.code ≠ 0) : deferGuard (pagerUnfix root) t =
      pagerUnfix root { t with cleanups := { t.cleanups with ran := t.cleanups.ran + 1 } } := by
    simp [deferGuard, errorGetCode, ht]
  have hunfix :=
    ignores_err_pagerUnfix e root
    { s with cleanups := { s.cleanups with ran := s.cleanups.ran + 1 } }
  have hstep : insertNext key value (.exit root [] false, { s with err := e }) =
      advance ((deferGuard (pagerUnfix root) { s with err := e }).bind fun _ => retFailure) := rfl
  rw [hrun _ (he.symm ▸ hcode), hunfix] at hstep
  rw [hrun s hcode]
  cases hroot :
    pagerUnfix root { s with cleanups := { s.cleanups with ran := s.cleanups.ran + 1 } } with
  | success _ u =>
      have herr := pagerUnfix_err hroot
      dsimp only at herr
      rw [hroot] at hstep
      refine ⟨0, _, .here _, herr ▸ hcode, _, hstep.trans ?_, e, he.trans (herr ▸ rfl), rfl⟩
      rw [errorGetCode, herr, ← he]
      rfl
  | failure u => exact absurd hroot pagerUnfix_ne_failure
  | fault r =>
      rw [hroot] at hstep
      exact Or.inl ⟨0, _, .here _, hstep⟩

theorem matches_insertBelow :
    Matches (insertNext key value) n (insertBelow n key value (s, page)) (.visit page page [], s)
      (fun _ w c => c = (.exit w.2 [] true, w.1)) fun w c =>
      FailedAt (.exit w.2 [] false) w.1 c := by
  rw [insertBelow, bind_apply, readVar_apply, Outcome.bind_success, bind_apply,
    lift_apply, readPage_apply, Outcome.mapState_success, Outcome.bind_success]
  by_cases hleaf : pageIsLeaf (pageFlags (s.page page)) = true
  · rw [if_pos hleaf]
    exact matches_lift (matches_atLeaf hleaf)
  · rw [if_neg hleaf]
    exact matches_lift (FailedAt.tryCall
      (matches_btreeInsertWalk (by simpa [pageIsInner_eq] using hleaf)))

/-- What an insert does once its cleanup is registered. -/
theorem matches_insertBody {c : InsertPoint × Sys}
    (hc : c = (if needsSplit (s.page root) key value then .splitRoot root
      else .visit root root [], s)) :
    Matches (insertNext key value) n (insertBody n root key value (s, root)) c
      (fun _ w c => c = (.exit w.2 [] true, w.1)) fun w c =>
      FailedAt (.exit w.2 [] false) w.1 c := by
  rw [hc, insertBody, bind_apply, lift_apply, readPage_apply, Outcome.mapState_success,
    Outcome.bind_success]
  by_cases hfull : needsSplit (s.page root) key value = true
  · rw [if_pos hfull, if_pos hfull, bind_apply]
    refine matches_lift_bind matches_splitRoot (fun _ _ h => h) fun half u c h => ?_
    rw [h, bind_apply, writeVar_apply, Outcome.bind_success]
    exact matches_insertBelow
  · rw [if_neg hfull, if_neg hfull]
    exact matches_insertBelow

theorem matches_fixRoot :
    Matches (insertNext key value) n (fixRoot s) (.fixRoot s.tree.root, s)
      (fun root u c => c = (if needsSplit (u.page root) key value then .splitRoot root
        else .visit root root [], u))
      (FailsWith (insertNext key value)) := by
  rw [fixRoot, bind_apply, get_apply, Outcome.bind_success, bind_apply]
  cases hfix : tryCall ⟨"src/btree.c", "btree_insert", 394⟩
      "pager_fix(btree->pager, btree->root, true, &root)" (treeFix s.tree.root) s with
  | fault r =>
      refine Or.inl ⟨0, _, .here _, ?_⟩
      simp [insertNext, insertStep, recover, hfix, advance]
  | failure u =>
      refine ⟨0, _, .here _, tryCall_code hfix, u, ?_, .refl u⟩
      simp [insertNext, insertStep, recover, hfix, advance, retFailure]
  | success root u =>
      refine ⟨1, _, .one ?_, rfl⟩
      simp [insertNext, insertStep, recover, hfix, registerCleanup, advance]

/-- Alone, the steps of a client match `btree_insert`. -/
theorem matches_btreeInsert : Matches (insertNext key value) n (btreeInsert n key value s)
    (.readRoot, s)
    (fun _ u c => insertNext key value c = .halts (.inserted, u))
    (FailsWith (insertNext key value)) := by
  have hread : insertNext key value (.readRoot, s) = .goes (.fixRoot s.tree.root, s) := rfl
  refine Matches.resume ?_ (.one hread)
  rw [btreeInsert_eq, bind_apply]
  refine matches_bind matches_fixRoot fun root u c hc => ?_
  refine matches_withVar (matches_insertBody hc) (fun _ v root c h => ?_) fun v root c h => h.guard
  rw [h]
  exact matches_guard

/-- Alone, the steps of a client match `btree_table_insert`. -/
theorem matches_btreeTableInsert (id : Nat) (row : Blob) :
    Matches (insertNext (tableKey s.stack id) (tableValue s.stack row)) n
      (btreeTableInsert n id row s) (.readRoot, s)
      (fun _ u c => insertNext (tableKey s.stack id) (tableValue s.stack row) c =
        .halts (.inserted, u))
      (FailsWith (insertNext (tableKey s.stack id) (tableValue s.stack row))) := by
  rw [btreeTableInsert, bind_apply, get_apply, Outcome.bind_success]
  exact matches_btreeInsert

end

/-! ### Clients -/

/-- A client in a call, as a machine. -/
def TreeClient.next (client : TreeClient) (x : TreePoint × Sys) :
    Advance (TreePoint × Sys) (TableReply × Sys) :=
  advance ({ client with point := x.1 }.step x.2)

/-- What a call alone leaves: on success the same, and on failure the same but for the trace. -/
def LeftAs (reply : TableReply) (t u : Sys) : Prop :=
  SameButTrace t u ∧ ((∀ code, reply ≠ .failed code) → u = t)

section

variable {κ : Type} {client : TreeClient} {call : TableCall} {reply : TableReply} {s t u : Sys}
  {c : κ} {n fuel : Nat}

theorem insertNext_eq (client : TreeClient) (x : InsertPoint × Sys) :
    client.next (.insert x.1, x.2) = (insertNext client.key client.value x).map fun y =>
      (.insert y.1, y.2) := by
  simp only [TreeClient.next, TreeClient.step, bind_apply, insertNext]
  cases insertStep client.key client.value x.1 x.2 with
  | success next t => cases next <;> rfl
  | failure t => rfl
  | fault r => rfl

theorem lookupNext_eq (client : TreeClient) (x : LookupPoint × Sys) :
    client.next (.lookup x.1, x.2) = (lookupNext client.key x).map fun y => (.lookup y.1, y.2) := by
  simp only [TreeClient.next, TreeClient.step, bind_apply, lookupNext]
  cases lookupStep client.key x.1 x.2 with
  | success next t => cases next <;> rfl
  | failure t => rfl
  | fault r => rfl

theorem LeftAs.failed {code : Int} (h : SameButTrace t u) : LeftAs (.failed code) t u :=
  ⟨h, fun hno => absurd rfl (hno code)⟩

theorem LeftAs.refl (reply : TableReply) (t : Sys) : LeftAs reply t t := ⟨.refl t, fun _ => rfl⟩

/-- What a machine halts with that has matched a call of the table. -/
theorem halts_of_matches {α β : Type} {next : α × Sys → Advance (α × Sys) (TableReply × Sys)}
    {x : α × Sys}
    {o : Outcome Fault Sys β} (report : β → TableReply)
    (h : Matches next n o x (fun b u c => next c = .halts (report b, u)) (FailsWith next))
    (ho : (∃ b, o = .success b t ∧ reply = report b) ∨ o = .failure t ∧
      reply = .failed (errorGetCode t.err)) :
    ∃ n u, Halts next n x (reply, u) ∧ LeftAs reply t u := by
  rcases ho with ⟨b, rfl, rfl⟩ | ⟨rfl, rfl⟩
  · obtain ⟨m, y, hgoes, hhalts⟩ := h
    exact ⟨m, t, ⟨y, hgoes, hhalts⟩, .refl _ t⟩
  · obtain ⟨m, y, hgoes, -, u, hhalts, hsame⟩ := h
    exact ⟨m, u, ⟨y, hgoes, hhalts⟩, .failed hsame⟩

theorem tableCall_insert_iff {id : Nat} {value : Blob} :
    tableCall fuel s (.insert id value) = some (reply, t) ↔
    (∃ b, btreeTableInsert fuel id value s = .success b t ∧ reply = .inserted) ∨
      btreeTableInsert fuel id value s = .failure t ∧ reply = .failed (errorGetCode t.err) := by
  rw [tableCall]
  cases btreeTableInsert fuel id value s with
  | success b u => simp [and_comm, eq_comm]
  | failure u =>
      simp only [Option.some.injEq, Prod.mk.injEq, Outcome.failure.injEq, reduceCtorEq, false_and,
        exists_false, false_or]
      constructor
      · rintro ⟨rfl, rfl⟩
        exact ⟨rfl, rfl⟩
      · rintro ⟨rfl, rfl⟩
        exact ⟨rfl, rfl⟩
  | fault r => simp

theorem tableCall_lookup_iff {id : Nat} : tableCall fuel s (.lookup id) = some (reply, t) ↔
    (∃ blob, btreeTableLookup fuel id s = .success blob t ∧ reply = .found blob.bytes) ∨
      btreeTableLookup fuel id s = .failure t ∧ reply = .failed (errorGetCode t.err) := by
  rw [tableCall]
  cases btreeTableLookup fuel id s with
  | success blob u => simp [and_comm, eq_comm]
  | failure u =>
      simp only [Option.some.injEq, Prod.mk.injEq, Outcome.failure.injEq, reduceCtorEq, false_and,
        exists_false, false_or]
      constructor
      · rintro ⟨rfl, rfl⟩
        exact ⟨rfl, rfl⟩
      · rintro ⟨rfl, rfl⟩
        exact ⟨rfl, rfl⟩
  | fault r => simp

/-- A call that returns is made by the client. -/
theorem halts_of_tableCall (hstack : s.stack = client.stack)
    (h : tableCall fuel s call = some (reply, t)) :
    ∃ n u, Halts (client.begin call).next n ((client.begin call).point, s) (reply, u) ∧
      LeftAs reply t u := by
  cases call with
  | insert id value =>
      have hmatch := matches_btreeTableInsert (s := s) (n := fuel) id value
      rw [hstack] at hmatch
      obtain ⟨n, u, hhalts, hleft⟩ := halts_of_matches (fun _ => .inserted) hmatch
          (tableCall_insert_iff.mp h)
      exact ⟨n, u, (halts_map (insertNext_eq (client.begin (.insert id value)))).mpr hhalts, hleft⟩
  | lookup id =>
      have hmatch := matches_btreeTableLookup (s := s) (n := fuel) id
      rw [hstack] at hmatch
      obtain ⟨n, u, hhalts, hleft⟩ := halts_of_matches (fun blob : Blob => .found blob.bytes) hmatch
          (tableCall_lookup_iff.mp h)
      exact ⟨n, u, (halts_map (lookupNext_eq (client.begin (.lookup id)))).mpr hhalts, hleft⟩

/-- A call that the client makes to its end returns. -/
theorem tableCall_of_halts (hstack : s.stack = client.stack)
    (h : Halts (client.begin call).next n ((client.begin call).point, s) (reply, u)) :
    ∃ t, tableCall (n + 1) s call = some (reply, t) ∧ LeftAs reply t u := by
  have hreturns : ∃ r t, tableCall (n + 1) s call = some (r, t) := by
    cases call with
    | insert id value =>
        have hmatch := matches_btreeTableInsert (s := s) (n := n + 1) id value
        rw [hstack] at hmatch
        have hret :=
          hmatch.returns ((halts_map (insertNext_eq (client.begin (.insert id value)))).mp h)
        cases hrun : btreeTableInsert (n + 1) id value s with
        | success b t => exact ⟨_, t, tableCall_insert_iff.mpr (Or.inl ⟨b, hrun, rfl⟩)⟩
        | failure t => exact ⟨_, t, tableCall_insert_iff.mpr (Or.inr ⟨hrun, rfl⟩)⟩
        | fault r => exact absurd hrun (hret r)
    | lookup id =>
        have hmatch := matches_btreeTableLookup (s := s) (n := n + 1) id
        rw [hstack] at hmatch
        have hret := hmatch.returns ((halts_map (lookupNext_eq (client.begin (.lookup id)))).mp h)
        cases hrun : btreeTableLookup (n + 1) id s with
        | success blob t => exact ⟨_, t, tableCall_lookup_iff.mpr (Or.inl ⟨blob, hrun, rfl⟩)⟩
        | failure t => exact ⟨_, t, tableCall_lookup_iff.mpr (Or.inr ⟨hrun, rfl⟩)⟩
        | fault r => exact absurd hrun (hret r)
  obtain ⟨r, t, hcall⟩ := hreturns
  obtain ⟨m, v, hhalts, hleft⟩ := halts_of_tableCall hstack hcall
  obtain ⟨-, heq⟩ := hhalts.unique h
  cases heq
  exact ⟨t, hcall, hleft⟩

variable [DecidableEq κ]

theorem seen_after (S : TreeThreads κ) (c : κ) (p : TreePoint) (t : Sys) :
    (S.after c p t).seen c = t := by
  simp [TreeThreads.seen, TreeThreads.after]

theorem next_after (S : TreeThreads κ) (c : κ) (p : TreePoint) (t : Sys) :
    ((S.after c p t).client c).next = (S.client c).next := by
  simp only [TreeThreads.after, Function.update_self]
  rfl

theorem after_after (S : TreeThreads κ) (c : κ) (p q : TreePoint) (t u : Sys) :
    (S.after c p t).after c q u = S.after c q u := by
  simp [TreeThreads.after]

/-- The run of a client that is left alone until its call returns. -/
theorem run_alone_iff {S T : TreeThreads κ} :
    Run TreeThreadStep S (List.replicate n (.acts c) ++ [.returns c call reply]) T ↔
    call = (S.client c).call ∧ ∃ t, T = S.after c .idle t ∧
      Halts (S.client c).next n ((S.client c).point, S.seen c) (reply, t) := by
  induction n generalizing S with
  | zero =>
      constructor
      · intro h
        cases h with
        | cons head tail =>
            cases tail
            cases head with
            | returns hstep => exact ⟨rfl, _, rfl, _, .here _, advance_eq_halts.mpr hstep⟩
      · rintro ⟨rfl, t, rfl, _, hgoes, hhalts⟩
        cases hgoes
        exact .cons (.returns (advance_eq_halts.mp hhalts)) (.nil _)
  | succ n ih =>
      rw [List.replicate_succ, List.cons_append]
      constructor
      · intro h
        cases h with
        | cons head tail =>
            cases head with
            | @acts _ p t hstep =>
                obtain ⟨hcall, u, hT, v, hgoes, hhalts⟩ := ih.mp tail
                rw [next_after, seen_after] at hgoes
                rw [after_after] at hT
                rw [next_after] at hhalts
                simp only [TreeThreads.after, Function.update_self] at hgoes hcall
                exact ⟨hcall, u, hT, v, .step (advance_eq_goes.mpr hstep) hgoes, hhalts⟩
      · rintro ⟨hcall, t, rfl, v, hgoes, hhalts⟩
        cases hgoes with
        | @step _ _ x _ head tail =>
            obtain ⟨p, u⟩ := x
            refine .cons (.acts (advance_eq_goes.mp head))
              (ih.mpr ⟨?_, t, (after_after ..).symm, v, ?_, ?_⟩)
            · simpa [TreeThreads.after] using hcall
            · rw [next_after, seen_after]
              simpa [TreeThreads.after] using tail
            · rwa [next_after]

/-- A call that no other client makes a step in is the call of the table: the one is made
to its end where the other returns, with the same report and, but for the trace of an error,
the same process. -/
theorem call_alone_is_table_call {S : TreeThreads κ} (hidle : (S.client c).point = .idle)
    (call : TableCall) :
    (∀ fuel reply t, tableCall fuel (S.seen c) call = some (reply, t) → ∃ n T,
      Run TreeThreadStep S (.begins c call ::
        (List.replicate n (.acts c) ++ [.returns c call reply])) T ∧
        LeftAs reply t (T.seen c)) ∧
    ∀ n reply T, Run TreeThreadStep S (.begins c call ::
      (List.replicate n (.acts c) ++ [.returns c call reply])) T →
      ∃ fuel t, tableCall fuel (S.seen c) call = some (reply, t) ∧ LeftAs reply t (T.seen c) := by
  have hstack : (S.seen c).stack = (S.client c).stack := rfl
  have hseen : (S.set c ((S.client c).begin call)).seen c = S.seen c := by
    cases call <;> simp [TreeThreads.seen, TreeThreads.set, TreeClient.begin]
  have hclient : (S.set c ((S.client c).begin call)).client c = (S.client c).begin call := by
    simp [TreeThreads.set]
  have hcall : ((S.client c).begin call).call = call := by
    cases call <;> rfl
  constructor
  · intro fuel reply t h
    obtain ⟨n, u, hhalts, hleft⟩ := halts_of_tableCall hstack h
    refine ⟨n, _, .cons (.begins hidle call) (run_alone_iff.mpr ⟨?_, u, rfl, ?_⟩), ?_⟩
    · rw [hclient, hcall]
    · rwa [hclient, hseen]
    · rwa [seen_after]
  · intro n reply T h
    cases h with
    | cons head tail =>
        cases head with
        | begins hidle' call =>
            obtain ⟨-, u, rfl, hhalts⟩ := run_alone_iff.mp tail
            rw [hclient, hseen] at hhalts
            obtain ⟨t, hrun, hleft⟩ := tableCall_of_halts hstack hhalts
            exact ⟨n + 1, t, hrun, by rwa [seen_after]⟩

end

/-- The third row of a table splits the root. -/
theorem call_alone_is_table_call_once : ∃ (S T : TreeThreads Bool) (n : Nat) (t : Sys),
    tableCall 2 (S.seen true) (.insert 3 (Blob.ofBytes (List.replicate 8 3))) =
      some (.inserted, t) ∧
      Run TreeThreadStep S (.begins true (.insert 3 (Blob.ofBytes (List.replicate 8 3))) ::
        (List.replicate n (.acts true) ++
          [.returns true (.insert 3 (Blob.ofBytes (List.replicate 8 3))) .inserted])) T ∧
      T.seen true = t ∧ T.shared.tree.root ≠ S.shared.tree.root := by
  have hrun : (filledRows 40 [(1, Blob.ofBytes (List.replicate 8 1)),
      (2, Blob.ofBytes (List.replicate 8 2))]).any (fun x =>
      (btreeTableInsert 2 3 (Blob.ofBytes (List.replicate 8 3))
          ((TreeThreads.ofTree Bool x.2.2).seen true)).value?.any fun y =>
        decide (y.2.tree.root ≠ x.2.2.tree.root)) = true := by
    decide +kernel
  obtain ⟨⟨_, _, s⟩, _, hrun⟩ := Option.any_eq_true _ _ |>.mp hrun
  obtain ⟨⟨_, t⟩, hvalue, hroot⟩ := Option.any_eq_true _ _ |>.mp hrun
  have hcall := tableCall_insert_iff.mpr (Or.inl ⟨(), Outcome.value?_eq_some.mp hvalue, rfl⟩)
  obtain ⟨n, T, hrun, -, hsame⟩ :=
    (call_alone_is_table_call (TreeThreads.starts_ofTree s |>.idle true) _).1 _ _ _ hcall
  obtain rfl := hsame fun code => by simp
  exact ⟨_, T, n, _, hcall, hrun, rfl, of_decide_eq_true hroot⟩

end Wednesday
