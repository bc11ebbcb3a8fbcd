import Wednesday.BtreeRuns

/-!
Where an insert that reports failure has failed: at a page it was to make room
on, at the step from a page to its child, or at the leaf.
-/

namespace Wednesday

open Lib Prog Pager

section

variable {α : Type} {key value : Blob} {page parent root : PageRef}
  {index fuel : Nat} {s t u w : Sys}

theorem pagerUnfix_ne_failure : pagerUnfix page s ≠ .failure t := by
  intro h
  have hwp : wp (pagerUnfix page) (fun _ _ => True) (fun _ => False) (fun _ => True) s := by
    simp only [pagerUnfix, getPager, modifyPager, latchReleaseWrite, latchReleaseRead, wp_bind,
      wp_get, wp_pure, wp_ite, wp_modify, wp_assert]
    split <;> split <;> trivial
  exact hwp.failure h

theorem wp_pagerUnfix_of_all {Q : Unit → Sys → Prop} {E : Sys → Prop} (hQ : ∀ t, Q () t) :
    wp (pagerUnfix page) Q E (fun _ => True) s := by
  unfold wp
  cases hrun : pagerUnfix page s with
  | success _ t => exact hQ t
  | failure t => exact absurd hrun pagerUnfix_ne_failure
  | fault r => trivial

theorem tryCall_eq_failure {site : Site} {text : String} {m : Call α}
    (h : tryCall site text m s = .failure t) :
    ∃ u e, m s = .failure u ∧ t = { u with err := e } := by
  have hwp : wp (tryCall site text m) (fun _ _ => True)
      (fun t => ∃ u e, m s = .failure u ∧ t = { u with err := e }) (fun _ => True) s := by
    rw [tryCall, wp_recover]
    unfold wp
    cases hm : m s with
    | success a v => trivial
    | fault r => trivial
    | failure v =>
        change wp (do
          let s ← get
          failure site (errorGetCode s.err) ["try " ++ text]) _ _ _ v
        rw [wp_bind, wp_get, failure, wp_bind, wp_get, wp_bind, wp_ofExcept]
        cases reportFailure v.err site (errorGetCode v.err) ["try " ++ text] with
        | error r => trivial
        | ok e => exact ⟨v, e, rfl, rfl⟩
  exact hwp.failure h

/-- The decision and the split, with the parent still fixed. -/
def makeRoomBelow (key value : Blob) (parent child : PageRef) (index : Nat) : Call PageRef := do
  if needsSplit (← readPage child) key value then splitChild parent child index key
  else pure child

theorem descend_eq : descend parent key value = deferred (pagerUnfix parent) (do
    let (child, index) ← stepDown parent key
    makeRoomBelow key value parent child index) := by
  unfold descend
  congr 1
  funext s
  simp only [stepDown, bind_apply, readPage_apply, Outcome.bind_success]
  rcases pageFindPointer (s.page parent) key with ⟨found, index⟩
  cases found with
  | true =>
      simp only [failure, bind_apply, get_apply, Outcome.bind_success]
      cases reportFailure s.err ⟨"src/btree.c", "btree_insert_walk", 347⟩ EEXIST
        ["key already exists on page"] <;> rfl
  | false =>
      simp only [bind_apply]
      cases (assert (childAt (s.page parent) index ≠ 0) Fault.childZero : Call Unit) s with
      | success _ t =>
          simp only [Outcome.bind_success, bind_apply]
          cases tryCall ⟨"src/btree.c", "btree_insert_walk", 358⟩
            "pager_fix(btree->pager, next, true, &page)"
              (treeFix (childAt (s.page parent) index)) t <;> rfl
      | failure t => rfl
      | fault r => rfl

/-- The step down fails, or making room below does. -/
theorem descend_eq_failure (h : descend parent key value s = .failure w) :
    (∃ u, stepDown parent key s = .failure u ∧ pagerUnfix parent u = .success () w) ∨
    ∃ child index u, stepDown parent key s = .success (child, index) u ∧
      makeRoom key value child (some (parent, index)) u = .failure w := by
  rw [descend_eq] at h
  obtain ⟨u, hbody, hexit⟩ := deferred_eq_failure (fun _ _ => pagerUnfix_ne_failure) h
  rcases Outcome.bind_eq_failure.mp hbody with hstep | ⟨⟨child, index⟩, v, hstep, hroom⟩
  · exact Or.inl ⟨u, hstep, hexit⟩
  · refine Or.inr ⟨child, index, v, hstep, ?_⟩
    change deferred (pagerUnfix parent) (makeRoomBelow key value parent child index) v = .failure w
    exact deferred_failure hroom hexit

/-- The states in which an insert reports a failure from below the root, before its own cleanup. -/
inductive FailsBelow (key value : Blob) (s : Sys) : Sys → Prop where
  | makeRoom {parent page : PageRef} {index : Nat} {t u : Sys}
      (hvisit : Visit key value s (some (parent, index)) page t)
      (hfail : makeRoom key value page (some (parent, index)) t = .failure u) :
      FailsBelow key value s u
  | stepDown {page : PageRef} {t u v : Sys} (hreach : Reaches key value s page t)
      (hinner : pageIsInner (pageFlags (t.page page)) = true)
      (hfail : stepDown page key t = .failure u) (hexit : pagerUnfix page u = .success () v) :
      FailsBelow key value s v
  | insertLeaf {page : PageRef} {t u v : Sys} {e : ErrorState} (hreach : Reaches key value s page t)
      (hleaf : pageIsLeaf (pageFlags (t.page page)) = true)
      (hfail : insertLeaf page key value t = .failure u)
      (hexit : pagerUnfix page { u with err := e } = .success () v) : FailsBelow key value s v
  | trace {t : Sys} (h : FailsBelow key value s t) (e : ErrorState) :
      FailsBelow key value s { t with err := e }

theorem insertAtLeaf_failure {site : Site} {text : String} (hreach : Reaches key value s page t)
    (hleaf : pageIsLeaf (pageFlags (t.page page)) = true)
    (h : deferred (pagerUnfix page) (tryCall site text (insertLeaf page key value)) t =
      .failure w) :
    FailsBelow key value s w := by
  obtain ⟨u, hbody, hexit⟩ := deferred_eq_failure (fun _ _ => pagerUnfix_ne_failure) h
  obtain ⟨v, e, hfail, rfl⟩ := tryCall_eq_failure hbody
  exact .insertLeaf hreach hleaf hfail hexit

theorem btreeInsertWalk_failure (hreach : Reaches key value s page t)
    (h : btreeInsertWalk fuel page key value t = .failure w) : FailsBelow key value s w := by
  induction fuel generalizing page t w with
  | zero => cases h
  | succ fuel ih =>
      simp only [btreeInsertWalk, bind_apply, readPage_apply, Outcome.bind_success] at h
      by_cases hinner : pageIsInner (pageFlags (t.page page)) = true
      swap
      · simp [hinner] at h
      by_cases hspace : payloadPutLen (pageFlags (t.page page)) key value ≤ freeSpace (t.page page)
      swap
      · simp [hinner, hspace] at h
      simp only [hinner, hspace, assert_true, Outcome.bind_success, bind_apply] at h
      rcases Outcome.bind_eq_failure.mp h with hdescend | ⟨child, u, hdescend, hrest⟩
      · rcases descend_eq_failure hdescend with ⟨u, hstep, hexit⟩ | ⟨child, index, u, hstep, hroom⟩
        · exact .stepDown hreach hinner hstep hexit
        · obtain ⟨above, p, v, hvisit, hmade⟩ := hreach
          exact .makeRoom (.child hvisit hmade hinner hspace hstep) hroom
      · obtain ⟨next, index, v, hstep, hroom⟩ := descend_eq_success.mp hdescend
        have hchild : Reaches key value s child u := by
          obtain ⟨above, p, x, hvisit, hmade⟩ := hreach
          exact ⟨_, next, v, .child hvisit hmade hinner hspace hstep, hroom⟩
        rw [bind_apply, readPage_apply, Outcome.bind_success] at hrest
        split at hrest <;> rename_i hleaf
        · exact insertAtLeaf_failure hchild hleaf hrest
        · obtain ⟨x, e, hwalk, rfl⟩ := tryCall_eq_failure hrest
          exact .trace (ih hchild hwalk) e

theorem insertBelow_failure {v : PageRef} (hreach : Reaches key value s page t)
    (h : insertBelow fuel key value (t, page) = .failure (w, v)) :
    FailsBelow key value s w ∧ v = page := by
  simp only [insertBelow, bind_apply, readVar_apply, Outcome.bind_success,
    lift_apply, readPage_apply, Outcome.mapState_success] at h
  split at h <;> rename_i hleaf
  · obtain ⟨hrun, rfl⟩ := lift_eq_failure.mp h
    exact ⟨insertAtLeaf_failure hreach hleaf hrun, rfl⟩
  · obtain ⟨hrun, rfl⟩ := lift_eq_failure.mp h
    obtain ⟨u, e, hwalk, hw⟩ := tryCall_eq_failure hrun
    refine ⟨?_, rfl⟩
    rw [show w = { u with err := e } from hw]
    exact .trace (btreeInsertWalk_failure hreach hwalk) e

theorem deferGuard_ne_failure : deferGuard (pagerUnfix page) s ≠ .failure t := by
  intro h
  simp only [deferGuard, bind_apply, get_apply, Outcome.bind_success] at h
  split at h
  · cases h
  · exact pagerUnfix_ne_failure h

theorem makeRoom_root (hfull : needsSplit (t.page page) key value = true) :
    makeRoom key value page none t = splitRoot page key t := by
  simp only [makeRoom, bind_apply, readPage_apply, Outcome.bind_success, if_pos hfull]

/-- The pager gives the split of a root its first page and refuses it the second. -/
def HalvesRoot (key value : Blob) (s : Sys) : Prop :=
  ∃ root t split u v, fixRoot s = .success root t ∧ needsSplit (t.page root) key value = true ∧
    treeNext t = .success split u ∧ treeNext (u.halved root split) = .failure v

/-- The split of a root fails where one of its two pages is refused. -/
theorem splitRoot_failure (hfail : splitRoot page key t = .failure u) :
    tryCall ⟨"src/btree.c", "btree_insert", 400⟩ "pager_next(btree->pager, &split)" treeNext t =
      .failure u ∨
      ∃ split v w, treeNext t = .success split v ∧ treeNext (v.halved page split) = .failure w := by
  simp only [splitRoot, bind_apply] at hfail
  rcases Outcome.bind_eq_failure.mp hfail with hrefuse | ⟨split, v, hsplit, hfail⟩
  · exact Or.inl hrefuse
  rw [tryCall_eq_success] at hsplit
  rw [bind_apply, splitPage_apply] at hfail
  split at hfail
  · rw [Outcome.bind_success, bind_apply] at hfail
    rcases Outcome.bind_eq_failure.mp hfail with hfail | ⟨new, w, -, hfail⟩
    · obtain ⟨w, e, hrefuse, -⟩ := tryCall_eq_failure hfail
      exact Or.inr ⟨split, v, w, hsplit, hrefuse⟩
    · -- from here on pages are only written and unfixed
      generalize v.splitKey page split.id = splitKey at hfail
      have hwp : wp (deferred (pagerUnfix new) do
          let s ← get
          writePage new (pageInitRoot s.tree.pageSize (← readPage new) (pageFlags (← readPage page))
            page.id splitKey split.id)
          setRoot new.id
          if keyCompare key.data splitKey.data < 0 then do
            pagerUnfix split
            pure page
          else do
            pagerUnfix page
            pure split) (fun _ _ => True) (fun _ => False) (fun _ => True) w := by
        simp only [wp_deferred, wp_bind, wp_get, wp_readPage, wp_writePage,
          setRoot, wp_modify, wp_ite]
        split
        · exact wp_pagerUnfix_of_all fun _ => wp_pagerUnfix_of_all fun _ => trivial
        · exact wp_pagerUnfix_of_all fun _ => wp_pagerUnfix_of_all fun _ => trivial
      exact (hwp.failure hfail).elim
  · cases hfail

/-- The body of an insert fails at the split of the root or below it. -/
theorem insertBody_failure {v : PageRef} (hfix : fixRoot s = .success root t)
    (h : insertBody fuel root key value (t, root) = .failure (u, v)) :
    (needsSplit (t.page root) key value = true ∧ splitRoot root key t = .failure u ∧ v = root) ∨
      FailsBelow key value s u := by
  have hvisit : Visit key value s none root t := .root hfix
  simp only [insertBody, bind_apply, lift_apply, readPage_apply, Outcome.mapState_success,
    Outcome.bind_success] at h
  split at h <;> rename_i hfull
  · simp only [bind_apply] at h
    rcases Outcome.bind_eq_failure.mp h with hsplit | ⟨page, ⟨x, _⟩, hsplit, hbelow⟩
    · obtain ⟨hsplit, rfl⟩ := lift_eq_failure.mp hsplit
      exact Or.inl ⟨hfull, hsplit, rfl⟩
    · have hreach : Reaches key value s page x :=
        ⟨none, root, t, hvisit, (makeRoom_root hfull).trans (lift_eq_success.mp hsplit).1⟩
      exact Or.inr (insertBelow_failure hreach hbelow).1
  · refine Or.inr (insertBelow_failure ⟨none, root, t, hvisit, ?_⟩ h).1
    simp only [makeRoom, bind_apply, readPage_apply, Outcome.bind_success, if_neg hfull]
    rfl

/-- How an insert fails: it could not fix the root, could not split it, or has
failed below it. In the last two cases it has run its cleanup. -/
theorem btreeInsert_failure_cases (h : btreeInsert fuel key value s = .failure w) :
    fixRoot s = .failure w ∨
    (∃ root t u, fixRoot s = .success root t ∧ needsSplit (t.page root) key value = true ∧
      splitRoot root key t = .failure u ∧ deferGuard (pagerUnfix root) u = .success () w) ∨
    ∃ root u, FailsBelow key value s u ∧ deferGuard (pagerUnfix root) u = .success () w := by
  rw [btreeInsert_eq] at h
  rcases Outcome.bind_eq_failure.mp h with hfix | ⟨root, t, hfix, hrest⟩
  · exact Or.inl hfix
  · obtain ⟨u, v, hbody, hexit⟩ :=
      withVar_eq_failure (fun _ _ _ => deferGuard_ne_failure) hrest
    rcases insertBody_failure hfix hbody with ⟨hfull, hsplit, rfl⟩ | hbelow
    · exact Or.inr (Or.inl ⟨_, t, u, hfix, hfull, hsplit, hexit⟩)
    · exact Or.inr (Or.inr ⟨v, u, hbelow, hexit⟩)

/-- The states in which an insert reports failure before its own cleanup. -/
inductive FailsAt (key value : Blob) (s : Sys) : Sys → Prop where
  | makeRoom {above : Above} {page : PageRef} {t u : Sys} (hvisit : Visit key value s above page t)
      (hfail : makeRoom key value page above t = .failure u) : FailsAt key value s u
  | stepDown {page : PageRef} {t u v : Sys} (hreach : Reaches key value s page t)
      (hinner : pageIsInner (pageFlags (t.page page)) = true)
      (hfail : stepDown page key t = .failure u) (hexit : pagerUnfix page u = .success () v) :
      FailsAt key value s v
  | insertLeaf {page : PageRef} {t u v : Sys} {e : ErrorState} (hreach : Reaches key value s page t)
      (hleaf : pageIsLeaf (pageFlags (t.page page)) = true)
      (hfail : insertLeaf page key value t = .failure u)
      (hexit : pagerUnfix page { u with err := e } = .success () v) : FailsAt key value s v
  | trace {t : Sys} (h : FailsAt key value s t) (e : ErrorState) :
      FailsAt key value s { t with err := e }

theorem FailsBelow.failsAt (h : FailsBelow key value s u) : FailsAt key value s u := by
  induction h with
  | makeRoom hvisit hfail => exact .makeRoom hvisit hfail
  | stepDown hreach hinner hfail hexit => exact .stepDown hreach hinner hfail hexit
  | insertLeaf hreach hleaf hfail hexit => exact .insertLeaf hreach hleaf hfail hexit
  | trace _ e ih => exact .trace ih e

/-- An insert that fails could not fix the root, or has failed on its way and
run its cleanup. -/
theorem btreeInsert_failure (h : btreeInsert fuel key value s = .failure w) :
    fixRoot s = .failure w ∨ ∃ root u, FailsAt key value s u ∧
      deferGuard (pagerUnfix root) u = .success () w := by
  rcases btreeInsert_failure_cases h with hfix | ⟨root, t, u, hfix, hfull, hfail, hexit⟩ |
    ⟨root, u, hfails, hexit⟩
  · exact Or.inl hfix
  · exact Or.inr ⟨root, u, .makeRoom (.root hfix) ((makeRoom_root hfull).trans hfail), hexit⟩
  · exact Or.inr ⟨root, u, hfails.failsAt, hexit⟩

end

end Wednesday
