import Wednesday.TreeLatches
import Wednesday.TreeAnswers

/-!
Inserts that fail, as lookups see them. A failure that `btree_insert` reports
comes from before its first change of a page, or from between the two pages of
a root split.
-/

namespace Wednesday

open Lib Prog Pager

/-- Whatever failure the call reports, every lookup answers as before; and the
failure is reported, not cut short by a failed assertion of a latch release. -/
def FailsUnseen (m : Call Unit) (s : Sys) : Prop :=
  wp m (fun _ _ => True) (fun t => ∀ key, ∃ answer, Answers s key answer ∧
    Answers t key answer) NoRelease s

/-- If the root is to be split, the pager has a page for its upper half. -/
def SpareHalf (key value : Blob) (s : Sys) : Prop :=
  ∀ page t, fixRoot s = .success page t → needsSplit (t.page page) key value = true → t.Spare 1

section

variable {type fuel : Nat} {nodes : PageId → TreeNode} {s s₀ t : Sys} {key value : Blob}
  {es : List TreeEvent}

/-- Lookups see the pages only. -/
theorem SamePages.answers (h : SamePages s t) (hok : s.PagerOk) (hok' : t.PagerOk)
    (hnodes : PagesHold type nodes s) (key : Blob) : ∃ answer, Answers s key answer ∧
    Answers t key answer := by
  obtain ⟨leaf, hroute⟩ := hnodes.exists_route key hnodes.root
  obtain ⟨data, hpage, -⟩ := hroute.end_leaf
  have hroute' : Route t key t.tree.root leaf := by
    rw [h.tree]
    exact hroute.congr h.pageAt.symm
  exact ⟨valueOn data key, answers_of_route hok hnodes hroute hpage,
    answers_of_route hok' (hnodes.same h) hroute' (h.pageAt ▸ hpage)⟩

/-- A failed insert changes no page, unless it fails below the root or halves it. -/
theorem btreeInsert_fails_same (hok : s.PagerOk) (hnodes : PagesHold type nodes s)
    (hkey : ¬ MeetsKey key value s) (hpages : ¬ RefusedBelow key value s)
    (hwhole : ¬ HalvesRoot key value s)
    (hspare : SpareHalf key value s) (hfail : btreeInsert fuel key value s = .failure t) :
    SamePages s t := by
  rcases btreeInsert_failure_cases hfail with hfix |
    ⟨root, u, v, hfix, hfull, hsplit, hexit⟩ | ⟨_, u, hbelow, -⟩
  · exact fixRoot_fails hok hnodes hfix
  · obtain ⟨hid, hfixes⟩ := fixRoot_fixes hok hfix
    have hthere : s.pageAt root.id ≠ none := hid ▸ hnodes.root
    have hnew : NewPage 1 u := (hnodes.fixes hfixes hthere).newPage (hspare root u hfix hfull)
    rcases splitRoot_failure hsplit with hrefuse | ⟨split, w, x, hnext, hrefuse⟩
    · have hsame := nextPage_refused_same hfixes.holding hnew hrefuse
      exact ((hfixes.samePages hthere).trans hsame).trans (deferGuard_same hexit)
    · exact absurd ⟨root, u, split, w, x, hfix, hfull, hnext, hrefuse⟩ hwhole
  · rcases hbelow.cause with hmeets | hrefused
    · exact absurd hmeets hkey
    · exact absurd hrefused hpages

/-- In every tree reached by allowed inserts, a failed insert is not seen by any
lookup, unless it comes to its key, is refused a page below the root, or is refused
the second page of a root split. -/
theorem failed_insert_unseen (hcreated : TreeCreated type s₀) (htype : IsTreeType type)
    (hsize : sizeofHeader ≤ s₀.tree.pageSize) (hrun : Run (AllowedStep type) s₀ es s)
    (hclear : errorGetCode s.err = 0) (hkey : ¬ MeetsKey key value s)
    (hpages : ¬ RefusedBelow key value s)
    (hwhole : ¬ HalvesRoot key value s) (hspare : SpareHalf key value s) :
    FailsUnseen (btreeInsert fuel key value) s := by
  obtain ⟨hok, nodes, hnodes⟩ := allowedRun_pagesHold hcreated htype hsize hrun
  unfold FailsUnseen wp
  cases hinsert : btreeInsert fuel key value s with
  | success _ t => trivial
  | failure t =>
      have hsame := btreeInsert_fails_same hok hnodes hkey hpages hwhole hspare hinsert
      have hok' := (kept_pagerOk.btreeInsert fuel key value).failure hok hinsert
      exact fun k => hsame.answers hok hok' hnodes k
  | fault r =>
      have hkeeps : KeepsLatches (btreeInsert fuel key value) s :=
        btreeInsert_keepsLatches hok hclear hkey hpages hwhole
      unfold KeepsLatches at hkeeps
      exact hkeeps.fault hinsert

end

/-! ### Computed failures -/

/-- A table whose pager refuses one call, with some rows. -/
def refusingTable (pageSize call : Nat) (rows : List (Blob × Blob)) : Option (Sys × Sys) := do
  let ((_, tree), s) ← (btreeCreate true PAGE_FLAG_TABLE
    { freshSys pageSize 16 with outage := fun n => n == call }).value?
  let t ← insertChecked 1 { s with tree := tree } rows
  some ({ s with tree := tree }, t)

theorem exists_refusingTable (pageSize call : Nat) (rows : List (Blob × Blob))
    (hopen : PagerOpened { freshSys pageSize 16 with outage := fun n => n == call })
    (hsize : pageSize < 65536)
    (hrows : ∀ row ∈ rows, KeyEncoded PAGE_FLAG_TABLE row.1.bytes ∧
      ValueEncoded PAGE_FLAG_TABLE row.2.bytes)
    {p : Sys → Sys → Bool}
      (h : (refusingTable pageSize call rows).any (fun x => p x.1 x.2) = true) :
    ∃ s₀ s, TreeCreated PAGE_FLAG_TABLE s₀ ∧
      Run (AllowedStep PAGE_FLAG_TABLE) s₀ (rows.map fun row => .insert row.1 row.2) s ∧
        p s₀ s = true := by
  obtain ⟨⟨s₀, s⟩, hsome, hp⟩ := Option.any_eq_true _ _ |>.mp h
  simp only [refusingTable, Option.bind_eq_bind, Option.bind_eq_some_iff, Prod.exists,
    Outcome.value?_eq_some, Option.some.injEq, Prod.mk.injEq] at hsome
  obtain ⟨object, tree, s₁, hcreated, t, hrun, rfl, rfl⟩ := hsome
  exact ⟨_, t, ⟨_, s₁, object, tree, hopen, hsize, hcreated, rfl⟩,
    run_of_insertChecked hrows hrun, hp⟩

/-- An insert that cannot split the root visits nothing else. -/
theorem Visit.root_only {key value : Blob} {s t u v : Sys} {page q : PageRef} {above : Above}
    (hfix : fixRoot s = .success page t) (hfail : makeRoom key value page none t = .failure u)
    (hvisit : Visit key value s above q v) : above = none ∧ q = page ∧ v = t := by
  induction hvisit with
  | root hfix' =>
      obtain ⟨rfl, rfl⟩ := Outcome.success.inj (hfix.symm.trans hfix')
      exact ⟨rfl, rfl, rfl⟩
  | child _ hroom _ _ _ ih =>
      obtain ⟨rfl, rfl, rfl⟩ := ih
      cases hfail.symm.trans hroom

/-- The pager has no page for the upper half of a root leaf. -/
theorem failed_insert_unseen_once : ∃ s t,
    btreeInsert 1 (sizedRow 3 8).1 (sizedRow 3 8).2 s = .failure t ∧
      FailsUnseen (btreeInsert 1 (sizedRow 3 8).1 (sizedRow 3 8).2) s := by
  obtain ⟨s₀, s, hcreated, hrun, hp⟩ :=
    exists_refusingTable 40 4 [sizedRow 1 8, sizedRow 2 8]
      ⟨40, 16, ⟨0, 1, 2⟩, freshSys 40 16, _, by decide, rfl⟩ (by decide)
      (by
        simp only [List.mem_cons, List.not_mem_nil, or_false, forall_eq_or_imp, forall_eq]
        exact ⟨sizedRow_encoded (by decide) (by decide), sizedRow_encoded (by decide) (by decide)⟩)
      (p := fun s₀ s => decide (s₀.tree.pageSize = 40) && decide (errorGetCode s.err = 0) &&
        (btreeInsert 1 (sizedRow 3 8).1 (sizedRow 3 8).2 s).failure?.isSome &&
        (rootVisit s).any fun (x : PageRef × Sys) =>
          (makeRoom (sizedRow 3 8).1 (sizedRow 3 8).2 x.1 none x.2).failure?.isSome &&
          (treeNext x.2).failure?.isSome &&
          decide (x.2.pager.pageCount + 1 < x.2.pager.size ∧ 1 + x.2.pager.nextPage < 2 ^ 32))
      (by decide +kernel)
  simp only [Bool.and_eq_true, decide_eq_true_eq, Option.isSome_iff_exists,
    Outcome.failure?_eq_some] at hp
  obtain ⟨⟨⟨hsize, hclear⟩, u, hfails⟩, hroot⟩ := hp
  obtain ⟨⟨page, t⟩, hfix, hcheck⟩ := Option.any_eq_true _ _ |>.mp hroot
  simp only [Bool.and_eq_true, decide_eq_true_eq, Option.isSome_iff_exists,
    Outcome.failure?_eq_some] at hcheck
  obtain ⟨⟨⟨w, hstuck⟩, v, hrefuse⟩, hspare⟩ := hcheck
  rw [rootVisit, Outcome.value?_eq_some] at hfix
  refine ⟨s, u, hfails, failed_insert_unseen hcreated (Or.inl rfl) ?_ hrun hclear ?_ ?_ ?_ ?_⟩
  · rw [hsize]
    decide
  · rintro ⟨q, w, ⟨above, p, x, hvisit, hroom⟩, -⟩
    obtain ⟨rfl, rfl, rfl⟩ := hvisit.root_only hfix hstuck
    cases hstuck.symm.trans hroom
  · rintro (⟨⟨above, p, x, hvisit, hroom⟩, -, -⟩ | ⟨hvisit, -, -⟩)
    · obtain ⟨rfl, rfl, rfl⟩ := hvisit.root_only hfix hstuck
      cases hstuck.symm.trans hroom
    · cases (hvisit.root_only hfix hstuck).1
  · rintro ⟨q, w, split, x, y, hfix', -, hnext, -⟩
    obtain ⟨rfl, rfl⟩ := Outcome.success.inj (hfix.symm.trans hfix')
    cases hrefuse.symm.trans hnext
  · intro q w hfix' _
    obtain ⟨rfl, rfl⟩ := Outcome.success.inj (hfix.symm.trans hfix')
    exact ⟨hspare.1, hspare.2⟩

/-- The pager has a page for the upper half of a root leaf, but none for the new root:
the row in the upper half is not found any more. -/
theorem halved_root_loses_rows : ¬ ∀ (s₀ s : Sys) (es : List TreeEvent)
    (fuel : Nat) (key value : Blob), TreeCreated PAGE_FLAG_TABLE s₀ →
    sizeofHeader ≤ s₀.tree.pageSize →
    Run (AllowedStep PAGE_FLAG_TABLE) s₀ es s → errorGetCode s.err = 0 →
    KeyEncoded PAGE_FLAG_TABLE key.bytes → ValueEncoded PAGE_FLAG_TABLE value.bytes →
    FailsUnseen (btreeInsert fuel key value) s := by
  intro h
  obtain ⟨s₀, s, hcreated, hrun, hp⟩ :=
    exists_refusingTable 40 5 [sizedRow 1 8, sizedRow 2 8]
      ⟨40, 16, ⟨0, 1, 2⟩, freshSys 40 16, _, by decide, rfl⟩ (by decide)
      (by
        simp only [List.mem_cons, List.not_mem_nil, or_false, forall_eq_or_imp, forall_eq]
        exact ⟨sizedRow_encoded (by decide) (by decide), sizedRow_encoded (by decide) (by decide)⟩)
      (p := fun s₀ s => decide (s₀.tree.pageSize = 40) && decide (errorGetCode s.err = 0) &&
        decide (lookupValue 1 (sizedRow 2 8).1 s.idle = some (some (sizedRow 2 8).2.bytes)) &&
        (btreeInsert 1 (sizedRow 3 8).1 (sizedRow 3 8).2 s).failure?.any fun t =>
          decide (lookupValue 1 (sizedRow 2 8).1 t.idle = some none))
      (by decide +kernel)
  simp only [Bool.and_eq_true, decide_eq_true_eq] at hp
  obtain ⟨⟨⟨hsize, hclear⟩, hbefore⟩, hafter⟩ := hp
  have henc := sizedRow_encoded (by decide : 3 < 128) (by decide : 8 < 128)
  have hunseen := h s₀ s _ 1 (sizedRow 3 8).1 (sizedRow 3 8).2 hcreated (by
    rw [hsize]
    decide) hrun hclear henc.1 henc.2
  obtain ⟨t, hfail, hlost⟩ := Option.any_eq_true _ _ |>.mp hafter
  obtain ⟨answer, hs, ht⟩ := hunseen.failure (Outcome.failure?_eq_some.mp hfail) (sizedRow 2 8).1
  have hsome := hs.2 1 _ hbefore
  have hnone := ht.2 1 _ (decide_eq_true_eq.mp hlost)
  rw [← hnone] at hsome
  cases hsome

end Wednesday
