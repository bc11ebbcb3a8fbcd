import Wednesday.Cleanup

/-!
The way of an insert down the tree. The insert fixes one page after the other,
makes room on each of them before it goes on, and ends at a leaf. A visit is a
page the insert has fixed, in the state in which it decides whether to split it.
-/

namespace Wednesday

open Lib Prog

/-- What stands on a fixed page. -/
def Sys.page (s : Sys) (page : PageRef) : Mem := (s.pager.header page.frame).data

@[simp] theorem readPage_apply (page : PageRef) (s : Sys) :
    readPage page s = .success (s.page page) s := rfl

@[simp] theorem wp_readPage {Q : Mem → Sys → Prop} {E : Sys → Prop} {F : Fault → Prop}
    (page : PageRef) (s : Sys) : wp (readPage page) Q E F s ↔ Q (s.page page) s := Iff.rfl

@[simp] theorem wp_writePage {Q : Unit → Sys → Prop} {E : Sys → Prop} {F : Fault → Prop}
    (page : PageRef) (data : Mem) (s : Sys) : wp (writePage page data) Q E F s ↔
      Q () { s with pager := s.pager.writeData page.frame data } := Iff.rfl

/-! ### The stages of an insert -/

/-- The page above a fixed page, with the position its search found; there is
none above the root. -/
abbrev Above := Option (PageRef × Nat)

/-- The first lines of `btree_insert`. -/
def fixRoot : Call PageRef := do
  let s ← get
  let root ← tryCall ⟨"src/btree.c", "btree_insert", 394⟩
    "pager_fix(btree->pager, btree->root, true, &root)" (treeFix s.tree.root)
  registerCleanup
  pure root

/-- From a fixed parent to the child its search finds. -/
def stepDown (parent : PageRef) (key : Blob) : Call (PageRef × Nat) := do
  let header ← readPage parent
  match pageFindPointer header key with
  | (true, _) =>
      failure ⟨"src/btree.c", "btree_insert_walk", 347⟩ EEXIST ["key already exists on page"]
  | (false, index) => do
      let next := childAt header index
      assert (next ≠ 0) .childZero
      let page ← tryCall ⟨"src/btree.c", "btree_insert_walk", 358⟩
        "pager_fix(btree->pager, next, true, &page)" (treeFix next)
      pure (page, index)

/-- The decision on a fixed page and the split it may lead to. -/
def makeRoom (key value : Blob) (page : PageRef) : Above → Call PageRef
  | none => do
      if needsSplit (← readPage page) key value then splitRoot page key else pure page
  | some (parent, index) => deferred (pagerUnfix parent) do
      if needsSplit (← readPage page) key value then splitChild parent page index key
      else pure page

/-- The pages an insert fixes on its way from the state `s`, with the state in
which it decides whether to split them. -/
inductive Visit (key value : Blob) (s : Sys) : Above → PageRef → Sys → Prop where
  | root {page : PageRef} {t : Sys} (hfix : fixRoot s = .success page t) :
      Visit key value s none page t
  | child {above : Above} {page parent child : PageRef} {index : Nat} {t u v : Sys}
      (hvisit : Visit key value s above page t)
      (hroom : makeRoom key value page above t = .success parent u)
      (hinner : pageIsInner (pageFlags (u.page parent)) = true)
      (hspace : payloadPutLen (pageFlags (u.page parent)) key value ≤ freeSpace (u.page parent))
      (hstep : stepDown parent key u = .success (child, index) v) :
      Visit key value s (some (parent, index)) child v

/-- The insert holds `page`, room made, and looks for the key there. -/
def Reaches (key value : Blob) (s : Sys) (page : PageRef) (t : Sys) : Prop :=
  ∃ above p u, Visit key value s above p u ∧ makeRoom key value p above u = .success page t

/-- The insert comes to a page with the key on it, where it reports `EEXIST`. -/
def MeetsKey (key value : Blob) (s : Sys) : Prop :=
  ∃ page t, Reaches key value s page t ∧ (pageFindPointer (t.page page) key).1 = true

/-- The row is written to the leaf and the leaf unfixed. -/
def PlacesRow (key value : Blob) (page : PageRef) (t u : Sys) : Prop :=
  ∃ v, insertLeaf page key value t = .success () v ∧ pagerUnfix page v = .success () u

/-! ### The functions of the tree by stages -/

section

variable {α : Type} {key value : Blob} {page parent : PageRef} {index fuel : Nat} {s t u w : Sys}

theorem failure_ne_success (site : Site) (code : Int) (texts : List String) (a : α) :
    (failure site code texts : Call α) s ≠ .success a t := by
  simp only [failure, bind_apply, get_apply, Outcome.bind_success]
  cases reportFailure s.err site code texts <;> simp

@[simp] theorem tryCall_eq_success {site : Site} {text : String} {m : Call α} {a : α} :
    tryCall site text m s = .success a t ↔ m s = .success a t :=
  recover_eq_success fun _ b _ => failure_ne_success _ _ _ b

theorem descend_eq_success :
    descend parent key value s = .success page t ↔ ∃ child index u,
      stepDown parent key s = .success (child, index) u ∧
      makeRoom key value child (some (parent, index)) u = .success page t := by
  unfold descend stepDown makeRoom
  simp only [deferred_eq_success, bind_apply, readPage_apply, Outcome.bind_success]
  rcases pageFindPointer (s.page parent) key with ⟨found, index⟩
  cases found with
  | true =>
      have hfail {β : Type} (b : β) (v : Sys) := failure_ne_success (s := s) (t := v)
        ⟨"src/btree.c", "btree_insert_walk", 347⟩ EEXIST ["key already exists on page"] b
      simp only [hfail, false_and, exists_false]
  | false =>
      simp only [bind_apply, Outcome.bind_eq_success, pure_apply, Outcome.success.injEq,
        Prod.mk.injEq, readPage_apply, Outcome.bind_success]
      constructor
      · rintro ⟨v, ⟨_, x, hassert, child, y, hfix, hrest⟩, hexit⟩
        exact ⟨child, index, y, ⟨_, x, hassert, child, y, hfix, ⟨rfl, rfl⟩, rfl⟩, v, hrest, hexit⟩
      · rintro ⟨child, index', y, ⟨_, x, hassert, child', y', hfix, ⟨rfl, rfl⟩, rfl⟩,
          v, hrest, hexit⟩
        exact ⟨v, ⟨_, x, hassert, _, _, hfix, hrest⟩, hexit⟩

/-- What is left to do on a page with room: to go on below it, or to place the row. -/
def Finishes (fuel : Nat) (key value : Blob) (page : PageRef) (t u : Sys) : Prop :=
  if pageIsLeaf (pageFlags (t.page page)) then PlacesRow key value page t u
  else btreeInsertWalk fuel page key value t = .success () u

theorem placesRow_iff {site : Site} {text : String} :
    deferred (pagerUnfix page) (tryCall site text (insertLeaf page key value)) t = .success () u ↔
      PlacesRow key value page t u := by
  simp only [deferred_eq_success, tryCall_eq_success, PlacesRow]

theorem btreeInsertWalk_eq_success :
    btreeInsertWalk (fuel + 1) parent key value s = .success () w ↔
      pageIsInner (pageFlags (s.page parent)) = true ∧
      payloadPutLen (pageFlags (s.page parent)) key value ≤ freeSpace (s.page parent) ∧
      ∃ child index t page u, stepDown parent key s = .success (child, index) t ∧
        makeRoom key value child (some (parent, index)) t = .success page u ∧
        Finishes fuel key value page u w := by
  simp only [btreeInsertWalk, bind_apply, readPage_apply, Outcome.bind_success]
  by_cases hinner : pageIsInner (pageFlags (s.page parent)) = true
  swap
  · simp [hinner]
  by_cases hspace : payloadPutLen (pageFlags (s.page parent)) key value ≤ freeSpace (s.page parent)
  swap
  · simp [hinner, hspace]
  simp only [hinner, hspace, assert_true, Outcome.bind_success, bind_apply, Outcome.bind_eq_success,
    descend_eq_success, readPage_apply, true_and]
  constructor
  · rintro ⟨page, u, ⟨child, index, t, hstep, hroom⟩, hrest⟩
    refine ⟨child, index, t, page, u, hstep, hroom, ?_⟩
    unfold Finishes
    split <;> rename_i hleaf
    · rwa [if_pos hleaf, placesRow_iff] at hrest
    · rwa [if_neg hleaf, tryCall_eq_success] at hrest
  · rintro ⟨child, index, t, page, u, hstep, hroom, hrest⟩
    refine ⟨page, u, ⟨child, index, t, hstep, hroom⟩, ?_⟩
    unfold Finishes at hrest
    split <;> rename_i hleaf
    · rwa [if_pos hleaf, ← placesRow_iff] at hrest
    · rwa [if_neg hleaf, ← tryCall_eq_success] at hrest

/-- The last lines of `btree_insert`, over its local `root`. -/
def insertBelow (fuel : Nat) (key value : Blob) : Prog Fault (Sys × PageRef) Unit := do
  let root ← readVar
  if pageIsLeaf (pageFlags (← lift (readPage root))) then
    lift (deferred (pagerUnfix root) do
      tryCall ⟨"src/btree.c", "btree_insert", 437⟩
        "page_insert_leaf(root.data, btree->page_size, key, value)" (insertLeaf root key value))
  else
    lift (tryCall ⟨"src/btree.c", "btree_insert", 439⟩
      "btree_insert_walk(btree, root, key, value)" (btreeInsertWalk fuel root key value))

/-- What `btree_insert` does once its cleanup is registered. -/
def insertBody (fuel : Nat) (root : PageRef) (key value : Blob) :
    Prog Fault (Sys × PageRef) Unit := do
  if needsSplit (← lift (readPage root)) key value then
    writeVar (← lift (splitRoot root key))
  insertBelow fuel key value

theorem btreeInsert_eq : btreeInsert fuel key value = (do
    let root ← fixRoot
    withVar root (fun v => deferGuard (pagerUnfix v)) (insertBody fuel root key value)) := by
  funext s
  simp only [btreeInsert, fixRoot, errdeferVar, insertBody, bind_apply, get_apply,
    Outcome.bind_success]
  cases tryCall ⟨"src/btree.c", "btree_insert", 394⟩
    "pager_fix(btree->pager, btree->root, true, &root)" (treeFix s.tree.root) s <;> rfl

theorem insertBelow_eq_success {root v : PageRef} :
    insertBelow fuel key value (s, root) = .success () (w, v) ↔
      Finishes fuel key value root s w ∧ v = root := by
  simp only [insertBelow, bind_apply, readVar_apply, Outcome.bind_success, lift_apply,
    readPage_apply, Outcome.mapState_success]
  unfold Finishes
  split
  · rw [lift_eq_success, placesRow_iff]
  · rw [lift_eq_success, tryCall_eq_success]

theorem insertBody_of_makeRoom {root page : PageRef}
    (hroom : makeRoom key value root none s = .success page t) :
    insertBody fuel root key value (s, root) = insertBelow fuel key value (t, page) := by
  simp only [makeRoom, bind_apply, readPage_apply, Outcome.bind_success] at hroom
  simp only [insertBody, bind_apply, lift_apply, readPage_apply, Outcome.mapState_success,
    Outcome.bind_success]
  split at hroom <;> rename_i hfull
  · rw [if_pos hfull, bind_apply, lift_apply, hroom]
    rfl
  · obtain ⟨rfl, rfl⟩ := Outcome.success.inj hroom
    rw [if_neg hfull]

theorem insertBody_eq_success {root v : PageRef} :
    insertBody fuel root key value (s, root) = .success () (w, v) ↔
      ∃ u, makeRoom key value root none s = .success v u ∧ Finishes fuel key value v u w := by
  simp only [insertBody, makeRoom, bind_apply, lift_apply, readPage_apply, Outcome.mapState_success,
    Outcome.bind_success]
  split
  · simp only [bind_apply, Outcome.bind_eq_success, lift_eq_success]
    constructor
    · rintro ⟨page, ⟨u, x⟩, ⟨hsplit, rfl⟩, _, _, hwrite, hrest⟩
      obtain ⟨-, rfl⟩ := Outcome.success.inj hwrite
      obtain ⟨hfin, rfl⟩ := insertBelow_eq_success.mp hrest
      exact ⟨u, hsplit, hfin⟩
    · rintro ⟨u, hsplit, hfin⟩
      exact ⟨v, (u, root), ⟨hsplit, rfl⟩, (), (u, v), rfl, insertBelow_eq_success.mpr ⟨hfin, rfl⟩⟩
  · rw [insertBelow_eq_success]
    constructor
    · rintro ⟨hfin, rfl⟩
      exact ⟨s, rfl, hfin⟩
    · rintro ⟨u, hroom, hfin⟩
      obtain ⟨rfl, rfl⟩ := Outcome.success.inj hroom
      exact ⟨hfin, rfl⟩

theorem btreeInsert_eq_success :
    btreeInsert fuel key value s = .success () w ↔
      ∃ root t page u v, fixRoot s = .success root t ∧
        makeRoom key value root none t = .success page u ∧
        Finishes fuel key value page u v ∧ deferGuard (pagerUnfix page) v = .success () w := by
  rw [btreeInsert_eq]
  simp only [bind_apply, Outcome.bind_eq_success, withVar_eq_success, insertBody_eq_success]
  constructor
  · rintro ⟨root, t, hfix, v, page, ⟨u, hroom, hfin⟩, hexit⟩
    exact ⟨root, t, page, u, v, hfix, hroom, hfin, hexit⟩
  · rintro ⟨root, t, page, u, v, hfix, hroom, hfin, hexit⟩
    exact ⟨root, t, hfix, v, page, ⟨u, hroom, hfin⟩, hexit⟩

/-! ### An insert is the sequence of its visits -/

/-- From a page an insert reaches it goes on to a leaf, where it places the row. -/
theorem Reaches.finishes (h : Reaches key value s page t)
    (hfin : Finishes fuel key value page t w) :
    ∃ leaf u, Reaches key value s leaf u ∧ pageIsLeaf (pageFlags (u.page leaf)) = true ∧
      PlacesRow key value leaf u w := by
  induction fuel generalizing page t with
  | zero =>
      unfold Finishes at hfin
      split at hfin
      · rename_i hleaf
        exact ⟨page, t, h, hleaf, hfin⟩
      · simp [btreeInsertWalk] at hfin
  | succ fuel ih =>
      unfold Finishes at hfin
      split at hfin
      · rename_i hleaf
        exact ⟨page, t, h, hleaf, hfin⟩
      · obtain ⟨hinner, hspace, child, index, u, next, v, hstep, hroom, hrest⟩ :=
          btreeInsertWalk_eq_success.mp hfin
        obtain ⟨above, p, x, hvisit, hreach⟩ := h
        exact ih ⟨_, child, u, .child hvisit hreach hinner hspace hstep, hroom⟩ hrest

/-- An insert that succeeds has placed the row on a leaf it reached. -/
theorem btreeInsert_reaches (h : btreeInsert fuel key value s = .success () w) :
    ∃ leaf u v root, Reaches key value s leaf u ∧ pageIsLeaf (pageFlags (u.page leaf)) = true ∧
      PlacesRow key value leaf u v ∧ deferGuard (pagerUnfix root) v = .success () w := by
  obtain ⟨root, t, page, u, v, hfix, hroom, hfin, hexit⟩ := btreeInsert_eq_success.mp h
  have hreach : Reaches key value s page u := ⟨none, root, t, .root hfix, hroom⟩
  obtain ⟨leaf, x, hleaf⟩ := hreach.finishes hfin
  exact ⟨leaf, x, v, page, hleaf.1, hleaf.2.1, hleaf.2.2, hexit⟩

/-- The insert gets from the root to every page it visits. -/
theorem Visit.from_root {above : Above} (h : Visit key value s above page t)
    {p : PageRef} (hroom : makeRoom key value page above t = .success p u) :
    ∃ root x top y n, fixRoot s = .success root x ∧
      makeRoom key value root none x = .success top y ∧
      ∀ fuel, Finishes fuel key value p u w → Finishes (n + fuel) key value top y w := by
  induction h generalizing p u with
  | root hfix => exact ⟨_, _, p, u, 0, hfix, hroom, fun fuel h => by rwa [Nat.zero_add]⟩
  | child hvisit hparent hinner hspace hstep ih =>
      obtain ⟨root, x, top, y, n, hfix, htop, hn⟩ := ih hparent
      refine ⟨root, x, top, y, n + 1, hfix, htop, fun fuel h => ?_⟩
      rw [Nat.add_assoc, Nat.add_comm 1]
      refine hn _ ?_
      have hleaf : ¬ pageIsLeaf (pageFlags (Sys.page _ _)) = true := fun hleaf => by
        simp only [pageIsInner, pageIsLeaf, bne_iff_ne, ne_eq, beq_iff_eq] at hinner hleaf
        exact hleaf hinner
      rw [Finishes, if_neg hleaf]
      exact btreeInsertWalk_eq_success.mpr ⟨hinner, hspace, _, _, _, p, u, hstep, hroom, h⟩

end

end Wednesday
