import Wednesday.TreeThreads

/-!
What one step of a client does to the pages. A client writes the pages it has
latched and pages that are new, so a step keeps what the other clients hold.
-/

namespace Wednesday

open Lib Prog Pager FenceTree

/-! ### The pages of a client -/

def InsertPoint.held : InsertPoint → List PageRef
  | .readRoot => []
  | .fixRoot _ => []
  | .splitRoot root => [root]
  | .newRoot root split _ => [split, root]
  | .setRoot root split new _ => [new, split, root]
  | .visit _ page leave => leave ++ [page]
  | .fixChild _ parent _ _ => [parent]
  | .splitChild _ parent page _ => [page, parent]
  | .exit _ leave _ => leave

def LookupPoint.held : LookupPoint → List PageRef
  | .readRoot => []
  | .fixRoot _ => []
  | .visit page leave => leave ++ [page]
  | .fixChild page _ => [page]
  | .exit page _ => [page]
  | .decode _ => []

/-- The pages a step of an insert may write, of those that are there. -/
def InsertPoint.rewrites : InsertPoint → List PageRef
  | .splitRoot root => [root]
  | .visit _ page [] => [page]
  | .splitChild _ parent page _ => [page, parent]
  | _ => []

/-- The pages a client has latched. -/
def TreePoint.held : TreePoint → List PageRef
  | .idle => []
  | .insert p => p.held
  | .lookup p => p.held

/-- What an insert knows of the nodes at a point. -/
def InsertPoint.Knows (type : Nat) (key : Blob) (nodes : PageId → TreeNode)
    (s : Sys) : InsertPoint → Prop
  | .fixRoot id => s.pageAt id ≠ none
  | .newRoot _ _ splitKey =>
      KeyEncoded type splitKey.bytes ∧ sizeofHeader + 2 + (sizeofPageId + splitKey.size) ≤
        s.tree.pageSize
  | .fixChild _ parent index next =>
      ∀ page : PageRef, page.id = next → Hangs nodes (varintGet key.data).1 page
        (some (parent, index))
  | .splitChild _ parent page index =>
      Hangs nodes (varintGet key.data).1 page (some (parent, index))
  | .exit _ _ ok => ok = true
  | _ => True

/-- What a lookup knows: the root is there, and a child is where the search has ended. -/
def LookupPoint.Knows (key : Blob) (nodes : PageId → TreeNode) (s : Sys) : LookupPoint → Prop
  | .fixRoot id => s.pageAt id ≠ none
  | .fixChild page next =>
      ∃ pre post right, Enters (nodes page.id) (varintGet key.data).1 pre post right ∧
        next = childOf post right
  | _ => True

/-! ### Conditions on a step -/

/-- The pager has a page for every split, and no page is compacted to take a cell. -/
def InsertPoint.Fits (key value : Blob) (s : Sys) : InsertPoint → Prop
  | .splitRoot _ => s.Spare 1
  | .newRoot _ _ _ => s.Spare 1
  | .visit _ page [] =>
      pageIsLeaf (pageFlags (s.page page)) = true →
        NotCompacted (s.page page) (key.size + value.size)
  | .splitChild _ parent page _ =>
      s.Spare 1 ∧ NotCompacted (s.page parent)
        ((s.splitKey page s.pager.nextPage).size + sizeofPageId)
  | _ => True

/-- The insert does not find its key on a page. -/
def InsertPoint.New (key : Blob) (s : Sys) : InsertPoint → Prop
  | .visit _ page [] => (pageFindPointer (s.page page) key).1 = false
  | _ => True

/-! ### The moves -/

/-- Where a step leads to has these pages latched. -/
def TreeNext.held {α : Type} (held : α → List PageRef) : TreeNext α → List PageRef
  | .goto p => held p
  | .ret _ => []

/-- The state after a cleanup was registered. -/
def Sys.registered (s : Sys) : Sys :=
  { s with cleanups := { s.cleanups with registered := s.cleanups.registered + 1 } }

/-- A step of an insert: what it does to the state, and to the nodes its pages stand for. -/
inductive InsertMoves (type : Nat) (key value : Blob) (nodes : PageId → TreeNode) (s : Sys) :
    InsertPoint → TreeNext InsertPoint → Sys → (PageId → TreeNode) → Prop where
  | readRoot : InsertMoves type key value nodes s .readRoot (.goto (.fixRoot s.tree.root)) s nodes
  | fixRoot {id : PageId} {root : PageRef} {t : Sys} (hid : root.id = id)
      (hfix : Fixes [] s.pager s root t) :
      InsertMoves type key value nodes s (.fixRoot id)
        (.goto (if needsSplit (t.page root) key value then .splitRoot root
          else .visit root root []))
        t.registered nodes
  | splitRoot {root split : PageRef} {t : Sys} (hid : split.id = s.pager.nextPage)
      (hfix : Fixes [root] s.pager.takeId s split t) (hcut : cellCount (s.page root) / 2 ≠ 0) :
      InsertMoves type key value nodes s (.splitRoot root)
        (.goto (.newRoot root split (s.splitKey root split.id)))
        (t.halved root split) (splitNodes nodes root.id split.id)
  | newRoot {root split new : PageRef} {splitKey : Blob} {t : Sys} (hid : new.id = s.pager.nextPage)
      (hfix : Fixes [split, root] s.pager.takeId s new t) :
      InsertMoves type key value nodes s (.newRoot root split splitKey)
        (.goto (.setRoot root split new splitKey))
        (t.written new (pageInitRoot t.tree.pageSize (t.page new)
          (pageFlags (t.page root)) root.id splitKey split.id))
        (Function.update nodes new.id (.inner [⟨root.id, splitKey.bytes⟩] split.id))
  | setRoot {root split new : PageRef} {splitKey : Blob} :
      InsertMoves type key value nodes s (.setRoot root split new splitKey)
        (.goto (.visit (halves key splitKey root split).1 (halves key splitKey root split).1
          [(halves key splitKey root split).2, new]))
        (s.rooted new.id) nodes
  | leave {root page q : PageRef} {leave : List PageRef} :
      InsertMoves type key value nodes s (.visit root page (q :: leave))
        (.goto (.visit root page leave)) (s.unfixed q)
        nodes
  | place {root page : PageRef} {data : Mem} {rows rows' : List TreeRow} {right : PageId}
      (hleaf : pageIsLeaf (pageFlags (s.page page)) = true)
      (hdata : pageInsertLeaf s.stack s.tree.pageSize (s.page page) key value = .ok (some data))
      (hplaced : RowPlaced type nodes key value page s
        ((s.written page data).unfixed page) rows rows' right) :
      InsertMoves type key value nodes s (.visit root page []) (.goto (.exit root [page] true))
        (s.written page data)
        (Function.update nodes page.id (.leaf (rows ++ ⟨key.bytes, value.bytes⟩ :: rows') right))
  | search {root page : PageRef} {index : Nat}
      (hinner : pageIsInner (pageFlags (s.page page)) = true)
      (hsearch : pageFindPointer (s.page page) key = (false, index)) :
      InsertMoves type key value nodes s (.visit root page [])
        (.goto (.fixChild root page index (childAt (s.page page) index))) s nodes
  | fixChild {root parent page : PageRef} {index : Nat} {next : PageId} {t : Sys}
      (hid : page.id = next)
      (hfix : Fixes [parent] s.pager s page t) :
      InsertMoves type key value nodes s (.fixChild root parent index next)
        (.goto (if needsSplit (t.page page) key value then .splitChild root parent page index
          else .visit root page [parent])) t nodes
  | splitChild {root parent page split : PageRef} {t : Sys} {pre post : List TreeSep}
      {right : PageId} {data : Mem}
      (hid : split.id = s.pager.nextPage) (hfix : Fixes [page, parent] s.pager.takeId s split t)
      (hbelow : Below nodes (varintGet key.data).1 parent pre.length page pre post right)
      (hcut : cellCount (s.page page) / 2 ≠ 0)
      (hdata : pageInsertInner s.stack s.tree.pageSize (s.page parent) pre.length
        (s.splitKey page split.id) split.id =
        .ok data) :
      InsertMoves type key value nodes s (.splitChild root parent page pre.length)
        (.goto (.visit root (halves key (s.splitKey page split.id) page split).1
          [(halves key (s.splitKey page split.id) page split).2, parent]))
        (t.grafted parent page split data)
        (childNodes nodes page.id split.id parent.id pre post right)
  | release {root q : PageRef} {leave : List PageRef} {ok : Bool} :
      InsertMoves type key value nodes s (.exit root (q :: leave) ok) (.goto (.exit root leave ok))
        (s.unfixed q) nodes
  | inserted {root : PageRef} : InsertMoves type key value nodes s (.exit root [] true)
      (.ret .inserted) s nodes

/-- A step of a lookup. -/
inductive LookupMoves (key : Blob) (s : Sys) : LookupPoint → TreeNext LookupPoint → Sys → Prop where
  | readRoot : LookupMoves key s .readRoot (.goto (.fixRoot s.tree.root)) s
  | fixRoot {id : PageId} {page : PageRef} {t : Sys} (hid : page.id = id)
      (hfix : Fixes [] s.pager s page t) :
      LookupMoves key s (.fixRoot id) (.goto (.visit page [])) t
  | leave {page q : PageRef} {leave : List PageRef} :
      LookupMoves key s (.visit page (q :: leave)) (.goto (.visit page leave)) (s.unfixed q)
  | descend {page : PageRef} (hinner : pageIsInner (pageFlags (s.page page)) = true) :
      LookupMoves key s (.visit page [])
        (.goto (.fixChild page (childAt (s.page page) (pageFindPointer (s.page page) key).2))) s
  | found {page : PageRef} (hleaf : pageIsLeaf (pageFlags (s.page page)) = true)
      (hfound : (pageFindPointer (s.page page) key).1 = true) :
      LookupMoves key s (.visit page [])
        (.goto
          (.exit page (some ⟨page.frame, pageCell (s.page page)
          (pageFindPointer (s.page page) key).2 +
          payloadGetValuePtr (pageFlags (s.page page))
            (pageGetPayload (s.page page) (pageFindPointer (s.page page) key).2)⟩))) s
  | missing {page : PageRef} {e : ErrorState} (hleaf : pageIsLeaf (pageFlags (s.page page)) = true)
      (hfound : (pageFindPointer (s.page page) key).1 = false) (he : errorGetCode e = ENOENT) :
      LookupMoves key s (.visit page []) (.goto (.exit page none)) { s with err := e }
  | fixChild {page child : PageRef} {next : PageId} {t : Sys} (hid : child.id = next)
      (hfix : Fixes [page] s.pager s child t) :
      LookupMoves key s (.fixChild page next) (.goto (.visit child [page])) t
  | exitFound {page : PageRef} {ptr : DataPtr} :
      LookupMoves key s (.exit page (some ptr)) (.goto (.decode ptr)) (s.unfixed page)
  | exitMissing {page : PageRef} :
      LookupMoves key s (.exit page none) (.ret (.failed (errorGetCode s.err))) (s.unfixed page)
  | decode {ptr : DataPtr} :
      LookupMoves key s (.decode ptr)
        (.ret (.found (blobGet ((s.pager.header ptr.frame).data.drop ptr.offset)).1.bytes)) s

section

variable {type : Nat} {key value : Blob} {nodes nodes' : PageId → TreeNode}
  {s t : Sys} {p : InsertPoint}
  {next : TreeNext InsertPoint} {held others : List PageRef} {page root q : PageRef}

/-! ### The steps are moves -/

/-- The child the search has found is there. -/
theorem InsertPoint.Knows.there {parent : PageRef} {index : Nat} {next : PageId}
    (hknows : (InsertPoint.fixChild root parent index next).Knows type key nodes s)
    (hnodes : PagesHold type nodes s)
    (h : Holding [parent] s) : s.pageAt next ≠ none := by
  obtain ⟨pre, post, right, hbelow⟩ := hknows ⟨next, 0⟩ rfl
  have hlinks := hnodes.links parent.id (by simp [h.pageAt (List.mem_singleton_self parent)])
  refine hlinks next ?_
  rw [hbelow.enters.node, show next = childOf post right from hbelow.child]
  exact childOf_mem_links

theorem LookupPoint.Knows.there {page : PageRef} {next : PageId}
    (hknows : (LookupPoint.fixChild page next).Knows key nodes s)
    (hnodes : PagesHold type nodes s) (h : Holding [page] s) : s.pageAt next ≠ none := by
  obtain ⟨pre, post, right, henters, rfl⟩ := hknows
  refine hnodes.links page.id (by simp [h.pageAt (List.mem_singleton_self page)]) _ ?_
  rw [henters.node]
  exact childOf_mem_links

theorem wp_visitStep (hnodes : PagesHold type nodes s) (h : Holding [page] s)
    (hfits : (InsertPoint.visit root page []).Fits key value s)
    (hnew : (InsertPoint.visit root page []).New key s)
    (hkey : KeyEncoded type key.bytes) (hvalue : ValueEncoded type value.bytes) :
    wp (insertStep key value (.visit root page []))
      (fun next t => ∃ nodes', InsertMoves type key value nodes s
        (.visit root page []) next t nodes') (fun _ => False)
      (fun _ => True) s := by
  simp only [insertStep, wp_bind, wp_readPage]
  split
  · rename_i hleaf
    simp only [wp_recover, wp_bind, insertLeaf, wp_get, wp_readPage, wp_ofExcept]
    cases hdata : pageInsertLeaf s.stack s.tree.pageSize (s.page page) key value with
    | error r => trivial
    | ok result =>
        cases result with
        | none =>
            exfalso
            have hfound := pageInsertLeaf_none hdata
            rw [show (pageFindPointer (s.page page) key).1 = false from hnew] at hfound
            cases hfound
        | some data =>
            obtain ⟨rows, rows', right, hplaced⟩ :=
              rowPlaced_of_insertLeaf hnodes h (List.mem_singleton_self page) hleaf
              hkey hvalue (hfits hleaf) hdata
            exact ⟨_, .place hleaf hdata hplaced⟩
  · rename_i hleaf
    have hinner : pageIsInner (pageFlags (s.page page)) = true := by
      rw [pageIsInner_eq]
      simpa using hleaf
    simp only [wp_bind, wp_assert]
    split
    · rcases hsearch : pageFindPointer (s.page page) key with ⟨found, index⟩
      obtain rfl : found = false := by
        have hfalse : (pageFindPointer (s.page page) key).1 = false := hnew
        rwa [hsearch] at hfalse
      simp only [wp_bind, wp_assert]
      split
      · exact ⟨nodes, .search hinner hsearch⟩
      · trivial
    · trivial

theorem wp_splitChildStep {parent : PageRef} {index : Nat} (hnodes : PagesHold type nodes s)
    (hs : s.Unrefused)
    (h : Holding [page, parent] s)
    (hknows : (InsertPoint.splitChild root parent page index).Knows type key nodes s)
    (hfits : (InsertPoint.splitChild root parent page index).Fits key value s) :
    wp (insertStep key value (.splitChild root parent page index))
      (fun next t => ∃ nodes', InsertMoves type key value nodes s
        (.splitChild root parent page index) next t nodes')
      (fun _ => False) (fun _ => True) s := by
  obtain ⟨pre, post, right, hbelow⟩ := hknows
  obtain rfl := hbelow.index
  simp only [insertStep, wp_recover, wp_bind]
  refine wp_mono (nextPage_unrefused h hs (hnodes.newPage hfits.1) hnodes.nextPage_ne_zero)
    (fun split t ht => ?_) (fun _ ht => ht.elim) fun _ ht => ht.elim
  obtain ⟨hid, hfix⟩ := ht
  have hpage : t.page page = s.page page := hfix.page page (by simp)
  have hkey' : t.splitKey page split.id = s.splitKey page split.id := by
    simp only [Sys.splitKey, hfix.stack, hfix.tree, hpage]
  have hparent : (t.halved page split).page parent = s.page parent := by
    have hnd := hfix.holding.nodup
    simp only [List.map_cons, List.map_nil, List.nodup_cons, List.mem_cons, List.not_mem_nil,
      or_false, not_or] at hnd
    rw [hfix.holding.page_halved (by simp) (by simp) (by simp), hfix.page parent (by simp)]
    · rintro rfl
      exact hnd.2.1 rfl
    · rintro rfl
      exact hnd.1.2 rfl
  rw [wp_bind]
  apply wp_splitPage
  · intro _
    trivial
  intro hcut
  rw [wp_bind]
  apply wp_insertInner
  · intro _ _
    trivial
  intro data hdata
  rw [hparent, hkey', Sys.stack_halved, Sys.tree_halved, hfix.stack, hfix.tree] at hdata
  have hmove : InsertMoves type key value nodes s (.splitChild root parent page pre.length) _ _ _ :=
    .splitChild hid hfix hbelow (hpage ▸ hcut) hdata
  rw [hkey']
  rcases halves_mem key (s.splitKey page split.id) page split with ⟨heq, hlt⟩ | ⟨heq, hlt⟩
  · rw [if_pos hlt]
    rw [heq] at hmove
    exact ⟨_, hmove⟩
  · rw [if_neg hlt]
    rw [heq] at hmove
    exact ⟨_, hmove⟩

/-- Where nothing is refused and no key is found, a step of an insert is a move. -/
theorem wp_insertStep (hnodes : PagesHold type nodes s) (hs : s.Unrefused)
    (hclear : errorGetCode s.err = 0)
    (h : Holding p.held s) (hknows : p.Knows type key nodes s) (hfits : p.Fits key value s)
    (hnew : p.New key s)
    (hkey : KeyEncoded type key.bytes) (hvalue : ValueEncoded type value.bytes) :
    wp (insertStep key value p) (fun next t => ∃ nodes',
      InsertMoves type key value nodes s p next t nodes')
      (fun _ => False) (fun _ => True) s := by
  cases p with
  | readRoot => exact ⟨nodes, .readRoot⟩
  | fixRoot id =>
      simp only [insertStep, wp_recover, wp_bind]
      refine wp_mono (fixPage_unrefused h hs hknows) (fun root t ht => ?_) (fun _ ht => ht.elim)
        fun _ _ => trivial
      exact ⟨nodes, .fixRoot ht.1 ht.2⟩
  | splitRoot root =>
      simp only [insertStep, wp_recover, wp_bind]
      refine wp_mono (nextPage_unrefused h hs (hnodes.newPage hfits) hnodes.nextPage_ne_zero)
        (fun split t ht => ?_) (fun _ ht => ht.elim) fun _ ht => ht.elim
      obtain ⟨hid, hfix⟩ := ht
      have hpage : t.page root = s.page root := hfix.page root (List.mem_singleton_self root)
      have hkey' : t.splitKey root split.id = s.splitKey root split.id := by
        simp only [Sys.splitKey, hfix.stack, hfix.tree, hpage]
      rw [wp_bind]
      apply wp_splitPage
      · intro _
        trivial
      · intro hcut
        rw [hkey']
        exact ⟨_, .splitRoot hid hfix (hpage ▸ hcut)⟩
  | newRoot root split splitKey =>
      simp only [insertStep, wp_recover, wp_bind]
      refine wp_mono (nextPage_unrefused h hs (hnodes.newPage hfits) hnodes.nextPage_ne_zero)
        (fun new t ht => ?_) (fun _ ht => ht.elim) fun _ ht => ht.elim
      exact ⟨_, .newRoot ht.1 ht.2⟩
  | setRoot root split new splitKey =>
      have hmove : InsertMoves type key value nodes s (.setRoot root split new splitKey) _ _ _ :=
        .setRoot
      rcases halves_mem key splitKey root split with ⟨heq, hlt⟩ | ⟨heq, hlt⟩
      · simp only [insertStep, Wednesday.setRoot, wp_bind, wp_modify, if_pos hlt]
        rw [heq] at hmove
        exact ⟨nodes, hmove⟩
      · simp only [insertStep, Wednesday.setRoot, wp_bind, wp_modify, if_neg hlt]
        rw [heq] at hmove
        exact ⟨nodes, hmove⟩
  | visit root page leave =>
      cases leave with
      | cons q leave =>
          simp only [insertStep, wp_bind]
          exact h.wp_pagerUnfix (by simp [InsertPoint.held]) ⟨nodes, .leave⟩
      | nil => exact wp_visitStep hnodes h hfits hnew hkey hvalue
  | fixChild root parent index next =>
      simp only [insertStep, wp_recover, wp_bind]
      have hthere := hknows.there hnodes h
      refine wp_mono (fixPage_unrefused h hs hthere) (fun page t ht => ?_) (fun _ ht => ht.elim)
        fun _ _ => trivial
      exact ⟨nodes, .fixChild ht.1 ht.2⟩
  | splitChild root parent page index => exact wp_splitChildStep hnodes hs h hknows hfits
  | exit root leave ok =>
      cases leave with
      | cons q leave =>
          simp only [insertStep, wp_bind]
          exact h.wp_pagerUnfix (by simp [InsertPoint.held]) ⟨nodes, .release⟩
      | nil =>
          obtain rfl : ok = true := hknows
          simp only [insertStep, deferGuard, wp_bind, wp_get, hclear, if_true, wp_pure]
          exact ⟨nodes, .inserted⟩

/-- Where nothing is refused, a step of a lookup is a move. -/
theorem wp_lookupStep {p : LookupPoint} (hnodes : PagesHold type nodes s) (hs : s.Unrefused)
    (h : Holding p.held s)
    (hknows : p.Knows key nodes s) :
    wp (lookupStep key p) (LookupMoves key s p) (fun _ => False) (fun _ => True) s := by
  cases p with
  | readRoot => exact .readRoot
  | fixRoot id =>
      simp only [lookupStep, wp_recover, wp_bind]
      exact wp_mono (fixPage_unrefused h hs hknows) (fun page t ht => .fixRoot ht.1 ht.2)
        (fun _ ht => ht.elim) fun _ _ => trivial
  | visit page leave =>
      cases leave with
      | cons q leave =>
          simp only [lookupStep, wp_bind]
          exact h.wp_pagerUnfix (by simp [LookupPoint.held]) .leave
      | nil =>
          simp only [lookupStep, wp_bind, wp_readPage]
          rcases hsearch : pageFindPointer (s.page page) key with ⟨found, index⟩
          have hleaf : pageIsInner (pageFlags (s.page page)) ≠ true →
              pageIsLeaf (pageFlags (s.page page)) = true := by
            rw [pageIsInner_eq]
            simp
          dsimp only
          split
          · rename_i hinner
            simp only [wp_bind, wp_assert]
            split
            · have hmove : LookupMoves key s (.visit page []) _ s := .descend hinner
              rwa [hsearch] at hmove
            · trivial
          · rename_i hinner
            split <;> rename_i hfound
            · have hmove : LookupMoves key s (.visit page []) _ s :=
                .found (hleaf hinner) (by rw [hsearch, hfound])
              rwa [hsearch] at hmove
            · rw [wp_recover]
              apply wp_failure (by decide)
              intro e he
              exact .missing (hleaf hinner) (by rw [hsearch]; simpa using hfound) he
  | fixChild page next =>
      simp only [lookupStep, wp_recover, wp_bind]
      have hthere : s.pageAt next ≠ none := hknows.there hnodes h
      exact wp_mono (fixPage_unrefused h hs hthere) (fun child t ht => .fixChild ht.1 ht.2)
        (fun _ ht => ht.elim) fun _ _ => trivial
  | exit page ptr =>
      cases ptr with
      | some ptr =>
          simp only [lookupStep, wp_bind]
          exact h.wp_pagerUnfix (List.mem_singleton_self page) .exitFound
      | none =>
          simp only [lookupStep, wp_bind]
          exact h.wp_pagerUnfix (List.mem_singleton_self page) .exitMissing
  | decode ptr => exact .decode

/-! ### What stays as it is -/

/-- No page goes or leaves its frame, and only pages of the list are written. -/
structure KeepsPages (held : List PageRef) (s t : Sys) : Prop where
  locate : ∀ id, s.pageAt id ≠ none → t.pager.locate id = s.pager.locate id
  pageAt : ∀ id, s.pageAt id ≠ none → (∀ q ∈ held, q.id ≠ id) → t.pageAt id = s.pageAt id
  pageSize : t.tree.pageSize = s.tree.pageSize

theorem KeepsPages.refl (held : List PageRef) (s : Sys) : KeepsPages held s s :=
  ⟨fun _ _ => rfl, fun _ _ _ => rfl, rfl⟩

theorem KeepsPages.there (h : KeepsPages held s t) {id : PageId} (hid : s.pageAt id ≠ none) :
    t.pageAt id ≠ none := by
  have hzero := ne_zero_of_there hid
  rw [ne_eq, pageAt_eq_none_iff hzero] at hid ⊢
  rwa [h.locate id (by rwa [ne_eq, pageAt_eq_none_iff hzero])]

/-- What is written next was held before, or was not there. -/
theorem KeepsPages.trans {u : Sys} {held' : List PageRef} (h : KeepsPages held s t)
    (h' : KeepsPages held' t u)
    (hsub : ∀ q ∈ held', q ∈ held ∨ s.pageAt q.id = none) : KeepsPages held s u := by
  refine ⟨fun id hid => ?_, fun id hid hne => ?_, h'.pageSize.trans h.pageSize⟩
  · exact (h'.locate id (h.there hid)).trans (h.locate id hid)
  · refine (h'.pageAt id (h.there hid) fun q hq heq => ?_).trans (h.pageAt id hid hne)
    rcases hsub q hq with hq | hnone
    · exact hne q hq heq
    · exact hid (heq ▸ hnone)

theorem KeepsPages.mono {held' : List PageRef} (h : KeepsPages held s t)
    (hsub : ∀ q ∈ held, q ∈ held') :
    KeepsPages held' s t :=
  ⟨h.locate, fun id hid hne => h.pageAt id hid fun q hq => hne q (hsub q hq), h.pageSize⟩

theorem Holding.keepsPages (h : Holding held s) (hpage : page ∈ held) (data : Mem) :
    KeepsPages [page] s (s.written page data) := by
  refine ⟨fun _ _ => rfl, fun id _ hne => ?_, rfl⟩
  rw [h.pageAt_written hpage, Function.update_of_ne]
  rintro rfl
  exact hne page (List.mem_singleton_self page) rfl

theorem Fixes.keepsPages (hfix : Fixes held s.pager s page t) (hthere : s.pageAt page.id ≠ none) :
    KeepsPages [] s t := by
  have hpages := hfix.pageAt_of_there (Or.inl rfl) hthere
  refine ⟨fun id hid => ?_, fun id _ _ => by rw [hpages], by rw [hfix.tree]⟩
  by_cases heq : id = page.id
  · rcases hfix.fixed.page with ⟨hloc, -, -⟩ | ⟨hnone, -⟩
    · rw [heq, hloc, hfix.fixed.located]
    · exact absurd ((pageAt_eq_none_iff (ne_zero_of_there hthere)).mpr hnone) hthere
  · refine (hfix.same (Or.inl rfl) ?_ (ne_zero_of_there hid) heq).1
    rw [evictsFor_eq_none (Or.inl hthere) (Or.inl rfl)]
    exact Option.some_ne_none id ∘ Eq.symm

theorem Fixes.keepsPages_new (hfix : Fixes held s.pager.takeId s page t)
    (hid : page.id = s.pager.nextPage)
    (hnew : NewPage 1 s) : KeepsPages [] s t ∧ s.pageAt page.id = none := by
  have hkeep : s.pager.takeId.evictsFor page.id = none :=
    evictsFor_eq_none (Or.inr hnew.frames) (Or.inr rfl)
  have hnone : s.pageAt page.id = none := hid ▸ hnew.nextPage_new
  have hne {id : PageId} (hid : s.pageAt id ≠ none) : id ≠ page.id := fun heq => hid (heq ▸ hnone)
  refine ⟨⟨fun id hid => ?_, fun id hid _ => ?_, by rw [hfix.tree]⟩, hnone⟩
  · refine (hfix.same (Or.inr rfl) ?_ (ne_zero_of_there hid) (hne hid)).1
    rw [hkeep]
    exact Option.some_ne_none id ∘ Eq.symm
  · rw [hfix.pageAt_of_new (Or.inr rfl) hkeep, Function.update_of_ne (hne hid)]

theorem keepsPages_unfixed (s : Sys) (page : PageRef) : KeepsPages [] s (s.unfixed page) :=
  ⟨fun _ _ => rfl, fun _ _ _ => by rw [pageAt_unfixed], rfl⟩

theorem Holding.keepsPages_halved {split : PageRef} (h : Holding held s) (hpage : page ∈ held)
    (hsplit : split ∈ held) :
    KeepsPages [page, split] s (s.halved page split) := by
  have hfirst := h.keepsPages hpage (splitLeft s.stack s.tree.pageSize (s.page page) split.id)
  have hsecond : KeepsPages [split] _ (s.halved page split) := (h.written _).keepsPages hsplit _
  refine (hfirst.mono (by simp)).trans hsecond fun q hq => Or.inl ?_
  rw [List.mem_singleton.mp hq]
  simp

/-! ### Latches -/

/-- A latched page that is not of the second list was latched before, and not of the first. -/
def LatchesOnly (held held' : List PageRef) (s t : Sys) : Prop :=
  ∀ id f, id ≠ 0 → t.pager.locate id = some f → (∀ q ∈ held', q.id ≠ id) →
    (t.pager.header f).latch ≠ 0 →
    (∀ q ∈ held, q.id ≠ id) ∧ s.pager.locate id = some f ∧ (s.pager.header f).latch ≠ 0

theorem LatchesOnly.refl (held : List PageRef) (s : Sys) : LatchesOnly held held s s :=
  fun _ _ _ hf hne hlatch => ⟨hne, hf, hlatch⟩

theorem LatchesOnly.trans {u : Sys} {held' held'' : List PageRef} (h : LatchesOnly held held' s t)
    (h' : LatchesOnly held' held'' t u) : LatchesOnly held held'' s u := by
  intro id f hid hf hne hlatch
  obtain ⟨hne', hf', hlatch'⟩ := h' id f hid hf hne hlatch
  exact h id f hid hf' hne' hlatch'

theorem LatchesOnly.mono {held' held'' : List PageRef} (h : LatchesOnly held held' s t)
    (hsub : ∀ q ∈ held', q ∈ held'') :
    LatchesOnly held held'' s t :=
  fun id f hid hf hne => h id f hid hf fun q hq => hne q (hsub q hq)

theorem latchesOnly_written (held : List PageRef) (s : Sys) (page : PageRef) (data : Mem) :
    LatchesOnly held held s (s.written page data) := by
  intro id f _ hf hne hlatch
  refine ⟨hne, hf, ?_⟩
  by_cases heq : f = page.frame
  · simpa [Sys.written, writeData, heq] using hlatch
  · rwa [Sys.written, writeData, header_setHeader_ne _ _ _ _ heq] at hlatch

theorem Holding.latchesOnly_unfixed (h : Holding (q :: held) s) : LatchesOnly
    (q :: held) held s (s.unfixed q) := by
  intro id f hid hf hne hlatch
  obtain ⟨-, hloc⟩ := h.there q (List.mem_cons_self ..)
  by_cases heq : f = q.frame
  · rw [heq, Sys.unfixed, header_setHeader_self, released,
      if_pos (h.latch q (List.mem_cons_self ..))] at hlatch
    exact absurd rfl hlatch
  · rw [Sys.unfixed, header_setHeader_ne _ _ _ _ heq] at hlatch
    refine ⟨List.forall_mem_cons.mpr ⟨?_, hne⟩, hf, hlatch⟩
    rintro rfl
    exact heq (Option.some.inj (hloc.symm.trans hf)).symm

theorem Fixes.latchesOnly {p : Pager} {held' : List PageRef} (h : Fixes held p s page t)
    (hp : p = s.pager ∨ p = s.pager.takeId) : LatchesOnly held' (page :: held') s t := by
  obtain ⟨hlocate, hheader, -, -⟩ := asked_eq hp
  intro id f hid hf hne hlatch
  obtain ⟨hpage, hne⟩ := List.forall_mem_cons.mp hne
  rcases h.fixed.others id hid hpage.symm with hsame | ⟨-, hgone, -⟩
  · have hf' : p.locate id = some f := hsame.1.symm.trans hf
    refine ⟨hne, (hlocate id).symm.trans hf', ?_⟩
    rw [← hheader, ← (hsame.2 f hf').2]
    exact hlatch
  · cases hgone.symm.trans hf

theorem latchesOnly_halved (held : List PageRef) (s : Sys) (page split : PageRef) :
    LatchesOnly held held s (s.halved page split) :=
  (latchesOnly_written held s page _).trans (latchesOnly_written held _ split _)

/-- The half that is left, a page that is left with it, and the half the insert goes on with. -/
theorem halves_perm (key splitKey : Blob) (page split other : PageRef) :
    [split, page, other].Perm
      [(halves key splitKey page split).2, other, (halves key splitKey page split).1] := by
  rcases halves_mem key splitKey page split with ⟨heq, -⟩ | ⟨heq, -⟩ <;> rw [heq]
  · exact .cons _ (.swap _ _ _)
  · show ([split] ++ [page, other]).Perm ([page, other] ++ [split])
    exact List.perm_append_comm

/-- A step keeps the latches of the other clients. -/
theorem InsertMoves.holding (hmove : InsertMoves type key value nodes s p next t nodes')
    (h : Holding (p.held ++ others) s) : Holding (next.held InsertPoint.held ++ others) t := by
  cases hmove with
  | readRoot => exact h
  | @fixRoot id root t hid hfix =>
      have ht : Holding (root :: others) t := (hfix.extend (Or.inl rfl) h).holding
      have hregistered : Holding (root :: others) t.registered :=
        ⟨ht.ok, ht.nodup, ht.there, ht.latch⟩
      simp only [TreeNext.held]
      split <;> exact hregistered
  | splitRoot hid hfix hcut => exact (hfix.extend (Or.inr rfl) h).holding.halved
  | newRoot hid hfix => exact (hfix.extend (Or.inr rfl) h).holding.written _
  | @setRoot root split new splitKey =>
      have hlast : ([new] ++ [split, root]).Perm ([split, root] ++ [new]) := List.perm_append_comm
      have hperm : [new, split, root].Perm
          [(halves key splitKey root split).2, new, (halves key splitKey root split).1] :=
        hlast.trans (halves_perm key splitKey root split new)
      exact (Holding.rooted h new.id).perm (hperm.append_right others)
  | leave => exact h.unfixed_head
  | place => exact Holding.written h _
  | search => exact h
  | @fixChild root parent page index next t hid hfix =>
      have ht : Holding (page :: parent :: others) t := (hfix.extend (Or.inl rfl) h).holding
      simp only [TreeNext.held]
      split
      · exact ht
      · exact ht.perm (.swap _ _ _)
  | @splitChild root parent page split t pre post right data hid hfix =>
      have ht : Holding ([split, page, parent] ++ others) t := (hfix.extend (Or.inr rfl) h).holding
      exact (ht.halved.written data).perm
        ((halves_perm key _ page split parent).append_right others)
  | release => exact h.unfixed_head
  | inserted => exact h

theorem LookupMoves.holding {p : LookupPoint} {next : TreeNext LookupPoint}
    (hmove : LookupMoves key s p next t)
    (h : Holding (p.held ++ others) s) : Holding (next.held LookupPoint.held ++ others) t := by
  cases hmove with
  | readRoot => exact h
  | fixRoot hid hfix => exact (hfix.extend (Or.inl rfl) h).holding
  | leave => exact h.unfixed_head
  | descend => exact h
  | found => exact h
  | missing => exact ⟨h.ok, h.nodup, h.there, h.latch⟩
  | @fixChild page child next t hid hfix =>
      have ht : Holding (child :: page :: others) t := (hfix.extend (Or.inl rfl) h).holding
      exact ht.perm (.swap _ _ _)
  | exitFound => exact h.unfixed_head
  | exitMissing => exact h.unfixed_head
  | decode => exact h

/-- Only the pages of the client are latched by its step. -/
theorem InsertMoves.latchesOnly (hmove : InsertMoves type key value nodes s p next t nodes')
    (h : Holding p.held s) :
    LatchesOnly p.held (next.held InsertPoint.held) s t := by
  cases hmove with
  | readRoot => exact .refl _ s
  | @fixRoot id root t hid hfix =>
      have ht : LatchesOnly [] [root] s t := hfix.latchesOnly (Or.inl rfl)
      simp only [TreeNext.held]
      split <;> exact ht
  | splitRoot hid hfix hcut =>
      exact (hfix.latchesOnly (Or.inr rfl)).trans (latchesOnly_halved _ _ _ _)
  | newRoot hid hfix => exact (hfix.latchesOnly (Or.inr rfl)).trans (latchesOnly_written _ _ _ _)
  | @setRoot root split new splitKey =>
      refine (LatchesOnly.refl [new, split, root] s).mono ?_
      rcases halves_mem key splitKey root split with ⟨heq, -⟩ | ⟨heq, -⟩ <;>
        simp +contextual [heq, TreeNext.held, InsertPoint.held]
  | leave => exact h.latchesOnly_unfixed
  | place => exact latchesOnly_written _ _ _ _
  | search => exact .refl _ s
  | @fixChild root parent page index next t hid hfix =>
      have ht : LatchesOnly [parent] [page, parent] s t := hfix.latchesOnly (Or.inl rfl)
      simp only [TreeNext.held]
      split
      · exact ht
      · exact ht.mono fun q hq => by
          rw [List.mem_pair] at hq
          simpa [InsertPoint.held] using hq.symm
  | @splitChild root parent page split t pre post right data hid hfix =>
      have ht : LatchesOnly [page, parent] [split, page, parent] s
          (t.grafted parent page split data) :=
        ((hfix.latchesOnly (Or.inr rfl)).trans (latchesOnly_halved _ _ _ _)).trans
        (latchesOnly_written _ _ _ _)
      refine ht.mono ?_
      rcases halves_mem key (s.splitKey page split.id) page split with ⟨heq, -⟩ | ⟨heq, -⟩ <;>
        simp +contextual [heq, TreeNext.held, InsertPoint.held]
  | release => exact h.latchesOnly_unfixed
  | inserted => exact .refl _ s

theorem LookupMoves.latchesOnly {p : LookupPoint} {next : TreeNext LookupPoint}
    (hmove : LookupMoves key s p next t)
    (h : Holding p.held s) : LatchesOnly p.held (next.held LookupPoint.held) s t := by
  cases hmove with
  | readRoot => exact .refl _ s
  | fixRoot hid hfix => exact hfix.latchesOnly (Or.inl rfl)
  | leave => exact h.latchesOnly_unfixed
  | descend => exact .refl _ s
  | found => exact .refl _ s
  | missing => exact fun _ _ _ hf hne hlatch => ⟨hne, hf, hlatch⟩
  | @fixChild page child next t hid hfix =>
      have ht : LatchesOnly [page] [child, page] s t := hfix.latchesOnly (Or.inl rfl)
      exact ht.mono fun q hq => by
        rw [List.mem_pair] at hq
        simpa [TreeNext.held, LookupPoint.held] using hq.symm
  | exitFound => exact h.latchesOnly_unfixed
  | exitMissing => exact h.latchesOnly_unfixed
  | decode => exact .refl _ s

/-! ### Pages and nodes -/

theorem InsertPoint.rewrites_subset (p : InsertPoint) : ∀ q ∈ p.rewrites, q ∈ p.held := by
  intro q hq
  cases p with
  | splitRoot root => exact hq
  | visit root page leave =>
      cases leave with
      | nil => exact hq
      | cons q leave => cases hq
  | splitChild root parent page index => exact hq
  | _ => cases hq

/-- A step writes the pages it is to write, and new ones. -/
theorem InsertMoves.writes (hmove : InsertMoves type key value nodes s p next t nodes')
    (hnodes : PagesHold type nodes s)
    (h : Holding p.held s) (hknows : p.Knows type key nodes s) (hfits : p.Fits key value s) :
    KeepsPages p.rewrites s t ∧ ∀ id, s.pageAt id ≠ none → (∀ q ∈ p.rewrites, q.id ≠ id) →
      nodes' id = nodes id := by
  have hself {id : PageId} {q : PageRef} {node : TreeNode} (hq : q.id ≠ id) :
      Function.update nodes q.id node id = nodes id :=
    Function.update_of_ne hq.symm _ _
  cases hmove with
  | readRoot => exact ⟨.refl _ _, fun _ _ _ => rfl⟩
  | fixRoot hid hfix =>
      have hkeeps := hfix.keepsPages (hid ▸ hknows)
      exact ⟨⟨hkeeps.locate, fun id hid _ => hkeeps.pageAt id hid (by simp), hkeeps.pageSize⟩,
        fun _ _ _ => rfl⟩
  | @splitRoot root split t hid hfix hcut =>
      obtain ⟨hkeeps, hnone⟩ := hfix.keepsPages_new hid (hnodes.newPage hfits)
      refine ⟨(hkeeps.mono (by simp)).trans (hfix.holding.keepsPages_halved (by simp) (by simp))
        fun q hq => ?_, fun id hid' hne => splitNodes_other
          (hne root (List.mem_singleton_self root)).symm fun heq => hid' (heq ▸ hnone)⟩
      rcases List.mem_pair.mp hq with rfl | rfl
      · exact Or.inl (List.mem_singleton_self _)
      · exact Or.inr hnone
  | @newRoot root split new splitKey t hid hfix =>
      obtain ⟨hkeeps, hnone⟩ := hfix.keepsPages_new hid (hnodes.newPage hfits)
      refine ⟨(hkeeps.mono (by simp)).trans (hfix.holding.keepsPages (by simp) _) fun q hq => ?_,
        fun id hid' _ => hself fun heq => hid' (heq ▸ hnone)⟩
      rw [List.mem_singleton.mp hq]
      exact Or.inr hnone
  | setRoot => exact ⟨⟨fun _ _ => rfl, fun _ _ _ => rfl, rfl⟩, fun _ _ _ => rfl⟩
  | leave => exact ⟨keepsPages_unfixed s _, fun _ _ _ => rfl⟩
  | @place root page data rows rows' right hleaf hdata hplaced =>
      exact ⟨h.keepsPages (List.mem_singleton_self page) data,
        fun id _ hne => hself (hne page (List.mem_singleton_self page))⟩
  | search => exact ⟨.refl _ _, fun _ _ _ => rfl⟩
  | fixChild hid hfix =>
      exact ⟨(hfix.keepsPages (hid ▸ hknows.there hnodes h)).mono (by simp), fun _ _ _ => rfl⟩
  | @splitChild root parent page split t pre post right data hid hfix hbelow hcut hdata =>
      obtain ⟨hkeeps, hnone⟩ := hfix.keepsPages_new hid (hnodes.newPage hfits.1)
      have hhalved : KeepsPages [page, split] t (t.halved page split) :=
        hfix.holding.keepsPages_halved (by simp) (by simp)
      have hgrafted : KeepsPages [parent] _ (t.grafted parent page split data) :=
        hfix.holding.halved.keepsPages (by simp) data
      refine ⟨((hkeeps.mono (by simp)).trans hhalved fun q hq => ?_).trans hgrafted
        fun q hq => Or.inl ?_, fun id hid' hne => ?_⟩
      · rcases List.mem_pair.mp hq with rfl | rfl
        · exact Or.inl (List.mem_cons_self ..)
        · exact Or.inr hnone
      · rw [List.mem_singleton.mp hq]
        simp [InsertPoint.rewrites]
      · rw [childNodes, Function.update_of_ne (hne parent (by simp [InsertPoint.rewrites])).symm]
        exact splitNodes_other (hne page (by simp [InsertPoint.rewrites])).symm
          fun heq => hid' (heq ▸ hnone)
  | release => exact ⟨keepsPages_unfixed s _, fun _ _ _ => rfl⟩
  | inserted => exact ⟨.refl _ _, fun _ _ _ => rfl⟩

/-- The pages of the other clients stay. -/
theorem InsertMoves.keeps (hmove : InsertMoves type key value nodes s p next t nodes')
    (hnodes : PagesHold type nodes s)
    (h : Holding p.held s) (hknows : p.Knows type key nodes s) (hfits : p.Fits key value s) :
    KeepsPages p.held s t ∧ ∀ id, s.pageAt id ≠ none → (∀ q ∈ p.held, q.id ≠ id) →
      nodes' id = nodes id := by
  obtain ⟨hkeeps, hsame⟩ := hmove.writes hnodes h hknows hfits
  exact ⟨hkeeps.mono p.rewrites_subset, fun id hid hne => hsame id hid fun q hq =>
    hne q (p.rewrites_subset q hq)⟩

/-- A move of an insert records no error. -/
theorem InsertMoves.err (hmove : InsertMoves type key value nodes s p next t nodes') :
    t.err = s.err := by
  cases hmove with
  | readRoot => rfl
  | fixRoot hid hfix => exact hfix.err
  | splitRoot hid hfix => exact hfix.err
  | newRoot hid hfix => exact hfix.err
  | setRoot => rfl
  | leave => rfl
  | place => rfl
  | search => rfl
  | fixChild hid hfix => exact hfix.err
  | splitChild hid hfix => exact hfix.err
  | release => rfl
  | inserted => rfl

/-- A step of a lookup writes nothing. -/
theorem LookupMoves.same {p : LookupPoint} {next : TreeNext LookupPoint}
    (hmove : LookupMoves key s p next t)
    (hnodes : PagesHold type nodes s) (h : Holding p.held s) (hknows : p.Knows key nodes s) :
    SamePages s t ∧ KeepsPages [] s t := by
  cases hmove with
  | fixRoot hid hfix => exact ⟨hfix.samePages (hid ▸ hknows), hfix.keepsPages (hid ▸ hknows)⟩
  | fixChild hid hfix =>
      have hthere := hknows.there hnodes h
      exact ⟨hfix.samePages (hid ▸ hthere), hfix.keepsPages (hid ▸ hthere)⟩
  | leave => exact ⟨samePages_unfixed s _, keepsPages_unfixed s _⟩
  | exitFound => exact ⟨samePages_unfixed s _, keepsPages_unfixed s _⟩
  | exitMissing => exact ⟨samePages_unfixed s _, keepsPages_unfixed s _⟩
  | missing => exact ⟨(SamePages.refl s).err _, fun _ _ => rfl, fun _ _ _ => rfl, rfl⟩
  | readRoot => exact ⟨.refl s, .refl [] s⟩
  | descend => exact ⟨.refl s, .refl [] s⟩
  | found => exact ⟨.refl s, .refl [] s⟩
  | decode => exact ⟨.refl s, .refl [] s⟩

/-- The pages stand for nodes after a step as before it. -/
theorem InsertMoves.pagesHold (hmove : InsertMoves type key value nodes s p next t nodes')
    (hnodes : PagesHold type nodes s)
    (h : Holding p.held s) (hknows : p.Knows type key nodes s) (hfits : p.Fits key value s) :
    PagesHold type nodes' t := by
  have hkeeps := (hmove.keeps hnodes h hknows hfits).1
  cases hmove with
  | readRoot => exact hnodes
  | fixRoot hid hfix => exact (hnodes.fixes hfix (hid ▸ hknows)).congr rfl rfl le_rfl
  | @splitRoot root split t hid hfix hcut =>
      have hkeep : s.pager.takeId.evictsFor split.id = none :=
        evictsFor_eq_none (Or.inr hfits.frames) (Or.inr rfl)
      obtain ⟨hstore, -⟩ := hfix.pageAt_halved hid hkeep (List.mem_singleton_self root)
      rw [hid]
      refine hnodes.halved h (List.mem_singleton_self root) hfits hstore hfix.tree ?_
      rw [nextPage_halved, hfix.nextPage_new hfits]
      exact Nat.lt_succ_self _
  | @newRoot root split new splitKey t hid hfix =>
      have hnew := hnodes.newPage hfits
      have hkeep : s.pager.takeId.evictsFor new.id = none :=
        evictsFor_eq_none (Or.inr hfits.frames) (Or.inr rfl)
      have hthere {q : PageRef} (hq : q ∈ [split, root]) : s.pageAt q.id ≠ none := by
        simp [h.pageAt hq]
      have hroot :=
        hnodes.onPage h
        (by simp [InsertPoint.held] : root ∈ (InsertPoint.newRoot root split splitKey).held)
      have hlt {id : PageId} (hid : s.pageAt id ≠ none) : id < 2 ^ 32 :=
        (hnodes.fresh id hid).trans hfits.nextPage_lt
      have hwritten := hfix.holding.pageAt_written (List.mem_cons_self ..)
          (pageInitRoot t.tree.pageSize (t.page new)
        (pageFlags (t.page root)) root.id splitKey split.id)
      rw [hfix.pageAt_of_new (Or.inr rfl) hkeep, Function.update_idem] at hwritten
      have hafter : t.pager.nextPage = s.pager.nextPage + 1 := hfix.nextPage_new hfits
      refine hnodes.above ?_ (hthere (by simp)) (hthere (by simp))
        (hid ▸ hnew.nextPage_new) hwritten hfix.tree
        (hafter ▸ Nat.le_succ _) (hid ▸ hafter ▸ Nat.lt_succ_self _)
      rw [hfix.page root (by simp), hroot.flags, hfix.tree]
      exact (pageHolds_pageInitRoot _ _ hroot.isType hroot.small hknows.2 hknows.1
        (hlt (hthere (by simp)))
        (hlt (hthere (by simp)))).1
  | @setRoot root split new splitKey =>
      refine ⟨hnodes.node, hnodes.links, hnodes.acyclic, ?_, hnodes.fresh⟩
      have hpage := h.pageAt (List.mem_cons_self ..)
      exact hpage ▸ Option.some_ne_none _
  | leave => exact hnodes.same (samePages_unfixed s _)
  | @place root page data rows rows' right hleaf hdata hplaced =>
      exact (hplaced.pagesHold hnodes h).congr pageAt_unfixed.symm rfl le_rfl
  | search => exact hnodes
  | fixChild hid hfix => exact hnodes.fixes hfix (hid ▸ hknows.there hnodes h)
  | @splitChild root parent page split t pre post right data hid hfix hbelow hcut hdata =>
      rw [hid]
      exact hnodes.childStored h hfits.1 hbelow.enters.node hbelow.child
        (hfix.childStored hid hfits.1 (by simp) (by simp) hcut hdata) hfits.2
  | release => exact hnodes.same (samePages_unfixed s _)
  | inserted => exact hnodes

/-! ### What a client knows -/

theorem Hangs.congr {x index : Nat} {parent : PageRef}
    (h : Hangs nodes x page (some (parent, index)))
    (heq : nodes' parent.id = nodes parent.id) : Hangs nodes' x page (some (parent, index)) := by
  obtain ⟨pre, post, right, hbelow⟩ := h
  exact ⟨pre, post, right, heq ▸ hbelow.enters, hbelow.new, hbelow.index, hbelow.child⟩

/-- What an insert knows after its step. -/
theorem InsertMoves.knows {q : InsertPoint}
    (hmove : InsertMoves type key value nodes s p (.goto q) t nodes')
    (hnodes : PagesHold type nodes s) (h : Holding p.held s) (hknows : p.Knows type key nodes s)
    (hfits : p.Fits key value s) : q.Knows type key nodes' t := by
  cases hmove with
  | readRoot => exact hnodes.root
  | fixRoot => split <;> trivial
  | @splitRoot root split t hid hfix hcut =>
      have hroot := hnodes.onPage h (List.mem_singleton_self root)
      have hlt : split.id < 2 ^ 32 := hid ▸ hfits.nextPage_lt
      obtain ⟨hbytes, hkey⟩ := hroot.splitKey_bytes s.stack hcut hlt
      have hbytes' : (s.splitKey root split.id).bytes = cutKey (nodes root.id) := hbytes
      have hroom := hroot.root_fits hcut
      rw [← hbytes', Blob.length_bytes] at hroom
      exact ⟨hbytes' ▸ hkey, (congrArg BTree.pageSize hfix.tree).symm ▸ hroom⟩
  | newRoot => trivial
  | setRoot => trivial
  | leave => trivial
  | place => rfl
  | @search root page index hinner hsearch =>
      intro child hid
      obtain ⟨pre, post, right, henters, hindex, hchild, hfound⟩ :=
        (hnodes.onPage h (List.mem_singleton_self page)).inner_search hinner key
      rw [hsearch] at hindex hchild hfound
      refine ⟨pre, post, right, henters, fun sep hsep heq => ?_, hindex, hid.trans hchild⟩
      cases hfound.mpr ⟨sep, hsep, heq⟩
  | @fixChild root parent page index next t hid hfix =>
      split
      · exact hknows page hid
      · trivial
  | splitChild => trivial
  | release => exact hknows

/-- What an insert knows, it knows after steps of others. -/
theorem InsertPoint.Knows.kept (hknows : p.Knows type key nodes s) (hkeeps : KeepsPages held s t)
    (hnodes : ∀ q ∈ p.held, nodes' q.id = nodes q.id) : p.Knows type key nodes' t := by
  cases p with
  | fixRoot id => exact hkeeps.there hknows
  | newRoot root split splitKey => exact ⟨hknows.1, hkeeps.pageSize.symm ▸ hknows.2⟩
  | fixChild root parent index next =>
      exact fun page hid => (hknows page hid).congr (hnodes parent (List.mem_singleton_self parent))
  | splitChild root parent page index =>
      exact Hangs.congr hknows (hnodes parent (by simp [InsertPoint.held]))
  | exit root leave ok => exact hknows
  | readRoot => trivial
  | splitRoot root => trivial
  | setRoot root split new splitKey => trivial
  | visit root page leave => trivial

theorem LookupMoves.knows {p q : LookupPoint} (hmove : LookupMoves key s p (.goto q) t)
    (hnodes : PagesHold type nodes s)
    (h : Holding p.held s) : q.Knows key nodes t := by
  cases hmove with
  | readRoot => exact hnodes.root
  | @descend page hinner =>
      obtain ⟨pre, post, right, henters, -, hchild, -⟩ :=
        (hnodes.onPage h (List.mem_singleton_self page)).inner_search hinner key
      exact ⟨pre, post, right, henters, hchild⟩
  | fixRoot => trivial
  | leave => trivial
  | found => trivial
  | missing => trivial
  | fixChild => trivial
  | exitFound => trivial

theorem LookupPoint.Knows.kept {p : LookupPoint} (hknows : p.Knows key nodes s)
    (hkeeps : KeepsPages held s t)
    (hnodes : ∀ q ∈ p.held, nodes' q.id = nodes q.id) : p.Knows key nodes' t := by
  cases p with
  | fixRoot id => exact hkeeps.there hknows
  | fixChild page next =>
      obtain ⟨pre, post, right, henters, hnext⟩ := hknows
      exact ⟨pre, post, right, (hnodes page (List.mem_singleton_self page)).symm ▸ henters, hnext⟩
  | readRoot => trivial
  | visit page leave => trivial
  | exit page ptr => trivial
  | decode ptr => trivial

end

end Wednesday
