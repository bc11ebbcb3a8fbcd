import Wednesday.TreeRows
import Wednesday.TreeUnrefused

/-!
Inserts that succeed. Where nothing is refused, the key is new, and the checks of
free space are right wherever the insert comes, it goes down level by level to a
leaf and places its row there.
-/

namespace Wednesday

open Lib Prog Pager FenceTree

/-- The free bytes the insert asks of a page it goes on with: those of a separator, or
of the row and its slot. -/
def roomNeeded (key value : Blob) (page : Mem) : Nat :=
  payloadPutLen (pageFlags page) key value + if pageIsLeaf (pageFlags page) then 2 else 0

/-- The separator of a split has room on the page above. -/
def SeparatorHasRoom (t : Sys) (page : PageRef) : Above → Prop
  | none => True
  | some (parent, _) =>
      (t.splitKey page t.pager.nextPage).size + sizeofPageId + 2 ≤ freeSpace (t.page parent)

/-- Wherever the insert comes, its checks of free space are right: a page it does not
split has the room it asks for, and one it splits has two cells, a half with that
room, and a page above that takes its separator. -/
structure RowFits (key value : Blob) (s : Sys) : Prop where
  stays : ∀ above page t, Visit key value s above page t →
    needsSplit (t.page page) key value = false →
    roomNeeded key value (t.page page) ≤ freeSpace (t.page page)
  halves : ∀ above page t, Visit key value s above page t →
    needsSplit (t.page page) key value = true →
    2 ≤ cellCount (t.page page) ∧ HalfTakes key (roomNeeded key value (t.page page)) t.tree.pageSize
      (t.page page)
  separator : ∀ above page t, Visit key value s above page t →
    needsSplit (t.page page) key value = true →
    SeparatorHasRoom t page above

/-- The row is new to an ordered tree at rest, and nothing is in the way of its insert. -/
structure FreeWay (type : Nat) (K : Bytes → Prop) (rank : Bytes → Nat)
    (R : TreeRow → Prop) (key value : Blob)
    (s : Sys) : Prop where
  tree : OrderedTree type K rank R s
  orders : Orders K rank
  own : K key.bytes
  fresh : ∀ row, R row → rank row.key ≠ rank key.bytes
  row : Insertable type key value s
  small : key.size + value.size < 65536
  fits : RowFits key value s
  unrefused : s.Unrefused
  quiet : Quiet [] s

/-- The insert has made room on a page of this level, which is responsible for its key. -/
structure GoneDown (type : Nat) (rank : Bytes → Nat) (R : TreeRow → Prop) (key value : Blob)
    (s : Sys) (level : Nat)
    (page : PageRef) (t : Sys) : Prop where
  reach : Reaches key value s page t
  placed : ∃ nodes F q, PagesHold type nodes t ∧ Fenced rank R nodes F t ∧
    F.place page.id = some q ∧
    q.level = level ∧ q.Has (rank key.bytes)

section

variable {type fuel index : Nat} {K : Bytes → Prop} {rank : Bytes → Nat} {R : TreeRow → Prop}
  {nodes : PageId → TreeNode} {F : Fences} {s t u : Sys} {page parent p : PageRef} {above : Above}
  {key value : Blob} {held : List PageRef}

/-! ### Splits -/

theorem splitRoot_succeeds (h : Holding [page] t) (hs : t.Unrefused) (hnew : NewPage 2 t)
    (hzero : t.pager.nextPage ≠ 0)
    (hcells : cellCount (t.page page) / 2 ≠ 0) :
    wp (splitRoot page key) (fun _ _ => True) (fun _ => False) (fun _ => False) t := by
  have hmem : page ∈ [page] := List.mem_singleton_self page
  have hhalved {split : PageRef} {v : Sys} (hid : split.id = t.pager.nextPage)
      (hfix : Fixes [page] t.pager.takeId t split v) :
      Holding [split, page] (v.halved page split) ∧ NewPage 1 (v.halved page split) ∧
        (v.halved page split).pager.nextPage ≠ 0 := by
    have hv := hfix.newPage hid hnew
    refine ⟨hfix.holding.halved, (hv.written hfix.holding (by simp) _).written
      (hfix.holding.written _) (by simp) _, ?_⟩
    exact Nat.ne_zero_of_lt (hv.fresh split.id
      (by simp [hfix.holding.pageAt (List.mem_cons_self ..)]))
  have hfree {u : Sys} (hu : NewPage 1 u) (hne : u.pager.nextPage ≠ 0) {f : Nat}
      (hf : u.pager.locate u.pager.nextPage = some f) :
      False := by
    rw [(pageAt_eq_none_iff hne).mp hu.nextPage_new] at hf
    cases hf
  -- no assertion of the split fails
  have hasserted : wp (splitRoot page key) (fun _ _ => True) (fun _ => True)
      (fun _ => False) t := by
    refine wp_splitRoot h (fun hone => hcells hone) (fun _ _ _ _ _ => trivial)
      (fun f hf _ => hfree (hnew.mono (by decide)) hzero hf) (fun _ _ _ _ _ _ _ _ _ => trivial)
      (fun split v hid hfix f hf _ => ?_) fun _ _ _ _ _ _ _ _ _ => trivial
    obtain ⟨-, hv, hne⟩ := hhalved hid hfix
    exact hfree hv hne hf
  -- and the pager gives both of its pages
  have hgiven : wp (splitRoot page key) (fun _ _ => True) (fun _ => False) (fun _ => True) t := by
    rw [splitRoot, wp_bind]
    refine wp_mono ((nextPage_unrefused h hs (hnew.mono (by decide)) hzero).and
      (kept_unrefused.tryCall kept_unrefused.next t hs))
      (fun split v hv => ?_) (fun _ hf => hf.1) fun _ hf => hf.1.elim
    obtain ⟨⟨hid, hfix⟩, hs'⟩ := hv
    obtain ⟨hheld, hv, hne⟩ := hhalved hid hfix
    rw [wp_bind]
    refine wp_splitPage (fun _ => trivial) fun _ => ?_
    rw [wp_bind]
    refine wp_mono (nextPage_unrefused hheld ⟨hs'.calls, hs'.mallocs⟩ hv hne)
      (fun new w _ => ?_) (fun _ hf => hf)
      fun _ hf => hf.elim
    simp only [wp_deferred, wp_bind, wp_get, wp_readPage, wp_writePage, setRoot, wp_modify]
    split
    · exact wp_bind.mpr (wp_pagerUnfix_of_all fun _ => wp_pagerUnfix_of_all fun _ => trivial)
    · exact wp_bind.mpr (wp_pagerUnfix_of_all fun _ => wp_pagerUnfix_of_all fun _ => trivial)
  exact wp_mono (hgiven.and hasserted) (fun _ _ _ => trivial) (fun _ hf => hf.1) fun _ hf => hf.2

theorem splitChild_succeeds (h : Holding [page, parent] t) (hs : t.Unrefused) (hnew : NewPage 1 t)
    (hzero : t.pager.nextPage ≠ 0) (hcells : cellCount (t.page page) / 2 ≠ 0)
    (hroom : (t.splitKey page t.pager.nextPage).size + sizeofPageId + 2 ≤
      freeSpace (t.page parent)) :
    wp (splitChild parent page index key) (fun _ _ => True) (fun _ => False)
      (fun _ => False) t := by
  have hnone := (pageAt_eq_none_iff hzero).mp hnew.nextPage_new
  have hasserted : wp (splitChild parent page index key) (fun _ _ => True) (fun _ => True)
      (fun _ => False) t := by
    refine wp_splitChild h (fun hone => hcells hone) (fun r hr => ?_) (fun _ _ _ _ _ => trivial)
      (fun f hf _ => ?_) fun _ _ _ _ _ _ _ => trivial
    · obtain ⟨data, hdata⟩ := pageInsertInner_fits hroom
      rw [hdata] at hr
      cases hr
    · rw [hnone] at hf
      cases hf
  have hgiven : wp (splitChild parent page index key) (fun _ _ => True) (fun _ => False)
      (fun _ => True) t := by
    rw [splitChild, wp_bind]
    refine wp_mono (nextPage_unrefused h hs hnew hzero) (fun split v _ => ?_) (fun _ hf => hf)
      fun _ hf => hf.elim
    rw [wp_bind]
    refine wp_splitPage (fun _ => trivial) fun _ => ?_
    rw [wp_bind]
    refine wp_insertInner (fun _ _ => trivial) fun _ _ => ?_
    split
    · exact wp_bind.mpr (wp_pagerUnfix_of_all fun _ => trivial)
    · exact wp_bind.mpr (wp_pagerUnfix_of_all fun _ => trivial)
  exact wp_mono (hgiven.and hasserted) (fun _ _ _ => trivial) (fun _ hf => hf.1) fun _ hf => hf.2

/-- Room is made on a page that is not split, or has two cells and a place for its separator. -/
theorem makeRoom_succeeds (h : Standing key value s above page t) (hs : t.Unrefused)
    (hzero : t.pager.nextPage ≠ 0)
    (hsplit : needsSplit (t.page page) key value = true →
      NewPage above.newPages t ∧ 2 ≤ cellCount (t.page page) ∧ SeparatorHasRoom t page above) :
    ∃ p u, makeRoom key value page above t = .success p u := by
  have hmade : wp (makeRoom key value page above) (fun _ _ => True) (fun _ => False)
      (fun _ => False) t := by
    cases above with
    | none =>
        simp only [makeRoom, wp_bind, wp_readPage, wp_ite]
        split
        · rename_i hfull
          obtain ⟨hnew, htwo, -⟩ := hsplit hfull
          exact splitRoot_succeeds h.holding hs hnew hzero (by omega)
        · trivial
    | some above =>
        obtain ⟨parent, index⟩ := above
        have hheld : Holding [page, parent] t := h.holding
        have hmem : parent ∈ [page, parent] := by simp
        simp only [makeRoom, wp_deferred, wp_bind, wp_readPage, wp_ite]
        split
        · rename_i hfull
          obtain ⟨hnew, htwo, hroom⟩ := hsplit hfull
          refine wp_mono ((splitChild_succeeds hheld hs hnew hzero (by omega) hroom).and
            (splitChild_settled h))
            (fun p u hu => ?_) (fun _ hf => hf.1.elim) fun _ hf => hf.1
          exact wp_mono hu.2 (fun _ _ _ => trivial) (fun _ hf => hf) fun _ hf => hf
        · exact hheld.wp_pagerUnfix hmem trivial
  obtain ⟨p, u, hrun, -⟩ := hmade.exists_success
  exact ⟨p, u, hrun⟩

/-! ### Room for the row -/

theorem pageFlags_chosenData {node : TreeNode}
    (h : PageHolds type t.tree.pageSize (t.page page) node) (key : Blob)
    (hid : t.pager.nextPage < 2 ^ 32) (next : Mem) :
    pageFlags (chosenData key t page next) = pageFlags (t.page page) := by
  rw [h.flags, chosenData]
  split
  · rw [(h.splitLeft t.stack hid).flags, nodeFlags_takeTo]
  · rw [(h.splitRight t.stack).flags, nodeFlags_dropTo]

/-- Once room is made the page has the room the insert asks for. -/
theorem Reaches.room (hfits : RowFits key value s) (hok : s.PagerOk) (h : PagesHold type nodes s)
    (hpages : HasPages key value s) (hspace : Uncompacted key value s)
    (hreach : Reaches key value s page t) :
    roomNeeded key value (t.page page) ≤ freeSpace (t.page page) := by
  have hheld := (hreach.settled hok).holding
  obtain ⟨above, p, u, hvisit, hmade⟩ := hreach
  obtain ⟨nodes', hu⟩ := hvisit.pagesHold hok h hpages hspace
  have hstand := hvisit.standing hok
  have hspare := hpages _ _ _ hvisit
  have hmakes := makeRoom_makes hstand.holding (fun hfull => hu.newPage (hspare hfull)) hmade
  cases hfull : needsSplit (u.page p) key value with
  | false =>
      have hroom := hfits.stays _ _ _ hvisit hfull
      cases hmakes with
      | stayRoot _ => exact hroom
      | stayChild _ => rwa [Sys.page_unfixed]
      | splitRoot hfull' _ => simp [hfull'] at hfull
      | splitChild hfull' _ => simp [hfull'] at hfull
  | true =>
      have hholds := hu.onPage hstand.holding (List.mem_cons_self ..)
      have hid := (hspare hfull).nextPage_lt
      obtain ⟨htwo, htakes⟩ := hfits.halves _ _ _ hvisit hfull
      obtain ⟨next, hchosen⟩ := hmakes.page_chosen hu hstand hfull hheld
      have hcut : cutAt (nodes' p.id) ≠ 0 := by
        rw [cutAt, ← hholds.count]
        omega
      rw [roomNeeded, hchosen, pageFlags_chosenData hholds key hid]
      exact (hholds.halfTakes_iff key hcut hid _ next).mpr htakes

/-! ### The way down -/

theorem fixRoot_succeeds (hok : s.PagerOk) (hs : s.Unrefused) (hquiet : Quiet [] s)
    (hroot : s.pageAt s.tree.root ≠ none) :
    ∃ page t, fixRoot s = .success page t := by
  have hzero : s.tree.root ≠ 0 := fun hzero => hroot (hzero ▸ Sys.pageAt_zero s)
  have hfixed : wp fixRoot (fun _ _ => True) (fun _ => False) (fun _ => False) s := by
    refine wp_fixRoot hok (fun q e heap _ _ hcause => ?_) (fun f hf hlatch => ?_)
      fun _ _ _ _ => trivial
    · rcases hcause with hout | hid | hnone
      · rw [hs.calls] at hout
        cases hout
      · exact hzero hid
      · exact hroot ((pageAt_eq_none_iff hzero).mpr hnone)
    · exact hlatch (hquiet _ f hzero hf (by simp))
  obtain ⟨page, t, hrun, -⟩ := hfixed.exists_success
  exact ⟨page, t, hrun⟩

theorem stepDown_succeeds (h : Holding [page] t) (hs : t.Unrefused) (hquiet : Quiet [page] t)
    (hnew : (pageFindPointer (t.page page) key).1 = false)
    (hthere : t.pageAt (childAt (t.page page) (pageFindPointer (t.page page) key).2) ≠ none)
    (hne : childAt (t.page page) (pageFindPointer (t.page page) key).2 ≠ page.id) :
    ∃ child index u, stepDown page key t = .success (child, index) u := by
  have hzero : childAt (t.page page) (pageFindPointer (t.page page) key).2 ≠ 0 :=
    fun hzero => hthere (hzero ▸ Sys.pageAt_zero t)
  have hstep : wp (stepDown page key) (fun _ _ => True) (fun _ => False) (fun _ => False) t := by
    refine wp_stepDown h (fun hfound _ _ => ?_) hzero (fun q e heap _ _ hcause => ?_)
      (fun f hf hlatch => ?_)
      fun _ _ _ _ _ => trivial
    · rw [hnew] at hfound
      cases hfound
    · rcases hcause with hout | hnone
      · rw [hs.calls] at hout
        cases hout
      · exact hthere ((pageAt_eq_none_iff hzero).mpr hnone)
    · refine hlatch (hquiet _ f hzero hf fun q hq => ?_)
      rw [List.mem_singleton.mp hq]
      exact hne.symm
  obtain ⟨⟨child, index⟩, u, hrun, -⟩ := hstep.exists_success
  exact ⟨child, index, u, hrun⟩

theorem FreeWay.inOrder (h : FreeWay type K rank R key value s) : InOrder type K rank R key :=
  h.tree.inOrder h.orders h.row.keyEncoded h.own

theorem FreeWay.splitsApart (h : FreeWay type K rank R key value s) : SplitsApart key value s :=
  h.tree.splitsApart h.orders h.row h.own h.fresh

theorem FreeWay.room (h : FreeWay type K rank R key value s) (hreach : Reaches key value s page t) :
    roomNeeded key value (t.page page) ≤ freeSpace (t.page page) := by
  obtain ⟨nodes, F, hnodes, -⟩ := h.tree.fenced
  exact hreach.room h.fits h.tree.ok hnodes h.row.pages h.row.space

/-- The key is on no page that is responsible for it. -/
theorem FreeWay.not_found (h : FreeWay type K rank R key value s) (ht : PagesHold type nodes t)
    (hfenced : Fenced rank R nodes F t) (hheld : Holding [page] t)
    (hcovers : Covers rank F key.bytes page.id) :
    (pageFindPointer (t.page page) key).1 = false := by
  rw [Bool.eq_false_iff]
  intro hfound
  obtain ⟨row, hrow, hrank⟩ := hfenced.row_of_found h.inOrder hcovers
    (ht.onPage hheld (List.mem_singleton_self page)) hfound
  exact h.fresh row hrow hrank

/-- The insert makes room on every page it visits. -/
theorem FreeWay.makesRoom {q : Place Nat} (h : FreeWay type K rank R key value s)
    (hvisit : Visit key value s above page t) (ht : PagesHold type nodes t)
    (hhangs : Hangs nodes (varintGet key.data).1 page above)
    (hway : OnWay rank R key.bytes F above page t nodes)
    (hpage : F.place page.id = some q) (hhas : q.Has (rank key.bytes)) :
    ∃ p u, GoneDown type rank R key value s q.level p u := by
  have hstand := hvisit.standing h.tree.ok
  have hspare := h.row.pages _ _ _ hvisit
  obtain ⟨p, u, hmade⟩ := makeRoom_succeeds hstand
      (kept_unrefused.visit h.unrefused hvisit) ht.nextPage_ne_zero
    fun hfull => ⟨ht.newPage (hspare hfull), (h.fits.halves _ _ _ hvisit hfull).1,
      h.fits.separator _ _ _ hvisit hfull⟩
  have hmakes := makeRoom_makes hstand.holding (fun hfull => ht.newPage (hspare hfull)) hmade
  obtain ⟨nodes', hgrows, hu⟩ := hmakes.grows ht hstand hhangs hspare
      fun parent index habove hfull => by
    subst habove
    exact h.row.space.parent parent index page t hvisit hfull
  obtain ⟨F', r, hfenced, hr, hlevel, hhas'⟩ := hway.grows_level h.inOrder ht hstand.holding hspare
    (h.splitsApart _ _ _ hvisit) hgrows hpage hhas
  exact ⟨p, u, ⟨above, page, t, hvisit, hmade⟩, nodes', F', r, hu, hfenced, hr, hlevel, hhas'⟩

/-- The insert comes to the root. -/
theorem FreeWay.gone_root (h : FreeWay type K rank R key value s) :
    ∃ level page t, GoneDown type rank R key value s level page t := by
  obtain ⟨nodes, F, hnodes, hfenced⟩ := h.tree.fenced
  obtain ⟨page, t, hfix⟩ := fixRoot_succeeds h.tree.ok h.unrefused h.quiet hnodes.root
  obtain ⟨hid, hfixes⟩ := fixRoot_fixes h.tree.ok hfix
  have hsame := hfixes.samePages (hid ▸ hnodes.root)
  have hfenced' := hfenced.same hsame
  rw [← hsame.tree] at hid
  obtain ⟨q, hq, hhas⟩ := hid ▸ hfenced'.covers_root key.bytes
  have hway : OnWay rank R key.bytes F none page t nodes :=
    ⟨hfenced', ⟨q, hq, hhas⟩, fun _ => hid, fun _ _ habove => by cases habove⟩
  obtain ⟨p, u, hgone⟩ := h.makesRoom (.root hfix) (hnodes.same hsame) trivial hway hq hhas
  exact ⟨_, p, u, hgone⟩

/-- One step down. -/
theorem FreeWay.goes_down {level : Nat} (h : FreeWay type K rank R key value s)
    (hgone : GoneDown type rank R key value s (level + 1) page t) :
    ∃ p u, GoneDown type rank R key value s level p u := by
  obtain ⟨hreach, nodes, F, q, ht, hfenced, hpage, hlevel, hhas⟩ := hgone
  have hheld := (hreach.settled h.tree.ok).holding
  have hmem := List.mem_singleton_self page
  have hholds := ht.onPage hheld hmem
  have hcovers : Covers rank F key.bytes page.id := ⟨q, hpage, hhas⟩
  have hnotLeaf : pageIsLeaf (pageFlags (t.page page)) = false := by
    rw [Bool.eq_false_iff, ne_eq, hfenced.isLeaf_iff hholds hpage]
    omega
  have hinner : pageIsInner (pageFlags (t.page page)) = true := by
    rw [pageIsInner_eq, hnotLeaf, Bool.not_false]
  have hspace : payloadPutLen (pageFlags (t.page page)) key value ≤ freeSpace (t.page page) := by
    have hroom := h.room hreach
    rwa [roomNeeded, hnotLeaf] at hroom
  -- the child is of a lower level, and so another page
  have hother : childAt (t.page page) (pageFindPointer (t.page page) key).2 ≠ page.id := by
    obtain ⟨pre, post, right, henters, -, hchild, -⟩ := hholds.inner_search hinner key
    obtain ⟨p, r, hp, -, hr, hl, -⟩ := hfenced.enters h.inOrder hcovers henters
    intro heq
    rw [← hchild, heq, hp] at hr
    obtain rfl := Option.some.inj hr
    omega
  obtain ⟨child, index, u, hstep⟩ := stepDown_succeeds hheld
      (kept_unrefused.reaches h.unrefused hreach)
    ((hreach.balanced h.tree.ok).quiet h.quiet) (h.not_found ht hfenced hheld hcovers)
    (ht.child_there hheld hmem hinner key) hother
  obtain ⟨above, p, v, hvisit, hmade⟩ := hreach
  obtain ⟨hhangs, hsame⟩ := stepDown_hangs ht hheld hinner hstep
  obtain ⟨pre, post, right, hbelow⟩ := hhangs
  obtain ⟨p', r, hp', -, hr, hl, hhas'⟩ := hfenced.enters h.inOrder hcovers hbelow.enters
  obtain rfl := Option.some.inj (hp'.symm.trans hpage)
  rw [← hbelow.child] at hr
  obtain rfl : r.level = level := by omega
  exact h.makesRoom (.child hvisit hmade hinner hspace hstep) (ht.same hsame)
    ⟨pre, post, right, hbelow⟩
    ((hfenced.same hsame).onWay_child h.inOrder hcovers hbelow) hr hhas'

/-- From every page of its way the insert comes down to a leaf. -/
theorem FreeWay.comes_to_leaf {level : Nat} (h : FreeWay type K rank R key value s)
    (hgone : GoneDown type rank R key value s level page t) :
    ∃ leaf u, GoneDown type rank R key value s 0 leaf u := by
  induction level generalizing page t with
  | zero => exact ⟨page, t, hgone⟩
  | succ level ih =>
      obtain ⟨p, u, hdown⟩ := h.goes_down hgone
      exact ih hdown

/-- An insert with nothing in its way succeeds. -/
theorem FreeWay.succeeds (h : FreeWay type K rank R key value s) (hcode : errorGetCode s.err = 0) :
    ∃ n u, ∀ fuel, n ≤ fuel → btreeInsert fuel key value s = .success () u := by
  obtain ⟨level, page, t, hgone⟩ := h.gone_root
  obtain ⟨leaf, u, hreach, nodes, F, q, hu, hfenced, hpage, hlevel, hhas⟩ := h.comes_to_leaf hgone
  have hheld := (hreach.settled h.tree.ok).holding
  have hleaf :=
    (hfenced.isLeaf_iff (hu.onPage hheld (List.mem_singleton_self leaf)) hpage).mpr hlevel
  have hroom := h.room hreach
  have hsmall := h.small
  rw [roomNeeded, hleaf, if_pos rfl, payloadPutLen_leaf hleaf, Nat.mod_eq_of_lt hsmall] at hroom
  exact hreach.completes h.tree.ok hleaf hcode (h.not_found hu hfenced hheld ⟨q, hpage, hhas⟩) hroom

end

end Wednesday
