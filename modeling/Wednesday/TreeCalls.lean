import Wednesday.TreeRecycled

/-!
The calls of a tree on both sides. Two processes that differ in what their frames
held before they were given to a tree create trees, insert rows and look them up
alike.
-/

namespace Wednesday

open Lib Prog Pager FenceTree

section

variable {α : Type} {X : PageId → Bool} {pageSize type fuel : Nat} {s t u v : Sys} {page : PageRef}
  {key value : Blob}

/-! ### Inserts -/

theorem agree_readLift {β ν : Type} {x y : ν} {p q : PageRef} {Q : α → β → Sys × ν → Sys × ν → Prop}
    {E : Sys × ν → Sys × ν → Prop} {f : Mem → Prog Fault (Sys × ν) α}
    {g : Mem → Prog Fault (Sys × ν) β}
    (h : Agree (f (s.page p)) (g (t.page q)) Q E (s, x) (t, y)) :
    Agree (lift (readPage p) >>= f) (lift (readPage q) >>= g) Q E (s, x) (t, y) := h

theorem agree_fixRoot (hok : s.PagerOk) (h : Alike X pageSize s t)
    (hroot : HasType pageSize (s.ownAt X) type s.tree.root) :
    Agree fixRoot fixRoot (fun p q u v => p = q ∧ Follows X pageSize s u v ∧
      HasType pageSize (u.ownAt X) type p.id)
      (Follows X pageSize s) s t := by
  refine agree_get ?_
  rw [tree_eq h.bare]
  refine agree_bind (agree_fixPage h (Holding.nil hok) hroot.there) ?_
  rintro root _ u v - ⟨rfl, hid, -, hend⟩
  refine ⟨root, _, rfl, rfl, ⟨⟨?_, hend.alike.size, hend.alike.pages, hend.alike.nextPage⟩,
    hend.stays.types, hend.stays.size, hend.stays.root⟩, ?_⟩
  · exact congrArg (fun x : Sys => { x with cleanups := { x.cleanups with
      registered := x.cleanups.registered + 1 } }) hend.alike.bare
  · exact hid ▸ hend.stays.types type _ hroot

theorem wp_deferGuard_pages (page : PageRef) (s : Sys) : wp (deferGuard (pagerUnfix page))
    (fun _ u => u.pageAt = s.pageAt ∧ u.tree = s.tree ∧ u.pager.nextPage = s.pager.nextPage ∧
      u.pager.pageSize = s.pager.pageSize) (fun _ => False) (fun _ => True) s := by
  rw [deferGuard, wp_bind, wp_get, wp_ite]
  split
  · exact ⟨rfl, rfl, rfl, rfl⟩
  · exact wp_pagerUnfix_pages page _

/-- The cleanup of an insert runs on both sides, or on none. -/
theorem Follows.deferGuard (h : Follows X pageSize s u v) (page : PageRef) {E : Sys → Sys → Prop} :
    Agree (deferGuard (pagerUnfix page)) (deferGuard (pagerUnfix page))
      (fun _ _ => Follows X pageSize s) E u v := by
  refine (((ignores_deferGuard (ignores_pagerUnfix page)).agree h.alike.bare).and_wp
    (wp_deferGuard_pages page u)
    (wp_deferGuard_pages page v)).mono (fun _ _ x y hend => ?_) fun _ _ hend => hend.2.1.elim
  obtain ⟨⟨-, hbare⟩, ⟨hleft, htree, hnext, hsize⟩, ⟨hright, -, -⟩⟩ := hend
  refine ⟨⟨hbare, hsize.trans h.alike.size, ?_, hnext ▸ h.alike.nextPage⟩,
    h.stays.trans (stays_of_same (ownAt_congr hleft) htree)⟩
  rw [ownAt_congr hleft, ownAt_congr hright]
  exact h.alike.pages

theorem agree_btreeInsert (hok : s.PagerOk) (hnew : TakesNew X key value s)
    (hspace : Uncompacted key value s)
    (h : Alike X pageSize s t) (hsize : s.tree.pageSize = pageSize)
    (hroot : HasType pageSize (s.ownAt X) type s.tree.root) (hkey : KeyEncoded type key.bytes)
    (hvalue : ValueEncoded type value.bytes) :
    Agree (btreeInsert fuel key value) (btreeInsert fuel key value)
      (fun _ _ => Follows X pageSize s)
      (Follows X pageSize s) s t := by
  rw [btreeInsert_eq]
  refine agree_bind (agree_fixRoot hok h hroot) ?_
  rintro root _ u v hfix ⟨rfl, hend, htype⟩
  have hvisit : Visit key value s none root u := .root hfix
  have hheld : Holding [root] u := (hvisit.standing hok).holding
  have hmem := List.mem_singleton_self root
  have hu := hend.alike
  have hsize' := hend.stays.size.trans hsize
  obtain ⟨node, hnode, -⟩ := hu.node hheld hmem htype
  -- Below the root the rest of the insert holds the page of the local variable.
  have hbelow {page : PageRef} {x y : Sys} (hreach : Reaches key value s page x)
      (hxy : Follows X pageSize s x y)
      (hpage : HasType pageSize (x.ownAt X) type page.id) :
      Agree (insertBelow fuel key value) (insertBelow fuel key value)
        (fun _ _ a b => a.2 = b.2 ∧ Follows X pageSize s a.1 b.1)
        (fun a b => a.2 = b.2 ∧ Follows X pageSize s a.1 b.1) (x, page) (y, page) := by
    have hpageHeld := (hreach.settled hok).holding
    have hx := hxy.stays.size.trans hsize
    refine agree_bind (agree_readVar (Q := fun p q a b => p = page ∧ q = page ∧
      a = (x, page) ∧ b = (y, page))
      ⟨rfl, rfl, rfl, rfl⟩) ?_
    rintro _ _ _ _ - ⟨rfl, rfl, rfl, rfl⟩
    refine agree_readLift (agree_ite
      (by rw [flags_agree hxy.alike hpageHeld (List.mem_singleton_self _) hpage])
      (fun hleaf => ?_) fun _ => ?_)
    · exact agree_lift ((agree_placeRow hok hspace hreach hxy.alike hx hpage hleaf hkey hvalue).mono
        (fun _ _ _ _ hf => ⟨rfl, hxy.stays.follows hf⟩) fun _ _ hf => ⟨rfl, hxy.stays.follows hf⟩)
    · exact agree_lift
        ((agree_tryCall (agree_btreeInsertWalk hok hnew hspace hreach hxy.alike hx hpage hkey
        hvalue)).mono (fun _ _ _ _ hf => ⟨rfl, hxy.stays.follows hf⟩) fun _ _ hf =>
          ⟨rfl, hxy.stays.follows hf⟩)
  have hexit {a b : Sys × PageRef} (hab : a.2 = b.2 ∧ Follows X pageSize s a.1 b.1) :
      Agree (deferGuard (pagerUnfix a.2)) (deferGuard (pagerUnfix b.2))
        (fun _ _ => Follows X pageSize s)
        (Follows X pageSize s) a.1 b.1 := by
    rw [← hab.1]
    exact hab.2.deferGuard a.2
  refine agree_withVar (Agree.mono (E := fun a b => a.2 = b.2 ∧ Follows X pageSize s a.1 b.1)
    (Q := fun _ _ a b => a.2 = b.2 ∧ Follows X pageSize s a.1 b.1) ?_ (fun _ _ _ _ => hexit)
    fun _ _ => hexit)
  refine agree_readLift (agree_ite (by rw [hnode.needsSplit key value]) (fun hfull => ?_)
    fun hstay => ?_)
  · obtain ⟨hid, hfixes⟩ := fixRoot_fixes hok hfix
    have hsplit : Agree (splitRoot root key) (splitRoot root key) _ _ u v :=
      agree_splitRoot hu hsize' hheld htype (hid.trans (congrArg BTree.root hfixes.tree).symm)
        (hnew u (.split hvisit hfull)) fun _ _ _ _ hnext hcut =>
        hnew _ (.root hvisit hfull hnext hcut)
    refine agree_bind (agree_lift (Q := fun p q a b => p = q ∧ Follows X pageSize u a.1 b.1 ∧
      HasType pageSize (a.1.ownAt X) type p.id) (hsplit.mono (fun _ _ _ _ hf => hf) fun x y hf =>
        ⟨rfl, hend.stays.follows hf⟩)) ?_
    rintro p _ ⟨x, x'⟩ ⟨y, y'⟩ hrun ⟨rfl, hf, hp⟩
    obtain ⟨hrun', -⟩ := lift_eq_success.mp hrun
    have hmade : makeRoom key value root none u = .success p x := by
      simp only [makeRoom, bind_apply, readPage_apply, Outcome.bind_success, if_pos hfull]
      exact hrun'
    refine agree_bind (agree_writeVar (Q := fun _ _ a b => a = (x, p) ∧ b = (y, p)) ⟨rfl, rfl⟩) ?_
    rintro - - _ _ - ⟨rfl, rfl⟩
    exact hbelow ⟨none, root, u, hvisit, hmade⟩ (hend.stays.follows hf) hp
  · have hmade : makeRoom key value root none u = .success root u := by
      simp only [makeRoom, bind_apply, readPage_apply, Outcome.bind_success, if_neg hstay]
      rfl
    exact hbelow ⟨none, root, u, hvisit, hmade⟩ hend htype

/-! ### Lookups -/

/-- The same page is left on both sides. -/
theorem agree_leave {held : List PageRef} (h : Alike X pageSize s t) (hheld : Holding held s)
    (hpage : page ∈ held)
    {E : Sys → Sys → Prop} : Agree (pagerUnfix page) (pagerUnfix page)
      (fun _ _ u v => u = s.unfixed page ∧ v = t.unfixed page ∧
        Follows X pageSize s u v) E s t := by
  have hs : wp (pagerUnfix page) (fun _ u => u = s.unfixed page) (fun _ => False)
      (fun _ => True) s :=
    hheld.wp_pagerUnfix hpage rfl
  have ht : wp (pagerUnfix page) (fun _ v => v = t.unfixed page) (fun _ => False)
      (fun _ => True) t :=
    (holding_right h.bare hheld).wp_pagerUnfix hpage rfl
  have hfollows : Agree (pagerUnfix page) (pagerUnfix page)
      (fun _ _ => Follows X pageSize s) E s t := h.unfix page
  exact (hfollows.and_wp hs ht).mono (fun _ _ _ _ hend => ⟨hend.2.1, hend.2.2, hend.1⟩)
      fun _ _ hend =>
    hend.2.1.elim

/-- Both lookups stand on the same leaf. -/
structure OnLeaf (X : PageId → Bool) (pageSize type : Nat) (s : Sys)
    (a b : Sys × PageRef) : Prop where
  page : a.2 = b.2
  follows : Follows X pageSize s a.1 b.1
  holding : Holding [a.2] a.1
  type : HasType pageSize (a.1.ownAt X) type a.2.id
  leaf : pageIsLeaf (pageFlags (a.1.page a.2)) = true

theorem OnLeaf.from {a b : Sys × PageRef} (h : OnLeaf X pageSize type u a b)
    (hstays : Stays X pageSize s u) :
    OnLeaf X pageSize type s a b :=
  ⟨h.page, hstays.follows h.follows, h.holding, h.type, h.leaf⟩

/-- The way down of a lookup leads to the same leaf on both sides. -/
theorem agree_lookupLoop (h : Alike X pageSize s t) (hheld : Holding [page] s)
    (htype : HasType pageSize (s.ownAt X) type page.id) :
    Agree (lookupLoop key fuel) (lookupLoop key fuel) (fun _ _ => OnLeaf X pageSize type s)
      (fun a b => a.2 = b.2 ∧ Follows X pageSize s a.1 b.1) (s, page) (t, page) := by
  induction fuel generalizing s t page with
  | zero => exact agree_abort _
  | succ fuel ih =>
      have hmem := List.mem_singleton_self page
      obtain ⟨node, hnode, hlinks⟩ := h.node hheld hmem htype
      refine agree_bind (agree_readVar (Q := fun p q a b => p = page ∧ q = page ∧
        a = (s, page) ∧ b = (t, page))
        ⟨rfl, rfl, rfl, rfl⟩) ?_
      rintro _ page _ _ - ⟨rfl, rfl, rfl, rfl⟩
      refine agree_readLift (agree_ite (by rw [hnode.flags]) (fun hinner => ?_) fun hleaf => ?_)
      · obtain ⟨hchild, hlink⟩ := hnode.child hinner key
        have hthere := hlinks _ hlink
        dsimp only
        rw [← hchild]
        refine agree_bind (agree_assert (Q := fun _ _ a b => a = (s, page) ∧ b = (t, page)) id
          fun _ => ⟨rfl, rfl⟩) ?_
        rintro - - _ _ - ⟨rfl, rfl⟩
        refine agree_bind (Q := fun p q a b => p = q ∧ ∃ u v, a = (u, page) ∧ b = (v, page) ∧
          HasType pageSize (u.ownAt X) type p.id ∧ s.pageAt p.id ≠ none ∧
            Fixes [page] s.pager s p u ∧
          Follows X pageSize s u v) (agree_lift ((agree_fixPage h hheld hthere.there).mono
            (fun p q u v hend => ?_) fun u v hend => ⟨rfl, hend⟩)) ?_
        · obtain ⟨rfl, hid, hfix, hend⟩ := hend
          exact ⟨rfl, u, v, rfl, rfl, hid ▸ hend.stays.types type _ hthere,
            hid ▸ (ownAt_ne_none hthere.there).2, hfix, hend⟩
        rintro child _ _ _ - ⟨rfl, u, v, rfl, rfl, htype', hthere', hfix, hend⟩
        have hlooks := hfix.looksAt hthere'
        refine agree_bind (Q := fun _ _ a b => ∃ y, a = (u.unfixed page, page) ∧ b = (y, page) ∧
          Follows X pageSize u (u.unfixed page) y)
            (agree_lift ((agree_leave hend.alike hfix.holding (by simp)).mono
            (fun _ _ x y hleft => ?_) fun _ _ hfalse => hfalse)) ?_
        · obtain ⟨rfl, -, hleft⟩ := hleft
          exact ⟨y, rfl, rfl, hleft⟩
        rintro - - _ _ - ⟨y, rfl, rfl, hleft⟩
        refine agree_bind (agree_writeVar (Q := fun _ _ a b => a = (u.unfixed page, child) ∧
          b = (y, child))
          ⟨rfl, rfl⟩) ?_
        rintro - - _ _ - ⟨rfl, rfl⟩
        have hstays := hend.stays.trans hleft.stays
        refine (ih hleft.alike hlooks.holding (hleft.stays.types type _ htype')).mono
          (fun _ _ a b hon => hon.from hstays) fun a b hfails => ⟨hfails.1, hstays.follows hfails.2⟩
      · refine agree_pure ⟨rfl, .refl h, hheld, htype, ?_⟩
        rwa [pageIsInner_eq, Bool.not_eq_true', Bool.not_eq_false] at hleaf

/-- The value a lookup points to. -/
def Sys.valueAt (s : Sys) (ptr : DataPtr) : Bytes :=
  valueBytes (s.pager.header ptr.frame).data ptr.offset

/-- A lookup finds the same value on both sides, or none. -/
theorem agree_btreeLookup (hok : s.PagerOk) (h : Alike X pageSize s t)
    (hroot : HasType pageSize (s.ownAt X) type s.tree.root) :
    Agree (btreeLookup fuel key) (btreeLookup fuel key)
      (fun ptr ptr' u v => u.valueAt ptr = v.valueAt ptr' ∧ Follows X pageSize s u v)
      (Follows X pageSize s) s t := by
  refine agree_get ?_
  rw [tree_eq h.bare]
  refine agree_bind (agree_fixPage h (Holding.nil hok) hroot.there) ?_
  rintro page _ u v - ⟨rfl, hid, hfix, hend⟩
  have htype : HasType pageSize (u.ownAt X) type page.id := hid ▸ hend.stays.types type _ hroot
  have hloop : Agree (lookupLoop key fuel) (lookupLoop key fuel)
      (fun _ _ => OnLeaf X pageSize type u) _
      (u, page) (v, page) := agree_lookupLoop hend.alike hfix.holding htype
  refine agree_withVar (agree_bind (hloop.mono (fun _ _ _ _ hon => hon) fun a b hfails => ?_) ?_)
  · rw [← hfails.1]
    exact (hend.stays.follows hfails.2).unfix a.2
  rintro - - ⟨x, leaf⟩ ⟨y, leaf'⟩ - hon
  obtain rfl : leaf = leaf' := hon.page
  have hmem := List.mem_singleton_self leaf
  have hx := hon.follows.alike
  have hheld : Holding [leaf] x := hon.holding
  obtain ⟨node, hnode, -⟩ := hx.node hheld hmem hon.type
  have hfollows := hend.stays.follows hon.follows
  refine agree_bind (agree_readVar (Q := fun p q a b => p = leaf ∧ q = leaf ∧
    a = (x, leaf) ∧ b = (y, leaf))
    ⟨rfl, rfl, rfl, rfl⟩) ?_
  rintro _ leaf _ _ - ⟨rfl, rfl, rfl, rfl⟩
  refine agree_readLift ?_
  have hvalue := hnode.valueOn hon.leaf key
  rw [valueOn, valueOn, ← hnode.search key] at hvalue
  rw [← hnode.search key]
  rcases hsearch : pageFindPointer (x.page leaf) key with ⟨found, index⟩
  rw [hsearch] at hvalue
  cases found with
  | false =>
      exact agree_lift ((agree_failure hfollows).mono (fun _ _ _ _ hq => hq)
        fun a b hf => hf.unfix leaf)
  | true =>
      have hbytes := Option.some.inj hvalue
      refine agree_pure ?_
      refine (agree_leave hx hheld hmem).mono (fun _ _ a b hleft => ⟨?_, ?_⟩)
        fun _ _ hfalse => hfalse
      · obtain ⟨rfl, rfl, -⟩ := hleft
        have hleft : ((x.unfixed leaf).pager.header leaf.frame).data = x.page leaf :=
          Sys.page_unfixed x leaf leaf
        have hright : ((y.unfixed leaf).pager.header leaf.frame).data = y.page leaf :=
          Sys.page_unfixed y leaf leaf
        rw [Sys.valueAt, Sys.valueAt, hleft, hright]
        exact hbytes
      · exact hfollows.stays.follows hleft.2.2

/-! ### New trees -/

theorem Apart.btreeOpen {S T : PageId → Option Mem} {tree : BTree}
    (h : Apart X pageSize S T tree s t)
    (root : PageId) :
    Agree (btreeOpen true root) (btreeOpen true root)
      (fun r r' u v => r = r' ∧ r.2 = ⟨root, pageSize⟩ ∧ Apart X pageSize S T tree u v)
      (Apart X pageSize S T tree) s t := by
  have hsame {u v : Sys} (hbare : u.bare = v.bare) (hu : u.pager = s.pager ∧ u.tree = s.tree)
      (hv : v.pager = t.pager ∧ v.tree = t.tree) : Apart X pageSize S T tree u v := by
    refine ⟨hbare, by rw [hu.1, h.size], ?_, ?_, by rw [hu.2, h.tree],
      by rw [hu.1]; exact h.nextPage⟩
    · rw [← h.left]
      exact ownAt_congr (funext fun id => by simp only [Sys.pageAt, hu.1])
    · rw [← h.right]
      exact ownAt_congr (funext fun id => by simp only [Sys.pageAt, hv.1])
  refine (((ignores_btreeOpen true root).agree h.bare).and_wp (wp_btreeOpen true root s)
    (wp_btreeOpen true root t)).mono (fun r r' u v hend => ?_) fun u v hend => ?_
  · obtain ⟨⟨rfl, hbare⟩, ⟨htree, hu⟩, ⟨-, hv⟩⟩ := hend
    exact ⟨rfl, h.size ▸ htree, hsame hbare hu hv⟩
  · exact hsame hend.1 hend.2.1 hend.2.2

/-- The pages in `X`, and one more. -/
def andPage (X : PageId → Bool) (id : PageId) : PageId → Bool := fun j => j == id || X j

theorem ownAt_andPage {n : PageId} {d : Option Mem} {S : PageId → Option Mem} (hnone : S n = none)
    (h : u.ownAt X = Function.update S n d) : u.ownAt (andPage X n) = S := by
  funext id
  by_cases hid : id = n
  · simp [Sys.ownAt, andPage, hid, hnone]
  · have hpage := congrFun h id
    rw [Function.update_of_ne hid] at hpage
    simpa [Sys.ownAt, andPage, hid] using hpage

/-- A tree is created on both sides, on the same new page, or on none; then the
page belongs to no tree. -/
theorem agree_btreeCreate (hok : s.PagerOk) (hnew : NextNew X s) (h : Alike X pageSize s t)
    (htype : IsTreeType type)
    (hsmall : pageSize < 65536) (hsize : sizeofHeader ≤ pageSize) :
    Agree (btreeCreate true type) (btreeCreate true type) (fun r r' u v => r = r' ∧
      r.2.pageSize = pageSize ∧
      HasType pageSize (u.ownAt X) type r.2.root ∧ Follows X pageSize s u v)
      (fun u v => Alike (andPage X s.pager.nextPage) pageSize u v ∧
        u.ownAt (andPage X s.pager.nextPage) = s.ownAt X) s t := by
  have hheld := Holding.nil hok
  have hid := h.nextPage
  have hnone : s.ownAt X s.pager.nextPage = none := (ownAt_eq hnew.own).trans hnew.fresh
  have hnone' : t.ownAt X s.pager.nextPage = none := (h.pages.there _).mp hnone
  -- Where the page is not kept for a tree, the trees are left with what they had.
  have hdropped {d d' : Option Mem} {u v : Sys}
      (hapart : Apart X pageSize (Function.update (s.ownAt X)
      s.pager.nextPage d) (Function.update (t.ownAt X) s.pager.nextPage d') s.tree u v) :
      Alike (andPage X s.pager.nextPage) pageSize u v ∧
        u.ownAt (andPage X s.pager.nextPage) = s.ownAt X := by
    have hleft := ownAt_andPage hnone hapart.left
    refine ⟨⟨hapart.bare, hapart.size, ?_, hapart.nextPage⟩, hleft⟩
    rw [hleft, ownAt_andPage hnone' hapart.right]
    exact h.pages
  refine agree_bind (agree_pure (Q := fun _ _ x y => x = s ∧ y = t) ⟨rfl, rfl⟩) ?_
  rintro - - x y - ⟨hx, hy⟩
  subst x y
  refine agree_bind ((agree_nextPage h.apart hheld hnew.keeps).mono (fun _ _ _ _ hend => hend)
    fun u v hend => ?_) ?_
  · have hleft : Function.update (s.ownAt X) s.pager.nextPage none = s.ownAt X :=
      Function.update_eq_self_iff.mpr hnone.symm
    have hright : Function.update (t.ownAt X) s.pager.nextPage none = t.ownAt X :=
      Function.update_eq_self_iff.mpr hnone'.symm
    apply hdropped
    rw [hleft, hright]
    exact hend
  rintro root _ u v - ⟨rfl, hroot, hbare, hfix, hfix'⟩
  have hsizeU : u.pager.pageSize = pageSize := hfix.fixed.shape.pageSize.trans h.size
  have hsizeV : v.pager.pageSize = pageSize :=
    (congrArg (fun x : Sys => x.pager.pageSize) hbare).symm.trans hsizeU
  rw [← hroot] at hid hnone hdropped
  have hown : X root.id = false := hroot ▸ hnew.own
  have hroot' : root.id = t.pager.nextPage := hroot.trans (nextPage_right h.bare).symm
  have hu := hfix.ownAt_of_new (Or.inr rfl) (hroot ▸ hnew.keeps) hown
  have hv := hfix'.ownAt_of_new (Or.inr rfl) (hroot' ▸ evictsFor_right h.bare ▸ hnew.keeps) hown
  obtain ⟨d, hd⟩ : ∃ d, d = pageInitLeaf pageSize (u.page root) type := ⟨_, rfl⟩
  obtain ⟨d', hd'⟩ : ∃ d', d' = pageInitLeaf pageSize (v.page root) type := ⟨_, rfl⟩
  -- The new page stands for an empty leaf, whatever its frame held.
  have hnode : SameNode type pageSize (.leaf [] 0) d d' := hd ▸ hd' ▸ .initLeaf htype hsmall hsize
  have hold : s.ownAt X root.id ≠ none → HasType pageSize (s.ownAt X) type root.id :=
    fun hthere => absurd hnone hthere
  have hpages := h.pages.write hnode (fun c hc => absurd hc List.not_mem_nil) hold hid
  have hend {x y : Sys} (hapart : Apart X pageSize (Function.update (s.ownAt X) root.id (some d))
      (Function.update (t.ownAt X) root.id (some d')) s.tree x y) : Follows X pageSize s x y := by
    refine ⟨hapart.alike hpages, fun type' j hj => ?_, by rw [hapart.tree], fun type' hj => ?_⟩
    · rw [hapart.left]
      exact hj.write hold hnode.left
    · rw [hapart.left, hapart.tree]
      exact hj.write hold hnode.left
  have hwritten : Apart X pageSize (Function.update (s.ownAt X) root.id (some d))
      (Function.update (t.ownAt X) root.id (some d')) s.tree (u.written root d)
      (v.written root d') := by
    have hmem := List.mem_singleton_self root
    refine ⟨?_, hsizeU, ?_, ?_, hfix.tree, ?_⟩
    · rw [Sys.bare_written, Sys.bare_written, hbare]
    · rw [hfix.holding.ownAt_written hmem hown, hu, Function.update_idem]
    · rw [hfix'.holding.ownAt_written hmem hown, hv, Function.update_idem]
    · change u.pager.nextPage < 2 ^ 32
      rw [hfix.fixed.nextPage]
      exact Nat.mod_lt _ (by decide)
  refine agree_deferred (agree_get (agree_readPage (agree_writePage ?_)))
  rw [hsizeU, hsizeV, ← hd, ← hd']
  refine (hwritten.btreeOpen root.id).mono (fun r r' x y hopen => ?_) fun x y hopen => ?_
  · obtain ⟨rfl, htree, hapart⟩ := hopen
    refine (hapart.unfix root).mono (fun _ _ a b hleft => ⟨rfl, by rw [htree], ?_, hend hleft⟩)
      fun _ _ hfalse => hfalse
    rw [htree, hleft.left]
    exact ⟨d, _, Function.update_self .., hnode.left⟩
  · rw [← hroot]
    exact (hopen.unfix root).mono (fun _ _ a b hleft => hdropped hleft) fun _ _ hfalse => hfalse

/-! ### The bound on the walks -/

theorem extends_btreeInsertWalk {fuel' : Nat} (h : fuel ≤ fuel') (page : PageRef) :
    Extends (btreeInsertWalk fuel page key value) (btreeInsertWalk fuel' page key value) := by
  induction fuel generalizing fuel' page with
  | zero => exact extends_abort _ _
  | succ fuel ih =>
      obtain ⟨n, rfl⟩ : ∃ n, fuel' = n + 1 := ⟨fuel' - 1, by omega⟩
      refine (Extends.refl _).bind fun header => (Extends.refl _).bind fun _ =>
          (Extends.refl _).bind fun _ =>
        (Extends.refl _).bind fun child => (Extends.refl _).bind fun data => ?_
      exact Extends.ite (.refl _) ((ih (by omega) child).recover _)

theorem extends_btreeInsert {fuel' : Nat} (h : fuel ≤ fuel') (key value : Blob) :
    Extends (btreeInsert fuel key value) (btreeInsert fuel' key value) := by
  have hbelow : Extends (insertBelow fuel key value) (insertBelow fuel' key value) :=
    (Extends.refl _).bind fun root => (Extends.refl _).bind fun data =>
      Extends.ite (.refl _) (((extends_btreeInsertWalk h root).recover _).lift)
  rw [btreeInsert_eq, btreeInsert_eq]
  refine (Extends.refl _).bind fun root => Extends.withVar root _ ?_
  refine (Extends.refl _).bind fun data => Extends.ite ?_ hbelow
  exact (Extends.refl _).bind fun p => (Extends.refl _).bind fun _ => hbelow

theorem extends_lookupLoop {fuel' : Nat} (h : fuel ≤ fuel') (key : Blob) :
    Extends (lookupLoop key fuel) (lookupLoop key fuel') := by
  induction fuel generalizing fuel' with
  | zero => exact extends_abort _ _
  | succ fuel ih =>
      obtain ⟨n, rfl⟩ : ∃ n, fuel' = n + 1 := ⟨fuel' - 1, by omega⟩
      refine (Extends.refl _).bind fun page => (Extends.refl _).bind fun header =>
        Extends.ite ?_ (.refl _)
      refine (Extends.refl _).bind fun _ => (Extends.refl _).bind fun child =>
          (Extends.refl _).bind fun _ =>
        (Extends.refl _).bind fun _ => ?_
      exact ih (by omega)

theorem extends_btreeLookup {fuel' : Nat} (h : fuel ≤ fuel') (key : Blob) :
    Extends (btreeLookup fuel key) (btreeLookup fuel' key) :=
  (Extends.refl _).bind fun _ => (Extends.refl _).bind fun page =>
    Extends.withVar page pagerUnfix ((extends_lookupLoop h key).bind fun _ => .refl _)

/-- How far the walk may go does not matter for what the insert returns. -/
theorem btreeInsert_unique {fuel' : Nat} {o o' : Outcome Fault Sys Unit}
    (h : btreeInsert fuel key value s = o)
    (h' : btreeInsert fuel' key value s = o') (ho : ∀ r, o ≠ .fault r)
    (ho' : ∀ r, o' ≠ .fault r) : o = o' := by
  subst h h'
  exact (extends_btreeInsert (le_max_left fuel fuel') key value).eq_of_returns
    (extends_btreeInsert (le_max_right fuel fuel') key value) ho ho'

theorem btreeLookup_unique {fuel' : Nat} {o o' : Outcome Fault Sys DataPtr}
    (h : btreeLookup fuel key s = o)
    (h' : btreeLookup fuel' key s = o') (ho : ∀ r, o ≠ .fault r)
    (ho' : ∀ r, o' ≠ .fault r) : o = o' := by
  subst h h'
  exact (extends_btreeLookup (le_max_left fuel fuel') key).eq_of_returns
    (extends_btreeLookup (le_max_right fuel fuel') key) ho ho'

end

end Wednesday
