import Mathlib.Algebra.Order.Field.Basic
import Mathlib.Algebra.Order.Field.Rat
import Wednesday.PageNode
import Wednesday.TreePages

/-!
Every page of a tree stands for a node, and what the nodes link to is there and
never leads back. Nothing is said about the order of the keys: this holds for
trees whose keys compare in any way.
-/

namespace Wednesday

open Lib Prog Pager FenceTree

/-- The pages stand for these nodes, and the links of a node lead to pages. -/
structure PagesHold (type : Nat) (nodes : PageId → TreeNode) (s : Sys) : Prop where
  node : ∀ id data, s.pageAt id = some data → PageHolds type s.tree.pageSize data (nodes id)
  links : ∀ id, s.pageAt id ≠ none → ∀ c ∈ (nodes id).links, s.pageAt c ≠ none
  acyclic : ∃ rank : PageId → ℚ, ∀ id, s.pageAt id ≠ none → ∀ c ∈ (nodes id).links, rank id < rank c
  root : s.pageAt s.tree.root ≠ none
  fresh : ∀ id, s.pageAt id ≠ none → id < s.pager.nextPage

/-- There is room for a rank between one and those that follow it. -/
theorem exists_rank_between (a : ℚ) (l : List ℚ) (h : ∀ r ∈ l, a < r) :
    ∃ b, a < b ∧ ∀ r ∈ l, b < r := by
  induction l with
  | nil =>
      obtain ⟨b, hb⟩ := exists_gt a
      exact ⟨b, hb, by simp⟩
  | cons r l ih =>
      obtain ⟨b, hab, hb⟩ := ih fun r hr => h r (List.mem_cons_of_mem _ hr)
      obtain ⟨c, hac, hc⟩ := exists_between (lt_min hab (h r (List.mem_cons_self ..)))
      refine ⟨c, hac, fun q hq => ?_⟩
      rcases List.mem_cons.mp hq with rfl | hq
      · exact hc.trans_le (min_le_right _ _)
      · exact (hc.trans_le (min_le_left _ _)).trans (hb q hq)

section

variable {type : Nat} {nodes : PageId → TreeNode} {s t u : Sys} {page parent p : PageRef}
  {key value : Blob} {index : Nat} {held : List PageRef}

theorem PagesHold.congr (h : PagesHold type nodes s) (hpages : t.pageAt = s.pageAt)
    (htree : t.tree = s.tree) (hnext : s.pager.nextPage ≤ t.pager.nextPage) :
    PagesHold type nodes t := by
  refine ⟨?_, ?_, ?_, ?_, ?_⟩ <;> rw [hpages]
  · rw [htree]
    exact h.node
  · exact h.links
  · exact h.acyclic
  · rw [htree]
    exact h.root
  · exact fun id hid => (h.fresh id hid).trans_le hnext

theorem PagesHold.onPage (h : PagesHold type nodes s) (hheld : Holding held s)
    (hpage : page ∈ held) :
    PageHolds type s.tree.pageSize (s.page page) (nodes page.id) :=
  h.node page.id _ (hheld.pageAt hpage)

theorem PagesHold.newPage (h : PagesHold type nodes s) {n : Nat}
    (hspare : s.Spare n) : NewPage n s :=
  ⟨hspare, h.fresh⟩

/-! ### Splitting -/

/-- The nodes after a split of the page `c` into `c` and `n`. -/
def splitNodes (nodes : PageId → TreeNode) (c n : PageId) : PageId → TreeNode :=
  Function.update (Function.update nodes c ((nodes c).takeTo (cutAt (nodes c)) n)) n
    ((nodes c).dropTo (cutAt (nodes c)))

/-- The pages after `page_split`, before anything points to the new one. -/
structure SplitHolds (type : Nat) (nodes : PageId → TreeNode) (t : Sys) (page : PageRef)
    (store : PageId → Option Mem) : Prop where
  node : ∀ id data, store id = some data →
    PageHolds type t.tree.pageSize data (splitNodes nodes page.id t.pager.nextPage id)
  links : ∀ id, store id ≠ none → ∀ c ∈ (splitNodes nodes page.id t.pager.nextPage id).links,
    store c ≠ none
  there : ∀ id, store id ≠ none ↔ id = t.pager.nextPage ∨ t.pageAt id ≠ none
  ne : page.id ≠ t.pager.nextPage
  acyclic : ∃ rank : PageId → ℚ, rank page.id < rank t.pager.nextPage ∧
    (∀ id, t.pageAt id ≠ none → ∀ c ∈ (nodes id).links, rank id < rank c) ∧
    ∀ id, store id ≠ none → ∀ c ∈ (splitNodes nodes page.id t.pager.nextPage id).links,
      rank id < rank c

/-- A link of a split node is one of the node, or leads from the lower half to the upper. -/
theorem links_splitNodes {c n id : PageId} (hne : c ≠ n) {x : PageId}
    (hx : x ∈ (splitNodes nodes c n id).links) :
    (id = c ∧ x = n) ∨ (id = n ∧ x ∈ (nodes c).links) ∨ (id ≠ n ∧ x ∈ (nodes id).links) := by
  unfold splitNodes at hx
  by_cases hn : id = n
  · rw [hn, Function.update_self] at hx
    exact Or.inr (Or.inl ⟨hn, links_dropTo hx⟩)
  · rw [Function.update_of_ne hn] at hx
    by_cases hc : id = c
    · subst hc
      rw [Function.update_self] at hx
      rcases links_takeTo hx with hx | hx
      · exact Or.inl ⟨rfl, hx⟩
      · exact Or.inr (Or.inr ⟨hne, hx⟩)
    · rw [Function.update_of_ne hc] at hx
      exact Or.inr (Or.inr ⟨hn, hx⟩)

theorem PagesHold.splitStore (h : PagesHold type nodes t) (hheld : Holding held t)
    (hpage : page ∈ held) {n : Nat} (hspare : t.Spare n) (next : Mem) :
    SplitHolds type nodes t page (t.splitStore page next) := by
  have hhere : t.pageAt page.id ≠ none := by simp [hheld.pageAt hpage]
  have hne : page.id ≠ t.pager.nextPage := (h.fresh _ hhere).ne
  have hnode := h.onPage hheld hpage
  have hid : t.pager.nextPage < 2 ^ 32 := hspare.nextPage_lt
  have hmem : ∀ id, t.splitStore page next id ≠ none ↔ id = t.pager.nextPage ∨
      t.pageAt id ≠ none := by
    intro id
    by_cases hn : id = t.pager.nextPage
    · simp [Sys.splitStore, hn]
    · by_cases hp : id = page.id
      · simp [Sys.splitStore, hp, hhere, hne]
      · simp [Sys.splitStore, hn, hp]
  refine ⟨fun id data hdata => ?_, fun id hthere c hc => ?_, hmem, hne, ?_⟩
  · by_cases hn : id = t.pager.nextPage
    · subst hn
      simp only [Sys.splitStore, splitNodes, Function.update_self, Option.some.injEq] at hdata ⊢
      exact hdata ▸ hnode.splitRight t.stack
    · by_cases hp : id = page.id
      · subst hp
        simp only [Sys.splitStore, splitNodes, Function.update_of_ne hne, Function.update_self,
          Option.some.injEq] at hdata ⊢
        exact hdata ▸ hnode.splitLeft t.stack hid
      · simp only [Sys.splitStore, splitNodes, Function.update_of_ne hn,
          Function.update_of_ne hp] at hdata ⊢
        exact h.node id data hdata
  · rw [hmem]
    rcases links_splitNodes hne hc with ⟨-, hx⟩ | ⟨-, hx⟩ | ⟨hn, hx⟩
    · exact Or.inl hx
    · exact Or.inr (h.links page.id hhere c hx)
    · exact Or.inr (h.links id (((hmem id).mp hthere).resolve_left hn) c hx)
  · obtain ⟨rank, hrank⟩ := h.acyclic
    have hold {id : PageId} (hid : t.pageAt id ≠ none) : id ≠ t.pager.nextPage :=
      (h.fresh id hid).ne
    obtain ⟨b, hb, hlinks⟩ := exists_rank_between (rank page.id) ((nodes page.id).links.map rank)
      fun r hr => by
        obtain ⟨c, hc, rfl⟩ := List.mem_map.mp hr
        exact hrank page.id hhere c hc
    have hrank' : ∀ id, t.pageAt id ≠ none → ∀ c ∈ (nodes id).links,
        Function.update rank t.pager.nextPage b id < Function.update rank t.pager.nextPage b c := by
      intro id hid c hc
      rw [Function.update_of_ne (hold hid), Function.update_of_ne (hold (h.links id hid c hc))]
      exact hrank id hid c hc
    have hnew : Function.update rank t.pager.nextPage b page.id <
        Function.update rank t.pager.nextPage b t.pager.nextPage := by
      rwa [Function.update_of_ne hne, Function.update_self]
    refine ⟨Function.update rank t.pager.nextPage b, hnew, hrank', fun id hthere c hc => ?_⟩
    rcases links_splitNodes hne hc with ⟨rfl, rfl⟩ | ⟨rfl, hx⟩ | ⟨hn, hx⟩
    · exact hnew
    · rw [Function.update_self, Function.update_of_ne (hold (h.links page.id hhere c hx))]
      exact hlinks _ (List.mem_map_of_mem hx)
    · exact hrank' id (((hmem id).mp hthere).resolve_left hn) c hx

/-- The key a page is split at, as its node has it. -/
def cutKey (node : TreeNode) : Bytes := node.keys.getD (cutAt node - 1) []

theorem cutKey_eq {node : TreeNode} (hlt : cutAt node - 1 < node.keys.length) :
    cutKey node = node.keys[cutAt node - 1] :=
  List.getD_eq_getElem _ _ hlt

theorem PageHolds.splitKey_bytes {page : Mem} {node : TreeNode} {pageSize : Nat} {nextId : PageId}
    (h : PageHolds type pageSize page node) (stack : Mem) (hcut : cellCount page / 2 ≠ 0)
    (hid : nextId < 2 ^ 32) :
    (Wednesday.splitKey stack pageSize page nextId).bytes = cutKey node ∧
      KeyEncoded type (cutKey node) := by
  rw [h.count] at hcut
  obtain ⟨hlt, hkey⟩ := h.splitKey stack hcut hid
  rw [hkey, cutKey_eq hlt]
  exact ⟨rfl, h.keyEncoded (List.getElem_mem hlt)⟩

/-- The side a key falls on is decided by the last cell of the lower half. -/
theorem PageHolds.keyCompare_splitKey {pageSize : Nat} {data : Mem}
    {node : TreeNode} {nextId : PageId}
    (h : PageHolds type pageSize data node) (stack : Mem) (hcut : cutAt node ≠ 0)
    (hid : nextId < 2 ^ 32) (key : Mem) :
    keyCompare key (Wednesday.splitKey stack pageSize data nextId).data =
      idCompare (varintGet key).1 (Wednesday.cellId data (cellCount data / 2 - 1)) := by
  obtain ⟨hlt, hbytes⟩ := h.splitKey stack hcut hid
  have henc := h.keyEncoded (List.getElem_mem hlt)
  rw [← hbytes] at henc
  have hkey := (henc.varintGet_of_holds (Blob.holds_bytes _)).2
  rw [hbytes] at hkey
  rw [h.count]
  change keyCompare key _ = idCompare (varintGet key).1 (Wednesday.cellId data (cutAt node - 1))
  rw [h.cellId hlt, ← hkey]
  rfl

/-- The nodes after the split of a root. -/
def rootNodes (nodes : PageId → TreeNode) (c n : PageId) : PageId → TreeNode :=
  Function.update (splitNodes nodes c n) (n + 1) (.inner [⟨c, cutKey (nodes c)⟩] n)

/-- Every page with two cells leaves room for a new root. -/
theorem PageHolds.root_fits {page : Mem} {node : TreeNode} {pageSize : Nat}
    (h : PageHolds type pageSize page node) (hcut : cellCount page / 2 ≠ 0) :
    sizeofHeader + 2 + (sizeofPageId + (cutKey node).length) ≤ pageSize := by
  rw [h.count] at hcut
  have hlt : cutAt node - 1 + 1 < node.keys.length := by
    unfold cutAt
    omega
  have hroom := h.room_for_root hlt
  rwa [cutKey_eq (Nat.lt_of_succ_lt hlt)]

theorem PagesHold.rootSplit (h : PagesHold type nodes t) (hheld : Holding held t)
    (hpage : page ∈ held) (hspare : t.Spare 2) (hsplit : RootSplit key t page p u) :
    PagesHold type (rootNodes nodes page.id t.pager.nextPage) u := by
  obtain ⟨next, new, hstore⟩ := hsplit.store
  have hhalves := h.splitStore hheld hpage hspare next
  have hroot := h.onPage hheld hpage
  have hhere : t.pageAt page.id ≠ none := by simp [hheld.pageAt hpage]
  have hid : t.pager.nextPage < 2 ^ 32 := hspare.nextPage_lt
  obtain ⟨hbytes, hkey⟩ := hroot.splitKey_bytes t.stack hsplit.divided hid
  have hmem : ∀ id, u.pageAt id ≠ none ↔
      id = t.pager.nextPage + 1 ∨ t.splitStore page next id ≠ none := by
    intro id
    rw [hstore]
    by_cases hn : id = t.pager.nextPage + 1
    · simp [hn]
    · simp [hn]
  have hthere {id : PageId} (hid : id = t.pager.nextPage ∨ t.pageAt id ≠ none) :
      u.pageAt id ≠ none := by
    exact (hmem id).mpr (Or.inr ((hhalves.there id).mpr hid))
  have htop {id : PageId} (hid : t.splitStore page next id ≠ none) : id ≠ t.pager.nextPage + 1 := by
    rintro rfl
    rcases (hhalves.there _).mp hid with heq | hthere
    · exact absurd heq (Nat.lt_succ_self _).ne'
    · exact absurd (h.fresh _ hthere) (Nat.lt_succ_self _).not_gt
  refine ⟨fun id data hdata => ?_, fun id hthere' c hc => ?_, ?_, ?_, fun id hid' => ?_⟩
  · rw [hstore] at hdata
    rw [hsplit.pageSize]
    by_cases hn : id = t.pager.nextPage + 1
    · subst hn
      rw [Function.update_self, Option.some.injEq] at hdata
      rw [← hdata, rootNodes, Function.update_self, (hroot.splitLeft t.stack hid).flags]
      have hsize : (t.splitKey page t.pager.nextPage).size = (cutKey (nodes page.id)).length := by
        rw [← hbytes, Blob.length_bytes]
        rfl
      have hbytes' : (t.splitKey page t.pager.nextPage).bytes = cutKey (nodes page.id) := hbytes
      have hnew := pageHolds_pageInitRoot new
        ((nodes page.id).takeTo (cutAt (nodes page.id)) t.pager.nextPage) hroot.isType
        hroot.small (hsize ▸ hroot.root_fits hsplit.divided) (hbytes' ▸ hkey)
        ((h.fresh _ hhere).trans hid) hid
      rw [hbytes'] at hnew
      exact hnew.1
    · rw [Function.update_of_ne hn] at hdata
      rw [rootNodes, Function.update_of_ne hn]
      exact hhalves.node id data hdata
  · by_cases hn : id = t.pager.nextPage + 1
    · rw [hn, rootNodes, Function.update_self] at hc
      simp only [Node.links, List.map_cons, List.map_nil, List.cons_append, List.nil_append,
        List.mem_cons, List.not_mem_nil, or_false] at hc
      rcases hc with rfl | rfl
      · exact hthere (Or.inr hhere)
      · exact hthere (Or.inl rfl)
    · rw [rootNodes, Function.update_of_ne hn] at hc
      exact (hmem c).mpr (Or.inr (hhalves.links id (((hmem id).mp hthere').resolve_left hn) c hc))
  · obtain ⟨rank, hnew, -, hrank⟩ := hhalves.acyclic
    obtain ⟨b, hb⟩ := exists_lt (min (rank page.id) (rank t.pager.nextPage))
    refine ⟨Function.update rank (t.pager.nextPage + 1) b, fun id hthere' c hc => ?_⟩
    have hpageTop := htop ((hhalves.there _).mpr (Or.inr hhere))
    have hnextTop := htop ((hhalves.there _).mpr (Or.inl rfl))
    by_cases hn : id = t.pager.nextPage + 1
    · rw [hn, rootNodes, Function.update_self] at hc
      simp only [Node.links, List.map_cons, List.map_nil, List.cons_append, List.nil_append,
        List.mem_cons, List.not_mem_nil, or_false] at hc
      rw [hn, Function.update_self]
      rcases hc with rfl | rfl
      · rw [Function.update_of_ne hpageTop]
        exact hb.trans_le (min_le_left _ _)
      · rw [Function.update_of_ne hnextTop]
        exact hb.trans_le (min_le_right _ _)
    · have hid' := ((hmem id).mp hthere').resolve_left hn
      rw [rootNodes, Function.update_of_ne hn] at hc
      rw [Function.update_of_ne hn, Function.update_of_ne (htop (hhalves.links id hid' c hc))]
      exact hrank id hid' c hc
  · rw [hsplit.root]
    exact (hmem _).mpr (Or.inl rfl)
  · rw [hsplit.nextPage]
    rcases (hmem id).mp hid' with rfl | hid'
    · exact Nat.lt_succ_self _
    · rcases (hhalves.there id).mp hid' with rfl | hid'
      · exact Nat.lt_add_of_pos_right (by decide)
      · exact (h.fresh id hid').trans (Nat.lt_add_of_pos_right (by decide))

/-- A new page above two others, which nothing points to yet. -/
theorem PagesHold.above {a b top : PageId} {k : Bytes} {data : Mem} (h : PagesHold type nodes t)
    (hdata : PageHolds type t.tree.pageSize data (.inner [⟨a, k⟩] b)) (ha : t.pageAt a ≠ none)
    (hb : t.pageAt b ≠ none)
    (htop : t.pageAt top = none) (hstore : u.pageAt = Function.update t.pageAt top (some data))
    (htree : u.tree = t.tree)
    (hnext : t.pager.nextPage ≤ u.pager.nextPage) (hlt : top < u.pager.nextPage) :
    PagesHold type (Function.update nodes top (.inner [⟨a, k⟩] b)) u := by
  have hold {id : PageId} (hid : t.pageAt id ≠ none) : id ≠ top := fun heq => hid (heq ▸ htop)
  have hkept {id : PageId} (hid : t.pageAt id ≠ none) : u.pageAt id ≠ none := by
    rwa [hstore, Function.update_of_ne (hold hid)]
  have hback {id : PageId} (hne : id ≠ top) (hid : u.pageAt id ≠ none) : t.pageAt id ≠ none := by
    rwa [hstore, Function.update_of_ne hne] at hid
  have hlinks : (Node.inner [⟨a, k⟩] b : TreeNode).links = [a, b] := rfl
  refine ⟨fun id d hd => ?_, fun id hthere c hc => ?_, ?_, ?_, fun id hid => ?_⟩
  · rw [hstore] at hd
    rw [htree]
    by_cases hid : id = top
    · subst hid
      rw [Function.update_self, Option.some.injEq] at hd
      rwa [← hd, Function.update_self]
    · rw [Function.update_of_ne hid] at hd ⊢
      exact h.node id d hd
  · by_cases hid : id = top
    · rw [hid, Function.update_self, hlinks] at hc
      rcases List.mem_pair.mp hc with rfl | rfl
      · exact hkept ha
      · exact hkept hb
    · rw [Function.update_of_ne hid] at hc
      exact hkept (h.links id (hback hid hthere) c hc)
  · obtain ⟨rank, hrank⟩ := h.acyclic
    obtain ⟨r, hr⟩ := exists_lt (min (rank a) (rank b))
    refine ⟨Function.update rank top r, fun id hthere c hc => ?_⟩
    by_cases hid : id = top
    · rw [hid, Function.update_self, hlinks] at hc
      rw [hid, Function.update_self]
      rcases List.mem_pair.mp hc with rfl | rfl
      · rw [Function.update_of_ne (hold ha)]
        exact hr.trans_le (min_le_left _ _)
      · rw [Function.update_of_ne (hold hb)]
        exact hr.trans_le (min_le_right _ _)
    · rw [Function.update_of_ne hid] at hc
      have hid' := hback hid hthere
      rw [Function.update_of_ne hid, Function.update_of_ne (hold (h.links id hid' c hc))]
      exact hrank id hid' c hc
  · rw [htree]
    exact hkept h.root
  · by_cases hid' : id = top
    · exact hid' ▸ hlt
    · exact (h.fresh id (hback hid' hid)).trans_le hnext

theorem childOf_mem_links {pre post : List TreeSep} {right : PageId} :
    childOf post right ∈ (Node.inner (pre ++ post) right : TreeNode).links := by
  cases post <;> simp [childOf, Node.links]

/-- The nodes after the split of a child. -/
def childNodes (nodes : PageId → TreeNode) (c n parent : PageId) (pre post : List TreeSep)
    (right : PageId) : PageId → TreeNode :=
  Function.update (splitNodes nodes c n) parent (insertSep pre post right (cutKey (nodes c)) n)

theorem pageInsertPayload_ok {stack data : Mem} {pageSize size : Nat} {r : Mem × Nat}
    (h : pageInsertPayload stack pageSize data index size = .ok r) : size + 2 ≤ freeSpace data := by
  by_contra hlt
  rw [pageInsertPayload, if_pos (by omega)] at h
  cases h

theorem pageInsertInner_ok {stack data data' : Mem} {pageSize : Nat} {pageId : PageId}
    (h : pageInsertInner stack pageSize data index key pageId = .ok data') :
    key.size + sizeofPageId + 2 ≤ freeSpace data := by
  unfold pageInsertInner at h
  split at h
  · cases hrun : pageInsertPayload stack pageSize data index (key.size + sizeofPageId) with
    | ok r => exact pageInsertPayload_ok hrun
    | error r =>
        rw [hrun] at h
        cases h
  · cases hrun : pageInsertPayload stack pageSize data index (key.size + sizeofPageId) with
    | ok r => exact pageInsertPayload_ok hrun
    | error r =>
        simp only [hrun] at h
        cases h

theorem PagesHold.childStored (h : PagesHold type nodes t) (hheld : Holding [page, parent] t)
    (hspare : t.Spare 1) {pre post : List TreeSep} {right : PageId}
    (hparent : nodes parent.id = .inner (pre ++ post) right) (hbelow : page.id = childOf post right)
    (hsplit : ChildStored t parent page pre.length u)
    (hspace : (t.splitKey page t.pager.nextPage).size + sizeofPageId + 2 ≤
      freeSpace (t.page parent) →
      (t.splitKey page t.pager.nextPage).size + sizeofPageId + 2 ≤ pageGetSpace (t.page parent)) :
    PagesHold type (childNodes nodes page.id t.pager.nextPage parent.id pre post right) u := by
  obtain ⟨next, data, hdata, hstore⟩ := hsplit.store
  have hhalves := h.splitStore hheld (by simp : page ∈ [page, parent]) hspare next
  have hfree := pageInsertInner_ok hdata
  have hchild := h.onPage hheld (by simp : page ∈ [page, parent])
  have hid : t.pager.nextPage < 2 ^ 32 := hspare.nextPage_lt
  obtain ⟨hbytes, hkey⟩ := hchild.splitKey_bytes t.stack hsplit.divided hid
  have hbytes' : (t.splitKey page t.pager.nextPage).bytes = cutKey (nodes page.id) := hbytes
  have hparentHolds := h.onPage hheld (by simp : parent ∈ [page, parent])
  rw [hparent] at hparentHolds
  obtain ⟨data', hdata', hholds, -⟩ := hparentHolds.insertInner t.stack
    (hbytes' ▸ hkey) hid hfree (hspace hfree)
  obtain rfl := Except.ok.inj (hdata'.symm.trans hdata)
  rw [hbytes'] at hholds
  have hthereParent : t.pageAt parent.id ≠ none := by
    simp [hheld.pageAt (by simp : parent ∈ [page, parent])]
  have hmem : ∀ id, u.pageAt id ≠ none ↔ t.splitStore page next id ≠ none := by
    intro id
    rw [hstore]
    by_cases hp : id = parent.id
    · simpa [hp] using (hhalves.there _).mpr (Or.inr hthereParent)
    · simp [hp]
  have hkept : page.id ∈ (nodes parent.id).links := by
    rw [hparent, hbelow]
    exact childOf_mem_links
  refine ⟨fun id data hdata => ?_, fun id hthere c hc => ?_, ?_, ?_, fun id hid' => ?_⟩
  · rw [hstore] at hdata
    rw [hsplit.tree]
    by_cases hp : id = parent.id
    · subst hp
      rw [Function.update_self, Option.some.injEq] at hdata
      rw [← hdata, childNodes, Function.update_self]
      exact hholds
    · rw [Function.update_of_ne hp] at hdata
      rw [childNodes, Function.update_of_ne hp]
      exact hhalves.node id data hdata
  · rw [hmem]
    by_cases hp : id = parent.id
    · rw [hp, childNodes, Function.update_self] at hc
      rcases links_insertSep hc with rfl | hc
      · exact (hhalves.there _).mpr (Or.inl rfl)
      · exact (hhalves.there _).mpr (Or.inr (h.links parent.id hthereParent c (hparent ▸ hc)))
    · rw [childNodes, Function.update_of_ne hp] at hc
      exact hhalves.links id ((hmem id).mp hthere) c hc
  · obtain ⟨rank, hnew, hold, hrank⟩ := hhalves.acyclic
    refine ⟨rank, fun id hthere c hc => ?_⟩
    by_cases hp : id = parent.id
    · rw [hp, childNodes, Function.update_self] at hc
      rw [hp]
      rcases links_insertSep hc with rfl | hc
      · exact (hold parent.id hthereParent _ hkept).trans hnew
      · exact hold parent.id hthereParent c (hparent ▸ hc)
    · rw [childNodes, Function.update_of_ne hp] at hc
      exact hrank id ((hmem id).mp hthere) c hc
  · rw [hsplit.tree, hmem]
    exact (hhalves.there _).mpr (Or.inr h.root)
  · rw [hsplit.nextPage]
    rcases (hhalves.there id).mp ((hmem id).mp hid') with rfl | hid'
    · exact Nat.lt_succ_self _
    · exact (h.fresh id hid').trans (Nat.lt_succ_self _)

theorem PagesHold.childSplit (h : PagesHold type nodes t) (hheld : Holding [page, parent] t)
    (hspare : t.Spare 1) {pre post : List TreeSep} {right : PageId}
    (hparent : nodes parent.id = .inner (pre ++ post) right) (hbelow : page.id = childOf post right)
    (hsplit : ChildSplit key t parent page pre.length p u)
    (hspace : (t.splitKey page t.pager.nextPage).size + sizeofPageId + 2 ≤
      freeSpace (t.page parent) →
      (t.splitKey page t.pager.nextPage).size + sizeofPageId + 2 ≤ pageGetSpace (t.page parent)) :
    PagesHold type (childNodes nodes page.id t.pager.nextPage parent.id pre post right) u :=
  h.childStored hheld hspare hparent hbelow hsplit.stored hspace

/-! ### Placing a row -/

theorem PagesHold.placeRow {rows rows' : List TreeRow} {right : PageId} (h : PagesHold type nodes t)
    (hheld : Holding held t) (hpage : page ∈ held) {data : Mem} {row : TreeRow}
    (hdata : PageHolds type t.tree.pageSize data (.leaf (rows ++ row :: rows') right)) :
    PagesHold type (Function.update nodes page.id (.leaf (rows ++ row :: rows') right))
      (t.written page data) := by
  have hstore := hheld.pageAt_written hpage data
  have hhere : t.pageAt page.id ≠ none := by simp [hheld.pageAt hpage]
  have hmem : ∀ id, (t.written page data).pageAt id ≠ none ↔ t.pageAt id ≠ none := by
    intro id
    rw [hstore]
    by_cases hp : id = page.id
    · simpa [hp] using hhere
    · simp [hp]
  refine ⟨fun id d hd => ?_, fun id hthere c hc => ?_, ?_, (hmem _).mpr h.root,
    fun id hid => h.fresh id ((hmem id).mp hid)⟩
  · rw [hstore] at hd
    by_cases hp : id = page.id
    · subst hp
      rw [Function.update_self, Option.some.injEq] at hd
      rw [← hd, Function.update_self]
      exact hdata
    · rw [Function.update_of_ne hp] at hd ⊢
      exact h.node id d hd
  · rw [hmem]
    by_cases hp : id = page.id
    · rw [hp, Function.update_self] at hc
      cases hc
    · rw [Function.update_of_ne hp] at hc
      exact h.links id ((hmem id).mp hthere) c hc
  · obtain ⟨rank, hrank⟩ := h.acyclic
    refine ⟨rank, fun id hthere c hc => ?_⟩
    by_cases hp : id = page.id
    · rw [hp, Function.update_self] at hc
      cases hc
    · rw [Function.update_of_ne hp] at hc
      exact hrank id ((hmem id).mp hthere) c hc

end

end Wednesday
