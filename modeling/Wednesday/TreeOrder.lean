import Wednesday.TreeRoutes

/-!
Trees whose keys are in order. Where the comparison of the pages orders the keys
of a tree, its pages form a search tree: every page has a level and the keys it
is responsible for, and a search for a key enters the pages responsible for it.
-/

namespace Wednesday

open Lib Prog Pager FenceTree

/-- On these keys the comparison of the pages is that of their ranks. -/
structure Orders (K : Bytes → Prop) (rank : Bytes → Nat) : Prop where
  lt : ∀ a b, K a → K b → (idCompare (keyId a) (keyId b) < 0 ↔ rank a < rank b)
  eq : ∀ a b, K a → K b → (idCompare (keyId a) (keyId b) = 0 ↔ rank a = rank b)

theorem Orders.nonneg {K : Bytes → Prop} {rank : Bytes → Nat} (h : Orders K rank) {a b : Bytes}
    (ha : K a) (hb : K b) : 0 ≤ idCompare (keyId a) (keyId b) ↔ rank b ≤ rank a := by
  rw [← not_lt, h.lt a b ha hb, not_lt]

theorem Orders.pos {K : Bytes → Prop} {rank : Bytes → Nat} (h : Orders K rank) {a b : Bytes}
    (ha : K a) (hb : K b) : 0 < idCompare (keyId a) (keyId b) ↔ rank b < rank a := by
  rw [lt_iff_le_and_ne, h.nonneg ha hb, ne_comm, ne_eq, h.eq a b ha hb]
  omega

/-- The level and the keys of every page of a tree, and its height. -/
structure Fences where
  place : PageId → Option (Place Nat)
  height : Nat

/-- The pages of the tree form a search tree of the rows `R`, by the ranks of
their keys. Every key on a page is the key of a row. -/
structure Fenced (rank : Bytes → Nat) (R : TreeRow → Prop) (nodes : PageId → TreeNode) (F : Fences)
    (t : Sys) : Prop where
  tree : Tree rank 0 nodes F.place t.tree.root F.height
  there : ∀ id p, F.place id = some p → t.pageAt id ≠ none
  keys : ∀ id p, F.place id = some p → ∀ k ∈ (nodes id).keys, ∃ row, R row ∧ row.key = k
  rows : ∀ row, Stored nodes F.place row ↔ R row

/-- The key of a call is in order with the keys of the rows. -/
structure InOrder (type : Nat) (K : Bytes → Prop) (rank : Bytes → Nat)
    (R : TreeRow → Prop) (key : Blob) :
    Prop where
  encoded : KeyEncoded type key.bytes
  orders : Orders K rank
  rows : ∀ row, R row → K row.key
  own : K key.bytes

/-- The page is responsible for the key. -/
def Covers (rank : Bytes → Nat) (F : Fences) (key : Bytes) (id : PageId) : Prop :=
  ∃ p, F.place id = some p ∧ p.Has (rank key)

section

variable {type : Nat} {K : Bytes → Prop} {rank : Bytes → Nat} {R : TreeRow → Prop}
  {nodes nodes' : PageId → TreeNode} {F F' : Fences} {s t u v w : Sys}
    {page p parent root : PageRef}
  {key value : Blob} {above : Above} {pre post : List TreeSep} {right c n id leaf : PageId}
  {q : Place Nat}

theorem Fenced.same (h : Fenced rank R nodes F t) (hsame : SamePages t u) :
    Fenced rank R nodes F u := by
  refine ⟨?_, fun id p hid => ?_, h.keys, h.rows⟩
  · rw [hsame.tree]
    exact h.tree
  · rw [hsame.pageAt]
    exact h.there id p hid

/-! ### Places after a split -/

/-- The places after a split of `c` into `c` and `n` at a key of this rank. -/
def splitPlace (place : PageId → Option (Place Nat)) (c n : PageId) (q : Place Nat) (s : Nat) :
    PageId → Option (Place Nat) :=
  Function.update (Function.update place c (some ⟨q.level, q.lo, WithTop.some s⟩)) n
    (some ⟨q.level, WithBot.some s, q.hi⟩)

theorem splitPlaces {place : PageId → Option (Place Nat)} {s : Nat} (hc : place c = some q)
    (hn : place n = none) : SplitPlaces place (splitPlace place c n q s) c n q s := by
  have hne : c ≠ n := by
    rintro rfl
    rw [hc] at hn
    cases hn
  refine ⟨hc, hn, ?_, ?_, fun id hidc hidn => ?_⟩
  · rw [splitPlace, Function.update_of_ne hne, Function.update_self]
  · rw [splitPlace, Function.update_self]
  · rw [splitPlace, Function.update_of_ne hidn, Function.update_of_ne hidc]

/-- A node with two keys is cut between two of them. -/
theorem keys_cut {node : TreeNode} (hcut : cutAt node ≠ 0) :
    node.keys = node.keys.take (cutAt node - 1) ++ cutKey node :: node.keys.drop (cutAt node) ∧
      node.keys.drop (cutAt node) ≠ [] ∧ (node.keys.take (cutAt node - 1)).length +
        1 = cutAt node := by
  have hlt : cutAt node - 1 + 1 < node.keys.length := by
    unfold cutAt at hcut ⊢
    omega
  refine ⟨?_, ?_, ?_⟩
  · have hdrop := List.drop_eq_getElem_cons (Nat.lt_of_succ_lt hlt)
    rw [Nat.sub_add_cancel (Nat.pos_of_ne_zero hcut)] at hdrop
    rw [cutKey_eq (Nat.lt_of_succ_lt hlt), ← hdrop, List.take_append_drop]
  · rw [ne_eq, List.drop_eq_nil_iff]
    omega
  · rw [List.length_take]
    omega

/-! ### Searches -/

theorem InOrder.ownId (h : InOrder type K rank R key) : (varintGet key.data).1 = keyId key.bytes :=
  (h.encoded.varintGet_of_holds (Blob.holds_bytes key)).2

theorem InOrder.lt (h : InOrder type K rank R key) {k : Bytes} (hk : ∃ row, R row ∧ row.key = k) :
    idCompare (keyId k) (varintGet key.data).1 < 0 ↔ rank k < rank key.bytes := by
  obtain ⟨row, hrow, rfl⟩ := hk
  rw [h.ownId]
  exact h.orders.lt _ _ (h.rows row hrow) h.own

theorem InOrder.nonneg (h : InOrder type K rank R key) {k : Bytes}
    (hk : ∃ row, R row ∧ row.key = k) :
    0 ≤ idCompare (keyId k) (varintGet key.data).1 ↔ rank key.bytes ≤ rank k := by
  rw [← not_lt, h.lt hk, not_lt]

theorem InOrder.eq (h : InOrder type K rank R key) {k : Bytes} (hk : ∃ row, R row ∧ row.key = k) :
    idCompare (keyId k) (varintGet key.data).1 = 0 ↔ rank k = rank key.bytes := by
  obtain ⟨row, hrow, rfl⟩ := hk
  rw [h.ownId]
  exact h.orders.eq _ _ (h.rows row hrow) h.own

/-- A search goes from a page responsible for the key to a child responsible for it. -/
theorem Fenced.enters (h : Fenced rank R nodes F t) (hin : InOrder type K rank R key)
    (hcovers : Covers rank F key.bytes id)
    (henters : Enters (nodes id) (varintGet key.data).1 pre post right) :
    ∃ p q, F.place id = some p ∧ (post = [] → p.hi = ⊤) ∧
      F.place (childOf post right) = some q ∧ q.level + 1 = p.level ∧ q.Has (rank key.bytes) := by
  obtain ⟨p, hp, hhas⟩ := hcovers
  have hnode := h.tree.node id p hp
  have hkeys := h.keys id p hp
  rw [henters.node] at hnode hkeys
  have hkey {sep : TreeSep} (hsep : sep ∈ pre ++ post) : ∃ row, R row ∧ row.key = sep.key :=
    hkeys sep.key (List.mem_map_of_mem hsep)
  obtain ⟨hlast, q, hq, hlevel, hcover⟩ := hnode.route hhas
    (fun sep hsep => (hin.lt (hkey (List.mem_append_left _ hsep))).mp (henters.below sep hsep))
    fun sep hsep => (hin.nonneg (hkey (List.mem_append_right _ (List.mem_of_mem_head? hsep)))).mp
      (henters.above sep hsep)
  exact ⟨p, q, hp, hlast, hq, hlevel, hcover⟩

/-! ### Splits -/

/-- Where an insert splits a page, its key does not compare equal to the key the
page is split at. -/
def SplitsApart (key value : Blob) (s : Sys) : Prop :=
  ∀ above page t, Visit key value s above page t → needsSplit (t.page page) key value = true →
    cellCount (t.page page) / 2 ≠ 0 →
      idCompare (cellId (t.page page) (cellCount (t.page page) / 2 - 1)) (varintGet key.data).1 ≠ 0

/-- The half the insert goes on with is of the level of the page, and responsible for its key. -/
theorem Fenced.covers_half (h : Fenced rank R nodes F t) (hin : InOrder type K rank R key)
    (hpage : PageHolds type t.tree.pageSize (t.page page) (nodes page.id))
    (hcut : cellCount (t.page page) / 2 ≠ 0) (hid : t.pager.nextPage < 2 ^ 32)
    (hapart : idCompare (cellId (t.page page) (cellCount (t.page page) / 2 - 1))
      (varintGet key.data).1 ≠ 0)
    {place : PageId → Option (Place Nat)}
    (hplaces : SplitPlaces F.place place page.id t.pager.nextPage q (rank (cutKey (nodes page.id))))
    (hhas : q.Has (rank key.bytes))
    (hhalf : id = chosenHalf key (t.splitKey page t.pager.nextPage) page.id t.pager.nextPage) :
    ∃ r, place id = some r ∧ r.level = q.level ∧ r.Has (rank key.bytes) := by
  have hmem : cutKey (nodes page.id) ∈ (nodes page.id).keys := by
    have hcut' : cutAt (nodes page.id) ≠ 0 := by rwa [cutAt, ← hpage.count]
    rw [(keys_cut hcut').1]
    simp
  have hkey := h.keys _ _ hplaces.old _ hmem
  rw [hpage.cellId_cut hcut] at hapart
  have hne := mt (hin.eq hkey).mpr hapart
  have hagree : idCompare (varintGet key.data).1 (keyId (cutKey (nodes page.id))) < 0 ↔
      0 ≤ idCompare (keyId (cutKey (nodes page.id))) (varintGet key.data).1 := by
    obtain ⟨row, hrow, hk⟩ := hkey
    rw [hin.nonneg ⟨row, hrow, hk⟩, hin.ownId, ← hk, hin.orders.lt _ _ hin.own
      (hin.rows row hrow), hk]
    omega
  rw [chosenHalf_eq hpage hcut hid (by rwa [hpage.cellId_cut hcut])] at hhalf
  split at hhalf <;> rename_i hle <;> rw [hin.nonneg hkey] at hle
  · subst hhalf
    exact ⟨_, hplaces.left, rfl, hhas.1, WithTop.coe_le_coe.mpr hle⟩
  · subst hhalf
    exact ⟨_, hplaces.right, rfl, WithBot.coe_lt_coe.mpr (not_le.mp hle), hhas.2⟩

theorem splitStore_there {next : Mem} (hid : id = n ∨ t.pageAt id ≠ none)
    (hn : n = t.pager.nextPage) :
    t.splitStore page next id ≠ none := by
  unfold Sys.splitStore
  by_cases hnew : id = t.pager.nextPage
  · rw [hnew, Function.update_self]
    exact Option.some_ne_none _
  · rw [Function.update_of_ne hnew]
    by_cases hp : id = page.id
    · rw [hp, Function.update_self]
      exact Option.some_ne_none _
    · rw [Function.update_of_ne hp]
      exact hid.resolve_left (hn ▸ hnew)

/-- No page that is still to come has a place. -/
theorem Fenced.fresh (h : Fenced rank R nodes F t) (ht : PagesHold type nodes t)
    (hid : t.pager.nextPage ≤ id) : F.place id = none := by
  by_contra hne
  obtain ⟨p, hp⟩ := Option.ne_none_iff_exists'.mp hne
  exact absurd (ht.fresh id (h.there id p hp)) (not_lt.mpr hid)

theorem Fenced.no_place (h : Fenced rank R nodes F t) (hid : t.pageAt id = none) :
    F.place id = none := by
  by_contra hne
  obtain ⟨p, hp⟩ := Option.ne_none_iff_exists'.mp hne
  exact h.there id p hp hid

theorem Fenced.ne_new (h : Fenced rank R nodes F t) (hid : F.place id = some q)
    (hn : t.pageAt n = none) : id ≠ n := by
  rintro rfl
  exact h.there id q hid hn

theorem PagesHold.nextPage_none (ht : PagesHold type nodes t) :
    t.pageAt t.pager.nextPage = none := by
  by_contra hne
  exact (ht.fresh _ hne).false

theorem PagesHold.nextPage_ne_zero (ht : PagesHold type nodes t) : t.pager.nextPage ≠ 0 :=
  Nat.ne_zero_of_lt (ht.fresh _ ht.root)

theorem splitNodes_left (hne : c ≠ n) :
    splitNodes nodes c n c = (nodes c).takeTo (cutAt (nodes c)) n := by
  rw [splitNodes, Function.update_of_ne hne, Function.update_self]

theorem splitNodes_right : splitNodes nodes c n n = (nodes c).dropTo (cutAt (nodes c)) := by
  rw [splitNodes, Function.update_self]

theorem splitNodes_other (hc : id ≠ c) (hn : id ≠ n) : splitNodes nodes c n id = nodes id := by
  rw [splitNodes, Function.update_of_ne hn, Function.update_of_ne hc]

/-- The keys on the halves of a page are keys of the page. -/
theorem keys_splitNodes (hne : c ≠ n) {k : Bytes} (hk : k ∈ (splitNodes nodes c n id).keys) :
    k ∈ (nodes (if id = n then c else id)).keys := by
  split <;> rename_i hn
  · rw [hn, splitNodes_right, Node.keys_dropTo] at hk
    exact List.mem_of_mem_drop hk
  · by_cases hc : id = c
    · rw [hc, splitNodes_left hne, Node.keys_takeTo] at hk
      rw [hc]
      exact List.mem_of_mem_take hk
    · rwa [splitNodes_other hc hn] at hk

theorem stored_congr {G G' : PageId → Option (Place Nat)} {row : TreeRow}
    (h : ∀ id p rows right, G id = some p → nodes id = .leaf rows right →
      G' id = some p ∧ nodes' id = .leaf rows right) (hrow : Stored nodes G row) :
        Stored nodes' G' row := by
  obtain ⟨id, p, rows, right, hid, hnode, hmem⟩ := hrow
  obtain ⟨hid', hnode'⟩ := h id p rows right hid hnode
  exact ⟨id, p, rows, right, hid', hnode', hmem⟩

/-- A split page is split in the sense of search trees. -/
theorem splitNodes_split {nodes : PageId → TreeNode} (hne : c ≠ n) (hcut : cutAt (nodes c) ≠ 0) :
    SplitNodes nodes (splitNodes nodes c n) c n ((nodes c).keys.take (cutAt (nodes c) - 1)) := by
  obtain ⟨-, -, hlen⟩ := keys_cut hcut
  constructor
  · rw [hlen, splitNodes_left hne]
  · rw [hlen, splitNodes_right]

theorem stored_splitNodes (rank : Bytes → Nat) {place : PageId → Option (Place Nat)}
    (hold : place c = some q) (hnew : place n = none)
    (hcut : cutAt (nodes c) ≠ 0) (row : TreeRow) :
    Stored (splitNodes nodes c n) (splitPlace place c n q (rank (cutKey (nodes c)))) row ↔
      Stored nodes place row := by
  have hplaces := splitPlaces (s := rank (cutKey (nodes c))) hold hnew
  have hne {id : PageId} {p : Place Nat} (hid : place id = some p) : id ≠ n := by
    rintro rfl
    cases hnew.symm.trans hid
  refine stored_split hplaces (splitNodes_split (hne hold) hcut) fun id p hid hc rows right => ?_
  rw [splitNodes_other hc (hne hid)]

/-- The places after the split of a root. -/
def rootFences (rank : Bytes → Nat) (nodes : PageId → TreeNode) (F : Fences)
    (c n : PageId) : Fences where
  place := Function.update
    (splitPlace F.place c n ⟨F.height, ⊥, ⊤⟩ (rank (cutKey (nodes c)))) (n + 1)
    (some ⟨F.height + 1, ⊥, ⊤⟩)
  height := F.height + 1

/-- The places after the split of a child. -/
def childFences (rank : Bytes → Nat) (nodes : PageId → TreeNode) (F : Fences)
    (c n : PageId) (q : Place Nat) :
    Fences where
  place := splitPlace F.place c n q (rank (cutKey (nodes c)))
  height := F.height

/-- The nodes once a page `top` stands above the halves `c` and `n` of the old root. -/
def topNodes (nodes : PageId → TreeNode) (c n top : PageId) : PageId → TreeNode :=
  Function.update (splitNodes nodes c n) top (.inner [⟨c, cutKey (nodes c)⟩] n)

/-- The places under the new root. -/
def topFences (rank : Bytes → Nat) (nodes : PageId → TreeNode) (F : Fences)
    (c n top : PageId) : Fences where
  place := Function.update
    (splitPlace F.place c n ⟨F.height, ⊥, ⊤⟩ (rank (cutKey (nodes c)))) top
    (some ⟨F.height + 1, ⊥, ⊤⟩)
  height := F.height + 1

/-- The root `c` is cut, its upper half goes to `n`, and `top` becomes the root. -/
theorem Fenced.crowned {top : PageId} (h : Fenced rank R nodes F t) (hroot : t.tree.root = c)
    (hcut : cutAt (nodes c) ≠ 0) (hn : F.place n = none) (htop : F.place top = none)
    (hnTop : n ≠ top)
    (hnZero : n ≠ 0) (htopZero : top ≠ 0) (hroot' : u.tree.root = top)
    (hthere : ∀ id, id = top ∨ id = n ∨ t.pageAt id ≠ none → u.pageAt id ≠ none) :
    Fenced rank R (topNodes nodes c n top) (topFences rank nodes F c n top) u := by
  obtain ⟨hkeys, hrest, -⟩ := keys_cut hcut
  have hold : F.place c = some ⟨F.height, ⊥, ⊤⟩ := hroot ▸ h.tree.root
  have hne : c ≠ n := by
    rintro rfl
    cases hold.symm.trans hn
  have hneTop : c ≠ top := by
    rintro rfl
    cases hold.symm.trans htop
  -- The root and the new page share its old place; the new root covers everything above them.
  have hplaces := splitPlaces (s := rank (cutKey (nodes c))) hold hn
  have hnodes {id : PageId} (hid : id ≠ top) : topNodes nodes c n top id =
      splitNodes nodes c n id := by
    rw [topNodes, Function.update_of_ne hid]
  have hself : topNodes nodes c n top top = .inner [⟨c, cutKey (nodes c)⟩] n := by
    rw [topNodes, Function.update_self]
  have hcutNodes : SplitNodes nodes (topNodes nodes c n top) c n
      ((nodes c).keys.take (cutAt (nodes c) - 1)) := by
    have hsplitNodes := splitNodes_split hne hcut
    exact ⟨(hnodes hneTop).trans hsplitNodes.left, (hnodes hnTop).trans hsplitNodes.right⟩
  have hplace {id : PageId} (hid : id ≠ top) :
      (topFences rank nodes F c n top).place id =
        splitPlace F.place c n ⟨F.height, ⊥, ⊤⟩ (rank (cutKey (nodes c))) id :=
    Function.update_of_ne hid _ _
  have hplaceTop : (topFences rank nodes F c n top).place top =
      some ⟨F.height + 1, ⊥, ⊤⟩ := Function.update_self _ _ _
  have htree : Tree rank 0 nodes F.place c F.height := hroot ▸ h.tree
  have hothers {id : PageId} (hc : id ≠ c) (hn : id ≠ n)
      (hid : id ≠ top) : topNodes nodes c n top id = nodes id := by
    rw [hnodes hid, splitNodes_other hc hn]
  have horigin {id : PageId} {q : Place Nat} (hid : id ≠ top)
      (hq : (topFences rank nodes F c n top).place id = some q) :
      id = n ∨ id ≠ n ∧ ∃ q, F.place id = some q := by
    rw [hplace hid] at hq
    by_cases hn : id = n
    · exact Or.inl hn
    · refine Or.inr ⟨hn, ?_⟩
      by_cases hc : id = c
      · exact ⟨_, hc ▸ hold⟩
      · rw [hplaces.others id hc hn] at hq
        exact ⟨q, hq⟩
  refine ⟨?_, fun id q hid => ?_, fun id q hid k hk => ?_, fun row => ?_⟩
  · rw [hroot']
    exact htree.splitRoot hkeys hrest hnZero hplaces htop hnTop.symm htopZero hplaceTop
      (fun id hid => hplace hid) hcutNodes hself fun id hc hn hid => hothers hc hn hid
  · refine hthere id (or_iff_not_imp_left.mpr fun hnew => ?_)
    rcases horigin hnew hid with hn | ⟨-, q, hq⟩
    · exact Or.inl hn
    · exact Or.inr (h.there id q hq)
  · by_cases hnew : id = top
    · -- The only key of the new root comes from the page that was cut.
      rw [hnew, hself] at hk
      obtain rfl := List.mem_singleton.mp hk
      refine h.keys _ _ hold _ ?_
      rw [hkeys]
      simp
    · rw [hnodes hnew] at hk
      have hk' := keys_splitNodes hne hk
      rcases horigin hnew hid with rfl | ⟨hn, q, hq⟩
      · rw [if_pos rfl] at hk'
        exact h.keys _ _ hold k hk'
      · rw [if_neg hn] at hk'
        exact h.keys id q hq k hk'
  · rw [← h.rows, ← stored_splitNodes rank hold hn hcut]
    -- The new root is an inner page, so the stored rows are those of the split.
    constructor
    · refine stored_congr fun id q rows right hq hleaf => ?_
      by_cases hnew : id = top
      · rw [hnew, hself] at hleaf
        cases hleaf
      · exact ⟨(hplace hnew).symm.trans hq, (hnodes hnew).symm.trans hleaf⟩
    · refine stored_congr fun id q rows right hq hleaf => ?_
      have hnew : id ≠ top := by
        rintro rfl
        rw [hplaces.others _ hneTop.symm hnTop.symm, htop] at hq
        cases hq
      exact ⟨(hplace hnew).trans hq, (hnodes hnew).trans hleaf⟩

theorem RootSplit.fenced (hsplit : RootSplit key t page p u) (h : Fenced rank R nodes F t)
    (ht : PagesHold type nodes t) (hheld : Holding [page] t) (hpage : page.id = t.tree.root) :
    Fenced rank R (rootNodes nodes page.id t.pager.nextPage)
      (rootFences rank nodes F page.id t.pager.nextPage)
      u := by
  obtain ⟨next, new, hstore⟩ := hsplit.store
  have hcut : cutAt (nodes page.id) ≠ 0 := by
    rw [cutAt, ← (ht.onPage hheld (List.mem_singleton_self page)).count]
    exact hsplit.divided
  refine h.crowned hpage.symm hcut (h.fresh ht le_rfl) (h.fresh ht (Nat.le_succ _))
    (Nat.lt_succ_self _).ne
    ht.nextPage_ne_zero (Nat.succ_ne_zero _) hsplit.root fun id hid => ?_
  rw [hstore]
  by_cases hnew : id = t.pager.nextPage + 1
  · rw [hnew, Function.update_self]
    exact Option.some_ne_none _
  · rw [Function.update_of_ne hnew]
    exact splitStore_there (hid.resolve_left hnew) rfl

/-- A child is split into its page and a page that is new. -/
theorem ChildStored.fenced {index : Nat} (hsplit : ChildStored t parent page index u)
    (h : Fenced rank R nodes F t)
    (hnew : t.pageAt t.pager.nextPage = none) (hzero : t.pager.nextPage ≠ 0)
    (hcut : cutAt (nodes page.id) ≠ 0)
    (hnode : nodes parent.id = .inner (pre ++ post) right) (hchild : page.id = childOf post right)
    {r : Place Nat} (hparent : F.place parent.id = some r) (hpost : post = [] → r.hi = ⊤)
    (hold : F.place page.id = some q) (hlevel : q.level + 1 = r.level) :
    Fenced rank R (childNodes nodes page.id t.pager.nextPage parent.id pre post right)
      (childFences rank nodes F page.id t.pager.nextPage q) u := by
  obtain ⟨next, data, -, hstore⟩ := hsplit.store
  obtain ⟨hkeys, hrest, -⟩ := keys_cut hcut
  have hne : page.id ≠ t.pager.nextPage := h.ne_new hold hnew
  have hneParent : parent.id ≠ t.pager.nextPage := h.ne_new hparent hnew
  have hnePage : parent.id ≠ page.id := by
    intro heq
    rw [heq, hold] at hparent
    obtain rfl := Option.some.inj hparent
    omega
  have hfresh := h.no_place hnew
  -- The place of the page is cut at the key that moves up to the parent.
  have hplaces := splitPlaces (s := rank (cutKey (nodes page.id))) hold hfresh
  have hnodes {id : PageId} (hid : id ≠ parent.id) :
      childNodes nodes page.id t.pager.nextPage parent.id pre post right id =
        splitNodes nodes page.id t.pager.nextPage id := by
    rw [childNodes, Function.update_of_ne hid]
  have hparent' : childNodes nodes page.id t.pager.nextPage parent.id pre post right parent.id =
      insertSep pre post right (cutKey (nodes page.id)) t.pager.nextPage := by
    rw [childNodes, Function.update_self]
  have hsplitNodes : SplitNodes nodes _ page.id t.pager.nextPage _ := splitNodes_split hne hcut
  have horigin {id : PageId} {q' : Place Nat}
      (hq : (childFences rank nodes F page.id t.pager.nextPage q).place id = some q') :
      id = t.pager.nextPage ∨ id ≠ t.pager.nextPage ∧ ∃ q', F.place id = some q' := by
    by_cases hn : id = t.pager.nextPage
    · exact Or.inl hn
    · refine Or.inr ⟨hn, ?_⟩
      by_cases hc : id = page.id
      · exact ⟨_, hc ▸ hold⟩
      · exact ⟨q', (hplaces.others id hc hn).symm.trans hq⟩
  refine ⟨?_, fun id q' hid => ?_, fun id q' hid k hk => ?_, fun row => ?_⟩
  · rw [hsplit.tree]
    have hleft := (hnodes hnePage.symm).trans hsplitNodes.left
    have hright := (hnodes hneParent.symm).trans hsplitNodes.right
    have hothers {id : PageId} (hc : id ≠ page.id) (hn : id ≠ t.pager.nextPage)
        (hid : id ≠ parent.id) :
        childNodes nodes page.id t.pager.nextPage parent.id pre post right id = nodes id := by
      rw [hnodes hid, splitNodes_other hc hn]
    change Tree rank 0 _ (splitPlace F.place page.id t.pager.nextPage q
        (rank (cutKey (nodes page.id)))) _ F.height
    generalize page.id = c at *
    subst hchild
    exact h.tree.splitChild hparent hnode hpost hkeys hrest hzero hplaces ⟨hleft, hright⟩ hparent'
      fun id hc hn hid => hothers hc hn hid
  · have hthere : t.splitStore page next id ≠ none := by
      refine splitStore_there ?_ rfl
      rcases horigin hid with hn | ⟨-, q', hq⟩
      · exact Or.inl hn
      · exact Or.inr (h.there id q' hq)
    rw [hstore]
    by_cases hp : id = parent.id
    · rw [hp, Function.update_self]
      exact Option.some_ne_none _
    · rwa [Function.update_of_ne hp]
  · by_cases hp : id = parent.id
    · -- The parent has its old keys and the one that moved up.
      rw [hp, hparent', keys_insertSep] at hk
      rcases List.mem_append.mp hk with hk | hk
      · refine h.keys _ _ hparent k ?_
        rw [hnode, Node.keys, List.map_append]
        exact List.mem_append_left _ hk
      · rcases List.mem_cons.mp hk with rfl | hk
        · refine h.keys _ _ hold _ ?_
          rw [hkeys]
          simp
        · refine h.keys _ _ hparent k ?_
          rw [hnode, Node.keys, List.map_append]
          exact List.mem_append_right _ hk
    · rw [hnodes hp] at hk
      have hk' := keys_splitNodes hne hk
      rcases horigin hid with rfl | ⟨hn, q', hq⟩
      · rw [if_pos rfl] at hk'
        exact h.keys _ _ hold k hk'
      · rw [if_neg hn] at hk'
        exact h.keys id q' hq k hk'
  · rw [← h.rows, ← stored_splitNodes rank hold hfresh hcut]
    -- The parent is an inner page before and after, so it adds no row.
    have hinner : splitNodes nodes page.id t.pager.nextPage parent.id =
        .inner (pre ++ post) right := by
      rw [splitNodes_other hnePage hneParent, hnode]
    constructor
    · refine stored_congr fun id q' rows right' hq hleaf => ?_
      have hp : id ≠ parent.id := by
        rintro rfl
        rw [hparent'] at hleaf
        cases post <;> cases hleaf
      exact ⟨hq, (hnodes hp).symm.trans hleaf⟩
    · refine stored_congr fun id q' rows right' hq hleaf => ?_
      have hp : id ≠ parent.id := by
        rintro rfl
        cases hinner.symm.trans hleaf
      exact ⟨hq, (hnodes hp).trans hleaf⟩

theorem ChildSplit.fenced {index : Nat} (hsplit : ChildSplit key t parent page index p u)
    (h : Fenced rank R nodes F t) (ht : PagesHold type nodes t) (hheld : Holding [page, parent] t)
    (hnode : nodes parent.id = .inner (pre ++ post) right) (hchild : page.id = childOf post right)
    {r : Place Nat} (hparent : F.place parent.id = some r) (hpost : post = [] → r.hi = ⊤)
    (hold : F.place page.id = some q) (hlevel : q.level + 1 = r.level) :
    Fenced rank R (childNodes nodes page.id t.pager.nextPage parent.id pre post right)
      (childFences rank nodes F page.id t.pager.nextPage q) u := by
  have hcut : cutAt (nodes page.id) ≠ 0 := by
    rw [cutAt, ← (ht.onPage hheld (by simp : page ∈ [page, parent])).count]
    exact hsplit.divided
  exact hsplit.stored.fenced h ht.nextPage_none ht.nextPage_ne_zero hcut hnode hchild
    hparent hpost hold hlevel

/-! ### The way of an insert -/

/-- The pages an insert holds on its way are responsible for its key. -/
structure OnWay (rank : Bytes → Nat) (R : TreeRow → Prop) (key : Bytes) (F : Fences) (above : Above)
    (page : PageRef) (t : Sys) (nodes : PageId → TreeNode) : Prop where
  fenced : Fenced rank R nodes F t
  here : Covers rank F key page.id
  root : above = none → page.id = t.tree.root
  parent : ∀ parent index, above = some (parent, index) → Covers rank F key parent.id

theorem Fenced.covers_root (h : Fenced rank R nodes F t) (key : Bytes) :
    Covers rank F key t.tree.root :=
  ⟨_, h.tree.root, WithBot.bot_lt_coe _, le_top⟩

/-- The page the insert goes on with is of the level of the one it came to. -/
theorem OnWay.grows_level (h : OnWay rank R key.bytes F above page t nodes)
    (hin : InOrder type K rank R key)
    (ht : PagesHold type nodes t) (hheld : Holding (page :: above.held) t)
    (hspare : needsSplit (t.page page) key value = true → t.Spare above.newPages)
    (hapart : needsSplit (t.page page) key value = true → cellCount (t.page page) / 2 ≠ 0 →
      idCompare (cellId (t.page page) (cellCount (t.page page) / 2 - 1)) (varintGet key.data).1 ≠ 0)
    (hgrows : Grows key value nodes t above page p u nodes') (hpage : F.place page.id = some q)
    (hhas : q.Has (rank key.bytes)) :
    ∃ F' r, Fenced rank R nodes' F' u ∧ F'.place p.id = some r ∧ r.level = q.level ∧
      r.Has (rank key.bytes) := by
  have hholds := ht.onPage hheld (List.mem_cons_self ..)
  cases hgrows with
  | stay hstay hpages htree hnext =>
      exact ⟨F, q, h.fenced.same ⟨hpages, htree, hnext.ge⟩, hpage, rfl, hhas⟩
  | root hfull hsplit =>
      have hfenced := hsplit.fenced h.fenced ht hheld (h.root rfl)
      have hold : F.place page.id = some ⟨F.height, ⊥, ⊤⟩ := h.root rfl ▸ h.fenced.tree.root
      obtain rfl := Option.some.inj (hpage.symm.trans hold)
      have hplaces := splitPlaces (s := rank (cutKey (nodes page.id))) hold
          (h.fenced.fresh ht le_rfl)
      obtain ⟨r, hr, hlevel, hhas'⟩ := h.fenced.covers_half hin hholds hsplit.divided
        (hspare hfull).nextPage_lt (hapart hfull hsplit.divided) hplaces hhas hsplit.half
      refine ⟨_, r, hfenced, ?_, hlevel, hhas'⟩
      -- the new root is neither of the halves
      refine (Function.update_of_ne ?_ _ _).trans hr
      rintro heq
      rw [heq, hplaces.others, h.fenced.fresh ht (Nat.le_succ _)] at hr
      · cases hr
      · exact ((ht.fresh _ (h.fenced.there _ _ hold)).trans (Nat.lt_succ_self _)).ne'
      · exact (Nat.lt_succ_self _).ne'
  | @child parent page p index pre post right u hfull hbelow hsplit =>
      obtain ⟨r, q', hparent, hpost, hold, hlevel, -⟩ :=
        h.fenced.enters hin (h.parent parent index rfl) hbelow.enters
      rw [← hbelow.child] at hold
      obtain rfl := Option.some.inj (hpage.symm.trans hold)
      have hplaces := splitPlaces (s := rank (cutKey (nodes page.id))) hold
          (h.fenced.fresh ht le_rfl)
      obtain ⟨r', hr', hlevel', hhas'⟩ :=
        h.fenced.covers_half hin hholds hsplit.divided (hspare hfull).nextPage_lt
        (hapart hfull hsplit.divided) hplaces hhas hsplit.half
      exact ⟨_, r', hsplit.fenced h.fenced ht hheld hbelow.enters.node hbelow.child
        hparent hpost hold hlevel, hr', hlevel', hhas'⟩

theorem OnWay.grows (h : OnWay rank R key.bytes F above page t nodes)
    (hin : InOrder type K rank R key)
    (ht : PagesHold type nodes t) (hheld : Holding (page :: above.held) t)
    (hspare : needsSplit (t.page page) key value = true → t.Spare above.newPages)
    (hapart : needsSplit (t.page page) key value = true → cellCount (t.page page) / 2 ≠ 0 →
      idCompare (cellId (t.page page) (cellCount (t.page page) / 2 - 1)) (varintGet key.data).1 ≠ 0)
    (hgrows : Grows key value nodes t above page p u nodes') :
    ∃ F', Fenced rank R nodes' F' u ∧ Covers rank F' key.bytes p.id := by
  obtain ⟨q, hpage, hhas⟩ := h.here
  obtain ⟨F', r, hfenced, hr, -, hhas'⟩ :=
    h.grows_level hin ht hheld hspare hapart hgrows hpage hhas
  exact ⟨F', hfenced, r, hr, hhas'⟩

/-- From a page responsible for the key the insert goes on to one below it. -/
theorem Fenced.onWay_child {index : Nat} (h : Fenced rank R nodes F u)
    (hin : InOrder type K rank R key)
    (hcovers : Covers rank F key.bytes parent.id)
    (hbelow : Below nodes (varintGet key.data).1 parent index page pre post right) :
    OnWay rank R key.bytes F (some (parent, index)) page u nodes := by
  obtain ⟨-, q, -, -, hq, -, hhas⟩ := h.enters hin hcovers hbelow.enters
  refine ⟨h, ⟨q, hbelow.child ▸ hq, hhas⟩, fun habove => (by cases habove),
    fun p index' habove => ?_⟩
  obtain ⟨rfl, rfl⟩ := Prod.mk.inj (Option.some.inj habove)
  exact hcovers

/-- An insert whose key is in order with the rows, and not compared equal where a
page is split, stands on pages responsible for it. -/
theorem walkRule_order (hin : InOrder type K rank R key)
    (hapart : ∀ above page t nodes F, Visit key value s above page t →
      Holding (page :: above.held) t →
      PagesHold type nodes t → OnWay rank R key.bytes F above page t nodes →
      needsSplit (t.page page) key value = true → cellCount (t.page page) / 2 ≠ 0 →
        idCompare (cellId (t.page page) (cellCount (t.page page) / 2 - 1))
          (varintGet key.data).1 ≠ 0)
    (hspace : Uncompacted key value s) (hstart : Fenced rank R nodes F s) :
    WalkRule type key value s nodes (fun above page t nodes => ∃ F,
      OnWay rank R key.bytes F above page t nodes)
      fun p u nodes => ∃ F, Fenced rank R nodes F u ∧ Covers rank F key.bytes p.id := by
  refine ⟨fun page t hid hsame => ⟨F, ?_⟩, ?_, ?_,
    fun parent index page t _ hvisit _ _ _ => hspace.parent parent index page t hvisit⟩
  · have hfenced := hstart.same hsame
    rw [← hsame.tree] at hid
    exact ⟨hfenced, hid ▸ hfenced.covers_root key.bytes, fun _ => hid,
      fun _ _ habove => by cases habove⟩
  · intro above page t p u nodes nodes' hvisit hstand ht hspare _ ⟨F, hway⟩ hgrows _
    exact hway.grows hin ht hstand.holding hspare
      (hapart _ _ _ _ _ hvisit hstand.holding ht hway) hgrows
  · intro page t child index u nodes _ ht ⟨F, hfenced, hcovers⟩ ⟨pre, post, right, hbelow⟩ hsame
    exact ⟨F, (hfenced.same hsame).onWay_child hin hcovers hbelow⟩

theorem SplitsApart.walkRule (hapart : SplitsApart key value s) (hin : InOrder type K rank R key)
    (hspace : Uncompacted key value s) (hstart : Fenced rank R nodes F s) :
    WalkRule type key value s nodes (fun above page t nodes => ∃ F,
      OnWay rank R key.bytes F above page t nodes)
      fun p u nodes => ∃ F, Fenced rank R nodes F u ∧ Covers rank F key.bytes p.id :=
  walkRule_order hin (fun _ _ _ _ _ hvisit _ _ _ => hapart _ _ _ hvisit) hspace hstart

/-- A page on the way has no key that compares equal to a key of another rank than all rows. -/
theorem OnWay.apart (h : OnWay rank R key.bytes F above page t nodes)
    (hin : InOrder type K rank R key)
    (hfresh : ∀ row, R row → rank row.key ≠ rank key.bytes) (hheld : Holding (page :: above.held) t)
    (ht : PagesHold type nodes t) (hcut : cellCount (t.page page) / 2 ≠ 0) :
    idCompare (cellId (t.page page) (cellCount (t.page page) / 2 - 1))
      (varintGet key.data).1 ≠ 0 := by
  have hholds := ht.onPage hheld (List.mem_cons_self ..)
  obtain ⟨q, hq, -⟩ := h.here
  have hmem : cutKey (nodes page.id) ∈ (nodes page.id).keys := by
    have hcut' : cutAt (nodes page.id) ≠ 0 := by rwa [cutAt, ← hholds.count]
    rw [(keys_cut hcut').1]
    simp
  obtain ⟨row, hrow, hkey⟩ := h.fenced.keys page.id q hq _ hmem
  rw [hholds.cellId_cut hcut]
  intro heq
  have hrank := (hin.eq ⟨row, hrow, hkey⟩).mp heq
  exact hfresh row hrow (hkey ▸ hrank)

/-- An insert of a new rank never splits a page at a key that compares equal to its own. -/
theorem Fenced.splitsApart (h : Fenced rank R nodes F s) (hin : InOrder type K rank R key)
    (hfresh : ∀ row, R row → rank row.key ≠ rank key.bytes) (hok : s.PagerOk)
    (hnodes : PagesHold type nodes s)
    (hpages : HasPages key value s) (hspace : Uncompacted key value s) :
    SplitsApart key value s := by
  intro above page t hvisit _ hcut
  obtain ⟨nodes', ht, -, F', hway⟩ := hvisit.keeps (walkRule_order hin
    (fun _ _ _ _ _ _ hheld ht hway _ => hway.apart hin hfresh hheld ht) hspace h) hok hnodes hpages
  exact hway.apart hin hfresh (hvisit.standing hok).holding ht hcut

/-- A page the insert has made room on is responsible for its key. -/
theorem Reaches.fenced (hin : InOrder type K rank R key) (hapart : SplitsApart key value s)
    (hok : s.PagerOk) (h : PagesHold type nodes s) (hpages : HasPages key value s)
    (hspace : Uncompacted key value s) (hstart : Fenced rank R nodes F s)
    (hreach : Reaches key value s page t) :
    ∃ nodes' F', PagesHold type nodes' t ∧ Fenced rank R nodes' F' t ∧
      Covers rank F' key.bytes page.id := by
  obtain ⟨nodes', ht, F', hfenced, hcovers⟩ :=
    hreach.keeps (hapart.walkRule hin hspace hstart) hok h hpages
  exact ⟨nodes', F', ht, hfenced, hcovers⟩

/-- A page on which a search finds the key has a row with a key of the same rank. -/
theorem Fenced.row_of_found (h : Fenced rank R nodes F t) (hin : InOrder type K rank R key)
    (hcovers : Covers rank F key.bytes id) {data : Mem}
    (hholds : PageHolds type t.tree.pageSize data (nodes id))
    (hfound : (pageFindPointer data key).1 = true) :
    ∃ row, R row ∧ rank row.key = rank key.bytes := by
  obtain ⟨q, hq, -⟩ := hcovers
  obtain ⟨as, bs, hkeys, -, -, -, hiff⟩ := hholds.search key
  obtain ⟨k, hk, heq⟩ := hiff.mp hfound
  have hmem : k ∈ (nodes id).keys := by
    rw [hkeys]
    exact List.mem_append_right _ (List.mem_of_mem_head? hk)
  obtain ⟨row, hrow, rfl⟩ := h.keys id q hq k hmem
  exact ⟨row, hrow, (hin.eq ⟨row, hrow, rfl⟩).mp heq⟩

/-! ### The row of an insert -/

/-- The rows once the row of an insert is placed. -/
def withRow (R : TreeRow → Prop) (key value : Blob) (row : TreeRow) : Prop :=
  row = ⟨key.bytes, value.bytes⟩ ∨ R row

/-- A row is placed only where no row has a key of its rank. -/
theorem RowPlaced.fenced {rows rows' : List TreeRow}
    (hplaced : RowPlaced type nodes key value page t u rows rows' right)
    (h : Fenced rank R nodes F t)
    (hin : InOrder type K rank R key) (hcovers : Covers rank F key.bytes page.id)
    (hheld : Holding [page] t) :
    Fenced rank (withRow R key value)
        (Function.update nodes page.id (.leaf (rows ++ ⟨key.bytes, value.bytes⟩ :: rows') right))
        F u ∧
      ∀ row, R row → rank row.key ≠ rank key.bytes := by
  obtain ⟨p, hp, hhas⟩ := hcovers
  obtain ⟨data, -, -, rfl⟩ := hplaced.written
  have hleaf := h.tree.node _ p hp
  have hkeys := h.keys _ p hp
  rw [hplaced.leaf] at hleaf hkeys
  have hsorted := hleaf.sorted
  simp only [Node.keys, List.map_append, List.pairwise_append] at hsorted
  have hkey {row : TreeRow} (hrow : row ∈ rows ++ rows') : ∃ r, R r ∧ r.key = row.key :=
    hkeys row.key (List.mem_map_of_mem hrow)
  have hbelow : ∀ row ∈ rows, rank row.key < rank key.bytes := fun row hrow =>
    (hin.lt (hkey (List.mem_append_left _ hrow))).mp (hplaced.below row hrow)
  have habove : ∀ row ∈ rows', rank key.bytes < rank row.key := by
    intro row hrow
    obtain ⟨first, rest, rfl⟩ := List.exists_cons_of_ne_nil (List.ne_nil_of_mem hrow)
    have hfirst := hkey (List.mem_append_right rows (List.mem_cons_self ..))
    -- The search compares only the first row above; the order gives the others.
    have hpos := hplaced.above first rfl
    have hlt : rank key.bytes < rank first.key :=
      lt_of_le_of_ne ((hin.nonneg hfirst).mp hpos.le) fun heq =>
        hpos.ne' ((hin.eq hfirst).mpr heq.symm)
    rcases List.mem_cons.mp hrow with rfl | hrow
    · exact hlt
    · exact hlt.trans ((List.pairwise_cons.mp hsorted.2.1).1 _ (List.mem_map_of_mem hrow))
  have hnew : ∀ id', id' ≠ page.id → Function.update nodes page.id
      (.leaf (rows ++ ⟨key.bytes, value.bytes⟩ :: rows') right) id' = nodes id' :=
    fun id' hne => Function.update_of_ne hne _ _
  have hself := Function.update_self page.id
    (Node.leaf (rows ++ ⟨key.bytes, value.bytes⟩ :: rows') right : TreeNode) nodes
  refine ⟨⟨?_, fun id q hid => ?_, fun id q hid k hk => ?_, fun row => ?_⟩, fun row hrow heq => ?_⟩
  · exact h.tree.insertRow hp hplaced.leaf hhas hbelow habove hself hnew
  · rw [pageAt_unfixed, hheld.pageAt_written (List.mem_singleton_self page)]
    by_cases hpage : id = page.id
    · rw [hpage, Function.update_self]
      exact Option.some_ne_none _
    · rw [Function.update_of_ne hpage]
      exact h.there id q hid
  · by_cases hpage : id = page.id
    · rw [hpage, Function.update_self, Node.keys, List.map_append, List.map_cons] at hk
      rcases List.mem_append.mp hk with hk | hk
      · obtain ⟨row, hrow, rfl⟩ := List.mem_map.mp hk
        obtain ⟨r, hr, heq⟩ := hkey (List.mem_append_left rows' hrow)
        exact ⟨r, Or.inr hr, heq⟩
      · rcases List.mem_cons.mp hk with rfl | hk
        · exact ⟨_, Or.inl rfl, rfl⟩
        · obtain ⟨row, hrow, rfl⟩ := List.mem_map.mp hk
          obtain ⟨r, hr, heq⟩ := hkey (List.mem_append_right rows hrow)
          exact ⟨r, Or.inr hr, heq⟩
    · rw [Function.update_of_ne hpage] at hk
      obtain ⟨r, hr, heq⟩ := h.keys id q hid k hk
      exact ⟨r, Or.inr hr, heq⟩
  · rw [withRow, ← h.rows]
    exact stored_insertRow hp hplaced.leaf hself hnew
  · -- A row of the same rank would be on this page, where every row is below or above.
    have hmem := h.tree.mem_of_stored hp hplaced.leaf ((h.rows row).mpr hrow) (heq ▸ hhas)
    rcases List.mem_append.mp hmem with hmem | hmem
    · exact (hbelow row hmem).ne heq
    · exact (habove row hmem).ne' heq

/-- An insert that succeeds keeps the order and adds its row, which is new. -/
theorem Fenced.insert {fuel : Nat} (h : Fenced rank R nodes F s) (hin : InOrder type K rank R key)
    (hnodes : PagesHold type nodes s) (hok : s.PagerOk) (hpages : HasPages key value s)
    (hspace : Uncompacted key value s) (hapart : SplitsApart key value s)
    (hvalue : ValueEncoded type value.bytes) (hrun : btreeInsert fuel key value s = .success () w) :
    (∃ nodes' F', PagesHold type nodes' w ∧ Fenced rank (withRow R key value) nodes' F' w) ∧
      ∀ row, R row → rank row.key ≠ rank key.bytes := by
  obtain ⟨leaf, t, u, root, hreach, hleaf, hplace, hexit⟩ := btreeInsert_reaches hrun
  obtain ⟨nodes', F', ht, hfenced, hcovers⟩ := hreach.fenced hin hapart hok hnodes hpages hspace h
  have hheld := (hreach.settled hok).holding
  obtain ⟨rows, rows', right, hplaced⟩ := hplace.placed ht hheld hleaf hin.encoded hvalue
    (hspace.leaf leaf t hreach hleaf)
  obtain ⟨hfenced', hnew⟩ := hplaced.fenced hfenced hin hcovers hheld
  have hsame := deferGuard_same hexit
  exact ⟨⟨_, F', (hplaced.pagesHold ht hheld).same hsame, hfenced'.same hsame⟩, hnew⟩

/-! ### Inserts that fail -/

/-- A failed attempt to make room changes no page, unless it halves the root. -/
theorem makeRoom_same (hok : s.PagerOk) (hnodes : PagesHold type nodes t)
    (hpages : HasPages key value s)
    (hwhole : ¬ HalvesRoot key value s) (hvisit : Visit key value s above page t)
    (hfail : makeRoom key value page above t = .failure u) : SamePages t u := by
  have hheld := (hvisit.standing hok).holding
  have hspare := hpages _ _ _ hvisit
  rcases makeRoom_fails hheld (fun hfull => hnodes.newPage (hspare hfull))
    hfail with hsame | ⟨rfl, hfull, -⟩
  · exact hsame
  · cases hvisit with
    | root hfix =>
        rw [makeRoom_root hfull] at hfail
        rcases splitRoot_failure hfail with hrefuse | ⟨split, v, w, hnext, hrefuse⟩
        · exact nextPage_refused_same hheld
            ((hnodes.newPage (hspare hfull)).mono (by decide)) hrefuse
        · exact absurd ⟨page, t, split, v, w, hfix, hfull, hnext, hrefuse⟩ hwhole

/-- An insert that fails leaves the pages as they were where it failed. -/
theorem FailsAt.keeps {I : Above → PageRef → Sys → (PageId → TreeNode) → Prop}
    {J : PageRef → Sys → (PageId → TreeNode) → Prop} (hrule : WalkRule type key value s nodes I J)
    (hnodes : PagesHold type nodes s) (hok : s.PagerOk) (hpages : HasPages key value s)
    (hwhole : ¬ HalvesRoot key value s) (hfails : FailsAt key value s u) :
    ∃ t nodes', PagesHold type nodes' t ∧ SamePages t u ∧
      ((∃ above page, I above page t nodes') ∨ ∃ page, J page t nodes') := by
  induction hfails with
  | makeRoom hvisit hfail =>
      obtain ⟨nodes', ht, -, hI⟩ := hvisit.keeps hrule hok hnodes hpages
      exact ⟨_, nodes', ht, makeRoom_same hok ht hpages hwhole hvisit hfail, Or.inl ⟨_, _, hI⟩⟩
  | stepDown hreach hinner hfail hexit =>
      obtain ⟨nodes', ht, hJ⟩ := hreach.keeps hrule hok hnodes hpages
      have hsame := stepDown_fails (hreach.settled hok).holding ht hinner hfail
      exact ⟨_, nodes', ht, hsame.trans (pagerUnfix_same hexit), Or.inr ⟨_, hJ⟩⟩
  | insertLeaf hreach hleaf hfail hexit =>
      obtain ⟨nodes', ht, hJ⟩ := hreach.keeps hrule hok hnodes hpages
      have hsame := ((insertLeaf_fails hfail).err _).trans (pagerUnfix_same hexit)
      exact ⟨_, nodes', ht, hsame, Or.inr ⟨_, hJ⟩⟩
  | trace _ e ih =>
      obtain ⟨t, nodes', ht, hsame, hI⟩ := ih
      exact ⟨t, nodes', ht, hsame.err e, hI⟩

/-- An insert that reports a failure keeps the order and the rows. -/
theorem Fenced.insertFails {fuel : Nat} (h : Fenced rank R nodes F s)
    (hin : InOrder type K rank R key)
    (hnodes : PagesHold type nodes s) (hok : s.PagerOk) (hpages : HasPages key value s)
    (hspace : Uncompacted key value s) (hapart : SplitsApart key value s)
    (hwhole : ¬ HalvesRoot key value s) (hrun : btreeInsert fuel key value s = .failure w) :
    ∃ nodes' F', PagesHold type nodes' w ∧ Fenced rank R nodes' F' w := by
  rcases btreeInsert_failure hrun with hfix | ⟨root, u, hfails, hexit⟩
  · have hsame := fixRoot_fails hok hnodes hfix
    exact ⟨nodes, F, hnodes.same hsame, h.same hsame⟩
  · obtain ⟨t, nodes', ht, hfail, hway⟩ :=
      hfails.keeps (hapart.walkRule hin hspace h) hnodes hok hpages hwhole
    have hsame := hfail.trans (deferGuard_same hexit)
    rcases hway with ⟨_, _, F', hway⟩ | ⟨_, F', hfenced, -⟩
    · exact ⟨nodes', F', ht.same hsame, hway.fenced.same hsame⟩
    · exact ⟨nodes', F', ht.same hsame, hfenced.same hsame⟩

/-! ### Lookups -/

/-- A search from a page responsible for the key ends at a leaf responsible for it. -/
theorem Fenced.route_covers (h : Fenced rank R nodes F t) (hin : InOrder type K rank R key)
    (hnodes : PagesHold type nodes t) (hroute : Route t key id leaf)
    (hcovers : Covers rank F key.bytes id) :
    Covers rank F key.bytes leaf := by
  induction hroute with
  | leaf hpage hleaf => exact hcovers
  | inner hpage hinner _ ih =>
      obtain ⟨pre, post, right, henters, -, hchild, -⟩ :=
        (hnodes.node _ _ hpage).inner_search hinner key
      obtain ⟨p, q, -, -, hq, -, hhas⟩ := h.enters hin hcovers henters
      exact ih ⟨q, hchild ▸ hq, hhas⟩

/-- The leaves are the pages of level 0. -/
theorem Fenced.isLeaf_iff (h : Fenced rank R nodes F t) {data : Mem} {p : Place Nat}
    (hholds : PageHolds type t.tree.pageSize data (nodes id)) (hid : F.place id = some p) :
    pageIsLeaf (pageFlags data) = true ↔ p.level = 0 := by
  have hok := h.tree.node id p hid
  rw [hholds.flags]
  cases hnode : nodes id with
  | leaf rows right =>
      rw [hnode] at hok
      simp only [pageIsLeaf_leaf hholds.isType, hok.shape.1]
  | inner seps right =>
      rw [hnode] at hok
      obtain ⟨l, hl, -⟩ := hok.shape
      simp [pageIsLeaf_inner hholds.isType, hl]

/-- Every search from a page responsible for the key comes to a leaf. -/
theorem Fenced.exists_route (h : Fenced rank R nodes F t) (hin : InOrder type K rank R key)
    (hnodes : PagesHold type nodes t) {l : Nat} {p : Place Nat} (hid : F.place id = some p)
    (hlevel : p.level = l)
    (hhas : p.Has (rank key.bytes)) : ∃ leaf, Route t key id leaf := by
  induction l generalizing id p with
  | zero =>
      obtain ⟨data, hdata⟩ := Option.ne_none_iff_exists'.mp (h.there id p hid)
      exact ⟨id, .leaf hdata ((h.isLeaf_iff (hnodes.node id data hdata) hid).mpr hlevel)⟩
  | succ l ih =>
      obtain ⟨data, hdata⟩ := Option.ne_none_iff_exists'.mp (h.there id p hid)
      have hholds := hnodes.node id data hdata
      have hinner : pageIsInner (pageFlags data) = true := by
        rw [pageIsInner_eq, Bool.not_eq_true', Bool.eq_false_iff, ne_eq, h.isLeaf_iff hholds hid]
        omega
      obtain ⟨pre, post, right', henters, -, hchild, -⟩ := hholds.inner_search hinner key
      obtain ⟨p', q, hp', -, hq, hl, hhas'⟩ := h.enters hin ⟨p, hid, hhas⟩ henters
      obtain rfl := Option.some.inj (hp'.symm.trans hid)
      obtain ⟨leaf, hroute⟩ := ih hq (by omega) hhas'
      exact ⟨leaf, .inner hdata hinner (hchild ▸ hroute)⟩

theorem Fenced.route (h : Fenced rank R nodes F t) (hin : InOrder type K rank R key)
    (hnodes : PagesHold type nodes t) : ∃ leaf, Route t key t.tree.root leaf := by
  obtain ⟨p, hp, hhas⟩ := h.covers_root key.bytes
  exact h.exists_route hin hnodes hp rfl hhas

/-- The row a search finds on a leaf responsible for its key. -/
theorem Fenced.found_of_covers (h : Fenced rank R nodes F t) (hin : InOrder type K rank R key)
    (hcovers : Covers rank F key.bytes leaf) {data : Mem} {pageSize : Nat}
    (hholds : PageHolds type pageSize data (nodes leaf))
    (hleaf : pageIsLeaf (pageFlags data) = true) {row : TreeRow}
    (hrow : R row) (hrank : rank row.key = rank key.bytes) :
    ∃ rows rows' right, nodes leaf = .leaf (rows ++ row :: rows') right ∧
      pageFindPointer data key = (true, rows.length) := by
  obtain ⟨p, hp, hhas⟩ := hcovers
  obtain ⟨rows, rows', right, hnode, hindex, hbelow, hstop, hfound⟩ := hholds.leaf_search hleaf key
  have hmem := h.tree.mem_of_stored hp hnode ((h.rows row).mpr hrow) (hrank ▸ hhas)
  have hsorted := (h.tree.node leaf p hp).sorted
  have hkeys := h.keys leaf p hp
  rw [hnode] at hsorted hkeys
  simp only [Node.keys, List.map_append, List.pairwise_append] at hsorted
  have hkey {r : TreeRow} (hr : r ∈ rows ++ rows') : ∃ x, R x ∧ x.key = r.key :=
    hkeys r.key (List.mem_map_of_mem hr)
  have hself : idCompare (keyId row.key) (varintGet key.data).1 = 0 :=
    (hin.eq ⟨row, hrow, rfl⟩).mpr hrank
  have hrow' : row ∈ rows' := by
    refine (List.mem_append.mp hmem).resolve_left fun hin' => ?_
    have hlt := hbelow row hin'
    omega
  -- the search stops at the first row that does not compare below the key
  obtain ⟨first, rest, rfl⟩ := List.exists_cons_of_ne_nil (List.ne_nil_of_mem hrow')
  have hge := (hin.nonneg (hkey (List.mem_append_right rows (List.mem_cons_self ..)))).mp
      (hstop first rfl)
  obtain rfl : row = first := by
    refine (List.mem_cons.mp hrow').resolve_right fun hrest => ?_
    have hlt := (List.pairwise_cons.mp hsorted.2.1).1 _ (List.mem_map_of_mem hrest)
    omega
  exact ⟨rows, rest, right, hnode, Prod.ext (hfound.mpr ⟨row, rfl, hself⟩) hindex⟩

/-- The row a search finds on the leaf of its route. -/
theorem Fenced.leaf_found (h : Fenced rank R nodes F t) (hin : InOrder type K rank R key)
    (hnodes : PagesHold type nodes t) (hroute : Route t key t.tree.root leaf) {data : Mem}
    (hpage : t.pageAt leaf = some data) {row : TreeRow} (hrow : R row)
    (hrank : rank row.key = rank key.bytes) :
    ∃ rows rows' right, nodes leaf = .leaf (rows ++ row :: rows') right ∧
      pageFindPointer data key = (true, rows.length) := by
  obtain ⟨data', hpage', hleaf⟩ := hroute.end_leaf
  obtain rfl := Option.some.inj (hpage'.symm.trans hpage)
  exact h.found_of_covers hin (h.route_covers hin hnodes hroute (h.covers_root key.bytes))
    (hnodes.node leaf _ hpage') hleaf hrow hrank

end

end Wednesday
