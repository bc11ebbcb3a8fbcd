import Wednesday.PagerBlind

/-!
Pages that stand for the same nodes. Two pages may differ in what was never
written to them; whatever the tree reads of them is the same, and the writes of
the tree keep it so.
-/

namespace Wednesday

open Lib Prog Pager FenceTree

/-! ### Two pages -/

/-- Two pages that stand for the same node, with the same count of free bytes. -/
structure SameNode (type pageSize : Nat) (node : TreeNode) (d d' : Mem) : Prop where
  left : PageHolds type pageSize d node
  right : PageHolds type pageSize d' node
  free : freeSpace d = freeSpace d'

theorem takeWhile_append_eq_left {α : Type} (p : α → Bool) {as bs : List α}
    (has : ∀ a ∈ as, p a = true)
    (hbs : ∀ b ∈ bs.head?, p b = false) : (as ++ bs).takeWhile p = as := by
  rw [List.takeWhile_append_of_pos has]
  cases bs with
  | nil => rw [List.takeWhile_nil, List.append_nil]
  | cons b bs => rw [List.takeWhile_cons, if_neg (by simp [hbs b rfl]), List.append_nil]

section

variable {type type' pageSize index : Nat} {node node' : TreeNode}
  {d d' e next next' stack stack' : Mem}
  {key value : Blob} {id : PageId}

/-- The type of a page is in its flags. -/
theorem PageHolds.type_eq (h : PageHolds type pageSize d node)
    (h' : PageHolds type' pageSize d node') :
    type = type' := by
  have hflags := pageIsIndexUuid_nodeFlags h.isType node
  have hflags' := pageIsIndexUuid_nodeFlags h'.isType node'
  rw [← h.flags, h'.flags, hflags'] at hflags
  rcases h.isType with rfl | rfl <;> rcases h'.isType with rfl | rfl <;> simp_all

namespace SameNode

theorem flags (h : SameNode type pageSize node d d') : pageFlags d = pageFlags d' :=
  h.left.flags.trans h.right.flags.symm

theorem count (h : SameNode type pageSize node d d') : cellCount d = cellCount d' :=
  h.left.count.trans h.right.count.symm

theorem needsSplit (h : SameNode type pageSize node d d') (key value : Blob) :
    Wednesday.needsSplit d key value = Wednesday.needsSplit d' key value := by
  rw [Wednesday.needsSplit, Wednesday.needsSplit, h.flags, h.free]

/-- A search finds the same on both pages. -/
theorem search (h : SameNode type pageSize node d d') (key : Blob) :
    pageFindPointer d key = pageFindPointer d' key := by
  obtain ⟨as, bs, hkeys, hindex, hbelow, hstop, hfound⟩ := h.left.search key
  obtain ⟨as', bs', hkeys', hindex', hbelow', hstop', hfound'⟩ := h.right.search key
  have hleft := takeWhile_append_eq_left (fun a => idCompare (keyId a) (varintGet key.data).1 < 0)
    (fun a ha => decide_eq_true (hbelow a ha)) fun b hb => decide_eq_false (not_lt.mpr (hstop b hb))
  have hright := takeWhile_append_eq_left (fun a => idCompare (keyId a) (varintGet key.data).1 < 0)
    (fun a ha => decide_eq_true (hbelow' a ha)) fun b hb => decide_eq_false
    (not_lt.mpr (hstop' b hb))
  rw [← hkeys] at hleft
  rw [← hkeys', hleft] at hright
  subst hright
  obtain rfl := List.append_cancel_left (hkeys.symm.trans hkeys')
  exact Prod.ext (Bool.eq_iff_iff.mpr (hfound.trans hfound'.symm)) (hindex.trans hindex'.symm)

/-- A search on an inner page goes to the same child, which the node links to. -/
theorem child (h : SameNode type pageSize node d d') (hinner : pageIsInner (pageFlags d) = true)
    (key : Blob) :
    childAt d (pageFindPointer d key).2 = childAt d' (pageFindPointer d' key).2 ∧
      childAt d (pageFindPointer d key).2 ∈ node.links := by
  obtain ⟨pre, post, right, henters, hindex, hchild, -⟩ := h.left.inner_search hinner key
  have hright := h.right
  rw [henters.node] at hright
  rw [hchild, ← h.search key, hindex, hright.childAt, henters.node]
  exact ⟨rfl, childOf_mem_links⟩

/-! ### Writes -/

theorem splitLeft (h : SameNode type pageSize node d d') (hid : id < 2 ^ 32) :
    SameNode type pageSize (node.takeTo (cutAt node) id) (Wednesday.splitLeft stack pageSize d id)
      (Wednesday.splitLeft stack' pageSize d' id) :=
  ⟨h.left.splitLeft stack hid, h.right.splitLeft stack' hid,
    (h.left.freeSpace_splitLeft stack hid).trans (h.right.freeSpace_splitLeft stack' hid).symm⟩

theorem splitRight (h : SameNode type pageSize node d d') :
    SameNode type pageSize (node.dropTo (cutAt node))
      (Wednesday.splitRight stack pageSize d next id)
      (Wednesday.splitRight stack' pageSize d' next' id) := by
  have hleft : PageHolds type pageSize (Wednesday.splitRight stack pageSize d next id)
      (node.dropTo (cutAt node)) := h.left.splitRight stack
  have hright : PageHolds type pageSize (Wednesday.splitRight stack' pageSize d' next' id)
      (node.dropTo (cutAt node)) := h.right.splitRight stack'
  refine ⟨hleft, hright, ?_⟩
  have hspace := hleft.space
  have hspace' := hright.space
  rw [h.left.freeSpace_splitRight, h.right.freeSpace_splitRight]
  omega

/-- Both pages are split at the same key. -/
theorem splitKey (h : SameNode type pageSize node d d') (stack stack' : Mem)
    (hcut : cellCount d / 2 ≠ 0)
    (hid : id < 2 ^ 32) : (Wednesday.splitKey stack pageSize d id).bytes = cutKey node ∧
      (Wednesday.splitKey stack' pageSize d' id).bytes = cutKey node ∧
      KeyEncoded type (cutKey node) :=
  ⟨(h.left.splitKey_bytes stack hcut hid).1, (h.right.splitKey_bytes stack' (h.count ▸ hcut) hid).1,
    (h.left.splitKey_bytes stack hcut hid).2⟩

theorem keyCompare_splitKey (h : SameNode type pageSize node d d') (hcut : cellCount d / 2 ≠ 0)
    (hid : id < 2 ^ 32) (key : Mem) :
    keyCompare key (Wednesday.splitKey stack pageSize d id).data =
      keyCompare key (Wednesday.splitKey stack' pageSize d' id).data := by
  obtain ⟨hbytes, hbytes', henc⟩ := h.splitKey stack stack' hcut hid
  have hkey := (KeyEncoded.varintGet_of_holds (hbytes ▸ henc) (Blob.holds_bytes _)).2
  have hkey' := (KeyEncoded.varintGet_of_holds (hbytes' ▸ henc) (Blob.holds_bytes _)).2
  rw [hbytes] at hkey
  rw [hbytes', ← hkey] at hkey'
  rw [keyCompare, keyCompare, hkey']

theorem initLeaf (ht : IsTreeType type) (hsmall : pageSize < 65536)
    (hsize : sizeofHeader ≤ pageSize) :
    SameNode type pageSize (.leaf [] 0) (pageInitLeaf pageSize d type)
      (pageInitLeaf pageSize d' type) :=
  ⟨pageHolds_pageInitLeaf d ht hsmall hsize, pageHolds_pageInitLeaf d' ht hsmall hsize,
    (freeSpace_pageInitLeaf d).trans (freeSpace_pageInitLeaf d').symm⟩

theorem initRoot {splitKey splitKey' : Blob} {rootId splitId : PageId} {k : Bytes}
    (h : SameNode type pageSize node d d') (hk : splitKey.bytes = k) (hk' : splitKey'.bytes = k)
    (henc : KeyEncoded type k) (hroom : sizeofHeader + 2 + (sizeofPageId + k.length) ≤ pageSize)
    (hroot : rootId < 2 ^ 32) (hsplit : splitId < 2 ^ 32) :
    SameNode type pageSize (.inner [⟨rootId, k⟩] splitId)
      (pageInitRoot pageSize next (pageFlags d) rootId splitKey splitId)
      (pageInitRoot pageSize next' (pageFlags d') rootId splitKey' splitId) := by
  have hsize : splitKey.size = k.length := by rw [← hk, Blob.length_bytes]
  have hsize' : splitKey'.size = k.length := by rw [← hk', Blob.length_bytes]
  obtain ⟨hholds, hfree⟩ := pageHolds_pageInitRoot next node h.left.isType h.left.small
      (hsize ▸ hroom)
    (hk ▸ henc) hroot hsplit
  obtain ⟨hholds', hfree'⟩ := pageHolds_pageInitRoot next' node h.left.isType h.left.small
      (hsize' ▸ hroom)
    (hk' ▸ henc) hroot hsplit
  rw [h.left.flags, h.right.flags]
  rw [hk] at hholds
  rw [hk'] at hholds'
  exact ⟨hholds, hholds', hfree.trans ((hsize.trans hsize'.symm) ▸ hfree'.symm)⟩

/-- A separator is inserted on both pages, or on none. -/
theorem insertInner {pre post : List TreeSep} {right : PageId} {sep sep' : Blob} {k : Bytes}
    (h : SameNode type pageSize (.inner (pre ++ post) right) d d') (stack' : Mem)
    (hk : sep.bytes = k)
    (hk' : sep'.bytes = k) (henc : KeyEncoded type k) (hid : id < 2 ^ 32)
    (hspace : NotCompacted d (sep.size + sizeofPageId))
    (hrun : pageInsertInner stack pageSize d pre.length sep id = .ok e) :
    ∃ e', pageInsertInner stack' pageSize d' pre.length sep' id = .ok e' ∧
      SameNode type pageSize (insertSep pre post right k id) e e' := by
  have hsize : sep'.size = sep.size := by rw [← Blob.length_bytes, ← Blob.length_bytes, hk, hk']
  have hfree := pageInsertInner_ok hrun
  have hroom := hspace hfree
  obtain ⟨e₁, hrun₁, hholds, hfree₁⟩ := h.left.insertInner stack (hk ▸ henc) hid hfree hroom
  obtain rfl := Except.ok.inj (hrun₁.symm.trans hrun)
  have hpageSpace := h.left.space
  have hpageSpace' := h.right.space
  have hroom' : sep'.size + sizeofPageId + 2 ≤ pageGetSpace d' := by omega
  obtain ⟨e', hrun', hholds', hfree'⟩ := h.right.insertInner stack' (hk' ▸ henc) hid
    (by rw [hsize, ← h.free]; exact hfree) hroom'
  refine ⟨e', hrun', ?_, ?_, ?_⟩
  · rwa [hk] at hholds
  · rwa [hk'] at hholds'
  · rw [hfree₁, hfree', hsize, h.free]

/-- A leaf that has the key has it on both pages. -/
theorem insertLeaf_exists (h : SameNode type pageSize node d d') (stack' : Mem)
    (hrun : pageInsertLeaf stack pageSize d key value = .ok none) :
    pageInsertLeaf stack' pageSize d' key value = .ok none := by
  unfold pageInsertLeaf at hrun ⊢
  rw [← h.search key]
  rcases hsearch : pageFindPointer d key with ⟨found, index⟩
  rw [hsearch] at hrun
  cases found with
  | true => rfl
  | false =>
      cases hpayload : pageInsertPayload stack pageSize d index (key.size + value.size) with
      | error r =>
          simp only [hpayload] at hrun
          cases hrun
      | ok r =>
          simp only [hpayload] at hrun
          cases hrun

/-- A row is placed on both pages. -/
theorem insertLeaf (h : SameNode type pageSize node d d') (stack' : Mem)
    (hleaf : pageIsLeaf (pageFlags d) = true) (hkey : KeyEncoded type key.bytes)
    (hvalue : ValueEncoded type value.bytes)
    (hspace : NotCompacted d (key.size + value.size))
    (hrun : pageInsertLeaf stack pageSize d key value = .ok (some e)) :
    ∃ e' rows right, pageInsertLeaf stack' pageSize d' key value = .ok (some e') ∧
      SameNode type pageSize (.leaf rows right) e e' := by
  obtain ⟨hnew, hfree⟩ := pageInsertLeaf_some hrun
  obtain ⟨rows, rows', right, rfl, hindex, -⟩ := h.left.leaf_search hleaf key
  have hsearch : pageFindPointer d key = (false, rows.length) := Prod.ext hnew hindex
  have hroom := hspace hfree
  obtain ⟨e₁, hrun₁, hholds, hfree₁⟩ := h.left.insertLeaf stack hkey hvalue hsearch hfree hroom
  obtain rfl := Option.some.inj (Except.ok.inj (hrun₁.symm.trans hrun))
  have hpageSpace := h.left.space
  have hpageSpace' := h.right.space
  obtain ⟨e', hrun', hholds', hfree'⟩ :=
    h.right.insertLeaf stack' hkey hvalue (h.search key ▸ hsearch)
    (h.free ▸ hfree) (by omega)
  exact ⟨e', _, right, hrun', hholds, hholds', by rw [hfree₁, hfree', h.free]⟩

/-- A lookup finds the same value on both leaves. -/
theorem valueOn (h : SameNode type pageSize node d d') (hleaf : pageIsLeaf (pageFlags d) = true)
    (key : Blob) :
    Wednesday.valueOn d key = Wednesday.valueOn d' key := by
  obtain ⟨rows, rows', right, rfl, hindex, -, -, hfound⟩ := h.left.leaf_search hleaf key
  have hsearch := h.search key
  cases hcase : (pageFindPointer d key).1 with
  | true =>
      obtain ⟨row, hrow, -⟩ := hfound.mp hcase
      obtain ⟨rest, rfl⟩ : ∃ rest, rows' = row :: rest := by
        cases rows' with
        | nil => cases hrow
        | cons r rest =>
            obtain rfl := Option.some.inj hrow
            exact ⟨rest, rfl⟩
      have hd : pageFindPointer d key = (true, rows.length) := Prod.ext hcase hindex
      rw [h.left.valueOn_row hd, h.right.valueOn_row (hsearch ▸ hd)]
  | false =>
      have hd : pageFindPointer d key = (false, rows.length) := Prod.ext hcase hindex
      rw [Wednesday.valueOn, Wednesday.valueOn, ← hsearch, hd]

end SameNode

/-! ### The pages of two processes -/

/-- A page of this type stands under the id. -/
def HasType (pageSize : Nat) (S : PageId → Option Mem) (type : Nat) (id : PageId) : Prop :=
  ∃ d node, S id = some d ∧ PageHolds type pageSize d node

/-- The same ids have pages, these stand for the same nodes, and the links of a
node lead to pages of its type. -/
structure AlikePages (pageSize : Nat) (S T : PageId → Option Mem) : Prop where
  there : ∀ id, S id = none ↔ T id = none
  node : ∀ id d d', S id = some d → T id = some d' → ∃ type node, SameNode type pageSize node d d' ∧
    ∀ c ∈ node.links, HasType pageSize S type c
  ids : ∀ id, S id ≠ none → id < 2 ^ 32

variable {S T : PageId → Option Mem} {c : PageId}

theorem HasType.there (h : HasType pageSize S type id) : S id ≠ none := by
  obtain ⟨d, node, hd, -⟩ := h
  simp [hd]

theorem HasType.eq (h : HasType pageSize S type id) (h' : HasType pageSize S type' id) :
    type = type' := by
  obtain ⟨d, node, hd, hholds⟩ := h
  obtain ⟨d', node', hd', hholds'⟩ := h'
  obtain rfl := Option.some.inj (hd.symm.trans hd')
  exact hholds.type_eq hholds'

/-- What stands under an id of that type. -/
theorem AlikePages.at (h : AlikePages pageSize S T) (hd : S id = some d) (hd' : T id = some d')
    (htype : HasType pageSize S type id) :
    ∃ node, SameNode type pageSize node d d' ∧ ∀ c ∈ node.links, HasType pageSize S type c := by
  obtain ⟨type', node, hnode, hlinks⟩ := h.node id d d' hd hd'
  obtain ⟨e, node', he, hholds⟩ := htype
  obtain rfl := Option.some.inj (hd.symm.trans he)
  obtain rfl := hnode.left.type_eq hholds
  exact ⟨node, hnode, hlinks⟩

/-- A page keeps its type when it is written. -/
theorem HasType.write (h : HasType pageSize S type' c)
    (hold : S id ≠ none → HasType pageSize S type id)
    (hd : PageHolds type pageSize d node) :
    HasType pageSize (Function.update S id (some d)) type' c := by
  by_cases hc : c = id
  · subst hc
    obtain rfl := h.eq (hold h.there)
    exact ⟨d, node, Function.update_self .., hd⟩
  · obtain ⟨e, node', he, hholds⟩ := h
    exact ⟨e, node', by rw [Function.update_of_ne hc, he], hholds⟩

/-- A page is written, or a new one. -/
theorem AlikePages.write (h : AlikePages pageSize S T) (hnode : SameNode type pageSize node d d')
    (hlinks : ∀ c ∈ node.links, HasType pageSize (Function.update S id (some d)) type c)
    (hold : S id ≠ none → HasType pageSize S type id) (hid : id < 2 ^ 32) :
    AlikePages pageSize (Function.update S id (some d)) (Function.update T id (some d')) := by
  constructor
  · intro j
    by_cases hj : j = id
    · simp [hj]
    · rw [Function.update_of_ne hj, Function.update_of_ne hj]
      exact h.there j
  · intro j e e' he he'
    by_cases hj : j = id
    · rw [hj, Function.update_self] at he he'
      obtain rfl := Option.some.inj he
      obtain rfl := Option.some.inj he'
      exact ⟨type, node, hnode, hlinks⟩
    · rw [Function.update_of_ne hj] at he he'
      obtain ⟨type', node', hnode', hlinks'⟩ := h.node j e e' he he'
      exact ⟨type', node', hnode', fun c hc => (hlinks' c hc).write hold hnode.left⟩
  · intro j hj
    by_cases heq : j = id
    · exact heq ▸ hid
    · rw [Function.update_of_ne heq] at hj
      exact h.ids j hj

/-- The halves of a page are written, the upper one to a new page. -/
theorem AlikePages.split (h : AlikePages pageSize S T) (stack stack' next next' : Mem)
    (hd : S c = some d) (hd' : T c = some d')
    (htype : HasType pageSize S type c) (hnew : S id = none) (hid : id < 2 ^ 32) :
    AlikePages pageSize
      (Function.update (Function.update S c (some (splitLeft stack pageSize d id))) id
        (some (splitRight stack pageSize d next id)))
      (Function.update (Function.update T c (some (splitLeft stack' pageSize d' id))) id
        (some (splitRight stack' pageSize d' next' id))) ∧
    HasType pageSize (Function.update (Function.update S c
      (some (splitLeft stack pageSize d id))) id
        (some (splitRight stack pageSize d next id))) type id ∧
    ∀ type' j, HasType pageSize S type' j →
      HasType pageSize (Function.update
        (Function.update S c (some (splitLeft stack pageSize d id))) id
        (some (splitRight stack pageSize d next id))) type' j := by
  obtain ⟨node, hnode, hlinks⟩ := h.at hd hd' htype
  have hne : c ≠ id := by
    rintro rfl
    exact htype.there hnew
  have hupper : SameNode type pageSize (node.dropTo (cutAt node))
      (splitRight stack pageSize d next id)
      (splitRight stack' pageSize d' next' id) := hnode.splitRight
  have hlower : SameNode type pageSize (node.takeTo (cutAt node) id) (splitLeft stack pageSize d id)
      (splitLeft stack' pageSize d' id) := hnode.splitLeft hid
  have hold : S id ≠ none → HasType pageSize S type id := fun hthere => absurd hnew hthere
  have hthere : HasType pageSize (Function.update S id (some (splitRight stack pageSize d next id)))
      type id :=
    ⟨_, _, Function.update_self .., hupper.left⟩
  have hright :=
    h.write hupper (fun x hx => (hlinks x (links_dropTo hx)).write hold hupper.left) hold hid
  have hcold : Function.update S id (some (splitRight stack pageSize d next id)) c ≠ none →
      HasType pageSize (Function.update S id (some (splitRight stack pageSize d next id))) type c :=
    fun _ => htype.write hold hupper.left
  rw [Function.update_comm hne, Function.update_comm hne]
  refine ⟨hright.write hlower (fun x hx => ?_) hcold (h.ids c htype.there),
    hthere.write hcold hlower.left, fun type' j hj =>
      (hj.write hold hupper.left).write hcold hlower.left⟩
  rcases links_takeTo hx with rfl | hx
  · exact hthere.write hcold hlower.left
  · exact ((hlinks x hx).write hold hupper.left).write hcold hlower.left

end

end Wednesday
