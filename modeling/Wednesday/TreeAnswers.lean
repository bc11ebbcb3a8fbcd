import Wednesday.TreeOrder

/-!
What lookups answer. On pages that stand for nodes every search ends at a leaf,
and the bytes a lookup finds are determined by the pages alone: by its route
and the search on the leaf at its end.
-/

namespace Wednesday

open Lib Prog Pager FenceTree

/-! ### A pager at rest -/

/-- The page of the frame with nobody holding it. -/
def Frame.idle (header : Frame) : Frame :=
  { header with latch := 0, flags := header.flags &&& (255 - PAGE_FLAG_EXCLUSIVE) }

def Pager.idle (p : Pager) : Pager :=
  { p with ring := fun f => { p.ring f with header := (p.header f).idle } }

/-- The same pages when nobody holds any of them and no call of the pager is refused. -/
def Sys.idle (s : Sys) : Sys := { s with outage := fun _ => false, pager := s.pager.idle }

section

variable {s : Sys} {p : Pager}

@[simp] theorem Pager.locate_idle (p : Pager) (id : PageId) : p.idle.locate id = p.locate id := rfl

@[simp] theorem Pager.header_idle (p : Pager) (f : Nat) : p.idle.header f = (p.header f).idle := rfl

theorem Frame.idle_latchOk (header : Frame) : LatchOk header.idle := by
  refine ⟨by simp [Frame.idle], by simp [Frame.idle], ?_⟩
  rw [and_exclusive]
  simp only [Frame.idle, Nat.testBit_and, show (255 - PAGE_FLAG_EXCLUSIVE).testBit 2 =
    false from rfl, Bool.and_false]
  decide

theorem Pager.Ok.idle {k : Nat} (h : p.Ok k) : p.idle.Ok k where
  sizePos := h.sizePos
  sizeLt := h.sizeLt
  distinct := h.distinct
  hashed := h.hashed
  mapped := h.mapped
  located := h.located
  latched f _ _ := (p.header f).idle_latchOk
  named := h.named
  reserved := h.reserved
  capacity := h.capacity

theorem samePages_idle (s : Sys) : SamePages s s.idle :=
  ⟨pageAt_congr (fun _ _ => rfl) fun _ _ _ _ => rfl, rfl, le_rfl⟩

theorem quiet_idle (s : Sys) : Quiet [] s.idle := fun _ _ _ _ _ => rfl

end

/-! ### Answers -/

/-- The value that stands at the offset of a page. -/
def valueBytes (page : Mem) (offset : Nat) : Bytes :=
  (page.drop offset).read 0 (payloadGetValueLen (pageFlags page) (page.drop offset))

/-- What a lookup returns: the value it points to, or that the key is not there. -/
def lookupValue (fuel : Nat) (key : Blob) (s : Sys) : Option (Option Bytes) :=
  match btreeLookup fuel key s with
  | .success ptr t => some (some (valueBytes (t.pager.header ptr.frame).data ptr.offset))
  | .failure t => if errorGetCode t.err = ENOENT then some none else none
  | .fault _ => none

/-- Lookups of the key return, and return the same. -/
def Answers (s : Sys) (key : Blob) (answer : Option Bytes) : Prop :=
  (∃ fuel, lookupValue fuel key s.idle = some answer) ∧
    ∀ fuel answer', lookupValue fuel key s.idle = some answer' → answer' = answer

/-- The value of the key on a leaf. -/
def valueOn (page : Mem) (key : Blob) : Option Bytes :=
  match pageFindPointer page key with
  | (true, index) => some (valueBytes page
      (pageCell page index + payloadGetValuePtr (pageFlags page) (pageGetPayload page index)))
  | (false, _) => none

section

variable {type pageSize fuel : Nat} {nodes : PageId → TreeNode} {K : Bytes → Prop}
  {rank : Bytes → Nat}
  {R : TreeRow → Prop} {F : Fences} {s t : Sys} {key : Blob} {id leaf : PageId} {data : Mem}
  {answer : Option Bytes} {q : Place Nat}

/-- A lookup returns what stands on the leaf of its route. -/
theorem lookupValue_eq (hok : s.PagerOk) (hnodes : PagesHold type nodes s)
    (hout : ∀ n, s.outage n = false)
    (hroute : Route s key s.tree.root leaf) (hpage : s.pageAt leaf = some data)
    (h : lookupValue fuel key s = some answer) : answer = valueOn data key := by
  have hwp : wp (btreeLookup fuel key) _ _ _ s := btreeLookup_route hok hnodes
  unfold lookupValue at h
  cases hrun : btreeLookup fuel key s with
  | fault r =>
      rw [hrun] at h
      cases h
  | success ptr t =>
      obtain ⟨-, leaf', hvalue⟩ := hwp.success hrun
      obtain rfl := hvalue.route.functional hroute
      obtain rfl := Option.some.inj (hvalue.page.symm.trans hpage)
      rw [hrun] at h
      have hfound := hvalue.found
      rw [valueOn]
      rcases hsearch : pageFindPointer (t.pager.header ptr.frame).data key with ⟨found, index⟩
      rw [hsearch] at hfound
      obtain rfl : found = true := hfound
      have hoffset := hvalue.offset
      rw [hsearch] at hoffset
      dsimp only
      rw [← hoffset]
      exact (Option.some.inj h).symm
  | failure t =>
      obtain ⟨-, hcause⟩ := hwp.failure hrun
      rw [hrun] at h
      rcases hcause with ⟨n, hn⟩ | ⟨⟨leaf', data', hroute', hpage', hmissing⟩, hcode⟩
      · rw [hout] at hn
        cases hn
      · obtain rfl := hroute'.functional hroute
        obtain rfl := Option.some.inj (hpage'.symm.trans hpage)
        dsimp only at h
        rw [if_pos hcode] at h
        rw [valueOn]
        rcases hsearch : pageFindPointer data' key with ⟨found, index⟩
        rw [hsearch] at hmissing
        obtain rfl : found = false := hmissing
        exact (Option.some.inj h).symm

theorem answers_of_route (hok : s.PagerOk) (hnodes : PagesHold type nodes s)
    (hroute : Route s key s.tree.root leaf) (hpage : s.pageAt leaf = some data) :
    Answers s key (valueOn data key) := by
  have hsame := samePages_idle s
  have hok' : s.idle.PagerOk := Pager.Ok.idle hok
  have hnodes' := hnodes.same hsame
  have hroute' : Route s.idle key s.idle.tree.root leaf := Route.congr hsame.pageAt.symm hroute
  have hpage' : s.idle.pageAt leaf = some data := hsame.pageAt ▸ hpage
  have hvalue (fuel : Nat) (answer : Option Bytes) (h : lookupValue fuel key s.idle = some answer) :
      answer = valueOn data key := lookupValue_eq hok' hnodes' (fun _ => rfl) hroute' hpage' h
  refine ⟨?_, hvalue⟩
  obtain ⟨n, hn⟩ := btreeLookup_returns hroute' hok' hnodes' (quiet_idle s) fun _ => rfl
  have hreturns := hn n le_rfl
  have hwp : wp (btreeLookup n key) _ _ _ s.idle := btreeLookup_route hok' hnodes'
  have hsome : ∃ answer, lookupValue n key s.idle = some answer := by
    unfold lookupValue
    cases hrun : btreeLookup n key s.idle with
    | success ptr t => exact ⟨_, rfl⟩
    | failure t =>
        obtain ⟨-, ⟨k, hk⟩ | ⟨-, hcode⟩⟩ := hwp.failure hrun
        · cases hk
        · exact ⟨none, if_pos hcode⟩
    | fault r => exact (hreturns.fault hrun).elim
  obtain ⟨answer, hanswer⟩ := hsome
  exact ⟨n, hvalue n answer hanswer ▸ hanswer⟩

/-! ### Every search ends -/

/-- The links of the pages lead on, so that every search comes to a leaf. -/
theorem PagesHold.exists_route (h : PagesHold type nodes s) (key : Blob)
    (hid : s.pageAt id ≠ none) :
    ∃ leaf, Route s key id leaf := by
  classical
  obtain ⟨rank, hrank⟩ := h.acyclic
  let later (id : PageId) : Finset PageId :=
    (Finset.range s.pager.nextPage).filter fun j => s.pageAt j ≠ none ∧ rank id < rank j
  induction hcard : (later id).card using Nat.strong_induction_on generalizing id with
  | _ n ih =>
      obtain ⟨data, hdata⟩ := Option.ne_none_iff_exists'.mp hid
      by_cases hleaf : pageIsLeaf (pageFlags data) = true
      · exact ⟨id, .leaf hdata hleaf⟩
      · have hinner : pageIsInner (pageFlags data) = true := by
          rw [pageIsInner_eq, Bool.not_eq_true', Bool.eq_false_iff]
          exact hleaf
        obtain ⟨pre, post, right, henters, -, hchild, -⟩ :=
          (h.node id data hdata).inner_search hinner key
        have hlink : childOf post right ∈ (nodes id).links := henters.node ▸ childOf_mem_links
        have hthere := h.links id hid _ hlink
        have hlt := hrank id hid _ hlink
        have hless : later (childOf post right) ⊂ later id := by
          refine Finset.ssubset_iff_of_subset (fun j hj => ?_) |>.mpr ⟨childOf post right, ?_, ?_⟩
          · simp only [later, Finset.mem_filter] at hj ⊢
            exact ⟨hj.1, hj.2.1, hlt.trans hj.2.2⟩
          · simp only [later, Finset.mem_filter, Finset.mem_range]
            exact ⟨h.fresh _ hthere, hthere, hlt⟩
          · simp [later]
        obtain ⟨leaf, hroute⟩ := ih _ (hcard ▸ Finset.card_lt_card hless) hthere rfl
        exact ⟨leaf, .inner hdata hinner (hchild ▸ hroute)⟩

/-! ### Values on a page -/

/-- Where a search finds a row its value stands, as long as it is measured. -/
theorem PageHolds.value_found {rows rows' : List TreeRow} {row : TreeRow} {right : PageId}
    (h : PageHolds type pageSize data (.leaf (rows ++ row :: rows') right)) :
    let value := data.drop (pageCell data rows.length +
      payloadGetValuePtr (pageFlags data) (pageGetPayload data rows.length))
    value.Holds 0 row.value ∧ payloadGetValueLen (pageFlags data) value = row.value.length := by
  have hi : rows.length < (payloads (.leaf (rows ++ row :: rows') right)).length := by
    simp [payloads]
  have hholds := h.payload hi
  simp only [payloads, List.getElem_map, List.getElem_append_right le_rfl, Nat.sub_self,
    List.getElem_cons_zero] at hholds
  obtain ⟨hkey, hvalue⟩ := Mem.holds_append.mp hholds
  rw [Nat.zero_add] at hvalue
  have henc := h.encoded row (by simp)
  have hflags := h.flags ▸ pageIsIndexUuid_nodeFlags h.isType (.leaf (rows ++ row :: rows') right)
  have hptr : payloadGetValuePtr (pageFlags data) (pageGetPayload data rows.length) =
      row.key.length :=
    payloadGetKeyLen_of_holds hflags henc.1 hkey
  have hsmall := h.small
  have hlen : row.value.length < 65536 := by
    have hspace := h.space
    have hle : (row.key ++ row.value).length ≤
        payloadBytes (.leaf (rows ++ row :: rows') right) := by
      refine List.le_sum_of_mem (List.mem_map_of_mem ?_)
      simp [payloads]
    rw [List.length_append] at hle
    omega
  have hat : (data.drop (pageCell data rows.length + row.key.length)).Holds 0 row.value := by
    have hdrop := hvalue.drop
    rwa [pageGetPayload, Mem.drop_drop] at hdrop
  rw [hptr]
  exact ⟨hat, payloadGetValueLen_of_holds hflags henc.2 hlen hat⟩

/-- The value of the row a search finds. -/
theorem PageHolds.valueOn_row {rows rows' : List TreeRow} {row : TreeRow} {right : PageId}
    (h : PageHolds type pageSize data (.leaf (rows ++ row :: rows') right))
    (hsearch : pageFindPointer data key = (true, rows.length)) :
    valueOn data key = some row.value := by
  obtain ⟨hat, hlen⟩ := h.value_found
  rw [valueOn, hsearch]
  dsimp only
  rw [valueBytes, hlen]
  exact congrArg some (Mem.holds_iff_read.mp hat)

/-! ### Answers of a search tree -/

/-- A search that starts on a page of the tree stays on its pages. -/
theorem Fenced.route_placed (h : Fenced rank R nodes F t) (hnodes : PagesHold type nodes t)
    (hroute : Route t key id leaf) (hid : ∃ p, F.place id = some p) :
    ∃ p, F.place leaf = some p := by
  induction hroute with
  | leaf hpage hleaf => exact hid
  | inner hpage hinner _ ih =>
      obtain ⟨p, hp⟩ := hid
      obtain ⟨pre, post, right, henters, -, hchild, -⟩ :=
        (hnodes.node _ _ hpage).inner_search hinner key
      refine ih ((h.tree.node _ p hp).link_placed ?_)
      rw [hchild, henters.node]
      exact childOf_mem_links

/-- A lookup of a key that has the rank of a row answers its value. -/
theorem Fenced.answers_row (h : Fenced rank R nodes F t) (hin : InOrder type K rank R key)
    (hok : t.PagerOk)
    (hnodes : PagesHold type nodes t) {row : TreeRow} (hrow : R row)
    (hrank : rank row.key = rank key.bytes) :
    Answers t key (some row.value) := by
  obtain ⟨leaf, hroute⟩ := h.route hin hnodes
  obtain ⟨data, hpage, -⟩ := hroute.end_leaf
  obtain ⟨rows, rows', right, hnode, hsearch⟩ := h.leaf_found hin hnodes hroute hpage hrow hrank
  have hholds := hnodes.node leaf data hpage
  rw [hnode] at hholds
  rw [← hholds.valueOn_row hsearch]
  exact answers_of_route hok hnodes hroute hpage

/-- A search for a key that compares equal to no key of a row does not find it. -/
theorem Fenced.not_found (h : Fenced rank R nodes F t) (hnodes : PagesHold type nodes t)
    (hroute : Route t key t.tree.root leaf) (hpage : t.pageAt leaf = some data)
    (hnone : ∀ row, R row → idCompare (keyId row.key) (varintGet key.data).1 ≠ 0) :
    (pageFindPointer data key).1 = false := by
  obtain ⟨p, hp⟩ := h.route_placed hnodes hroute ⟨_, h.tree.root⟩
  rw [Bool.eq_false_iff]
  intro hfound
  obtain ⟨as, bs, hkeys, -, -, -, hiff⟩ := (hnodes.node leaf data hpage).search key
  obtain ⟨k, hk, heq⟩ := hiff.mp hfound
  have hmem : k ∈ (nodes leaf).keys := by
    rw [hkeys]
    exact List.mem_append_right _ (List.mem_of_mem_head? hk)
  obtain ⟨row, hrow, rfl⟩ := h.keys leaf p hp k hmem
  exact hnone row hrow heq

/-- A lookup of a key that compares equal to no key of a row answers that it is not there. -/
theorem Fenced.answers_none (h : Fenced rank R nodes F t) (hok : t.PagerOk)
    (hnodes : PagesHold type nodes t)
    (hnone : ∀ row, R row → idCompare (keyId row.key) (varintGet key.data).1 ≠ 0) :
    Answers t key none := by
  obtain ⟨leaf, hroute⟩ := hnodes.exists_route key hnodes.root
  obtain ⟨data, hpage, -⟩ := hroute.end_leaf
  have hmissing := h.not_found hnodes hroute hpage hnone
  have hanswer := answers_of_route hok hnodes hroute hpage
  rw [valueOn] at hanswer
  rcases hsearch : pageFindPointer data key with ⟨found, index⟩
  rw [hsearch] at hmissing hanswer
  obtain rfl : found = false := hmissing
  exact hanswer

end

end Wednesday
