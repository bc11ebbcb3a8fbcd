import Mathlib.Algebra.Order.BigOperators.Group.List
import Mathlib.Data.List.TakeWhile
import Wednesday.PageInsert
import Wednesday.PageSearch
import Wednesday.BtreeStages
import Wednesday.Lib.FenceTreeSteps

/-!
Pages as nodes of a search tree. A page stands for a node if its cells are the
rows or separators of the node, encoded as the type of the tree says. The
operations on pages act on the nodes they stand for.
-/

namespace Wednesday

open Lib FenceTree

/-- A node whose keys and values are bytes. -/
abbrev TreeNode := Node PageId Bytes Bytes

abbrev TreeRow := Row Bytes Bytes

abbrev TreeSep := FenceTree.Sep PageId Bytes

/-- The id a key starts with. -/
def keyId (key : Bytes) : Nat := (varintGet (Mem.ofBytes key)).1

/-- The types of the trees `btree_create` is called for. -/
def IsTreeType (type : Nat) : Prop := type = PAGE_FLAG_TABLE ∨ type = PAGE_FLAG_INDEX_UUID

/-- A key as the page code measures it: one varint, or one UUID. -/
def KeyEncoded (type : Nat) (key : Bytes) : Prop :=
  if type = PAGE_FLAG_INDEX_UUID then key.length = sizeofUuid
  else varintGetLen (Mem.ofBytes key) = key.length

/-- A value as the page code measures it: one blob, or one page id. -/
def ValueEncoded (type : Nat) (value : Bytes) : Prop :=
  if type = PAGE_FLAG_INDEX_UUID then value.length = sizeofPageId else IsBlob value

def nodeFlags (type : Nat) : TreeNode → Nat
  | .leaf _ _ => pageFlagsPackage true type
  | .inner _ _ => type

def payloads : TreeNode → List Bytes
  | .leaf rows _ => rows.map fun row => row.key ++ row.value
  | .inner seps _ => seps.map fun sep => Mem.leList sizeofPageId sep.child ++ sep.key

def Encoded (type : Nat) : TreeNode → Prop
  | .leaf rows _ => ∀ row ∈ rows, KeyEncoded type row.key ∧ ValueEncoded type row.value
  | .inner seps _ => ∀ sep ∈ seps, KeyEncoded type sep.key ∧ sep.child < 2 ^ 32

/-- The page stands for the node. -/
structure PageHolds (type pageSize : Nat) (page : Mem) (node : TreeNode) : Prop where
  isType : IsTreeType type
  small : pageSize < 65536
  layout : ∃ cells, cells.map Prod.snd = payloads node ∧ Layout page pageSize cells
  flags : pageFlags page = nodeFlags type node
  right : pageRight page = node.right
  encoded : Encoded type node

/-! ### Flags -/

section

variable {type : Nat} {node : TreeNode}

theorem pageIsIndexUuid_nodeFlags (h : IsTreeType type) (node : TreeNode) :
    pageIsIndexUuid (nodeFlags type node) = decide (type = PAGE_FLAG_INDEX_UUID) := by
  rcases h with rfl | rfl <;> cases node <;> simp only [nodeFlags] <;> decide

theorem pageIsLeaf_leaf (h : IsTreeType type) (rows : List TreeRow) (right : PageId) :
    pageIsLeaf (nodeFlags type (.leaf rows right)) = true := by
  rcases h with rfl | rfl <;> simp only [nodeFlags] <;> decide

theorem pageIsLeaf_inner (h : IsTreeType type) (seps : List TreeSep) (right : PageId) :
    pageIsLeaf (nodeFlags type (.inner seps right)) = false := by
  rcases h with rfl | rfl <;> simp only [nodeFlags] <;> decide

theorem pageIsInner_eq (flags : Nat) : pageIsInner flags = !pageIsLeaf flags := by
  simp only [pageIsInner, pageIsLeaf, bne, Bool.not_not]

theorem pageIsInner_leaf (h : IsTreeType type) (rows : List TreeRow) (right : PageId) :
    pageIsInner (nodeFlags type (.leaf rows right)) = false := by
  rw [pageIsInner_eq, pageIsLeaf_leaf h, Bool.not_true]

theorem pageIsInner_inner (h : IsTreeType type) (seps : List TreeSep) (right : PageId) :
    pageIsInner (nodeFlags type (.inner seps right)) = true := by
  rw [pageIsInner_eq, pageIsLeaf_inner h, Bool.not_false]

end

/-! ### Keys and payloads -/

section

variable {type : Nat} {key value : Bytes} {m : Mem}

theorem KeyEncoded.varintGetLen_le (h : KeyEncoded type key) :
    varintGetLen (Mem.ofBytes key) ≤ key.length := by
  unfold KeyEncoded at h
  split at h
  · have hle := Wednesday.varintGetLen_le (Mem.ofBytes key)
    rw [h, sizeofUuid]
    omega
  · exact h.le

/-- A key is read from wherever its bytes stand. -/
theorem KeyEncoded.varintGet_of_holds (h : KeyEncoded type key) (hm : m.Holds 0 key) :
    varintGetLen m = varintGetLen (Mem.ofBytes key) ∧ (varintGet m).1 = keyId key := by
  refine varintGet_congr fun i hi => ?_
  have hlt : i < key.length := hi.trans_le h.varintGetLen_le
  have hbyte := hm i hlt
  have hself := Mem.holds_ofBytes key i hlt
  rw [Nat.zero_add] at hbyte hself
  rw [hbyte, hself]

theorem payloadGetKeyLen_of_holds {flags : Nat}
    (hflags : pageIsIndexUuid flags = decide (type = PAGE_FLAG_INDEX_UUID))
    (h : KeyEncoded type key) (hm : m.Holds 0 key) : payloadGetKeyLen flags m = key.length := by
  obtain ⟨hlen, -⟩ := h.varintGet_of_holds hm
  unfold KeyEncoded at h
  unfold payloadGetKeyLen
  rw [hflags]
  split at h
  · rename_i htype
    rw [decide_eq_true htype, if_pos rfl, h]
  · rename_i htype
    rw [decide_eq_false htype, if_neg Bool.false_ne_true, hlen, h]

theorem payloadGetValueLen_of_holds {flags : Nat}
    (hflags : pageIsIndexUuid flags = decide (type = PAGE_FLAG_INDEX_UUID))
    (h : ValueEncoded type value) (hlen : value.length < 65536) (hm : m.Holds 0 value) :
    payloadGetValueLen flags m = value.length := by
  unfold ValueEncoded at h
  unfold payloadGetValueLen
  rw [hflags]
  split at h
  · rename_i htype
    rw [decide_eq_true htype, if_pos rfl, h]
  · rename_i htype
    rw [decide_eq_false htype, if_neg Bool.false_ne_true, blobGetLen_of_holds h (by omega) hm,
      u16_of_bounds] <;> omega

theorem measured_row (ht : IsTreeType type) (hkey : KeyEncoded type key)
    (hvalue : ValueEncoded type value) (hlen : (key ++ value).length < 65536) :
    Measured (pageFlagsPackage true type) (key ++ value) := by
  intro m hm
  have hflags := pageIsIndexUuid_nodeFlags ht (.leaf [] 0)
  have hinner := pageIsInner_leaf ht [] 0
  simp only [nodeFlags] at hflags hinner
  obtain ⟨hk, hv⟩ := Mem.holds_append.mp hm
  rw [Nat.zero_add] at hv
  rw [List.length_append] at hlen
  simp only [payloadGetLen, hinner, Bool.false_eq_true, if_false,
    payloadGetKeyLen_of_holds hflags hkey hk,
    payloadGetValueLen_of_holds hflags hvalue (by omega) hv.drop, List.length_append]
  rw [u16_of_bounds] <;> omega

theorem measured_sep (ht : IsTreeType type) (hkey : KeyEncoded type key) {child : PageId}
    (hlen : (Mem.leList sizeofPageId child ++ key).length < 65536) :
    Measured type (Mem.leList sizeofPageId child ++ key) := by
  intro m hm
  have hflags := pageIsIndexUuid_nodeFlags ht (.inner [] 0)
  have hinner := pageIsInner_inner ht [] 0
  simp only [nodeFlags] at hflags hinner
  obtain ⟨-, hk⟩ := Mem.holds_append.mp hm
  rw [Nat.zero_add, Mem.length_leList] at hk
  rw [List.length_append, Mem.length_leList] at hlen
  simp only [payloadGetLen, hinner, if_true, payloadGetKeyLen_of_holds hflags hkey hk.drop,
    List.length_append, Mem.length_leList]
  rw [u16_of_bounds] <;> omega

end

/-! ### Reading a page -/

namespace PageHolds

variable {type pageSize : Nat} {page : Mem} {node : TreeNode}

theorem length_payloads (node : TreeNode) : (payloads node).length = node.keys.length := by
  cases node <;> simp [payloads, Node.keys]

theorem count (h : PageHolds type pageSize page node) : cellCount page = node.keys.length := by
  obtain ⟨cells, hcells, hlayout⟩ := h.layout
  rw [hlayout.count, ← length_payloads, ← hcells, List.length_map]

theorem payload (h : PageHolds type pageSize page node) {i : Nat}
    (hi : i < (payloads node).length) :
    (pageGetPayload page i).Holds 0 (payloads node)[i] := by
  obtain ⟨cells, hcells, hlayout⟩ := h.layout
  have hlen : i < cells.length := by
    rwa [← hcells, List.length_map] at hi
  have hholds := hlayout.payload hlen
  rw [List.getElem_of_eq hcells.symm hi, List.getElem_map]
  exact hholds

/-- The key of a cell stands where the search reads it. -/
theorem key (h : PageHolds type pageSize page node) {i : Nat} (hi : i < node.keys.length) :
    (payloadGetKeyPtr (pageFlags page) (pageGetPayload page i)).Holds 0 node.keys[i] := by
  have hholds := h.payload ((length_payloads node).symm ▸ hi)
  rw [payloadGetKeyPtr, h.flags]
  cases node with
  | leaf rows right =>
      rw [pageIsInner_leaf h.isType, if_neg Bool.false_ne_true]
      simp only [payloads, List.getElem_map] at hholds
      simp only [Node.keys, List.getElem_map]
      exact (Mem.holds_append.mp hholds).1
  | inner seps right =>
      rw [pageIsInner_inner h.isType, if_pos rfl]
      simp only [payloads, List.getElem_map] at hholds
      simp only [Node.keys, List.getElem_map]
      have hkey := (Mem.holds_append.mp hholds).2
      rw [Nat.zero_add, Mem.length_leList] at hkey
      exact hkey.drop

theorem keyEncoded (h : PageHolds type pageSize page node) {k : Bytes} (hk : k ∈ node.keys) :
    KeyEncoded type k := by
  have henc := h.encoded
  cases node with
  | leaf rows right =>
      obtain ⟨row, hrow, rfl⟩ := List.mem_map.mp hk
      exact (henc row hrow).1
  | inner seps right =>
      obtain ⟨sep, hsep, rfl⟩ := List.mem_map.mp hk
      exact (henc sep hsep).1

theorem cellId (h : PageHolds type pageSize page node) {i : Nat} (hi : i < node.keys.length) :
    Wednesday.cellId page i = keyId node.keys[i] :=
  ((h.keyEncoded (List.getElem_mem hi)).varintGet_of_holds (h.key hi)).2

/-- The key a split reads from its cell. -/
theorem payloadGetKey (h : PageHolds type pageSize page node) {i : Nat}
    (hi : i < node.keys.length) :
    (payloadGetKey (pageFlags page) (pageGetPayload page i)).bytes = node.keys[i] := by
  have hkey := h.key hi
  have hlen := payloadGetKeyLen_of_holds (h.flags ▸ pageIsIndexUuid_nodeFlags h.isType node)
    (h.keyEncoded (List.getElem_mem hi)) hkey
  simp only [Wednesday.payloadGetKey, Blob.bytes, hlen]
  exact Mem.holds_iff_read.mp hkey

/-- The child in front of the separators `post`. -/
theorem childAt {pre post : List TreeSep} {right : PageId}
    (h : PageHolds type pageSize page (.inner (pre ++ post) right)) :
    Wednesday.childAt page pre.length = childOf post right := by
  have hcount := h.count
  simp only [Node.keys, List.length_map, List.length_append] at hcount
  unfold Wednesday.childAt
  cases post with
  | nil => rw [if_pos (by simpa using hcount.symm), h.right, Node.right, childOf]
  | cons sep post =>
      rw [List.length_cons] at hcount
      rw [if_neg (by omega), childOf]
      have hi : pre.length < (payloads (.inner (pre ++ sep :: post) right)).length := by
        rw [length_payloads]
        simp [Node.keys]
      have hholds := h.payload hi
      simp only [payloads, List.getElem_map, List.getElem_append_right le_rfl, Nat.sub_self,
        List.getElem_cons_zero] at hholds
      have hchild : sep.child < 2 ^ 32 := (h.encoded sep (by simp)).2
      rw [payloadGetPageId, (Mem.holds_append.mp hholds).1.getLE]
      exact Nat.mod_eq_of_lt hchild

/-- The search passes the keys that compare below and stops at the first other one. -/
theorem search (h : PageHolds type pageSize page node) (key : Blob) :
    ∃ as bs, node.keys = as ++ bs ∧ (pageFindPointer page key).2 = as.length ∧
      (∀ a ∈ as, idCompare (keyId a) (varintGet key.data).1 < 0) ∧
      (∀ b ∈ bs.head?, 0 ≤ idCompare (keyId b) (varintGet key.data).1) ∧
      ((pageFindPointer page key).1 = true ↔
        ∃ b ∈ bs.head?, idCompare (keyId b) (varintGet key.data).1 = 0) := by
  set x := (varintGet key.data).1 with hx
  have hcount := h.count
  refine ⟨node.keys.takeWhile fun a => idCompare (keyId a) x < 0,
    node.keys.dropWhile fun a => idCompare (keyId a) x < 0,
      (List.takeWhile_append_dropWhile).symm, ?_⟩
  set as := node.keys.takeWhile fun a => idCompare (keyId a) x < 0 with has
  set bs := node.keys.dropWhile fun a => idCompare (keyId a) x < 0 with hbs
  have hsplit : node.keys = as ++ bs := (List.takeWhile_append_dropWhile).symm
  have hbelow : ∀ a ∈ as, idCompare (keyId a) x < 0 := fun a ha => by
    simpa using List.mem_takeWhile_imp ha
  have hcells : ∀ i < as.length, idCompare (Wednesday.cellId page i) x < 0 := fun i hi => by
    have hi' : i < node.keys.length := by
      rw [hsplit, List.length_append]
      omega
    rw [h.cellId hi', List.getElem_of_eq hsplit hi', List.getElem_append_left hi]
    exact hbelow _ (List.getElem_mem hi)
  cases hb : bs with
  | nil =>
      have hend := pageFindPointer_end hx.symm (by
        rw [hcount, hsplit, hb, List.append_nil]
        exact hcells)
      rw [hend]
      refine ⟨?_, hbelow, by simp, by simp⟩
      rw [hcount, hsplit, hb, List.append_nil]
  | cons b rest =>
      have hlt : as.length < node.keys.length := by
        rw [hsplit, hb, List.length_append, List.length_cons]
        omega
      have hcell : Wednesday.cellId page as.length = keyId b := by
        rw [h.cellId hlt, List.getElem_of_eq hsplit hlt, List.getElem_append_right le_rfl]
        simp [hb]
      have hstop : 0 ≤ idCompare (keyId b) x := by
        have hnot := List.head?_dropWhile_not
            (fun a => decide (idCompare (keyId a) x < 0)) node.keys
        rw [← hbs, hb] at hnot
        simpa using hnot
      have hat := pageFindPointer_at hx.symm (hcount ▸ hlt) hcells (by rwa [hcell])
      rw [hat, hcell]
      refine ⟨rfl, hbelow, ?_, ?_⟩
      · rintro c hc
        obtain rfl := Option.some.inj hc
        exact hstop
      · simp

end PageHolds

/-! ### Inserting a cell -/

/-- A blob stands where it was copied to. -/
theorem Blob.holds_blit (blob : Blob) (m : Mem) (off : Nat) :
    (m.blit off blob.data blob.size).Holds off blob.bytes := by
  intro k hk
  rw [Blob.length_bytes] at hk
  rw [Mem.blit_inside (by omega) (by omega), Nat.add_sub_cancel_left]
  have hbyte := blob.holds_bytes k (by rwa [Blob.length_bytes])
  rwa [Nat.zero_add] at hbyte

namespace PageHolds

variable {page : Mem} {type pageSize : Nat} {node : TreeNode} {key value : Blob}

theorem cells (h : PageHolds type pageSize page node) :
    ∃ cells, cells.map Prod.snd = payloads node ∧ Layout page pageSize cells ∧
      Cells page pageSize cells := by
  obtain ⟨cells, hcells, hlayout⟩ := h.layout
  refine ⟨cells, hcells, hlayout, hlayout.cells (fun c hc => ?_) h.small⟩
  have hmem : c.2 ∈ payloads node := hcells ▸ List.mem_map_of_mem hc
  have hlen : c.2.length < 65536 := by
    have hle := length_le_payloadTotal hc
    have hsum := hlayout.packed.sum
    have hsmall := h.small
    omega
  have henc := h.encoded
  rw [h.flags]
  cases node with
  | leaf rows right =>
      obtain ⟨row, hrow, hbytes⟩ := List.mem_map.mp hmem
      rw [← hbytes] at hlen ⊢
      exact measured_row h.isType (henc row hrow).1 (henc row hrow).2 hlen
  | inner seps right =>
      obtain ⟨sep, hsep, hbytes⟩ := List.mem_map.mp hmem
      rw [← hbytes] at hlen ⊢
      exact measured_sep h.isType (henc sep hsep).1 hlen

/-- The cells in front of a position and those behind it. -/
theorem cells_append {as bs : List Bytes} (h : PageHolds type pageSize page node)
    (hsplit : payloads node = as ++ bs) :
    ∃ pre post : List Cell, pre.map Prod.snd = as ∧ post.map Prod.snd = bs ∧
      Layout page pageSize (pre ++ post) := by
  obtain ⟨cells, hcells, hlayout⟩ := h.layout
  refine ⟨cells.take as.length, cells.drop as.length, ?_, ?_, ?_⟩
  · rw [List.map_take, hcells, hsplit, List.take_left']
    rfl
  · rw [List.map_drop, hcells, hsplit, List.drop_left']
    rfl
  · rwa [List.take_append_drop]

/-- A row is inserted where the search has found its place. -/
theorem insertLeaf {rows rows' : List TreeRow} {right : PageId}
    (h : PageHolds type pageSize page (.leaf (rows ++ rows') right)) (stack : Mem)
    (hkey : KeyEncoded type key.bytes) (hvalue : ValueEncoded type value.bytes)
    (hsearch : pageFindPointer page key = (false, rows.length))
    (hfree : key.size + value.size + 2 ≤ freeSpace page)
    (hspace : key.size + value.size + 2 ≤ pageGetSpace page) :
    ∃ data, pageInsertLeaf stack pageSize page key value = .ok (some data) ∧
      PageHolds type pageSize data (.leaf (rows ++ ⟨key.bytes, value.bytes⟩ :: rows') right) ∧
      freeSpace data = freeSpace page - (key.size + value.size + 2) := by
  obtain ⟨pre, post, hpre, hpost, hlayout⟩ := h.cells_append
    (by rw [payloads, List.map_append] : payloads (.leaf (rows ++ rows') right) = _)
  have hlen : pre.length = rows.length := by
    have := congrArg List.length hpre
    simpa using this
  have hbytes : (key.bytes ++ value.bytes).length = key.size + value.size := by simp
  obtain ⟨page', hpayload, hopened⟩ := pageInsertPayload_opened stack hlayout hfree hspace
  have hstart : key.size + value.size ≤ dataStart page := by
    have := hlayout.space
    omega
  rw [hlen] at hpayload
  have hrun : pageInsertLeaf stack pageSize page key value = .ok (some
      ((page'.blit (dataStart page - (key.size + value.size)) key.data key.size).blit
        (dataStart page - (key.size + value.size) + key.size) value.data value.size)) := by
    simp only [pageInsertLeaf, hsearch, hpayload]
    rfl
  refine ⟨_, hrun, ?_⟩
  rw [← hbytes] at hopened hspace
  have hnew : ((page'.blit (dataStart page - (key.size + value.size)) key.data key.size).blit
      (dataStart page - (key.size + value.size) + key.size) value.data value.size).Holds
      (dataStart page - (key.bytes ++ value.bytes).length) (key.bytes ++ value.bytes) := by
    rw [hbytes]
    refine Mem.holds_append.mpr ⟨(key.holds_blit page' _).congr fun k _ hk => ?_, ?_⟩
    · rw [Blob.length_bytes] at hk
      exact Mem.blit_outside (by omega)
    · rw [Blob.length_bytes]
      exact value.holds_blit _ _
  obtain ⟨hlayout', hfree', hflags, hright⟩ := hopened.fill hlayout hspace hnew fun k hk => by
    rw [hbytes] at hk
    rw [Mem.blit_outside (by omega), Mem.blit_outside (by omega)]
  refine ⟨⟨h.isType, h.small, ⟨_, ?_, hlayout'⟩, ?_, ?_, ?_⟩, by rw [hfree', hbytes]⟩
  · simp only [List.map_append, List.map_cons, hpre, hpost, payloads]
  · exact hflags.trans h.flags
  · exact hright.trans h.right
  · intro row hrow
    simp only [List.mem_append, List.mem_cons] at hrow
    rcases hrow with hrow | rfl | hrow
    · exact h.encoded row (List.mem_append_left _ hrow)
    · exact ⟨hkey, hvalue⟩
    · exact h.encoded row (List.mem_append_right _ hrow)

/-- A child id and a key written into the gap are a separator. -/
theorem fill_sep {cells cells' : List Cell} {page' src : Mem} {child : PageId}
    (hlayout : Layout page pageSize (cells ++ cells'))
    (hopened : Opened page page' cells.length (key.size + sizeofPageId))
    (hspace : key.size + sizeofPageId + 2 ≤ pageGetSpace page)
    (hsrc : src.Holds 0 (Mem.leList sizeofPageId child)) {page'' : Mem}
    (hpage : page'' = (page'.blit (dataStart page - (key.size + sizeofPageId))
      src sizeofPageId).blit
      (dataStart page - (key.size + sizeofPageId) + sizeofPageId) key.data key.size) :
    Layout page'' pageSize (cells ++ (dataStart page - (key.size + sizeofPageId),
        Mem.leList sizeofPageId child ++ key.bytes) :: cells') ∧
      freeSpace page'' = freeSpace page - (key.size + sizeofPageId + 2) ∧
      pageFlags page'' = pageFlags page ∧ pageRight page'' = pageRight page := by
  have hroom := hlayout.space
  have hbytes : (Mem.leList sizeofPageId child ++ key.bytes).length = key.size + sizeofPageId := by
    simp [Nat.add_comm]
  have hchild : (page'.blit (dataStart page - (key.size + sizeofPageId)) src sizeofPageId).Holds
      (dataStart page - (key.size + sizeofPageId)) (Mem.leList sizeofPageId child) := by
    have hblit : (page'.blit (dataStart page - (key.size + sizeofPageId)) (src.drop 0)
        (Mem.leList sizeofPageId child).length).Holds (dataStart page - (key.size + sizeofPageId))
        (Mem.leList sizeofPageId child) := Mem.Holds.blit hsrc
    rwa [Mem.drop_zero, Mem.length_leList] at hblit
  rw [← hbytes] at hopened hspace
  have hnew : page''.Holds (dataStart page - (Mem.leList sizeofPageId child ++ key.bytes).length)
      (Mem.leList sizeofPageId child ++ key.bytes) := by
    rw [hbytes, hpage]
    refine Mem.holds_append.mpr ⟨hchild.congr fun k _ hk => ?_, ?_⟩
    · rw [Mem.length_leList] at hk
      exact Mem.blit_outside (by omega)
    · rw [Mem.length_leList]
      exact key.holds_blit _ _
  have hfill := hopened.fill hlayout hspace hnew fun k hk => by
    rw [hbytes] at hk
    rw [hpage, Mem.blit_outside (by omega), Mem.blit_outside (by omega)]
  rwa [hbytes] at hfill

/-- A separator takes the child it is put in front of, and the new page comes
behind it. -/
theorem insertInner {pre post : List TreeSep} {right pageId : PageId}
    (h : PageHolds type pageSize page (.inner (pre ++ post) right)) (stack : Mem)
    (hkey : KeyEncoded type key.bytes) (hid : pageId < 2 ^ 32)
    (hfree : key.size + sizeofPageId + 2 ≤ freeSpace page)
    (hspace : key.size + sizeofPageId + 2 ≤ pageGetSpace page) :
    ∃ data, pageInsertInner stack pageSize page pre.length key pageId = .ok data ∧
      PageHolds type pageSize data (insertSep pre post right key.bytes pageId) ∧
      freeSpace data = freeSpace page - (key.size + sizeofPageId + 2) := by
  obtain ⟨cells, cells', hpre, hpost, hlayout⟩ := h.cells_append
    (by rw [payloads, List.map_append] : payloads (.inner (pre ++ post) right) = _)
  have hlen : cells.length = pre.length := by
    simpa using congrArg List.length hpre
  have hlen' : cells'.length = post.length := by
    simpa using congrArg List.length hpost
  have hcount := h.count
  simp only [Node.keys, List.length_map, List.length_append] at hcount
  obtain ⟨page', hpayload, hopened⟩ := pageInsertPayload_opened stack hlayout hfree hspace
  have hroom := hlayout.space
  have hright : pageRight page = right := h.right
  rw [hlen] at hpayload
  cases post with
  | nil =>
      obtain rfl : cells' = [] := List.length_eq_zero_iff.mp hlen'
      rw [List.length_nil, Nat.add_zero] at hcount
      obtain ⟨hlayout', hfree', hflags, -⟩ := fill_sep hlayout hopened hspace
        (Mem.holds_read (Mem.leBytes (pageRight page')) 0 sizeofPageId) rfl
      refine ⟨_, by
        rw [pageInsertInner, if_pos hcount.symm, hpayload]
        rfl, ⟨h.isType, h.small, ⟨_, ?_, hlayout'.congr (fun i hi _ => ?_) ?_ ?_
          (fun _ _ => ?_)⟩, ?_, ?_, ?_⟩, ?_⟩
      · simp only [List.map_append, List.map_cons, List.map_nil, hpre, payloads, insertSep,
          hopened.right, hright]
      · have := hlayout'.room
        exact setPageRight_body (by omega)
      · exact dataStart_setPageRight _ _
      · exact cellCount_setPageRight _ _
      · exact pageCell_setPageRight
      · exact (pageFlags_setPageRight _ _).trans (hflags.trans h.flags)
      · exact (pageRight_setPageRight _ _).trans (Nat.mod_eq_of_lt hid)
      · intro sep hsep
        rcases List.mem_append.mp hsep with hsep | hsep
        · exact h.encoded sep (List.mem_append_left _ hsep)
        · rw [List.mem_singleton.mp hsep]
          exact ⟨hkey, hright ▸ pageRight_lt page⟩
      · exact (freeSpace_setPageRight _ _).trans hfree'
  | cons sep post =>
      obtain ⟨⟨next, bytes⟩, cells', rfl⟩ := List.exists_cons_of_length_eq_add_one hlen'
      simp only [List.map_cons, List.cons.injEq] at hpost
      obtain ⟨rfl, hpost⟩ := hpost
      have hmem : (next, Mem.leList sizeofPageId sep.child ++ sep.key) ∈
          cells ++ (next, Mem.leList sizeofPageId sep.child ++ sep.key) :: cells' := by simp
      have hinside := hlayout.packed.inside _ hmem
      have hcell : pageCell page pre.length = next := by
        rw [hlayout.slot _ (by simp [hlen])]
        simp [← hlen]
      have hmove : (page'.drop next).Holds 0 (Mem.leList sizeofPageId sep.child) := by
        refine ((Mem.holds_append.mp (hlayout.packed.holds _ hmem)).1.congr fun k hk _ => ?_).drop
        have := hlayout.count
        exact hopened.body k (by dsimp only at hk hinside; omega)
      obtain ⟨hlayout', hfree', hflags, hright'⟩ := fill_sep hlayout hopened hspace hmove rfl
      rw [List.append_cons] at hlayout'
      set page'' := (page'.blit (dataStart page - (key.size + sizeofPageId)) (page'.drop next)
        sizeofPageId).blit (dataStart page - (key.size + sizeofPageId) + sizeofPageId) key.data
        key.size
      have hrun : pageInsertInner stack pageSize page pre.length key pageId =
          .ok (page''.putLE next sizeofPageId pageId) := by
        rw [pageInsertInner, if_neg (by simp at hcount; omega), hpayload, hcell]
        rfl
      have hover : Layout (page''.putLE next sizeofPageId pageId) pageSize _ :=
        hlayout'.overwrite (by simp) (Mem.holds_putLE page'' next sizeofPageId pageId) fun k hk =>
          Mem.putLE_outside (by simpa using hk)
      have hhead {off n : Nat} (hle : off + n ≤ sizeofHeader) :
          (page''.putLE next sizeofPageId pageId).getLE off n = page''.getLE off n :=
        Mem.getLE_putLE_outside (by dsimp only at hinside; omega)
      refine ⟨_, hrun, ⟨h.isType, h.small, ⟨_, ?_, hover⟩, ?_, ?_, ?_⟩, ?_⟩
      · simp only [List.map_append, List.map_cons, hpre, hpost, payloads, insertSep,
          List.append_assoc, List.cons_append, List.nil_append]
      · exact (hhead (by decide)).trans (hflags.trans h.flags)
      · exact (hhead (by decide)).trans (hright'.trans h.right)
      · intro sep' hsep
        change sep' ∈ pre ++ _ :: _ :: post at hsep
        simp only [List.mem_append, List.mem_cons] at hsep
        have hold := h.encoded sep (by simp)
        rcases hsep with hsep | rfl | rfl | hsep
        · exact h.encoded sep' (List.mem_append_left _ hsep)
        · exact ⟨hkey, hold.2⟩
        · exact ⟨hold.1, hid⟩
        · exact h.encoded sep' (List.mem_append_right _ (List.mem_cons_of_mem _ hsep))
      · exact (hhead (by decide)).trans hfree'

end PageHolds

/-! ### Sizes -/

/-- The bytes of the cells of a node, without their slots. -/
def payloadBytes (node : TreeNode) : Nat := ((payloads node).map List.length).sum

section

variable {type pageSize : Nat} {page : Mem} {node : TreeNode} {key value : Bytes}

theorem KeyEncoded.length_pos (h : KeyEncoded type key) : 0 < key.length :=
  Nat.lt_of_lt_of_le (varintGetLen_pos _) h.varintGetLen_le

theorem ValueEncoded.length_pos (h : ValueEncoded type value) : 0 < value.length := by
  unfold ValueEncoded at h
  split at h
  · rw [h]
    decide
  · obtain ⟨n, payload, rfl, hget⟩ := h
    have hpos := varintGetLen_pos (Mem.ofBytes (n ++ payload))
    rw [← varintGet_snd, hget] at hpos
    rw [List.length_append]
    exact Nat.lt_of_lt_of_le hpos (Nat.le_add_right _ _)

namespace PageHolds

theorem sum (h : PageHolds type pageSize page node) :
    dataStart page + payloadBytes node = pageSize := by
  obtain ⟨cells, hcells, hlayout⟩ := h.layout
  rw [← hlayout.packed.sum, payloadBytes, ← hcells, List.map_map]
  rfl

theorem space (h : PageHolds type pageSize page node) :
    pageGetSpace page + sizeofHeader + 2 * node.keys.length + payloadBytes node = pageSize := by
  obtain ⟨cells, hcells, hlayout⟩ := h.layout
  have hspace := hlayout.space
  have hsum := h.sum
  rw [← hlayout.count, h.count] at hspace
  omega

/-- Every cell is larger than its key. -/
theorem key_lt_payload (h : PageHolds type pageSize page node) {i : Nat} (hi : i < node.keys.length)
    (hi' : i < (payloads node).length) : node.keys[i].length < ((payloads node)[i]).length := by
  have henc := h.encoded
  cases node with
  | leaf rows right =>
      simp only [payloads, List.length_map] at hi'
      have hvalue := (henc _ (List.getElem_mem hi')).2.length_pos
      simp only [Node.keys, payloads, List.getElem_map, List.length_append]
      omega
  | inner seps right =>
      simp only [Node.keys, payloads, List.getElem_map, List.length_append, Mem.length_leList,
        sizeofPageId]
      omega

theorem length_le_sum (l : List Bytes) {i j : Nat} (hij : i < j) (hj : j < l.length) :
    (l.get ⟨i, hij.trans hj⟩).length + l[j].length ≤ (l.map List.length).sum := by
  have hi : i < l.length := hij.trans hj
  have htake : l[i] ∈ l.take j := List.mem_take_iff_getElem.mpr ⟨i, by omega, rfl⟩
  have hdrop : l[j] ∈ l.drop j := List.mem_drop_iff_getElem.mpr ⟨0, by omega, by simp⟩
  calc
    (l.get ⟨i, hij.trans hj⟩).length + l[j].length
        ≤ ((l.take j).map List.length).sum + ((l.drop j).map List.length).sum :=
      Nat.add_le_add (List.le_sum_of_mem (List.mem_map_of_mem htake))
        (List.le_sum_of_mem (List.mem_map_of_mem hdrop))
    _ = (l.map List.length).sum := by
      rw [← List.sum_append, ← List.map_append, List.take_append_drop]

/-- A page with two cells has room for a root with one of their keys. -/
theorem room_for_root (h : PageHolds type pageSize page node) {i : Nat}
    (hi : i + 1 < node.keys.length) :
    sizeofHeader + 2 + (sizeofPageId + (node.keys.get ⟨i, Nat.lt_of_succ_lt hi⟩).length) ≤
      pageSize := by
  have hlen := length_payloads node
  have hspace := h.space
  have hkey := h.key_lt_payload (Nat.lt_of_succ_lt hi) (by omega)
  have hnext := h.key_lt_payload hi (by omega)
  have hpos := (h.keyEncoded (List.getElem_mem hi)).length_pos
  have hsum := length_le_sum (payloads node) (Nat.lt_add_one i) (by omega)
  rw [payloadBytes] at hspace
  simp only [sizeofHeader, sizeofPageId, List.get_eq_getElem] at hspace hsum ⊢
  omega

end PageHolds

end

/-! ### Splitting -/

theorem payloads_takeTo (node : TreeNode) (m : Nat) (next : PageId) :
    payloads (node.takeTo m next) = (payloads node).take m := by
  cases node <;> simp only [Node.takeTo, payloads, List.map_take]

theorem payloads_dropTo (node : TreeNode) (m : Nat) :
    payloads (node.dropTo m) = (payloads node).drop m := by
  cases node <;> simp only [Node.dropTo, payloads, List.map_drop]

section

variable {type : Nat} {node : TreeNode}

theorem Encoded.takeTo (h : Encoded type node) (m : Nat) (next : PageId) :
    Encoded type (node.takeTo m next) := by
  cases node with
  | leaf rows right => exact fun row hrow => h row (List.mem_of_mem_take hrow)
  | inner seps right => exact fun sep hsep => h sep (List.mem_of_mem_take hsep)

theorem Encoded.dropTo (h : Encoded type node) (m : Nat) : Encoded type (node.dropTo m) := by
  cases node with
  | leaf rows right => exact fun row hrow => h row (List.mem_of_mem_drop hrow)
  | inner seps right => exact fun sep hsep => h sep (List.mem_of_mem_drop hsep)

theorem nodeFlags_takeTo (m : Nat) (next : PageId) :
    nodeFlags type (node.takeTo m next) = nodeFlags type node := by
  cases node <;> rfl

theorem nodeFlags_dropTo (m : Nat) : nodeFlags type (node.dropTo m) = nodeFlags type node := by
  cases node <;> rfl

end

/-- Where a page is cut. -/
def cutAt (node : TreeNode) : Nat := node.keys.length / 2

namespace PageHolds

variable {page next : Mem} {type pageSize : Nat} {node : TreeNode} {nextId : PageId}

/-- The lower half of a page stands for the first part of its node. -/
theorem splitLeft (h : PageHolds type pageSize page node) (stack : Mem) (hid : nextId < 2 ^ 32) :
    PageHolds type pageSize (splitLeft stack pageSize page nextId)
      (node.takeTo (cutAt node) nextId) := by
  obtain ⟨cells, hcells, -, hc⟩ := h.cells
  have hlen : cells.length = node.keys.length := by
    rw [← length_payloads, ← hcells, List.length_map]
  obtain ⟨left, right, hsplit, hpages⟩ :=
    pageSplit_layout stack page nextId hc
  obtain ⟨done, hdone, hlayout⟩ := hpages.leftCells
  rw [Wednesday.splitLeft, hsplit]
  refine ⟨h.isType, h.small, ⟨done, ?_, hlayout⟩, ?_, ?_, h.encoded.takeTo _ _⟩
  · rw [hdone, List.map_take, hcells, payloads_takeTo, cutAt, hlen]
  · rw [hpages.leftFlags, h.flags, nodeFlags_takeTo]
  · rw [hpages.leftRight, Node.right_takeTo, Nat.mod_eq_of_lt hid]

/-- The upper half of a page stands for the second part of its node. -/
theorem splitRight (h : PageHolds type pageSize page node) (stack : Mem) :
    PageHolds type pageSize (splitRight stack pageSize page next nextId)
      (node.dropTo (cutAt node)) := by
  obtain ⟨cells, hcells, -, hc⟩ := h.cells
  have hlen : cells.length = node.keys.length := by
    rw [← length_payloads, ← hcells, List.length_map]
  obtain ⟨left, right, hsplit, hpages⟩ :=
    pageSplit_layout stack next nextId hc
  obtain ⟨done, hdone, hlayout⟩ := hpages.rightCells
  rw [Wednesday.splitRight, hsplit]
  refine ⟨h.isType, h.small, ⟨done, ?_, hlayout⟩, ?_, ?_, h.encoded.dropTo _⟩
  · rw [hdone, List.map_drop, hcells, payloads_dropTo, cutAt, hlen]
  · rw [hpages.rightFlags, h.flags, nodeFlags_dropTo]
  · rw [hpages.rightRight, h.right, Node.right_dropTo]

/-- The key of a split is the last key of the lower half. -/
theorem splitKey (h : PageHolds type pageSize page node) (stack : Mem) (hcut : cutAt node ≠ 0)
    (hid : nextId < 2 ^ 32) :
    ∃ (hlt : cutAt node - 1 < node.keys.length),
      (splitKey stack pageSize page nextId).bytes = node.keys[cutAt node - 1] := by
  have hlt : cutAt node - 1 < node.keys.length := by
    unfold cutAt at hcut ⊢
    omega
  refine ⟨hlt, ?_⟩
  have hleft := h.splitLeft stack hid
  have hlt' : cutAt node - 1 < (node.takeTo (cutAt node) nextId).keys.length := by
    rw [Node.keys_takeTo, List.length_take]
    omega
  have hkey := hleft.payloadGetKey hlt'
  rw [Wednesday.splitKey, h.count]
  exact hkey.trans (by simp only [Node.keys_takeTo, List.getElem_take])

theorem freeSpace_splitLeft (h : PageHolds type pageSize page node) (stack : Mem)
    (hid : nextId < 2 ^ 32) :
    freeSpace (Wednesday.splitLeft stack pageSize page nextId) =
      u16 (payloadBytes (node.takeTo (cutAt node) nextId) - sizeofHeader - 2 * cutAt node) := by
  have hleft := h.splitLeft stack hid
  have hsum := hleft.sum
  have hcount := hleft.count
  have hle : cutAt node ≤ node.keys.length := Nat.div_le_self _ _
  rw [Node.keys_takeTo, List.length_take, Nat.min_eq_left hle] at hcount
  have hfree : freeSpace (Wednesday.splitLeft stack pageSize page nextId) =
      u16 (pageSize - dataStart (Wednesday.splitLeft stack pageSize page nextId) - sizeofHeader -
        2 * cellCount (Wednesday.splitLeft stack pageSize page nextId)) :=
    freeSpace_pageCompact stack _ h.small
  rw [hfree, hcount]
  congr 1
  omega

theorem freeSpace_splitRight (h : PageHolds type pageSize page node) (stack : Mem) :
    freeSpace (Wednesday.splitRight stack pageSize page next nextId) =
      pageGetSpace (Wednesday.splitRight stack pageSize page next nextId) := by
  rw [pageGetSpace]
  exact freeSpace_pageSplit stack page next nextId h.small

end PageHolds

/-! ### New pages -/

section

variable {type pageSize : Nat}

theorem pageHolds_pageInitLeaf (page : Mem) (ht : IsTreeType type) (hsmall : pageSize < 65536)
    (hsize : sizeofHeader ≤ pageSize) :
    PageHolds type pageSize (pageInitLeaf pageSize page type) (.leaf [] 0) := by
  have hmod : pageSize % 65536 = pageSize := Nat.mod_eq_of_lt hsmall
  have hflags : pageFlagsPackage true type % 65536 = pageFlagsPackage true type := by
    rcases ht with rfl | rfl <;> decide
  refine ⟨ht, hsmall, ⟨[], rfl, ⟨?_, ?_, ?_, ?_⟩⟩, ?_, ?_, ?_⟩
  · simpa [pageInitLeaf, hmod] using Packed.nil _ pageSize
  · simp [pageInitLeaf]
  · simp
  · simpa [pageInitLeaf, hmod] using hsize
  · simpa [pageInitLeaf, nodeFlags] using hflags
  · simp [pageInitLeaf, Node.right]
  · simp [Encoded]

theorem freeSpace_pageInitLeaf (page : Mem) : freeSpace (pageInitLeaf pageSize page type) =
    u16 (pageSize - sizeofHeader) := by
  simp [pageInitLeaf]

theorem pageHolds_pageInitRoot (page : Mem) (node : TreeNode) (ht : IsTreeType type)
    (hsmall : pageSize < 65536) {splitKey : Blob} {rootId splitId : PageId}
    (hroom : sizeofHeader + 2 + (sizeofPageId + splitKey.size) ≤ pageSize)
    (hkey : KeyEncoded type splitKey.bytes) (hroot : rootId < 2 ^ 32) (hsplit : splitId < 2 ^ 32) :
    PageHolds type pageSize
      (pageInitRoot pageSize page (nodeFlags type node) rootId splitKey splitId)
      (.inner [⟨rootId, splitKey.bytes⟩] splitId) ∧
    freeSpace (pageInitRoot pageSize page (nodeFlags type node) rootId splitKey splitId) =
      pageSize - (sizeofHeader + 2 + (sizeofPageId + splitKey.size)) := by
  have hbytes : (Mem.leList sizeofPageId rootId ++ splitKey.bytes).length =
      sizeofPageId + splitKey.size := by simp
  set ptr := pageSize - (sizeofPageId + splitKey.size) with hptr
  have hlen : u16 splitKey.size = splitKey.size := by
    rw [u16_of_bounds] <;> omega
  have hstart : u16 (pageSize - (sizeofPageId + u16 splitKey.size)) = ptr := by
    rw [hlen, u16_of_bounds] <;> omega
  have hptrMod : ptr % 65536 = ptr := Nat.mod_eq_of_lt (by omega)
  have hfree : u16 ((ptr : Int) - sizeofHeader - 2) =
      pageSize - (sizeofHeader + 2 + (sizeofPageId + splitKey.size)) := by
    rw [u16_of_bounds] <;> omega
  have hfreeMod : (pageSize - (sizeofHeader + 2 + (sizeofPageId + splitKey.size))) % 65536 =
      pageSize - (sizeofHeader + 2 + (sizeofPageId + splitKey.size)) := Nat.mod_eq_of_lt (by omega)
  have hflags : (nodeFlags type node &&& (65535 - PAGE_FLAG_LEAF)) % 65536 = type := by
    rcases ht with rfl | rfl <;> cases node <;> simp only [nodeFlags] <;> decide
  -- the header and the slot, then the cell
  obtain ⟨q, hq, hcell, hcount, hdata, hfreeQ, hflagsQ, hrightQ⟩ : ∃ q,
      pageInitRoot pageSize page (nodeFlags type node) rootId splitKey splitId =
        (q.putLE ptr sizeofPageId rootId).blit (ptr + sizeofPageId) splitKey.data splitKey.size ∧
      pageCell q 0 = ptr ∧ cellCount q = 1 ∧ dataStart q = ptr ∧
      freeSpace q = pageSize - (sizeofHeader + 2 + (sizeofPageId + splitKey.size)) ∧
      pageFlags q = type ∧ pageRight q = splitId := by
    refine ⟨_, by
      simp only [pageInitRoot, dataStart_setPageRight, dataStart_setFreeSpace,
        dataStart_setDataStart, hstart, hptrMod, pageCell_setPageCell_self]
      rfl, ?_, ?_, ?_, ?_, ?_, ?_⟩
    · simp [pageCell_setPageCell_self, hptrMod]
    · simp
    · simp [hptrMod]
    · simp [hfree, hfreeMod]
    · simpa using hflags
    · simpa using Nat.mod_eq_of_lt hsplit
  have hhead {off n : Nat} (hle : off + n ≤ sizeofHeader + 2) :
      ((q.putLE ptr sizeofPageId rootId).blit (ptr + sizeofPageId) splitKey.data
        splitKey.size).getLE off n = q.getLE off n := by
    rw [Mem.getLE_blit_outside (by omega), Mem.getLE_putLE_outside (by omega)]
  have hholds : ((q.putLE ptr sizeofPageId rootId).blit (ptr + sizeofPageId) splitKey.data
      splitKey.size).Holds ptr (Mem.leList sizeofPageId rootId ++ splitKey.bytes) := by
    refine Mem.holds_append.mpr ⟨(Mem.holds_putLE q ptr sizeofPageId rootId).congr
      fun k _ hk => ?_, ?_⟩
    · rw [Mem.length_leList] at hk
      exact Mem.blit_outside (by omega)
    · rw [Mem.length_leList]
      exact splitKey.holds_blit _ _
  rw [hq]
  have hstart' : dataStart ((q.putLE ptr sizeofPageId rootId).blit
      (ptr + sizeofPageId) splitKey.data
      splitKey.size) = ptr := (hhead (by decide)).trans hdata
  refine ⟨⟨ht, hsmall, ⟨[(ptr, Mem.leList sizeofPageId rootId ++ splitKey.bytes)], rfl,
    ⟨⟨?_, ?_, ?_, ?_⟩, ?_, ?_, ?_⟩⟩, ?_, ?_, ?_⟩, ?_⟩
  · rw [hstart', payloadTotal_cons, payloadTotal_nil, hbytes]
    omega
  · rintro c hc
    rw [List.mem_singleton.mp hc]
    exact hholds
  · rintro c hc
    rw [List.mem_singleton.mp hc, hstart']
    dsimp only
    omega
  · exact List.pairwise_singleton _ _
  · exact (hhead (by decide)).trans hcount
  · intro i hi
    obtain rfl : i = 0 := by simpa using hi
    exact (hhead (by decide)).trans hcell
  · rw [hstart', List.length_singleton]
    omega
  · exact (hhead (by decide)).trans hflagsQ
  · exact (hhead (by decide)).trans hrightQ
  · rintro sep hsep
    rw [List.mem_singleton.mp hsep]
    exact ⟨hkey, hroot⟩
  · exact (hhead (by decide)).trans hfreeQ

end

end Wednesday
