import Wednesday.Blob
import Wednesday.Error
import Wednesday.Lib.Prog

/-!
The slotted pages of `btree.c`. A page is the memory its data pointer points
to: a `header_t`, the slot array behind it, and cells that grow downwards from
the end. Offsets are taken from the start of the page.
-/

namespace Wednesday

open Lib

abbrev PageId := Nat

/-- Conversion to `uint16_t`. -/
def u16 (x : Int) : Nat := (x % 65536).toNat

/-- `key_compare`: the 64-bit difference, converted to `int`. -/
def keyCompare (a b : Mem) : Int :=
  Int.bmod ((varintGet a).1 - (varintGet b).1) (2 ^ 32)

def PAGE_FLAG_LEAF : Nat := 1
def PAGE_FLAG_TABLE : Nat := 2
def PAGE_FLAG_INDEX_UUID : Nat := 4

def pageIsLeaf (flags : Nat) : Bool := flags &&& PAGE_FLAG_LEAF != 0
def pageIsInner (flags : Nat) : Bool := flags &&& PAGE_FLAG_LEAF == 0
def pageIsIndexUuid (flags : Nat) : Bool := flags &&& PAGE_FLAG_INDEX_UUID != 0

def pageFlagsPackage (leaf : Bool) (type : Nat) : Nat :=
  (if leaf then PAGE_FLAG_LEAF else 0) ||| type

/-! ### `header_t` -/

def sizeofHeader : Nat := 12
def sizeofPageId : Nat := 4
def sizeofUuid : Nat := 16

def cellCount (page : Mem) : Nat := page.getLE 0 2
def dataStart (page : Mem) : Nat := page.getLE 2 2
def freeSpace (page : Mem) : Nat := page.getLE 4 2
def pageFlags (page : Mem) : Nat := page.getLE 6 2
def pageRight (page : Mem) : PageId := page.getLE 8 4

def setCellCount (page : Mem) (v : Nat) : Mem := page.putLE 0 2 v
def setDataStart (page : Mem) (v : Nat) : Mem := page.putLE 2 2 v
def setFreeSpace (page : Mem) (v : Nat) : Mem := page.putLE 4 2 v
def setPageFlags (page : Mem) (v : Nat) : Mem := page.putLE 6 2 v
def setPageRight (page : Mem) (v : PageId) : Mem := page.putLE 8 4 v

/-- `page_get_cells (page)[index]`. -/
def pageCell (page : Mem) (index : Nat) : Nat := page.getLE (sizeofHeader + 2 * index) 2

def setPageCell (page : Mem) (index v : Nat) : Mem := page.putLE (sizeofHeader + 2 * index) 2 v

def pageGetSpace (page : Mem) : Nat :=
  u16 ((dataStart page : Int) - sizeofHeader - 2 * cellCount page)

/-- `page_get_payload`. -/
def pageGetPayload (page : Mem) (index : Nat) : Mem := page.drop (pageCell page index)

/-! ### Payloads -/

def payloadGetPageId (payload : Mem) : PageId := payload.getLE 0 sizeofPageId

def payloadGetKeyLen (flags : Nat) (key : Mem) : Nat :=
  if pageIsIndexUuid flags then sizeofUuid else varintGetLen key

def payloadGetKeyPtr (flags : Nat) (payload : Mem) : Mem :=
  if pageIsInner flags then payload.drop sizeofPageId else payload

def payloadGetKey (flags : Nat) (payload : Mem) : Blob :=
  let data := payloadGetKeyPtr flags payload
  ⟨payloadGetKeyLen flags data, data⟩

/-- `payload_get_value_ptr`, as an offset from the payload. -/
def payloadGetValuePtr (flags : Nat) (payload : Mem) : Nat :=
  if pageIsIndexUuid flags then sizeofUuid else varintGetLen payload

def payloadGetValueLen (flags : Nat) (value : Mem) : Nat :=
  if pageIsIndexUuid flags then sizeofPageId else u16 (blobGetLen value)

def payloadGetLen (flags : Nat) (payload : Mem) : Nat :=
  if pageIsInner flags then
    u16 (payloadGetKeyLen flags (payload.drop sizeofPageId) + sizeofPageId)
  else
    let keyLen := payloadGetKeyLen flags payload
    u16 (keyLen + payloadGetValueLen flags (payload.drop keyLen))

def payloadPutLen (flags : Nat) (key value : Blob) : Nat :=
  if pageIsInner flags then u16 (u16 key.size + sizeofPageId)
  else u16 (u16 key.size + u16 value.size)

/-! ### Search -/

def pageFindLoop (page : Mem) (key : Blob) : Nat → Nat → Bool × Nat
  | 0, _ => (false, cellCount page)
  | n + 1, i =>
      let payload := pageGetPayload page i
      let ret := keyCompare (payloadGetKeyPtr (pageFlags page) payload) key.data
      if ret = 0 then (true, i)
      else if 0 < ret then (false, i)
      else pageFindLoop page key n (i + 1)

def pageFindPointer (page : Mem) (key : Blob) : Bool × Nat :=
  pageFindLoop page key (cellCount page) 0

/-! ### Compaction, insertion and split -/

section

variable (stack : Mem) (pageSize : Nat)

/-- One iteration of the loop of `page_compact`, over the buffer, the page and
the local `data_start`. -/
def pageCompactStep (i : Nat) : Mem × Mem × Nat → Mem × Mem × Nat
  | (buffer, page, start) =>
      let payload := pageGetPayload page i
      let size := payloadGetLen (pageFlags page) payload
      let start := u16 (start - size)
      (buffer.blit start payload size, setPageCell page i start, start)

/-- `page_compact`; the buffer starts out with whatever is on the stack. -/
def pageCompact (page : Mem) : Mem :=
  let (buffer, page, start) :=
    forRange 0 (cellCount page) pageCompactStep (stack, page, pageSize)
  let page := page.blit start (buffer.drop start) (pageSize - start)
  let page := setDataStart page start
  setFreeSpace page (u16 (pageSize - start - sizeofHeader - 2 * cellCount page))

/-- `page_insert_payload`: the page and the offset of the new payload. -/
def pageInsertPayload (page : Mem) (index payloadSize : Nat) : Except Fault (Mem × Nat) :=
  let totalSize := payloadSize + 2
  if freeSpace page < totalSize then .error .payloadSpace
  else
    let page := if pageGetSpace page < totalSize then pageCompact stack pageSize page else page
    let count := cellCount page
    let page :=
      if index ≠ count then
        page.blit (sizeofHeader + 2 * (index + 1)) (page.drop (sizeofHeader + 2 * index))
          (2 * (count - index))
      else page
    let payloadStart := u16 (dataStart page - payloadSize)
    let page := setPageCell page index payloadStart
    let page := setDataStart page payloadStart
    let page := setFreeSpace page (u16 (freeSpace page - totalSize))
    let page := setCellCount page (count + 1)
    .ok (page, payloadStart)

/-- `page_insert_leaf`; `none` is the report of `EEXIST`. -/
def pageInsertLeaf (page : Mem) (key value : Blob) : Except Fault (Option Mem) :=
  match pageFindPointer page key with
  | (true, _) => .ok none
  | (false, index) => do
      let (page, ptr) ← pageInsertPayload stack pageSize page index (key.size + value.size)
      let page := page.blit ptr key.data key.size
      let page := page.blit (ptr + key.size) value.data value.size
      .ok (some page)

/-- `page_insert_inner`. -/
def pageInsertInner (page : Mem) (index : Nat) (key : Blob) (pageId : PageId) :
    Except Fault Mem :=
  if index = cellCount page then do
    let (page, ptr) ← pageInsertPayload stack pageSize page index (key.size + sizeofPageId)
    let page := page.putLE ptr sizeofPageId (pageRight page)
    let page := page.blit (ptr + sizeofPageId) key.data key.size
    .ok (setPageRight page pageId)
  else do
    let next := pageCell page index
    let (page, ptr) ← pageInsertPayload stack pageSize page index (key.size + sizeofPageId)
    let page := page.blit ptr (page.drop next) sizeofPageId
    let page := page.blit (ptr + sizeofPageId) key.data key.size
    .ok (page.putLE next sizeofPageId pageId)

/-- One iteration of the loop of `page_split`, over the sibling and the local
`next_data_start`. -/
def pageSplitStep (page : Mem) (split i : Nat) : Mem × Nat → Mem × Nat
  | (next, start) =>
      let payload := pageGetPayload page i
      let size := payloadGetLen (pageFlags page) payload
      let start := u16 (start - size)
      (setPageCell (next.blit start payload size) (i - split) start, start)

/-- `page_split`: both pages and the index of the split. -/
def pageSplit (page next : Mem) (nextId : PageId) : Mem × Mem × Nat :=
  let split := cellCount page / 2
  let (next, start) :=
    forRange split (cellCount page - split) (pageSplitStep page split) (next, pageSize)
  let next := setPageFlags next (pageFlags page)
  let next := setCellCount next (cellCount page - split)
  let next := setDataStart next start
  let next := setFreeSpace next (u16 (start - sizeofHeader - 2 * cellCount next))
  let next := setPageRight next (pageRight page)
  let page := setCellCount page split
  let page := setPageRight page nextId
  (pageCompact stack pageSize page, next, split)

end

/-- The header `btree_create` writes. -/
def pageInitLeaf (pageSize : Nat) (page : Mem) (type : Nat) : Mem :=
  let page := setCellCount page 0
  let page := setDataStart page pageSize
  let page := setFreeSpace page (u16 (pageSize - sizeofHeader))
  let page := setPageFlags page (pageFlagsPackage true type)
  setPageRight page 0

/-- The new root of `btree_insert`: one cell for the old root, `right` for its
sibling. -/
def pageInitRoot (pageSize : Nat) (page : Mem) (flags : Nat) (rootId : PageId) (splitKey : Blob)
    (splitId : PageId) : Mem :=
  let page := setPageFlags page (flags &&& (65535 - PAGE_FLAG_LEAF))
  let page := setCellCount page 1
  let page := setDataStart page (u16 (pageSize - (sizeofPageId + u16 splitKey.size)))
  let page := setFreeSpace page (u16 (dataStart page - sizeofHeader - 2))
  let page := setPageRight page splitId
  let page := setPageCell page 0 (dataStart page)
  let newCell := pageCell page 0
  let page := page.putLE newCell sizeofPageId rootId
  page.blit (newCell + sizeofPageId) splitKey.data splitKey.size

end Wednesday
