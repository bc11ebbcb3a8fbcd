import Wednesday.TreeInterleaved
import Wednesday.TreeSlots

/-!
The values lookups report. A lookup decodes its value after it has left the page, so
another client may write the page in between. An insert on a leaf leaves the value
where it is, a split of the leaf does not.
-/

namespace Wednesday

open Lib Prog Pager FenceTree

/-- The value stands on this leaf, where the pointer points to. -/
def ValueStands (s : Sys) (id : PageId) (ptr : DataPtr) (value : Bytes) : Prop :=
  ∃ data, s.pageAt id = some data ∧ s.pager.locate id = some ptr.frame ∧
    pageIsLeaf (pageFlags data) = true ∧
    dataStart data ≤ ptr.offset ∧ data.Holds ptr.offset value

/-- The lookup has found a row. -/
def LookupPoint.HasFound : LookupPoint → Prop
  | .exit _ (some _) => True
  | .decode _ => True
  | _ => False

/-- The lookup has found this value. -/
def LookupPoint.Finds (s : Sys) (value : Bytes) : LookupPoint → Prop
  | .exit page (some ptr) => ValueStands s page.id ptr value
  | .decode ptr => ∃ id, ValueStands s id ptr value
  | _ => True

/-- The page a step of an insert splits. -/
def InsertPoint.splits : InsertPoint → List PageRef
  | .splitRoot root => [root]
  | .splitChild _ _ page _ => [page]
  | _ => []

/-- The row is on no leaf, or one of these. -/
def RowsOf (R : TreeRow → Prop) : TreeNode → Prop
  | .leaf rows _ => ∀ row ∈ rows, R row
  | .inner _ _ => True

section

variable {type pageSize : Nat} {node : TreeNode} {nodes nodes' : PageId → TreeNode} {s t : Sys}
  {key value : Blob} {v : Bytes}
  {data page : Mem} {p : InsertPoint} {next : TreeNext InsertPoint} {R : TreeRow → Prop}
    {id : PageId} {ptr : DataPtr}

/-! ### Writing a leaf -/

/-- A row that is inserted on a leaf leaves the payloads where they are. -/
theorem PageHolds.insertLeaf_keeps {stack : Mem} (h : PageHolds type pageSize page node)
    (hspace : NotCompacted page (key.size + value.size))
    (hdata : pageInsertLeaf stack pageSize page key value = .ok (some data)) :
    dataStart data ≤ dataStart page ∧ pageFlags data = pageFlags page ∧ ∀ k, dataStart page ≤ k →
      data k = page k := by
  obtain ⟨as, bs, hkeys, hindex, -⟩ := h.search key
  have hsplit : payloads node = (payloads node).take as.length ++ (payloads node).drop as.length :=
    (List.take_append_drop as.length _).symm
  obtain ⟨cells, cells', hcells, -, hlayout⟩ := h.cells_append hsplit
  have hlen : cells.length = as.length := by
    have hpayloads := length_payloads node
    have hmap := congrArg List.length hcells
    rw [List.length_map, List.length_take, hpayloads, hkeys, List.length_append] at hmap
    omega
  rw [pageInsertLeaf] at hdata
  rcases hsearch : pageFindPointer page key with ⟨found, index⟩
  rw [hsearch] at hdata hindex
  obtain rfl : index = cells.length := hindex.trans hlen.symm
  cases found with
  | true => cases hdata
  | false =>
      cases hrun : pageInsertPayload stack pageSize page cells.length (key.size + value.size) with
      | error r =>
          simp only [hrun] at hdata
          cases hdata
      | ok r =>
          have hfree := pageInsertPayload_ok hrun
          have hroom := hspace hfree
          obtain ⟨page', hrun', hopened⟩ := pageInsertPayload_opened stack hlayout hfree hroom
          obtain rfl := Except.ok.inj (hrun.symm.trans hrun')
          simp only [hrun] at hdata
          obtain rfl := Option.some.inj (Except.ok.inj hdata)
          have hspace' := hlayout.space
          have hcount := hlayout.count
          -- both copies go below the payloads
          have hblits (k : Nat) (hk : k < dataStart page - (key.size + value.size) ∨
              dataStart page ≤ k) :
              (page'.blit (dataStart page - (key.size + value.size)) key.data key.size).blit
                (dataStart page - (key.size + value.size) + key.size) value.data value.size k =
                page' k := by
            rw [Mem.blit_outside (by omega), Mem.blit_outside (by omega)]
          have hheader {off n : Nat} (hle : off + n ≤ sizeofHeader) :
              ((page'.blit (dataStart page - (key.size + value.size)) key.data key.size).blit
                (dataStart page - (key.size + value.size) + key.size) value.data value.size).getLE
                  off n =
                page'.getLE off n :=
            Mem.getLE_congr fun i hi => hblits _ (Or.inl (by omega))
          refine ⟨?_, ?_, fun k hk => ?_⟩
          · rw [dataStart, hheader (by decide)]
            exact (hopened.start.le).trans (Nat.sub_le ..)
          · rw [pageFlags, hheader (by decide)]
            exact hopened.flags
          · rw [hblits k (Or.inr hk), hopened.body k (by omega)]

/-! ### Values that stand -/

theorem ValueStands.kept {held : List PageRef} (h : ValueStands s id ptr v)
    (hkeeps : KeepsPages held s t)
    (hne : ∀ q ∈ held, q.id ≠ id) : ValueStands t id ptr v := by
  obtain ⟨data, hpage, hlocate, hrest⟩ := h
  have hthere : s.pageAt id ≠ none := by simp [hpage]
  exact ⟨data, (hkeeps.pageAt id hthere hne).trans hpage,
    (hkeeps.locate id hthere).trans hlocate, hrest⟩

/-- A value stands where it is until its page is split. -/
theorem ValueStands.insertMoves (h : ValueStands s id ptr v)
    (hmove : InsertMoves type key value nodes s p next t nodes') (hnodes : PagesHold type nodes s)
    (hheld : Holding p.held s) (hknows : p.Knows type key nodes s) (hfits : p.Fits key value s)
    (hsplits : ∀ q ∈ p.splits, q.id ≠ id) : ValueStands t id ptr v := by
  have hkeeps := (hmove.writes hnodes hheld hknows hfits).1
  by_cases hwrites : ∀ q ∈ p.rewrites, q.id ≠ id
  · exact h.kept hkeeps hwrites
  push Not at hwrites
  obtain ⟨q, hq, rfl⟩ := hwrites
  obtain ⟨old, hpage, hlocate, hleaf, hstart, hholds⟩ := h
  have hlocate' := (hkeeps.locate q.id (by simp [hpage])).trans hlocate
  cases hmove with
  | splitRoot => exact absurd rfl (hsplits q hq)
  | search =>
      obtain rfl := List.mem_singleton.mp hq
      exact ⟨old, hpage, hlocate, hleaf, hstart, hholds⟩
  | @place root page data rows rows' right _ hdata hplaced =>
      obtain rfl := List.mem_singleton.mp hq
      obtain rfl := Option.some.inj ((hheld.pageAt (List.mem_singleton_self q)).symm.trans hpage)
      obtain ⟨hstart', hflags, hsame⟩ :=
        (hnodes.node q.id _ hpage).insertLeaf_keeps (hfits hleaf) hdata
      refine ⟨data, ?_, hlocate', hflags ▸ hleaf, hstart'.trans hstart, hholds.congr fun i hi _ =>
        hsame i (hstart.trans hi)⟩
      rw [hheld.pageAt_written (List.mem_singleton_self q), Function.update_self]
  | @splitChild root parent page split t pre post right data hid hfix hbelow hcut hdata =>
      rcases List.mem_pair.mp hq with rfl | rfl
      · exact absurd rfl (hsplits q (List.mem_singleton_self q))
      · -- the page above the split one is no leaf
        have hnode := hnodes.node q.id _ hpage
        have hflags := hnode.flags
        rw [hbelow.enters.node] at hflags
        rw [hflags, pageIsLeaf_inner hnode.isType] at hleaf
        cases hleaf
  | _ => cases hq

/-- Where a search has found a row, its value stands. -/
theorem PagesHold.value_stands {page : PageRef} (hnodes : PagesHold type nodes s)
    (hheld : Holding [page] s)
    (hleaf : pageIsLeaf (pageFlags (s.page page)) = true)
    (hfound : (pageFindPointer (s.page page) key).1 = true) :
    ∃ rows row rows' right, nodes page.id = .leaf (rows ++ row :: rows') right ∧
      pageFindPointer (s.page page) key = (true, rows.length) ∧
      idCompare (keyId row.key) (varintGet key.data).1 = 0 ∧
      ValueStands s page.id ⟨page.frame, pageCell (s.page page)
        (pageFindPointer (s.page page) key).2 +
        payloadGetValuePtr (pageFlags (s.page page))
          (pageGetPayload (s.page page) (pageFindPointer (s.page page) key).2)⟩ row.value := by
  have hmem : page ∈ [page] := List.mem_singleton_self page
  have hholds := hnodes.onPage hheld hmem
  obtain ⟨rows, rows', right, hnode, hindex, -, -, hiff⟩ := hholds.leaf_search hleaf key
  obtain ⟨row, hrow, heq⟩ := hiff.mp hfound
  obtain ⟨rest, rfl⟩ := List.head?_eq_some_iff.mp hrow
  rw [hnode] at hholds
  obtain ⟨cells, hcells, hlayout⟩ := hholds.layout
  have hlt : rows.length < cells.length := by
    have hlen := congrArg List.length hcells
    simp only [List.length_map, payloads, List.length_append, List.length_cons] at hlen
    omega
  have hinside := (hlayout.packed.inside _ (List.getElem_mem hlt)).1
  rw [← hlayout.slot _ hlt] at hinside
  refine ⟨rows, row, rest, right, hnode, Prod.ext hfound hindex, heq,
    s.page page, hheld.pageAt hmem, (hheld.there page hmem).2, hleaf, ?_, ?_⟩
  · rw [hindex]
    exact hinside.trans (Nat.le_add_right ..)
  · have hvalue := hholds.value_found.1
    rwa [Mem.holds_drop_iff, Nat.add_zero, ← hindex] at hvalue

/-! ### Rows on the leaves -/

theorem RowsOf.mono {R' : TreeRow → Prop} (h : RowsOf R node) (hsub : ∀ row, R row → R' row) :
    RowsOf R' node := by
  cases node with
  | leaf rows right => exact fun row hrow => hsub row (h row hrow)
  | inner seps right => trivial

theorem rowsOf_update {node : TreeNode} (h : ∀ id, RowsOf R (nodes id)) (hnode : RowsOf R node)
    (i : PageId) :
    RowsOf R (Function.update nodes id node i) := by
  by_cases hi : i = id
  · rwa [hi, Function.update_self]
  · rw [Function.update_of_ne hi]
    exact h i

theorem rowsOf_splitNodes (h : ∀ id, RowsOf R (nodes id)) (c n i : PageId) :
    RowsOf R (splitNodes nodes c n i) := by
  have hnode := h c
  refine rowsOf_update (rowsOf_update h ?_) ?_ i
  · cases hc : nodes c with
    | leaf rows right =>
        rw [hc] at hnode
        exact fun row hrow => hnode row (List.mem_of_mem_take hrow)
    | inner seps right => trivial
  · cases hc : nodes c with
    | leaf rows right =>
        rw [hc] at hnode
        exact fun row hrow => hnode row (List.mem_of_mem_drop hrow)
    | inner seps right => trivial

/-- A step of an insert brings only its own row to the leaves. -/
theorem InsertMoves.rowsOf (hmove : InsertMoves type key value nodes s p next t nodes')
    (h : ∀ id, RowsOf R (nodes id)) (hrow : R ⟨key.bytes, value.bytes⟩) :
    ∀ id, RowsOf R (nodes' id) := by
  cases hmove with
  | splitRoot => exact rowsOf_splitNodes h _ _
  | newRoot => exact rowsOf_update h trivial
  | @place root page data rows rows' right hleaf hdata hplaced =>
      have hold := h page.id
      rw [hplaced.leaf] at hold
      refine rowsOf_update h fun row hmem => ?_
      rcases List.mem_append.mp hmem with hmem | hmem
      · exact hold row (List.mem_append_left _ hmem)
      · rcases List.mem_cons.mp hmem with rfl | hmem
        · exact hrow
        · exact hold row (List.mem_append_right _ hmem)
  | @splitChild root parent page split t pre post right =>
      refine rowsOf_update (rowsOf_splitNodes h _ _) ?_
      cases post <;> trivial
  | _ => exact h

/-- What a lookup has found it still has when it has left the page. -/
theorem LookupMoves.stillFinds {q q' : LookupPoint} (hmove : LookupMoves key s q (.goto q') t)
    (hfound : q.HasFound)
    (hfinds : q.Finds s v) : q'.HasFound ∧ q'.Finds t v := by
  cases hmove with
  | @exitFound page ptr =>
      have hkept : ValueStands (s.unfixed page) page.id ptr v :=
        ValueStands.kept hfinds (keepsPages_unfixed s page) (List.forall_mem_nil _)
      exact ⟨trivial, page.id, hkept⟩
  | _ => exact hfound.elim

theorem ValueStands.read (h : ValueStands s id ptr v) :
    ((s.pager.header ptr.frame).data.drop ptr.offset).Holds 0 v := by
  obtain ⟨data, hpage, hlocate, -, -, hholds⟩ := h
  have hid : id ≠ 0 := ne_zero_of_there (s := s) (by simp [hpage])
  rw [pageAt_eq_some hid hlocate] at hpage
  obtain rfl := Option.some.inj hpage
  exact hholds.drop

end

/-! ### What the clients have found -/

def TreePoint.splits : TreePoint → List PageRef
  | .insert p => p.splits
  | _ => []

/-- The value a lookup decodes next. -/
def TreePoint.decodes : TreePoint → Option DataPtr
  | .lookup (.decode ptr) => some ptr
  | _ => none

section

variable {κ : Type}

def TreeThreadEvent.client : TreeThreadEvent κ → κ
  | .begins c _ => c
  | .acts c => c
  | .returns c _ _ => c
  | .errorClear c => c
  | .scratch c _ => c

/-- No client splits a page of which another one has a value to decode. -/
def DecodesKept (S : TreeThreads κ) (e : TreeThreadEvent κ) : Prop :=
  ∀ d, ∀ ptr ∈ (S.client d).point.decodes, ∀ page ∈ (S.client e.client).point.splits,
    page.frame ≠ ptr.frame

instance [Fintype κ] (S : TreeThreads κ) (e : TreeThreadEvent κ) : Decidable (DecodesKept S e) :=
  inferInstanceAs (Decidable (∀ _, ∀ _ ∈ _, ∀ _ ∈ _, _ ≠ _))

/-- A fitting step that leaves the values to be decoded where they are. -/
def DecodingStep [DecidableEq κ] (S : TreeThreads κ) (e : TreeThreadEvent κ)
    (T : TreeThreads κ) : Prop :=
  DecodesKept S e ∧ FittingStep S e T

variable {nodes nodes' : PageId → TreeNode} {S T : TreeThreads κ} {e : TreeThreadEvent κ}
  {c d : κ} {v : Bytes}
  {q : LookupPoint}

variable [DecidableEq κ]

theorem ThreadMoves.client_ne (hmove : ThreadMoves nodes S e T nodes') (hd : d ≠ e.client) :
    T.client d = S.client d := by
  cases hmove <;> exact Function.update_of_ne hd ..

omit [DecidableEq κ] in
theorem TreePoint.splits_subset (p : TreePoint) : ∀ r ∈ p.splits, r ∈ p.held := by
  intro r hr
  cases p with
  | insert p =>
      cases p with
      | splitRoot root => exact hr
      | splitChild root parent page index =>
          exact List.mem_cons.mpr (Or.inl (List.mem_singleton.mp hr))
      | _ => cases hr
  | _ => cases hr

omit [DecidableEq κ] in
theorem ValueStands.seen {id : PageId} {ptr : DataPtr} (h : ValueStands S.shared id ptr v) :
    ValueStands (S.seen c) id ptr v := h

omit [DecidableEq κ] in
/-- A value a client has found is on no page that another one splits. -/
theorem Interleaved.value_unsplit (h : Interleaved nodes S) (hkept : DecodesKept S e)
    (hd : d ≠ e.client)
    (hpoint : (S.client d).point = .lookup q) (hfound : q.HasFound) (hfinds : q.Finds S.shared v) :
    ∃ id ptr, ValueStands S.shared id ptr v ∧ (∀ r ∈ (S.client e.client).point.splits, r.id ≠ id) ∧
      ∀ t, ValueStands t id ptr v → q.Finds t v := by
  cases q with
  | exit page ptr =>
      cases ptr with
      | none => exact hfound.elim
      | some ptr =>
          refine ⟨page.id, ptr, hfinds, fun r hr => ?_, fun t ht => ht⟩
          refine h.apart e.client d (Ne.symm hd) r
            ((S.client e.client).point.splits_subset r hr) page ?_
          simp [hpoint, TreePoint.held, LookupPoint.held]
  | decode ptr =>
      obtain ⟨id, hstands⟩ := hfinds
      refine ⟨id, ptr, hstands, fun r hr heq => ?_, fun t ht => ⟨id, ht⟩⟩
      obtain ⟨data, -, hlocate, -⟩ := hstands
      have hthere := ((h.holding e.client).there r ((S.client e.client).point.splits_subset r hr)).2
      rw [heq, hlocate] at hthere
      exact hkept d ptr (by rw [hpoint, TreePoint.decodes]; rfl) r hr (Option.some.inj hthere).symm
  | _ => exact hfound.elim

/-- What another client has found stays. -/
theorem ThreadMoves.finds (hmove : ThreadMoves nodes S e T nodes') (h : Interleaved nodes S)
    (hfits : StepFits S e)
    (hkept : DecodesKept S e) (hd : d ≠ e.client) (hpoint : (S.client d).point = .lookup q)
    (hfound : q.HasFound)
    (hfinds : q.Finds S.shared v) : q.Finds T.shared v := by
  obtain ⟨id, ptr, hstands, hsplits, hback⟩ := h.value_unsplit hkept hd hpoint hfound hfinds
  apply hback
  have hheld := h.holding e.client
  have hknows := h.knows e.client
  cases hmove with
  | begins hidle call => exact hstands
  | errorClear hidle => exact hstands
  | scratch hidle stack => exact hstands
  | @insertActs c p q t nodes' hpoint hmove =>
      simp only [TreeThreadEvent.client, TreeClient.Knows, hpoint] at hheld hknows hsplits
      exact hstands.seen.insertMoves hmove h.pages.seen hheld.seen hknows.2.seen
        (hfits _ hpoint).1 hsplits
  | @insertReturns c p reply t nodes' hpoint hmove =>
      simp only [TreeThreadEvent.client, TreeClient.Knows, hpoint] at hheld hknows hsplits
      exact hstands.seen.insertMoves hmove h.pages.seen hheld.seen hknows.2.seen
        (hfits _ hpoint).1 hsplits
  | lookupActs hpoint hmove =>
      simp only [TreeThreadEvent.client, TreeClient.Knows, hpoint] at hheld hknows
      exact hstands.seen.kept (hmove.same h.pages.seen hheld.seen hknows.seen).2
        (List.forall_mem_nil _)
  | lookupReturns hpoint hmove =>
      simp only [TreeThreadEvent.client, TreeClient.Knows, hpoint] at hheld hknows
      exact hstands.seen.kept (hmove.same h.pages.seen hheld.seen hknows.seen).2
        (List.forall_mem_nil _)

/-! ### Lookups find rows of inserts -/

/-- The row of an insert that has begun. -/
def BegunRow (es : List (TreeThreadEvent κ)) (row : TreeRow) : Prop :=
  ∃ c id value, .begins c (.insert id value) ∈ es ∧ RowFor id value.bytes row

/-- What a lookup has found is the value of one of these rows, with a key that compares
equal to that of the lookup. -/
def TreeClient.FindsOneOf (c : TreeClient) (R : TreeRow → Prop) (s : Sys) : Prop :=
  ∀ p, c.point = .lookup p → p.HasFound →
    ∃ row, R row ∧ idCompare (keyId row.key) (varintGet c.key.data).1 = 0 ∧ p.Finds s row.value

/-- A value is reported only after an insert of it under an id that compares equal has begun. -/
def OwnReplies (es : List (TreeThreadEvent κ)) : Prop :=
  ∀ pre post c id v, es = pre ++ .returns c (.lookup id) (.found v) :: post →
    ∃ d id' value, .begins d (.insert id' value) ∈ pre ∧ idCompare id' id = 0 ∧ value.bytes = v

/-- The rows on the leaves, and what the lookups have found, are of inserts that have begun. -/
structure OwnRows (es : List (TreeThreadEvent κ)) (nodes : PageId → TreeNode)
    (S : TreeThreads κ) : Prop where
  held : Interleaved nodes S
  rows : ∀ id, RowsOf (BegunRow es) (nodes id)
  begun : ∀ c, (S.client c).point ≠ .idle → .begins c (S.client c).call ∈ es
  finds : ∀ c, (S.client c).FindsOneOf (BegunRow es) S.shared
  replies : OwnReplies es

variable {es : List (TreeThreadEvent κ)} {row : TreeRow}

omit [DecidableEq κ] in
theorem BegunRow.snoc (h : BegunRow es row) (e : TreeThreadEvent κ) : BegunRow (es ++ [e]) row := by
  obtain ⟨c, id, value, hmem, hrow⟩ := h
  exact ⟨c, id, value, List.mem_append_left _ hmem, hrow⟩

omit [DecidableEq κ] in
theorem OwnReplies.snoc (h : OwnReplies es)
    (he : ∀ c id v, e = .returns c (.lookup id) (.found v) →
      ∃ d id' value, .begins d (.insert id' value) ∈ es ∧ idCompare id' id = 0 ∧ value.bytes = v) :
    OwnReplies (es ++ [e]) := by
  intro pre post c id v heq
  rcases List.eq_nil_or_concat post with rfl | ⟨post, last, rfl⟩
  · obtain ⟨rfl, hlast⟩ := List.append_inj' heq rfl
    exact he c id v (List.cons.inj hlast).1
  · rw [List.concat_eq_append, ← List.cons_append, ← List.append_assoc] at heq
    obtain ⟨rfl, -⟩ := List.append_inj' heq rfl
    exact h pre post c id v rfl

omit [DecidableEq κ] in
/-- The row of an insert is one that has begun. -/
theorem OwnRows.insertRow (h : OwnRows es nodes S) {p : InsertPoint}
    (hpoint : (S.client c).point = .insert p) :
    BegunRow es ⟨(S.client c).key.bytes, (S.client c).value.bytes⟩ := by
  have hserves := h.held.serves c
  simp only [TreeClient.Serves, hpoint] at hserves
  obtain ⟨id, value, hinserts⟩ := hserves
  have hbegun := h.begun c (by simp [hpoint])
  rw [hinserts.call] at hbegun
  exact ⟨c, id, value, hbegun, hinserts.rowFor⟩

/-- A step brings only the row of an insert to the leaves. -/
theorem ThreadMoves.rowsOf {R : TreeRow → Prop} (hmove : ThreadMoves nodes S e T nodes')
    (h : ∀ id, RowsOf R (nodes id))
    (hown : ∀ c p, (S.client c).point = .insert p →
      R ⟨(S.client c).key.bytes, (S.client c).value.bytes⟩) :
    ∀ id, RowsOf R (nodes' id) := by
  cases hmove with
  | insertActs hpoint hmove => exact hmove.rowsOf h (hown _ _ hpoint)
  | insertReturns hpoint hmove => exact hmove.rowsOf h (hown _ _ hpoint)
  | _ => exact h

/-- Every client in a call has begun it. -/
theorem ThreadMoves.begun (hmove : ThreadMoves nodes S e T nodes')
    (h : ∀ c, (S.client c).point ≠ .idle → .begins c (S.client c).call ∈ es) (d : κ)
    (hcall : (T.client d).point ≠ .idle) :
    .begins d (T.client d).call ∈ es ++ [e] := by
  by_cases hd : d = e.client
  · subst hd
    cases hmove with
    | begins hidle call =>
        refine List.mem_append_right _ (List.mem_singleton.mpr ?_)
        rw [TreeThreadEvent.client, TreeThreads.client_set_self]
        cases call <;> rfl
    | insertActs hpoint hmove =>
        rw [TreeThreadEvent.client, TreeThreads.client_after_self]
        exact List.mem_append_left _ (h _ (by simp [hpoint]))
    | lookupActs hpoint hmove =>
        rw [TreeThreadEvent.client, TreeThreads.client_after_self]
        exact List.mem_append_left _ (h _ (by simp [hpoint]))
    | insertReturns hpoint hmove =>
        rw [TreeThreadEvent.client, TreeThreads.client_after_self] at hcall
        exact absurd rfl hcall
    | lookupReturns hpoint hmove =>
        rw [TreeThreadEvent.client, TreeThreads.client_after_self] at hcall
        exact absurd rfl hcall
    | errorClear hidle =>
        rw [TreeThreadEvent.client, TreeThreads.client_set_self] at hcall
        exact absurd hidle hcall
    | scratch hidle stack =>
        rw [TreeThreadEvent.client, TreeThreads.client_set_self] at hcall
        exact absurd hidle hcall
  · rw [hmove.client_ne hd] at hcall ⊢
    exact List.mem_append_left _ (h d hcall)

omit [DecidableEq κ] in
/-- The client that makes a step finds a row on a leaf, or has found one. -/
theorem Interleaved.finds_next {R : TreeRow → Prop} {p : LookupPoint} {t : Sys}
    (h : Interleaved nodes S)
    (hrows : ∀ id, RowsOf R (nodes id)) (hfinds : (S.client c).FindsOneOf R S.shared)
    (hpoint : (S.client c).point = .lookup p)
    (hmove : LookupMoves (S.client c).key (S.seen c) p (.goto q) t)
    (hfound : q.HasFound) :
    ∃ row, R row ∧ idCompare (keyId row.key) (varintGet (S.client c).key.data).1 = 0 ∧
      q.Finds t row.value := by
  have hheld := h.holding c
  rw [hpoint] at hheld
  cases hmove with
  | @found page hleaf hsearch =>
      obtain ⟨rows, row, rows', right, hnode, -, heq, hstands⟩ :=
        h.pages.seen.value_stands hheld.seen hleaf hsearch
      have hrow := hrows page.id
      rw [hnode] at hrow
      exact ⟨row, hrow row (by simp), heq, hstands⟩
  | @exitFound page ptr =>
      obtain ⟨row, hrow, heq, hold⟩ := hfinds _ hpoint trivial
      have hmove : LookupMoves (S.client c).key (S.seen c) (.exit page (some ptr))
          (.goto (.decode ptr)) _ := .exitFound
      exact ⟨row, hrow, heq, (hmove.stillFinds trivial hold).2⟩
  | _ => exact hfound.elim

theorem ThreadMoves.findsOneOf {R : TreeRow → Prop} (hmove : ThreadMoves nodes S e T nodes')
    (h : Interleaved nodes S)
    (hfits : StepFits S e) (hkept : DecodesKept S e) (hrows : ∀ id, RowsOf R (nodes id))
    (hfinds : ∀ c, (S.client c).FindsOneOf R S.shared) (d : κ) :
    (T.client d).FindsOneOf R T.shared := by
  intro q hq hfound
  by_cases hd : d = e.client
  · subst hd
    cases hmove with
    | lookupActs hpoint hmove =>
        rw [TreeThreadEvent.client, TreeThreads.client_after_self] at hq ⊢
        cases hq
        exact h.finds_next hrows (hfinds _) hpoint hmove hfound
    | begins hidle call =>
        rw [TreeThreadEvent.client, TreeThreads.client_set_self] at hq
        cases call <;> cases hq
        exact hfound.elim
    | errorClear hidle =>
        rw [TreeThreadEvent.client, TreeThreads.client_set_self] at hq
        rw [hidle] at hq
        cases hq
    | scratch hidle stack =>
        rw [TreeThreadEvent.client, TreeThreads.client_set_self] at hq
        rw [hidle] at hq
        cases hq
    | _ =>
        rw [TreeThreadEvent.client, TreeThreads.client_after_self] at hq
        cases hq
  · rw [hmove.client_ne hd] at hq ⊢
    obtain ⟨row, hrow, heq, hold⟩ := hfinds d q hq hfound
    exact ⟨row, hrow, heq, hmove.finds h hfits hkept hd hq hfound hold⟩

/-- The value a lookup reports is that of the row it has found. -/
theorem ThreadMoves.reports {R : TreeRow → Prop} {id : Nat}
    (hmove : ThreadMoves nodes S (.returns c (.lookup id) (.found v)) T nodes')
    (h : Interleaved nodes S) (hfinds : (S.client c).FindsOneOf R S.shared) :
    ∃ row, R row ∧ idCompare (keyId row.key) id = 0 ∧ ∀ id' v', RowFor id' v' row → v' = v := by
  generalize he : TreeThreadEvent.returns c (.lookup id) (.found v) = e at hmove
  cases hmove with
  | @lookupReturns c' p reply t hpoint hmove =>
      obtain ⟨rfl, hcall, rfl⟩ := TreeThreadEvent.returns.inj he
      cases hmove with
      | @decode ptr =>
          obtain ⟨row, hrow, heq, i, hstands⟩ := hfinds _ hpoint trivial
          have hserves := h.serves c
          simp only [TreeClient.Serves, hpoint] at hserves
          obtain ⟨id', hlooks⟩ := hserves
          obtain rfl := TableCall.lookup.inj (hcall.trans hlooks.call)
          rw [hlooks.keyId] at heq
          exact ⟨row, hrow, heq, fun id' v' hfor => (hfor.value _ hstands.read).symm⟩
  | @insertReturns c' p reply t nodes' hpoint hmove =>
      obtain ⟨rfl, -, rfl⟩ := TreeThreadEvent.returns.inj he
      cases hmove
  | _ => cases he

theorem OwnRows.moved (h : OwnRows es nodes S) (hmove : ThreadMoves nodes S e T nodes')
    (hfits : StepFits S e)
    (hkept : DecodesKept S e) (hT : T.shared.Unrefused) : OwnRows (es ++ [e]) nodes' T := by
  have hmono : ∀ row, BegunRow es row → BegunRow (es ++ [e]) row := fun _ hrow => hrow.snoc e
  have hfinds := hmove.findsOneOf h.held hfits hkept h.rows h.finds
  refine ⟨hmove.interleaved h.held hfits hT, fun id => ?_, hmove.begun h.begun,
    fun d p hpoint hfound => ?_, h.replies.snoc fun c id v he => ?_⟩
  · exact (hmove.rowsOf h.rows (fun _ _ hpoint => h.insertRow hpoint) id).mono hmono
  · obtain ⟨row, hrow, hrest⟩ := hfinds d p hpoint hfound
    exact ⟨row, hmono row hrow, hrest⟩
  · subst he
    obtain ⟨row, ⟨d, id', value, hmem, hfor⟩, heq, hvalue⟩ := hmove.reports h.held (h.finds c)
    rw [hfor.key] at heq
    exact ⟨d, id', value, hmem, heq, hvalue id' _ hfor⟩

end

/-! ### Computed runs -/

section

variable {κ : Type}

/-- The id and the value of the last event, if that is a lookup's report of a value. -/
def lastFound (es : List (TreeThreadEvent κ)) : Option (Nat × Bytes) :=
  match es.getLast? with
  | some (.returns _ (.lookup id) (.found v)) => some (id, v)
  | _ => none

theorem lastFound_eq_some {es : List (TreeThreadEvent κ)} {id : Nat} {v : Bytes}
    (h : lastFound es = some (id, v)) :
    ∃ pre c, es = pre ++ [.returns c (.lookup id) (.found v)] := by
  unfold lastFound at h
  split at h
  · rename_i hlast
    cases h
    exact ⟨es.dropLast, _, (List.dropLast_append_getLast? _ hlast).symm⟩
  · cases h

end

/-- A lookup that decodes its value after the leaf was split reports that of another id. -/
theorem lookup_finds_row_of_other_id : ¬ ∀ (s₀ : Sys) (S₀ S : TreeThreads Bool)
    (es : List (TreeThreadEvent Bool)), TreeCreated PAGE_FLAG_TABLE s₀ →
    sizeofHeader ≤ s₀.tree.pageSize → s₀.Unrefused → S₀.Starts s₀ →
    Run FittingStep S₀ es S → OwnReplies es := by
  intro h
  obtain ⟨s₀, es, S, hcreated, hs, hrun, hp⟩ := exists_played
    (callTurns true (.insert 3 (Blob.ofBytes (List.replicate 8 3))) 5 ++
      callTurns true (.insert 2 (Blob.ofBytes (List.replicate 8 2))) 5 ++
      callTurns true (.insert 1 (Blob.ofBytes (List.replicate 8 1))) 5 ++
        callTurns false (.lookup 3) 4 ++
      callTurns true (.insert 4 (Blob.ofBytes (List.replicate 8 4))) 3 ++ [(false, none)])
    (fun S e => decide (StepFits S e))
    (fun s₀ es _ => decide (s₀.tree.pageSize = 52) &&
      decide (lastFound es = some (3, List.replicate 8 1)) &&
      es.all fun e => match e with
        | .begins _ (.insert id value) =>
            decide (value.bytes = List.replicate 8 1 → idCompare id 3 ≠ 0)
        | _ => true)
    ⟨52, 16, ⟨0, 1, 2⟩, freshSys 52 16, _, by decide, rfl⟩ (by decide) (by decide +kernel)
  simp only [Bool.and_eq_true, decide_eq_true_eq] at hp hrun
  obtain ⟨⟨hsize, hlast⟩, hothers⟩ := hp
  obtain ⟨pre, c, rfl⟩ := lastFound_eq_some hlast
  obtain ⟨d, id, value, hmem, heq, hvalue⟩ := h s₀ _ S _ hcreated (by rw [hsize]; decide) hs
    (TreeThreads.starts_ofTree s₀) hrun pre [] c 3 _ rfl
  have hother := List.all_eq_true.mp hothers _ (List.mem_append_left _ hmem)
  exact (of_decide_eq_true hother) hvalue heq

end Wednesday
