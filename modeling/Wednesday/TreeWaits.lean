import Mathlib.Data.Finset.Max
import Wednesday.TreeInterleaved

/-!
Clients that wait for the latch of a page. A client waits only for a page another
client holds, and only for one further down than those it holds, so some client goes
on. Waits for the latch of a hash entry are not among them.
-/

namespace Wednesday

open Lib Prog Pager FenceTree

/-- The page a client is about to fix. -/
def InsertPoint.awaits : InsertPoint → Option PageId
  | .fixRoot id => some id
  | .fixChild _ _ _ next => some next
  | _ => none

def LookupPoint.awaits : LookupPoint → Option PageId
  | .fixRoot id => some id
  | .fixChild _ next => some next
  | _ => none

def TreePoint.awaits : TreePoint → Option PageId
  | .idle => none
  | .insert p => p.awaits
  | .lookup p => p.awaits

/-- A step hangs only for the latch of the page it awaits. -/
def HangsFor (awaits : Option PageId) (s : Sys) (r : Fault) : Prop :=
  r = .hang → ∃ id f, awaits = some id ∧ s.pager.locate id = some f ∧ (s.pager.header f).latch ≠ 0

theorem hangsFor_of_ne {awaits : Option PageId} {s : Sys} {r : Fault} (h : r ≠ .hang) :
    HangsFor awaits s r :=
  fun hr => absurd hr h

section

variable {α : Type} {type : Nat} {key value : Blob} {nodes : PageId → TreeNode} {s : Sys}
  {Q : α → Sys → Prop}
  {E : Sys → Prop} {awaits : Option PageId} {held : List PageRef} {page : PageRef}

/-! ### What does not hang -/

theorem pageInsertPayload_full {stack data : Mem} {pageSize index size : Nat} {r : Fault}
    (h : pageInsertPayload stack pageSize data index size = .error r) : r = .payloadSpace := by
  unfold pageInsertPayload at h
  dsimp only at h
  split at h
  · cases h
    rfl
  · cases h

theorem pageInsertLeaf_full {stack data : Mem} {pageSize : Nat} {r : Fault}
    (h : pageInsertLeaf stack pageSize data key value = .error r) : r = .payloadSpace := by
  unfold pageInsertLeaf at h
  split at h
  · cases h
  · rename_i index _
    cases hrun : pageInsertPayload stack pageSize data index (key.size + value.size) with
    | error x =>
        rw [hrun] at h
        cases h
        exact pageInsertPayload_full hrun
    | ok x =>
        rw [hrun] at h
        cases h

theorem pageInsertInner_full {stack data : Mem} {pageSize index : Nat} {id : PageId} {r : Fault}
    (h : pageInsertInner stack pageSize data index key id = .error r) : r = .payloadSpace := by
  cases hrun : pageInsertPayload stack pageSize data index (key.size + sizeofPageId) with
  | error x =>
      have hr : (.error x : Except Fault Mem) = .error r := by
        rw [← h, pageInsertInner, hrun]
        split <;> rfl
      cases hr
      exact pageInsertPayload_full hrun
  | ok x =>
      simp only [pageInsertInner, hrun] at h
      split at h <;> cases h

theorem nextPage_hangs {site : Site} {text : String} {Q : PageRef → Sys → Prop}
    (hnodes : PagesHold type nodes s)
    (h : Holding held s) (hQ : ∀ page t, Fixes held s.pager.takeId s page t → Q page t)
    (hE : ∀ t, E t) :
    wp (tryCall site text treeNext) Q E (HangsFor awaits s) s := by
  refine wp_nextPage h (fun page t _ hfix => hQ page t hfix) (fun _ _ _ _ _ => hE _)
    fun f hf _ => ?_
  have hnone := (pageAt_eq_none_iff hnodes.nextPage_ne_zero).mp hnodes.nextPage_none
  cases hnone.symm.trans hf

theorem insertLeaf_hangs {Q : Unit → Sys → Prop} (hQ : ∀ t, Q () t) (hE : ∀ t, E t) :
    wp (insertLeaf page key value) Q E (HangsFor awaits s) s := by
  simp only [insertLeaf, wp_bind, wp_get, wp_readPage, wp_ofExcept]
  cases hdata : pageInsertLeaf s.stack s.tree.pageSize (s.page page) key value with
  | error r =>
      obtain rfl := pageInsertLeaf_full hdata
      exact hangsFor_of_ne (by decide)
  | ok result =>
      cases result with
      | none => exact wp_failure (by decide) fun _ _ => hE _
      | some data => exact hQ _

theorem visitStep_hangs {root : PageRef} :
    wp (insertStep key value (.visit root page [])) (fun _ _ => True) (fun _ => True)
      (HangsFor none s) s := by
  simp only [insertStep, wp_bind, wp_readPage]
  split
  · simp only [wp_recover, wp_bind]
    exact insertLeaf_hangs (fun _ => trivial) fun _ => trivial
  · simp only [wp_bind, wp_assert]
    split
    · split
      · rw [wp_recover]
        exact wp_failure (by decide) fun _ _ => trivial
      · simp only [wp_bind, wp_assert]
        split
        · trivial
        · exact hangsFor_of_ne (by decide)
    · exact hangsFor_of_ne (by decide)

theorem insertStep_hangs {p : InsertPoint} (hnodes : PagesHold type nodes s) (h : Holding p.held s)
    (hclear : errorGetCode s.err = 0) :
    wp (insertStep key value p) (fun _ _ => True) (fun _ => True) (HangsFor p.awaits s) s := by
  cases p with
  | readRoot => trivial
  | fixRoot id =>
      simp only [insertStep, wp_recover, wp_bind]
      exact wp_fixPage h (fun _ _ _ _ => trivial) (fun _ _ _ _ _ _ => trivial) fun f hf hlatch _ =>
        ⟨id, f, rfl, hf, hlatch⟩
  | splitRoot root =>
      simp only [insertStep, wp_recover, wp_bind]
      refine nextPage_hangs hnodes h (fun split t _ => ?_) fun _ => trivial
      rw [wp_bind]
      exact wp_splitPage (fun _ => hangsFor_of_ne (by decide)) fun _ => trivial
  | newRoot root split splitKey =>
      simp only [insertStep, wp_recover, wp_bind]
      exact nextPage_hangs hnodes h (fun _ _ _ => trivial) fun _ => trivial
  | setRoot root split new splitKey =>
      simp only [insertStep, wp_bind]
      split
      · trivial
      · trivial
  | visit root page leave =>
      cases leave with
      | cons q leave =>
          simp only [insertStep, wp_bind]
          exact h.wp_pagerUnfix (by simp [InsertPoint.held]) trivial
      | nil => exact visitStep_hangs
  | fixChild root parent index next =>
      simp only [insertStep, wp_recover, wp_bind]
      exact wp_fixPage h (fun _ _ _ _ => trivial) (fun _ _ _ _ _ _ => trivial) fun f hf hlatch _ =>
        ⟨next, f, rfl, hf, hlatch⟩
  | splitChild root parent page index =>
      simp only [insertStep, wp_recover, wp_bind]
      refine nextPage_hangs hnodes h (fun split t _ => ?_) fun _ => trivial
      rw [wp_bind]
      refine wp_splitPage (fun _ => hangsFor_of_ne (by decide)) fun _ => ?_
      rw [wp_bind]
      refine wp_insertInner (fun r hfull => ?_) fun data _ => ?_
      · obtain rfl := pageInsertInner_full hfull
        exact hangsFor_of_ne (by decide)
      · split
        · trivial
        · trivial
  | exit root leave ok =>
      cases leave with
      | cons q leave =>
          simp only [insertStep, wp_bind]
          exact h.wp_pagerUnfix (by simp [InsertPoint.held]) trivial
      | nil =>
          simp only [insertStep, deferGuard, wp_bind, wp_get, hclear, if_true, wp_pure]
          split
          · trivial
          · trivial

theorem lookupStep_hangs {p : LookupPoint} (h : Holding p.held s) :
    wp (lookupStep key p) (fun _ _ => True) (fun _ => True) (HangsFor p.awaits s) s := by
  cases p with
  | readRoot => trivial
  | fixRoot id =>
      simp only [lookupStep, wp_recover, wp_bind]
      exact wp_fixPage h (fun _ _ _ _ => trivial) (fun _ _ _ _ _ _ => trivial) fun f hf hlatch _ =>
        ⟨id, f, rfl, hf, hlatch⟩
  | visit page leave =>
      cases leave with
      | cons q leave =>
          simp only [lookupStep, wp_bind]
          exact h.wp_pagerUnfix (by simp [LookupPoint.held]) trivial
      | nil =>
          simp only [lookupStep, wp_bind, wp_readPage]
          split
          · simp only [wp_bind, wp_assert]
            split
            · trivial
            · exact hangsFor_of_ne (by decide)
          · split
            · trivial
            · rw [wp_recover]
              exact wp_failure (by decide) fun _ _ => trivial
  | fixChild page next =>
      simp only [lookupStep, wp_recover, wp_bind]
      exact wp_fixPage h (fun _ _ _ _ => trivial) (fun _ _ _ _ _ _ => trivial) fun f hf hlatch _ =>
        ⟨next, f, rfl, hf, hlatch⟩
  | exit page ptr =>
      cases ptr with
      | some ptr =>
          simp only [lookupStep, wp_bind]
          exact h.wp_pagerUnfix (List.mem_singleton_self page) trivial
      | none =>
          simp only [lookupStep, wp_bind]
          exact h.wp_pagerUnfix (List.mem_singleton_self page) trivial
  | decode ptr => trivial

end

/-! ### Some client goes on -/

section

variable {κ : Type} {nodes : PageId → TreeNode} {S : TreeThreads κ} {c : κ} {id : PageId}

/-- A client that hangs waits for a page that is latched. -/
theorem Interleaved.hangs (h : Interleaved nodes S) (hcall : (S.client c).point ≠ .idle)
    (hhang : (S.client c).step (S.seen c) = .fault .hang) :
    ∃ id f, (S.client c).point.awaits = some id ∧ S.shared.pager.locate id = some f ∧
      (S.shared.pager.header f).latch ≠ 0 := by
  have hheld := h.holding c
  have hknows := h.knows c
  cases hpoint : (S.client c).point with
  | idle => exact absurd hpoint hcall
  | insert p =>
      simp only [TreeClient.Knows, hpoint] at hheld hknows
      have hwp : wp (S.client c).step (fun _ _ => True) (fun _ => True)
          (HangsFor p.awaits (S.seen c)) (S.seen c) := by
        simp only [TreeClient.step, hpoint, wp_bind]
        exact insertStep_hangs h.pages.seen hheld.seen hknows.1
      exact hwp.fault hhang rfl
  | lookup p =>
      simp only [hpoint] at hheld
      have hwp : wp (S.client c).step (fun _ _ => True) (fun _ => True)
          (HangsFor p.awaits (S.seen c)) (S.seen c) := by
        simp only [TreeClient.step, hpoint, wp_bind]
        exact lookupStep_hangs hheld.seen
      exact hwp.fault hhang rfl

/-- A client waits for a child of each page it holds. -/
theorem Interleaved.awaits_child (h : Interleaved nodes S)
    (hawaits : (S.client c).point.awaits = some id) {q : PageRef}
    (hq : q ∈ (S.client c).point.held) : id ∈ (nodes q.id).links := by
  have hknows := h.knows c
  cases hpoint : (S.client c).point with
  | idle => simp [hpoint, TreePoint.held] at hq
  | insert p =>
      simp only [TreeClient.Knows, hpoint, TreePoint.awaits, TreePoint.held] at hknows hawaits hq
      cases p with
      | fixChild root parent index next =>
          obtain rfl := Option.some.inj hawaits
          obtain rfl := List.mem_singleton.mp hq
          obtain ⟨pre, post, right, hbelow⟩ := hknows.2 ⟨next, 0⟩ rfl
          rw [hbelow.enters.node, show next = childOf post right from hbelow.child]
          exact childOf_mem_links
      | fixRoot id => simp [InsertPoint.held] at hq
      | readRoot => cases hawaits
      | splitRoot root => cases hawaits
      | newRoot root split splitKey => cases hawaits
      | setRoot root split new splitKey => cases hawaits
      | visit root page leave => cases hawaits
      | splitChild root parent page index => cases hawaits
      | exit root leave ok => cases hawaits
  | lookup p =>
      simp only [TreeClient.Knows, hpoint, TreePoint.awaits, TreePoint.held] at hknows hawaits hq
      cases p with
      | fixChild page next =>
          obtain rfl := Option.some.inj hawaits
          obtain rfl := List.mem_singleton.mp hq
          obtain ⟨pre, post, right, henters, rfl⟩ := hknows
          rw [henters.node]
          exact childOf_mem_links
      | fixRoot id => simp [LookupPoint.held] at hq
      | readRoot => cases hawaits
      | visit page leave => cases hawaits
      | exit page ptr => cases hawaits
      | decode ptr => cases hawaits

theorem Interleaved.awaits_there (h : Interleaved nodes S)
    (hawaits : (S.client c).point.awaits = some id) :
    S.shared.pageAt id ≠ none := by
  have hheld := h.holding c
  have hchild (q : PageRef) (hq : q ∈ (S.client c).point.held) : S.shared.pageAt id ≠ none :=
    h.pages.links q.id (by simp [hheld.pageAt hq]) id (h.awaits_child hawaits hq)
  have hknows := h.knows c
  cases hpoint : (S.client c).point with
  | idle => simp [hpoint, TreePoint.awaits] at hawaits
  | insert p =>
      simp only [TreeClient.Knows, hpoint, TreePoint.awaits, TreePoint.held]
        at hknows hawaits hchild
      cases p with
      | fixRoot id =>
          obtain rfl := Option.some.inj hawaits
          exact hknows.2
      | fixChild root parent index next => exact hchild parent (List.mem_singleton_self parent)
      | readRoot => cases hawaits
      | splitRoot root => cases hawaits
      | newRoot root split splitKey => cases hawaits
      | setRoot root split new splitKey => cases hawaits
      | visit root page leave => cases hawaits
      | splitChild root parent page index => cases hawaits
      | exit root leave ok => cases hawaits
  | lookup p =>
      simp only [TreeClient.Knows, hpoint, TreePoint.awaits, TreePoint.held]
        at hknows hawaits hchild
      cases p with
      | fixRoot id =>
          obtain rfl := Option.some.inj hawaits
          exact hknows
      | fixChild page next => exact hchild page (List.mem_singleton_self page)
      | readRoot => cases hawaits
      | visit page leave => cases hawaits
      | exit page ptr => cases hawaits
      | decode ptr => cases hawaits

/-- Where a client is in a call, one in a call does not wait. -/
theorem Interleaved.some_goes_on (h : Interleaved nodes S) (hcall : (S.client c).point ≠ .idle) :
    ∃ d, (S.client d).point ≠ .idle ∧ (S.client d).step (S.seen d) ≠ .fault .hang := by
  by_contra hall
  have hwaits (d : κ) (hd : (S.client d).point ≠ .idle) : ∃ id f,
      (S.client d).point.awaits = some id ∧
      S.shared.pager.locate id = some f ∧ (S.shared.pager.header f).latch ≠ 0 := by
    by_contra hgoes
    exact hall ⟨d, hd, fun hhang => hgoes (h.hangs hd hhang)⟩
  obtain ⟨rank, hrank⟩ := h.pages.acyclic
  -- of the pages that are waited for, take the one furthest down
  let awaited (id : PageId) : Prop := ∃ d f, (S.client d).point.awaits = some id ∧
    S.shared.pager.locate id = some f ∧ (S.shared.pager.header f).latch ≠ 0
  classical
  have hrange (id : PageId) (hid : awaited id) : id ∈
      (Finset.range S.shared.pager.nextPage).filter awaited := by
    have hcopy := hid
    obtain ⟨d, f, hawaits, -⟩ := hcopy
    exact Finset.mem_filter.mpr ⟨Finset.mem_range.mpr (h.pages.fresh id (h.awaits_there hawaits)),
      hid⟩
  obtain ⟨id₀, f₀, hfirst⟩ := hwaits c hcall
  obtain ⟨id, hid, hmax⟩ := Finset.exists_max_image _ rank ⟨id₀, hrange id₀ ⟨c, f₀, hfirst⟩⟩
  obtain ⟨-, e, f, hawaits, hloc, hlatch⟩ := Finset.mem_filter.mp hid
  -- the client that holds it waits for a page below it
  obtain ⟨d, q, hq, rfl⟩ := h.latched id f (ne_zero_of_there (h.awaits_there hawaits)) hloc hlatch
  have hd : (S.client d).point ≠ .idle := by
    intro hidle
    rw [hidle] at hq
    cases hq
  obtain ⟨next, f', hnext⟩ := hwaits d hd
  have hbelow := hrank q.id (h.awaits_there hawaits) next (h.awaits_child hnext.1 hq)
  exact (hmax next (hrange next ⟨d, f', hnext⟩)).not_gt hbelow

variable [DecidableEq κ]

/-- In no state that clients of a tree reach do they all wait for the latches of pages
the others hold. -/
theorem page_latches_never_deadlock {s₀ : Sys} {S₀ : TreeThreads κ} {es : List (TreeThreadEvent κ)}
    (hcreated : TreeCreated PAGE_FLAG_TABLE s₀) (hsize : sizeofHeader ≤ s₀.tree.pageSize)
    (hs : s₀.Unrefused)
    (hstart : S₀.Starts s₀) (hrun : Run FittingStep S₀ es S) (hcall : (S.client c).point ≠ .idle) :
    ∃ d, (S.client d).point ≠ .idle ∧ (S.client d).step (S.seen d) ≠ .fault .hang := by
  obtain ⟨nodes, h⟩ := interleaved_of_run hcreated hsize hs hstart hrun
  exact h.some_goes_on hcall

end

/-- One client has fixed the root, and the other one waits for it. -/
theorem page_latches_never_deadlock_once : ∃ (S₀ S : TreeThreads Bool)
    (es : List (TreeThreadEvent Bool)), Run FittingStep S₀ es S ∧
    (S.client false).step (S.seen false) = .fault .hang ∧
      ∃ d, (S.client d).point ≠ .idle ∧ (S.client d).step (S.seen d) ≠ .fault .hang := by
  obtain ⟨s₀, es, S, hcreated, hs, hrun, hp⟩ := exists_played
    (callTurns true (.insert 1 (Blob.ofBytes (List.replicate 8 1))) 2 ++
      callTurns false (.lookup 1) 1)
    (fun S e => decide (StepFits S e))
    (fun s₀ _ S => decide (s₀.tree.pageSize = 40) && decide ((S.client true).point.held ≠ []) &&
      decide (((S.client false).step (S.seen false)).fault? = some .hang))
    ⟨40, 16, ⟨0, 1, 2⟩, freshSys 40 16, _, by decide, rfl⟩ (by decide) (by decide +kernel)
  simp only [Bool.and_eq_true, decide_eq_true_eq, Outcome.fault?_eq_some] at hp
  obtain ⟨⟨hsize, hheld⟩, hhang⟩ := hp
  have hfitting : Run FittingStep _ es S := hrun.mono fun _ _ _ h => ⟨of_decide_eq_true h.1, h.2⟩
  have hcall : (S.client true).point ≠ .idle := by
    intro hidle
    rw [hidle] at hheld
    exact hheld rfl
  exact ⟨_, S, es, hfitting, hhang, page_latches_never_deadlock hcreated (by rw [hsize]; decide) hs
    (TreeThreads.starts_ofTree s₀) hfitting hcall⟩

end Wednesday
