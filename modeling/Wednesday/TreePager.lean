import Wednesday.BtreeVisit
import Wednesday.PagerCache

/-!
The pager as a running tree operation sees it. The pages it has fixed stay in
their frames, latched, until it unfixes them, whatever it fixes in the
meantime and whichever pages go to make room.
-/

namespace Wednesday

open Lib Prog Pager

/-- The state after a pager call of the tree. -/
def Sys.afterCall (s : Sys) (p : Pager) (heap : Heap) : Sys :=
  { s with pager := p, heap := heap, pagerCalls := s.pagerCalls + 1 }

/-- The state after the data of a fixed page was written. -/
def Sys.written (s : Sys) (page : PageRef) (data : Mem) : Sys :=
  { s with pager := s.pager.writeData page.frame data }

/-- The state after a latched page was unfixed. -/
def Sys.unfixed (s : Sys) (page : PageRef) : Sys :=
  { s with pager := s.pager.setHeader page.frame (released (s.pager.header page.frame)) }

/-- The pager once `pager_next` has taken its id. -/
def Pager.takeId (p : Pager) : Pager := { p with nextPage := (p.nextPage + 1) % 2 ^ 32 }

section

variable {s : Sys} {id : PageId} {Q : PageRef → Sys → Prop} {E : Sys → Prop} {F : Fault → Prop}

theorem Pager.Ok.takeId {p : Pager} (h : Ok 0 p) : Ok 0 p.takeId :=
  ⟨h.sizePos, h.sizeLt, h.distinct, h.hashed, h.mapped, h.located, h.latched, h.named, h.reserved,
    h.capacity⟩

theorem wp_pagerRefuse {α : Type} {Q : α → Sys → Prop}
    (hrefuse : ∀ e, errorGetCode e ≠ 0 → E { s with err := e }) :
    wp (pagerRefuse : Call α) Q E F s := by
  rw [pagerRefuse, tryCall, wp_recover]
  refine wp_failure (by decide) fun e he => ?_
  rw [wp_bind, wp_get]
  have hcode : errorGetCode e ≠ 0 := by
    rw [he]
    decide
  exact wp_failure hcode fun e' he' => hrefuse e' (he'.trans_ne hcode)

/-- A fix that is not refused from outside. -/
theorem wp_pagerFix (h : Ok 0 s.pager)
    (hfix : ∀ f p heap, Fixed s.pager p id true f → Q ⟨id, f⟩ { s with pager := p, heap := heap })
    (hrefuse : ∀ p e heap, errorGetCode e ≠ 0 → Refused s.pager p id →
      id = 0 ∨ s.pager.locate id = none → E { s with pager := p, err := e, heap := heap })
    (hhang : ∀ f, s.pager.locate id = some f → (s.pager.header f).latch ≠ 0 → F .hang) :
    wp (pagerFix id true) Q E F s := by
  have hcause : (∃ t, pagerFix id true s = .failure t) → id = 0 ∨ s.pager.locate id = none := by
    rintro ⟨t, ht⟩
    by_contra hne
    obtain ⟨hid, hsome⟩ := not_or.mp hne
    obtain ⟨f, hf⟩ := Option.ne_none_iff_exists'.mp hsome
    rw [pagerFix_hit hid hf] at ht
    split at ht <;> cases ht
  rcases pagerFix_cases id true s h with
    ⟨f, p, heap, hrun, hfixed⟩ | ⟨p, e, heap, hrun, hcode, href⟩ | ⟨hrun, f, hf, hlatch⟩
  · simp only [wp, hrun]
    exact hfix f p heap hfixed
  · simp only [wp, hrun]
    exact hrefuse p e heap hcode href (hcause ⟨_, hrun⟩)
  · simp only [wp, hrun]
    exact hhang f hf hlatch

theorem wp_treeFix (h : Ok 0 s.pager)
    (hfix : ∀ f p heap, Fixed s.pager p id true f → Q ⟨id, f⟩ (s.afterCall p heap))
    (hrefuse : ∀ p e heap, errorGetCode e ≠ 0 → Refused s.pager p id →
      s.outage s.pagerCalls = true ∨ id = 0 ∨ s.pager.locate id = none →
      E { s.afterCall p heap with err := e })
    (hhang : ∀ f, s.pager.locate id = some f → (s.pager.header f).latch ≠ 0 → F .hang) :
    wp (treeFix id) Q E F s := by
  simp only [treeFix, wp_bind, wp_get, wp_modify, wp_ite]
  split
  · rename_i hout
    exact wp_pagerRefuse fun e he => hrefuse s.pager e s.heap he
      ⟨h, .refl _, by omega, rfl, fun j _ => Or.inl (.refl _ j)⟩ (Or.inl hout)
  · exact wp_pagerFix h hfix (fun p e heap he href hcause =>
      hrefuse p e heap he href (Or.inr hcause))
      hhang

theorem wp_treeNext (h : Ok 0 s.pager)
    (hfix : ∀ f p heap, Fixed s.pager.takeId p s.pager.nextPage true f →
      Q ⟨s.pager.nextPage, f⟩ (s.afterCall p heap))
    (hrefuse : ∀ p e heap, errorGetCode e ≠ 0 → Refused s.pager.takeId p s.pager.nextPage →
      E { s.afterCall p heap with err := e })
    (hhang : ∀ f, s.pager.locate s.pager.nextPage = some f →
      (s.pager.header f).latch ≠ 0 → F .hang) :
    wp treeNext Q E F s := by
  simp only [treeNext, wp_bind, wp_get, wp_modify, wp_ite]
  split
  · exact wp_pagerRefuse fun e he => hrefuse s.pager.takeId e s.heap he
      ⟨h.takeId, ⟨rfl, rfl, rfl⟩, Nat.le_succ _, rfl, fun j _ => Or.inl (.refl _ j)⟩
  · have hnext : wp pagerNext Q E F { s with pagerCalls := s.pagerCalls + 1 } ↔
        wp (pagerFix s.pager.nextPage true) Q E F
          { s with pager := s.pager.takeId, pagerCalls := s.pagerCalls + 1 } := by
      unfold wp
      rw [pagerNext_apply]
      rfl
    rw [hnext]
    exact wp_pagerFix h.takeId hfix (fun p e heap he href _ => hrefuse p e heap he href) hhang

theorem wp_tryCall {α : Type} {site : Site} {text : String} {m : Call α} {Q : α → Sys → Prop}
    (hm : wp m Q (fun t => errorGetCode t.err ≠ 0 ∧
      ∀ e, errorGetCode e = errorGetCode t.err → E { t with err := e }) F s) :
    wp (tryCall site text m) Q E F s := by
  rw [tryCall, wp_recover]
  refine wp_mono hm (fun _ _ h => h) (fun t ht => ?_) fun _ h => h
  rw [wp_bind, wp_get]
  exact wp_failure ht.1 ht.2

end

/-! ### The pages a call holds -/

/-- The running call has these pages latched. -/
structure Holding (held : List PageRef) (s : Sys) : Prop where
  ok : s.pager.Ok 0
  nodup : (held.map PageRef.id).Nodup
  there : ∀ page ∈ held, page.id ≠ 0 ∧ s.pager.locate page.id = some page.frame
  latch : ∀ page ∈ held, (s.pager.header page.frame).latch = -1

namespace Holding

variable {held : List PageRef} {s : Sys} {page : PageRef}

theorem nil (h : s.pager.Ok 0) : Holding [] s := ⟨h, List.nodup_nil, by simp, by simp⟩

theorem eq_of_id (h : Holding held s) {p q : PageRef} (hp : p ∈ held) (hq : q ∈ held)
    (hid : p.id = q.id) : p = q := by
  obtain ⟨-, hp⟩ := h.there p hp
  obtain ⟨-, hq⟩ := h.there q hq
  obtain ⟨i, f⟩ := p
  obtain ⟨j, g⟩ := q
  obtain rfl : i = j := hid
  obtain rfl := Option.some.inj (hp.symm.trans hq)
  rfl

theorem frame_ne (h : Holding held s) {p q : PageRef} (hp : p ∈ held) (hq : q ∈ held)
    (hne : p ≠ q) : p.frame ≠ q.frame := by
  intro hf
  obtain ⟨hp0, hploc⟩ := h.there p hp
  obtain ⟨hq0, hqloc⟩ := h.there q hq
  exact hne (h.eq_of_id hp hq (h.ok.locate_inj hp0 hq0 hploc (hf ▸ hqloc)))

theorem sublist (h : Holding held s) {held' : List PageRef} (hsub : held'.Sublist held) :
    Holding held' s :=
  ⟨h.ok, h.nodup.sublist (hsub.map _), fun p hp => h.there p (hsub.subset hp),
    fun p hp => h.latch p (hsub.subset hp)⟩

theorem perm (h : Holding held s) {held' : List PageRef}
    (hperm : held.Perm held') : Holding held' s :=
  ⟨h.ok, (hperm.map _).nodup_iff.mp h.nodup, fun p hp => h.there p (hperm.mem_iff.mpr hp),
    fun p hp => h.latch p (hperm.mem_iff.mpr hp)⟩

/-- A pager step that moves no latched page. -/
theorem transfer (h : Holding held s) {t : Sys} (hok : t.pager.Ok 0)
    (hsame : ∀ p ∈ held, Same s.pager t.pager p.id) :
    Holding held t ∧ ∀ p ∈ held, t.page p = s.page p := by
  refine ⟨⟨hok, h.nodup, fun p hp => ?_, fun p hp => ?_⟩, fun p hp => ?_⟩
  · obtain ⟨hp0, hploc⟩ := h.there p hp
    exact ⟨hp0, (hsame p hp).1.trans hploc⟩
  · rw [((hsame p hp).2 _ (h.there p hp).2).2]
    exact h.latch p hp
  · exact ((hsame p hp).2 _ (h.there p hp).2).1

theorem refused (h : Holding held s) {p : Pager} {id : PageId} (href : Refused s.pager p id)
    (q : PageRef) (hq : q ∈ held) : Same s.pager p q.id := by
  obtain ⟨hq0, hloc⟩ := h.there q hq
  rcases href.others q.id hq0 with hs | ⟨-, -, f, hf, hlatch⟩
  · exact hs
  · obtain rfl := Option.some.inj (hloc.symm.trans hf)
    have := h.latch q hq
    omega

/-- Fixing one more page. -/
theorem fixed (h : Holding held s) {t : Sys} {id : PageId} {f : Nat}
    (hfix : Fixed s.pager t.pager id true f) :
    Holding (⟨id, f⟩ :: held) t ∧ ∀ p ∈ held, t.page p = s.page p := by
  have hnew : ∀ p ∈ held, p.id ≠ id := by
    rintro p hp rfl
    obtain ⟨hp0, hloc⟩ := h.there p hp
    rcases hfix.page with ⟨hat, hcan, -⟩ | ⟨hnone, -⟩
    · obtain rfl := Option.some.inj (hloc.symm.trans hat)
      have := h.latch p hp
      simp only [CanLatch, if_true] at hcan
      omega
    · simp [hloc] at hnone
  have hsame : ∀ p ∈ held, Same s.pager t.pager p.id := by
    intro p hp
    obtain ⟨hp0, hloc⟩ := h.there p hp
    rcases hfix.others p.id hp0 (hnew p hp) with hs | ⟨-, -, g, hg, hlatch⟩
    · exact hs
    · obtain rfl := Option.some.inj (hloc.symm.trans hg)
      have := h.latch p hp
      omega
  obtain ⟨hheld, hdata⟩ := h.transfer hfix.ok hsame
  refine ⟨⟨hfix.ok, ?_, fun p hp => ?_, fun p hp => ?_⟩, hdata⟩
  · refine List.nodup_cons.mpr ⟨fun hmem => ?_, h.nodup⟩
    obtain ⟨p, hp, hpid⟩ := List.mem_map.mp hmem
    exact hnew p hp hpid
  · rcases List.mem_cons.mp hp with rfl | hp
    · exact ⟨hfix.ne_zero, hfix.located⟩
    · exact hheld.there p hp
  · rcases List.mem_cons.mp hp with rfl | hp
    · rcases hfix.page with ⟨-, -, hlatched⟩ | ⟨-, hlatch⟩
      · rw [hlatched]
        rfl
      · exact hlatch
    · exact hheld.latch p hp

/-- Writing to one of the pages. -/
theorem written (h : Holding held s) (data : Mem) : Holding held (s.written page data) := by
  have hlatch (f : Nat) : ((s.pager.writeData page.frame data).header f).latch =
      (s.pager.header f).latch := by
    by_cases hf : f = page.frame
    · simp [writeData, hf]
    · rw [writeData, header_setHeader_ne _ _ _ _ hf]
  refine ⟨h.ok.setHeader rfl fun hf hused => ?_, h.nodup, h.there, fun p hp => ?_⟩
  · have hl := h.ok.latched _ hf hused
    exact ⟨hl.low, hl.high, hl.exclusive⟩
  · exact (hlatch p.frame).trans (h.latch p hp)

theorem page_written_ne (h : Holding held s) (hpage : page ∈ held) {q : PageRef} (hq : q ∈ held)
    (hne : q ≠ page) (data : Mem) : (s.written page data).page q = s.page q := by
  simp only [Sys.page, Sys.written, writeData]
  rw [header_setHeader_ne _ _ _ _ (h.frame_ne hq hpage hne)]

/-- Unfixing one of the pages. -/
theorem unfixed (h : Holding held s) (hpage : page ∈ held) :
    Holding (held.filter (· ≠ page)) (s.unfixed page) := by
  have hlatch := h.latch page hpage
  refine ⟨h.ok.setHeader (id_released _) fun hf hused =>
    (h.ok.latched _ hf hused).released (Or.inl hlatch), ?_, fun q hq => ?_, fun q hq => ?_⟩
  · exact h.nodup.sublist (List.filter_sublist.map _)
  · exact h.there q (List.mem_filter.mp hq).1
  · obtain ⟨hq, hne⟩ := List.mem_filter.mp hq
    have hframe := h.frame_ne hq hpage (by simpa using hne)
    simp only [Sys.unfixed]
    rw [header_setHeader_ne _ _ _ _ hframe]
    exact h.latch q hq

theorem unfixed_head (h : Holding (page :: held) s) : Holding held (s.unfixed page) := by
  have hnew : page ∉ held := fun hmem => (List.nodup_cons.mp h.nodup).1 (List.mem_map_of_mem hmem)
  have hleft := h.unfixed (List.mem_cons_self ..)
  rwa [List.filter_cons_of_neg (by simp), List.filter_eq_self.mpr] at hleft
  intro q hq
  simp only [ne_eq, decide_eq_true_eq]
  rintro rfl
  exact hnew hq

theorem wp_pagerUnfix (h : Holding held s) (hpage : page ∈ held) {Q : Unit → Sys → Prop}
    {E : Sys → Prop} {F : Fault → Prop} (hQ : Q () (s.unfixed page)) :
    wp (pagerUnfix page) Q E F s := by
  obtain ⟨hp0, hloc⟩ := h.there page hpage
  have hrun := pagerUnfix_apply page s (h.ok.latchOk hp0 hloc)
  rw [if_pos (Or.inl (h.latch page hpage))] at hrun
  simp only [wp, hrun]
  exact hQ

end Holding

section

variable (s : Sys) (page : PageRef) (data : Mem)

@[simp] theorem Sys.err_written : (s.written page data).err = s.err := rfl
@[simp] theorem Sys.stack_written : (s.written page data).stack = s.stack := rfl
@[simp] theorem Sys.tree_written : (s.written page data).tree = s.tree := rfl
@[simp] theorem Sys.outage_written : (s.written page data).outage = s.outage := rfl
@[simp] theorem Sys.err_unfixed : (s.unfixed page).err = s.err := rfl
@[simp] theorem Sys.stack_unfixed : (s.unfixed page).stack = s.stack := rfl
@[simp] theorem Sys.tree_unfixed : (s.unfixed page).tree = s.tree := rfl
@[simp] theorem Sys.outage_unfixed : (s.unfixed page).outage = s.outage := rfl

end

@[simp] theorem Sys.page_written_self (s : Sys) (page : PageRef) (data : Mem) :
    (s.written page data).page page = data := by
  simp [Sys.page, Sys.written, writeData]

@[simp] theorem Sys.page_unfixed (s : Sys) (page q : PageRef) :
    (s.unfixed page).page q = s.page q := by
  simp only [Sys.page, Sys.unfixed]
  by_cases hf : q.frame = page.frame
  · rw [hf, header_setHeader_self, data_released]
  · rw [header_setHeader_ne _ _ _ _ hf]

end Wednesday
