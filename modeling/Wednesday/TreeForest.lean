import Wednesday.PagerConfig
import Wednesday.PagerMaps
import Wednesday.TreeCalls

/-!
The trees of one pager. Any number of trees is created on a pager that may have
been used before, rows are inserted into them and looked up. What the frames held
before does not show in what the calls report.
-/

namespace Wednesday

open Lib Prog Pager FenceTree

/-! ### Runs -/

/-- A process with the trees it has created, each with its type. The pages in
`foreign` belong to none of them. -/
structure Forest where
  sys : Sys
  trees : List (BTree × Nat)
  foreign : PageId → Bool

/-- The pager after any calls since it was opened. -/
def PagerUsed (s : Sys) : Prop :=
  ∃ s₀ es u, PagerOpened s₀ ∧ Run CacheStep (cacheStart s₀) es u ∧ u.sys = s

/-- A process without a tree. Whatever pages there are belong to somebody else. -/
def Forest.clear (s : Sys) : Forest := ⟨s, [], fun id => (s.pageAt id).isSome⟩

/-- A call on one of the trees, or what happens in between. -/
inductive ForestEvent where
  | create (type : Nat)
  | insert (index : Nat) (key value : Blob)
  | lookup (index : Nat) (key : Blob)
  | errorClear
  | scratch

/-- What a call reports. -/
inductive Report where
  | done
  | value (bytes : Bytes)
  | failed (code : Int)
  deriving DecidableEq

/-- The process while a call works on the tree. -/
def Forest.on (f : Forest) (tree : BTree) : Sys := { f.sys with tree := tree }

/-- The forest after a call on one of its trees. -/
def Forest.after (f : Forest) (index type : Nat) (t : Sys) : Forest :=
  { f with sys := t, trees := f.trees.set index (t.tree, type) }

/-- A call that returns, with its report. The page of a tree that was not created
belongs to no tree. -/
inductive ForestStep (f : Forest) : ForestEvent × Report → Forest → Prop where
  | create {type object : Nat} {tree : BTree} {t : Sys}
      (hrun : btreeCreate true type f.sys = .success (object, tree) t) :
      ForestStep f (.create type, .done) { f with sys := t, trees := f.trees ++ [(tree, type)] }
  | createFails {type : Nat} {t : Sys} (hrun : btreeCreate true type f.sys = .failure t) :
      ForestStep f (.create type, .failed (errorGetCode t.err))
        { f with sys := t, foreign := andPage f.foreign f.sys.pager.nextPage }
  | insert {fuel index type : Nat} {key value : Blob} {tree : BTree} {t : Sys}
      (htree : f.trees[index]? = some (tree, type))
      (hrun : btreeInsert fuel key value (f.on tree) = .success () t) :
      ForestStep f (.insert index key value, .done) (f.after index type t)
  | insertFails {fuel index type : Nat} {key value : Blob} {tree : BTree} {t : Sys}
      (htree : f.trees[index]? = some (tree, type))
      (hrun : btreeInsert fuel key value (f.on tree) = .failure t) :
      ForestStep f (.insert index key value, .failed (errorGetCode t.err)) (f.after index type t)
  | lookup {fuel index type : Nat} {key : Blob} {tree : BTree} {ptr : DataPtr} {t : Sys}
      (htree : f.trees[index]? = some (tree, type))
      (hrun : btreeLookup fuel key (f.on tree) = .success ptr t) :
      ForestStep f (.lookup index key, .value (t.valueAt ptr)) (f.after index type t)
  | lookupFails {fuel index type : Nat} {key : Blob} {tree : BTree} {t : Sys}
      (htree : f.trees[index]? = some (tree, type))
      (hrun : btreeLookup fuel key (f.on tree) = .failure t) :
      ForestStep f (.lookup index key, .failed (errorGetCode t.err)) (f.after index type t)
  | errorClear :
      ForestStep f (.errorClear, .done) { f with sys := { f.sys with err := errorClear f.sys.err } }
  | scratch (stack : Mem) : ForestStep f
      (.scratch, .done) { f with sys := { f.sys with stack := stack } }

/-- A new tree is for one of the two kinds of rows, and a row is encoded as its
tree stores it. Every page taken is a new one, and no page of a tree is evicted. -/
def Forest.Proper (f : Forest) : ForestEvent → Prop
  | .create type => IsTreeType type ∧ NextNew f.foreign f.sys
  | .insert index key value => ∀ tree type, f.trees[index]? = some (tree, type) →
      KeyEncoded type key.bytes ∧ ValueEncoded type value.bytes ∧
        TakesNew f.foreign key value (f.on tree)
  | _ => True

/-- No page is compacted to take a cell of a row. -/
def Forest.Uncompacted (f : Forest) : ForestEvent → Prop
  | .insert index key value => ∀ tree type, f.trees[index]? = some (tree, type) →
      Wednesday.Uncompacted key value (f.on tree)
  | _ => True

def ProperStep (f : Forest) (e : ForestEvent × Report) (g : Forest) : Prop :=
  f.Proper e.1 ∧ ForestStep f e g

def UncompactedStep (f : Forest) (e : ForestEvent × Report) (g : Forest) : Prop :=
  (f.Proper e.1 ∧ f.Uncompacted e.1) ∧ ForestStep f e g

section

variable {f f' g g' g'' : Forest} {s t u v : Sys} {e : ForestEvent} {r r' : Report} {pageSize : Nat}

/-! ### One run -/

/-- A run tells what a call reports, however far the walks may go. -/
theorem ForestStep.unique (h : ForestStep f (e, r) g) (h' : ForestStep f (e, r') g')
    (hstack : e ≠ .scratch) :
    r = r' ∧ g = g' := by
  cases h with
  | create hrun =>
      cases h' with
      | create hrun' =>
          cases hrun.symm.trans hrun'
          exact ⟨rfl, rfl⟩
      | createFails hrun' => cases hrun.symm.trans hrun'
  | createFails hrun =>
      cases h' with
      | create hrun' => cases hrun.symm.trans hrun'
      | createFails hrun' =>
          cases hrun.symm.trans hrun'
          exact ⟨rfl, rfl⟩
  | insert htree hrun =>
      cases h' with
      | insert htree' hrun' =>
          cases htree.symm.trans htree'
          cases btreeInsert_unique hrun hrun' nofun nofun
          exact ⟨rfl, rfl⟩
      | insertFails htree' hrun' =>
          cases htree.symm.trans htree'
          cases btreeInsert_unique hrun hrun' nofun nofun
  | insertFails htree hrun =>
      cases h' with
      | insert htree' hrun' =>
          cases htree.symm.trans htree'
          cases btreeInsert_unique hrun hrun' nofun nofun
      | insertFails htree' hrun' =>
          cases htree.symm.trans htree'
          cases btreeInsert_unique hrun hrun' nofun nofun
          exact ⟨rfl, rfl⟩
  | lookup htree hrun =>
      cases h' with
      | lookup htree' hrun' =>
          cases htree.symm.trans htree'
          cases btreeLookup_unique hrun hrun' nofun nofun
          exact ⟨rfl, rfl⟩
      | lookupFails htree' hrun' =>
          cases htree.symm.trans htree'
          cases btreeLookup_unique hrun hrun' nofun nofun
  | lookupFails htree hrun =>
      cases h' with
      | lookup htree' hrun' =>
          cases htree.symm.trans htree'
          cases btreeLookup_unique hrun hrun' nofun nofun
      | lookupFails htree' hrun' =>
          cases htree.symm.trans htree'
          cases btreeLookup_unique hrun hrun' nofun nofun
          exact ⟨rfl, rfl⟩
  | errorClear =>
      cases h'
      exact ⟨rfl, rfl⟩
  | scratch => exact absurd rfl hstack

/-! ### Two runs -/

/-- Two forests that differ in their memory only, whose pages stand for the same
nodes. Without frames there is no tree. -/
structure ForestAlike (pageSize : Nat) (f g : Forest) : Prop where
  bare : f.sys.bare = g.sys.bare
  trees : g.trees = f.trees
  foreign : g.foreign = f.foreign
  pages : f.sys.PagerOk ∧ Alike f.foreign pageSize f.sys g.sys ∨ NoFrames f.sys.pager ∧ f.trees = []
  rooted : ∀ p ∈ f.trees, p.1.pageSize = pageSize ∧
    HasType pageSize (f.sys.ownAt f.foreign) p.2 p.1.root

/-- A call on a tree starts in processes that are alike. -/
structure StartsAlike (pageSize type : Nat) (f g : Forest) (tree : BTree) : Prop where
  ok : (f.on tree).PagerOk
  alike : Alike f.foreign pageSize (f.on tree) (g.on tree)
  size : tree.pageSize = pageSize
  root : HasType pageSize ((f.on tree).ownAt f.foreign) type tree.root

theorem ForestAlike.on {index type : Nat} {tree : BTree} (h : ForestAlike pageSize f g)
    (htree : f.trees[index]? = some (tree, type)) : StartsAlike pageSize type f g tree := by
  have hmem := List.mem_of_getElem? htree
  obtain ⟨hsize, hroot⟩ := h.rooted _ hmem
  rcases h.pages with ⟨hok, halike⟩ | ⟨-, hnone⟩
  · refine ⟨hok, ⟨?_, halike.size, halike.pages, halike.nextPage⟩, hsize, hroot⟩
    exact congrArg (fun s : Sys => { s with tree := tree }) halike.bare
  · rw [hnone] at hmem
    cases hmem

theorem ForestAlike.after {index type : Nat} {tree : BTree} (h : ForestAlike pageSize f g)
    (hstart : StartsAlike pageSize type f g tree) (hok : u.PagerOk)
    (hend : Follows f.foreign pageSize (f.on tree) u v) :
    ForestAlike pageSize (f.after index type u) (g.after index type v) := by
  refine ⟨hend.alike.bare, ?_, h.foreign, Or.inl ⟨hok, hend.alike⟩, fun p hp => ?_⟩
  · rw [Forest.after, Forest.after, h.trees, tree_eq hend.alike.bare]
  · rcases List.mem_or_eq_of_mem_set hp with hp | rfl
    · exact ⟨(h.rooted p hp).1, hend.stays.types _ _ (h.rooted p hp).2⟩
    · exact ⟨hend.stays.size.trans hstart.size, hend.stays.root _ hstart.root⟩

/-- Without frames no tree is created on either side. -/
theorem agree_btreeCreate_noFrames {type : Nat} (h : NoFrames s.pager) (hbare : s.bare = t.bare) :
    Agree (btreeCreate true type) (btreeCreate true type) (fun _ _ _ _ => False)
      (fun u v => NoFrames u.pager ∧ u.bare = v.bare) s t := by
  have hone : wp (tryCall ⟨"src/btree.c", "btree_create", 170⟩ "pager_next(pager, &root)" treeNext)
      (fun _ _ => False) (fun u => NoFrames u.pager) (fun _ => True) s := by
    rw [tryCall, wp_recover]
    refine wp_mono h.wp_treeNext (fun _ _ hfalse => hfalse) (fun u hu => ?_) fun _ _ => trivial
    rw [wp_bind, wp_get]
    refine wp_mono (wp_failure_err _ _ _ u) (fun _ _ hfalse => hfalse) (fun x hx => ?_)
      fun _ _ => trivial
    obtain ⟨e, rfl⟩ := hx
    exact hu
  refine agree_bind (agree_pure (Q := fun _ _ x y => x = s ∧ y = t) ⟨rfl, rfl⟩) ?_
  rintro - - x y - ⟨hx, hy⟩
  subst x y
  have hnext := ((ignores_tryCall ignores_treeNext).agree hbare).and_wp hone
    (wp_true : wp (tryCall ⟨"src/btree.c", "btree_create", 170⟩ "pager_next(pager, &root)" treeNext)
      (fun _ _ => True) (fun _ => True) (fun _ => True) t)
  exact agree_bind (hnext.mono (fun _ _ _ _ hend => hend.2.1) fun _ _ hend => ⟨hend.2.1, hend.1⟩)
    fun _ _ _ _ _ hfalse => hfalse.elim

/-- What a forest does without compacting a page, one does that is alike. -/
theorem ForestAlike.step (h : ForestAlike pageSize f g) (hproper : f.Proper e)
    (hspace : f.Uncompacted e)
    (hsmall : pageSize < 65536) (hsize : sizeofHeader ≤ pageSize) (hstep : ForestStep f (e, r) f') :
    ∃ g', ForestStep g (e, r) g' ∧ ForestAlike pageSize f' g' := by
  cases hstep with
  | create hrun =>
      rename_i type object tree u
      rcases h.pages with ⟨hok, halike⟩ | ⟨hnone, -⟩
      · have hagree := agree_btreeCreate hok hproper.2 halike hproper.1 hsmall hsize
        obtain ⟨_, v, hrun', rfl, hpages, htype, hend⟩ := hagree.success hrun
        refine ⟨_, .create hrun',
          hend.alike.bare, by rw [h.trees], h.foreign, Or.inl ⟨?_, hend.alike⟩, fun p hp => ?_⟩
        · exact (preserves_btreeCreate _ _).success hok hrun
        · rcases List.mem_append.mp hp with hp | hp
          · exact ⟨(h.rooted p hp).1, hend.stays.types _ _ (h.rooted p hp).2⟩
          · obtain rfl := List.mem_singleton.mp hp
            exact ⟨hpages, htype⟩
      · obtain ⟨_, _, _, hfalse⟩ := (agree_btreeCreate_noFrames hnone h.bare).success hrun
        exact hfalse.elim
  | createFails hrun =>
      rename_i type u
      rcases h.pages with ⟨hok, halike⟩ | ⟨hnone, htrees⟩
      · have hagree := agree_btreeCreate hok hproper.2 halike hproper.1 hsmall hsize
        obtain ⟨v, hrun', hend, hsame⟩ := hagree.failure hrun
        rw [← err_right hend.bare]
        refine ⟨_, .createFails hrun', hend.bare, h.trees, ?_, Or.inl ⟨?_, hend⟩, fun p hp => ?_⟩
        · rw [h.foreign, nextPage_right h.bare]
        · exact (preserves_btreeCreate _ _).failure hok hrun
        · rw [hsame]
          exact h.rooted p hp
      · obtain ⟨v, hrun', hnone', hbare⟩ := (agree_btreeCreate_noFrames hnone h.bare).failure hrun
        rw [← err_right hbare]
        refine ⟨_, .createFails hrun', hbare, h.trees, ?_, Or.inr ⟨hnone', htrees⟩, fun p hp => ?_⟩
        · rw [h.foreign, nextPage_right h.bare]
        · rw [htrees] at hp
          cases hp
  | insert htree hrun =>
      have hstart := h.on htree
      obtain ⟨hkey, hvalue, hnew⟩ := hproper _ _ htree
      obtain ⟨_, v, hrun', hend⟩ :=
        (agree_btreeInsert hstart.ok hnew (hspace _ _ htree) hstart.alike hstart.size
        hstart.root hkey hvalue).success hrun
      exact ⟨_, .insert (h.trees ▸ htree) hrun',
        h.after hstart ((kept_pagerOk.btreeInsert _ _ _).success
        hstart.ok hrun) hend⟩
  | insertFails htree hrun =>
      rename_i u
      have hstart := h.on htree
      obtain ⟨hkey, hvalue, hnew⟩ := hproper _ _ htree
      obtain ⟨v, hrun', hend⟩ :=
        (agree_btreeInsert hstart.ok hnew (hspace _ _ htree) hstart.alike hstart.size
        hstart.root hkey hvalue).failure hrun
      rw [← err_right hend.alike.bare]
      exact ⟨_, .insertFails (h.trees ▸ htree) hrun',
        h.after hstart ((kept_pagerOk.btreeInsert _ _ _).failure
        hstart.ok hrun) hend⟩
  | lookup htree hrun =>
      have hstart := h.on htree
      obtain ⟨ptr, v, hrun', hvalue, hend⟩ :=
        (agree_btreeLookup hstart.ok hstart.alike hstart.root).success hrun
      rw [hvalue]
      exact ⟨_, .lookup (h.trees ▸ htree) hrun',
        h.after hstart ((kept_pagerOk.btreeLookup _ _).success
        hstart.ok hrun) hend⟩
  | lookupFails htree hrun =>
      rename_i u
      have hstart := h.on htree
      obtain ⟨v, hrun', hend⟩ := (agree_btreeLookup hstart.ok hstart.alike hstart.root).failure hrun
      rw [← err_right hend.alike.bare]
      exact ⟨_, .lookupFails (h.trees ▸ htree) hrun',
        h.after hstart ((kept_pagerOk.btreeLookup _ _).failure
        hstart.ok hrun) hend⟩
  | errorClear =>
      have herr := err_right h.bare
      have hbare : ({ f.sys with err := errorClear f.sys.err } : Sys).bare =
          ({ g.sys with err := errorClear g.sys.err } : Sys).bare := by
        rw [herr]
        exact congrArg (fun s : Sys => { s with err := errorClear f.sys.err }) h.bare
      refine ⟨_, .errorClear, hbare, h.trees, h.foreign, ?_, h.rooted⟩
      exact h.pages.imp (fun hpages => ⟨hpages.1, hbare, hpages.2.size, hpages.2.pages,
        hpages.2.nextPage⟩) id
  | scratch stack =>
      refine ⟨_, .scratch stack, h.bare, h.trees, h.foreign, ?_, h.rooted⟩
      exact h.pages.imp (fun hpages => ⟨hpages.1, h.bare, hpages.2.size, hpages.2.pages,
        hpages.2.nextPage⟩) id

/-- Two steps on the same event report the same. -/
theorem ForestAlike.steps (h : ForestAlike pageSize f g) (hproper : f.Proper e)
    (hspace : f.Uncompacted e)
    (hsmall : pageSize < 65536) (hsize : sizeofHeader ≤ pageSize) (hstep : ForestStep f (e, r) f')
    (hstep' : ForestStep g (e, r') g') :
    r' = r ∧ ForestAlike pageSize f' g' := by
  obtain ⟨g'', hrun, halike⟩ := h.step hproper hspace hsmall hsize hstep
  by_cases hstack : e = .scratch
  · -- The stack may hold anything afterwards, on either side.
    subst hstack
    cases hstep
    cases hstep'
    exact ⟨rfl, h.bare, h.trees, h.foreign, h.pages.imp (fun hpages =>
      ⟨hpages.1, h.bare, hpages.2.size, hpages.2.pages, hpages.2.nextPage⟩) id, h.rooted⟩
  · obtain ⟨rfl, rfl⟩ := hrun.unique hstep' hstack
    exact ⟨rfl, halike⟩

theorem PagerUsed.fresh (h : PagerUsed s) : s.PagerOk ∧ s.pager.nextPage < 2 ^ 32 ∨
    NoFrames s.pager := by
  obtain ⟨s₀, es, u, hopen, hrun, rfl⟩ := h
  rcases cacheRun_ok_all hopen (.nil _) with hs | hs
  · refine Or.inl (hrun.invariant (I := fun u => CacheOk 0 u ∧ u.sys.pager.nextPage < 2 ^ 32)
      (fun s e t hs hstep => ⟨hs.1.step_all hstep, (hs.1.moves hstep).nextPage_lt hs.2⟩)
      ⟨hs, ?_⟩ |>.imp
        CacheOk.ok id)
    have hnext : s₀.pager.nextPage = 1 := hopen.fresh.2.1
    change s₀.pager.nextPage < 2 ^ 32
    rw [hnext]
    decide
  · exact Or.inr (hrun.invariant (I := Unused) (fun _ _ _ hs hstep => hs.step hstep) hs).frames

/-- Without trees there is nothing to tell two processes apart. -/
theorem forestAlike_clear (hused : PagerUsed s) (hbare : t.bare = s.bare) :
    ForestAlike s.pager.pageSize (.clear s) (.clear t) := by
  have hlocate (id : PageId) : t.pager.locate id = s.pager.locate id := by
    have hbare := congrArg (fun x : Sys => x.pager.locate id) hbare
    exact hbare
  have hthere (id : PageId) : (t.pageAt id).isSome = (s.pageAt id).isSome := by
    rw [Sys.pageAt, Sys.pageAt, hlocate]
    split <;> simp
  have hnone (x : Sys) : x.ownAt (fun id => (x.pageAt id).isSome) = fun _ => none := by
    funext id
    cases hpage : x.pageAt id <;> simp [Sys.ownAt, hpage]
  have hforeign : (Forest.clear t).foreign = (Forest.clear s).foreign := funext hthere
  refine ⟨hbare.symm, rfl, hforeign, hused.fresh.imp
    (fun hok => ⟨hok.1, hbare.symm, rfl, ?_, hok.2⟩)
    fun hnone => ⟨hnone, rfl⟩, fun p hp => absurd hp List.not_mem_nil⟩
  rw [← hforeign]
  have hright : (Forest.clear t).sys.ownAt (Forest.clear t).foreign = fun _ => none := hnone t
  have hleft : (Forest.clear s).sys.ownAt (Forest.clear t).foreign = fun _ => none := by
    rw [hforeign]
    exact hnone s
  rw [hleft, hright]
  exact ⟨fun _ => Iff.rfl, fun _ _ _ hd => absurd hd (by simp), fun _ hid => absurd rfl hid⟩

theorem ForestAlike.run {es : List (ForestEvent × Report)} (h : ForestAlike pageSize f g)
    (hsmall : pageSize < 65536) (hsize : sizeofHeader ≤ pageSize)
    (hrun : Run UncompactedStep f es f') :
    (∃ g', Run ForestStep g es g') ∧
      ∀ es' g', Run ForestStep g es' g' → es'.map Prod.fst = es.map Prod.fst → es' = es := by
  induction hrun generalizing g with
  | nil => exact ⟨⟨g, .nil g⟩, fun es' g' _ hcalls => List.map_eq_nil_iff.mp hcalls⟩
  | @cons f x f' e es head tail ih =>
      obtain ⟨e, r⟩ := e
      constructor
      · obtain ⟨y, hstep, halike⟩ := h.step head.1.1 head.1.2 hsmall hsize head.2
        obtain ⟨g', hrest⟩ := (ih halike).1
        exact ⟨g', .cons hstep hrest⟩
      · intro es' g' hrun' hcalls
        cases hrun' with
        | nil => cases hcalls
        | @cons _ y _ e' es' head' tail' =>
            obtain ⟨e', r'⟩ := e'
            obtain ⟨hevent, hrest⟩ := List.cons.inj hcalls
            obtain rfl : e' = e := hevent
            obtain ⟨rfl, halike⟩ := h.steps head.1.1 head.1.2 hsmall hsize head.2 head'
            rw [(ih halike).2 es' g' tail' hrest]

/-- Recycled frames do not show: whatever the frames held, the same calls report the
same, and lookups yield the same values. -/
theorem recycled_frames_never_show {es : List (ForestEvent × Report)} (hused : PagerUsed s)
    (hbare : t.bare = s.bare) (hsize : sizeofHeader ≤ s.pager.pageSize)
    (hsmall : s.pager.pageSize < 65536)
    (hrun : Run UncompactedStep (.clear s) es f) :
    (∃ g, Run ForestStep (.clear t) es g) ∧
      ∀ es' g, Run ForestStep (.clear t) es' g → es'.map Prod.fst = es.map Prod.fst → es' = es :=
  (forestAlike_clear hused hbare).run hsmall hsize hrun

end

/-! ### Computed runs -/

/-- Make a call, if it returns. -/
def Forest.call (fuel : Nat) (f : Forest) : ForestEvent → Option (Report × Forest)
  | .create type =>
      match btreeCreate true type f.sys with
      | .success (_, tree) t =>
          some (.done, { f with sys := t, trees := f.trees ++ [(tree, type)] })
      | .failure t => some (.failed (errorGetCode t.err),
          { f with sys := t, foreign := andPage f.foreign f.sys.pager.nextPage })
      | .fault _ => none
  | .insert index key value => do
      let (tree, type) ← f.trees[index]?
      match btreeInsert fuel key value (f.on tree) with
      | .success _ t => some (.done, f.after index type t)
      | .failure t => some (.failed (errorGetCode t.err), f.after index type t)
      | .fault _ => none
  | .lookup index key => do
      let (tree, type) ← f.trees[index]?
      match btreeLookup fuel key (f.on tree) with
      | .success ptr t => some (.value (t.valueAt ptr), f.after index type t)
      | .failure t => some (.failed (errorGetCode t.err), f.after index type t)
      | .fault _ => none
  | .errorClear =>
      some (.done, { f with sys := { f.sys with err := Wednesday.errorClear f.sys.err } })
  | .scratch => some (.done, f)

/-- Make calls one after the other, each checked. -/
def Forest.calls (check : Forest → ForestEvent → Bool) (fuel : Nat) (f : Forest) :
    List ForestEvent → Option (List (ForestEvent × Report) × Forest)
  | [] => some ([], f)
  | e :: es =>
      if check f e then do
        let (r, g) ← f.call fuel e
        let (rs, g') ← g.calls check fuel es
        some ((e, r) :: rs, g')
      else none

def checksNext (X : PageId → Bool) (s : Sys) : Bool :=
  (s.pager.takeId.evictsFor s.pager.nextPage).isNone && !X s.pager.nextPage &&
  (s.pageAt s.pager.nextPage).isNone

/-- The pages an insert takes whose row goes no further than the root or one of its halves. -/
def checksTaken (X : PageId → Bool) (key value : Blob) (s : Sys) : Bool :=
  match (fixRoot s).value? with
  | none => false
  | some (page, t) =>
      match (makeRoom key value page none t).value? with
      | none => false
      | some (p, u) =>
          pageIsLeaf (pageFlags (u.page p)) &&
          (!needsSplit (t.page page) key value || checksNext X t &&
            match (treeNext t).value? with
            | none => true
            | some (split, v) => (splitPage page split v).value?.all fun r => checksNext X r.2)

def Forest.checksProper (f : Forest) : ForestEvent → Bool
  | .create type => decide (type = PAGE_FLAG_TABLE) && checksNext f.foreign f.sys
  | .insert index key value =>
      f.trees[index]?.all fun p => decide (p.2 = PAGE_FLAG_TABLE) &&
        checksTaken f.foreign key value (f.on p.1)
  | _ => true

def Forest.checksSpace (f : Forest) : ForestEvent → Bool
  | .insert index key value => f.trees[index]?.all fun p => checksLeaf key value (f.on p.1)
  | _ => true

section

variable {f g : Forest} {e : ForestEvent} {r : Report} {fuel : Nat} {X : PageId → Bool} {s : Sys}
  {key value : Blob}

theorem Forest.call_step (h : f.call fuel e = some (r, g)) : ForestStep f (e, r) g := by
  cases e with
  | create type =>
      simp only [call] at h
      split at h
      · cases h
        exact .create (by assumption)
      · cases h
        exact .createFails (by assumption)
      · cases h
  | insert index key value =>
      simp only [call, Option.bind_eq_bind, Option.bind_eq_some_iff, Prod.exists] at h
      obtain ⟨tree, type, htree, h⟩ := h
      split at h
      · cases h
        exact .insert htree (by assumption)
      · cases h
        exact .insertFails htree (by assumption)
      · cases h
  | lookup index key =>
      simp only [call, Option.bind_eq_bind, Option.bind_eq_some_iff, Prod.exists] at h
      obtain ⟨tree, type, htree, h⟩ := h
      split at h
      · cases h
        exact .lookup htree (by assumption)
      · cases h
        exact .lookupFails htree (by assumption)
      · cases h
  | errorClear =>
      cases h
      exact .errorClear
  | scratch =>
      cases h
      exact .scratch _

theorem Forest.calls_run {P : Forest → ForestEvent → Prop} {check : Forest → ForestEvent → Bool}
    {es : List ForestEvent} {rs : List (ForestEvent × Report)}
    (hcheck : ∀ e ∈ es, ∀ f, check f e = true → P f e) (h : f.calls check fuel es = some (rs, g)) :
    Run (fun f e g => P f e.1 ∧ ForestStep f e g) f rs g ∧ rs.map Prod.fst = es := by
  induction es generalizing f rs with
  | nil =>
      cases h
      exact ⟨.nil _, rfl⟩
  | cons e es ih =>
      simp only [calls] at h
      split at h
      · rename_i hpass
        simp only [Option.bind_eq_bind, Option.bind_eq_some_iff, Prod.exists] at h
        obtain ⟨r, x, hcall, rs', g', hrest, h⟩ := h
        cases h
        obtain ⟨hrun, hevents⟩ := ih (fun e he => hcheck e (List.mem_cons_of_mem _ he)) hrest
        refine ⟨.cons ⟨hcheck e (List.mem_cons_self ..) f hpass, call_step hcall⟩ hrun, ?_⟩
        rw [List.map_cons, hevents]
      · cases h

theorem nextNew_of_checks (h : checksNext X s = true) : NextNew X s := by
  simp only [checksNext, Bool.and_eq_true, Bool.not_eq_true', Option.isNone_iff_eq_none] at h
  refine ⟨fun v hev => ?_, h.1.2, h.2⟩
  rw [h.1.1] at hev
  cases hev

theorem takesNew_of_checks (h : checksTaken X key value s = true) : TakesNew X key value s := by
  unfold checksTaken at h
  split at h
  · cases h
  rename_i page t hfix
  split at h
  · cases h
  rename_i p u hroom
  rw [Outcome.value?_eq_some] at hfix hroom
  simp only [Bool.and_eq_true, Bool.or_eq_true, Bool.not_eq_true'] at h
  obtain ⟨hleaf, hsplits⟩ := h
  have hvisited : LeafVisited key value s page p t u := ⟨hfix, hroom, hleaf⟩
  intro v hasks
  cases hasks with
  | split hvisit hfull =>
      obtain ⟨-, rfl, rfl⟩ := hvisited.visits hvisit
      exact nextNew_of_checks (hsplits.resolve_left (by simp [hfull])).1
  | root hvisit hfull hnext hsplit =>
      obtain ⟨-, rfl, rfl⟩ := hvisited.visits hvisit
      have hsecond := (hsplits.resolve_left (by simp [hfull])).2
      rw [hnext] at hsecond
      simp only [Outcome.value?] at hsecond
      rw [hsplit] at hsecond
      exact nextNew_of_checks (by simpa using hsecond)

/-- The row of an insert is a row of a table. -/
def ForestEvent.IsRow : ForestEvent → Prop
  | .insert _ key value =>
      KeyEncoded PAGE_FLAG_TABLE key.bytes ∧ ValueEncoded PAGE_FLAG_TABLE value.bytes
  | _ => True

theorem proper_of_checks (hrow : e.IsRow) (h : f.checksProper e = true) : f.Proper e := by
  cases e with
  | create type =>
      rw [Forest.checksProper, Bool.and_eq_true, decide_eq_true_eq] at h
      exact ⟨Or.inl h.1, nextNew_of_checks h.2⟩
  | insert index key value =>
      intro tree type htree
      rw [Forest.checksProper, htree, Option.all_some, Bool.and_eq_true, decide_eq_true_eq] at h
      obtain ⟨rfl, htaken⟩ := h
      exact ⟨hrow.1, hrow.2, takesNew_of_checks htaken⟩
  | _ => trivial

theorem uncompacted_of_checks (hrow : e.IsRow) (h : f.checksSpace e = true) : f.Uncompacted e := by
  cases e with
  | insert index key value =>
      intro tree type htree
      rw [Forest.checksSpace, htree, Option.all_some] at h
      exact (insertable_of_checksLeaf hrow.1 hrow.2 h).space
  | _ => trivial

end

/-- A process that has just opened a pager, with memory full of the byte. -/
def filledSys (pageSize directorySize : Nat) (byte : UInt8) : Sys :=
  { freshSys pageSize directorySize with heap := ⟨fun _ => false, fun _ _ => byte, 0, []⟩ }

/-- Trees and rows of the first of them, and a lookup. -/
def plantRows (trees : Nat) (rows : List (Nat × Nat)) (id : Nat) : List ForestEvent :=
  List.replicate trees (.create PAGE_FLAG_TABLE) ++
    rows.map (fun row => .insert 0 (sizedRow row.1 row.2).1 (sizedRow row.1 row.2).2) ++
    [.lookup 0 (sizedRow id 0).1]

section

variable {trees id : Nat} {rows : List (Nat × Nat)} {P : Forest → ForestEvent → Prop}

theorem plantRows_isRow (hrows : ∀ row ∈ rows, row.1 < 128 ∧ row.2 < 128) {e : ForestEvent}
    (he : e ∈ plantRows trees rows id) : e.IsRow := by
  simp only [plantRows, List.mem_append, List.mem_replicate, List.mem_map, List.mem_singleton] at he
  obtain (⟨-, rfl⟩ | ⟨row, hrow, rfl⟩) | rfl := he
  · trivial
  · exact sizedRow_encoded (hrows row hrow).1 (hrows row hrow).2
  · trivial

/-- What the calls report in a process whose memory is full of the byte. -/
theorem exists_plantRows (check : Forest → ForestEvent → Bool) (byte : UInt8) (trees : Nat)
    (rows : List (Nat × Nat)) (id : Nat) (reports : List Report)
    (hcheck : ∀ e : ForestEvent, e.IsRow → ∀ f, check f e = true → P f e)
    (hrows : ∀ row ∈ rows, row.1 < 128 ∧ row.2 < 128)
    (h : ((Forest.clear (filledSys 40 16 byte)).calls check 2 (plantRows trees rows id)).map
      (fun r => r.1.map Prod.snd) = some reports) :
    ∃ es f, Run (fun f e g => P f e.1 ∧ ForestStep f e g) (.clear (filledSys 40 16 byte)) es f ∧
      es.map Prod.fst = plantRows trees rows id ∧ es.map Prod.snd = reports := by
  obtain ⟨⟨es, f⟩, hcalls, hreports⟩ := Option.map_eq_some_iff.mp h
  obtain ⟨hrun, hevents⟩ :=
    Forest.calls_run (fun e he => hcheck e (plantRows_isRow hrows he)) hcalls
  exact ⟨es, f, hrun, hevents, hreports⟩

end

theorem pagerUsed_filledSys (byte : UInt8) : PagerUsed (filledSys 40 16 byte) :=
  ⟨_, [], _, ⟨40, 16, ⟨0, 1, 2⟩, freshSys 40 16, _, by decide, rfl⟩, .nil _, rfl⟩

/-- A leaf is split, and its rows are found, whatever the frames held. -/
theorem recycled_frames_never_show_once :
    ∃ es, es.map Prod.snd = [.done, .done, .done, .done, .value [2, 1, 1]] ∧
    (∃ g, Run ForestStep (.clear (filledSys 40 16 2)) es g) ∧
      ∀ es' g, Run ForestStep (.clear (filledSys 40 16 2)) es' g →
        es'.map Prod.fst = es.map Prod.fst → es' = es := by
  obtain ⟨es, f, hrun, -, hreports⟩ := exists_plantRows
    (fun f e => f.checksProper e && f.checksSpace e) 0 1 [(1, 18), (3, 0), (2, 2)] 2
    [.done, .done, .done, .done, .value [2, 1, 1]] (P := fun f e => f.Proper e ∧ f.Uncompacted e)
    (fun e hrow f h => ⟨proper_of_checks hrow (Bool.and_eq_true_iff.mp h).1,
      uncompacted_of_checks hrow (Bool.and_eq_true_iff.mp h).2⟩) (by decide) (by decide +kernel)
  exact ⟨es, hreports, recycled_frames_never_show (pagerUsed_filledSys 0) rfl
    (by decide) (by decide) hrun⟩

/-- A page that is compacted to take a row has a slot that points past its frame. -/
theorem compacted_page_shows_memory : ¬ ∀ (s t : Sys) (es es' : List (ForestEvent × Report))
    (f g : Forest), PagerUsed s → t.bare = s.bare → sizeofHeader ≤ s.pager.pageSize →
    s.pager.pageSize < 65536 →
    Run ProperStep (.clear s) es f → Run ProperStep (.clear t) es' g →
      es'.map Prod.fst = es.map Prod.fst →
    es' = es := by
  intro h
  have hcheck (e : ForestEvent) (hrow : e.IsRow) (f : Forest)
      (hpass : f.checksProper e = true) : f.Proper e :=
    proper_of_checks hrow hpass
  obtain ⟨es, f, hrun, hevents, hreports⟩ :=
    exists_plantRows Forest.checksProper 0 2 [(2, 8), (3, 8), (1, 13)] 2
    [.done, .done, .done, .done, .done, .failed ENOENT] hcheck (by decide) (by decide +kernel)
  obtain ⟨es', g, hrun', hevents', hreports'⟩ :=
    exists_plantRows Forest.checksProper 2 2 [(2, 8), (3, 8), (1, 13)] 2
    [.done, .done, .done, .done, .done, .value [2, 2, 2]] hcheck (by decide) (by decide +kernel)
  obtain rfl := h (filledSys 40 16 0) (filledSys 40 16 2) es es' f g
      (pagerUsed_filledSys 0) rfl (by decide)
    (by decide) hrun hrun' (hevents'.trans hevents.symm)
  rw [hreports] at hreports'
  cases hreports'

end Wednesday
