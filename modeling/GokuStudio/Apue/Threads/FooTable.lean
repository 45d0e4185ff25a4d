import GokuStudio.Lib.Runs
import GokuStudio.Lib.Walk

/-!
# Objects with reference counts in a hash table (`fig11_12.c`)

`foo_alloc` means to put the new object in front of its hash chain, but then sets
the chain back to what followed: `fh[idx] = fp->f_next`. The object is in no chain,
so `foo_find` never finds it, and the last `foo_rele` runs off the chain
(`release_crashes`).

`right_iff`: from any table that is right, the table stays right all along exactly if
no `foo_alloc` succeeds and no count goes over the range of an `int`. `foo_hold`,
`foo_find` and `foo_rele` do what they should on every such table.
-/

namespace GokuStudio.Apue.Threads

open Lib List Option
open Function (update update_apply update_eq_self update_of_ne update_self)

def nhash : Nat := 29

/-- `HASH(fp)` -/
def hash (fp : Nat) : Nat := fp % nhash

def intMax : Int := 2147483647

structure Foo where
  fCount : Int
  fNext : Nat
  fId : Int
deriving DecidableEq, Repr

/-- `fh`, the objects in memory, and the references that threads have, as pairs of a
thread and an object. -/
structure FooTable where
  fh : Nat → Nat
  mem : Nat → Option Foo
  refs : List (Nat × Nat)

variable {pre post : List Nat}

namespace FooTable

def init : FooTable := ⟨fun _ => 0, fun _ => none, []⟩

section
variable (s : FooTable) (fp : Nat)

def next : Option Nat := (s.mem fp).map (·.fNext)

def store (foo : Foo) : FooTable :=
  { s with mem := update s.mem fp (some foo) }

def free : FooTable := { s with mem := update s.mem fp none }

/-- `fp` is what `malloc` returns, `ok` whether `pthread_mutex_init` succeeds, and
`id` what is in `f_id` after the initialization. -/
def fooAlloc (ok : Bool) (id : Int) : FooTable × Nat :=
  if fp = 0 ∨ ok = false then (s, 0)
  else
    let idx := hash fp
    let foo : Foo := ⟨1, s.fh idx, id⟩
    let s := s.store fp foo
    ({ s with fh := update s.fh idx foo.fNext }, fp)

def fooHold : Option FooTable := do
  let foo ← s.mem fp
  if foo.fCount = intMax then none
  else some (s.store fp { foo with fCount := foo.fCount + 1 })

def hasId (id : Int) (fp : Nat) : Bool := (s.mem fp).any (·.fId == id)

/-- The pointer whose hash is taken is not set yet: `idx` is any index. -/
def fooFind (id : Int) (idx : Nat) : Option (FooTable × Nat) := do
  let fp ← walk s.next (s.hasId id) (s.fh idx)
  if fp = 0 then return (s, 0)
  let s ← s.fooHold fp
  return (s, fp)

/-- The object leaves its chain. -/
def unlink : Option FooTable := do
  let idx := hash fp
  let tfp := s.fh idx
  let foo ← s.mem fp
  if tfp = fp then some { s with fh := update s.fh idx foo.fNext }
  else do
    let tfp ← seek s.next (· == fp) tfp
    let before ← s.mem tfp
    some (s.store tfp { before with fNext := foo.fNext })

def fooRele : Option FooTable := do
  let foo ← s.mem fp
  let s := s.store fp { foo with fCount := foo.fCount - 1 }
  if foo.fCount - 1 = 0 then do
    let s ← s.unlink fp
    return s.free fp
  else return s

inductive Event where
  | alloc (t fp : Nat) (ok : Bool) (id : Int)
  | hold (t fp : Nat)
  | find (t : Nat) (id : Int) (idx : Nat)
  | rele (t fp : Nat)
deriving DecidableEq, Repr

/-- Thread `t` has got the reference `fp`, if it is not `NULL`. -/
def got (t fp : Nat) (s : FooTable) : FooTable :=
  if fp = 0 then s else { s with refs := (t, fp) :: s.refs }

def step : Event → Option FooTable
  | .alloc t fp ok id => some (got t (s.fooAlloc fp ok id).2 (s.fooAlloc fp ok id).1)
  | .hold t fp => (s.fooHold fp).map (got t fp)
  | .find t id idx => (s.fooFind id idx).map fun r => got t r.2 r.1
  | .rele t fp => (s.fooRele fp).map fun s => { s with refs := s.refs.erase (t, fp) }

/-- `malloc` returns memory that is not in use, a reference is added to an object
that exists, and a thread releases a reference that it has. -/
def Proper : Event → Prop
  | .alloc _ fp _ _ => s.mem fp = none
  | .hold _ fp => s.mem fp ≠ none
  | .find _ _ idx => idx < nhash
  | .rele t fp => (t, fp) ∈ s.refs

instance (s : FooTable) : ∀ e, Decidable (s.Proper e)
  | .alloc _ fp _ _ => inferInstanceAs (Decidable (s.mem fp = none))
  | .hold _ fp => inferInstanceAs (Decidable (s.mem fp ≠ none))
  | .find _ _ idx => inferInstanceAs (Decidable (idx < nhash))
  | .rele t fp => inferInstanceAs (Decidable ((t, fp) ∈ s.refs))

/-- The pointer cells of a chain; `fh[idx]` is cell 0. -/
def cells (idx a : Nat) : Option Nat := if a = 0 then some (s.fh idx) else s.next a

/-- The chain of an index is made of the objects with this hash, each once. -/
def Chained (xs : Nat → List Nat) : Prop := ∀ idx, idx < nhash → Chain (s.cells idx) 0 (xs idx) ∧
    ∀ fp, fp ∈ xs idx ↔ s.mem fp ≠ none ∧ hash fp = idx

/-- The objects in the chains are those that threads have references to, and they
count them. -/
structure Right : Prop where
  chains : ∃ xs, s.Chained xs
  count : ∀ fp foo, s.mem fp = some foo → 0 < foo.fCount ∧ foo.fCount = (s.refs.countP (·.2 == fp) : Nat)
  refs : ∀ r ∈ s.refs, s.mem r.2 ≠ none

/-- No object is allocated, and the count of the object that gets a reference is in
range. -/
def Fits : Event → Prop
  | .alloc _ fp ok _ => fp = 0 ∨ ok = false
  | .hold _ fp => ∀ foo ∈ s.mem fp, foo.fCount ≠ intMax
  | .find _ id idx => ∀ fp ∈ walk s.next (s.hasId id) (s.fh idx), ∀ foo ∈ s.mem fp, foo.fCount ≠ intMax
  | .rele _ _ => True

end

/-! ## The chains -/

section Chains
variable {s s' : FooTable} {xs : Nat → List Nat} {fp a idx : Nat} {foo : Foo}

theorem cells_zero : s.cells idx 0 = some (s.fh idx) := if_pos rfl
theorem cells_of_ne (ha : a ≠ 0) : s.cells idx a = s.next a := if_neg ha

theorem mem_ne_none_iff : s.mem a ≠ none ↔ s.next a ≠ none := by
  rw [next]
  simp

theorem Chained.ne_zero (h : s.Chained xs) (hfp : s.mem fp ≠ none) : fp ≠ 0 := by
  obtain ⟨hchain, hmem⟩ := h (hash fp) (Nat.mod_lt _ (by decide))
  exact hchain.ne_zero ((hmem fp).mpr ⟨hfp, rfl⟩)

theorem Chained.congr (h : s.Chained xs) (hfh : s'.fh = s.fh) (hnext : s'.next = s.next) : s'.Chained xs := by
  intro idx hidx
  obtain ⟨hchain, hmem⟩ := h idx hidx
  have hcells : s'.cells idx = s.cells idx := by
    funext a
    rw [cells, cells, hfh, hnext]
  refine ⟨hcells ▸ hchain, fun fp => ?_⟩
  rw [hmem, mem_ne_none_iff, mem_ne_none_iff, hnext]

theorem next_store : (s.store fp foo).next = update s.next fp (some foo.fNext) :=
  funext (Function.apply_update (fun _ => Option.map _) s.mem fp (some foo))

/-- Only a change of `f_next` is seen by the chains. -/
theorem next_store_same (foo' : Foo) (hmem : s.mem fp = some foo) (hnext : foo'.fNext = foo.fNext) :
    (s.store fp foo').next = s.next := by
  have hself : s.next fp = some foo'.fNext := by
    rw [next, hmem, hnext]
    rfl
  rw [next_store, ← hself, update_eq_self]

theorem mem_store : (s.store fp foo).mem a = if a = fp then some foo else s.mem a := update_apply ..
theorem mem_free : (s.free fp).mem a = if a = fp then none else s.mem a := update_apply ..

theorem cells_free (ha : a ≠ fp) : (s.free fp).cells idx a = s.cells idx a := by
  rw [cells, cells, next, next, mem_free, if_neg ha]
  rfl

variable (h : s.Chained xs)
include h

/-- An object leaves its chain: the cell that points to it points behind it, no other
cell changes, and the object is freed. -/
theorem Chained.erase (hxs : xs (hash fp) = pre ++ fp :: post)
    (hcell : s'.cells (hash fp) (lastCell 0 pre) = some (post.headD 0))
    (hsame : ∀ idx a, a ≠ lastCell 0 pre ∨ (a = 0 ∧ idx ≠ hash fp) → s'.cells idx a = s.cells idx a)
    (hmem : ∀ a, s'.mem a = none ↔ s.mem a = none) :
    (s'.free fp).Chained (update xs (hash fp) (pre ++ post)) := by
  obtain ⟨hchain, hiff⟩ := h (hash fp) (Nat.mod_lt _ (by decide))
  rw [hxs] at hchain hiff
  have hfree : ∀ a, (s'.free fp).mem a ≠ none ↔ s.mem a ≠ none ∧ a ≠ fp := by
    intro a
    rw [mem_free]
    split
    · rename_i ha
      simp [ha]
    rename_i ha
    rw [Ne, hmem]
    simp [ha]
  have hfp0 : fp ≠ 0 := hchain.ne_zero (by simp)
  have h0 : 0 ∉ pre ++ fp :: post := fun h0 => hchain.ne_zero h0 rfl
  intro idx hidx
  by_cases hi : idx = hash fp
  · subst hi
    rw [update_self]
    refine ⟨hchain.unlink h0 ?_ fun x hx hne => ?_, fun x => ?_⟩
    · rw [cells_free (hchain.lastCell_ne h0), hcell]
      exact ((chain_append.mp hchain).2.2.2.head).symm
    · have hxfp : x ≠ fp := by
        rintro rfl
        rcases mem_cons.mp hx with hx | hx
        · exact hfp0 hx
        · exact (nodup_middle.mp hchain.nodup).notMem hx
      rw [cells_free hxfp, hsame _ _ (.inl hne)]
    · rw [mem_unlink_iff hchain.nodup, hiff, hfree]
      tauto
  · -- the other chains have other objects
    obtain ⟨hchain', hiff'⟩ := h idx hidx
    rw [update_of_ne hi]
    refine ⟨hchain'.congr fun x hx => ?_, fun x => ?_⟩
    · rcases mem_cons.mp hx with rfl | hx
      · rw [cells_free hfp0.symm, hsame _ _ (.inr ⟨rfl, hi⟩)]
      have hhash := ((hiff' x).mp hx).2
      have hxfp : x ≠ fp := fun he => hi (hhash.symm.trans (congrArg hash he))
      have hxl : x ≠ lastCell 0 pre := by
        rintro rfl
        rcases mem_cons.mp (lastCell_mem 0 pre) with hl | hl
        · exact hchain'.ne_zero hx hl
        · exact hi (hhash.symm.trans ((hiff _).mp (mem_append_left _ hl)).2)
      rw [cells_free hxfp, hsame _ _ (.inl hxl)]
    · rw [hiff', hfree]
      constructor
      · rintro ⟨hx, hhash⟩
        exact ⟨⟨hx, fun he => hi (hhash.symm.trans (congrArg hash he))⟩, hhash⟩
      · rintro ⟨⟨hx, -⟩, hhash⟩
        exact ⟨hx, hhash⟩

/-- An object has been taken off its chain and can be freed; nothing else has changed. -/
structure Unlinked (s : FooTable) (fp : Nat) (s' : FooTable) : Prop where
  chained : ∃ xs, (s'.free fp).Chained xs
  refs : s'.refs = s.refs
  count : ∀ a, (s'.mem a).map Foo.fCount = (s.mem a).map Foo.fCount

theorem Chained.chain_of_split (hxs : xs (hash fp) = pre ++ fp :: post) :
    Chain (s.cells (hash fp)) 0 (pre ++ fp :: post) :=
  hxs ▸ (h (hash fp) (Nat.mod_lt _ (by decide))).1

theorem Chained.fh_eq (fp : Nat) : s.fh (hash fp) = (xs (hash fp)).headD 0 := by
  have hhead := (h (hash fp) (Nat.mod_lt _ (by decide))).1.head
  rw [cells_zero] at hhead
  exact some.inj hhead

section
variable (hfp : s.mem fp = some foo)
include hfp

theorem Chained.fNext_eq (hxs : xs (hash fp) = pre ++ fp :: post) : foo.fNext = post.headD 0 := by
  have hchain := h.chain_of_split hxs
  have hbehind := (chain_append.mp hchain).2.2.2.head
  rw [cells_of_ne (hchain.ne_zero (by simp)), next, hfp] at hbehind
  exact some.inj hbehind

/-- The first object of its chain: `foo_rele` moves the head. -/
theorem Chained.unlink_first (hxs : xs (hash fp) = [] ++ fp :: post) :
    ∃ s', s.unlink fp = some s' ∧ s.Unlinked fp s' := by
  have hfirst : s.fh (hash fp) = fp := by
    rw [h.fh_eq, hxs]
    rfl
  have hcell : ∀ idx a, a ≠ 0 ∨ (a = 0 ∧ idx ≠ hash fp) →
      { s with fh := update s.fh (hash fp) foo.fNext }.cells idx a = s.cells idx a := by
    rintro idx a (ha | ⟨rfl, hidx⟩)
    · rw [cells_of_ne ha, cells_of_ne ha]
      rfl
    · rw [cells_zero, cells_zero]
      exact congrArg some (update_of_ne hidx ..)
  refine ⟨{ s with fh := update s.fh (hash fp) foo.fNext }, ?_,
    ⟨_, h.erase hxs ?_ hcell fun _ => Iff.rfl⟩, rfl, fun _ => rfl⟩
  · rw [FooTable.unlink, hfp]
    simp [hfirst]
  · change FooTable.cells _ (hash fp) 0 = _
    rw [cells_zero, h.fNext_eq hfp hxs]
    exact congrArg some (update_self ..)

/-- An object behind others: the loop of `foo_rele` finds the one before it. -/
theorem Chained.unlink_behind {x : Nat} (hxs : xs (hash fp) = x :: pre ++ fp :: post) :
    ∃ s', s.unlink fp = some s' ∧ s.Unlinked fp s' := by
  have hchain := h.chain_of_split hxs
  have hfirst : s.fh (hash fp) = x := by
    rw [h.fh_eq, hxs]
    rfl
  obtain ⟨hxfp, hlast0, -, hlastptr, hseek⟩ := hchain.seek_node (fun _ => cells_of_ne) fun _ _ => beq_iff_eq
  obtain ⟨before, hbefore, -⟩ := map_eq_some_iff.mp hlastptr
  -- the store keeps every field but `f_next`
  have hmem : ∀ a, ((s.store (lastCell x pre) { before with fNext := foo.fNext }).mem a).map
      Foo.fCount = (s.mem a).map Foo.fCount := by
    intro a
    rw [mem_store]
    split
    · rename_i ha
      simp [ha, hbefore]
    · rfl
  refine ⟨s.store (lastCell x pre) { before with fNext := foo.fNext }, ?_,
    ⟨_, h.erase hxs ?_ (fun idx a ha => ?_) fun a => ?_⟩, rfl, hmem⟩
  · rw [FooTable.unlink, hfp]
    simp [hfirst, hxfp, hseek, hbefore]
  · change FooTable.cells _ (hash fp) (lastCell x pre) = _
    rw [cells_of_ne hlast0, next_store, update_self, h.fNext_eq hfp hxs]
  · by_cases ha0 : a = 0
    · rw [ha0, cells_zero, cells_zero]
      rfl
    · have hal : a ≠ lastCell x pre := ha.resolve_right fun h0 => ha0 h0.1
      rw [cells_of_ne ha0, cells_of_ne ha0, next_store, update_of_ne hal]
  · rw [← map_eq_none_iff, hmem, map_eq_none_iff]

end

omit h

theorem Chained.unlink (h : s.Chained xs) (hfp : s.mem fp = some foo) :
    ∃ s', s.unlink fp = some s' ∧ s.Unlinked fp s' := by
  have hiff := (h (hash fp) (Nat.mod_lt _ (by decide))).2
  obtain ⟨pre, post, hxs⟩ := append_of_mem ((hiff fp).mpr ⟨by rw [hfp]; simp, rfl⟩)
  cases pre with
  | nil => exact h.unlink_first hfp hxs
  | cons x pre => exact h.unlink_behind hfp hxs

end Chains

/-! ## The counts -/

section Counts
variable {s s' : FooTable} {t fp idx : Nat} {foo : Foo} {id : Int} {ok : Bool}

theorem Right.ne_zero (h : s.Right) (hfp : s.mem fp ≠ none) : fp ≠ 0 := by
  obtain ⟨xs, hxs⟩ := h.chains
  exact hxs.ne_zero hfp

theorem countP_erase_self (hr : (t, fp) ∈ s.refs) :
    (s.refs.erase (t, fp)).countP (·.2 == fp) + 1 = s.refs.countP (·.2 == fp) := by
  rw [(perm_cons_erase hr).countP_eq, countP_cons_of_pos (by simp)]

theorem countP_erase_of_ne {a : Nat} (hr : (t, fp) ∈ s.refs) (ha : a ≠ fp) :
    (s.refs.erase (t, fp)).countP (·.2 == a) = s.refs.countP (·.2 == a) := by
  rw [(perm_cons_erase hr).countP_eq, countP_cons_of_neg (by simpa using Ne.symm ha)]

theorem fooFind_some (hfp : fp ≠ 0) (hwalk : walk s.next (s.hasId id) (s.fh idx) = some fp) :
    s.fooFind id idx = (s.fooHold fp).map (·, fp) := by
  rw [fooFind, hwalk]
  simp only [bind_eq_bind, bind_some, if_neg hfp]
  cases s.fooHold fp <;> rfl

/-- `fh[idx]` is set to what it was. -/
theorem fooAlloc_eq (h : ¬ (fp = 0 ∨ ok = false)) :
    s.fooAlloc fp ok id = (s.store fp ⟨1, s.fh (hash fp), id⟩, fp) := by
  rw [fooAlloc, if_neg h]
  dsimp only
  rw [show (s.store fp ⟨1, s.fh (hash fp), id⟩).fh = s.fh from rfl, update_eq_self]
  rfl

variable (hfp : s.mem fp = some foo)
include hfp

theorem fooHold_eq : s.fooHold fp = if foo.fCount = intMax then none
      else some (s.store fp { foo with fCount := foo.fCount + 1 }) := by
  rw [fooHold, hfp]
  rfl

theorem hold_fits (hrun : s.fooHold fp = some s') : foo.fCount ≠ intMax := by
  intro hmax
  rw [fooHold_eq hfp, if_pos hmax] at hrun
  simp at hrun

variable (h : s.Right)
include h

/-- The count of one object changes, with its references. -/
theorem Right.recount {n : Int} (refs : List (Nat × Nat))
    (hpos : 0 < n) (hn : n = (refs.countP (·.2 == fp) : Nat))
    (hother : ∀ a, a ≠ fp → refs.countP (·.2 == a) = s.refs.countP (·.2 == a))
    (hrefs : ∀ r ∈ refs, s.mem r.2 ≠ none) :
    { s.store fp { foo with fCount := n } with refs := refs }.Right := by
  obtain ⟨xs, hxs⟩ := h.chains
  have hnext := next_store_same { foo with fCount := n } hfp rfl
  refine ⟨⟨xs, hxs.congr rfl hnext⟩, fun a f ha => ?_, fun r hr => ?_⟩
  · rw [mem_store] at ha
    split at ha
    · rename_i hafp
      rw [hafp, ← some.inj ha]
      exact ⟨hpos, hn⟩
    rename_i hafp
    obtain ⟨hpos', hcount⟩ := h.count a f ha
    refine ⟨hpos', ?_⟩
    rw [hcount]
    exact congrArg Nat.cast (hother a hafp).symm
  · rw [mem_store]
    split
    · simp
    · exact hrefs r hr

theorem Right.hold (hmax : foo.fCount ≠ intMax) : ∃ s', s.fooHold fp = some s' ∧ (got t fp s').Right := by
  have hfp0 : fp ≠ 0 := h.ne_zero (by rw [hfp]; simp)
  obtain ⟨hpos, hcount⟩ := h.count fp foo hfp
  refine ⟨_, by rw [fooHold_eq hfp, if_neg hmax], ?_⟩
  rw [got, if_neg hfp0]
  refine h.recount hfp ((t, fp) :: s.refs) (by omega) ?_ (fun a ha => ?_) (fun r hr => ?_)
  · rw [countP_cons_of_pos (by simp), hcount]
    push_cast
    rfl
  · rw [countP_cons_of_neg (by simpa using Ne.symm ha)]
  · rcases mem_cons.mp hr with rfl | hr
    · rw [hfp]
      simp
    · exact h.refs r hr

/-- The last reference goes, and the object with it. -/
theorem Right.free (hr : (t, fp) ∈ s.refs)
    (hlast : foo.fCount - 1 = 0) :
    ∃ s', s.fooRele fp = some s' ∧ { s' with refs := s'.refs.erase (t, fp) }.Right := by
  obtain ⟨xs, hxs⟩ := h.chains
  have hnext := next_store_same { foo with fCount := foo.fCount - 1 } hfp rfl
  have hxs1 : (s.store fp { foo with fCount := foo.fCount - 1 }).Chained xs := hxs.congr rfl hnext
  obtain ⟨s2, hun, hxs', hrefs2, hmem2⟩ := hxs1.unlink (by rw [mem_store, if_pos rfl])
  have hcount := (h.count fp foo hfp).2
  have hnone : (s.refs.erase (t, fp)).countP (·.2 == fp) = 0 := by
    have := countP_erase_self hr
    omega
  -- other objects are as before, but for `f_next`
  have hother : ∀ a, a ≠ fp → (s2.mem a).map Foo.fCount = (s.mem a).map Foo.fCount := by
    intro a ha
    rw [hmem2, mem_store, if_neg ha]
  refine ⟨s2.free fp, ?_, ⟨hxs', fun a f ha => ?_, fun r hr' => ?_⟩⟩
  · rw [fooRele, hfp]
    simp only [bind_eq_bind, bind_some, if_pos hlast, hun]
    rfl
  · rw [mem_free] at ha
    split at ha
    · simp at ha
    rename_i hafp
    have hc := hother a hafp
    rw [ha] at hc
    obtain ⟨f0, hf0, hcf⟩ := map_eq_some_iff.mp hc.symm
    obtain ⟨hpos', hcount'⟩ := h.count a f0 hf0
    rw [← hcf]
    refine ⟨hpos', hcount'.trans ?_⟩
    rw [show (s2.free fp).refs = s.refs from hrefs2, countP_erase_of_ne hr hafp]
  · rw [show (s2.free fp).refs = s.refs from hrefs2] at hr'
    have hrfp : r.2 ≠ fp := by
      intro he
      have := countP_eq_zero.mp hnone r hr'
      simp [he] at this
    rw [mem_free, if_neg hrfp]
    have hc := hother r.2 hrfp
    intro hn
    rw [hn] at hc
    exact h.refs r (mem_of_mem_erase hr') (by simpa using hc.symm)

omit hfp

theorem Right.release (hr : (t, fp) ∈ s.refs) :
    ∃ s', s.fooRele fp = some s' ∧ { s' with refs := s'.refs.erase (t, fp) }.Right := by
  obtain ⟨foo, hfp⟩ := ne_none_iff_exists'.mp (h.refs _ hr)
  obtain ⟨hpos, hcount⟩ := h.count fp foo hfp
  by_cases hlast : foo.fCount - 1 = 0
  · exact h.free hfp hr hlast
  refine ⟨s.store fp { foo with fCount := foo.fCount - 1 }, ?_, ?_⟩
  · rw [fooRele, hfp]
    simp [hlast]
  · refine h.recount hfp _ (by omega) ?_ (fun a => countP_erase_of_ne hr) fun r hr' =>
      h.refs r (mem_of_mem_erase hr')
    change foo.fCount - 1 = ((s.refs.erase (t, fp)).countP (·.2 == fp) : Nat)
    have := countP_erase_self hr
    omega

/-- The loop of `foo_find` ends, with `NULL` or an object. -/
theorem Right.walk_eq (id : Int) (hidx : idx < nhash) : walk s.next (s.hasId id) (s.fh idx) = some 0 ∨
      ∃ fp foo, walk s.next (s.hasId id) (s.fh idx) = some fp ∧ s.mem fp = some foo := by
  obtain ⟨xs, hxs⟩ := h.chains
  obtain ⟨hchain, hiff⟩ := hxs idx hidx
  have hwalk := walk_chain (s.hasId id) hchain (fun a ha => (cells_of_ne (hchain.ne_zero ha)).symm) cells_zero
  rw [hwalk]
  cases hf : (xs idx).find? (s.hasId id) with
  | none => exact .inl rfl
  | some fp =>
    have hmem := ((hiff fp).mp (mem_of_find?_eq_some hf)).1
    obtain ⟨foo, hfoo⟩ := ne_none_iff_exists'.mp hmem
    exact .inr ⟨fp, foo, rfl, hfoo⟩

theorem Right.find (hidx : idx < nhash) (hfits : s.Fits (.find t id idx)) :
    ∃ s', s.step (.find t id idx) = some s' ∧ s'.Right := by
  rw [step]
  rcases h.walk_eq id hidx with hwalk | ⟨fp, foo, hwalk, hfoo⟩
  · exact ⟨s, by rw [fooFind, hwalk]; rfl, h⟩
  have hfp : fp ≠ 0 := h.ne_zero (by rw [hfoo]; simp)
  obtain ⟨s', hrun, hs'⟩ := h.hold hfoo (hfits fp hwalk foo hfoo)
  exact ⟨_, by rw [fooFind_some hfp hwalk, hrun]; rfl, hs'⟩

theorem Right.find_fits (hrun : s.step (.find t id idx) = some s') : s.Fits (.find t id idx) := by
  intro fp hwalk foo hfoo
  have hfp : fp ≠ 0 := h.ne_zero (by rw [mem_def.mp hfoo]; simp)
  rw [step, fooFind_some hfp hwalk] at hrun
  cases hh : s.fooHold fp with
  | none => simp [hh] at hrun
  | some s1 => exact hold_fits hfoo hh

/-- An object that is allocated is in no chain. -/
theorem Right.alloc_fits (hfp : s.mem fp = none)
    (h' : (got t (s.fooAlloc fp ok id).2 (s.fooAlloc fp ok id).1).Right) : fp = 0 ∨ ok = false := by
  by_contra hne
  have hfp0 : fp ≠ 0 := fun he => hne (.inl he)
  rw [fooAlloc_eq hne, got, if_neg hfp0] at h'
  obtain ⟨xs, hxs⟩ := h.chains
  obtain ⟨xs', hxs'⟩ := h'.chains
  have hlt : hash fp < nhash := Nat.mod_lt _ (by decide)
  obtain ⟨hchain, hiff⟩ := hxs (hash fp) hlt
  obtain ⟨hchain', hiff'⟩ := hxs' (hash fp) hlt
  have hsame : Chain ((s.store fp ⟨1, s.fh (hash fp), id⟩).cells (hash fp)) 0 (xs (hash fp)) := by
    refine hchain.congr fun a ha => ?_
    rcases mem_cons.mp ha with rfl | ha
    · rfl
    have hafp : a ≠ fp := fun he => ((hiff a).mp ha).1 (he ▸ hfp)
    have ha0 := hchain.ne_zero ha
    rw [cells_of_ne ha0, cells_of_ne ha0, next_store, update_of_ne hafp]
  have hin : fp ∈ xs' (hash fp) := by
    refine (hiff' fp).mpr ⟨?_, rfl⟩
    rw [mem_store, if_pos rfl]
    simp
  rw [hchain'.unique hsame] at hin
  exact ((hiff fp).mp hin).1 hfp

end Counts

/-- From a table that is right, all tables of a run are right if and only if no
`foo_alloc` succeeds and no count goes out of range. -/
theorem right_iff {s : FooTable} {es : List Event} (hs : s.Right) (hproper : MeetsPartial step Proper s es) :
    AlongPartial step Right s es ↔ MeetsPartial step Fits s es := by
  refine alongPartial_iff_meets (fun s e h hV hF => ?_) (fun s e s' h hV hrun hP => ?_) hs hproper
  · cases e with
    | alloc t fp ok id =>
      refine ⟨s, ?_, h⟩
      have hfail : s.fooAlloc fp ok id = (s, 0) := if_pos hF
      rw [step, hfail]
      rfl
    | hold t fp =>
      obtain ⟨foo, hfoo⟩ := ne_none_iff_exists'.mp hV
      obtain ⟨s', hrun, hs'⟩ := h.hold hfoo (hF foo hfoo)
      exact ⟨_, by rw [step, hrun]; rfl, hs'⟩
    | find t id idx => exact h.find hV hF
    | rele t fp =>
      obtain ⟨s', hrun, hs'⟩ := h.release hV
      exact ⟨_, by rw [step, hrun]; rfl, hs'⟩
  · cases e with
    | alloc t fp ok id =>
      obtain rfl := some.inj hrun
      exact h.alloc_fits hV hP
    | hold t fp =>
      obtain ⟨s₁, hhold, -⟩ := map_eq_some_iff.mp hrun
      exact fun foo hfoo => hold_fits hfoo hhold
    | find t id idx => exact h.find_fits hrun
    | rele t fp => trivial

/-- One object, in its chain, with one reference. -/
def oneFoo : FooTable where
  fh idx := if idx = 13 then 100 else 0
  mem fp := if fp = 100 then some ⟨1, 0, 7⟩ else none
  refs := [(1, 100)]

theorem oneFoo_right : oneFoo.Right where
  chains := by
    refine ⟨fun idx => if idx = 13 then [100] else [], fun idx _ => ?_⟩
    by_cases hidx : idx = 13
    · refine ⟨?_, fun fp => ?_⟩
      · subst hidx
        exact ⟨rfl, by decide, rfl⟩
      · by_cases hfp : fp = 100
        · simp [hidx, hfp, oneFoo, hash, nhash]
        · simp [hidx, hfp, oneFoo]
    · refine ⟨?_, fun fp => ?_⟩
      · simp [Lib.Chain, cells, oneFoo, hidx]
      · by_cases hfp : fp = 100
        · simp [hidx, hfp, oneFoo, hash, nhash, Ne.symm hidx]
        · simp [hidx, hfp, oneFoo]
  count fp foo h := by
    by_cases hfp : fp = 100
    · subst hfp
      obtain rfl := some.inj h
      decide
    · simp [oneFoo, hfp] at h
  refs r hr := by
    rw [mem_singleton.mp hr]
    decide

/-- A second reference is taken, and both are released. -/
theorem right_hold_release : AlongPartial step Right oneFoo [.hold 2 100, .rele 1 100, .rele 2 100] := by
  have hproper : MeetsPartial step Proper oneFoo [.hold 2 100, .rele 1 100, .rele 2 100] := by
    refine ⟨by decide, fun s₁ h₁ => ?_⟩
    obtain rfl := some.inj h₁
    refine ⟨by decide, fun s₂ h₂ => ?_⟩
    obtain rfl := some.inj h₂
    exact ⟨by decide, fun _ _ => trivial⟩
  refine (right_iff oneFoo_right hproper).mpr ⟨fun foo hfoo => ?_, fun _ _ =>
    ⟨trivial, fun _ _ => ⟨trivial, fun _ _ => trivial⟩⟩⟩
  obtain rfl := some.inj hfoo
  decide

theorem unlink_null {s : FooTable} {fp : Nat} (hfp : fp ≠ 0) (hfh : s.fh (hash fp) = 0)
    (hnull : s.mem 0 = none) : s.unlink fp = none := by
  have hseek : seek s.next (· == fp) 0 = none := seek_fail (by rw [next, hnull]; rfl)
  rw [unlink, hfh]
  cases s.mem fp <;> simp [Ne.symm hfp, hseek]

/-- An object is allocated and released, and `foo_rele` follows a null pointer. -/
theorem release_crashes : [Event.alloc 1 100 true 7, .rele 1 100].foldlM step init = none := by
  change (bind (FooTable.unlink _ 100) _).map _ >>= _ = none
  rw [unlink_null (by decide) rfl rfl]
  rfl

end FooTable
end GokuStudio.Apue.Threads
