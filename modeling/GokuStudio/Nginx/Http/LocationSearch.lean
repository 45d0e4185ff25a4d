import GokuStudio.Nginx.Http.LocationQueue
import Mathlib.Data.List.Flatten

/-!
# The search selects the right location

A search goes down the tree and keeps in `rv` what it would return at a leaf. What it has
passed by is accounted for: every location that could still be selected is either among
the elements below, or not better than `rv`. A tree node is one level of the nested
queues, cut in its middle.

This needs the true length of each name part in its node, and a node has one byte for it.
A part of 256 bytes or more is taken for a shorter one, and then there is always a URI
that is answered wrongly.
-/

namespace GokuStudio.Nginx

open Lib List Option

namespace Locations

/-! ## §1 Levels -/

/-- A part of a queue with everything in the lists. -/
def flatten (es : List (Queue × Forest)) : List Queue := es.flatMap fun e => e.1 :: e.2.flat

variable {f : Forest} {xs xs' : List Queue} {ls : List Location} {fuel : Nat} {uri p : Bytes} {q x : Queue}
  {es : List (Queue × Forest)}

@[simp]
theorem flatten_cons (q : Queue) (list : Forest) (es : List (Queue × Forest)) :
    flatten ((q, list) :: es) = q :: (list.flat ++ flatten es) := rfl

@[simp]
theorem flatten_append (es es' : List (Queue × Forest)) :
    flatten (es ++ es') = flatten es ++ flatten es' := flatMap_append

theorem flatten_entries (f : Forest) : flatten f.entries = f.flat := by
  induction f with
  | nil => rfl
  | cons q list next _ ih => rw [Forest.entries, flatten_cons, ih, Forest.flat]

/-- What a subtree for the names behind `p` is built from. -/
structure Level (ls : List Location) (p : Bytes) (es : List (Queue × Forest)) : Prop where
  sorted : (flatten es).Pairwise fun a b => key a.name < key b.name
  valid : ∀ x ∈ flatten es, Valid ls x
  under : ∀ x ∈ flatten es, p <+: x.name
  nested : ∀ e ∈ es, Nested e.2
  inner : ∀ e ∈ es, ∀ x ∈ e.2.flat, e.1.inclusive.isSome ∧ e.1.name <+: x.name
  apart : es.Pairwise fun a b => a.1.inclusive.isSome → ∀ x ∈ b.1 :: b.2.flat, ¬ a.1.name <+: x.name

theorem Level.sublist {es' : List (Queue × Forest)}
    (h : Level ls p es) (hsub : es'.Sublist es) : Level ls p es' := by
  have hflat : (flatten es').Sublist (flatten es) := hsub.flatMap _
  exact ⟨h.sorted.sublist hflat, fun x hx => h.valid x (hflat.mem hx), fun x hx => h.under x (hflat.mem hx),
    fun e he => h.nested e (hsub.mem he), fun e he => h.inner e (hsub.mem he), h.apart.sublist hsub⟩

theorem nested_entries (h : Nested f) : (∀ e ∈ f.entries, Nested e.2) ∧
    (∀ e ∈ f.entries, ∀ x ∈ e.2.flat, e.1.inclusive.isSome ∧ e.1.name <+: x.name) ∧
    f.entries.Pairwise fun a b =>
      a.1.inclusive.isSome → ∀ x ∈ b.1 :: b.2.flat, ¬ a.1.name <+: x.name := by
  induction f with
  | nil => exact ⟨nofun, nofun, .nil⟩
  | cons q list next _ ih =>
    obtain ⟨hin, hout, hlist, hnext⟩ := h
    obtain ⟨ih1, ih2, ih3⟩ := ih hnext
    refine ⟨?_, ?_, pairwise_cons.mpr ⟨?_, ih3⟩⟩
    · exact forall_mem_cons.mpr ⟨hlist, ih1⟩
    · exact forall_mem_cons.mpr ⟨hin, ih2⟩
    · intro e he hincl x hx
      refine hout hincl x ?_
      rw [← flatten_entries]
      exact mem_flatMap.mpr ⟨e, he, hx⟩

theorem level_of_nested (h : Nested f) (hsorted : f.flat.Pairwise fun a b => key a.name < key b.name)
    (hvalid : ∀ x ∈ f.flat, Valid ls x) (hunder : ∀ x ∈ f.flat, p <+: x.name) :
    Level ls p f.entries := by
  obtain ⟨h1, h2, h3⟩ := nested_entries h
  rw [← flatten_entries] at hsorted hvalid hunder
  exact ⟨hsorted, hvalid, hunder, h1, h2, h3⟩

variable {s : Bytes}

section Split
variable {before after : List (Queue × Forest)} {list : Forest}

theorem length_parts (h : (flatten (before ++ (q, list) :: after)).length ≤ fuel + 1) :
    (flatten before).length ≤ fuel ∧ (flatten after).length ≤ fuel ∧ (flatten list.entries).length ≤ fuel := by
  rw [flatten_append, flatten_cons, length_append, length_cons, length_append] at h
  rw [flatten_entries]
  omega

theorem mem_flatten_split : x ∈ flatten (before ++ (q, list) :: after) ↔
    x ∈ flatten before ∨ x = q ∨ x ∈ list.flat ∨ x ∈ flatten after := by
  rw [flatten_append, flatten_cons, mem_append, mem_cons, mem_append]

theorem mem_flatten_mid : q ∈ flatten (before ++ (q, list) :: after) := mem_flatten_split.mpr (.inr (.inl rfl))

variable (h : Level ls p (before ++ (q, list) :: after))
include h

theorem Level.ofList : Level ls q.name list.entries := by
  have hmem : (q, list) ∈ before ++ (q, list) :: after := by simp
  have hsub : list.flat.Sublist (flatten (before ++ (q, list) :: after)) := by
    rw [flatten_append, flatten_cons]
    exact ((sublist_append_left _ _).trans (sublist_cons_self _ _)).trans (sublist_append_right _ _)
  exact level_of_nested (h.nested _ hmem) (h.sorted.sublist hsub) (fun x hx => h.valid x (hsub.mem hx))
    fun x hx => (h.inner _ hmem x hx).2

theorem Level.ofBefore : Level ls p before := h.sublist (sublist_append_left _ _)
theorem Level.ofAfter : Level ls p after := h.sublist ((sublist_cons_self _ _).trans (sublist_append_right _ _))
theorem Level.valid_mid : Valid ls q := h.valid q mem_flatten_mid

theorem Level.text_mid (hname : q.name = p ++ s) : NUL ∉ s :=
  fun hs => h.valid_mid.text (hname ▸ mem_append_right p hs)

theorem Level.before_lt (hx : x ∈ flatten before) : key x.name < key q.name := by
  have hsorted := h.sorted
  rw [flatten_append, pairwise_append] at hsorted
  exact hsorted.2.2 x hx q mem_cons_self

theorem Level.lt_behind (hx : x ∈ list.flat ++ flatten after) : key q.name < key x.name := by
  have hsorted := h.sorted
  rw [flatten_append, pairwise_append] at hsorted
  exact (pairwise_cons.mp hsorted.2.1).1 x hx

theorem Level.list_prefix (hx : x ∈ list.flat) : q.inclusive.isSome ∧ q.name <+: x.name :=
  h.inner (q, list) (by simp) x hx

theorem Level.after_not_prefix (hincl : q.inclusive.isSome) (hx : x ∈ flatten after) : ¬ q.name <+: x.name := by
  have hapart := (pairwise_cons.mp (pairwise_append.mp h.apart).2.1).1
  obtain ⟨e, he, hxe⟩ := mem_flatMap.mp hx
  exact hapart e he hincl x hxe

/-- An element whose list holds another one has a prefix location: this one or the one
it is in the list of. -/
theorem Level.before_not_prefix (hx : x ∈ flatten before) (hincl : x.inclusive.isSome) : ¬ x.name <+: q.name := by
  obtain ⟨e, he, hxe⟩ := mem_flatMap.mp hx
  have hapart := (pairwise_append.mp h.apart).2.2 e he (q, list) mem_cons_self
  rcases mem_cons.mp hxe with rfl | hxe
  · exact hapart hincl q mem_cons_self
  · obtain ⟨hincl', hpre⟩ := h.inner e (mem_append_left _ he) x hxe
    exact fun hxq => hapart hincl' q mem_cons_self (hpre.trans hxq)

end Split

/-! ## §2 Nodes -/

/-- The node of an element, with the part `s` of its name. -/
def nodeOf (q : Queue) (s : Bytes) (left right tree : Tree) : Tree :=
  .node q.exact q.inclusive (q.exact.any (·.autoRedirect) || q.inclusive.any (·.autoRedirect))
    (s.length % 256) s left right tree

/-- The tree for a level: the node in the middle, and the trees for what is before it, behind it
and in its list. -/
inductive Built (ls : List Location) : Bytes → List (Queue × Forest) → Tree → Prop
  | nil {p : Bytes} : Built ls p [] .nil
  | node {p s : Bytes} {before after : List (Queue × Forest)} {q : Queue} {list : Forest} {left right tree : Tree}
      (level : Level ls p (before ++ (q, list) :: after)) (hname : q.name = p ++ s) (hleft : Built ls p before left)
      (hright : Built ls p after right) (htree : Built ls q.name list.entries tree) :
      Built ls p (before ++ (q, list) :: after) (nodeOf q s left right tree)

theorem built_createTree : ∀ {p es}, Level ls p es → (flatten es).length ≤ fuel → Built ls p es (createTree fuel es p.length) := by
  induction fuel with
  | zero =>
    intro p es _ hfuel
    cases es with
    | nil => exact .nil
    | cons e es => exact absurd hfuel (Nat.not_succ_le_zero _)
  | succ fuel ih =>
    intro p es h hfuel
    rw [createTree]
    cases hdrop : es.drop (es.length / 2) with
    | nil =>
      have hes : es = [] := by
        rw [drop_eq_nil_iff] at hdrop
        exact length_eq_zero_iff.mp (by omega)
      subst hes
      exact .nil
    | cons e after =>
      obtain ⟨q, list⟩ := e
      have hsplit : es = es.take (es.length / 2) ++ (q, list) :: after := by
        rw [← hdrop, take_append_drop]
      rw [hsplit] at h hfuel
      obtain ⟨s, hs⟩ := h.under q mem_flatten_mid
      have hlen : q.name.length - p.length = s.length := by
        rw [← hs, length_append, Nat.add_sub_cancel_left]
      have hdrop' : q.name.drop p.length = s := by rw [← hs, drop_left]
      obtain ⟨hbefore, hafter, hlist⟩ := length_parts hfuel
      have hbuilt := Built.node h hs.symm (ih h.ofBefore hbefore) (ih h.ofAfter hafter) (ih h.ofList hlist)
      rw [← hsplit, ← hs, length_append] at hbuilt
      simp only [hlen, hdrop']
      exact hbuilt

section Node
variable {left right tree : Tree} {u : Bytes} {rv : Found} {n : Nat} (hn : s.length % 256 = n)
include hn

theorem find_nodeOf : find (nodeOf q s left right tree) u rv =
    if filenameCmp (min u.length n) u s ≠ 0 then
      if filenameCmp (min u.length n) u s < 0 then find left u rv else find right u rv
    else if n < u.length then
      match q.inclusive with
      | some l => find tree (u.drop (min u.length n)) (.again l)
      | none => find right u rv
    else if u.length = n then
      if q.exact.isSome then select q.exact q.inclusive .ok else select q.exact q.inclusive .again
    else find left u (if u.length + 1 = n ∧ (q.exact.any (·.autoRedirect) || q.inclusive.any (·.autoRedirect)) then
      select q.exact q.inclusive .done else rv) := by
  rw [← hn, Nat.min_def]
  rfl

theorem find_left (h : filenameCmp (min u.length n) u s < 0) :
    find (nodeOf q s left right tree) u rv = find left u rv := by
  rw [find_nodeOf hn, if_pos (Int.ne_of_lt h), if_pos h]

theorem find_right (h : 0 < filenameCmp (min u.length n) u s) :
    find (nodeOf q s left right tree) u rv = find right u rv := by
  rw [find_nodeOf hn, if_pos (Int.ne_of_gt h), if_neg (Int.not_lt.mpr (Int.le_of_lt h))]

theorem find_behind (h : filenameCmp n u s = 0) (hlen : n < u.length) : find (nodeOf q s left right tree) u rv =
      match q.inclusive with
      | some l => find tree (u.drop n) (.again l)
      | none => find right u rv := by
  rw [find_nodeOf hn, Nat.min_eq_right (Nat.le_of_lt hlen), if_neg (not_not.mpr h), if_pos hlen]

end Node

/-- One turn of the search at a node whose length is the true one. -/
inductive Turn (q : Queue) (s : Bytes) (left right tree : Tree) (u : Bytes) (rv : Found) : Found → Prop
  | left (h : key u < key s) : Turn q s left right tree u rv (find left u rv)
  | redirect (c : UInt8) (h : s = u ++ [c])
      (hauto : q.exact.any (·.autoRedirect) || q.inclusive.any (·.autoRedirect)) :
      Turn q s left right tree u rv (find left u (select q.exact q.inclusive .done))
  | right (h : key s < key u) (hincl : s <+: u → q.inclusive = none) : Turn q s left right tree u rv (find right u rv)
  | inner (l : Location) (hl : q.inclusive = some l) (u' : Bytes) (hu' : u' ≠ []) (h : u = s ++ u') :
      Turn q s left right tree u rv (find tree u' (.again l))
  | found (h : u = s) : Turn q s left right tree u rv
      (if q.exact.isSome then select q.exact q.inclusive .ok else select q.exact q.inclusive .again)

theorem key_lt_of_prefix {u : Bytes} (hpre : u <+: s) (hlen : u.length < s.length) : key u < key s := by
  refine lt_of_le_of_ne (prefix_le (key_isPrefix_iff.mpr hpre)) fun hkey => ?_
  rw [key_injective hkey] at hlen
  exact Nat.lt_irrefl _ hlen

theorem find_turn {left right tree : Tree} {u : Bytes} {rv : Found} (hs : NUL ∉ s) (hlen : s.length ≤ 255) :
    Turn q s left right tree u rv (find (nodeOf q s left right tree) u rv) := by
  have hmod : s.length % 256 = s.length := Nat.mod_eq_of_lt (Nat.lt_succ_of_le hlen)
  have hsign := @filenameCmp_sign (min u.length s.length) u s hs
  have hzero := @filenameCmp_eq_zero (min u.length s.length) u s hs (Nat.min_le_left _ _) (Nat.min_le_right _ _)
  rcases Int.lt_trichotomy (filenameCmp (min u.length s.length) u s) 0 with hrc | hrc | hrc
  · rw [find_left hmod hrc]
    exact .left (hsign.1 hrc)
  · have htake := hzero.mp hrc
    rcases Nat.lt_trichotomy u.length s.length with hlt | heq | hgt
    · rw [Nat.min_eq_left (Nat.le_of_lt hlt)] at hrc htake
      have hpre : u <+: s := prefix_iff_eq_take.mpr (by rw [← htake, take_length])
      rw [find_nodeOf hmod, Nat.min_eq_left (Nat.le_of_lt hlt), if_neg (not_not.mpr hrc), if_neg (Nat.lt_asymm hlt),
        if_neg (Nat.ne_of_lt hlt)]
      split_ifs with hauto
      · obtain ⟨r, rfl⟩ := hpre
        have hr : r.length = 1 := by
          rw [length_append] at hauto
          omega
        obtain ⟨c, rfl⟩ := length_eq_one_iff.mp hr
        exact .redirect c rfl hauto.2
      · exact .left ( key_lt_of_prefix hpre hlt)
    · rw [heq, Nat.min_self, ← heq, take_length, heq, take_length] at htake
      rw [heq, Nat.min_self, ← heq] at hrc
      rw [find_nodeOf hmod, Nat.min_eq_left (Nat.le_of_eq heq), if_neg (not_not.mpr hrc),
        if_neg (Nat.not_lt.mpr (Nat.le_of_eq heq)), if_pos heq]
      exact .found htake
    · rw [Nat.min_eq_right (Nat.le_of_lt hgt)] at hrc htake
      have hpre : s <+: u := prefix_iff_eq_take.mpr (by rw [htake, take_length])
      rw [find_behind hmod hrc hgt]
      cases hincl : q.inclusive with
      | none => exact .right ( key_lt_of_prefix hpre hgt) fun _ => hincl
      | some l =>
        obtain ⟨u', rfl⟩ := hpre
        rw [drop_left]
        refine .inner l hincl u' ?_ rfl
        rintro rfl
        rw [append_nil] at hgt
        exact Nat.lt_irrefl _ hgt
  · rw [find_right hmod hrc]
    refine .right (hsign.2 hrc) ?_
    intro hpre
    rw [Nat.min_eq_right hpre.length_le] at hrc hzero
    rw [hzero.mpr (by rw [take_length, ← prefix_iff_eq_take.mp hpre])] at hrc
    exact absurd hrc (Int.lt_irrefl 0)

/-! ## §3 What is to be selected -/

section
variable (ls uri)

def NoExact : Prop := ∀ l ∈ ls, l.exactMatch = true → l.name ≠ uri

/-- A prefix location for the URI. -/
def Prefixes (l : Location) : Prop := l ∈ ls ∧ l.exactMatch = false ∧ l.name <+: uri

/-- The name is the URI and one more character, and has an automatic redirect. -/
def Redirects (l : Location) : Prop :=
  l ∈ ls ∧ (∃ c, l.name = uri ++ [c]) ∧ ∃ l' ∈ ls, l'.name = l.name ∧ l'.autoRedirect = true

/-- The answers that are right for a URI. -/
def Selects : Found → Prop
  | .ok l => l ∈ ls ∧ l.exactMatch = true ∧ l.name = uri
  | .again l => NoExact ls uri ∧ Prefixes ls uri l ∧ ∀ l', Prefixes ls uri l' → l'.name.length ≤ l.name.length
  | .done l => NoExact ls uri ∧ Redirects ls uri l
  | .declined => NoExact ls uri ∧ ∀ l, ¬ Prefixes ls uri l
  | .fault => False

/-- `rv` is right as far as the elements `xs` are not concerned. -/
def Leaf (xs : List Queue) : Found → Prop
  | .again l => Prefixes ls uri l ∧ (∀ x ∈ xs, l.name <+: x.name) ∧
      ∀ l', Prefixes ls uri l' → (∃ x ∈ xs, x.inclusive = some l') ∨ l'.name.length ≤ l.name.length
  | .done l => Redirects ls uri l ∧ ∀ x ∈ xs, x.inclusive.isSome → ¬ x.name <+: uri
  | .declined => ∀ l, Prefixes ls uri l → ∃ x ∈ xs, x.inclusive = some l
  | .ok _ | .fault => False

/-- A search among `xs` is under way. -/
structure Pending (xs : List Queue) (rv : Found) : Prop where
  exact : ∀ l ∈ ls, l.exactMatch = true → l.name = uri → ∃ x ∈ xs, x.exact = some l
  leaf : Leaf ls uri xs rv

end

/-- Elements that hold a location for the URI. -/
def Relevant (uri : Bytes) (x : Queue) : Prop := x.name <+: uri ∧ (x.inclusive.isSome ∨ x.name = uri)

theorem Pending.selects {rv : Found} (h : Pending ls uri [] rv) : Selects ls uri rv := by
  have hexact : NoExact ls uri := by
    intro l hl hmatch hname
    obtain ⟨x, hx, -⟩ := h.exact l hl hmatch hname
    cases hx
  have hleaf := h.leaf
  cases rv with
  | ok l => exact hleaf.elim
  | fault => exact hleaf
  | done l => exact ⟨hexact, hleaf.1⟩
  | declined =>
    refine ⟨hexact, fun l hl => ?_⟩
    obtain ⟨x, hx, -⟩ := hleaf l hl
    cases hx
  | again l =>
    refine ⟨hexact, hleaf.1, fun l' hl' => ?_⟩
    rcases hleaf.2.2 l' hl' with ⟨x, hx, -⟩ | hle
    · cases hx
    · exact hle

/-- Elements without a location for the URI may be left aside. -/
theorem Pending.narrow {rv : Found}
    (h : Pending ls uri xs rv) (hvalid : ∀ x ∈ xs, Valid ls x) (hsub : ∀ x ∈ xs', x ∈ xs)
    (hrest : ∀ x ∈ xs, x ∈ xs' ∨ ¬ Relevant uri x) : Pending ls uri xs' rv := by
  have hincl : ∀ l, Prefixes ls uri l → (∃ x ∈ xs, x.inclusive = some l) → ∃ x ∈ xs', x.inclusive = some l := by
    rintro l ⟨-, -, hpre⟩ ⟨x, hx, hxl⟩
    rcases hrest x hx with hx' | hnot
    · exact ⟨x, hx', hxl⟩
    refine absurd ⟨?_, .inl (by rw [hxl]; rfl)⟩ hnot
    rw [← ((hvalid x hx).inclusive l hxl).2.2]
    exact hpre
  refine ⟨?_, ?_⟩
  · intro l hl hmatch hname
    obtain ⟨x, hx, hxl⟩ := h.exact l hl hmatch hname
    rcases hrest x hx with hx' | hnot
    · exact ⟨x, hx', hxl⟩
    · have hx' : x.name = uri := ((hvalid x hx).exact l hxl).2.2.symm.trans hname
      exact absurd ⟨hx' ▸ prefix_refl _, .inr hx'⟩ hnot
  · have hleaf := h.leaf
    cases rv with
    | ok l | fault => exact hleaf
    | done l => exact ⟨hleaf.1, fun x hx => hleaf.2 x (hsub x hx)⟩
    | declined => exact fun l hl => hincl l hl (hleaf l hl)
    | again l =>
      refine ⟨hleaf.1, fun x hx => hleaf.2.1 x (hsub x hx), fun l' hl' => ?_⟩
      exact (hleaf.2.2 l' hl').imp_left (hincl l' hl')

variable {l : Location} {found : Found} {c : UInt8}

/-- With a prefix location found, the search goes on among the names that begin with its
name. -/
theorem Pending.inner {rv : Found} (h : Pending ls uri xs rv) (hq : q ∈ xs) (hl : q.inclusive = some l)
    (hpre : Prefixes ls uri l) (hname : l.name = q.name) (hne : q.name ≠ uri)
    (hvalid : ∀ x ∈ xs, Valid ls x) (hin : ∀ x ∈ xs', q.name <+: x.name)
    (hrest : ∀ x ∈ xs, x ∈ xs' ∨ x = q ∨ ¬ q.name <+: x.name) : Pending ls uri xs' (.again l) := by
  have hqpre : q.name <+: uri := hname ▸ hpre.2.2
  have hcover : ∀ l', Prefixes ls uri l' → (∃ x ∈ xs, x.inclusive = some l') →
      (∃ x ∈ xs', x.inclusive = some l') ∨ l'.name.length ≤ l.name.length := by
    rintro l' ⟨-, -, hpre'⟩ ⟨x, hx, hxl⟩
    have hxname := ((hvalid x hx).inclusive l' hxl).2.2
    rw [hname, hxname]
    rcases hrest x hx with hx' | rfl | hnot
    · exact .inl ⟨x, hx', hxl⟩
    · exact .inr le_rfl
    · rcases prefix_or_prefix_of_prefix hqpre (hxname ▸ hpre') with hqx | hxq
      · exact absurd hqx hnot
      · exact .inr hxq.length_le
  refine ⟨?_, hpre, fun x hx => hname ▸ hin x hx, fun l' hl' => ?_⟩
  · intro l' hl' hmatch hname'
    obtain ⟨x, hx, hxl⟩ := h.exact l' hl' hmatch hname'
    have hxuri : x.name = uri := ((hvalid x hx).exact l' hxl).2.2.symm.trans hname'
    rcases hrest x hx with hx' | rfl | hnot
    · exact ⟨x, hx', hxl⟩
    · exact absurd hxuri hne
    · exact absurd (hxuri ▸ hqpre) hnot
  · have hleaf := h.leaf
    cases rv with
    | ok l | fault => exact hleaf.elim
    | done l0 => exact absurd hqpre (hleaf.2 q hq (by rw [hl]; rfl))
    | declined => exact hcover l' hl' (hleaf l' hl')
    | again l0 =>
      rcases hleaf.2.2 l' hl' with hx | hle
      · exact hcover l' hl' hx
      · exact .inr (hle.trans (hname ▸ (hleaf.2.1 q hq).length_le))

theorem select_valid (h : Valid ls q) : ∃ l ∈ ls, l.name = q.name ∧ ∀ f, select q.exact q.inclusive f = f l := by
  cases he : q.exact with
  | some l => exact ⟨l, (h.exact l he).1, (h.exact l he).2.2, fun f => rfl⟩
  | none =>
    cases hi : q.inclusive with
    | some l => exact ⟨l, (h.inclusive l hi).1, (h.inclusive l hi).2.2, fun f => rfl⟩
    | none =>
      have hslots := h.slots
      rw [he, hi] at hslots
      simp at hslots

theorem valid_auto (h : Valid ls q) (hauto : q.exact.any (·.autoRedirect) || q.inclusive.any (·.autoRedirect)) :
    ∃ l ∈ ls, l.name = q.name ∧ l.autoRedirect = true := by
  rw [Bool.or_eq_true, Option.any_eq_true, Option.any_eq_true] at hauto
  rcases hauto with ⟨l, hl, hauto⟩ | ⟨l, hl, hauto⟩
  · exact ⟨l, (h.exact l hl).1, (h.exact l hl).2.2, hauto⟩
  · exact ⟨l, (h.inclusive l hl).1, (h.inclusive l hl).2.2, hauto⟩

/-! ## §4 Short names -/

/-- Every name has at most 255 bytes behind the name whose list it is in. -/
def Short : Nat → Forest → Prop
  | _, .nil => True
  | pre, .cons q list next =>
    q.name.length ≤ pre + 255 ∧ Short q.name.length list ∧ Short pre next

/-- The same for a part of a queue. -/
def ShortRows (pre : Nat) (es : List (Queue × Forest)) : Prop :=
  ∀ e ∈ es, e.1.name.length ≤ pre + 255 ∧ Short e.1.name.length e.2

theorem shortRows_entries {pre : Nat} : ShortRows pre f.entries ↔ Short pre f := by
  induction f with
  | nil => exact ⟨fun _ => trivial, fun _ => nofun⟩
  | cons q list next _ ih =>
    rw [Forest.entries, ShortRows, forall_mem_cons, Short, ← ih, and_assoc]
    rfl

theorem not_prefix_of_lt {a b : Bytes} (h : key b < key a) : ¬ a <+: b :=
  fun hpre => not_le.mpr h (prefix_le (key_isPrefix_iff.mpr hpre))

theorem key_append_lt {u : Bytes} (h : key u < key s) : key (p ++ u) < key (p ++ s) := by
  rw [key, key, map_append, map_append]
  exact append_left_lt h

section Rest
variable {before after : List (Queue × Forest)} {list : Forest} {rv : Found}

variable (h : Level ls p (before ++ (q, list) :: after))
  (hpending : Pending ls uri (flatten (before ++ (q, list) :: after)) rv)

include h hpending

/-- A smaller URI is searched among the elements before. -/
theorem pending_before (hlt : key uri < key q.name) : Pending ls uri (flatten before) rv := by
  refine hpending.narrow h.valid (fun x hx => mem_flatten_split.mpr (.inl hx)) fun x hx => ?_
  rcases mem_flatten_split.mp hx with hx | rfl | hx
  · exact .inl hx
  · exact .inr fun hrel => not_prefix_of_lt hlt hrel.1
  · exact .inr fun hrel => not_prefix_of_lt (hlt.trans (h.lt_behind (mem_append.mpr hx))) hrel.1

/-- A greater one among the elements behind, unless it begins with a prefix location. -/
theorem pending_after (hlt : key q.name < key uri) (hincl : q.name <+: uri → q.inclusive = none) :
    Pending ls uri (flatten after) rv := by
  refine hpending.narrow h.valid (fun x hx => mem_flatten_split.mpr (.inr (.inr (.inr hx)))) fun x hx => ?_
  rcases mem_flatten_split.mp hx with hx | rfl | hx | hx
  · have hxq := h.before_lt hx
    refine .inr ?_
    rintro ⟨hpre, hx' | rfl⟩
    · exact h.before_not_prefix hx hx'
        (key_isPrefix_iff.mp (prefix_between (key_isPrefix_iff.mpr hpre) hxq.le hlt.le))
    · exact lt_asymm hxq hlt
  · refine .inr ?_
    rintro ⟨hpre, hx' | rfl⟩
    · rw [hincl hpre] at hx'
      cases hx'
    · exact lt_irrefl _ hlt
  · obtain ⟨hq, hqx⟩ := h.list_prefix hx
    refine .inr fun hrel => ?_
    rw [hincl (hqx.trans hrel.1)] at hq
    cases hq
  · exact .inl hx

theorem pending_list (hl : q.inclusive = some l) (hpre : q.name <+: uri) (hne : q.name ≠ uri) :
    Pending ls uri (flatten list.entries) (.again l) := by
  obtain ⟨hmem, hmatch, hname⟩ := h.valid_mid.inclusive l hl
  rw [flatten_entries]
  refine hpending.inner mem_flatten_mid hl ⟨hmem, hmatch, hname ▸ hpre⟩ hname hne h.valid
    (fun x hx => (h.list_prefix hx).2) fun x hx => ?_
  rcases mem_flatten_split.mp hx with hx | rfl | hx | hx
  · exact .inr (.inr (not_prefix_of_lt (h.before_lt hx)))
  · exact .inr (.inl rfl)
  · exact .inl hx
  · exact .inr (.inr (h.after_not_prefix (by rw [hl]; rfl) hx))

/-- The name of an automatic redirect is met: no prefix location before it can be one for
the URI. -/
theorem pending_redirect
    (hc : q.name = uri ++ [c]) (hauto : q.exact.any (·.autoRedirect) || q.inclusive.any (·.autoRedirect)) :
    Pending ls uri (flatten before) (select q.exact q.inclusive .done) := by
  have hlt : key uri < key q.name := by
    rw [hc]
    exact key_lt_of_prefix (prefix_append _ _) (by simp)
  obtain ⟨l, hl, hname, hselect⟩ := select_valid h.valid_mid
  obtain ⟨l', hl', hname', hauto'⟩ := valid_auto h.valid_mid hauto
  rw [hselect]
  refine ⟨(pending_before h hpending hlt).exact, ⟨hl, ⟨c, hname.trans hc⟩, l', hl', hname'.trans hname.symm, hauto'⟩, ?_⟩
  intro x hx hincl hpre
  exact h.before_not_prefix hx hincl (hc ▸ hpre.trans (prefix_append _ _))

/-- The URI is a name. -/
theorem selects_found (heq : uri = q.name) : Selects ls uri (if q.exact.isSome then select q.exact q.inclusive .ok
      else select q.exact q.inclusive .again) := by
  subst heq
  have hvalid := h.valid_mid
  cases he : q.exact with
  | some l => exact hvalid.exact l he
  | none =>
    cases hi : q.inclusive with
    | none =>
      have hslots := hvalid.slots
      rw [he, hi] at hslots
      simp at hslots
    | some l =>
      obtain ⟨hl, hmatch, hname⟩ := hvalid.inclusive l hi
      refine ⟨?_, ⟨hl, hmatch, hname ▸ prefix_refl _⟩, fun l' hl' => hname ▸ hl'.2.2.length_le⟩
      intro l' hl' hmatch' hname'
      obtain ⟨x, hx, hxl⟩ := hpending.exact l' hl' hmatch' hname'
      have hxname : x.name = q.name := ((h.valid x hx).exact l' hxl).2.2.symm.trans hname'
      rcases mem_flatten_split.mp hx with hx | rfl | hx
      · exact absurd (h.before_lt hx) (by rw [hxname]; exact lt_irrefl _)
      · rw [he] at hxl
        cases hxl
      · exact absurd (h.lt_behind (mem_append.mpr hx)) (by rw [hxname]; exact lt_irrefl _)

end Rest

theorem selects_find {u : Bytes} {rv : Found} {t : Tree} (hb : Built ls p es t) (hshort : ShortRows p.length es)
    (hpending : Pending ls (p ++ u) (flatten es) rv) : Selects ls (p ++ u) (find t u rv) := by
  induction hb generalizing u rv with
  | nil => exact hpending.selects
  | @node p s before after q list left right tree hlevel hname _ _ _ ihleft ihright ihtree =>
    have hmem : (q, list) ∈ before ++ (q, list) :: after := by simp
    have hs255 : s.length ≤ 255 := by
      have hle := (hshort _ hmem).1
      rw [hname, length_append] at hle
      omega
    have hturn := @find_turn q s left right tree u rv (hlevel.text_mid hname) hs255
    generalize find (nodeOf q s left right tree) u rv = found at hturn
    cases hturn with
    | left h =>
      refine ihleft (fun e he => hshort e (mem_append_left _ he)) ?_
      exact pending_before hlevel hpending (hname ▸ key_append_lt h)
    | redirect c h hauto =>
      refine ihleft (fun e he => hshort e (mem_append_left _ he)) ?_
      exact pending_redirect hlevel hpending (by rw [hname, h, append_assoc]) hauto
    | right h hincl =>
      refine ihright (fun e he => hshort e (mem_append_right _ (mem_cons_of_mem _ he))) ?_
      refine pending_after hlevel hpending (hname ▸ key_append_lt h) ?_
      rw [hname, prefix_append_right_inj]
      exact hincl
    | inner l hl u' hu' h =>
      subst h
      rw [← append_assoc, ← hname] at hpending ⊢
      refine ihtree (shortRows_entries.mpr (hshort _ hmem).2) ?_
      refine pending_list hlevel hpending hl (prefix_append _ _) fun heq => hu' ?_
      exact append_cancel_left (heq.symm.trans (append_nil _).symm)
    | found h => exact selects_found hlevel hpending (by rw [hname, h])

/-! ## §5 Long names -/

def Found.location : Found → Option Location
  | .ok l | .done l | .again l => some l
  | .declined | .fault => none

/-- It is about one of the elements. -/
def Found.Among (xs : List Queue) (found : Found) : Prop := ∃ l, found.location = some l ∧ ∃ x ∈ xs, l.name = x.name

theorem Found.Among.mono (h : found.Among xs) (hsub : ∀ x ∈ xs, x ∈ xs') : found.Among xs' := by
  obtain ⟨l, hl, x, hx, hname⟩ := h
  exact ⟨l, hl, x, hsub x hx, hname⟩

/-- Whatever the lengths in the nodes are, the search returns `rv` or something about one of
the elements. -/
theorem find_located {u : Bytes} {rv : Found} {t : Tree} (hb : Built ls p es t) :
    find t u rv = rv ∨ (find t u rv).Among (flatten es) := by
  induction hb generalizing u rv with
  | nil => exact .inl rfl
  | @node p s before after q list left right tree hlevel _ _ _ _ ihleft ihright ihtree =>
    have hq : q ∈ flatten (before ++ (q, list) :: after) := mem_flatten_mid
    have hvalid := hlevel.valid_mid
    obtain ⟨l0, -, hl0, hselect⟩ := select_valid hvalid
    have hbefore : ∀ x ∈ flatten before, x ∈ flatten (before ++ (q, list) :: after) := fun x hx => by simp [hx]
    have hafter : ∀ x ∈ flatten after, x ∈ flatten (before ++ (q, list) :: after) := fun x hx => by simp [hx]
    rw [find_nodeOf rfl]
    split_ifs with hne hlt hlonger hequal hexact hauto
    · exact ihleft.imp_right (·.mono hbefore)
    · exact ihright.imp_right (·.mono hafter)
    · cases hincl : q.inclusive with
      | none => exact ihright.imp_right (·.mono hafter)
      | some l =>
        right
        rcases @ihtree (u.drop (min u.length (s.length % 256))) (.again l) with hr | hr
        · refine ⟨l, ?_, q, hq, (hvalid.inclusive l hincl).2.2⟩
          dsimp only
          rw [hr]
          rfl
        · rw [flatten_entries] at hr
          exact hr.mono fun x hx => by simp [hx]
    · rw [hselect]
      exact .inr ⟨l0, rfl, q, hq, hl0⟩
    · rw [hselect]
      exact .inr ⟨l0, rfl, q, hq, hl0⟩
    · right
      rw [hselect]
      rcases @ihleft u (.done l0) with hr | hr
      · rw [hr]
        exact ⟨l0, rfl, q, hq, hl0⟩
      · exact hr.mono hbefore
    · exact ihleft.imp_right (·.mono hbefore)

theorem Selects.location_prefix (h : Selects ls uri found)
    (hl : found.location = some l) : ∃ c, l.name <+: uri ++ [c] := by
  cases found with
  | ok l' =>
    cases hl
    exact ⟨NUL, h.2.2 ▸ prefix_append _ _⟩
  | again l' =>
    cases hl
    exact ⟨NUL, h.2.1.2.2.trans (prefix_append _ _)⟩
  | done l' =>
    cases hl
    obtain ⟨c, hc⟩ := h.2.2.1
    exact ⟨c, hc ▸ prefix_refl _⟩
  | declined | fault => cases hl

/-- Only the bytes that are compared count. -/
theorem filenameCmp_congr {n : Nat} : ∀ {a a' b : Bytes}, a.take n = a'.take n →
    filenameCmp n a b = filenameCmp n a' b := by
  induction n with
  | zero => exact fun _ => rfl
  | succ n ih =>
    intro a a' b h
    cases a with
    | nil =>
      cases a' with
      | nil => rfl
      | cons c' a' => cases h
    | cons c a =>
      cases a' with
      | nil => cases h
      | cons c' a' =>
        rw [take_succ_cons, take_succ_cons, cons.injEq] at h
        obtain ⟨rfl, htake⟩ := h
        have hdrop : filenameCmp n ((c :: a).drop 1) (b.drop 1) = filenameCmp n ((c :: a').drop 1) (b.drop 1) := ih htake
        rw [filenameCmp, filenameCmp, hdrop]
        rfl

section Long
variable {before after : List (Queue × Forest)} {list : Forest} {left right tree : Tree} {rv : Found}
variable (h : Level ls p (before ++ (q, list) :: after))
include h

/-- An exact location with a long name part is not found. -/
theorem long_exact (hright : Built ls p after right) (hname : q.name = p ++ s)
    (hlong : 256 ≤ s.length) (hincl : q.inclusive = none) (hrv : ∀ l, rv ≠ .ok l) :
    ¬ Selects ls (p ++ s) (find (nodeOf q s left right tree) s rv) := by
  have hvalid := h.valid_mid
  have hs := h.text_mid hname
  have hlen : s.length % 256 < s.length := (Nat.mod_lt _ (by decide)).trans_le hlong
  obtain ⟨l, hl⟩ : ∃ l, q.exact = some l := by
    have hslots := hvalid.slots
    rw [hincl] at hslots
    simpa [isSome_iff_exists] using hslots
  obtain ⟨hmem, hmatch, hlname⟩ := hvalid.exact l hl
  have hnot : ¬ NoExact ls (p ++ s) := fun hno => hno l hmem hmatch (hlname.trans hname)
  rw [find_behind rfl ((filenameCmp_eq_zero hs hlen.le hlen.le).mpr rfl) hlen, hincl]
  intro hselects
  cases hfound : find right s rv with rw [hfound] at hselects
  | ok l' =>
    rcases @find_located ls p after s rv right hright with hr | ⟨l'', hl'', x, hx, hlx⟩
    · exact hrv l' (hr.symm.trans hfound)
    rw [hfound] at hl''
    cases hl''
    have hlt := h.lt_behind (mem_append_right _ hx)
    rw [← hlx, hselects.2.2, hname] at hlt
    exact lt_irrefl _ hlt
  | again l' | done l' | declined => exact hnot hselects.1
  | fault => exact hselects

/-- A prefix location with a long name part is found for URIs that only begin like it. -/
theorem long_inclusive (htree : Built ls q.name list.entries tree) (hname : q.name = p ++ s) (hlong : 256 ≤ s.length) (hincl : q.inclusive = some l)
    (hc : ¬ s.take 255 ++ [c] <+: s) :
    ¬ Selects ls (p ++ (s.take 255 ++ [c])) (find (nodeOf q s left right tree) (s.take 255 ++ [c]) rv) := by
  have hvalid := h.valid_mid
  have hs := h.text_mid hname
  have htake : (s.take 255).length = 255 := by
    rw [length_take]
    omega
  have hmod : s.length % 256 < 256 := Nat.mod_lt _ (by decide)
  have hlen : s.length % 256 < (s.take 255 ++ [c]).length := by
    rw [length_append, htake]
    exact hmod
  have hcmp : filenameCmp (s.length % 256) (s.take 255 ++ [c]) s = 0 := by
    rw [filenameCmp_eq_zero hs hlen.le (hmod.le.trans hlong), take_append_of_le_length (by omega),
      take_take, Nat.min_eq_left (Nat.le_of_lt_succ hmod)]
  rw [find_behind rfl hcmp hlen, hincl]
  intro hselects
  have hlocated : ∃ l', (find tree ((s.take 255 ++ [c]).drop (s.length % 256)) (.again l)).location = some l' ∧
      q.name <+: l'.name := by
    rcases @find_located ls q.name list.entries ((s.take 255 ++ [c]).drop (s.length % 256)) (.again l) tree htree
      with hr | ⟨l', hl', x, hx, hlx⟩
    · rw [hr]
      exact ⟨l, rfl, (hvalid.inclusive l hincl).2.2 ▸ prefix_refl _⟩
    · rw [flatten_entries] at hx
      exact ⟨l', hl', hlx ▸ (h.list_prefix hx).2⟩
  obtain ⟨l', hl', hpre⟩ := hlocated
  obtain ⟨c', hc'⟩ := hselects.location_prefix hl'
  have hspre : s <+: s.take 255 ++ [c] ++ [c'] := by
    have htrans := hpre.trans hc'
    rwa [hname, append_assoc p, prefix_append_right_inj] at htrans
  refine hc (prefix_of_prefix_length_le (prefix_append _ [c']) hspre ?_)
  rw [length_append, htake]
  exact hlong

end Long

/-- A URI part that is not told apart from the name part `t` by nodes with short names. -/
structure Close (u t : Bytes) : Prop where
  uri : 256 ≤ u.length
  name : 256 ≤ t.length
  same : u.take 255 = t.take 255

theorem Close.cmp {u t : Bytes} (h : Close u t) (hs : s.length ≤ 255) :
    filenameCmp s.length u s = filenameCmp s.length t s := by
  apply filenameCmp_congr
  have htake := congrArg (take s.length) h.same
  rwa [take_take, take_take, Nat.min_eq_left hs] at htake

theorem Close.append {u t : Bytes} (h : Close u t) : Close (s ++ u) (s ++ t) := by
  refine ⟨?_, ?_, ?_⟩
  · rw [length_append]
    exact h.uri.trans (Nat.le_add_left _ _)
  · rw [length_append]
    exact h.name.trans (Nat.le_add_left _ _)
  · have hsame := congrArg (take (255 - s.length)) h.same
    rw [take_take, take_take, Nat.min_eq_left (Nat.sub_le _ _)] at hsame
    rw [take_append, take_append, hsame]

theorem exists_close (h : 256 ≤ s.length) : ∃ c, ¬ s.take 255 ++ [c] <+: s ∧ Close (s.take 255 ++ [c]) s := by
  have htake : (s.take 255).length = 255 := by
    rw [length_take]
    omega
  have hclose : ∀ c, Close (s.take 255 ++ [c]) s := by
    refine fun c => ⟨?_, h, take_append_of_le_length (Nat.le_of_eq htake.symm) |>.trans ?_⟩
    · rw [length_append, htake]
      exact le_rfl
    · rw [take_take, Nat.min_self]
  -- of two different last bytes at most one continues the name
  by_cases hslash : s.take 255 ++ [('/' : UInt8)] <+: s
  · refine ⟨'a', fun ha => ?_, hclose _⟩
    have hlen : (s.take 255 ++ [('/' : UInt8)]).length = (s.take 255 ++ [('a' : UInt8)]).length := by
      rw [length_append, length_append]
      rfl
    have heq := (prefix_of_prefix_length_le hslash ha hlen.le).eq_of_length hlen
    exact absurd (append_cancel_left heq) (by decide)
  · exact ⟨'/', hslash, hclose _⟩

section Short
variable {t u : Bytes} {before after : List (Queue × Forest)} {list : Forest} {left right tree : Tree} {rv : Found}
variable (h : Level ls p (before ++ (q, list) :: after)) (hname : q.name = p ++ s) (hs : s.length ≤ 255)
include h hname hs

theorem prefix_of_cmp (hxname : x.name = p ++ t) (hclose : Close u t) (hrc : filenameCmp s.length t s = 0) :
    q.name <+: x.name := by
  rw [filenameCmp_eq_zero (h.text_mid hname) (hs.trans ((Nat.le_succ 255).trans hclose.name)) le_rfl,
    take_length] at hrc
  rw [hname, hxname, prefix_append_right_inj]
  exact prefix_iff_eq_take.mpr hrc.symm

theorem find_close_before (hx : x ∈ flatten before) (hxname : x.name = p ++ t) (hclose : Close u t) :
    find (nodeOf q s left right tree) u rv = find left u rv := by
  have hnul := h.text_mid hname
  have hlt := h.before_lt hx
  have hsign := @filenameCmp_sign s.length t s hnul
  apply find_left (Nat.mod_eq_of_lt (Nat.lt_succ_of_le hs))
  rw [Nat.min_eq_right (hs.trans ((Nat.le_succ 255).trans hclose.uri)), hclose.cmp hs]
  rcases Int.lt_trichotomy (filenameCmp s.length t s) 0 with hrc | hrc | hrc
  · exact hrc
  · exact absurd (prefix_of_cmp h hname hs hxname hclose hrc) ( not_prefix_of_lt hlt)
  · rw [hname, hxname] at hlt
    exact absurd (key_append_lt (hsign.2 hrc)) (lt_asymm hlt)

theorem find_close_after (hx : x ∈ flatten after) (hxname : x.name = p ++ t) (hclose : Close u t) :
    find (nodeOf q s left right tree) u rv = find right u rv := by
  have hnul := h.text_mid hname
  have hlt := h.lt_behind (mem_append_right _ hx)
  have hsign := @filenameCmp_sign s.length t s hnul
  have hmod : s.length % 256 = s.length := Nat.mod_eq_of_lt (Nat.lt_succ_of_le hs)
  have hlen : s.length < u.length := (Nat.lt_succ_of_le hs).trans_le hclose.uri
  rcases Int.lt_trichotomy (filenameCmp s.length t s) 0 with hrc | hrc | hrc
  · rw [hname, hxname] at hlt
    exact absurd (key_append_lt (hsign.1 hrc)) (lt_asymm hlt)
  · have hincl : q.inclusive = none := by
      by_contra hincl
      exact h.after_not_prefix (isSome_iff_ne_none.mpr hincl) hx (prefix_of_cmp h hname hs hxname hclose hrc)
    rw [find_behind hmod (hclose.cmp hs ▸ hrc) hlen, hincl]
  · apply find_right hmod
    rw [Nat.min_eq_right hlen.le, hclose.cmp hs]
    exact hrc

theorem find_close_list (hl : q.inclusive = some l) (hclose : Close u t) :
    find (nodeOf q s left right tree) (s ++ u) rv = find tree u (.again l) := by
  have hnul := h.text_mid hname
  have hmod : s.length % 256 = s.length := Nat.mod_eq_of_lt (Nat.lt_succ_of_le hs)
  have hlen : s.length < (s ++ u).length := (Nat.lt_succ_of_le hs).trans_le hclose.append.uri
  have hcmp : filenameCmp s.length (s ++ u) s = 0 := by
    rw [filenameCmp_eq_zero hnul hlen.le le_rfl, take_left, take_length]
  rw [find_behind hmod hcmp hlen, hl]
  rw [drop_left]

end Short

/-- A name part of 256 bytes or more always leads to a wrong answer. -/
theorem wrong_of_long {t : Tree} (hb : Built ls p es t) (hlong : ¬ ShortRows p.length es) :
    ∃ u s, (∃ x ∈ flatten es, x.name = p ++ s) ∧ Close u s ∧ ∀ rv, (∀ l, rv ≠ .ok l) → ¬ Selects ls (p ++ u) (find t u rv) := by
  induction hb with
  | nil => exact absurd nofun hlong
  | @node p s before after q list left right tree hlevel hname _ hright htree ihleft ihright ihtree =>
    by_cases hs : s.length ≤ 255
    · -- the long part is elsewhere, and the search for it comes by here
      by_cases hbefore : ShortRows p.length before
      · by_cases hafter : ShortRows p.length after
        · have hlist : ¬ ShortRows q.name.length list.entries := by
            rw [shortRows_entries]
            refine fun hlist => hlong fun e he => ?_
            rcases mem_append.mp he with he | he
            · exact hbefore e he
            rcases mem_cons.mp he with rfl | he
            · refine ⟨?_, hlist⟩
              rw [hname, length_append]
              exact Nat.add_le_add_left hs _
            · exact hafter e he
          obtain ⟨u, t, ⟨x, hx, hxname⟩, hclose, hwrong⟩ := ihtree hlist
          rw [flatten_entries] at hx
          refine ⟨s ++ u, s ++ t, ⟨x, by simp [hx], by rw [hxname, hname, append_assoc]⟩, ?_, ?_⟩
          · exact hclose.append
          · intro rv hrv
            obtain ⟨l, hl⟩ := isSome_iff_exists.mp (hlevel.list_prefix hx).1
            rw [find_close_list hlevel hname hs hl hclose, ← append_assoc, ← hname]
            exact hwrong _ nofun
        · obtain ⟨u, t, ⟨x, hx, hxname⟩, hclose, hwrong⟩ := ihright hafter
          refine ⟨u, t, ⟨x, by simp [hx], hxname⟩, hclose, fun rv hrv => ?_⟩
          rw [find_close_after hlevel hname hs hx hxname hclose]
          exact hwrong rv hrv
      · obtain ⟨u, t, ⟨x, hx, hxname⟩, hclose, hwrong⟩ := ihleft hbefore
        refine ⟨u, t, ⟨x, by simp [hx], hxname⟩, hclose, fun rv hrv => ?_⟩
        rw [find_close_before hlevel hname hs hx hxname hclose]
        exact hwrong rv hrv
    · have hs256 : 256 ≤ s.length := Nat.lt_of_not_le hs
      cases hincl : q.inclusive with
      | none =>
        refine ⟨s, s, ⟨q, mem_flatten_mid, hname⟩, ⟨hs256, hs256, rfl⟩, fun rv hrv => ?_⟩
        exact long_exact hlevel hright hname hs256 hincl hrv
      | some l =>
        obtain ⟨c, hc, hclose⟩ := exists_close hs256
        refine ⟨s.take 255 ++ [c], s, ⟨q, mem_flatten_mid, hname⟩, hclose, fun rv _ => ?_⟩
        exact long_inclusive hlevel htree hname hs256 hincl hc

/-! ## §6 All URIs -/

/-- Every name is at most 255 bytes longer than some prefix location that it begins with, or
has at most 255 bytes. -/
def ShortNames (ls : List Location) : Prop :=
  ∀ l ∈ ls, l.name.length ≤ 255 ∨ ∃ l' ∈ ls, l'.exactMatch = false ∧ l'.name <+: l.name ∧
    l'.name ≠ l.name ∧ l.name.length ≤ l'.name.length + 255

/-- The element `x` is within the reach of an element of `xs`. -/
def Reached (xs : List Queue) (x : Queue) : Prop := ∃ y ∈ xs, y.inclusive.isSome ∧ y.name <+: x.name ∧ y.name ≠ x.name ∧
    x.name.length ≤ y.name.length + 255

theorem Reached.mono {ys : List Queue} (h : Reached xs x) (hsub : ∀ y ∈ xs, y ∈ ys) : Reached ys x := by
  obtain ⟨y, hy, hreach⟩ := h
  exact ⟨y, hsub y hy, hreach⟩

/-- The longest prefix among all elements is the one whose list a name is in. -/
theorem short_iff : ∀ {pre : Nat}, Nested f →
    (f.flat.Pairwise fun a b => key a.name < key b.name) → (∀ x ∈ f.flat, pre ≤ x.name.length) →
    (Short pre f ↔ ∀ x ∈ f.flat, x.name.length ≤ pre + 255 ∨ Reached f.flat x) := by
  induction f with
  | nil => exact fun _ _ _ => ⟨fun _ => nofun, fun _ => trivial⟩
  | cons q list next ihlist ihnext =>
    intro pre hnested hsorted hpre
    obtain ⟨hin, hout, hlist, hnext⟩ := hnested
    obtain ⟨hq, hsorted'⟩ := pairwise_cons.mp hsorted
    obtain ⟨hslist, hsnext, hcross⟩ := pairwise_append.mp hsorted'
    have hlistPre : ∀ x ∈ list.flat, q.name.length ≤ x.name.length := fun x hx => (hin x hx).2.length_le
    have hnextPre : ∀ x ∈ next.flat, pre ≤ x.name.length := fun x hx => hpre x (by simp [Forest.flat, hx])
    have hmemList : ∀ x ∈ list.flat, x ∈ (Forest.cons q list next).flat := fun x hx => by simp [Forest.flat, hx]
    have hmemNext : ∀ x ∈ next.flat, x ∈ (Forest.cons q list next).flat := fun x hx => by simp [Forest.flat, hx]
    have hmemSelf : q ∈ (Forest.cons q list next).flat := mem_cons_self
    rw [Short, ihlist hlist hslist hlistPre, ihnext hnext hsnext hnextPre]
    constructor
    · rintro ⟨hqlen, hlistShort, hnextShort⟩ x hx
      rw [Forest.flat, mem_cons, mem_append] at hx
      rcases hx with rfl | hx | hx
      · exact .inl hqlen
      · right
        rcases hlistShort x hx with hle | hreach
        · obtain ⟨hincl, hqx⟩ := hin x hx
          refine ⟨q, hmemSelf, hincl, hqx, fun heq => ?_, hle⟩
          exact absurd (hq x (mem_append_left _ hx)) (by rw [heq]; exact lt_irrefl _)
        · exact hreach.mono hmemList
      · exact (hnextShort x hx).imp_right fun hreach => hreach.mono hmemNext
    · intro h
      refine ⟨?_, fun x hx => ?_, fun x hx => ?_⟩
      · rcases h q hmemSelf with hle | ⟨y, hy, -, hyq, hne, -⟩
        · exact hle
        rcases mem_cons.mp hy with rfl | hy
        · exact absurd rfl hne
        · exact absurd hyq (not_prefix_of_lt (hq y hy))
      · rcases h x (hmemList x hx) with hle | ⟨y, hy, hincl, hyx, hne, hle⟩
        · have := hpre q hmemSelf
          exact .inl (by omega)
        rw [Forest.flat, mem_cons, mem_append] at hy
        rcases hy with rfl | hy | hy
        · exact .inl hle
        · exact .inr ⟨y, hy, hincl, hyx, hne, hle⟩
        · exact absurd hyx (not_prefix_of_lt (hcross x hx y hy))
      · rcases h x (hmemNext x hx) with hle | ⟨y, hy, hincl, hyx, hne, hle⟩
        · exact .inl hle
        rw [Forest.flat, mem_cons, mem_append] at hy
        rcases hy with rfl | hy | hy
        · exact absurd hyx (hout hincl x hx)
        · exact absurd ((hin y hy).2.trans hyx) (hout (hin y hy).1 x hx)
        · exact .inr ⟨y, hy, hincl, hyx, hne, hle⟩

section Joined
variable {qs : List Queue} (h : Joined ls qs)
include h

theorem Joined.exact (hl : l ∈ ls) (hmatch : l.exactMatch = true) : ∃ q ∈ qs, q.exact = some l := by
  obtain ⟨q, hq, hcovers⟩ := h.covers l hl
  exact ⟨q, hq, hcovers.exact l (by rw [Queue.of, hmatch]; rfl)⟩

theorem Joined.inclusive (hl : l ∈ ls) (hmatch : l.exactMatch = false) : ∃ q ∈ qs, q.inclusive = some l := by
  obtain ⟨q, hq, hcovers⟩ := h.covers l hl
  exact ⟨q, hq, hcovers.inclusive l (by rw [Queue.of, hmatch]; rfl)⟩

theorem Joined.shortNames : ShortNames ls ↔ ∀ x ∈ qs, x.name.length ≤ 255 ∨ Reached qs x := by
  constructor
  · intro hshort x hx
    obtain ⟨l, hl, hname, -⟩ := select_valid (h.valid x hx)
    rcases hshort l hl with hle | ⟨l', hl', hmatch, hpre, hne, hle⟩
    · exact .inl (hname ▸ hle)
    obtain ⟨y, hy, hyl⟩ := h.inclusive hl' hmatch
    have hyname := ((h.valid y hy).inclusive l' hyl).2.2
    rw [hyname, hname] at hpre hne hle
    exact .inr ⟨y, hy, by rw [hyl]; rfl, hpre, hne, hle⟩
  · intro hreach l hl
    obtain ⟨x, hx, hcovers⟩ := h.covers l hl
    have hname : x.name = l.name := hcovers.name
    rcases hreach x hx with hle | ⟨y, hy, hincl, hpre, hne, hle⟩
    · exact .inl (hname ▸ hle)
    obtain ⟨l', hyl⟩ := isSome_iff_exists.mp hincl
    obtain ⟨hl', hmatch, hyname⟩ := (h.valid y hy).inclusive l' hyl
    rw [← hyname, hname] at hpre hne hle
    exact .inr ⟨l', hl', hmatch, hpre, hne, hle⟩

theorem Joined.pending (uri : Bytes) : Pending ls uri qs .declined :=
  ⟨fun _ hl hmatch _ => h.exact hl hmatch, fun _ hl => h.inclusive hl.1 hl.2.1⟩

end Joined

/-- The search in the tree of the locations answers all URIs rightly just if no name part
is too long for its length field. -/
theorem find_static_location_iff {ls : List Location} (hnul : ∀ l ∈ ls, NUL ∉ l.name) {tree : Tree}
    (htree : staticLocations ls = some tree) :
    (∀ uri, Selects ls uri (find tree uri .declined)) ↔ ShortNames ls := by
  obtain ⟨qs, hqs, rfl⟩ := map_eq_some_iff.mp htree
  have hjoined := joined hnul hqs
  have hflat := @flat_createList qs.length qs le_rfl
  have hnested := createList_nested le_rfl (fun q hq => (hjoined.valid q hq).text) hjoined.sorted
  generalize createList qs.length qs = f at hflat hnested
  have hlevel : Level ls [] f.entries :=
    level_of_nested hnested (hflat ▸ hjoined.sorted) (hflat ▸ hjoined.valid) fun _ _ => nil_prefix
  have hbuilt : Built ls [] f.entries (createTree qs.length f.entries 0) :=
    built_createTree hlevel (by rw [flatten_entries, hflat])
  have hshort : ShortNames ls ↔ ShortRows 0 f.entries := by
    rw [hjoined.shortNames, shortRows_entries, short_iff hnested (hflat ▸ hjoined.sorted) fun _ _ => Nat.zero_le _, hflat]
  rw [hshort]
  constructor
  · intro hall
    by_contra hlong
    obtain ⟨u, -, -, -, hwrong⟩ := wrong_of_long hbuilt hlong
    exact hwrong .declined nofun (hall u)
  · intro hrows uri
    have hpending := hjoined.pending uri
    rw [← hflat, ← flatten_entries] at hpending
    exact selects_find hbuilt hrows hpending

/-- A site with a redirect from `/a` to `/a/` and an exact location inside. -/
def siteLocations : List Location :=
  [⟨text "/".toList, false, false⟩, ⟨text "/a/".toList, false, true⟩, ⟨text "/a/b".toList, true, false⟩]

theorem find_static_location_iff_site : ∃ tree, staticLocations siteLocations = some tree ∧
      ∀ uri, Selects siteLocations uri (find tree uri .declined) := by
  obtain ⟨tree, htree⟩ : ∃ tree, staticLocations siteLocations = some tree := isSome_iff_exists.mp (by decide +kernel)
  refine ⟨tree, htree, (find_static_location_iff (by decide +kernel) htree).mpr ?_⟩
  have hlen : ∀ l ∈ siteLocations, l.name.length ≤ 255 := by decide +kernel
  exact fun l hl => .inl (hlen l hl)

/-- A slash and 255 letters. -/
def longLocation : Location := ⟨'/' :: List.replicate 255 'a', false, false⟩

/-- Its length field is zero: the location is selected for every URI. -/
theorem find_static_location_wrong :
    (staticLocations [longLocation]).map (find · (text "/".toList) .declined) = some (.again longLocation) ∧
      ¬ Selects [longLocation] (text "/".toList) (.again longLocation) := by
  refine ⟨by decide +kernel, fun h => ?_⟩
  exact absurd h.2.1.2.2.length_le (by decide +kernel)

end Locations
end GokuStudio.Nginx
