import GokuStudio.Nginx.Hash.Sizes

/-!
# What is built is found

The elements of a bucket lie one after the other in its area, so a lookup meets all of them
and then the `NULL` at the end.
-/

namespace GokuStudio.Nginx.Hash

open Lib List Option
variable {P : Platform}

/-! ## §1 Reading and writing -/

section Memory
variable {mem mem' : Mem} {a v n : Nat} {s : Bytes}

theorem readPtr_congr (h : ∀ x, a ≤ x → x < a + P.ptr → mem' x = mem x) : readPtr P mem' a = readPtr P mem a := by
  have hall : ∀ v, (∀ i < P.ptr, mem' (a + i) = some (.ptr v i)) ↔ ∀ i < P.ptr, mem (a + i) = some (.ptr v i) :=
    fun v => forall₂_congr fun i hi => by rw [h (a + i) (by omega) (by omega)]
  rw [readPtr, readPtr, h a (Nat.le_refl a) (Nat.lt_add_of_pos_right P.ptr_pos)]
  simp only [hall]

theorem readShort_congr (h : ∀ x, a ≤ x → x < a + 2 → mem' x = mem x) : readShort mem' a = readShort mem a := by
  rw [readShort, readShort, h a (by omega) (by omega), h (a + 1) (by omega) (by omega)]

theorem readPtr_writePtr : readPtr P (writePtr P mem a v) a = some v := by
  have hself : ∀ i < P.ptr, writePtr P mem a v (a + i) = some (.ptr v i) := by
    intro i hi
    rw [writePtr, if_pos ⟨by omega, by omega⟩, Nat.add_sub_cancel_left]
  have hfirst : writePtr P mem a v a = some (.ptr v 0) := hself 0 P.ptr_pos
  rw [readPtr, hfirst]
  exact if_pos hself

theorem writePtr_of (x : Nat) (h : x < a ∨ a + P.ptr ≤ x) : writePtr P mem a v x = mem x := by
  rw [writePtr, if_neg (by omega)]

theorem readShort_writeShort : readShort (writeShort mem a n) a = some n := by
  have hfirst : writeShort mem a n a = some (.short n 0) := by
    rw [writeShort, if_pos ⟨by omega, by omega⟩, Nat.sub_self]
  have hsecond : writeShort mem a n (a + 1) = some (.short n 1) := by
    rw [writeShort, if_pos ⟨by omega, by omega⟩, Nat.add_sub_cancel_left]
  rw [readShort, hfirst, hsecond]
  exact if_pos rfl

theorem writeShort_of (x : Nat) (h : x < a ∨ a + 2 ≤ x) : writeShort mem a n x = mem x := by
  rw [writeShort, if_neg (by omega)]

theorem writeBytes_self {i : Nat} (hi : i < s.length) : writeBytes mem a s (a + i) = s[i]?.map .byte := by
  rw [writeBytes, if_pos ⟨by omega, by omega⟩, Nat.add_sub_cancel_left]

theorem writeBytes_of (x : Nat) (h : x < a ∨ a + s.length ≤ x) : writeBytes mem a s x = mem x := by
  rw [writeBytes, if_neg (by omega)]

end Memory

/-! ## §2 Elements -/

/-- An element at an address. -/
structure EltAt (P : Platform) (mem : Mem) (a : Nat) (name : Name) : Prop where
  value : readPtr P mem a = some name.value
  len : readShort mem (a + P.ptr) = some name.len
  bytes : ∀ s ∈ name.data, ∀ i < s.length, mem (a + P.ptr + 2 + i) = (strlow s)[i]?.map .byte

variable {name : Name} {names : List Name} {a : Nat} {mem mem' : Mem} {s : Bytes}

theorem EltAt.frame (h : EltAt P mem a name)
    (hsame : ∀ x, a ≤ x → x < a + eltSize P name → mem' x = mem x) : EltAt P mem' a name := by
  have hle := @le_eltSize P name
  refine ⟨?_, ?_, fun s hs i hi => ?_⟩
  · rw [readPtr_congr fun x hx hlt => hsame x hx (by omega)]
    exact h.value
  · rw [readShort_congr fun x hx hlt => hsame x (by omega) (by omega)]
    exact h.len
  · have hlen := name.length_eq s hs
    rw [hsame _ (by omega) (by omega)]
    exact h.bytes s hs i hi

/-- Elements one after the other. -/
def Laid (P : Platform) (mem : Mem) : Nat → List Name → Prop
  | _, [] => True
  | a, name :: names => EltAt P mem a name ∧ Laid P mem (a + eltSize P name) names

/-- The length of some elements. -/
def extent (P : Platform) : List Name → Nat
  | [] => 0
  | name :: names => eltSize P name + extent P names

/-- The names of a bucket. -/
def inBucket (size i : Nat) (names : List Name) : List Name := names.filter fun name => name.used ∧ name.keyHash % size = i

theorem extent_inBucket (size i : Nat) (names : List Name) :
    extent P (inBucket size i names) = weight P size i names := by
  induction names with
  | nil => rfl
  | cons name names ih =>
    rw [weight]
    by_cases h : name.used ∧ name.keyHash % size = i
    · rw [inBucket, filter_cons_of_pos (by simpa using h), if_pos h, extent, ← ih]
      rfl
    · rw [inBucket, filter_cons_of_neg (by simpa using h), if_neg h, Nat.zero_add, ← ih]
      rfl

theorem Laid.frame (h : Laid P mem a names)
    (hsame : ∀ x, a ≤ x → x < a + extent P names → mem' x = mem x) : Laid P mem' a names := by
  induction names generalizing a with
  | nil => trivial
  | cons name names ih =>
    rw [extent] at hsame
    exact ⟨h.1.frame fun x hx hlt => hsame x hx (by omega), ih h.2 fun x hx hlt => hsame x (by omega) (by omega)⟩

theorem laid_snoc (h : Laid P mem a names)
    (hname : EltAt P mem (a + extent P names) name) : Laid P mem a (names ++ [name]) := by
  induction names generalizing a with
  | nil => exact ⟨hname, trivial⟩
  | cons x xs ih =>
    rw [extent, ← Nat.add_assoc] at hname
    exact ⟨h.1, ih h.2 hname⟩

/-! ## §3 Lookup in a bucket -/

theorem sameName_eq {t : Bytes} (hlen : s.length = t.length)
    (h : ∀ i < t.length, mem (a + i) = t[i]?.map .byte) : sameName mem a s = some (decide (s = t)) := by
  induction s generalizing a t with
  | nil =>
    cases t with
    | nil => rfl
    | cons => cases hlen
  | cons c s ih =>
    cases t with
    | nil => cases hlen
    | cons c' t =>
      have hfirst : readByte mem a = some c' := by
        have h0 : mem a = some (.byte c') := h 0 (Nat.succ_pos _)
        rw [readByte, h0]
      have hrest := @ih (a + 1) t (Nat.succ.inj hlen) fun i hi => by
        rw [Nat.add_assoc, Nat.add_comm 1 i]
        exact h (i + 1) (Nat.succ_lt_succ hi)
      rw [sameName, hfirst]
      by_cases hc : c = c'
      · simp [hc, hrest]
      · simp [hc]

/-- What a lookup in a bucket with some names gives. -/
def pick (s : Bytes) : List Name → Nat
  | [] => 0
  | name :: names => if name.data.map strlow = some s then name.value else pick s names

theorem loop_findTurn (h : Laid P mem a names) (hend : readPtr P mem (a + extent P names) = some 0) (ha : P.ptr ∣ a)
    (hnames : ∀ name ∈ names, name.used = true ∧ name.value ≠ 0) :
    loop (findTurn P mem s) a = some (pick s names) := by
  induction names generalizing a with
  | nil =>
    have hturn : findTurn P mem s a = some (.inr 0) := by
      rw [findTurn, show readPtr P mem a = some 0 from hend]
      rfl
    exact loop_done hturn
  | cons name names ih =>
    obtain ⟨hused, hvalue⟩ := hnames name mem_cons_self
    obtain ⟨data, hdata⟩ := isSome_iff_exists.mp hused
    have hlen := name.length_eq data hdata
    have hlow : (strlow data).length = name.len := by rw [strlow, length_map, hlen]
    have hsame : (if s.length ≠ name.len then some false else sameName mem (a + P.ptr + 2) s) =
        some (decide (s = strlow data)) := by
      by_cases hl : s.length = name.len
      · rw [if_neg (not_not.mpr hl)]
        exact sameName_eq (hl.trans hlow.symm) fun i hi => h.1.bytes data hdata i (by omega)
      have hne : s ≠ strlow data := fun heq => hl (by rw [heq, hlow])
      rw [if_pos hl]
      simp [hne]
    have hturn : findTurn P mem s a = some (if s = strlow data then .inr name.value else .inl (a + eltSize P name)) := by
      obtain ⟨v, hv⟩ := Nat.exists_eq_succ_of_ne_zero hvalue
      have hread := h.1.value
      rw [hv] at hread ⊢
      simp only [findTurn, hread, h.1.len, hsame, align_next ha]
      by_cases heq : s = strlow data
      · rw [if_pos heq, decide_eq_true heq]
      · rw [if_neg heq, decide_eq_false heq]
    rw [pick, hdata, map_some]
    by_cases heq : s = strlow data
    · rw [if_pos heq] at hturn
      rw [if_pos (congrArg some heq.symm)]
      exact loop_done hturn
    rw [if_neg heq] at hturn
    rw [if_neg fun h => heq (some.inj h).symm, loop_next hturn]
    rw [extent, ← Nat.add_assoc] at hend
    exact ih h.2 hend (Nat.dvd_add ha (dvd_eltSize name)) (forall_mem_cons.mp hnames).2

/-! ## §4 Filling the buckets -/

section Filling
variable (P names) (size : Nat) (buckets : Nat → Option Nat) (area : Nat → Nat)

/-- Where the buckets are: `area i` bytes are reserved for the bucket `i`. -/
structure Layout : Prop where
  room : ∀ i b, buckets i = some b → P.ptr + weight P size i names ≤ area i
  exists_bucket : ∀ name ∈ names, name.used = true → ∃ b, buckets (name.keyHash % size) = some b
  disjoint : ∀ i j b c, i ≠ j → buckets i = some b → buckets j = some c → b + area i ≤ c ∨ c + area j ≤ b
  dvd : ∀ i b, buckets i = some b → P.ptr ∣ b
  len : ∀ name ∈ names, name.used = true → name.len < 65536
  word : ∀ i, weight P size i names ≤ 65535

/-- A write in the area of its bucket. -/
def Inside (x : Write) : Prop := ∃ b, buckets x.bucket = some b ∧ b ≤ x.addr ∧ x.addr + x.len ≤ b + area x.bucket

/-- The elements of some names are filled in. -/
structure Filled (xs : List Name) (f : Fill) : Prop where
  test : ∀ i, (f.test i).toNat = weight P size i xs
  laid : ∀ i b, buckets i = some b → Laid P f.mem b (inBucket size i xs)
  writes : ∀ x ∈ f.writes, Inside buckets area x

/-- All elements are filled in, and some of the ends. -/
structure Ended (js : List Nat) (f : Fill) : Prop extends Filled P size buckets area names f where
  ends : ∀ i ∈ js, ∀ b, buckets i = some b → readPtr P f.mem (b + weight P size i names) = some 0

variable {P names size buckets area} {xs ys : List Name} {f : Fill}

theorem inBucket_snoc (i : Nat) (name : Name) : inBucket size i (xs ++ [name]) =
    inBucket size i xs ++ if name.used ∧ name.keyHash % size = i then [name] else [] := by
  rw [inBucket, filter_append]
  by_cases h : name.used ∧ name.keyHash % size = i
  · rw [filter_cons_of_pos (by simpa using h), if_pos h]
    rfl
  · rw [filter_cons_of_neg (by simpa using h), if_neg h]
    rfl

/-- An element is written, and nothing else. -/
theorem write_elt {data : Bytes} (hdata : name.data = some data) (hlen : name.len < 65536)
    (elt : Nat) (hmem : mem' = writeBytes (writeShort (writePtr P mem elt name.value) (elt + P.ptr) (name.len % 65536))
      (elt + P.ptr + 2) (strlow data)) :
    EltAt P mem' elt name ∧ ∀ x, x < elt ∨ elt + eltSize P name ≤ x → mem' x = mem x := by
  have hlow : (strlow data).length = name.len := by rw [strlow, length_map, name.length_eq data hdata]
  have hle := @le_eltSize P name
  subst hmem
  refine ⟨⟨?_, ?_, fun s hs i hi => ?_⟩, fun x hx => ?_⟩
  · rw [readPtr_congr fun x hx hlt => writeBytes_of x (by omega), readPtr_congr fun x hx hlt => writeShort_of x (by omega)]
    exact readPtr_writePtr
  · rw [readShort_congr fun x hx hlt => writeBytes_of x (by omega), readShort_writeShort, Nat.mod_eq_of_lt hlen]
  · cases hdata.symm.trans hs
    exact writeBytes_self (by rwa [hlow, ← name.length_eq data hdata])
  · rw [writeBytes_of x (by omega), writeShort_of x (by omega), writePtr_of x (by omega)]

variable (hlayout : Layout P names size buckets area)
include hlayout

theorem Filled.fillName (h : Filled P size buckets area xs f) (hnames : names = xs ++ name :: ys) :
    ∃ f', fillName P buckets size f name = some f' ∧ Filled P size buckets area (xs ++ [name]) f' := by
  have hmem : name ∈ names := hnames ▸ mem_append_right _ mem_cons_self
  cases hdata : name.data with
  | none =>
    have hunused : ¬ name.used = true := by rw [Name.used, hdata]; exact Bool.false_ne_true
    refine ⟨f, ?_, fun i => ?_, fun i b hb => ?_, h.writes⟩
    · rw [Hash.fillName, hdata]
    · rw [weight_snoc, if_neg fun h => hunused h.1, Nat.add_zero]
      exact h.test i
    · rw [inBucket_snoc, if_neg fun h => hunused h.1, append_nil]
      exact h.laid i b hb
  | some data =>
    have hused : name.used = true := by rw [Name.used, hdata]; rfl
    obtain ⟨b, hb⟩ := hlayout.exists_bucket name hmem hused
    have hcat : names = xs ++ [name] ++ ys := by rw [hnames, append_assoc]; rfl
    have hself : weight P size (name.keyHash % size) xs + eltSize P name ≤ weight P size (name.keyHash % size) names := by
      rw [hcat, weight_append, weight_snoc, if_pos ⟨hused, rfl⟩]
      exact Nat.le_add_right _ _
    have hroom := hlayout.room _ b hb
    have hword := hlayout.word (name.keyHash % size)
    have hle := @le_eltSize P name
    generalize hk : name.keyHash % size = k at *
    generalize hmem' : writeBytes (writeShort (writePtr P f.mem (b + weight P size k xs) name.value)
      (b + weight P size k xs + P.ptr) (name.len % 65536)) (b + weight P size k xs + P.ptr + 2) (strlow data) = mem'
    obtain ⟨helt, hothers⟩ := write_elt hdata (hlayout.len name hmem hused) _ hmem'.symm
    have hfill : Hash.fillName P buckets size f name = some ⟨mem', bump P size f.test name, f.writes ++
        [⟨k, b + weight P size k xs, P.ptr⟩, ⟨k, b + weight P size k xs + P.ptr, 2⟩,
          ⟨k, b + weight P size k xs + P.ptr + 2, name.len⟩]⟩ := by
      simp only [Hash.fillName, hk, hb, hdata, h.test, hmem']
    refine ⟨_, hfill, fun i => ?_, fun i c hc => ?_, fun x hx => ?_⟩
    · have hbump := @bump_eq P size f.test name xs 0 hused (fun i => (h.test i).trans (Nat.zero_add _).symm)
        (by rw [hk, weight_snoc, if_pos ⟨hused, hk⟩]; omega) i
      rwa [Nat.zero_add] at hbump
    · have hextent := @extent_inBucket P size i xs
      rw [inBucket_snoc, hk]
      by_cases hi : k = i
      · subst hi
        cases hb.symm.trans hc
        rw [if_pos ⟨hused, rfl⟩]
        refine laid_snoc ((h.laid k b hb).frame fun x hx hlt => hothers x (by omega)) ?_
        rw [hextent]
        exact helt
      rw [if_neg fun h => hi h.2, append_nil]
      have hroom' := hlayout.room i c hc
      have hsub : weight P size i xs ≤ weight P size i names := by
        rw [hnames, weight_append]
        exact Nat.le_add_right _ _
      refine (h.laid i c hc).frame fun x hx hlt => hothers x ?_
      rcases hlayout.disjoint k i b c hi hb hc with hbc | hcb <;> omega
    · rcases mem_append.mp hx with hx | hx
      · exact h.writes x hx
      · simp only [mem_cons, not_mem_nil, or_false] at hx
        rcases hx with rfl | rfl | rfl <;> exact ⟨b, hb, by dsimp only; omega, by dsimp only; omega⟩

theorem Filled.foldlM (h : Filled P size buckets area xs f) (hnames : names = xs ++ ys) :
    ∃ f', ys.foldlM (Hash.fillName P buckets size) f = some f' ∧ Filled P size buckets area names f' := by
  induction ys generalizing xs f with
  | nil =>
    rw [append_nil] at hnames
    exact ⟨f, rfl, hnames ▸ h⟩
  | cons name ys ih =>
    obtain ⟨f1, hfill, h1⟩ := h.fillName hlayout hnames
    obtain ⟨f', hrest, h'⟩ := ih h1 (by rw [hnames, append_assoc]; rfl)
    refine ⟨f', ?_, h'⟩
    rw [foldlM_cons, hfill]
    exact hrest

theorem Ended.fillEnd {js : List Nat} (h : Ended P names size buckets area js f) (j : Nat) :
    Ended P names size buckets area (js ++ [j]) (fillEnd P buckets f j) := by
  rw [Hash.fillEnd]
  cases hb : buckets j with
  | none =>
    refine ⟨h.toFilled, fun i hi b hbi => ?_⟩
    rcases mem_append.mp hi with hi | hi
    · exact h.ends i hi b hbi
    · rw [mem_singleton.mp hi, hb] at hbi
      cases hbi
  | some b =>
    have hroom := hlayout.room j b hb
    simp only [h.test]
    -- the write is in its own area, behind the elements
    have hothers : ∀ i c, buckets i = some c → i ≠ j → ∀ x, c ≤ x → x < c + area i →
        writePtr P f.mem (b + weight P size j names) 0 x = f.mem x := by
      intro i c hc hij x hx hlt
      refine writePtr_of x ?_
      rcases hlayout.disjoint i j c b hij hc hb with hle | hle <;> omega
    refine ⟨⟨h.test, fun i c hc => ?_, fun x hx => ?_⟩, fun i hi c hc => ?_⟩
    · have hextent := @extent_inBucket P size i names
      refine (h.laid i c hc).frame fun x hx hlt => ?_
      by_cases hij : i = j
      · subst hij
        cases hb.symm.trans hc
        exact writePtr_of x (by omega)
      · exact hothers i c hc hij x hx (by have := hlayout.room i c hc; omega)
    · rcases mem_append.mp hx with hx | hx
      · exact h.writes x hx
      · rw [mem_singleton.mp hx]
        exact ⟨b, hb, Nat.le_add_right _ _, by show b + _ + P.ptr ≤ b + area j; omega⟩
    · by_cases hij : i = j
      · subst hij
        cases hb.symm.trans hc
        exact readPtr_writePtr
      have hin : i ∈ js := (mem_append.mp hi).resolve_right fun h => hij (mem_singleton.mp h)
      have hroom' := hlayout.room i c hc
      rw [readPtr_congr fun x hx hlt => hothers i c hc hij x (by omega) (by omega)]
      exact h.ends i hin c hc

theorem Ended.foldl {is js : List Nat} (h : Ended P names size buckets area is f) :
    Ended P names size buckets area (is ++ js) (js.foldl (Hash.fillEnd P buckets) f) := by
  induction js generalizing is f with
  | nil => rwa [append_nil]
  | cons j js ih =>
    rw [foldl_cons, show is ++ j :: js = is ++ [j] ++ js by rw [append_assoc]; rfl]
    exact ih (h.fillEnd hlayout j)

end Filling

/-! ## §5 The table -/

/-- What a lookup in the whole table gives. -/
theorem find_eq {size : Nat} {buckets : Nat → Option Nat} {area : Nat → Nat} {f : Fill}
    (hlayout : Layout P names size buckets area) (h : Ended P names size buckets area (range size) f)
    (hempty : ∀ i, buckets i = none → inBucket size i names = []) (hsize : 0 < size)
    (hvalues : ∀ name ∈ names, name.used = true → name.value ≠ 0) (key : Nat) (s : Bytes) :
    find P ⟨buckets, size, f.mem⟩ key s = some (pick s (inBucket size (key % size) names)) := by
  simp only [find]
  cases hb : buckets (key % size) with
  | none =>
    rw [hempty _ hb]
    rfl
  | some b =>
    have hmem : key % size ∈ range size := mem_range.mpr (Nat.mod_lt key hsize)
    have hend := h.ends _ hmem b hb
    rw [← extent_inBucket] at hend
    refine loop_findTurn (h.laid _ b hb) hend (hlayout.dvd _ b hb) fun name hname => ?_
    obtain ⟨hin, hcond⟩ := mem_filter.mp hname
    obtain ⟨hused, -⟩ := of_decide_eq_true hcond
    exact ⟨hused, hvalues name hin hused⟩

theorem pick_of_none (h : ∀ name ∈ names, name.data.map strlow ≠ some s) : pick s names = 0 := by
  induction names with
  | nil => rfl
  | cons name names ih =>
    rw [pick, if_neg (h name mem_cons_self)]
    exact ih (forall_mem_cons.mp h).2

/-- Names that differ when they are written in lower case. -/
def Distinct (names : List Name) : Prop :=
  names.Pairwise fun x y => ∀ s, x.data.map strlow = some s → y.data.map strlow ≠ some s

theorem pick_of_mem (hdistinct : Distinct names) (hmem : name ∈ names)
    (hs : name.data.map strlow = some s) : pick s names = name.value := by
  induction names with
  | nil => cases hmem
  | cons x names ih =>
    obtain ⟨hx, hrest⟩ := pairwise_cons.mp hdistinct
    rw [pick]
    rcases mem_cons.mp hmem with rfl | hmem
    · rw [if_pos hs]
    · rw [if_neg fun h => hx name hmem s h hs]
      exact ih hrest hmem

section Built
variable {w : Nat} {hinit : Init w} {names : List Name} {size base : Nat} {built : Built} {used : List Nat}

theorem le_weight {name : Name} (hmem : name ∈ names) (hused : name.used = true) :
    eltSize P name ≤ weight P size (name.keyHash % size) names := by
  obtain ⟨xs, ys, rfl⟩ := append_of_mem hmem
  rw [weight_append, weight, if_pos ⟨hused, rfl⟩]
  omega

/-- The place of a bucket, if it has elements. -/
def bucketAt (P : Platform) (names : List Name) (size base i : Nat) : Option Nat :=
  if i < size ∧ (reserved P names size i).toNat ≠ P.ptr then some (base + offset P (reserved P names size) i) else none

theorem bucketAt_eq_some {i b : Nat} (h : bucketAt P names size base i = some b) :
    i < size ∧ (reserved P names size i).toNat ≠ P.ptr ∧ b = base + offset P (reserved P names size) i := by
  rw [bucketAt] at h
  split at h
  case isTrue hi =>
    cases h
    exact ⟨hi.1, hi.2, rfl⟩
  case isFalse => cases h

section
variable (hareas : AreasFit P size names)
include hareas

variable (hbase : P.cacheline ∣ base)
include hbase

theorem layout_of (hsize : 0 < size) :
    Layout P names size (bucketAt P names size base) fun i => (reserved P names size i).toNat where
  room i b hb := by
    rw [hareas.reserved, if_neg ((hareas.reserved_ne i).mp (bucketAt_eq_some hb).2.1)]
    exact le_align _ P.cacheline_pos
  exists_bucket name hmem hused := by
    have hle := @le_weight P names size name hmem hused
    have helt := @le_eltSize P name
    have hpos := P.ptr_pos
    exact ⟨_, if_pos ⟨Nat.mod_lt _ hsize, (hareas.reserved_ne _).mpr (by omega)⟩⟩
  disjoint i j b c hij hb hc := by
    obtain ⟨-, hi, rfl⟩ := bucketAt_eq_some hb
    obtain ⟨-, hj, rfl⟩ := bucketAt_eq_some hc
    rcases Nat.lt_or_gt_of_ne hij with hlt | hgt
    · have hle := @offset_add_le P (reserved P names size) i j hlt hi
      omega
    · have hle := @offset_add_le P (reserved P names size) j i hgt hj
      omega
  dvd i b hb := by
    obtain ⟨-, -, rfl⟩ := bucketAt_eq_some hb
    exact Nat.dvd_trans P.dvd (Nat.dvd_add hbase (hareas.dvd_offset i))
  len name hmem hused := by
    have hsum := hareas.sum_le (name.keyHash % size)
    have hle := @le_weight P names size name hmem hused
    have helt := @le_eltSize P name
    omega
  word i := by
    have hsum := hareas.sum_le i
    omega

/-- What a table should be. -/
structure Right (P : Platform) (hinit : Init w) (names : List Name) (built : Built) : Prop where
  found : ∀ name ∈ names, ∀ s, name.data = some s → find P built.table name.keyHash (strlow s) = some name.value
  other : ∀ key s, (∀ name ∈ names, name.data.map strlow ≠ some s) → find P built.table key s = some 0
  writes : ∀ x ∈ built.writes, Inside built.table.buckets (fun i => (built.reserved i).toNat) x
  used : ∀ i ∈ built.used, i < hinit.maxSize

/-- Whether names are found in a table, and nothing else. -/
structure Finds (P : Platform) (names : List Name) (table : Table) : Prop where
  found : ∀ name ∈ names, ∀ s, name.data = some s → find P table name.keyHash (strlow s) = some name.value
  other : ∀ key s, (∀ name ∈ names, name.data.map strlow ≠ some s) → find P table key s = some 0

variable (hsize : 0 < size) (hvalues : ∀ name ∈ names, name.used = true → name.value ≠ 0) (hdistinct : Distinct names)
  (hbuild : build P hinit names size base used = some built)

include hsize hvalues hdistinct hbuild

theorem build_spec : Finds P names built.table ∧ (∀ x ∈ built.writes, Inside built.table.buckets (fun i => (built.reserved i).toNat) x) ∧
      built.used = used ++ range size := by
  have hlayout := layout_of hareas hbase hsize
  have hstart : Filled P size (bucketAt P names size base) (fun i => (reserved P names size i).toNat) []
      ⟨hinit.mem, fun _ => 0, []⟩ := ⟨fun _ => rfl, fun _ _ _ => trivial, nofun⟩
  obtain ⟨f, hfold, hfilled⟩ := hstart.foldlM hlayout rfl
  have hended := @Ended.foldl P names size _ _ f hlayout [] (range size) ⟨hfilled, nofun⟩
  obtain rfl := some.inj ((congrArg (Option.map _) hfold).symm.trans hbuild)
  have hempty : ∀ i, bucketAt P names size base i = none → inBucket size i names = [] := by
    intro i hi
    refine filter_eq_nil_iff.mpr fun name hmem hcond => ?_
    obtain ⟨hused, rfl⟩ := of_decide_eq_true hcond
    obtain ⟨b, hb⟩ := hlayout.exists_bucket name hmem hused
    cases hi.symm.trans hb
  have hfind := find_eq hlayout hended hempty hsize hvalues
  refine ⟨⟨fun name hmem s hs => ?_, fun key s hs => ?_⟩, hended.writes, rfl⟩
  · have hused : name.used = true := by rw [Name.used, hs]; rfl
    refine (hfind name.keyHash (strlow s)).trans (congrArg some ?_)
    refine pick_of_mem (hdistinct.sublist filter_sublist) (mem_filter.mpr ⟨hmem, ?_⟩) (by rw [hs]; rfl)
    exact decide_eq_true ⟨hused, rfl⟩
  · refine (hfind key s).trans (congrArg some ?_)
    exact pick_of_none fun name hmem => hs name (mem_filter.mp hmem).1

theorem build_right (hle : size ≤ hinit.maxSize) (hused : ∀ i ∈ used, i < hinit.maxSize) : Right P hinit names built := by
  obtain ⟨hfinds, hwrites, heq⟩ := build_spec hareas hbase hsize hvalues hdistinct hbuild
  refine ⟨hfinds.found, hfinds.other, hwrites, fun i hi => ?_⟩
  rcases mem_append.mp (heq ▸ hi) with hi | hi
  · exact hused i hi
  · exact Nat.lt_of_lt_of_le (mem_range.mp hi) hle

end

/-- The size of a table that is built. -/
def Init.found (P : Platform) (hinit : Init w) (names : List Name) : Nat × List Nat :=
  search P (hinit.room P) names (hinit.maxSize + 1 - hinit.start P names.length) (hinit.start P names.length)

theorem init_eq_ok (h : init P hinit names = some (.ok built)) :
    ∃ base, P.cacheline ∣ base ∧ build P hinit names (hinit.found P names).1 base (hinit.found P names).2 = some built := by
  rw [init] at h
  split at h
  case isTrue => cases h
  split at h
  case isTrue => cases h
  split at h
  case isTrue => cases h
  simp only at h
  split at h
  case isTrue => cases h
  cases helts : hinit.elts with rw [helts] at h
  | none =>
    cases h
  | some elts =>
    obtain ⟨built', hbuild, heq⟩ := map_eq_some_iff.mp h
    cases heq
    exact ⟨_, dvd_align _ _, hbuild⟩

/-- The size is the first that fits, or it is larger than `max_size`. -/
theorem found_spec (hwrap : NoWrap P (hinit.room P) (hinit.start P names.length) hinit.maxSize names) :
    First P (hinit.room P) (hinit.start P names.length) hinit.maxSize names (hinit.found P names).1 ∧
        (∀ i ∈ (hinit.found P names).2, i < hinit.maxSize) ∨
      (hinit.found P names).1 = max (hinit.maxSize + 1) (hinit.start P names.length) ∧
        ∀ s, hinit.start P names.length ≤ s → s ≤ hinit.maxSize → ¬ Fits P (hinit.room P) s names := by
  have hpos := @start_pos P w hinit names.length
  by_cases hstart : hinit.start P names.length ≤ hinit.maxSize + 1
  · rcases search_spec hwrap (hinit.maxSize + 1 - hinit.start P names.length) _ le_rfl hpos (by omega)
      (fun s hs hlt => absurd hs (Nat.not_le.mpr hlt)) with hfirst | ⟨hsize, hnone⟩
    · exact .inl hfirst
    · exact .inr ⟨hsize.trans (Nat.max_eq_left hstart).symm, hnone⟩
  right
  have hturns : hinit.maxSize + 1 - hinit.start P names.length = 0 := by omega
  rw [Init.found, hturns, search]
  refine ⟨(Nat.max_eq_right (by omega)).symm, fun s hs hle => ?_⟩
  omega

/-- A table that is built without a wrap is right iff some size fits. -/
theorem hash_right_iff {built : Built} (hwrap : NoWrap P (hinit.room P) (hinit.start P names.length) hinit.maxSize names)
    (hareas : ∀ size, First P (hinit.room P) (hinit.start P names.length) hinit.maxSize names size → AreasFit P size names)
    (hvalues : ∀ name ∈ names, name.used = true → name.value ≠ 0) (hdistinct : Distinct names)
    (hok : init P hinit names = some (.ok built)) :
    Right P hinit names built ↔
      ∃ size, hinit.start P names.length ≤ size ∧ size ≤ hinit.maxSize ∧ Fits P (hinit.room P) size names := by
  have hpos := @start_pos P w hinit names.length
  obtain ⟨base, hbase, hbuild⟩ := init_eq_ok hok
  rcases found_spec hwrap with ⟨hfirst, hused⟩ | ⟨heq, hnone⟩
  · refine iff_of_true ?_ ⟨_, hfirst.start_le, hfirst.le_max, hfirst.fits⟩
    exact build_right (hareas _ hfirst) hbase (Nat.lt_of_lt_of_le hpos hfirst.start_le) hvalues hdistinct hbuild hfirst.le_max
      hused
  refine iff_of_false (fun hright => ?_) ?_
  · -- a size that is too large is used as an index
    rw [build] at hbuild
    obtain ⟨f, -, rfl⟩ := map_eq_some_iff.mp hbuild
    have hlast := hright.used ((hinit.found P names).1 - 1) (mem_append_right _ (mem_range.mpr (by omega)))
    omega
  · rintro ⟨size, hs, hle, hfits⟩
    exact hnone size hs hle hfits

end Built

/-- Pointers of 8 bytes and cache lines of 64. -/
def amd64 : Platform := ⟨8, 64, by decide, by decide, by decide, by decide⟩

/-- A name of one byte. -/
def short (c : UInt8) (keyHash value : Nat) : Name := ⟨some [c], 1, keyHash, value, fun s hs => by cases hs; rfl⟩

/-- A name of `n` times the byte "a". -/
def long (n keyHash value : Nat) : Name :=
  ⟨some (List.replicate n 97), n, keyHash, value, fun s hs => by cases hs; exact List.length_replicate⟩

/-- A table of one bucket. -/
def single (bucketSize : BitVec 64) : Init 64 := ⟨1, bucketSize, true, true, some 4096, fun _ => none⟩

/-- A table with the name "a". -/
theorem hash_right_single :
    ∃ built, init amd64 (single 40) [short 97 5 7] = some (.ok built) ∧ Right amd64 (single 40) [short 97 5 7] built := by
  have hweight : ∀ size i, weight amd64 size i [short 97 5 7] = 0 ∨ weight amd64 size i [short 97 5 7] = 16 := by
    intro size i
    rw [weight]
    split
    · exact .inr rfl
    · exact .inl rfl
  refine ⟨_, rfl, (hash_right_iff ?_ (fun size _ i hne => ?_) (by decide) (pairwise_singleton _ _) rfl).mpr
    ⟨1, by decide, by decide, fun i => ?_⟩⟩
  · intro size _ _ _ xs name ys heq hused _
    cases xs with
    | nil =>
      cases heq
      refine ⟨by decide, ?_⟩
      rcases hweight size (5 % size) with h | h <;> exact Nat.le_trans (Nat.le_of_eq h) (by decide)
    | cons x xs =>
      cases xs <;> cases heq
  · rw [(hweight size i).resolve_left hne]
    decide
  · rcases hweight 1 i with h | h <;> rw [h] <;> decide

/-- Three names for one bucket of two: the index 1 of `test` is used, which has one place. And two
names whose sizes wrap around: they are written behind the area of their bucket. -/
theorem hash_wrong : (∃ built, init amd64 (single 40) [short 97 5 7, short 98 6 8, short 99 7 9] = some (.ok built) ∧
      ∃ i ∈ built.used, ¬ i < (single 40).maxSize) ∧
    ∃ built, init amd64 (single 40008) [long 38982 5 7, long 29982 6 8] = some (.ok built) ∧
      ∃ x ∈ built.writes, ¬ Inside built.table.buckets (fun i => (built.reserved i).toNat) x := by
  refine ⟨⟨_, rfl, 1, by decide, by decide⟩, _, rfl, ⟨0, 4106, 38982⟩, .tail _ (.tail _ (.head _)), ?_⟩
  rintro ⟨b, hb, -, hle⟩
  have hb : some 4096 = some b := hb
  cases hb
  revert hle
  decide

end GokuStudio.Nginx.Hash
