import GokuStudio.Lib.Residual
import GokuStudio.Nginx.Core

/-!
# What a chunked body is

`Body w d` is the grammar: chunks, each with a size in hexadecimal digits, an
optional extension, the end of a line, that many bytes, and the end of a line;
then a chunk of size zero and a trailer. Sizes are natural numbers. A line ends
with LF or with CR LF.

`bite` reads a body byte by byte. Each of its phases knows which words complete
the ones read so far (`lang`), so that the rules of `Lib.Residual` apply.
-/

namespace GokuStudio.Nginx

open Lib List

namespace ChunkedBody

/-! ## §1 The grammar -/

def LineEnd (w : Bytes) : Prop := w = [LF] ∨ w = [CR, LF]
def Text (w : Bytes) : Prop := ∀ c ∈ w, c ≠ CR ∧ c ≠ LF

/-- One word and then another. -/
def Then (A P : Bytes → Prop) (w : Bytes) : Prop := ∃ l r, w = l ++ r ∧ A l ∧ P r

def Line : Bytes → Prop := Then Text LineEnd

inductive Trailer : Bytes → Prop where
  | last {e : Bytes} : LineEnd e → Trailer e
  | header {c : UInt8} {l w : Bytes} : c ≠ CR → c ≠ LF → Line l → Trailer w → Trailer (c :: (l ++ w))

/-- What can follow the digits of a size. -/
def separator (c : UInt8) : Bool := c = ';' ∨ c = ' ' ∨ c = '\t'

def SizeEnd (w : Bytes) : Prop := LineEnd w ∨ ∃ sep l, separator sep ∧ Line l ∧ w = sep :: l

/-- The number with the digits of `n` and then those of the word. -/
def hexNumber (n : Nat) (ds : Bytes) : Option Nat := ds.foldlM (fun n c => (hexValue c).map (16 * n + ·.toNat)) n

/-- `Body w d`: the word `w` is a chunked body, and `d` is the data in it. -/
inductive Body : Bytes → Bytes → Prop where
  | last {ds e t : Bytes} : ds ≠ [] → hexNumber 0 ds = some 0 → SizeEnd e → Trailer t → Body (ds ++ (e ++ t)) []
  | chunk {ds e data l w d : Bytes} : ds ≠ [] → hexNumber 0 ds = some data.length → data ≠ [] →
      SizeEnd e → LineEnd l → Body w d → Body (ds ++ (e ++ (data ++ (l ++ w)))) (data ++ d)

/-! ## §2 Reading it -/

/-- Where a reader stands. In `data n` there are `n + 1` bytes to come. -/
inductive Phase where
  | start
  | size (n : Nat)
  | ext (n : Nat)
  | extCr (n : Nat)
  | data (n : Nat)
  | afterData
  | afterDataCr
  | trailer
  | trailerCr
  | header
  | headerCr
deriving DecidableEq, Repr

/-- Behind the line of the size. -/
def Phase.afterSize : Nat → Phase
  | 0 => .trailer
  | n + 1 => .data n

/-- Behind a byte of data. -/
def Phase.afterByte : Nat → Phase
  | 0 => .afterData
  | n + 1 => .data n

abbrev Byte := Bite Phase UInt8

/-- The end of a line leads to `lf`, other bytes to `other`. -/
def lineEnd (cr lf : Phase) (other : Byte) (c : UInt8) : Byte :=
  if c = CR then .next cr [] else if c = LF then .next lf [] else other

def lf (next : Phase) (c : UInt8) : Byte := if c = LF then .next next [] else .invalid

def bite : Phase → UInt8 → Byte
  | .start, c =>
    match hexValue c with
    | some v => .next (.size v.toNat) []
    | none => .invalid
  | .size n, c =>
    match hexValue c with
    | some v => .next (.size (16 * n + v.toNat)) []
    | none => lineEnd (.extCr n) (.afterSize n) (if separator c then .next (.ext n) [] else .invalid) c
  | .ext n, c => lineEnd (.extCr n) (.afterSize n) (.next (.ext n) []) c
  | .extCr n, c => lf (.afterSize n) c
  | .data n, c => .next (.afterByte n) [c]
  | .afterData, c => lineEnd .afterDataCr .start .invalid c
  | .afterDataCr, c => lf .start c
  | .trailer, c => if c = CR then .next .trailerCr [] else if c = LF then .done else .next .header []
  | .trailerCr, c => if c = LF then .done else .invalid
  | .header, c => lineEnd .headerCr .trailer (.next .header []) c
  | .headerCr, c => lf .trailer c

/-! ## §3 The words that complete a body -/

def InData (n : Nat) (w d : Bytes) : Prop :=
  ∃ data d', data.length = n ∧ Then (· = data) (Then LineEnd (Body · d')) w ∧ d = data ++ d'

def AfterSize : Nat → Bytes → Bytes → Prop
  | 0, w, d => Trailer w ∧ d = []
  | n + 1, w, d => InData (n + 1) w d

def lang : Phase → Bytes → Bytes → Prop
  | .start, w, d => Body w d
  | .size n, w, d => ∃ m, Then (hexNumber n · = some m) (Then SizeEnd (AfterSize m · d)) w
  | .ext n, w, d => Then Line (AfterSize n · d) w
  | .extCr n, w, d => Then (· = [LF]) (AfterSize n · d) w
  | .data n, w, d => InData (n + 1) w d
  | .afterData, w, d => Then LineEnd (Body · d) w
  | .afterDataCr, w, d => Then (· = [LF]) (Body · d) w
  | .trailer, w, d => Trailer w ∧ d = []
  | .trailerCr, w, d => w = [LF] ∧ d = []
  | .header, w, d => Then Line Trailer w ∧ d = []
  | .headerCr, w, d => Then (· = [LF]) Trailer w ∧ d = []

variable {P : Bytes → Prop} {n : Nat} {c : UInt8} {w d : Bytes} {s : Phase}

theorem lang_afterSize (n : Nat) : lang (.afterSize n) = AfterSize n := by
  cases n <;> rfl

theorem then_lf : Then (· = [LF]) P (c :: w) ↔ c = LF ∧ P w := by
  constructor
  · rintro ⟨l, r, h, rfl, hP⟩
    obtain ⟨rfl, rfl⟩ := cons.inj h
    exact ⟨rfl, hP⟩
  · rintro ⟨rfl, hP⟩
    exact ⟨[LF], w, rfl, rfl, hP⟩

theorem then_lineEnd : Then LineEnd P (c :: w) ↔ (c = CR ∧ Then (· = [LF]) P w) ∨ (c = LF ∧ P w) := by
  constructor
  · rintro ⟨l, r, h, rfl | rfl, hP⟩
    · obtain ⟨rfl, rfl⟩ := cons.inj h
      exact .inr ⟨rfl, hP⟩
    · obtain ⟨rfl, rfl⟩ := cons.inj h
      exact .inl ⟨rfl, [LF], r, rfl, rfl, hP⟩
  · rintro (⟨rfl, l, r, rfl, rfl, hP⟩ | ⟨rfl, hP⟩)
    · exact ⟨[CR, LF], r, rfl, .inr rfl, hP⟩
    · exact ⟨[LF], w, rfl, .inl rfl, hP⟩

theorem then_line : Then Line P (c :: w) ↔ Then LineEnd P (c :: w) ∨ (c ≠ CR ∧ c ≠ LF ∧ Then Line P w) := by
  constructor
  · rintro ⟨l, r, h, ⟨t, e, rfl, ht, he⟩, hP⟩
    cases t with
    | nil => exact .inl ⟨e, r, h, he, hP⟩
    | cons b t =>
      obtain ⟨rfl, rfl⟩ := cons.inj h
      have hb := ht c mem_cons_self
      exact .inr ⟨hb.1, hb.2, t ++ e, r, rfl, ⟨t, e, rfl, (forall_mem_cons.mp ht).2, he⟩, hP⟩
  · rintro (⟨e, r, h, he, hP⟩ | ⟨h1, h2, l, r, rfl, ⟨t, e, rfl, ht, he⟩, hP⟩)
    · exact ⟨e, r, h, ⟨[], e, rfl, by simp [Text], he⟩, hP⟩
    · exact ⟨c :: t ++ e, r, rfl, ⟨c :: t, e, rfl, forall_mem_cons.mpr ⟨⟨h1, h2⟩, ht⟩, he⟩, hP⟩

theorem then_sizeEnd : Then SizeEnd P (c :: w) ↔ Then LineEnd P (c :: w) ∨ (separator c ∧ Then Line P w) := by
  constructor
  · rintro ⟨l, r, h, he | ⟨sep, l, hsep, hl, rfl⟩, hP⟩
    · exact .inl ⟨l, r, h, he, hP⟩
    · obtain ⟨rfl, rfl⟩ := cons.inj h
      exact .inr ⟨hsep, l, r, rfl, hl, hP⟩
  · rintro (⟨l, r, h, he, hP⟩ | ⟨hsep, l, r, rfl, hl, hP⟩)
    · exact ⟨l, r, h, .inl he, hP⟩
    · exact ⟨c :: l, r, rfl, .inr ⟨c, l, hsep, hl, rfl⟩, hP⟩

theorem trailer_cons : Trailer (c :: w) ↔ (c = CR ∧ w = [LF]) ∨ (c = LF ∧ w = []) ∨
      (c ≠ CR ∧ c ≠ LF ∧ Then Line Trailer w) := by
  constructor
  · intro h
    generalize hx : c :: w = x at h
    cases h with
    | last he =>
      rcases he with rfl | rfl
      · obtain ⟨rfl, rfl⟩ := cons.inj hx
        exact .inr (.inl ⟨rfl, rfl⟩)
      · obtain ⟨rfl, rfl⟩ := cons.inj hx
        exact .inl ⟨rfl, rfl⟩
    | header h1 h2 hl ht =>
      obtain ⟨rfl, rfl⟩ := cons.inj hx
      exact .inr (.inr ⟨h1, h2, _, _, rfl, hl, ht⟩)
  · rintro (⟨rfl, rfl⟩ | ⟨rfl, rfl⟩ | ⟨h1, h2, l, t, rfl, hl, ht⟩)
    · exact .last (.inr rfl)
    · exact .last (.inl rfl)
    · exact .header h1 h2 hl ht

theorem hexNumber_cons (n : Nat) (c : UInt8) (ds : Bytes) :
    hexNumber n (c :: ds) = (hexValue c).bind fun v => hexNumber (16 * n + v.toNat) ds := by
  rw [hexNumber, foldlM_cons]
  cases hexValue c <;> rfl

/-- A body is digits, the end of a size, and what that size asks for. -/
theorem body_iff : Body w d ↔
    ∃ m, Then (fun ds => ds ≠ [] ∧ hexNumber 0 ds = some m) (Then SizeEnd (AfterSize m · d)) w := by
  constructor
  · intro h
    cases h with
    | last hne hds he ht => exact ⟨0, _, _, rfl, ⟨hne, hds⟩, _, _, rfl, he, ht, rfl⟩
    | @chunk ds e data l w d hne hds hdata he hl hb =>
      obtain ⟨n, hn⟩ : ∃ n, data.length = n + 1 :=
        ⟨data.length - 1, (Nat.sub_add_cancel (length_pos_iff.mpr hdata)).symm⟩
      refine ⟨n + 1, ds, _, rfl, ⟨hne, by rw [hds, hn]⟩, e, _, rfl, he, ?_⟩
      exact ⟨data, d, hn, ⟨data, _, rfl, rfl, l, w, rfl, hl, hb⟩, rfl⟩
  · rintro ⟨m, ds, w, rfl, ⟨hne, hds⟩, e, r, rfl, he, h⟩
    cases m with
    | zero =>
      obtain ⟨ht, rfl⟩ := h
      exact .last hne hds he ht
    | succ n =>
      obtain ⟨data, d', hlen, ⟨_, _, rfl, rfl, l, w, rfl, hl, hb⟩, rfl⟩ := h
      refine .chunk hne (by rw [hds, hlen]) ?_ he hl hb
      rintro rfl
      cases hlen

/-! ## §4 A byte leaves the words that complete it -/

/-- What is left to read behind a byte. -/
def Left (b : Byte) (w d : Bytes) : Prop :=
  match b with
  | .next s o => ∃ d', d = o ++ d' ∧ lang s w d'
  | .done => w = [] ∧ d = []
  | .invalid => False

section

theorem left_next : Left (.next s []) w d ↔ lang s w d := by
  constructor
  · rintro ⟨d', rfl, h⟩
    exact h
  · intro h
    exact ⟨d, rfl, h⟩

theorem left_lf {next : Phase} : Left (lf next c) w d ↔ c = LF ∧ lang next w d := by
  unfold lf
  split_ifs with h
  · rw [left_next, and_iff_right h]
  · exact iff_of_false id fun h' => h h'.1

theorem left_lineEnd {cr lf : Phase} {other : Byte} : Left (lineEnd cr lf other c) w d ↔
    (c = CR ∧ lang cr w d) ∨ (c = LF ∧ lang lf w d) ∨ (c ≠ CR ∧ c ≠ LF ∧ Left other w d) := by
  unfold lineEnd
  split_ifs with h1 h2
  · subst h1
    rw [left_next]
    have : CR ≠ LF := by decide
    simp [this]
  · subst h2
    rw [left_next]
    have : LF ≠ CR := by decide
    simp [this]
  · simp [h1, h2]

theorem hexValue_not_lineEnd : ∀ c : UInt8, (hexValue c).isSome → c ≠ CR ∧ c ≠ LF ∧ ¬ separator c := by
  apply forall_byte
  decide +kernel

theorem separator_not_lineEnd : ∀ c : UInt8, separator c → c ≠ CR ∧ c ≠ LF := by
  apply forall_byte
  decide +kernel

/-- A word that begins with digits, the first of them taken. -/
theorem then_digits {m : Nat} : Then (fun ds => ds ≠ [] ∧ hexNumber n ds = some m) P (c :: w) ↔
    ∃ v, hexValue c = some v ∧ Then (hexNumber (16 * n + v.toNat) · = some m) P w := by
  constructor
  · rintro ⟨ds, r, h, ⟨hne, hds⟩, hr⟩
    cases ds with
    | nil => exact absurd rfl hne
    | cons b ds =>
      obtain ⟨rfl, rfl⟩ := cons.inj h
      rw [hexNumber_cons] at hds
      obtain ⟨v, hv, hds⟩ := Option.bind_eq_some_iff.mp hds
      exact ⟨v, hv, ds, r, rfl, hds, hr⟩
  · rintro ⟨v, hv, ds, r, rfl, hds, hr⟩
    refine ⟨c :: ds, r, rfl, ⟨cons_ne_nil _ _, ?_⟩, hr⟩
    rw [hexNumber_cons, hv]
    exact hds

theorem lang_start : lang .start (c :: w) d ↔ Left (bite .start c) w d := by
  rw [lang, body_iff, bite]
  simp only [then_digits, Nat.mul_zero, Nat.zero_add]
  cases hexValue c with
  | none => simp [Left]
  | some v => simp [left_next, lang]

/-- The line of a size of which no digit is missing. -/
theorem then_sizeEnd_left : Then SizeEnd (AfterSize n · d) (c :: w) ↔
    Left (lineEnd (.extCr n) (.afterSize n) (if separator c then .next (.ext n) [] else .invalid) c)
      w d := by
  rw [left_lineEnd, then_sizeEnd, then_lineEnd, lang_afterSize, or_assoc]
  refine or_congr Iff.rfl (or_congr Iff.rfl ?_)
  split_ifs with hsep
  · rw [left_next, and_iff_right hsep, and_iff_right (separator_not_lineEnd c hsep).1,
      and_iff_right (separator_not_lineEnd c hsep).2]
    exact Iff.rfl
  · exact iff_of_false (fun h => hsep h.1) fun h => h.2.2

theorem lang_size : lang (.size n) (c :: w) d ↔ Left (bite (.size n) c) w d := by
  -- either there is one more digit, or the size is complete
  have hsplit : lang (.size n) (c :: w) d ↔ (∃ v, hexValue c = some v ∧ lang (.size (16 * n + v.toNat)) w d) ∨
        Then SizeEnd (AfterSize n · d) (c :: w) := by
    constructor
    · rintro ⟨m, ds, r, h, hds, hr⟩
      cases ds with
      | nil =>
        cases hds
        rw [h]
        exact .inr hr
      | cons b ds =>
        obtain ⟨v, hv, hl⟩ := then_digits.mp ⟨b :: ds, r, h, ⟨cons_ne_nil _ _, hds⟩, hr⟩
        exact .inl ⟨v, hv, m, hl⟩
    · rintro (⟨v, hv, m, hl⟩ | h)
      · obtain ⟨ds, r, h, ⟨-, hds⟩, hr⟩ := then_digits.mpr ⟨v, hv, hl⟩
        exact ⟨m, ds, r, h, hds, hr⟩
      · exact ⟨n, [], c :: w, rfl, rfl, h⟩
  rw [hsplit, bite]
  cases hv : hexValue c with
  | none =>
    rw [← then_sizeEnd_left]
    exact or_iff_right fun ⟨v, h, _⟩ => by cases h
  | some v =>
    have hno := hexValue_not_lineEnd c (Option.isSome_of_eq_some hv)
    rw [left_next]
    constructor
    · rintro (⟨v', h, hl⟩ | h)
      · cases h
        exact hl
      · rw [then_sizeEnd, then_lineEnd] at h
        rcases h with (⟨h, -⟩ | ⟨h, -⟩) | ⟨h, -⟩
        · exact absurd h hno.1
        · exact absurd h hno.2.1
        · exact absurd h hno.2.2
    · exact fun h => .inl ⟨v, rfl, h⟩

theorem lang_ext : lang (.ext n) (c :: w) d ↔ Left (bite (.ext n) c) w d := by
  rw [bite, left_lineEnd, left_next, lang, then_line, then_lineEnd, lang_afterSize, or_assoc]
  exact Iff.rfl

/-- One byte of data. -/
theorem lang_data : lang (.data n) (c :: w) d ↔ Left (bite (.data n) c) w d := by
  have hafter : ∀ d', lang (.afterByte n) w d' ↔
      ∃ data d'', data.length = n ∧ Then (· = data) (Then LineEnd (Body · d'')) w ∧ d' = data ++ d'' := by
    intro d'
    cases n with
    | zero =>
      constructor
      · intro h
        exact ⟨[], d', rfl, ⟨[], w, rfl, rfl, h⟩, rfl⟩
      · rintro ⟨data, d'', hlen, ⟨_, r, rfl, rfl, h⟩, rfl⟩
        cases length_eq_zero_iff.mp hlen
        exact h
    | succ n => exact Iff.rfl
  constructor
  · rintro ⟨_, d', hlen, ⟨data, r, h, rfl, hr⟩, rfl⟩
    cases data with
    | nil => cases hlen
    | cons b data =>
      obtain ⟨rfl, rfl⟩ := cons.inj h
      refine ⟨data ++ d', rfl, (hafter _).mpr ?_⟩
      exact ⟨data, d', Nat.succ.inj hlen, ⟨data, r, rfl, rfl, hr⟩, rfl⟩
  · rintro ⟨d', rfl, h⟩
    obtain ⟨_, d'', hlen, ⟨data, r, rfl, rfl, hr⟩, rfl⟩ := (hafter d').mp h
    exact ⟨c :: data, d'', congrArg (· + 1) hlen, ⟨c :: data, r, rfl, rfl, hr⟩, rfl⟩

theorem lang_trailer : lang .trailer (c :: w) d ↔ Left (bite .trailer c) w d := by
  rw [lang, trailer_cons, bite]
  split_ifs with h1 h2
  · subst h1
    rw [left_next]
    have : CR ≠ LF := by decide
    simp [this, lang]
  · subst h2
    have : LF ≠ CR := by decide
    simp [this, Left]
  · rw [left_next]
    simp [h1, h2, lang]

theorem lang_header : lang .header (c :: w) d ↔ Left (bite .header c) w d := by
  have hlang : lang .header (c :: w) d ↔ Then Line Trailer (c :: w) ∧ d = [] := Iff.rfl
  rw [bite, left_lineEnd, left_next, hlang, then_line, then_lineEnd, or_assoc, or_and_right,
    or_and_right, and_assoc, and_assoc, and_assoc, and_assoc]
  exact Iff.rfl

theorem lang_cons (s : Phase) : lang s (c :: w) d ↔ Left (bite s c) w d := by
  cases s with
  | start => exact lang_start
  | size n => exact lang_size
  | ext n => exact lang_ext
  | extCr n =>
    rw [bite, left_lf, lang, then_lf, lang_afterSize]
  | data n => exact lang_data
  | afterData =>
    have hlang : lang .afterData (c :: w) d ↔ Then LineEnd (Body · d) (c :: w) := Iff.rfl
    rw [bite, left_lineEnd, hlang, then_lineEnd]
    simp [Left, lang]
  | afterDataCr =>
    rw [bite, left_lf]
    exact then_lf
  | trailer => exact lang_trailer
  | trailerCr =>
    rw [bite, lang]
    split_ifs with h <;> simp [h, Left]
  | header => exact lang_header
  | headerCr =>
    rw [bite, left_lf]
    exact (and_congr_left' then_lf).trans and_assoc

end

theorem then_nil {A : Bytes → Prop} : Then A P [] ↔ A [] ∧ P [] := by
  constructor
  · rintro ⟨l, r, h, hA, hP⟩
    obtain ⟨rfl, rfl⟩ := append_eq_nil_iff.mp h.symm
    exact ⟨hA, hP⟩
  · rintro ⟨hA, hP⟩
    exact ⟨[], [], rfl, hA, hP⟩

theorem lineEnd_nil : ¬ LineEnd [] := by
  simp [LineEnd]

theorem line_nil : ¬ Line [] := fun h => lineEnd_nil (then_nil.mp h).2

theorem sizeEnd_nil : ¬ SizeEnd [] := by
  simp [SizeEnd, lineEnd_nil]

theorem trailer_nil : ¬ Trailer [] := by
  intro h
  cases h with
  | last he => exact lineEnd_nil he

theorem inData_nil : ¬ InData n [] d := by
  rintro ⟨data, d', -, h, -⟩
  exact lineEnd_nil (then_nil.mp (then_nil.mp h).2).1

/-- The last byte of a body has to be seen. -/
theorem lang_nil (s : Phase) (d : Bytes) : ¬ lang s [] d := by
  intro h
  cases s with
  | start =>
    obtain ⟨m, h⟩ := body_iff.mp h
    exact (then_nil.mp h).1.1 rfl
  | size n =>
    obtain ⟨m, h⟩ := h
    exact sizeEnd_nil (then_nil.mp (then_nil.mp h).2).1
  | ext n => exact line_nil (then_nil.mp h).1
  | extCr n => exact cons_ne_nil _ _ (then_nil.mp h).1.symm
  | data n => exact inData_nil h
  | afterData => exact lineEnd_nil (then_nil.mp h).1
  | afterDataCr => exact cons_ne_nil _ _ (then_nil.mp h).1.symm
  | trailer => exact trailer_nil h.1
  | trailerCr => exact cons_ne_nil _ _ h.1.symm
  | header => exact line_nil (then_nil.mp h.1).1
  | headerCr => exact cons_ne_nil _ _ (then_nil.mp h.1).1.symm

def Live (s : Phase) : Prop := ∃ w d, lang s w d

theorem live_of_next {s' : Phase} {o : Bytes} (h : bite s c = .next s' o)
    (hs : Live s') : Live s := by
  obtain ⟨w, d, hl⟩ := hs
  refine ⟨c :: w, o ++ d, (lang_cons s).mpr ?_⟩
  rw [h]
  exact ⟨d, rfl, hl⟩

theorem live_of_done (h : bite s c = .done) : Live s := by
  refine ⟨[c], [], (lang_cons s).mpr ?_⟩
  rw [h]
  exact ⟨rfl, rfl⟩

/-- No phase is a dead end: a line feed, or a zero, or data, leads on. -/
theorem live (s : Phase) : Live s := by
  have htrailer : Live .trailer := live_of_done (c := LF) rfl
  have hstart : Live .start := by
    have hsize : Live (.size 0) := live_of_next (c := LF) rfl htrailer
    exact live_of_next (c := '0') rfl hsize
  have hafterData : Live .afterData := live_of_next (c := LF) rfl hstart
  have hdata : ∀ n, Live (.data n) := by
    intro n
    induction n with
    | zero => exact live_of_next (c := NUL) rfl hafterData
    | succ n ih => exact live_of_next (c := NUL) rfl ih
  have hafterSize : ∀ n, Live (.afterSize n) := by
    intro n
    cases n with
    | zero => exact htrailer
    | succ n => exact hdata n
  cases s with
  | start => exact hstart
  | size n | ext n | extCr n => exact live_of_next (c := LF) rfl (hafterSize n)
  | data n => exact hdata n
  | afterData => exact hafterData
  | afterDataCr => exact live_of_next (c := LF) rfl hstart
  | trailer => exact htrailer
  | trailerCr => exact live_of_done (c := LF) rfl
  | header | headerCr => exact live_of_next (c := LF) rfl htrailer

theorem residual : Residual bite lang where
  nil := lang_nil
  next := by
    intro s c s' o h w d
    rw [lang_cons, h]
    rfl
  done := by
    intro s c h w d
    rw [lang_cons, h]
    rfl
  invalid := by
    intro s c h w d
    rw [lang_cons, h]
    exact id
  live := live

end ChunkedBody
end GokuStudio.Nginx
