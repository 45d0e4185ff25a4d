import GokuStudio.Nginx.Http.Chunked
import GokuStudio.Nginx.Http.ChunkedBody

/-!
# Chunked bodies are decoded as the grammar says

Two things in the code are not in the grammar. The size of a chunk may wrap around,
and what stands between the data of a chunk and the end of its line is skipped. A
stream in which neither happens (`Careful`) is decoded exactly as the reader of
`ChunkedBody` decodes it, however it is cut into buffers.

`At s c` relates a phase of that reader to the record of the parser; `Sim` relates
them between two calls, where the parser may still have to notice that a chunk has
been read.
-/

namespace GokuStudio.Nginx

open Lib List

namespace Chunked

open ChunkedBody

/-! ## §1 Phases and states -/

/-- The state of the parser in a phase. -/
def stateOf : Phase → State
  | .start => .chunkStart
  | .size _ => .chunkSize
  | .ext 0 => .lastChunkExtension
  | .ext (_ + 1) => .chunkExtension
  | .extCr 0 => .lastChunkExtensionAlmostDone
  | .extCr (_ + 1) => .chunkExtensionAlmostDone
  | .data _ => .chunkData
  | .afterData => .afterData
  | .afterDataCr => .afterDataAlmostDone
  | .trailer => .trailer
  | .trailerCr => .trailerAlmostDone
  | .header => .trailerHeader
  | .headerCr => .trailerHeaderAlmostDone

/-- The bytes that are left of a chunk in a phase. -/
def sizeOf : Phase → Nat
  | .size n | .ext n | .extCr n => n
  | .data n => n + 1
  | _ => 0

/-- With the five bytes that `lengthOf` may add, a size is still an `off_t`. -/
def Fits (n : Nat) : Prop := n + 5 < 2 ^ 63

instance (n : Nat) : Decidable (Fits n) := inferInstanceAs (Decidable (_ < _))

structure At (s : Phase) (c : Ctx) : Prop where
  state : c.state = stateOf s
  size : c.size = sizeOf s
  fits : Fits (sizeOf s)

/-- Between two calls: `enter` makes `At` of it. -/
def Sim (s : Phase) (c : Ctx) : Prop := At s (enter c)

/-- The two things the grammar does not have: the digit makes the size too large, or
the byte behind the data is not the end of a line. -/
def CarefulByte : Phase → UInt8 → Prop
  | .size n, c => ∀ v ∈ hexValue c, Fits (16 * n + v.toNat)
  | .afterData, c => c = CR ∨ c = LF
  | _, _ => True

instance : (s : Phase) → (c : UInt8) → Decidable (CarefulByte s c)
  | .size _, _ => inferInstanceAs (Decidable (∀ _ ∈ _, _))
  | .afterData, _ => inferInstanceAs (Decidable (_ ∨ _))
  | .start, _ | .ext _, _ | .extCr _, _ | .data _, _ | .afterDataCr, _ | .trailer, _
  | .trailerCr, _ | .header, _ | .headerCr, _ => isTrue trivial

def Careful : Phase → Bytes → Prop
  | _, [] => True
  | s, c :: w =>
    CarefulByte s c ∧
      match bite s c with
      | .next s' _ => Careful s' w
      | _ => True

instance decidableCareful : (s : Phase) → (w : Bytes) → Decidable (Careful s w)
  | _, [] => isTrue trivial
  | s, c :: w =>
    have : Decidable (match bite s c with
        | .next s' _ => Careful s' w
        | _ => True) :=
      match bite s c with
      | .next s' _ => decidableCareful s' w
      | .done => isTrue trivial
      | .invalid => isTrue trivial
    inferInstanceAs (Decidable (_ ∧ _))

variable {n pos : Nat} {w buf rest : Bytes} {c : Ctx} {s : Phase} {m : Meal Phase UInt8 UInt8}

theorem careful_append {w1 w2 : Bytes} : ∀ {s : Phase}, Careful s (w1 ++ w2) →
    Careful s w1 ∧ ∀ {s' : Phase} {out : Bytes}, eat bite s w1 = .more s' out → Careful s' w2 := by
  induction w1 with
  | nil =>
    intro s h
    refine ⟨trivial, ?_⟩
    intro s' out he
    cases he
    exact h
  | cons c w1 ih =>
    intro s h
    obtain ⟨hc, hw⟩ := h
    rw [Careful, eat]
    cases hb : bite s c with
    | next s1 o =>
      rw [hb] at hw
      obtain ⟨hw1, hw2⟩ := ih hw
      refine ⟨⟨hc, hw1⟩, ?_⟩
      intro s' out he
      obtain ⟨out', he', -⟩ := Meal.prepend_eq_more.mp he
      exact hw2 he'
    | done | invalid => exact ⟨⟨hc, trivial⟩, fun he => by cases he⟩

/-! ## §2 A byte that is not data -/

/-- The parser does with a byte what the reader does. -/
def Follow (m : Move) : Byte → Prop
  | .next s o => o = [] ∧ ∃ c, m = .next c ∧ At s c
  | .done => ∃ c, m = .exit .done c
  | .invalid => ∃ c, m = .exit .invalid c

theorem hexDigit_eq (ch : UInt8) : hexDigit ch = (hexValue ch).map fun v => (v.toNat : Int) := by
  rw [hexDigit, hexValue_eq]
  split_ifs <;> rfl

section
variable {s' cr lf : Phase} {ch : UInt8}

theorem At.move (h : At s c) (hs : sizeOf s' = sizeOf s) : At s' { c with state := stateOf s' } :=
  ⟨rfl, h.size.trans (by rw [hs]), by rw [hs]; exact h.fits⟩

theorem follow_skipLine (h : At s c) (hcr : sizeOf cr = sizeOf s) (hlf : sizeOf lf = sizeOf s) :
    Follow (skipLine (stateOf cr) (stateOf lf) ch c) (lineEnd cr lf (.next s []) ch) := by
  unfold skipLine lineEnd
  split_ifs
  · exact ⟨rfl, _, rfl, h.move hcr⟩
  · exact ⟨rfl, _, rfl, h.move hlf⟩
  · exact ⟨rfl, _, rfl, h⟩

theorem follow_almostDone (h : At s c) (hs : sizeOf s' = sizeOf s) :
    Follow (almostDone (stateOf s') ch c) (ChunkedBody.lf s' ch) := by
  unfold almostDone ChunkedBody.lf
  split_ifs
  · exact ⟨rfl, _, rfl, h.move hs⟩
  · exact ⟨_, rfl⟩

theorem sizeOf_afterSize (n : Nat) : sizeOf (.afterSize n) = n := by
  cases n <;> rfl

theorem follow_sizeEnd (h : At (.size n) c) :
    Follow (sizeEnd (stateOf (.extCr n)) (stateOf (.afterSize n)) (stateOf (.ext n)) ch c)
      (lineEnd (.extCr n) (.afterSize n) (if separator ch then .next (.ext n) [] else .invalid) ch) := by
  have hsep : (ch = ';' ∨ ch = ' ' ∨ ch = '\t') ↔ separator ch = true := by simp [separator]
  unfold sizeEnd lineEnd
  simp only [hsep]
  split_ifs
  · exact ⟨rfl, _, rfl, h.move rfl⟩
  · exact ⟨rfl, _, rfl, h.move (sizeOf_afterSize n)⟩
  · exact ⟨rfl, _, rfl, h.move rfl⟩
  · exact ⟨_, rfl⟩

theorem follow_chunkStart : Follow (swChunkStart ch c) (bite .start ch) := by
  rw [swChunkStart, bite, hexDigit_eq]
  cases hv : hexValue ch with
  | none => exact ⟨_, rfl⟩
  | some v =>
    refine ⟨rfl, _, rfl, rfl, rfl, ?_⟩
    have := v.toNat_lt
    simp only [sizeOf, Fits]
    omega

theorem follow_chunkSize (h : At (.size n) c) (hc : CarefulByte (.size n) ch) :
    Follow (swChunkSize ch c) (bite (.size n) ch) := by
  rw [swChunkSize, bite, hexDigit_eq]
  have hsize : c.size = n := h.size
  cases hv : hexValue ch with
  | none =>
    cases n with
    | zero =>
      have h0 : c.size = 0 := hsize
      rw [Option.map_none]
      simp only [h0, if_true]
      exact follow_sizeEnd h
    | succ n =>
      have h0 : c.size ≠ 0 := by omega
      rw [Option.map_none]
      simp only [h0, if_false]
      exact follow_sizeEnd h
  | some v =>
    have hfits := hc v hv
    have hoff : offT (c.size * 16 + v.toNat) = ((16 * n + v.toNat : Nat) : Int) := by
      unfold Fits at hfits
      rw [hsize, offT_of_lt (by omega) (by omega)]
      omega
    exact ⟨rfl, _, rfl, h.state, hoff, hfits⟩

theorem follow_step (h : At s c) (hc : CarefulByte s ch) (hs : ∀ n, s ≠ .data n) : Follow (step ch c) (bite s ch) := by
  rw [step, h.state]
  cases s with
  | start => exact follow_chunkStart
  | size n => exact follow_chunkSize h hc
  | ext n =>
    cases n with
    | zero | succ n => exact follow_skipLine h rfl rfl
  | extCr n =>
    cases n with
    | zero | succ n => exact follow_almostDone h rfl
  | data n => exact absurd rfl (hs n)
  | afterData =>
    -- only here is the code more generous than the grammar
    have hbite : bite .afterData ch = lineEnd .afterDataCr .start (.next .afterData []) ch := by
      rw [bite, lineEnd, lineEnd]
      rcases hc with rfl | rfl <;> rfl
    rw [hbite]
    exact follow_skipLine h rfl rfl
  | afterDataCr => exact follow_almostDone h rfl
  | trailer =>
    simp only [stateOf, swTrailer, bite]
    split_ifs
    · exact ⟨rfl, _, rfl, h.move rfl⟩
    · exact ⟨_, rfl⟩
    · exact ⟨rfl, _, rfl, h.move rfl⟩
  | trailerCr =>
    simp only [stateOf, swTrailerAlmostDone, bite]
    split_ifs <;> exact ⟨_, rfl⟩
  | header => exact follow_skipLine h rfl rfl
  | headerCr => exact follow_almostDone h rfl

end

/-! ## §3 A call -/

theorem lengthOf_at (h : At s c) : 0 ≤ lengthOf c := by
  have hsize := h.size
  have hfits : sizeOf s + 5 < 2 ^ 63 := h.fits
  have hoff : ∀ x, 0 ≤ x → x ≤ c.size + 5 → 0 ≤ offT x := by
    intro x h0 hx
    rw [offT_of_lt (by omega) (by omega)]
    exact h0
  rw [lengthOf]
  split
  case h_2 =>
    split_ifs
    · exact hoff _ (by omega) (by omega)
    · decide
  case h_3 | h_4 | h_5 => exact hoff _ (by omega) (by omega)
  all_goals decide

/-- The tests behind `data:` let a size through that is an `off_t`. -/
theorem atData_at (h : At s c) (rc : Rc) (pos : Nat) : ∃ c', atData rc c pos = ⟨rc, c', pos⟩ ∧ At s c' := by
  have hsize := h.size
  have hlen := lengthOf_at h
  refine ⟨{ c with length := lengthOf c }, ?_, h.state, h.size, h.fits⟩
  rw [atData, if_neg]
  rintro (h0 | h0)
  · have : c.size < 0 := h0
    omega
  · have : lengthOf c < 0 := h0
    omega

/-- How a scan ends that began in phase `s` with the word `w` to come, at `p`. -/
def Scanned (s : Phase) (p : Nat) (w : Bytes) : Scan Ctx Exit → Prop
  | .again c => ∃ s', eat bite s w = .more s' [] ∧ At s' c
  | .found .data c q => p ≤ q ∧ q < p + w.length ∧ ∃ n, At (.data n) c ∧
      Careful (.data n) (w.drop (q - p)) ∧ eat bite s w = eat bite (.data n) (w.drop (q - p))
  | .found .done _ q => p ≤ q ∧ eat bite s w = .done [] (w.drop (q + 1 - p))
  | .found .invalid _ _ => eat bite s w = .invalid

theorem scanned_next {s' : Phase} {p : Nat} {ch : UInt8} {r : Scan Ctx Exit}
    (hb : bite s ch = .next s' []) (h : Scanned s' (p + 1) w r) : Scanned s p (ch :: w) r := by
  have heat : eat bite s (ch :: w) = eat bite s' w := by
    rw [eat, hb]
    exact Meal.prepend_nil _
  have hdrop : ∀ q, p + 1 ≤ q → (ch :: w).drop (q - p) = w.drop (q - (p + 1)) := by
    intro q hq
    rw [show q - p = q - (p + 1) + 1 by omega, drop_succ_cons]
  cases r with
  | again c =>
    obtain ⟨s1, he, hat⟩ := h
    exact ⟨s1, heat.trans he, hat⟩
  | found e c q =>
    cases e with
    | data =>
      obtain ⟨hp, hq, n, hat, hcare, he⟩ := h
      refine ⟨by omega, by rw [length_cons]; omega, n, hat, ?_, ?_⟩
      · rw [hdrop q hp]
        exact hcare
      · rw [hdrop q hp, heat, he]
    | done =>
      obtain ⟨hp, he⟩ := h
      refine ⟨by omega, ?_⟩
      rw [show q + 1 - p = q + 1 - (p + 1) + 1 by omega, drop_succ_cons, heat, he]
    | invalid => exact heat.trans h

/-- Up to the next byte of data the parser reads as the reader does. -/
theorem scanned : ∀ {s : Phase} {c : Ctx} {p : Nat}, At s c → Careful s w →
    Scanned s p w (scanFrom (fun _ => step) p c w) := by
  induction w with
  | nil =>
    intro s c p h _
    exact ⟨s, rfl, h⟩
  | cons ch w ih =>
    intro s c p h hcare
    obtain ⟨hch, hw⟩ := hcare
    rw [scanFrom]
    by_cases hdata : ∃ n, s = .data n
    · obtain ⟨n, rfl⟩ := hdata
      have hstep : step ch c = .exit .data c := by
        rw [step, h.state]
        rfl
      rw [hstep, Scanned, Nat.sub_self]
      exact ⟨Nat.le_refl p, by simp, n, h, ⟨hch, hw⟩, rfl⟩
    have hfollow := follow_step h hch fun n hn => hdata ⟨n, hn⟩
    generalize hb : bite s ch = b at hfollow hw
    cases b with
    | next s' o =>
      obtain ⟨rfl, c', hstep, hat⟩ := hfollow
      rw [hstep]
      exact scanned_next hb (ih hat hw)
    | done =>
      obtain ⟨c', hstep⟩ := hfollow
      rw [hstep]
      refine ⟨Nat.le_refl p, ?_⟩
      rw [eat, hb, Nat.add_sub_cancel_left]
      rfl
    | invalid =>
      obtain ⟨c', hstep⟩ := hfollow
      rw [hstep, Scanned, eat, hb]

theorem At.sim (h : At s c) : Sim s c := by
  have henter : enter c = c := by
    rw [enter, if_neg]
    rintro ⟨hstate, hsize⟩
    -- a chunk of which something is left has a size
    rw [h.state] at hstate
    rw [h.size] at hsize
    cases s with
    | data n => exact absurd hsize (by rw [sizeOf]; omega)
    | ext n | extCr n => cases n <;> cases hstate
    | _ => cases hstate
  rw [Sim, henter]
  exact h

/-- What a call can return, and what the reader makes of the same bytes. -/
inductive Parsed (buf : Bytes) (s : Phase) (pos : Nat) : Ret Rc Ctx → Prop where
  | again {s' : Phase} {c : Ctx} : eat bite s (buf.drop pos) = .more s' [] → At s' c →
      Parsed buf s pos ⟨.again, c, buf.length⟩
  | data {n : Nat} {c : Ctx} {q : Nat} : pos ≤ q → q < buf.length → At (.data n) c → Careful (.data n) (buf.drop q) →
      eat bite s (buf.drop pos) = eat bite (.data n) (buf.drop q) →
      Parsed buf s pos ⟨.ok, c, q⟩
  | done {c : Ctx} {q : Nat} : eat bite s (buf.drop pos) = .done [] (buf.drop q) → Parsed buf s pos ⟨.done, c, q⟩
  | invalid {c : Ctx} {q : Nat} : eat bite s (buf.drop pos) = .invalid → Parsed buf s pos ⟨.error, c, q⟩

theorem parseChunked_parsed (h : Sim s c) (hcare : Careful s (buf.drop pos)) (hpos : pos ≤ buf.length) :
    Parsed buf s pos (parseChunked c buf pos) := by
  have hscan := scanned (p := pos) h hcare
  have hdrop : ∀ q, pos ≤ q → (buf.drop pos).drop (q - pos) = buf.drop q := by
    intro q hq
    rw [drop_drop, show pos + (q - pos) = q by omega]
  rw [parseChunked]
  cases hr : scanFrom (fun _ => step) pos (enter c) (buf.drop pos) with rw [hr] at hscan
  | again c1 =>
    obtain ⟨s', he, hat⟩ := hscan
    obtain ⟨c2, hret, hat2⟩ := atData_at hat .again buf.length
    dsimp only
    rw [hret]
    exact .again he hat2
  | found e c1 q =>
    cases e with
    | data =>
      obtain ⟨hp, hq, n, hat, hcare', he⟩ := hscan
      rw [hdrop q hp] at hcare' he
      rw [length_drop] at hq
      obtain ⟨c2, hret, hat2⟩ := atData_at hat .ok q
      dsimp only
      rw [hret]
      exact .data hp (by omega) hat2 hcare' he
    | done =>
      obtain ⟨hp, he⟩ := hscan
      rw [hdrop (q + 1) (by omega)] at he
      exact .done he
    | invalid => exact .invalid hscan

/-! ## §4 Bytes of data -/

/-- Bytes of data that are no more than the chunk has left. -/
theorem eat_data {k m : Nat} (hk : m ≤ k) (hw : m ≤ w.length) :
    eat bite (.afterByte k) w = (eat bite (.afterByte (k - m)) (w.drop m)).prepend (w.take m) ∧
      (Careful (.afterByte k) w → Careful (.afterByte (k - m)) (w.drop m)) := by
  induction m generalizing k w with
  | zero => exact ⟨(Meal.prepend_nil _).symm, id⟩
  | succ m ih =>
    cases k with
    | zero => cases hk
    | succ k =>
      cases w with
      | nil => cases hw
      | cons ch w =>
        obtain ⟨he, hc⟩ := ih (Nat.le_of_succ_le_succ hk) (Nat.le_of_succ_le_succ hw)
        rw [Nat.add_sub_add_right, drop_succ_cons, take_succ_cons]
        refine ⟨?_, fun h => hc h.2⟩
        rw [Phase.afterByte, eat, bite]
        dsimp only
        rw [he, ← Meal.prepend_append]
        rfl

/-- A chunk of which some bytes, maybe all, have been taken. -/
theorem sim_taken {m : Nat} (h : At (.data n) c) :
    Sim (.afterByte (n + 1 - m)) { c with size := ((n + 1 - m : Nat) : Int) } := by
  have hfits : n + 1 + 5 < 2 ^ 63 := h.fits
  cases hk : n + 1 - m with
  | zero =>
    have henter : enter { c with size := ((0 : Nat) : Int) } = { c with size := 0, state := .afterData } := by
      rw [enter, if_pos ⟨h.state, rfl⟩]
      rfl
    rw [Sim, henter]
    exact ⟨rfl, rfl, by decide⟩
  | succ k =>
    refine At.sim ⟨h.state, rfl, ?_⟩
    simp only [Phase.afterByte, sizeOf, Fits]
    omega

/-! ## §5 The filter -/

/-- The filter ends as the reader does. What the reader puts out comes behind `out`. -/
def Agree (buf out : Bytes) : Fed × Bytes → Meal Phase UInt8 UInt8 → Prop
  | (.more c, o), .more s d => Sim s c ∧ o = out ++ d
  | (.done p, o), .done d rest => o = out ++ d ∧ rest = buf.drop p
  | (.error, _), .invalid => True
  | _, _ => False

theorem agree_prepend {out o : Bytes} {r : Fed × Bytes}
    (h : Agree buf (out ++ o) r m) : Agree buf out r (m.prepend o) := by
  obtain ⟨f, o'⟩ := r
  cases m with
  | more s d =>
    cases f with
    | more c => exact ⟨h.1, h.2.trans (append_assoc ..)⟩
    | _ => exact h
  | done d rest =>
    cases f with
    | done p => exact ⟨h.1.trans (append_assoc ..), h.2⟩
    | _ => exact h
  | invalid => cases f <;> exact h

/-- One turn of the loop at the data of a chunk: the chunk ends in the buffer, or the
buffer in the chunk. -/
theorem filterBuf_data {c' : Ctx} {q : Nat} (fuel : Nat) (out : Bytes)
    (h : parseChunked c buf pos = ⟨.ok, c', q⟩) (hat : At (.data n) c') (hq : q < buf.length) :
    ∃ m, 0 < m ∧ m ≤ n + 1 ∧ q + m ≤ buf.length ∧ filterBuf buf (fuel + 1) c pos out =
        filterBuf buf fuel { c' with size := ((n + 1 - m : Nat) : Int) } (q + m)
          (out ++ (buf.drop q).take m) := by
  have hsize : c'.size = ((n + 1 : Nat) : Int) := hat.size
  have hfits : n + 1 + 5 < 2 ^ 63 := hat.fits
  have hslice : ∀ m, slice buf q (q + m) = (buf.drop q).take m := by
    intro m
    rw [slice, drop_take, Nat.add_sub_cancel_left]
  by_cases hlt : ((buf.length - q : Nat) : Int) > c'.size
  · refine ⟨n + 1, by omega, le_rfl, by omega, ?_⟩
    rw [filterBuf, h]
    dsimp only
    rw [if_pos hlt, hsize, Int.toNat_natCast, hslice, Nat.sub_self]
    rfl
  have hm : q + (buf.length - q) = buf.length := by omega
  have hoff : offT (c'.size - (buf.length - q : Nat)) = ((n + 1 - (buf.length - q) : Nat) : Int) := by
    rw [offT_of_lt (by omega) (by omega)]
    omega
  refine ⟨buf.length - q, by omega, by omega, by omega, ?_⟩
  rw [filterBuf, h]
  dsimp only
  rw [if_neg hlt, hoff, ← hslice, hm]

/-- The loop over a buffer. Each turn but the last takes data, so that there are
enough of them. -/
theorem filterBuf_agree : ∀ {fuel : Nat} {s : Phase} {c : Ctx} {pos : Nat}
    {out : Bytes}, Sim s c → Careful s (buf.drop pos) → pos ≤ buf.length →
    buf.length - pos < fuel →
    Agree buf out (filterBuf buf fuel c pos out) (eat bite s (buf.drop pos)) := by
  intro fuel
  induction fuel with
  | zero =>
    intro s c pos out _ _ _ hfuel
    cases hfuel
  | succ fuel ih =>
    intro s c pos out hsim hcare hpos hfuel
    have hparsed := parseChunked_parsed hsim hcare hpos
    generalize hr : parseChunked c buf pos = r at hparsed
    cases hparsed with
    | again he hat =>
      rw [filterBuf, hr, he]
      exact ⟨hat.sim, (append_nil out).symm⟩
    | done he =>
      rw [filterBuf, hr, he]
      exact ⟨(append_nil out).symm, rfl⟩
    | invalid he =>
      rw [filterBuf, hr, he]
      trivial
    | @data n c' q hp hq hat hcare' he =>
      obtain ⟨m, hm0, hmn, hmq, hturn⟩ := filterBuf_data fuel out hr hat hq
      -- what the reader makes of the bytes that are taken
      have hlen : m ≤ (buf.drop q).length := by
        rw [length_drop]
        omega
      obtain ⟨hdata, hcare''⟩ := eat_data hmn hlen
      rw [drop_drop] at hdata hcare''
      rw [hturn, he.trans hdata]
      exact agree_prepend (ih (sim_taken hat) (hcare'' hcare') hmq (by omega))

theorem filterBuf_whole (h : Sim s c) (hcare : Careful s buf) :
    Agree buf [] (filterBuf buf (buf.length + 1) c 0 []) (eat bite s buf) :=
  filterBuf_agree h hcare (Nat.zero_le _) (Nat.lt_succ_self _)

/-- The filter over the buffers of a body ends as the reader does on the whole of it. -/
def Decodes (r : Outcome × Bytes) : Meal Phase UInt8 UInt8 → Prop
  | .more s d => ∃ c, r = (.more c, d) ∧ Sim s c
  | .done d rest => r = (.done rest, d)
  | .invalid => r.1 = .error

theorem chunkedFilter_decodes {bs : List Bytes} : ∀ {s : Phase} {c : Ctx}, Sim s c →
    Careful s bs.flatten → Decodes (chunkedFilter c bs) (eat bite s bs.flatten) := by
  induction bs with
  | nil =>
    intro s c hsim _
    exact ⟨c, rfl, hsim⟩
  | cons b bs ih =>
    intro s c hsim hcare
    rw [flatten_cons] at hcare ⊢
    obtain ⟨hb, hbs⟩ := careful_append hcare
    have hagree := filterBuf_whole hsim hb
    rw [chunkedFilter, eat_append]
    generalize filterBuf b (b.length + 1) c 0 [] = r at hagree
    obtain ⟨f, out⟩ := r
    generalize he : eat bite s b = m at hagree
    cases m with
    | more s' d =>
      cases f with
      | more c' =>
        obtain ⟨hsim', rfl⟩ := hagree
        have hrest := ih hsim' (hbs he)
        dsimp only
        generalize eat bite s' bs.flatten = m at hrest
        cases m with
        | more s2 d2 =>
          obtain ⟨c2, hr, hsim2⟩ := hrest
          exact ⟨c2, by rw [hr], hsim2⟩
        | done d2 rest =>
          have hr : chunkedFilter c' bs = (.done rest, d2) := hrest
          rw [hr]
          rfl
        | invalid => exact hrest
      | _ => exact hagree.elim
    | done d rest =>
      cases f with
      | done p =>
        obtain ⟨rfl, rfl⟩ := hagree
        rfl
      | _ => exact hagree.elim
    | invalid =>
      cases f with
      | error => rfl
      | _ => exact hagree.elim

theorem sim_init : Sim .start {} := At.sim ⟨rfl, rfl, by decide⟩

/-- What an outcome says of the stream `w`. -/
def Sound (w : Bytes) : Outcome × Bytes → Prop
  | (.done rest, out) => ∃ u, w = u ++ rest ∧ Body u out
  | (.error, _) => ∀ x u d, u <+: w ++ x → ¬ Body u d
  | (.more _, out) => (∀ u d, u <+: w → ¬ Body u d) ∧ ∃ x d, Body (w ++ x) (out ++ d)
  | (.stuck, _) => False

/-- Two outcomes that differ at most in the record of the parser. -/
def SameOutcome : Outcome × Bytes → Outcome × Bytes → Prop
  | (.done rest, out), (.done rest', out') => rest = rest' ∧ out = out'
  | (.error, _), (.error, _) => True
  | (.more _, out), (.more _, out') => out = out'
  | _, _ => False

theorem decodes_sound {r : Outcome × Bytes} (h : Decodes r (eat bite .start w)) : Sound w r := by
  cases he : eat bite .start w with rw [he] at h
  | more s d =>
    obtain ⟨c, rfl, -⟩ := h
    constructor
    · rintro u d' ⟨rest, rfl⟩ hbody
      -- a body would have been noticed
      have hdone : eat bite .start (u ++ rest) = .done d' rest := (eat_done residual).mpr ⟨u, rfl, hbody⟩
      rw [hdone] at he
      cases he
    · obtain ⟨x, d', hl⟩ := live s
      exact ⟨x, d', eat_more residual he x d' hl⟩
  | done d rest =>
    cases h
    exact (eat_done residual).mp he
  | invalid =>
    obtain ⟨o, out⟩ := r
    cases h
    exact eat_invalid residual he

theorem decodes_same {r r' : Outcome × Bytes} (h : Decodes r m) (h' : Decodes r' m) : SameOutcome r r' := by
  cases m with
  | more s d =>
    obtain ⟨c, rfl, -⟩ := h
    obtain ⟨c', rfl, -⟩ := h'
    rfl
  | done d rest =>
    cases h
    cases h'
    exact ⟨rfl, rfl⟩
  | invalid =>
    obtain ⟨o, out⟩ := r
    obtain ⟨o', out'⟩ := r'
    cases h
    cases h'
    trivial

end Chunked

open ChunkedBody Chunked

/-- A careful stream is decoded as the grammar says, and the same way however it is
cut. -/
theorem chunkedFilter_sound (bs : List Bytes) (h : Careful .start bs.flatten) : Sound bs.flatten (chunkedFilter {} bs) ∧
      ∀ bs' : List Bytes, bs'.flatten = bs.flatten → SameOutcome (chunkedFilter {} bs') (chunkedFilter {} bs) := by
  have hdecodes := chunkedFilter_decodes sim_init h
  refine ⟨decodes_sound hdecodes, ?_⟩
  intro bs' hbs
  have hdecodes' : Decodes (chunkedFilter {} bs') (eat bite .start bs'.flatten) :=
    chunkedFilter_decodes sim_init (hbs.symm ▸ h)
  rw [hbs] at hdecodes'
  exact decodes_same hdecodes' hdecodes

def threeBytes : List Bytes := [text ['3', '\r', '\n', 'a', 'b'], text ['c', '\r', '\n', '0', '\r', '\n', '\r', '\n']]

theorem chunkedFilter_sound_threeBytes : Careful .start threeBytes.flatten ∧
    chunkedFilter {} threeBytes = (.done [], text ['a', 'b', 'c']) ∧
    Body threeBytes.flatten (text ['a', 'b', 'c']) := by
  have hcare : Careful .start threeBytes.flatten := by decide +kernel
  have hdone : chunkedFilter {} threeBytes = (.done [], text ['a', 'b', 'c']) := by decide +kernel
  have hsound := (chunkedFilter_sound threeBytes hcare).1
  rw [hdone] at hsound
  obtain ⟨u, hu, hbody⟩ := hsound
  rw [append_nil] at hu
  exact ⟨hcare, hdone, hu ▸ hbody⟩

/-- Three bytes of data, and then seven more that belong to nothing. -/
def strayBytes : Bytes := text ['3', '\r', '\n', 'a', 'b', 'c', 'G', 'A', 'R', 'B', 'A', 'G', 'E', '\r', '\n', '0', '\r',
    '\n', '\r', '\n']

/-- A chunk of 2^64 bytes. -/
def hugeChunk : Bytes := text ('1' :: List.replicate 16 '0' ++ ['\r', '\n', '\r', '\n'])

/-- Both are taken for complete bodies; neither is one. -/
theorem chunkedFilter_not_sound : (chunkedFilter {} [strayBytes] = (.done [], text ['a', 'b', 'c']) ∧
      ¬ Sound strayBytes (chunkedFilter {} [strayBytes])) ∧
    (chunkedFilter {} [hugeChunk] = (.done [], []) ∧ ¬ Sound hugeChunk (chunkedFilter {} [hugeChunk])) := by
  -- a body would make the reader stop behind it
  have hno : ∀ {w out : Bytes}, chunkedFilter {} [w] = (.done [], out) →
      eat bite .start w ≠ .done out [] → ¬ Sound w (chunkedFilter {} [w]) := by
    intro w out hdone heat hsound
    rw [hdone] at hsound
    exact heat ((eat_done residual).mpr hsound)
  have hstray : chunkedFilter {} [strayBytes] = (.done [], text ['a', 'b', 'c']) := by decide +kernel
  have hhuge : chunkedFilter {} [hugeChunk] = (.done [], []) := by decide +kernel
  exact ⟨⟨hstray, hno hstray (by decide +kernel)⟩, hhuge, hno hhuge (by decide +kernel)⟩

end GokuStudio.Nginx
