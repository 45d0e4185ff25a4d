import GokuStudio.Nginx.Http.ChunkedSound

/-!
# The chunked coding of a response (`ngx_http_chunked_filter_module.c`)

The buffers of one call make one chunk. What the calls write is read back by the filter for
request bodies, however it is cut, as long as no call has so many bytes that the reader's sums
with the size of the chunk overflow.
-/

namespace GokuStudio.Nginx

open Lib List

namespace Chunked

open ChunkedBody

/-- A digit of `"%xO"` -/
def hexChar (d : Nat) : UInt8 := if d < 10 then UInt8.ofNat (48 + d) else UInt8.ofNat (87 + d)

/-- `ngx_sprintf_num` in base 16, where `f` digits are enough. -/
def hexDigits : Nat → Nat → Bytes
  | 0, _ => []
  | f + 1, n => if n < 16 then [hexChar n] else hexDigits f (n / 16) ++ [hexChar (n % 16)]

def crlf : Bytes := [CR, LF]

/-- `ngx_http_chunked_body_filter` on a chain of buffers; `last` is the flag of the last one. -/
def bodyFilter (last : Bool) (chain : List Bytes) : Bytes :=
  let size := offT chain.flatten.length
  (if size ≠ 0 then hexDigits 16 (size % 2 ^ 64).toNat ++ crlf else []) ++ chain.flatten ++
    if last then (if size = 0 then [] else crlf) ++ text ['0'] ++ crlf ++ crlf
    else if size > 0 then crlf else []

/-- What the calls for one response write. -/
def encode (calls : List (List Bytes)) (final : List Bytes) : Bytes :=
  (calls.map (bodyFilter false)).flatten ++ bodyFilter true final

/-! ## Words that the reader takes -/

variable {s s' s'' : Phase} {w w' o o' : Bytes} {c : UInt8} {n : Nat} {chain : List Bytes}

/-- Carefully, and whatever follows: the word leads from `s` to `s'` and gives the data `o`. -/
def Takes (s : Phase) (w : Bytes) (s' : Phase) (o : Bytes) : Prop :=
  ∀ rest, eat bite s (w ++ rest) = (eat bite s' rest).prepend o ∧ (Careful s' rest → Careful s (w ++ rest))

theorem Takes.byte (h : bite s c = .next s' o) (hc : CarefulByte s c) : Takes s [c] s' o := by
  intro rest
  rw [singleton_append, eat, Careful, h]
  exact ⟨rfl, fun hrest => ⟨hc, hrest⟩⟩

theorem Takes.append (h : Takes s w s' o) (h' : Takes s' w' s'' o') : Takes s (w ++ w') s'' (o ++ o') := by
  intro rest
  obtain ⟨heat, hcare⟩ := h (w' ++ rest)
  obtain ⟨heat', hcare'⟩ := h' rest
  rw [append_assoc, heat, heat', Meal.prepend_append]
  exact ⟨rfl, fun hrest => hcare (hcare' hrest)⟩

/-- The word ends the body, and gives the data `d`. -/
def Ends (s : Phase) (w d : Bytes) : Prop := ∀ rest, eat bite s (w ++ rest) = .done d rest ∧ Careful s (w ++ rest)

theorem Takes.ends (h : Takes s w s' o) (h' : Ends s' w' o') : Ends s (w ++ w') (o ++ o') := by
  intro rest
  obtain ⟨heat, hcare⟩ := h (w' ++ rest)
  obtain ⟨hdone, hcare'⟩ := h' rest
  rw [append_assoc, heat, hdone]
  exact ⟨rfl, hcare hcare'⟩

theorem hexValue_hexChar {d : Nat} (h : d < 16) : ∃ v, hexValue (hexChar d) = some v ∧ v.toNat = d := by
  have hall : ∀ d : Fin 16, hexValue (hexChar d) = some (UInt8.ofNat d) ∧ (UInt8.ofNat d).toNat = d := by decide
  exact ⟨_, hall ⟨d, h⟩⟩

theorem takes_hexDigits {f : Nat} (hf : n < 16 ^ (f + 1)) (hfits : Fits n) :
    Takes .start (hexDigits (f + 1) n) (.size n) [] := by
  induction f generalizing n with
  | zero =>
    obtain ⟨v, hv, rfl⟩ := hexValue_hexChar hf
    rw [hexDigits, if_pos (by simpa using hf)]
    exact .byte (by rw [bite, hv]) trivial
  | succ f ih =>
    rw [hexDigits]
    split
    · next hlt =>
      obtain ⟨v, hv, rfl⟩ := hexValue_hexChar hlt
      exact .byte (by rw [bite, hv]) trivial
    obtain ⟨v, hv, hvn⟩ := hexValue_hexChar (Nat.mod_lt n (by decide : 0 < 16))
    have hn : 16 * (n / 16) + v.toNat = n := by omega
    have hdigit : Takes (.size (n / 16)) [hexChar (n % 16)] (.size n) [] := by
      refine .byte (by simp only [bite, hv, hn]) ?_
      intro u hu
      obtain rfl := Option.mem_unique hv hu
      exact hn.symm ▸ hfits
    exact (ih (by omega) (by unfold Fits at *; omega)).append hdigit

theorem takes_sizeEnd (n : Nat) : Takes (.size n) crlf (.afterSize n) [] := by
  have hcr : Takes (.size n) [CR] (.extCr n) [] := .byte rfl fun v hv => by cases hv
  have hlf : Takes (.extCr n) [LF] (.afterSize n) [] := .byte rfl trivial
  exact hcr.append hlf

theorem takes_dataEnd : Takes .afterData crlf .start [] := by
  have hcr : Takes .afterData [CR] .afterDataCr [] := .byte rfl (.inl rfl)
  have hlf : Takes .afterDataCr [LF] .start [] := .byte rfl trivial
  exact hcr.append hlf

theorem takes_data : Takes (.afterByte w.length) w .afterData w := by
  induction w with
  | nil => exact fun rest => ⟨(Meal.prepend_nil _).symm, id⟩
  | cons c w ih =>
    have hc : Takes (.data w.length) [c] (.afterByte w.length) [c] := .byte rfl trivial
    exact hc.append ih

/-- A call with data, up to the end of the data. -/
theorem takes_chunk (hne : w ≠ []) (hfits : Fits w.length) :
    Takes .start (hexDigits 16 w.length ++ crlf ++ w) .afterData w := by
  have hdigits : Takes .start (hexDigits 16 w.length) (.size w.length) [] :=
    takes_hexDigits (by unfold Fits at hfits; omega) hfits
  have hdata : Takes (.afterSize w.length) w .afterData w := by
    cases w with
    | nil => exact absurd rfl hne
    | cons c w => exact takes_data (w := c :: w)
  exact (hdigits.append (takes_sizeEnd _)).append hdata

theorem bodyFilter_eq (h : Fits chain.flatten.length) (last : Bool) :
    bodyFilter last chain = (if chain.flatten = [] then []
      else hexDigits 16 chain.flatten.length ++ crlf ++ chain.flatten ++ crlf) ++
        if last then text ['0'] ++ crlf ++ crlf else [] := by
  unfold Fits at h
  rw [bodyFilter, offT_of_lt (by omega) (by omega)]
  generalize chain.flatten = w at h
  cases w with
  | nil => cases last <;> rfl
  | cons c w =>
    have hmod : (((c :: w).length : Int) % 2 ^ 64).toNat = (c :: w).length := by omega
    have hpos : ((c :: w).length : Int) > 0 := Int.natCast_pos.mpr (Nat.succ_pos _)
    rw [if_pos (Int.ne_of_gt hpos), if_neg (Int.ne_of_gt hpos), if_pos hpos, hmod, if_neg (cons_ne_nil c w)]
    cases last <;> simp

theorem takes_bodyFilter (h : Fits chain.flatten.length) :
    Takes .start (bodyFilter false chain) .start chain.flatten := by
  rw [bodyFilter_eq h]
  split
  · next hnil =>
    rw [hnil]
    exact fun rest => ⟨(Meal.prepend_nil _).symm, id⟩
  · next hne =>
    have hw := (takes_chunk hne h).append takes_dataEnd
    simpa using hw

theorem ends_last : Ends .start (text ['0'] ++ crlf ++ crlf) [] :=
  fun _ => ⟨rfl, trivial, (fun v hv => by cases hv), trivial, trivial, trivial, trivial⟩

theorem ends_encode {calls : List (List Bytes)} {final : List Bytes}
    (h : ∀ chain ∈ calls ++ [final], Fits chain.flatten.length) :
    Ends .start (encode calls final) (calls ++ [final]).flatten.flatten := by
  induction calls with
  | nil =>
    have hfinal : Fits final.flatten.length := h final mem_cons_self
    have henc : encode [] final = bodyFilter false final ++ (text ['0'] ++ crlf ++ crlf) := by
      simp [encode, bodyFilter_eq hfinal]
    have hends := (takes_bodyFilter hfinal).ends ends_last
    rw [← henc] at hends
    simpa using hends
  | cons chain calls ih =>
    have henc : encode (chain :: calls) final = bodyFilter false chain ++ encode calls final := by simp [encode]
    have hends := (takes_bodyFilter (h chain mem_cons_self)).ends (ih (forall_mem_cons.mp h).2)
    rw [← henc, ← flatten_append, ← flatten_cons] at hends
    exact hends

end Chunked

open ChunkedBody Chunked

/-- The data comes back, and what follows the encoding is left. -/
theorem chunked_round_trip (calls : List (List Bytes)) (final : List Bytes)
    (h : ∀ chain ∈ calls ++ [final], Fits chain.flatten.length) (rest : Bytes) (bs : List Bytes)
    (hbs : bs.flatten = encode calls final ++ rest) :
    chunkedFilter {} bs = (.done rest, (calls ++ [final]).flatten.flatten) := by
  obtain ⟨heat, hcare⟩ := ends_encode h rest
  have hdecodes := chunkedFilter_decodes sim_init (hbs ▸ hcare)
  rw [hbs, heat] at hdecodes
  exact hdecodes

theorem chunked_round_trip_two :
    chunkedFilter {} [text ['1', '\r', '\n', 'a', '\r'], text ['\n', '0', '\r', '\n', '\r'], text ['\n', 'G']] =
      (.done (text ['G']), text ['a']) :=
  chunked_round_trip [[text ['a']]] [] (by decide) (text ['G']) _ (by decide)

/-- A call with `2 ^ 63 - 5` bytes, as a file may have them. If the reader's buffer ends behind
the digits, its sum overflows. -/
theorem huge_chunk_refused : ∃ bs : List Bytes,
    bs.flatten = encode [] [List.replicate (2 ^ 63 - 5) 0] ∧ (chunkedFilter {} bs).1 = .error := by
  have hsize : offT ([replicate (2 ^ 63 - 5) (0 : UInt8)].flatten.length) = 2 ^ 63 - 5 := by
    rw [flatten_singleton, length_replicate]
    decide
  have henc : ∃ w, encode [] [replicate (2 ^ 63 - 5) 0] = hexDigits 16 (2 ^ 63 - 5) ++ w := by
    rw [encode, bodyFilter, hsize]
    exact ⟨_, by simp only [append_assoc]; rfl⟩
  obtain ⟨w, hw⟩ := henc
  refine ⟨[hexDigits 16 (2 ^ 63 - 5), w], by rw [hw]; simp, ?_⟩
  have hfed : filterBuf (hexDigits 16 (2 ^ 63 - 5)) ((hexDigits 16 (2 ^ 63 - 5)).length + 1) {} 0 [] = (.error, []) := by
    decide +kernel
  rw [chunkedFilter, hfed]

end GokuStudio.Nginx
