import GokuStudio.Lib.Runs
import GokuStudio.Nginx.Core

/-!
# The value in a memcached response (`ngx_http_memcached_module.c`)

Behind the `VALUE` line come the value and `CRLF "END" CRLF`. The filter is called with
what each read gave, also when `u->length` is 0: the upstream is read on as long as the
client has not taken all there is. For `ngx_strncmp` two texts are equal that have a NUL
byte at the same place.

The counters are exact. `Relays` asks that they fit their types, and they are those of the
code up to the call that lets them leave these. There is always memory for the chain.
-/

namespace GokuStudio.Nginx.Memcached

open Lib List

/-! ## §1 The filter -/

/-- `ngx_http_memcached_end` -/
def memcachedEnd : Bytes := [CR, LF, 'E', 'N', 'D', CR, LF]

/-- `ngx_strncmp(s, t, n) == 0`, for the `n` bytes of `s` and a text that a NUL byte ends. -/
def strncmpEq : Bytes → Bytes → Bool
  | [], _ => true
  | c :: s, t => c == peek t && (c == NUL || strncmpEq s t.tail)

/-- What is on `u->out_bufs` is `out`, and `read` all that was read behind the `VALUE` line. -/
structure Upstream where
  length : Int
  rest : Int := 7
  keepalive : Bool := false
  out : Bytes := []
  read : Bytes := []

/-- `ngx_http_memcached_filter_init`, for a value of `n` bytes -/
def filterInit (n : Nat) : Upstream := { length := n + 7 }

/-- memcached sent invalid trailer -/
def Upstream.invalid (u : Upstream) : Upstream := { u with length := 0, rest := 0 }

def Upstream.keep (u : Upstream) : Upstream := if u.length = 0 then { u with keepalive := true } else u

/-- `ngx_http_memcached_end + NGX_HTTP_MEMCACHED_END - ctx->rest` -/
def Upstream.due (u : Upstream) : Bytes := memcachedEnd.drop (7 - u.rest).toNat

/-- `ngx_http_memcached_filter` -/
def filter (u : Upstream) (b : Bytes) : Upstream :=
  let u : Upstream := { u with read := u.read ++ b }
  if u.length = u.rest then
    if strncmpEq b u.due then Upstream.keep { u with length := u.length - b.length, rest := u.rest - b.length }
    else u.invalid
  else if b.length ≤ u.length - 7 then { u with out := u.out ++ b, length := u.length - b.length }
  else
    let last := (u.length - 7).toNat
    let u : Upstream := { u with out := u.out ++ b.take last }
    if strncmpEq (b.drop last) memcachedEnd then
      let rest := u.rest - (b.drop last).length
      Upstream.keep { u with rest := rest, length := rest }
    else u.invalid

theorem strncmpEq_iff {s t : Bytes} (ht : NUL ∉ t) : strncmpEq s t ↔ s <+: t ∨ t ++ [NUL] <+: s := by
  induction s generalizing t with
  | nil => simp [strncmpEq]
  | cons c s ih =>
    cases t with
    | nil =>
      simp only [strncmpEq, peek, nil_append, cons_prefix_cons]
      grind
    | cons d t =>
      simp only [strncmpEq, peek, tail_cons, cons_append, cons_prefix_cons]
      grind

/-! ## §2 What it is for -/

structure Relays (n : Nat) (u : Upstream) : Prop where
  out : u.out = u.read.take n
  keepalive : u.keepalive = true ↔ u.read.drop n = memcachedEnd
  length : 0 ≤ u.length ∧ u.length < 2 ^ 63
  rest : 0 ≤ u.rest

/-- `recv` gave something. -/
def Received (_ : Upstream) (b : Bytes) : Prop := b ≠ []

/-- The connection is not yet kept, and no NUL byte follows what is due. -/
def Clear (u : Upstream) (b : Bytes) : Prop :=
  u.keepalive = false ∧ ¬ u.due ++ [NUL] <+: b.drop (u.length - u.rest).toNat

/-- Once something else has come, nothing is due. -/
structure Counts (n : Nat) (u : Upstream) : Prop where
  value : u.length = (n - u.read.length : Nat) + u.rest
  trailer : u.rest = if u.read.drop n <+: memcachedEnd then 7 - ((u.read.drop n).length : Int) else 0

variable {n v : Nat} {u : Upstream} {b e : Bytes}

/-- With `v` bytes of the value to come. -/
theorem filter_spec (hlength : u.length = v + u.rest) (hv : v = 0 ∨ u.rest = 7) :
    (filter u b).read = u.read ++ b ∧ (filter u b).out = u.out ++ b.take v ∧
      if strncmpEq (b.drop v) u.due then
        (filter u b).rest = u.rest - (b.drop v).length ∧
          (filter u b).length = (v - b.length : Nat) + (filter u b).rest ∧
          ((filter u b).keepalive = true ↔ u.keepalive = true ∨ (filter u b).length = 0)
      else (filter u b).length = 0 ∧ (filter u b).rest = 0 ∧ (filter u b).keepalive = u.keepalive := by
  unfold filter
  rcases Nat.eq_zero_or_pos v with rfl | hpos
  · have hdue : ({ u with read := u.read ++ b } : Upstream).due = u.due := rfl
    grind [Upstream.keep, Upstream.invalid]
  have hrest : u.rest = 7 := by omega
  have hdue : u.due = memcachedEnd := by simp [Upstream.due, hrest]
  have hlast : (u.length - 7).toNat = v := by omega
  grind [strncmpEq, Upstream.keep, Upstream.invalid, take_of_length_le, drop_eq_nil_of_le]

theorem le_of_foreign (h : ¬ b.drop n <+: memcachedEnd) : n ≤ b.length := by
  by_contra! hlt
  rw [drop_eq_nil_of_le (Nat.le_of_lt hlt)] at h
  exact h nil_prefix

theorem Counts.due_iff (hc : Counts n u) (he : n ≤ u.read.length → e ≠ []) :
    u.read.drop n ++ e <+: memcachedEnd ↔ e <+: u.due := by
  rw [Upstream.due, hc.trailer]
  split_ifs with ht
  · obtain ⟨t, ht⟩ := ht
    rw [sub_sub_cancel, Int.toNat_natCast, ← ht, drop_left, prefix_append_right_inj]
  · refine iff_of_false (fun h => ht (( prefix_append ..).trans h)) fun h => he (le_of_foreign ht) ?_
    exact prefix_nil.mp h

theorem Counts.value_or (hc : Counts n u) : n - u.read.length = 0 ∨ u.rest = 7 := by
  rcases Nat.lt_or_ge n u.read.length with hlt | hle
  · exact .inl (by omega)
  · rw [hc.trailer, drop_eq_nil_of_le hle]
    exact .inr (if_pos nil_prefix)

theorem Counts.step (hc : Counts n u) (h : Relays n u) (hb : b ≠ []) :
    Decides (Counts n) (Relays n) (Clear u b) (filter u b) := by
  have ⟨hvalue, htrailer⟩ := hc
  have ⟨hout, hkeepalive, hlength, hrest⟩ := h
  have hend : memcachedEnd.length = 7 := rfl
  obtain ⟨hread', hout', hcount⟩ := filter_spec (b := b) hvalue hc.value_or
  generalize filter u b = u' at *
  have hdrop : u'.read.drop n = u.read.drop n ++ b.drop (n - u.read.length) := hread' ▸ drop_append
  have htake : u'.out = u'.read.take n := by rw [hout', hread', take_append, hout]
  have hdue := hc.due_iff (e := b.drop (n - u.read.length)) fun hle => by rwa [Nat.sub_eq_zero_of_le hle]
  have hcmp := strncmpEq_iff (s := b.drop (n - u.read.length)) (t := u.due)
    fun hnul => absurd (mem_of_mem_drop hnul) (by decide)
  have hleft : (u.length - u.rest).toNat = n - u.read.length := by omega
  have hlen := congrArg List.length hread'
  have hpast := congrArg List.length hdrop
  simp only [length_append, length_drop] at hlen hpast
  rw [Clear, hleft]
  by_cases hnul : u.due ++ [NUL] <+: b.drop (n - u.read.length)
  · -- the comparison succeeds, and more is counted off than is left
    have hle := hnul.length_le
    have h7 : u.rest ≤ 7 := by
      rw [htrailer]
      split_ifs <;> omega
    rw [if_pos (hcmp.mpr (.inr hnul))] at hcount
    refine ⟨fun hn => absurd hnul hn.2, fun hbad => ?_⟩
    have := hbad.rest
    simp only [Upstream.due, length_append, length_singleton, length_drop, hend] at hle hcount
    omega
  by_cases hgood : b.drop (n - u.read.length) <+: u.due
  · have hpre := hdrop ▸ hdue.mpr hgood
    have hle := hpre.length_le
    rw [if_pos (hcmp.mpr (.inl hgood)), length_drop] at hcount
    rw [if_pos (( prefix_append ..).trans (hdue.mpr hgood)), length_drop] at htrailer
    rw [length_drop, hend] at hle
    have hall : u'.read.drop n = memcachedEnd ↔ u'.read.length - n = 7 := by
      rw [← length_drop]
      exact ⟨fun h => h ▸ hend, hpre.eq_of_length⟩
    have hkeep : u.keepalive = false := by
      by_contra hkeep
      have hold := congrArg List.length (hkeepalive.mp (by simpa using hkeep))
      have hpos := length_pos_iff.mpr hb
      rw [length_drop, hend] at hold
      omega
    refine .of_true ⟨hkeep, hnul⟩ ⟨⟨?_, ?_⟩, htake, ?_, ?_, ?_⟩
    · omega
    · rw [if_pos hpre, length_drop]
      omega
    · rw [hall, hcount.2.2, hkeep]
      simp
      omega
    · omega
    · omega
  · rw [if_neg fun h => (hcmp.mp h).elim hgood hnul] at hcount
    have hpre : ¬ u'.read.drop n <+: memcachedEnd := hdrop ▸ mt hdue.mp hgood
    have hle := le_of_foreign hpre
    have hne : u'.read.drop n ≠ memcachedEnd := fun h => hpre (h ▸ prefix_rfl)
    refine ⟨fun hk => ⟨⟨?_, ?_⟩, htake, ?_, ?_, ?_⟩, fun hbad => ⟨?_, hnul⟩⟩
    · omega
    · rw [if_neg hpre, hcount.2.1]
    · simp [hcount, hk, hne]
    · omega
    · omega
    · simpa [hcount, hne] using hbad.keepalive

/-- The value is relayed exactly if nothing is read from a connection that is to be kept,
and no NUL byte follows the trailer, or what is left of it, in the read that ends it. -/
theorem memcached_relays_iff {bs : List Bytes} (h : Meets filter Received (filterInit n) bs) :
    Along filter (Relays n) (filterInit n) bs ↔ n + 7 < 2 ^ 63 ∧ Meets filter Clear (filterInit n) bs := by
  by_cases hn : n + 7 < 2 ^ 63
  · rw [and_iff_right hn]
    refine along_iff_meets (I := Counts n) (fun u b hc => hc.step) ?_ ?_ h
    · constructor <;> simp [filterInit]
    · constructor <;> simp [filterInit, memcachedEnd]
      omega
  · refine iff_of_false (fun hA => hn ?_) fun hA => hn hA.1
    have := (hA [] nil_prefix).length.2
    simp only [filterInit, foldl_nil] at this
    omega

/-- The trailer comes in two reads. -/
theorem memcached_relays_two : Along filter (Relays 2) (filterInit 2)
    [text ['o', 'k', '\r'], text ['\n', 'E', 'N', 'D', '\r', '\n']] := by
  refine (memcached_relays_iff ?_).mpr ⟨by decide, ?_⟩
  · simp [Meets, Received, text]
  · refine ⟨⟨rfl, ?_⟩, ⟨rfl, ?_⟩, trivial⟩ <;> decide

/-- A NUL byte behind the trailer is not noticed, and more is counted off than was due. -/
theorem memcached_rest_wraps : let u := filter (filterInit 1) (text ['x'] ++ memcachedEnd ++ [NUL])
    u.rest = -1 ∧ ¬ Relays 1 u :=
  ⟨by decide, fun h => absurd h.rest (by decide)⟩

end GokuStudio.Nginx.Memcached
