import GokuStudio.Nginx.Http.CleanLine
import GokuStudio.Nginx.Http.ComplexUri

/-!
# A URI that is neither complex nor quoted

The parser of the request line decides which URIs are read a second time. As long
as it has raised neither flag, the second reading would have written exactly the
bytes it was given, and would have noted the same extension (`Follows`); at the
first `?` it would have stopped. This is a simulation: `TwinInv` says in each
state of the first parser where the second one would be.
-/

namespace GokuStudio.Nginx

open Lib List

namespace ComplexUri

/-- A second reading of the bytes from `us` to `e` copies them, is then in one of
the states `ok`, and knows the extension `ext`. -/
def Follows (ok : Plain → Prop) (mergeSlashes : Bool) (buf : Bytes) (us e : Nat)
    (ext : Option Nat) : Prop :=
  ∀ plus quoted, ∃ u s, run mergeSlashes us { plusInUri := plus, quotedUri := quoted }
      (slice buf us e) = .again u ∧
    u.state = .plain s ∧ ok s ∧ u.out = slice buf us e ∧ u.uriExt = ext.map (· - us)

/-- Not inside what could become a dot segment. -/
def Settled (s : Plain) : Prop := s = .usual ∨ s = .slash

def Usual (s : Plain) : Prop := s = .usual

variable {ok ok' : Plain → Prop} {merge : Bool} {buf : Bytes} {us p : Nat} {ext ext' : Option Nat}
  {ch : UInt8}

variable {u : Scratch} {s : Plain} {a : Nat}

theorem Follows.mono (h : Follows ok merge buf us p ext) (hok : ∀ s, ok s → ok' s) :
    Follows ok' merge buf us p ext := by
  intro plus quoted
  obtain ⟨u, s, hrun, hst, hs, hout, hext⟩ := h plus quoted
  exact ⟨u, s, hrun, hst, hok s hs, hout, hext⟩

theorem Follows.settled (h : Follows Usual merge buf us p ext) :
    Follows Settled merge buf us p ext := h.mono fun _ => .inl

/-- One more byte that the second reading copies. -/
theorem Follows.succ (h : Follows ok merge buf us p ext) (hch : buf[p]? = some ch) (hle : us ≤ p)
    (hstep : ∀ u s, u.state = .plain s → ok s → u.out.length = p - us → u.uriExt = ext.map (· - us) →
      ∃ u' s', swPlain merge s ch u = .next u' ∧ u'.state = .plain s' ∧ ok' s' ∧
        u'.out = u.out ++ [ch] ∧ u'.uriExt = ext'.map (· - us)) :
    Follows ok' merge buf us (p + 1) ext' := by
  intro plus quoted
  obtain ⟨u, s, hrun, hst, hs, hout, hext⟩ := h plus quoted
  have hlen : u.out.length = p - us := by
    have := (List.getElem?_eq_some_iff.mp hch).1
    rw [hout, slice, length_drop, length_take]
    omega
  obtain ⟨u', s', hnext, hst', hs', hout', hext'⟩ := hstep u s hst hs hlen hext
  refine ⟨u', s', ?_, hst', hs', by rw [hout', hout, slice_succ hch hle], hext'⟩
  rw [slice_succ hch hle, run, scanFrom_append]
  rw [run] at hrun
  rw [hrun]
  have : step merge ch u = .next u' := by
    rw [step, hst]
    exact hnext
  simp only [scanFrom, this]

/-- A byte without a meaning of its own. -/
def Ordinary (ch : UInt8) : Prop := ch ≠ '/' ∧ ch ≠ '.' ∧ ch ≠ '%' ∧ ch ≠ '?' ∧ ch ≠ '#'

instance (ch : UInt8) : Decidable (Ordinary ch) := inferInstanceAs (Decidable (_ ∧ _))

theorem swPlain_ordinary (merge : Bool) (hc : Ordinary ch) :
    ∃ plus, swPlain merge s ch u = .next ({ u with plusInUri := plus }.push ch .usual) := by
  obtain ⟨h1, h2, h3, h4, h5⟩ := hc
  unfold swPlain
  split_ifs with hu
  · exact ⟨u.plusInUri, rfl⟩
  · refine ⟨u.plusInUri || ch = '+', ?_⟩
    cases s <;> simp only [swUsual, swSlash, swDot, swDotDot, common, if_neg h1, if_neg h2, if_neg h3, if_neg h4, if_neg h5]

theorem Follows.ordinary (h : Follows ok merge buf us p ext) (hch : buf[p]? = some ch)
    (hle : us ≤ p) (hc : Ordinary ch) : Follows Usual merge buf us (p + 1) ext := by
  refine h.succ hch hle fun u s _ _ _ hext => ?_
  obtain ⟨plus, hstep⟩ := swPlain_ordinary merge hc
  exact ⟨_, .usual, hstep, rfl, rfl, rfl, hext⟩

theorem Follows.slash (h : Follows Usual merge buf us p ext) (hch : buf[p]? = some ('/' : UInt8))
    (hle : us ≤ p) : Follows Settled merge buf us (p + 1) none := by
  refine h.succ hch hle fun u s _ hs _ _ => ?_
  rw [show s = .usual from hs]
  exact ⟨_, .slash, rfl, rfl, .inr rfl, rfl, rfl⟩

theorem Follows.dot (h : Follows Usual merge buf us p ext) (hch : buf[p]? = some ('.' : UInt8))
    (hle : us ≤ p) : Follows Usual merge buf us (p + 1) (some (p + 1)) := by
  refine h.succ hch hle fun u s _ hs hlen _ => ?_
  rw [show s = .usual from hs]
  refine ⟨_, .usual, rfl, rfl, rfl, rfl, ?_⟩
  show some (u.out.length + 1) = some (p + 1 - us)
  rw [hlen, Nat.succ_sub hle]

/-- Every URI begins with a slash. -/
theorem follows_first (hch : buf[us]? = some ('/' : UInt8)) : Follows Settled merge buf us (us + 1) none := by
  have hstart : Follows Usual merge buf us us none := by
    intro plus quoted
    rw [slice_self]
    exact ⟨_, .usual, rfl, rfl, rfl, rfl, rfl⟩
  exact hstart.slash hch le_rfl

end ComplexUri

/-! ## §2 Where the second reading would be -/

namespace RequestLine

open ComplexUri (Follows Settled Usual Ordinary)

section
variable (merge : Bool) (buf : Bytes) (p : Nat) (r : Request)

/-- The second reading stops at the `?` before `a`, and there is no `#` behind it. -/
def Args (us a e : Nat) (r : Request) : Prop :=
  r.argsStart = some a ∧ us < a ∧ a ≤ e ∧ buf[a - 1]? = some ('?' : UInt8) ∧
    ('#' : UInt8) ∉ slice buf a e ∧ Follows Settled merge buf us (a - 1) r.uriExt

def NoArgs (ok : ComplexUri.Plain → Prop) (merge : Bool) (buf : Bytes) (us e : Nat) (r : Request) :
    Prop :=
  r.argsStart = none ∧ Follows ok merge buf us e r.uriExt

def Twin (us e : Nat) (r : Request) : Prop := NoArgs Settled merge buf us e r ∨ ∃ a, Args merge buf us a e r

/-- Nothing is said before the URI begins; there `Inv` knows enough. -/
def TwinState (state : State) (buf : Bytes) (us p : Nat) (r : Request) : Prop :=
  match state with
  | .start | .method | .spacesBeforeUri | .schema | .schemaSlash | .schemaSlashSlash
  | .hostStart | .host | .hostEnd | .hostIpLiteral | .port => True
  | .afterSlashInUri => NoArgs Settled merge buf us p r
  | .checkUri => NoArgs Usual merge buf us p r
  | .uri => ∃ a, Args merge buf us a p r
  | .checkUriHttp09 => ∀ ue, r.uriEnd = some ue → NoArgs Settled merge buf us ue r
  | .http09 => ∀ ue, r.uriEnd = some ue → ∃ a, Args merge buf us a ue r
  | _ => ∀ ue, r.uriEnd = some ue → Twin merge buf us ue r

/-- As long as no flag is up. -/
def Unflagged : Prop := r.complexUri = false ∧ r.quotedUri = false

def TwinInv : Prop := Unflagged r → ∀ us, r.uriStart = some us → TwinState merge r.state buf us p r
def TwinDone : Prop := Unflagged r → ∀ us ue, r.uriStart = some us → r.uriEnd = some ue → Twin merge buf us ue r

def TwinGood : Move → Prop
  | .next r => TwinInv merge buf (p + 1) r
  | .exit .done r => TwinDone merge buf r
  | .exit _ _ => True

end

/-! ## §3 The cases of the switch -/

section
variable {merge : Bool} {buf : Bytes} {p us a : Nat} {ch : UInt8} {r : Request} {other : Move}

def beforeUri : State → Bool
  | .start | .method | .spacesBeforeUri | .schema | .schemaSlash | .schemaSlashSlash
  | .hostStart | .host | .hostEnd | .hostIpLiteral | .port => true
  | _ => false

theorem twinInv_of_before (h : beforeUri r.state) : TwinInv merge buf p r := by
  intro _ us _
  cases hs : r.state <;> rw [hs] at h <;> trivial

theorem twinInv_noPath (h : Schema buf p r) : TwinInv merge buf (p + 1) (noPath r) := by
  obtain ⟨ht, se, hse, -, hslash, -⟩ := h
  intro _ us hus ue hue
  have hus' : us = se + 1 := by
    have : (noPath r).uriStart = some (se + 1) := by simp [noPath, hse]
    exact Option.mem_unique hus this
  have hue' : ue = se + 2 := by
    have : (noPath r).uriEnd = some (se + 2) := by simp [noPath, hse]
    exact Option.mem_unique hue this
  subst hus' hue'
  refine .inl ⟨ht.2, ?_⟩
  show Follows Settled merge buf (se + 1) (se + 2) r.uriExt
  rw [ht.1]
  exact ComplexUri.follows_first hslash

/-- In these states the byte is only passed over. -/
theorem step_twin_before (hs : r.state ∈ [.start, .method, .schema, .schemaSlash, .schemaSlashSlash, .hostIpLiteral]) :
    TwinGood merge buf p (step buf p ch r) := by
  rw [step]
  cases hr : r.state <;> simp only [hr, mem_cons, reduceCtorEq, not_mem_nil, or_self] at hs
  all_goals
    simp only [swStart, swMethod, swSchema, expect, swHostIpLiteral]
    split_ifs <;> first | exact twinInv_of_before (by simp [hr, beforeUri]) | trivial

/-- Behind the URI only the byte that takes it up again matters. -/
theorem spacesAfterUri_twin (hdone : TwinDone merge buf r)
    (hspace : TwinInv merge buf (p + 1) r) (hother : TwinGood merge buf p other) :
    TwinGood merge buf p (spacesAfterUri other p ch r) := by
  unfold spacesAfterUri
  split_ifs
  · exact hspace
  · exact fun hf us hus ue => hdone hf us ue hus
  · exact hdone
  · exact fun hf us hus ue => hdone hf us ue hus
  · exact hother

/-- Where the URI ends, in any of the three states that read it. -/
theorem uriEnd_twin {spaces : State} (hdone : Unflagged r → ∀ us, r.uriStart = some us → Twin merge buf us p r)
    (hspaces : TwinInv merge buf (p + 1) { r with uriEnd := some p, state := spaces })
    (hother : ch ≠ ' ' → TwinGood merge buf p other) :
    TwinGood merge buf p (uriEnd spaces other p ch r) := by
  have h : TwinDone merge buf { r with uriEnd := some p } := by
    intro hf us ue hus hue
    obtain rfl := Option.some.inj hue
    exact hdone hf us hus
  unfold uriEnd
  split_ifs with hsp
  · exact hspaces
  · exact fun hf us hus ue => h hf us ue hus
  · exact h
  · trivial
  · exact hother hsp

theorem Open.lt (h : Open buf p r) (hus : r.uriStart = some us) : us < p := by
  obtain ⟨us', hus', -, -, hlt, -⟩ := h
  obtain rfl := Option.mem_unique hus hus'
  exact hlt

theorem usual_ordinary (h : usual ch) : Ordinary ch := by
  refine ⟨?_, ?_, ?_, ?_, ?_⟩ <;> rintro rfl <;> exact absurd h (by decide)

/-- A `?` begins the arguments. -/
theorem NoArgs.args {ok : ComplexUri.Plain → Prop} (hok : ∀ s, ok s → Settled s)
    (h : NoArgs ok merge buf us p r) (hlt : us < p) (hch : buf[p]? = some ('?' : UInt8)) :
    Args merge buf us (p + 1) (p + 1) { r with argsStart := some (p + 1), state := .uri } := by
  refine ⟨rfl, by omega, le_rfl, hch, ?_, h.2.mono hok⟩
  rw [slice_self]
  exact not_mem_nil

theorem twinGood_complex : TwinGood merge buf p (.next { r with complexUri := true, state := .uri }) :=
  fun hf => by cases hf.1

theorem twinGood_quoted : TwinGood merge buf p (.next { r with quotedUri := true, state := .uri }) :=
  fun hf => by cases hf.2

theorem Open.le (h : Open buf p r) (hus : r.uriStart = some us) : us ≤ p := Nat.le_of_lt (h.lt hus)

/-- The second reading copies spaces. -/
theorem follows_spaces {ue : Nat} {ext : Option Nat} (hle : us ≤ ue) : ∀ {q : Nat}, ue ≤ q →
    (∀ i, ue ≤ i → i ≤ q → buf[i]? = some (' ' : UInt8)) → Follows Settled merge buf us ue ext →
    Follows Usual merge buf us (q + 1) ext := by
  intro q hq hsp h
  obtain ⟨n, rfl⟩ := Nat.exists_eq_add_of_le hq
  induction n with
  | zero => exact h.ordinary (hsp ue le_rfl le_rfl) hle (by decide)
  | succ n ih =>
    have := ih (Nat.le_add_right ..) fun i hi hiq => hsp i hi (by omega)
    exact this.ordinary (hsp (ue + n + 1) (by omega) le_rfl) (by omega) (by decide)

theorem getElem?_of_slice {i j q : Nat} {P : UInt8 → Prop} (hj : j ≤ buf.length)
    (h : ∀ c ∈ slice buf i j, P c) (hi : i ≤ q) (hq : q < j) : ∃ c, buf[q]? = some c ∧ P c := by
  have hlt : q < buf.length := by omega
  refine ⟨buf[q], getElem?_eq_getElem hlt, h _ ?_⟩
  rw [slice, mem_iff_getElem]
  refine ⟨q - i, by simp; omega, ?_⟩
  rw [getElem_drop, getElem_take]
  congr 1
  omega

theorem twinInv_of_after (hs : afterUri r.state) : TwinInv merge buf p r ↔ TwinDone merge buf r := by
  have : ∀ us, TwinState merge r.state buf us p r ↔ ∀ ue, r.uriEnd = some ue → Twin merge buf us ue r := by
    intro us
    cases hr : r.state <;> rw [hr] at hs <;> first | exact Iff.rfl | cases hs
  constructor
  · intro h hf us ue hus hue
    exact (this us).mp (h hf us hus) ue hue
  · intro h hf us hus
    exact (this us).mpr fun ue => h hf us ue hus

/-- Behind the URI nothing touches it. -/
theorem step_twin_after (hs : afterUri r.state) (h : TwinDone merge buf r) : TwinGood merge buf p (step buf p ch r) := by
  rw [step]
  cases hr : r.state <;> simp only [hr, afterUri, Bool.false_eq_true] at hs
  all_goals
    simp only [swHostHttp09, spacesAfterUri, expect, swFirstMajorDigit, swMajorDigit, swFirstMinorDigit, swMinorDigit,
      swSpacesAfterDigit, swAlmostDone]
    split_ifs <;> first | exact h | exact (twinInv_of_after (by simp [hr, afterUri])).mpr h | trivial

variable (hch : buf[p]? = some ch)
include hch

/-- The first byte of the URI. -/
theorem twinInv_slash (hslash : ch = '/') (ht : NoTail r)
    (hs : r.state = .afterSlashInUri) (hu : r.uriStart = some p) : TwinInv merge buf (p + 1) r := by
  intro _ us hus
  obtain rfl := Option.mem_unique hu hus
  rw [hs]
  refine ⟨ht.2, ?_⟩
  rw [ht.1]
  exact ComplexUri.follows_first (hslash ▸ hch)

theorem swSpacesBeforeUri_twin (hs : r.state = .spacesBeforeUri) (ht : NoTail r) : TwinGood merge buf p (swSpacesBeforeUri p ch r) := by
  unfold swSpacesBeforeUri
  split_ifs with hslash
  · exact twinInv_slash hch hslash ht rfl rfl
  · exact twinInv_of_before rfl
  · exact twinInv_of_before (by rw [hs]; rfl)
  · trivial

theorem swHostEnd_twin (h : Schema buf p r) : TwinGood merge buf p (swHostEnd p ch r) := by
  unfold swHostEnd
  split_ifs with _ hslash
  · exact twinInv_of_before rfl
  · exact twinInv_slash hch hslash h.1 rfl rfl
  · exact twinInv_noPath h
  · trivial

theorem swHost_twin (hs : r.state = .host) (h : Schema buf p r) : TwinGood merge buf p (swHost p ch r) := by
  unfold swHost
  split_ifs
  · exact twinInv_of_before (by rw [hs]; rfl)
  · exact swHostEnd_twin hch h

theorem swHostStart_twin (h : Schema buf p r) : TwinGood merge buf p (swHostStart p ch r) := by
  unfold swHostStart
  split_ifs
  · exact twinInv_of_before rfl
  · exact swHost_twin hch rfl h

theorem swPort_twin (hs : r.state = .port) (h : Schema buf p r) : TwinGood merge buf p (swPort p ch r) := by
  unfold swPort
  split_ifs with _ hslash
  · exact twinInv_of_before (by rw [hs]; rfl)
  · exact twinInv_slash hch hslash h.1 rfl rfl
  · exact twinInv_noPath h
  · trivial

theorem swAfterSlashInUri_twin (hs : r.state = .afterSlashInUri) (ho : Open buf p r)
    (h : Unflagged r → ∀ us, r.uriStart = some us → NoArgs Settled merge buf us p r) :
    TwinGood merge buf p (swAfterSlashInUri p ch r) := by
  have hord : Ordinary ch → Unflagged r → ∀ us, r.uriStart = some us →
      NoArgs Usual merge buf us (p + 1) r := fun hc hf us hus =>
    ⟨(h hf us hus).1, (h hf us hus).2.ordinary hch (ho.le hus) hc⟩
  unfold swAfterSlashInUri
  split_ifs with hu
  · exact hord (usual_ordinary hu)
  refine uriEnd_twin (fun hf us hus => .inl (h hf us hus)) ?_ fun _ => ?_
  · intro hf us hus ue hue
    obtain rfl := Option.some.inj hue
    exact h hf us hus
  unfold afterSlashByte
  split_ifs with hdot hperc hslash hq hhash hplus
  · exact twinGood_complex
  · exact twinGood_quoted
  · exact twinGood_complex
  · rw [hq] at hch
    exact fun hf us hus => ⟨p + 1, (h hf us hus).args (fun _ => id) (ho.lt hus) hch⟩
  · exact twinGood_complex
  · intro hf us hus
    have := hord ⟨hslash, hdot, hperc, hq, hhash⟩ hf us hus
    rw [hs]
    exact ⟨this.1, this.2.settled⟩
  · exact hord ⟨hslash, hdot, hperc, hq, hhash⟩

theorem swCheckUri_twin (hs : r.state = .checkUri) (ho : Open buf p r)
    (h : Unflagged r → ∀ us, r.uriStart = some us → NoArgs Usual merge buf us p r) :
    TwinGood merge buf p (swCheckUri p ch r) := by
  have hord : Ordinary ch → ∀ plus, TwinInv merge buf (p + 1) { r with plusInUri := plus } := by
    intro hc plus hf us hus
    rw [hs]
    exact ⟨(h hf us hus).1, (h hf us hus).2.ordinary hch (ho.le hus) hc⟩
  unfold swCheckUri
  split_ifs with hu
  · exact hord (usual_ordinary hu) _
  refine uriEnd_twin (fun hf us hus => .inl ⟨(h hf us hus).1, (h hf us hus).2.settled⟩) ?_ fun _ => ?_
  · intro hf us hus ue hue
    obtain rfl := Option.some.inj hue
    exact ⟨(h hf us hus).1, (h hf us hus).2.settled⟩
  unfold checkUriByte
  split_ifs with hslash hdot hperc hq hhash hplus
  · rw [hslash] at hch
    exact fun hf us hus => ⟨(h hf us hus).1, (h hf us hus).2.slash hch (ho.le hus)⟩
  · rw [hdot] at hch
    intro hf us hus
    rw [hs]
    exact ⟨(h hf us hus).1, (h hf us hus).2.dot hch (ho.le hus)⟩
  · exact twinGood_quoted
  · rw [hq] at hch
    exact fun hf us hus => ⟨p + 1, (h hf us hus).args (fun _ => .inl) (ho.lt hus) hch⟩
  · exact twinGood_complex
  · exact hord ⟨hslash, hdot, hperc, hq, hhash⟩ _
  · exact hord ⟨hslash, hdot, hperc, hq, hhash⟩ _

theorem Args.succ (h : Args merge buf us a p r)
    (hc : ch ≠ '#') : Args merge buf us a (p + 1) r := by
  obtain ⟨ha, hlt, hle, hq, hno, hf⟩ := h
  refine ⟨ha, hlt, by omega, hq, ?_, hf⟩
  rw [slice_succ hch hle, mem_append, mem_singleton]
  rintro (hm | hm)
  · exact hno hm
  · exact hc hm.symm

theorem swUri_twin (hs : r.state = .uri)
    (h : Unflagged r → ∀ us, r.uriStart = some us → ∃ a, Args merge buf us a p r) :
    TwinGood merge buf p (swUri p ch r) := by
  have hother : ch ≠ '#' → TwinInv merge buf (p + 1) r := by
    intro hc hf us hus
    obtain ⟨a, ha⟩ := h hf us hus
    rw [hs]
    exact ⟨a, ha.succ hch hc⟩
  unfold swUri
  split_ifs with hu hhash
  · exact hother (usual_ordinary hu).2.2.2.2
  all_goals
    refine uriEnd_twin (fun hf us hus => .inr (h hf us hus)) ?_ fun _ => ?_
    · intro hf us hus ue hue
      obtain rfl := Option.some.inj hue
      exact h hf us hus
  · exact fun hf => by cases hf.1
  · exact hother hhash

theorem swCheckUriHttp09_twin (hs : r.state = .checkUriHttp09) (hS : Spaces buf p r)
    (hno : Unflagged r → ∀ us, r.uriStart = some us → ∀ ue, r.uriEnd = some ue → NoArgs Settled merge buf us ue r) :
    TwinGood merge buf p (swCheckUriHttp09 p ch r) := by
  refine spacesAfterUri_twin (fun hf us ue hus hue => .inl (hno hf us hus ue hue)) ?_ ?_
  · intro hf us hus
    rw [hs]
    exact hno hf us hus
  · refine swCheckUri_twin hch rfl hS.reopen fun hf us hus => ?_
    obtain ⟨us', ue, hue, hlt, hu, hsp⟩ := hS
    obtain rfl := Option.mem_unique hu.1 hus
    have hp : p ≤ buf.length := Nat.le_of_lt (List.getElem?_eq_some_iff.mp hch).1
    have hbytes : ∀ i, ue ≤ i → i ≤ p - 1 → buf[i]? = some (' ' : UInt8) := by
      intro i hi hip
      obtain ⟨c, hc, rfl⟩ := getElem?_of_slice hp hsp hi (by omega)
      exact hc
    have hfol := (hno hf us' hus ue hue).2
    have := follows_spaces (Nat.le_of_lt hu.2.2.2.1) (by omega) hbytes hfol
    rw [Nat.sub_add_cancel (by omega)] at this
    exact ⟨(hno hf us' hus ue hue).1, this⟩

theorem swHttp09_twin (hs : r.state = .http09) (hS : Spaces buf p r)
    (hargs : Unflagged r → ∀ us, r.uriStart = some us → ∀ ue, r.uriEnd = some ue → ∃ a, Args merge buf us a ue r) :
    TwinGood merge buf p (swHttp09 p ch r) := by
  refine spacesAfterUri_twin (fun hf us ue hus hue => .inr (hargs hf us hus ue hue)) ?_ ?_
  · intro hf us hus
    rw [hs]
    exact hargs hf us hus
  · refine swUri_twin hch rfl fun hf us hus => ?_
    obtain ⟨us', ue, hue, hlt, hu, hsp⟩ := hS
    obtain rfl := Option.mem_unique hu.1 hus
    obtain ⟨a, ha, hua, hae, hq, hno, hfol⟩ := hargs hf us' hus ue hue
    refine ⟨a, ha, hua, by omega, hq, ?_, hfol⟩
    rw [slice_trans hae (Nat.le_of_lt hlt), mem_append]
    rintro (hm | hm)
    · exact hno hm
    · exact absurd (hsp _ hm) (by decide)

/-! ## §4 A step, and a line -/

theorem step_twin (hI : Inv buf p r) (h : TwinInv merge buf p r) : TwinGood merge buf p (step buf p ch r) := by
  by_cases hafter : afterUri r.state
  · exact step_twin_after hafter ((twinInv_of_after hafter).mp h)
  have hI' := hI.2
  have huri : ∀ {st : State}, r.state = st → Unflagged r → ∀ us, r.uriStart = some us → TwinState merge st buf us p r := by
    rintro _ rfl
    exact h
  by_cases hbefore : r.state ∈ [.start, .method, .schema, .schemaSlash, .schemaSlashSlash, .hostIpLiteral]
  · exact step_twin_before hbefore
  unfold step
  cases hs : r.state <;> rw [hs] at hI' hafter hbefore
  case spacesBeforeUri => exact swSpacesBeforeUri_twin hch hs hI'.2.1
  case hostStart => exact swHostStart_twin hch hI'
  case host => exact swHost_twin hch hs hI'.1
  case hostEnd => exact swHostEnd_twin hch hI'.1
  case port => exact swPort_twin hch hs hI'.1
  case afterSlashInUri => exact swAfterSlashInUri_twin hch hs hI' (huri hs)
  case checkUri => exact swCheckUri_twin hch hs hI' (huri hs)
  case checkUriHttp09 => exact swCheckUriHttp09_twin hch hs hI' (huri hs)
  case uri => exact swUri_twin hch hs (huri hs)
  case http09 => exact swHttp09_twin hch hs hI' (huri hs)
  all_goals first | exact absurd rfl hafter | exact absurd (by decide) hbefore

omit hch

theorem scan_twin (merge : Bool) {pos q : Nat} {s : Request} (hI : Inv buf pos r) (h : TwinInv merge buf pos r)
    (hscan : parser.scan buf pos r (buf.drop pos) = .found .done s q) : TwinDone merge buf s := by
  have hO : TwinGood merge buf q (.exit .done s) := by
    refine Resumable.scan_found (I := fun p r => Inv buf p r ∧ TwinInv merge buf p r)
      (O := fun e s q => TwinGood merge buf q (.exit e s)) ?_ ?_ rfl ⟨hI, h⟩ hscan
    · intro p a s s' ha hi hstep
      have hgood := step_good hi.1 ha
      have htwin := step_twin ha hi.1 hi.2
      rw [show step buf p a s = .next s' from hstep] at hgood htwin
      exact ⟨hgood, htwin⟩
    · intro p a s e s' ha hi hstep
      have htwin := step_twin ha hi.1 hi.2
      rwa [show step buf p a s = .exit e s' from hstep] at htwin
  exact hO

end
end RequestLine

/-! ## §5 Both ways give the same strings -/

theorem slice_drop (buf : Bytes) {i e j : Nat} (h : i ≤ e) : (slice buf i j).drop (e - i) = slice buf e j := by
  rw [slice, slice, drop_drop, Nat.add_sub_cancel' h]

/-- The path, the extension and the arguments. -/
def SameStrings (r s : UriRequest) : Prop :=
  s.strings.uri = r.strings.uri ∧ s.strings.exten = r.strings.exten ∧ s.strings.args = r.strings.args

namespace ComplexUri
variable {ok : Plain → Prop} {merge : Bool} {r : UriRequest} {us ue e a : Nat} {u : Scratch} {s : Plain}

/-- The second reading has copied the bytes up to `e`. -/
theorem sameStrings_close (hstart : r.start = us) (hend : r.pathEnd = e)
    (hout : u.out = slice r.buf us e) (hu : u.uriExt = r.uriExt.map (· - us)) (hext : ∀ x, r.uriExt = some x → us ≤ x) :
    SameStrings (processRequestUriTail (takePath r)) (processRequestUriTail { close r u with argsStart := r.argsStart }) := by
  refine ⟨?_, ?_, rfl⟩
  · show u.out = slice r.buf r.start r.pathEnd
    rw [hout, hstart, hend]
  · simp only [processRequestUriTail, takePath, close, hu, hout]
    cases he : r.uriExt with
    | none => rfl
    | some x => exact (slice_drop r.buf (hext x he)).trans (congrArg (slice r.buf x) hend.symm)

theorem start_eq (hus : r.uriStart = some us) : r.start = us := by rw [UriRequest.start, hus]; rfl
theorem finish_eq (hue : r.uriEnd = some ue) : r.finish = ue := by rw [UriRequest.finish, hue]; rfl

variable (hus : r.uriStart = some us) (hue : r.uriEnd = some ue) (hext : ∀ x, r.uriExt = some x → us ≤ x)
include hus hue hext

theorem sameStrings_noArgs (ha : r.argsStart = none) (h : Follows ok merge r.buf us ue r.uriExt) :
    ∃ s, parseComplexUri merge r = some s ∧ SameStrings (processRequestUriTail (takePath r)) (processRequestUriTail s) := by
  obtain ⟨u, st, hrun, -, -, hout, hu⟩ := h r.plusInUri r.quotedUri
  have hend : r.pathEnd = ue := by rw [UriRequest.pathEnd, ha, finish_eq hue]
  have hsame := sameStrings_close (start_eq hus) hend hout hu hext
  rw [ha] at hsame
  refine ⟨close r u, ?_, hsame⟩
  rw [parseComplexUri, start_eq hus, finish_eq hue]
  simp only [hrun]

theorem sameStrings_args (h : RequestLine.Args merge r.buf us a ue r.toRequest) :
    ∃ s, parseComplexUri merge r = some s ∧ SameStrings (processRequestUriTail (takePath r)) (processRequestUriTail s) := by
  obtain ⟨ha, hlt, hle, hq, hno, hfol⟩ := h
  obtain ⟨u, st, hrun, hst, -, hout, hu⟩ := hfol r.plusInUri r.quotedUri
  have hend : r.pathEnd = a - 1 := by rw [UriRequest.pathEnd, ha]
  have hlen : a - 1 < r.buf.length := (List.getElem?_eq_some_iff.mp hq).1
  -- the URI is the path, the `?`, and the arguments
  have hsplit : slice r.buf us ue = slice r.buf us (a - 1) ++ ('?' : UInt8) :: slice r.buf a ue := by
    have hsucc := slice_succ hq (show us ≤ a - 1 by omega)
    rw [Nat.sub_add_cancel (by omega)] at hsucc
    rw [slice_trans (Nat.le_of_lt hlt) hle, hsucc, append_assoc]
    rfl
  have hfound : run merge us { plusInUri := r.plusInUri, quotedUri := r.quotedUri }
      (slice r.buf us ue) = .found .args u (a - 1) := by
    rw [run] at hrun
    rw [hsplit, run, scanFrom_append, hrun, length_slice (by omega), Nat.add_sub_cancel' (show us ≤ a - 1 by omega)]
    have hstep : step merge '?' u = .exit .args u := by
      rw [step, hst]
      cases st <;> rfl
    simp only [scanFrom, hstep]
  have hclose : closeArgs r u a = { close r u with argsStart := r.argsStart } := by
    rw [closeArgs, finish_eq hue, if_neg hno, ha]
  refine ⟨closeArgs r u a, ?_, hclose ▸ sameStrings_close (start_eq hus) hend hout hu hext⟩
  rw [parseComplexUri, start_eq hus, finish_eq hue]
  simp only [hfound, Nat.sub_add_cancel (show 1 ≤ a by omega)]

end ComplexUri

/-- The request after its line has been read, however the line arrived. -/
def afterLine (buf : Bytes) (chunks : List Bytes) : UriRequest :=
  { (feedRequestLine {} buf chunks).req with buf := buf ++ chunks.flatten }

/-- Of an accepted line, what the two invariants know. -/
theorem afterLine_spec {buf : Bytes} {chunks : List Bytes} (merge : Bool)
    (hok : (feedRequestLine {} buf chunks).rc = .ok) :
    ∃ us ue, (afterLine buf chunks).uriStart = some us ∧ (afterLine buf chunks).uriEnd = some ue ∧
      RequestLine.Uri (buf ++ chunks.flatten) us ue (afterLine buf chunks).toRequest ∧
      (RequestLine.Unflagged (afterLine buf chunks).toRequest →
        RequestLine.Twin merge (buf ++ chunks.flatten) us ue (afterLine buf chunks).toRequest) := by
  have heq := feedRequestLine_ok hok
  rw [heq] at hok
  obtain ⟨s, q, hscan, hparse⟩ := RequestLine.parse_ok hok
  have hreq : (afterLine buf chunks).toRequest = (RequestLine.finish s q).req := by
    show (feedRequestLine {} buf chunks).req = _
    rw [heq, hparse]
  obtain ⟨re, -, -, us, ue, hue, -, hu⟩ := RequestLine.scan_done (RequestLine.inv_fresh _ _) hscan
  have htwin := RequestLine.scan_twin merge (RequestLine.inv_fresh _ _) (RequestLine.twinInv_of_before rfl) hscan
  rw [hreq]
  exact ⟨us, ue, hu.1, hue, hu, fun hf => htwin hf us ue hu.1 hue⟩

/-- What the fast way leaves out would have changed nothing. -/
theorem fast_path_eq_slow_path (buf : Bytes) (chunks : List Bytes) (mergeSlashes : Bool)
    (hok : (feedRequestLine {} buf chunks).rc = .ok)
    (hc : (afterLine buf chunks).complexUri = false)
    (hq : (afterLine buf chunks).quotedUri = false) :
    ∃ fast slow, processRequestUri mergeSlashes (afterLine buf chunks) = some fast ∧
      (parseComplexUri mergeSlashes (afterLine buf chunks)).map processRequestUriTail = some slow ∧
      slow.strings.uri = fast.strings.uri ∧ slow.strings.exten = fast.strings.exten ∧
      slow.strings.args = fast.strings.args := by
  obtain ⟨us, ue, hus, hue, hu, htwin⟩ := afterLine_spec mergeSlashes hok
  have hfast : processRequestUri mergeSlashes (afterLine buf chunks) =
      some (processRequestUriTail (takePath (afterLine buf chunks))) := by
    rw [processRequestUri, hc, hq]
    rfl
  have hext : ∀ x, (afterLine buf chunks).uriExt = some x → us ≤ x := fun x hx => (hu.2.2.2.2.2.2.1 x hx).1
  have hslow : ∃ s, parseComplexUri mergeSlashes (afterLine buf chunks) = some s ∧
      SameStrings (processRequestUriTail (takePath (afterLine buf chunks))) (processRequestUriTail s) := by
    rcases htwin ⟨hc, hq⟩ with ⟨ha, hfol⟩ | ⟨a, hargs⟩
    · exact ComplexUri.sameStrings_noArgs hus hue hext ha hfol
    · exact ComplexUri.sameStrings_args hus hue hext hargs
  obtain ⟨s, hs, hsame⟩ := hslow
  exact ⟨_, _, hfast, by rw [hs]; rfl, hsame⟩

/-- `GET /a.b?c`, as it is written in HTTP/0.9. -/
def plainLine : List Bytes := [text ['G', 'E', 'T', ' ', '/', 'a', '.', 'b', '?', 'c', '\n']]

theorem fast_path_eq_slow_path_plainLine :
    ((feedRequestLine {} [] plainLine).rc = .ok ∧ (afterLine [] plainLine).complexUri = false ∧
      (afterLine [] plainLine).quotedUri = false) ∧
    ∃ fast slow, processRequestUri true (afterLine [] plainLine) = some fast ∧
      (parseComplexUri true (afterLine [] plainLine)).map processRequestUriTail = some slow ∧
      slow.strings.uri = fast.strings.uri ∧ slow.strings.exten = fast.strings.exten ∧
      slow.strings.args = fast.strings.args :=
  ⟨by decide, fast_path_eq_slow_path [] plainLine true (by decide) (by decide) (by decide)⟩

end GokuStudio.Nginx
