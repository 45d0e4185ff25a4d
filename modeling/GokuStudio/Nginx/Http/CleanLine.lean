import GokuStudio.Nginx.Http.Arrival

/-!
# Accepted request lines are clean

What holds in each state of the parser of a new request, of the bytes before `p`:
which of the pointers are set, how they are ordered, and which bytes the host and
the URI read so far can hold. `Inv` is kept by every step (`step_good`), and a
line that is accepted has what `Done` says.
-/

namespace GokuStudio.Nginx

open Lib List

/-! ## §1 Bytes between two positions -/

theorem slice_self (buf : Bytes) (i : Nat) : slice buf i i = [] := drop_eq_nil_of_le (length_take_le ..)

variable {i j k q pos p : Nat} {ch : UInt8} {buf : Bytes} {space : Bool}

theorem slice_succ (hch : buf[p]? = some ch) (hi : i ≤ p) : slice buf i (p + 1) = slice buf i p ++ [ch] := by
  have hlen : i ≤ (buf.take p).length := by
    rw [length_take]
    have := (List.getElem?_eq_some_iff.mp hch).1
    omega
  rw [slice, slice, take_add_one, hch, Option.toList_some, drop_append_of_le_length hlen]

theorem slice_trans (hij : i ≤ j) (hjk : j ≤ k) : slice buf i k = slice buf i j ++ slice buf j k := by
  have htake : slice buf i j = ((buf.take k).drop i).take (j - i) := by
    rw [slice, ← Nat.min_eq_left hjk, ← take_take, drop_take, Nat.min_eq_left hjk]
  have hdrop : slice buf j k = ((buf.take k).drop i).drop (j - i) := by
    rw [slice, drop_drop, Nat.add_sub_cancel' hij]
  rw [htake, hdrop, take_append_drop, slice]

variable {P : UInt8 → Prop}

theorem forall_slice_self : ∀ c ∈ slice buf i i, P c := by
  rw [slice_self]
  exact nofun

/-- A property of all bytes from `i` to `p`, and of the one at `p`. -/
theorem forall_slice_succ (hch : buf[p]? = some ch) (hi : i ≤ p) (h : ∀ c ∈ slice buf i p, P c) (hP : P ch) :
    ∀ c ∈ slice buf i (p + 1), P c := by
  rw [slice_succ hch hi]
  intro c hc
  rcases mem_append.mp hc with hc | hc
  · exact h c hc
  · rwa [mem_singleton.mp hc]

namespace RequestLine

/-- What a URI can hold; `space` says whether a space may be among it. -/
def CleanByte (space : Bool) (ch : UInt8) : Prop := ch ≠ NUL ∧ ch ≠ CR ∧ ch ≠ LF ∧ (space = false → ch ≠ ' ')

instance (space : Bool) (ch : UInt8) : Decidable (CleanByte space ch) := inferInstanceAs (Decidable (_ ∧ _))

def Clean (space : Bool) (buf : Bytes) (i j : Nat) : Prop := ∀ ch ∈ slice buf i j, CleanByte space ch

theorem clean_of_byte (h : usual ch ∨ hostByte ch ∨ literalByte ch) : CleanByte false ch := by
  refine ⟨?_, ?_, ?_, fun _ => ?_⟩ <;> rintro rfl <;> exact absurd h (by decide)

theorem CleanByte.mono (h : CleanByte false ch) : CleanByte space ch := ⟨h.1, h.2.1, h.2.2.1, fun _ => h.2.2.2 rfl⟩

/-! ## §2 What holds in each state -/

section
variable (buf : Bytes) (p : Nat) (r : Request)

/-- The method has been read, and ends before `p`. -/
def Named : Prop := ∃ rs me, r.requestStart = some rs ∧ r.methodEnd = some me ∧ rs ≤ me ∧ me < p

/-- A pointer that, when set, lies between two others. -/
def Within (i j : Nat) (ptr : Option Nat) : Prop := ∀ x, ptr = some x → i ≤ x ∧ x ≤ j

def NoTail : Prop := r.uriExt = none ∧ r.argsStart = none

/-- Behind the two slashes of an absolute URI. -/
def Schema : Prop :=
  NoTail r ∧ ∃ se, r.schemaEnd = some se ∧ Named se r ∧ buf[se + 1]? = some ('/' : UInt8) ∧ se + 2 < p

def HostOpen : Prop := ∃ hs, r.hostStart = some hs ∧ hs ≤ p ∧ Clean false buf hs p
def Host : Prop := ∀ hs, r.hostStart = some hs → ∃ he, r.hostEnd = some he ∧ hs ≤ he ∧ Clean false buf hs he

/-- The bytes from `us` to `ue` are a URI. -/
def Uri (us ue : Nat) (r : Request) : Prop :=
  r.uriStart = some us ∧ Named us r ∧ Host buf r ∧ us < ue ∧ buf[us]? = some ('/' : UInt8) ∧
    Clean r.spaceInUri buf us ue ∧ Within us ue r.uriExt ∧ Within us ue r.argsStart

def Open : Prop := ∃ us, Uri buf us p r
def Closed : Prop := ∃ us ue, r.uriEnd = some ue ∧ ue < p ∧ Uri buf us ue r

/-- The URI may turn out to go on behind the spaces. -/
def Spaces : Prop :=
  ∃ us ue, r.uriEnd = some ue ∧ ue < p ∧ Uri buf us ue r ∧ ∀ ch ∈ slice buf ue p, ch = (' ' : UInt8)

def StateInv (state : State) (buf : Bytes) (p : Nat) (r : Request) : Prop :=
  match state with
  | .start => r.hostStart = none ∧ NoTail r
  | .method => r.hostStart = none ∧ NoTail r ∧ ∃ rs, r.requestStart = some rs ∧ rs < p
  | .spacesBeforeUri | .schema => r.hostStart = none ∧ NoTail r ∧ Named p r
  | .schemaSlash => NoTail r ∧ ∃ se, r.schemaEnd = some se ∧ Named se r ∧ se + 1 = p
  | .schemaSlashSlash =>
    NoTail r ∧ ∃ se, r.schemaEnd = some se ∧ Named se r ∧ buf[se + 1]? = some ('/' : UInt8) ∧ se + 2 = p
  | .hostStart => Schema buf p r
  | .host | .hostEnd | .hostIpLiteral => Schema buf p r ∧ HostOpen buf p r
  | .port => Schema buf p r ∧ Host buf r
  | .afterSlashInUri | .checkUri | .uri => Open buf p r
  | .checkUriHttp09 | .http09 => Spaces buf p r
  | _ => Closed buf p r

def Inv : Prop := r.requestEnd = none ∧ StateInv r.state buf p r

/-- What is known at `done:`. -/
def Done : Prop := ∃ re, r.requestEnd.or (some p) = some re ∧ re ≤ p ∧ Closed buf (re + 1) r

/-- A step keeps the invariant, and an accepted line is a good one. -/
def Good : Move → Prop
  | .next r => Inv buf (p + 1) r
  | .exit .done r => Done buf p r
  | .exit _ _ => True

end

/-! ## §3 The cases of the switch -/

section
variable {r : Request}

theorem Named.mono (h : Named p r) (hq : p ≤ q) : Named q r := by
  obtain ⟨rs, me, hrs, hme, hle, hlt⟩ := h
  exact ⟨rs, me, hrs, hme, hle, by omega⟩

theorem Within.mono {ptr : Option Nat} (h : Within i j ptr) (hk : j ≤ k) : Within i k ptr := by
  intro x hx
  have := h x hx
  omega

theorem Within.none : Within i j none := by
  intro x hx
  cases hx

theorem Schema.succ (h : Schema buf p r) : Schema buf (p + 1) r := by
  obtain ⟨htail, se, hse, hn, hslash, hlt⟩ := h
  exact ⟨htail, se, hse, hn, hslash, by omega⟩

theorem Closed.succ (h : Closed buf p r) : Closed buf (p + 1) r := by
  obtain ⟨us, ue, hue, hlt, hu⟩ := h
  exact ⟨us, ue, hue, by omega, hu⟩

theorem Spaces.closed (h : Spaces buf p r) : Closed buf p r := by
  obtain ⟨us, ue, hue, hlt, hu, -⟩ := h
  exact ⟨us, ue, hue, hlt, hu⟩

theorem clean_slash {us : Nat} (h : buf[us]? = some ('/' : UInt8)) : Clean space buf us (us + 1) :=
  forall_slice_succ h le_rfl forall_slice_self (CleanByte.mono (by decide))

theorem NoTail.within (ht : NoTail r) : Within i j r.uriExt ∧ Within i j r.argsStart := by
  rw [ht.1, ht.2]
  exact ⟨Within.none, Within.none⟩

/-- At the end of the URI. -/
theorem Open.close (h : Open buf p r) : ∃ us, Uri buf us p { r with uriEnd := some p } := h

/-- The spaces belong to the URI. -/
theorem Spaces.reopen (h : Spaces buf p r) : Open buf p { r with spaceInUri := true, state := .uri } := by
  obtain ⟨us, ue, hue, hlt, ⟨hus, hn, hh, hlt', hslash, hclean, he, ha⟩, hsp⟩ := h
  refine ⟨us, hus, hn, hh, by omega, hslash, ?_, he.mono (by omega), ha.mono (by omega)⟩
  intro c hc
  rw [slice_trans (Nat.le_of_lt hlt') (Nat.le_of_lt hlt)] at hc
  rcases mem_append.mp hc with hc | hc
  · obtain ⟨h1, h2, h3, -⟩ := hclean c hc
    exact ⟨h1, h2, h3, fun hf => by cases hf⟩
  · rw [hsp c hc]
    exact ⟨by decide, by decide, by decide, fun hf => by cases hf⟩

variable (hend : r.requestEnd = none) (hch : buf[p]? = some ch) {other : Move}

theorem expect_good {want : UInt8} {state : State} (h : ch = want → Inv buf (p + 1) { r with state := state }) :
    Good buf p (expect want state ch r) := by
  unfold expect
  split_ifs with hw
  · exact h hw
  · trivial

theorem closed_noPath (h : Schema buf p r) (hh : Host buf r) : Closed buf (p + 1) (noPath r) := by
  obtain ⟨ht, se, hse, hn, hslash, hlt⟩ := h
  exact ⟨se + 1, se + 2, by simp [noPath, hse], by omega, by simp [noPath, hse],
    hn.mono (by omega), hh, by omega, hslash, clean_slash hslash, ht.within⟩

theorem Schema.named (h : Schema buf p r) : Named p r := by
  obtain ⟨-, se, -, hn, -, hlt⟩ := h
  exact hn.mono (by omega)

/-- The host ends before the byte at `p`. -/
theorem HostOpen.close (h : HostOpen buf p r) : Host buf { r with hostEnd := some p } := by
  obtain ⟨hs, hhs, hle, hclean⟩ := h
  intro x hx
  obtain rfl := Option.mem_unique hhs hx
  exact ⟨p, rfl, hle, hclean⟩

include hch

/-- The first byte of the URI. -/
theorem open_slash (hslash : ch = '/') (hu : r.uriStart = some p) (hn : Named p r)
    (hh : Host buf r) (ht : NoTail r) : Open buf (p + 1) r := by
  subst hslash
  exact ⟨p, hu, hn, hh, by omega, hch, clean_slash hch, ht.within⟩

theorem Open.succ (h : Open buf p r) (hc : CleanByte false ch) : Open buf (p + 1) r := by
  obtain ⟨us, hus, hn, hh, hlt, hslash, hclean, he, ha⟩ := h
  exact ⟨us, hus, hn, hh, by omega, hslash, forall_slice_succ hch (by omega) hclean hc.mono,
    he.mono (by omega), ha.mono (by omega)⟩

theorem HostOpen.succ (h : HostOpen buf p r) (hc : CleanByte false ch) : HostOpen buf (p + 1) r := by
  obtain ⟨hs, hhs, hle, hclean⟩ := h
  exact ⟨hs, hhs, by omega, forall_slice_succ hch hle hclean hc⟩

/-- A pointer just behind the byte that is read lies within the URI. -/
theorem Open.within (h : Open buf p r) (hc : CleanByte false ch)
    {ext args : Option Nat} (he : ext = r.uriExt ∨ ext = none ∨ ext = some (p + 1))
    (ha : args = r.argsStart ∨ args = some (p + 1)) :
    Open buf (p + 1) { r with uriExt := ext, argsStart := args } := by
  obtain ⟨us, hus, hn, hh, hlt, hslash, hclean, hw, hw'⟩ := h.succ hch hc
  have hnew : Within us (p + 1) (some (p + 1)) := by
    intro x hx
    cases hx
    omega
  refine ⟨us, hus, hn, hh, hlt, hslash, hclean, ?_, ?_⟩
  · rcases he with rfl | rfl | rfl
    · exact hw
    · exact Within.none
    · exact hnew
  · rcases ha with rfl | rfl
    · exact hw'
    · exact hnew

theorem Spaces.succ (h : Spaces buf p r) (hsp : ch = ' ') : Spaces buf (p + 1) r := by
  obtain ⟨us, ue, hue, hlt, hu, hall⟩ := h
  exact ⟨us, ue, hue, by omega, hu, forall_slice_succ hch (Nat.le_of_lt hlt) hall hsp⟩

omit hch

include hend

/-- The byte is passed over, and the state stays. -/
theorem inv_of_state {st : State} (hs : r.state = st) (h : StateInv st buf p r) : Inv buf p r := ⟨hend, hs ▸ h⟩

/-- A line feed ends the line. -/
theorem done_of_closed (h : Closed buf (p + 1) r) : Done buf p r := by
  refine ⟨p, ?_, le_rfl, h⟩
  rw [hend]
  rfl

theorem swStart_good (hs : r.state = .start) (h : r.hostStart = none ∧ NoTail r) : Good buf p (swStart p ch r) := by
  unfold swStart
  split_ifs
  · exact inv_of_state hend hs h
  · exact ⟨hend, h.1, h.2, p, rfl, by omega⟩
  · trivial

theorem swMethod_good (hs : r.state = .method)
    (h : r.hostStart = none ∧ NoTail r ∧ ∃ rs, r.requestStart = some rs ∧ rs < p) :
    Good buf p (swMethod buf p ch r) := by
  obtain ⟨hh, ht, rs, hrs, hlt⟩ := h
  unfold swMethod
  split_ifs
  · exact ⟨hend, hh, ht, rs, p - 1, hrs, rfl, by omega, by omega⟩
  · exact inv_of_state hend hs ⟨hh, ht, rs, hrs, by omega⟩
  · trivial

theorem swSchema_good (hs : r.state = .schema) (h : r.hostStart = none ∧ NoTail r ∧ Named p r) :
    Good buf p (swSchema p ch r) := by
  obtain ⟨hh, ht, hn⟩ := h
  unfold swSchema
  split_ifs
  · exact inv_of_state hend hs ⟨hh, ht, hn.mono (by omega)⟩
  · exact ⟨hend, ht, p, rfl, hn, rfl⟩
  · trivial

theorem spacesAfterUri_good (h : Closed buf p r)
    (hspace : ch = ' ' → StateInv r.state buf (p + 1) r) (hother : Good buf p other) :
    Good buf p (spacesAfterUri other p ch r) := by
  unfold spacesAfterUri
  split_ifs with hsp
  · exact ⟨hend, hspace hsp⟩
  · exact ⟨hend, h.succ⟩
  · exact done_of_closed hend h.succ
  · exact ⟨hend, h.succ⟩
  · exact hother

include hch

/-- A byte that is not one of those that end the URI is clean. -/
theorem uriEnd_good {spaces : State} (h : Open buf p r)
    (hspaces : spaces = .checkUriHttp09 ∨ spaces = .http09)
    (hother : CleanByte false ch → Good buf p other) :
    Good buf p (uriEnd spaces other p ch r) := by
  obtain ⟨us, hu⟩ := h.close
  have hclosed : Closed buf (p + 1) { r with uriEnd := some p } := ⟨us, p, rfl, by omega, hu⟩
  unfold uriEnd
  split_ifs with hsp hcr hlf hnul
  · have hS : Spaces buf (p + 1) { r with uriEnd := some p } :=
      ⟨us, p, rfl, by omega, hu, forall_slice_succ hch le_rfl forall_slice_self hsp⟩
    refine ⟨hend, ?_⟩
    rcases hspaces with rfl | rfl <;> exact hS
  · exact ⟨hend, hclosed⟩
  · exact done_of_closed hend hclosed
  · trivial
  · exact hother ⟨hnul, hcr, hlf, fun _ => hsp⟩

theorem swSpacesBeforeUri_good (hs : r.state = .spacesBeforeUri)
    (h : r.hostStart = none ∧ NoTail r ∧ Named p r) : Good buf p (swSpacesBeforeUri p ch r) := by
  obtain ⟨hh, ht, hn⟩ := h
  unfold swSpacesBeforeUri
  split_ifs with hslash
  · refine ⟨hend, open_slash hch hslash rfl hn (fun x hx => ?_) ht⟩
    cases hh.symm.trans hx
  · exact ⟨hend, hh, ht, hn.mono (by omega)⟩
  · exact inv_of_state hend hs ⟨hh, ht, hn.mono (by omega)⟩
  · trivial

theorem swHostEnd_good (h : Schema buf p r ∧ HostOpen buf p r) : Good buf p (swHostEnd p ch r) := by
  obtain ⟨hsch, hopen⟩ := h
  unfold swHostEnd
  split_ifs with _ hslash
  · exact ⟨hend, hsch.succ, hopen.close⟩
  · exact ⟨hend, open_slash hch hslash rfl hsch.named hopen.close hsch.1⟩
  · exact ⟨hend, closed_noPath hsch hopen.close⟩
  · trivial

theorem swHost_good (hs : r.state = .host) (h : Schema buf p r ∧ HostOpen buf p r) : Good buf p (swHost p ch r) := by
  unfold swHost
  split_ifs with hb
  · exact inv_of_state hend hs ⟨h.1.succ, h.2.succ hch (clean_of_byte (.inr (.inl hb)))⟩
  · exact swHostEnd_good hend hch h

theorem swHostStart_good (h : Schema buf p r) : Good buf p (swHostStart p ch r) := by
  have hopen : HostOpen buf p { r with hostStart := some p } := ⟨p, rfl, le_rfl, forall_slice_self⟩
  unfold swHostStart
  split_ifs with hb
  · refine ⟨hend, h.succ, hopen.succ hch ?_⟩
    rw [hb]
    decide
  · exact swHost_good hend hch rfl ⟨h, hopen⟩

theorem swHostIpLiteral_good (hs : r.state = .hostIpLiteral)
    (h : Schema buf p r ∧ HostOpen buf p r) : Good buf p (swHostIpLiteral ch r) := by
  unfold swHostIpLiteral
  split_ifs with hb hb'
  · exact inv_of_state hend hs ⟨h.1.succ, h.2.succ hch (clean_of_byte (.inr (.inr hb)))⟩
  · refine ⟨hend, h.1.succ, h.2.succ hch ?_⟩
    rw [hb']
    decide
  · trivial

theorem swPort_good (hs : r.state = .port) (h : Schema buf p r ∧ Host buf r) : Good buf p (swPort p ch r) := by
  unfold swPort
  split_ifs with _ hslash
  · exact inv_of_state hend hs ⟨h.1.succ, h.2⟩
  · exact ⟨hend, open_slash hch hslash rfl h.1.named h.2 h.1.1⟩
  · exact ⟨hend, closed_noPath h.1 h.2⟩
  · trivial

theorem swAfterSlashInUri_good (hs : r.state = .afterSlashInUri) (h : Open buf p r) :
    Good buf p (swAfterSlashInUri p ch r) := by
  unfold swAfterSlashInUri
  split_ifs with hus
  · exact ⟨hend, h.succ hch (clean_of_byte (.inl hus))⟩
  refine uriEnd_good hend hch h (.inl rfl) fun hc => ?_
  have hnext := h.succ hch hc
  unfold afterSlashByte
  split_ifs
  · exact ⟨hend, hnext⟩
  · exact ⟨hend, hnext⟩
  · exact ⟨hend, hnext⟩
  · exact ⟨hend, h.within hch hc (.inl rfl) (.inr rfl)⟩
  · exact ⟨hend, hnext⟩
  · exact inv_of_state hend hs hnext
  · exact ⟨hend, hnext⟩

theorem swCheckUri_good (hs : r.state = .checkUri) (h : Open buf p r) : Good buf p (swCheckUri p ch r) := by
  unfold swCheckUri
  split_ifs with hus
  · exact inv_of_state hend hs (h.succ hch (clean_of_byte (.inl hus)))
  refine uriEnd_good hend hch h (.inl rfl) fun hc => ?_
  have hnext := h.succ hch hc
  unfold checkUriByte
  split_ifs
  · exact ⟨hend, h.within hch hc (.inr (.inl rfl)) (.inl rfl)⟩
  · exact inv_of_state hend hs (h.within hch hc (.inr (.inr rfl)) (.inl rfl))
  · exact ⟨hend, hnext⟩
  · exact ⟨hend, h.within hch hc (.inl rfl) (.inr rfl)⟩
  · exact ⟨hend, hnext⟩
  · exact inv_of_state hend hs hnext
  · exact inv_of_state hend hs hnext

theorem swUri_good (hs : r.state = .uri) (h : Open buf p r) : Good buf p (swUri p ch r) := by
  have stay : ∀ hash : Bool, CleanByte false ch → Inv buf (p + 1) { r with complexUri := hash } :=
    fun _ hc => inv_of_state hend hs (h.succ hch hc)
  unfold swUri
  split_ifs with hus hhash
  · exact stay _ (clean_of_byte (.inl hus))
  · exact uriEnd_good hend hch h (.inr rfl) (stay _)
  · exact uriEnd_good hend hch h (.inr rfl) (stay _)

theorem swCheckUriHttp09_good (hs : r.state = .checkUriHttp09) (h : Spaces buf p r) :
    Good buf p (swCheckUriHttp09 p ch r) := by
  refine spacesAfterUri_good hend h.closed ?_ (swCheckUri_good hend hch rfl h.reopen)
  rw [hs]
  exact h.succ hch

theorem swHttp09_good (hs : r.state = .http09) (h : Spaces buf p r) : Good buf p (swHttp09 p ch r) := by
  refine spacesAfterUri_good hend h.closed ?_ (swUri_good hend hch rfl h.reopen)
  rw [hs]
  exact h.succ hch

omit hend hch

theorem swAlmostDone_good (h : Closed buf p r) : Good buf p (swAlmostDone p ch r) := by
  unfold swAlmostDone
  split_ifs
  · obtain ⟨us, ue, hue, hlt, hu⟩ := h
    exact ⟨p - 1, rfl, by omega, us, ue, hue, by omega, hu⟩
  · trivial

def afterUri : State → Bool
  | .hostHttp09 | .httpH | .httpHT | .httpHTT | .httpHTTP | .firstMajorDigit | .majorDigit
  | .firstMinorDigit | .minorDigit | .spacesAfterDigit | .almostDone => true
  | _ => false

/-- Behind the URI nothing but the URI is claimed. -/
theorem step_good_after (hend : r.requestEnd = none) (hs : afterUri r.state) (h : Closed buf p r) :
    Good buf p (step buf p ch r) := by
  rw [step]
  cases hr : r.state <;> simp only [hr, afterUri, Bool.false_eq_true] at hs
  case almostDone => exact swAlmostDone_good h
  all_goals
    simp only [swHostHttp09, spacesAfterUri, expect, swFirstMajorDigit, swMajorDigit, swFirstMinorDigit, swMinorDigit,
      swSpacesAfterDigit]
    split_ifs <;> first | trivial | exact ⟨hend, h.succ⟩ | exact inv_of_state hend hr h.succ | exact done_of_closed hend h.succ

/-! ## §4 A step, and a line -/

theorem step_good (h : Inv buf p r) (hch : buf[p]? = some ch) : Good buf p (step buf p ch r) := by
  obtain ⟨hend, h⟩ := h
  by_cases hafter : afterUri r.state
  · refine step_good_after hend hafter ?_
    cases hs : r.state <;> rw [hs] at h hafter <;> first | exact h | cases hafter
  unfold step
  cases hs : r.state <;> rw [hs] at h hafter
  case start => exact swStart_good hend hs h
  case method => exact swMethod_good hend hs h
  case spacesBeforeUri => exact swSpacesBeforeUri_good hend hch hs h
  case schema => exact swSchema_good hend hs h
  case schemaSlash =>
      obtain ⟨ht, se, hse, hn, rfl⟩ := h
      refine expect_good fun hw => ⟨hend, ht, se, hse, hn, ?_, rfl⟩
      rw [hch, hw]
  case schemaSlashSlash =>
      obtain ⟨ht, se, hse, hn, hslash, rfl⟩ := h
      exact expect_good fun _ => ⟨hend, ht, se, hse, hn, hslash, by omega⟩
  case hostStart => exact swHostStart_good hend hch h
  case host => exact swHost_good hend hch hs h
  case hostEnd => exact swHostEnd_good hend hch h
  case hostIpLiteral => exact swHostIpLiteral_good hend hch hs h
  case port => exact swPort_good hend hch hs h
  case afterSlashInUri => exact swAfterSlashInUri_good hend hch hs h
  case checkUri => exact swCheckUri_good hend hch hs h
  case checkUriHttp09 => exact swCheckUriHttp09_good hend hch hs h
  case uri => exact swUri_good hend hch hs h
  case http09 => exact swHttp09_good hend hch hs h
  all_goals exact absurd rfl hafter

theorem inv_fresh (buf : Bytes) (p : Nat) : Inv buf p {} := ⟨rfl, rfl, rfl, rfl⟩

/-- A line is accepted at `done:` only. -/
theorem parse_ok (h : (parseRequestLine r buf pos).rc = .ok) :
    ∃ s q, parser.scan buf pos r (buf.drop pos) = .found .done s q ∧ parseRequestLine r buf pos = finish s q := by
  rw [parseRequestLine, Resumable.call] at h ⊢
  cases hscan : parser.scan buf pos r (buf.drop pos) with rw [hscan] at h
  | again s =>
    cases h
  | found e s q =>
    cases e with
    | done => exact ⟨s, q, rfl, rfl⟩
    | invalidMethod | invalidRequest => cases h

theorem scan_done {s : Request} (hI : Inv buf pos r)
    (h : parser.scan buf pos r (buf.drop pos) = .found .done s q) : Done buf q s := by
  have hO : Good buf q (.exit .done s) := by
    refine Resumable.scan_found (O := fun e s q => Good buf q (.exit e s)) ?_ ?_ rfl hI h
    · intro p a s s' ha hi hstep
      have := step_good hi ha
      rwa [show step buf p a s = .next s' from hstep] at this
    · intro p a s e s' ha hi hstep
      have := step_good hi ha
      rwa [show step buf p a s = .exit e s' from hstep] at this
  exact hO

end

/-- The pointers a line has recorded, and what lies between them. -/
structure LineClean (buf : Bytes) (r : Request) (pos rs me us ue re : Nat) : Prop where
  requestStart : r.requestStart = some rs
  methodEnd : r.methodEnd = some me
  uriStart : r.uriStart = some us
  uriEnd : r.uriEnd = some ue
  requestEnd : r.requestEnd = some re
  order : rs ≤ me ∧ me < us ∧ us < ue ∧ ue ≤ re ∧ re ≤ pos
  argsStart : ∀ a, r.argsStart = some a → us ≤ a ∧ a ≤ ue
  uriExt : ∀ e, r.uriExt = some e → us ≤ e ∧ e ≤ ue
  host : ∀ hs, r.hostStart = some hs → ∃ he, r.hostEnd = some he ∧ hs ≤ he ∧ ∀ ch ∈ slice buf hs he, CleanByte false ch
  slash : buf[us]? = some ('/' : UInt8)
  uri : ∀ ch ∈ slice buf us ue, CleanByte r.spaceInUri ch

theorem Done.clean {r : Request} (h : Done buf p r) :
    ∃ rs me us ue re, LineClean buf (finish r p).req (finish r p).pos rs me us ue re := by
  obtain ⟨re, hre, hle, us, ue, hue, hlt, hus, ⟨rs, me, hrs, hme, hrm, hmu⟩, hh, huu, hslash, hclean, hext, hargs⟩ := h
  exact ⟨rs, me, us, ue, re, hrs, hme, hus, hue, hre,
    ⟨hrm, hmu, huu, by omega, Nat.le_succ_of_le hle⟩, hargs, hext, hh, hslash, hclean⟩

end RequestLine

/-- A new request, whatever is in the buffer before the line and however the line
arrives. -/
theorem accepted_line_clean (buf : Bytes) (chunks : List Bytes) (h : (feedRequestLine {} buf chunks).rc = .ok) :
    ∃ rs me us ue re, RequestLine.LineClean (buf ++ chunks.flatten)
      (feedRequestLine {} buf chunks).req (feedRequestLine {} buf chunks).pos rs me us ue re := by
  have heq := feedRequestLine_ok h
  rw [heq] at h ⊢
  obtain ⟨s, q, hscan, hparse⟩ := RequestLine.parse_ok h
  rw [hparse]
  exact (RequestLine.scan_done (RequestLine.inv_fresh _ _) hscan).clean

/-- `GET http://h/a b?x HTTP/1.1`, in two chunks. -/
def getLine : List Bytes := [text ['G', 'E', 'T', ' ', 'h', 't', 't', 'p', ':', '/', '/', 'h', '/'],
    text ['a', ' ', 'b', '?', 'x', ' ', 'H', 'T', 'T', 'P', '/', '1', '.', '1', '\n']]

theorem accepted_line_clean_get : (feedRequestLine {} [LF] getLine).rc = .ok ∧
    ∃ rs me us ue re, RequestLine.LineClean ([LF] ++ getLine.flatten)
      (feedRequestLine {} [LF] getLine).req (feedRequestLine {} [LF] getLine).pos rs me us ue re :=
  ⟨by decide, accepted_line_clean [LF] getLine (by decide)⟩

end GokuStudio.Nginx
