import Mathlib.Algebra.Order.Group.Unbundled.Int
import Mathlib.Data.List.Basic

/-!
# Passing a descriptor (`send_fd`, `send_err`, `recv_fd`)

An error message goes over the stream pipe as it is; then come a null byte and a
status. Status zero says that a descriptor comes along, any other status is the
error code. `recv_fd` looks for the null byte in whatever `recvmsg` returns and
takes it for an error in the format if the status is not right behind it. Where
the two come together the message and the status arrive (`recv_fd_whole`), with
one byte for the code. Writes that fail are not modelled.
-/

namespace GokuStudio.Apue.FdPass

open List

/-! ## §1 The code -/

/-- A byte on the pipe and the descriptor that is attached to it. -/
structure Item where
  byte : UInt8
  rights : Option Int
deriving DecidableEq, Repr

def plain (byte : UInt8) : Item := ⟨byte, none⟩

def sendFd (fdToSend : Int) : List Item :=
  if fdToSend < 0 then
    let status := UInt8.ofNat fdToSend.natAbs
    [plain 0, plain (if status = 0 then 1 else status)]
  else [⟨0, some fdToSend⟩, plain 0]

def sendErr (errcode : Int) (msg : List UInt8) : List Item :=
  msg.map plain ++ sendFd (if errcode ≥ 0 then -1 else errcode)

inductive Outcome where
  | returned (n : Int)
  | dumped (text : String)
deriving DecidableEq, Repr

/-- Behind the null byte: what `newfd` is set to. -/
def trailer (control : Option Int) : List UInt8 → Except String (Option Int)
  | [status] =>
    if status = 0 then
      match control with
      | none => .error "status = 0 but no fd"
      | some fd => .ok (some fd)
    else .ok (some (-status.toNat))
  | _ => .error "message format error"

/-- The loop over the buffer. When it has found the null byte it is past the end, for `nr` has
gone down by two. -/
def scan (control : Option Int) : List UInt8 → Except String (Option Int)
  | [] => .ok none
  | b :: rest => if b = 0 then trailer control rest else scan control rest

/-- With what `recvmsg` returns, call after call; no bytes and the end of the list are a closed
connection. The second result are the calls of `userfunc`. -/
def recvFd (userfunc : List UInt8 → Int) : List (List Item) → Outcome × List (List UInt8)
  | [] => (.returned (-1), [])
  | items :: more =>
    if items = [] then (.returned (-1), [])
    else
      let buf := items.map Item.byte
      match scan (items.findSome? Item.rights) buf with
      | .error text => (.dumped text, [])
      | .ok found =>
        let data := if found = none then buf else buf.take (buf.length - 2)
        let calls := if data = [] then [] else [data]
        if data ≠ [] ∧ userfunc data ≠ data.length then (.returned (-1), calls)
        else match found with
          | some newfd => (.returned newfd, calls)
          | none => ((recvFd userfunc more).1, calls ++ (recvFd userfunc more).2)

/-- `MAXLINE`, the size of the buffer. -/
def maxline : Nat := 4096

/-- The ways in which the pipe may split what was sent. -/
def Splits (sent : List Item) (chunks : List (List Item)) : Prop :=
  (∀ c ∈ chunks, c ≠ [] ∧ c.length ≤ maxline) ∧ chunks.flatten = sent

/-- The two last bytes come together. -/
def Whole (chunks : List (List Item)) : Prop := ∀ c, chunks.getLast? = some c → 2 ≤ c.length

/-! ## §2 Every way to split -/

variable {userfunc : List UInt8 → Int} {msg : List UInt8} {chunks : List (List Item)} {control rights : Option Int}
  {status : UInt8}

theorem scan_append (hmsg : 0 ∉ msg) (rest : List UInt8) : scan control (msg ++ rest) = scan control rest := by
  induction msg with
  | nil => rfl
  | cons b msg ih =>
    obtain ⟨hb, hmsg⟩ := not_or.mp (mt mem_cons.mpr hmsg)
    rw [cons_append, scan, if_neg (Ne.symm hb), ih hmsg]

theorem bytes_plain (msg : List UInt8) : (msg.map plain).map Item.byte = msg := by
  rw [map_map]
  exact map_id msg

theorem rights_plain (msg : List UInt8) (items : List Item) :
    (msg.map plain ++ items).findSome? Item.rights = items.findSome? Item.rights := by
  rw [findSome?_append, findSome?_map]
  induction msg with
  | nil => rfl
  | cons b msg ih => exact ih

theorem Whole.tail {c : List Item} (hwhole : Whole (c :: chunks)) (hne : chunks ≠ []) : Whole chunks := by
  obtain ⟨d, ds, rfl⟩ := exists_cons_of_ne_nil hne
  exact hwhole

section Chunks
variable {newfd : Int} (huser : ∀ data, userfunc data = data.length) (hmsg : 0 ∉ msg)
include huser hmsg

/-- A chunk of the message. -/
theorem recvFd_data (hne : msg ≠ []) (more : List (List Item)) :
    recvFd userfunc (msg.map plain :: more) = ((recvFd userfunc more).1, msg :: (recvFd userfunc more).2) := by
  have hscan := @scan_append msg ((msg.map plain).findSome? Item.rights) hmsg []
  rw [append_nil] at hscan
  simp only [recvFd, bytes_plain, hscan, scan]
  simp [hne, huser]

variable (hfound : trailer rights [status] = .ok (some newfd))
include hfound

/-- The end of the message with the null byte and the status. -/
theorem recvFd_last (more : List (List Item)) :
    recvFd userfunc ((msg.map plain ++ [⟨0, rights⟩, plain status]) :: more) =
      (.returned newfd, if msg = [] then [] else [msg]) := by
  have hrights : (msg.map plain ++ [⟨0, rights⟩, plain status]).findSome? Item.rights = rights := by
    rw [rights_plain]
    cases rights <;> rfl
  have hbuf : (msg.map plain ++ [⟨0, rights⟩, plain status]).map Item.byte = msg ++ [0, status] := by
    rw [map_append, bytes_plain]
    rfl
  have hscan : scan rights (msg ++ [0, status]) = .ok (some newfd) := (scan_append hmsg _).trans hfound
  simp [recvFd, hrights, hbuf, hscan, huser]

/-- Where the chunks end does not matter. -/
theorem recvFd_split (hsplit : Splits (msg.map plain ++ [⟨0, rights⟩, plain status]) chunks)
    (hwhole : Whole chunks) :
    (recvFd userfunc chunks).2.flatten = msg ∧ (recvFd userfunc chunks).1 = .returned newfd := by
  induction chunks generalizing msg with
  | nil =>
    have hnil := hsplit.2
    simp at hnil
  | cons c cs ih =>
    obtain ⟨hchunks, heq⟩ := hsplit
    obtain ⟨⟨hc, -⟩, hcs⟩ := forall_mem_cons.mp hchunks
    -- a chunk that ends in the message, or right behind it
    have hdata : ∀ l₁ l₂, l₁.map plain = c → msg = l₁ ++ l₂ →
        cs.flatten = l₂.map plain ++ [⟨0, rights⟩, plain status] →
        (recvFd userfunc (c :: cs)).2.flatten = msg ∧ (recvFd userfunc (c :: cs)).1 = .returned newfd := by
      rintro l₁ l₂ rfl rfl hrest
      obtain ⟨hmsg₁, hmsg₂⟩ := not_or.mp (mt mem_append.mpr hmsg)
      have hne : cs ≠ [] := by
        rintro rfl
        simp at hrest
      rw [recvFd_data huser hmsg₁ (mt (congrArg (map plain)) hc), flatten_cons, append_right_inj]
      exact ih hmsg₂ ⟨hcs, hrest⟩ (hwhole.tail hne)
    rw [flatten_cons, append_eq_append_iff] at heq
    rcases heq with ⟨as, hin, hrest⟩ | ⟨bs, rfl, hrest⟩
    · obtain ⟨l₁, l₂, hl, hl₁, rfl⟩ := map_eq_append_iff.mp hin
      exact hdata l₁ l₂ hl₁ hl hrest
    rcases bs with _ | ⟨b₁, _ | ⟨b₂, bs⟩⟩
    · exact hdata msg [] (append_nil _).symm (append_nil msg).symm hrest.symm
    · -- the status alone would be the last chunk
      obtain ⟨-, hrest⟩ := cons_eq_cons.mp hrest
      obtain ⟨ds, d, rfl⟩ := (eq_nil_or_concat' cs).resolve_left (by rintro rfl; cases hrest)
      have hlen := congrArg length hrest
      have htwo := hwhole.tail (by simp) d getLast?_concat
      simp at hlen
      omega
    · obtain ⟨rfl, rfl, rfl, hnil⟩ : b₁ = ⟨0, rights⟩ ∧ b₂ = plain status ∧ bs = [] ∧ cs.flatten = [] := by
        simpa only [cons_append, cons.injEq, nil_eq, append_eq_nil_iff, eq_comm] using hrest
      obtain rfl : cs = [] := eq_nil_iff_forall_not_mem.mpr fun d hd => (hcs d hd).1 (flatten_eq_nil_iff.mp hnil d hd)
      rw [recvFd_last huser hmsg hfound]
      refine ⟨?_, rfl⟩
      by_cases hnone : msg = [] <;> simp [hnone]

end Chunks

/-- What arrives of an error code. -/
def errorSeen (errcode : Int) : Int :=
  if errcode ≥ 0 ∨ 256 ∣ errcode then -1 else -(errcode.natAbs % 256)

theorem sendFd_neg {errcode : Int} (hneg : errcode < 0) : ∃ status : UInt8, sendFd errcode = [plain 0, plain status] ∧
      trailer none [status] = .ok (some (errorSeen errcode)) := by
  have hval : (UInt8.ofNat errcode.natAbs).toNat = errcode.natAbs % 256 := UInt8.toNat_ofNat'
  rw [sendFd, if_pos hneg, errorSeen]
  refine ⟨_, rfl, ?_⟩
  by_cases hzero : UInt8.ofNat errcode.natAbs = 0
  · rw [hzero, UInt8.toNat_zero] at hval
    rw [if_pos hzero, if_pos (by omega)]
    rfl
  · have hmod : errcode.natAbs % 256 ≠ 0 := fun h => hzero (UInt8.toNat_inj.mp (hval.trans h))
    rw [if_neg hzero, if_neg (by omega), trailer, if_neg hzero, hval]
    rfl

/-- The message arrives, and behind it the code or the descriptor. -/
theorem recv_fd_whole (huser : ∀ data, userfunc data = data.length) (hmsg : 0 ∉ msg) (hwhole : Whole chunks) :
    (∀ errcode, Splits (sendErr errcode msg) chunks →
      (recvFd userfunc chunks).2.flatten = msg ∧ (recvFd userfunc chunks).1 = .returned (errorSeen errcode)) ∧
    ∀ fd, 0 ≤ fd → Splits (msg.map plain ++ sendFd fd) chunks →
      (recvFd userfunc chunks).2.flatten = msg ∧ (recvFd userfunc chunks).1 = .returned fd := by
  refine ⟨fun errcode hsplit => ?_, fun fd hfd hsplit => ?_⟩
  · obtain ⟨status, hsend, hfound⟩ := @sendFd_neg (if errcode ≥ 0 then -1 else errcode) (by split <;> omega)
    rw [sendErr, hsend] at hsplit
    have hseen : errorSeen (if errcode ≥ 0 then -1 else errcode) = errorSeen errcode := by
      split
      case isTrue hpos => exact (if_pos (.inl hpos)).symm
      case isFalse => rfl
    exact recvFd_split huser hmsg (hseen ▸ hfound) hsplit hwhole
  · rw [sendFd, if_neg (not_lt.mpr hfd)] at hsplit
    exact recvFd_split huser hmsg rfl hsplit hwhole

theorem recv_fd_whole_two :
    (recvFd (fun data => data.length) [[plain 104], [plain 105, plain 0, plain 2]]).1 = .returned (-2) := by
  have hsplit : Splits (sendErr (-2) [104, 105]) [[plain 104], [plain 105, plain 0, plain 2]] := ⟨by decide, rfl⟩
  refine ((recv_fd_whole (fun _ => rfl) (by decide) fun c hc => ?_).1 (-2) hsplit).2
  obtain rfl := Option.some.inj hc
  decide

/-- The code `-256` arrives as `-1`; the null byte and the status come apart; `userfunc` fails. -/
theorem recv_fd_fails : recvFd (fun data => data.length) [sendErr (-256) []] = (.returned (-1), []) ∧
    sendErr (-2) [] = [plain 0, plain 2] ∧
    recvFd (fun data => data.length) [[plain 0], [plain 2]] = (.dumped "message format error", []) ∧
    recvFd (fun _ => 0) [sendErr (-2) [104]] = (.returned (-1), [[104]]) := by
  decide

end GokuStudio.Apue.FdPass
