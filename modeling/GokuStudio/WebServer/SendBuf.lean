import GokuStudio.WebServer.Http

/-!
# The buffer all answers go through (`send_http_data`)

`get_send_buf` is allocated at the first request, with room for the longest
file, and never freed. An answer overwrites what stands behind the 200 header;
its length is found again by `strlen`. The header survives every answer, and
the rest is cleared before it is used, so nothing of an earlier answer is sent.
-/

namespace GokuStudio.WebServer

open Lib List Option

/-- What `analysis_http_data` hands on: the buffer, and a path inside it. -/
structure GetReq where
  buf : Bytes
  filePathLen : Nat
  inBuf : 4 + filePathLen ≤ buf.length

def GetReq.path (r : GetReq) : Bytes := (r.buf.drop 4).take r.filePathLen

section
variable (files : List SrcFile)

/-- `max_file_size`: the longest file `scan_src_file_cb` has seen. -/
def maxFileSize : Nat := (files.map (·.fData.length)).max?.getD 0

def maxGetSendLen : Nat := httpRsp200Def.length + 30 + maxFileSize files

/-- `get_send_buf` as it is allocated. -/
def firstBuf : Bytes := pwrite (List.replicate (maxGetSendLen files) 0) 0 httpRsp200Def

/-- The `GET` branch of `send_http_data`: what `writen` is given, and
`get_send_buf` afterwards. The length is an `int`; a negative one becomes a
count far behind the buffer. -/
def sendGet (getSendBuf : Option Bytes) (r : GetReq) : Option Bytes × Bytes :=
  let b := getSendBuf.getD (firstBuf files)
  match findSrc files r.buf r.filePathLen with
  | some f =>
    let b := pwrite b httpRsp200Def.length (List.replicate (maxGetSendLen files - httpRsp200Def.length) 0)
    let b := pwrite b httpRsp200Def.length (dec f.fData.length ++ ascii "\r\n\r\n" ++ [0])
    let extLen := (b.takeWhile (· != 0)).length
    let b := pwrite b extLen f.fData
    let sendLen := (extLen + f.fData.length) % 2 ^ 32
    (if sendLen < 2 ^ 31 then some (b.take sendLen) else none, b)
  | none => (some httpRsp404Def, b)

/-- `get_send_buf` after these requests. -/
def sendAll (rs : List GetReq) : Option Bytes := rs.foldl (fun b r => some (sendGet files b r).2) none

/-- What should be sent: the first entry with this path, or 404. -/
def answerTo (path : Bytes) : Bytes := ((files.find? (·.fPath == path)).map rsp200).getD httpRsp404Def

/-- Paths are C strings, and a size is an `off_t`. -/
def Stored : Prop := ∀ f ∈ files, 0 ∉ f.fPath ∧ f.fData.length < 2 ^ 63

/-- A buffer between two requests: the header, and room for any answer. -/
def Room (b : Bytes) : Prop := ∃ t : Bytes, b = httpRsp200Def ++ t ∧ t.length = 30 + maxFileSize files

end

variable {files : List SrcFile} {f : SrcFile} {a p t : Bytes} {r : GetReq} {b : Option Bytes}

theorem Room.length {b : Bytes} (h : Room files b) : b.length = maxGetSendLen files := by
  obtain ⟨t, rfl, ht⟩ := h
  rw [length_append, ht, maxGetSendLen, Nat.add_assoc]

/-- A stored path has no NUL, so the comparison does not stop before its end. -/
theorem strncmpEq_iff (hp : 0 ∉ p) : strncmpEq p.length a p = true ↔ a.take p.length = p := by
  induction p generalizing a with
  | nil => simp [strncmpEq]
  | cons c p ih =>
    rw [mem_cons, not_or] at hp
    cases a with
    | nil => simp [strncmpEq, hp.1]
    | cons x a =>
      by_cases hx : x = c
      · simp [strncmpEq, hx, Ne.symm hp.1, ih hp.2]
      · simp [strncmpEq, hx]

theorem pwrite_behind (h : p.length ≤ t.length) : pwrite (a ++ t) a.length p = a ++ (p ++ t.drop p.length) := by
  rw [← pwrite_mid (b := t.take p.length) (length_take_of_le h).symm, take_append_drop]

theorem room_firstBuf (files : List SrcFile) : Room files (firstBuf files) := by
  refine ⟨replicate (30 + maxFileSize files) 0, ?_, length_replicate⟩
  rw [firstBuf, pwrite_eq (Nat.zero_le _), maxGetSendLen, Nat.add_assoc]
  simp

theorem sendGet_missing (hfind : findSrc files r.buf r.filePathLen = none) :
    sendGet files b r = (some httpRsp404Def, b.getD (firstBuf files)) := by
  simp only [sendGet, hfind]

variable (hfiles : Stored files)
include hfiles

theorem findSrc_eq (r : GetReq) : findSrc files r.buf r.filePathLen = files.find? (·.fPath == r.path) := by
  have hlen : r.path.length = r.filePathLen := by
    have := r.inBuf
    rw [GetReq.path, length_take, length_drop]
    omega
  have hsame : ∀ f ∈ files, (r.filePathLen == f.fPath.length &&
      strncmpEq f.fPath.length (r.buf.drop 4) f.fPath) = (f.fPath == r.path) := by
    intro f hf
    rw [Bool.eq_iff_iff, Bool.and_eq_true, beq_iff_eq, beq_iff_eq, strncmpEq_iff (hfiles f hf).1]
    constructor
    · rintro ⟨hn, htake⟩
      rw [GetReq.path, hn, htake]
    · intro h
      have hn : r.filePathLen = f.fPath.length := by rw [h, hlen]
      exact ⟨hn, by rw [← hn]; exact h.symm⟩
  rw [findSrc, ← head?_filter, ← head?_filter, filter_congr hsame]

/-- One answer from a file: the header stays, and what follows it is this file's
size, the file, and the rest of the room. -/
theorem sendGet_file (hfind : findSrc files r.buf r.filePathLen = some f)
    (hb : Room files (b.getD (firstBuf files))) :
    ∃ t, sendGet files b r = (if (rsp200 f).length % 2 ^ 32 < 2 ^ 31
        then some ((rsp200 f ++ t).take ((rsp200 f).length % 2 ^ 32)) else none, rsp200 f ++ t) ∧
      (rsp200 f ++ t).length = maxGetSendLen files := by
  obtain ⟨t, hbt, ht⟩ := hb
  have hf : f ∈ files := mem_of_find?_eq_some hfind
  have hmax : f.fData.length ≤ maxFileSize files := le_max?_getD_of_mem (mem_map_of_mem hf)
  obtain ⟨x, hx⟩ : ∃ x, x = dec f.fData.length ++ ascii "\r\n\r\n" := ⟨_, rfl⟩
  have hxlen : x.length ≤ 23 := by
    have := length_dec_le (k := 19) (by omega) (lt_trans (hfiles f hf).2 (by decide))
    rw [hx, length_append]
    change _ + 4 ≤ 23
    omega
  have hx0 : ∀ c ∈ httpRsp200Def ++ x, (c != 0) = true := by
    intro c hc
    rw [bne_iff_ne]
    rintro rfl
    rw [hx, mem_append, mem_append] at hc
    rcases hc with hc | hc | hc
    · exact absurd hc (by decide +kernel)
    · exact notMem_dec (by decide) hc
    · exact absurd hc (by decide)
  have hroom : maxGetSendLen files - httpRsp200Def.length = t.length := by
    rw [ht, maxGetSendLen]
    omega
  have hrsp : rsp200 f = httpRsp200Def ++ x ++ f.fData := by
    rw [rsp200, hx, append_assoc httpRsp200Def]
  -- clearing, printing, and the length found by `strlen`
  have h1 : pwrite (httpRsp200Def ++ t) httpRsp200Def.length (replicate t.length 0) =
      httpRsp200Def ++ replicate t.length 0 := by
    rw [pwrite_behind (by simp)]
    simp
  have h2 : pwrite (httpRsp200Def ++ replicate t.length 0) httpRsp200Def.length (x ++ [0]) =
      httpRsp200Def ++ x ++ 0 :: replicate (t.length - (x.length + 1)) 0 := by
    rw [pwrite_behind (by simp; omega)]
    simp
  have h3 : (httpRsp200Def ++ x ++ 0 :: replicate (t.length - (x.length + 1)) 0).takeWhile (· != 0) =
      httpRsp200Def ++ x := by
    rw [takeWhile_append_of_pos hx0]
    simp
  refine ⟨(0 :: replicate (t.length - (x.length + 1)) 0).drop f.fData.length, ?_, ?_⟩
  · simp only [sendGet, hfind, hbt, hroom, ← hx, h1, h2, h3]
    rw [pwrite_behind (by simp; omega), ← append_assoc, ← hrsp, hrsp, @length_append _ (httpRsp200Def ++ x)]
  · rw [hrsp, maxGetSendLen]
    simp
    omega

theorem room_sendGet (hb : Room files (b.getD (firstBuf files))) : Room files (sendGet files b r).2 := by
  cases hfind : findSrc files r.buf r.filePathLen with
  | none => rwa [sendGet_missing hfind]
  | some f =>
    obtain ⟨t, hout, hlen⟩ := sendGet_file hfiles hfind hb
    rw [hout]
    rw [rsp200, append_assoc httpRsp200Def, append_assoc httpRsp200Def, append_assoc httpRsp200Def,
      length_append, maxGetSendLen, Nat.add_assoc] at *
    exact ⟨_, rfl, by omega⟩

theorem room_sendAll (rs : List GetReq) : Room files ((sendAll files rs).getD (firstBuf files)) :=
  foldlRecOn (motive := fun b : Option Bytes => Room files (b.getD (firstBuf files))) rs _ (room_firstBuf files)
    fun _ hb _ _ => room_sendGet hfiles hb

omit hfiles

/-- Whatever was sent before, the answer is the right one exactly if its length
is an `int`. The buffer is as long as it was allocated: a write behind its end
would have made it longer. -/
theorem answer_iff (hfiles : Stored files) (rs : List GetReq) (r : GetReq) :
    ((sendGet files (sendAll files rs) r).1 = some (answerTo files r.path) ↔
      ∀ f, files.find? (·.fPath == r.path) = some f → (rsp200 f).length < 2 ^ 31) ∧
    (sendGet files (sendAll files rs) r).2.length = maxGetSendLen files := by
  have hroom := room_sendAll hfiles rs
  refine ⟨?_, (room_sendGet hfiles hroom).length⟩
  rw [answerTo, ← findSrc_eq hfiles]
  cases hfind : findSrc files r.buf r.filePathLen with
  | none => simp [sendGet_missing hfind]
  | some f =>
    obtain ⟨t, hout, -⟩ := sendGet_file hfiles hfind hroom
    simp only [hout, map_some, getD_some, some.injEq, forall_eq']
    constructor
    · intro h
      split at h
      · -- a shorter piece is not the answer
        have := congrArg length (some.inj h)
        rw [length_take, length_append] at this
        omega
      · simp at h
    · intro hlt
      rw [Nat.mod_eq_of_lt (by omega), if_pos hlt, take_left]

/-- `GET / `. -/
def getRoot : GetReq := ⟨ascii "GET / HTTP/1.1", 1, by decide⟩

/-- A page of this size at `/`. -/
def page (n : Nat) : SrcFile := ⟨ascii "/", replicate n 0⟩

theorem stored_page {n : Nat} (hn : n < 2 ^ 63) : Stored [page n] := by
  rw [Stored, forall_mem_singleton, page, length_replicate]
  exact ⟨(by decide : 0 ∉ ascii "/"), hn⟩

theorem answer_iff_page : Stored [page 5] ∧
    (sendGet [page 5] (sendAll [page 5] [getRoot]) getRoot).2.length = maxGetSendLen [page 5] :=
  ⟨stored_page (by decide), (answer_iff (stored_page (by decide)) [getRoot] getRoot).2⟩

/-- A file of 2 GiB: the count is negative. -/
theorem long_file_not_sent : Stored [page (2 ^ 31)] ∧ (sendGet [page (2 ^ 31)] none getRoot).1 = none := by
  obtain ⟨n, hn⟩ : ∃ n, n = 2 ^ 31 := ⟨_, rfl⟩
  rw [← hn]
  have hfiles : Stored [page n] := stored_page (by omega)
  obtain ⟨t, hout, -⟩ := @sendGet_file _ (page n) getRoot none hfiles rfl (room_firstBuf _)
  have h4 : (ascii "\r\n\r\n").length = 4 := rfl
  have hlen : (rsp200 (page n)).length = httpRsp200Def.length + (dec n).length + 4 + n := by
    simp only [rsp200, page, length_append, h4, length_replicate]
  have hhdr : httpRsp200Def.length < 200 := by decide +kernel
  have hdec := @length_dec_le n 10 (by omega) (by omega)
  exact ⟨hfiles, by rw [hout, if_neg (by omega)]⟩

end GokuStudio.WebServer
