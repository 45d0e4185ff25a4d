import GokuStudio.Lib.Prog
import GokuStudio.Lib.Files
import GokuStudio.Lib.Decimal

/-!
# The database library `apue/db/db.c`

Two files hold a database. The index file starts with the free-list pointer
and `NHASH_DEF` hash-chain pointers, each `PTR_SZ` ASCII characters, and a
newline; index records follow. An index record is a chain pointer, the length
of what follows, and `key:datoff:datlen\n`; the data file holds the data, each
record followed by a newline.

The functions below are those of `db.c`, on the handle `DB` (the library's
`DB` structure) and the two shared files. One step of a `Prog` is one
`lseek`+`read` or `lseek`+`write` of one record or pointer field, or one
`fcntl` lock or unlock. What the model leaves out of `DB`: the descriptors and
the file name, the statistics counters (nothing reads them), and `nhash` and
`hashoff`, which `db_open` sets to `NHASH_DEF` and `HASH_OFF` once and for
all. The kernel's file position of the index file is kept as `idxpos`, for
`_db_readidx` may read from there. Writes are complete: a full disk is not
modelled.
-/

namespace GokuStudio.Apue.Db

open Lib

/-! ## Constants -/

def idxlenSz : Nat := 4
def sep : UInt8 := 58
def space : UInt8 := 32
def newline : UInt8 := 10

def ptrSz : Nat := 6
def ptrMax : Nat := 999999
def nhashDef : Nat := 137
def freeOff : Nat := 0
def hashOff : Nat := ptrSz

def idxlenMin : Nat := 6
def idxlenMax : Nat := 1024
def datlenMin : Nat := 2
def datlenMax : Nat := 1024

def flagInsert : Int := 1
def flagReplace : Int := 2
def flagStore : Int := 3

/-- What `db_store` refuses at once: a flag it does not know, data too short or too long. -/
abbrev BadFlag (flag : Int) : Prop := flag ≠ flagInsert ∧ flag ≠ flagReplace ∧ flag ≠ flagStore

abbrev BadDat (data : Bytes) : Prop := data.length + 1 < datlenMin ∨ datlenMax < data.length + 1

/-- What `_db_writeidx` refuses -/
abbrev BadLen (text : Bytes) : Prop := text.length < idxlenMin ∨ idxlenMax < text.length

/-- A C string has no NUL in it. -/
abbrev NoNul (b : Bytes) : Prop := (0 : UInt8) ∉ b

/-- Where the index records start: past the table and its newline. -/
def recOff : Nat := (nhashDef + 1) * ptrSz + 1

/-! ## Files, locks and the handle -/

inductive File where
  | idx
  | dat
deriving DecidableEq, Repr

inductive LockKind where
  | rd
  | wr
deriving DecidableEq, Repr

/-- An `fcntl` record lock; `len = 0` reaches to the end of the file and past
it, as in `struct flock`. -/
structure Lock where
  pid : Nat
  file : File
  kind : LockKind
  start : Nat
  len : Nat
deriving DecidableEq, Repr

def Lock.meets (a b : Lock) : Bool := (a.len == 0 || decide (b.start < a.start + a.len)) &&
  (b.len == 0 || decide (a.start < b.start + b.len))

/-- Two locks that cannot be held at the same time. -/
def Lock.conflicts (a b : Lock) : Bool :=
  a.pid != b.pid && a.file == b.file && a.meets b && (a.kind == .wr || b.kind == .wr)

/-- `b` lies inside the region of `a`, and belongs to the same process. -/
def Lock.covers (a b : Lock) : Bool := a.pid == b.pid && a.file == b.file && decide (a.start ≤ b.start) &&
  (a.len == 0 || (b.len != 0 && decide (b.start + b.len ≤ a.start + a.len)))

/-- What the processes share. -/
structure Disk where
  idx : Bytes
  dat : Bytes
  locks : List Lock
deriving DecidableEq, Repr

def Disk.file (d : Disk) : File → Bytes
  | .idx => d.idx
  | .dat => d.dat

def Disk.setFile (d : Disk) : File → Bytes → Disk
  | .idx, b => { d with idx := b }
  | .dat, b => { d with dat := b }

def Disk.addLock (d : Disk) (l : Lock) : Disk :=
  { d with locks := l :: d.locks.filter (fun l' => !l.covers l') }

def Disk.dropLock (d : Disk) (l : Lock) : Disk :=
  { d with locks := d.locks.filter (fun l' => !l.covers l') }

/-- The process is gone: the kernel drops its locks. -/
def Disk.exit (d : Disk) (pid : Nat) : Disk :=
  { d with locks := d.locks.filter (fun l => l.pid != pid) }

/-- The ways a call ends the process: `err_dump`, `err_quit`, or a chain walk
that would never come to an end. -/
inductive Err where
  | dump (msg : String)
  | quit (msg : String) (arg : Int)
  | loops
deriving DecidableEq, Repr

abbrev DbM := Prog Disk Err

/-- The library's private representation of an open database. The buffers are
kept as the C strings they hold. -/
structure DB where
  idxbuf : Bytes
  datbuf : Bytes
  idxoff : Int
  idxlen : Nat
  datoff : Int
  datlen : Nat
  ptrval : Int
  ptroff : Int
  chainoff : Nat
  idxpos : Int
deriving DecidableEq, Repr

/-- A fresh handle, as `calloc` leaves it. -/
def dbAlloc : DB :=
  { idxbuf := [], datbuf := [], idxoff := 0, idxlen := 0, datoff := 0, datlen := 0,
    ptrval := 0, ptroff := 0, chainoff := 0, idxpos := 0 }

/-! ## System calls -/

inductive Whence where
  | seekSet
  | seekEnd
deriving DecidableEq, Repr

/-- Does nothing stand in the way of this lock? -/
def Disk.grants (d : Disk) (l : Lock) : Bool := d.locks.all (fun l' => !l.conflicts l')

section
variable (pid : Nat) (f : File) (start len : Nat)

def writewLock : DbM Unit :=
  .await (fun d => d.grants ⟨pid, f, .wr, start, len⟩) (fun d => d.addLock ⟨pid, f, .wr, start, len⟩)

def readwLock : DbM Unit :=
  .await (fun d => d.grants ⟨pid, f, .rd, start, len⟩) (fun d => d.addLock ⟨pid, f, .rd, start, len⟩)

def unLock : DbM Unit := .update (fun d => d.dropLock ⟨pid, f, .wr, start, len⟩) (fun _ => ())

end

/-- `lseek` and `read`; no bytes at all when the offset is negative. -/
def lseekRead (f : File) (off : Int) (n : Nat) : DbM (Option Bytes) :=
  .look fun d => if off < 0 then none else some (pread (d.file f) off.toNat n)

def sizeT (n : Int) : Nat := (n % 2 ^ 64).toNat

/-- `lseek` and the two reads of one index record: the pointer and length
fields at its front, then as many bytes as the length field says. -/
def lseekReadRec (off : Int) : DbM (Option (Bytes × Bytes)) := .look fun d =>
    if off < 0 then none
    else
      let front := pread d.idx off.toNat (ptrSz + idxlenSz)
      let n := sizeT (atol (front.drop ptrSz))
      some (front, pread d.idx (off.toNat + (ptrSz + idxlenSz)) n)

def seekPos (d : Disk) (f : File) (off : Int) : Whence → Int
  | .seekSet => off
  | .seekEnd => (d.file f).length + off

/-- `lseek` and `writev`; the result is the offset `lseek` found. -/
def lseekWrite (f : File) (off : Int) (whence : Whence) (b : Bytes) : DbM (Option Int) := .update
    (fun d =>
      let pos := seekPos d f off whence
      if pos < 0 then d else d.setFile f (pwrite (d.file f) pos.toNat b))
    (fun d =>
      let pos := seekPos d f off whence
      if pos < 0 then none else some pos)

/-! ## Strings -/

/-- The C string at the start of a buffer. -/
def cstr (b : Bytes) : Bytes := b.takeWhile (· ≠ 0)

/-- `strchr`, with the character found overwritten by a null byte: the string
before it and the string after it. -/
def strchr (s : Bytes) (c : UInt8) : Option (Bytes × Bytes) :=
  match s.dropWhile (· ≠ c) with
  | [] => none
  | _ :: t => some (s.takeWhile (· ≠ c), t)

/-! ## Records and pointers -/

/-- `_db_hash`. `char` is signed, the product is an `int`, and the sum wraps
around at the size of `DBHASH`. -/
def dbHashFrom : Nat → Nat → Bytes → Nat
  | hval, _, [] => hval
  | hval, i, c :: key =>
    dbHashFrom (((hval : Int) + c.toInt8.toInt * i) % 2 ^ 64).toNat (i + 1) key

def dbHash (key : Bytes) : Nat := dbHashFrom 0 1 key % nhashDef

section
variable (pid : Nat) (db : DB) (key data : Bytes) (offset : Int) (whence : Whence)

def dbReadptr : DbM (DB × Int) := do
  match ← lseekRead .idx offset ptrSz with
  | none => .stop (.dump "_db_readptr: lseek error to ptr field")
  | some asciiptr =>
    if asciiptr.length ≠ ptrSz then .stop (.dump "_db_readptr: read error of ptr field")
    else pure ({ db with idxpos := offset + ptrSz }, atol asciiptr)

/-- The fields `_db_readidx` takes out of a record. -/
structure IdxFields where
  ptrval : Int
  idxlen : Nat
  key : Bytes
  datoff : Int
  datlen : Nat
deriving DecidableEq, Repr

/-- What `_db_readidx` does with the bytes it has read: the checks in their
order, with their messages. -/
def parseIdx (front body : Bytes) : Except String IdxFields :=
  let ptrval := atol (front.take ptrSz)
  let idxlen := sizeT (atol (front.drop ptrSz))
  if idxlen < idxlenMin ∨ idxlenMax < idxlen then .error "_db_readidx: invalid length"
  else if body.length ≠ idxlen then .error "_db_readidx: read error of index record"
  else if body.getLast? ≠ some newline then .error "_db_readidx: missing newline"
  else
    match strchr (cstr body.dropLast) sep with
    | none => .error "_db_readidx: missing first separator"
    | some (key, rest) =>
      match strchr rest sep with
      | none => .error "_db_readidx: missing second separator"
      | some (off, len) =>
        if sep ∈ len then .error "_db_readidx: too many separators"
        else if atol off < 0 then .error "_db_readidx: starting offset < 0"
        else if sizeT (atol len) = 0 ∨ datlenMax < sizeT (atol len) then
          .error "_db_readidx: invalid length"
        else .ok ⟨ptrval, idxlen, key, atol off, sizeT (atol len)⟩

/-- `offset = 0` means: read from the current position, and an end of file
there is not an error. -/
def dbReadidx : DbM (DB × Int) := do
  let pos := if offset = 0 then db.idxpos else offset
  match ← lseekReadRec pos with
  | none => .stop (.dump "_db_readidx: lseek error")
  | some (front, body) =>
    if front.length ≠ ptrSz + idxlenSz then
      -- the end of the file is a normal end only for a sequential read
      if front.length = 0 ∧ offset = 0 then pure ({ db with idxoff := pos }, -1)
      else .stop (.dump "_db_readidx: readv error of index record")
    else
      match parseIdx front body with
      | .error msg => .stop (.dump msg)
      | .ok r =>
        pure ({ db with
          idxoff := pos, ptrval := r.ptrval, idxlen := r.idxlen, idxbuf := r.key,
          datoff := r.datoff, datlen := r.datlen,
          idxpos := pos + (ptrSz + idxlenSz) + r.idxlen }, r.ptrval)

def dbReaddat : DbM (DB × Bytes) := do
  match ← lseekRead .dat db.datoff db.datlen with
  | none => .stop (.dump "_db_readdat: lseek error")
  | some buf =>
    if buf.length ≠ db.datlen then .stop (.dump "_db_readdat: read error")
    else if buf.getLast? ≠ some newline then .stop (.dump "_db_readdat: missing newline")
    else pure ({ db with datbuf := cstr buf.dropLast }, cstr buf.dropLast)

/-- Appending locks the whole data file, overwriting does not. -/
def dbWritedat : DbM DB := do
  if whence = .seekEnd then writewLock pid .dat 0 0
  match ← lseekWrite .dat offset whence (data ++ [newline]) with
  | none => .stop (.dump "_db_writedat: lseek error")
  | some off =>
    if whence = .seekEnd then unLock pid .dat 0 0
    pure { db with datoff := off, datlen := data.length + 1 }

/-- The text of an index record from the key on. -/
def idxText (datoff : Int) (datlen : Nat) : Bytes := key ++ sep :: (decInt datoff ++ sep :: (dec datlen ++ [newline]))

/-- Appending locks the index file from the first record on. `key` may be the
handle's own `idxbuf`. -/
def dbWriteidx
    (ptrval : Int) : DbM DB := do
  if ptrval < 0 ∨ (ptrMax : Int) < ptrval then
    .stop (.quit "_db_writeidx: invalid ptr: %d" ptrval)
  else
    let idxbuf := idxText key db.datoff db.datlen
    let len := idxbuf.length
    if len < idxlenMin ∨ idxlenMax < len then .stop (.dump "_db_writeidx: invalid length")
    else
      let asciiptrlen := padLeft ptrSz (decInt ptrval) ++ padLeft idxlenSz (dec len)
      if whence = .seekEnd then writewLock pid .idx recOff 0
      match ← lseekWrite .idx offset whence (asciiptrlen ++ idxbuf) with
      | none => .stop (.dump "_db_writeidx: lseek error")
      | some off =>
        if whence = .seekEnd then unLock pid .idx recOff 0
        pure { db with
          ptrval := ptrval, idxbuf := idxbuf, idxoff := off,
          idxpos := off + (ptrSz + idxlenSz) + len }

def dbWriteptr (offset ptrval : Int) : DbM DB := do
  if ptrval < 0 ∨ (ptrMax : Int) < ptrval then
    .stop (.quit "_db_writeptr: invalid ptr: %d" ptrval)
  else
    match ← lseekWrite .idx offset .seekSet (padLeft ptrSz (decInt ptrval)) with
    | none => .stop (.dump "_db_writeptr: lseek error to ptr field")
    | some _ => pure { db with idxpos := offset + ptrSz }

/-! ## Chains -/

/-- More steps than a chain can have: chain pointers have `PTR_SZ` digits, so a
longer walk has come back to a record it has seen. -/
def walkFuel : Nat := ptrMax + 1

/-- The search loop of `_db_find_and_lock`. -/
def findLoop : Nat → DB → Bytes → Int → DbM (DB × Int)
  | 0, _, _, _ => .stop .loops
  | fuel + 1, db, key, offset =>
    if offset = 0 then pure (db, 0)
    else do
      let (db, nextoffset) ← dbReadidx db offset
      if db.idxbuf = key then pure (db, offset)
      -- `ptroff` trails one record behind, for `_db_dodelete` to unlink with
      else findLoop fuel { db with ptroff := offset } key nextoffset

def chainOffOf : Nat := dbHash key * ptrSz + hashOff

/-- Returns with the hash chain locked; 0 when the record was found, -1 when
not. -/
def dbFindAndLock (writelock : Bool) : DbM (DB × Int) := do
  let db := { db with chainoff := chainOffOf key, ptroff := chainOffOf key }
  if writelock then writewLock pid .idx db.chainoff 1 else readwLock pid .idx db.chainoff 1
  let (db, offset) ← dbReadptr db db.ptroff
  let (db, offset) ← findLoop walkFuel db key offset
  pure (db, if offset = 0 then -1 else 0)

/-- The search loop of `_db_findfree`; the second result is the cell that
points to the record found. -/
def freeLoop : Nat → DB → Nat → Nat → Int → Int → DbM (DB × Int × Int)
  | 0, _, _, _, _, _ => .stop .loops
  | fuel + 1, db, keylen, datlen, saveoffset, offset =>
    if offset = 0 then pure (db, 0, saveoffset)
    else do
      let (db, nextoffset) ← dbReadidx db offset
      if db.idxbuf.length = keylen ∧ db.datlen = datlen then pure (db, offset, saveoffset)
      else freeLoop fuel db keylen datlen offset nextoffset

def dbFindfree (keylen datlen : Nat) : DbM (DB × Int) := do
  writewLock pid .idx freeOff 1
  let (db, offset) ← dbReadptr db freeOff
  let (db, offset, saveoffset) ← freeLoop walkFuel db keylen datlen freeOff offset
  if offset = 0 then do
    unLock pid .idx freeOff 1
    pure (db, -1)
  else do
    -- unlink: the cell before the record now points past it
    let db ← dbWriteptr db saveoffset db.ptrval
    unLock pid .idx freeOff 1
    pure (db, 0)

/-- The record just found becomes the head of the free list, with its key and
its data blanked. -/
def dbDodelete : DbM DB := do
  let db := { db with
    datbuf := List.replicate (db.datlen - 1) space,
    idxbuf := List.replicate db.idxbuf.length space }
  writewLock pid .idx freeOff 1
  let db ← dbWritedat pid db db.datbuf db.datoff .seekSet
  let (db, freeptr) ← dbReadptr db freeOff
  -- `_db_writeidx` overwrites `ptrval`, so the chain's next pointer is saved first
  let saveptr := db.ptrval
  let db ← dbWriteidx pid db db.idxbuf db.idxoff .seekSet freeptr
  let db ← dbWriteptr db freeOff db.idxoff
  let db ← dbWriteptr db db.ptroff saveptr
  unLock pid .idx freeOff 1
  pure db

/-! ## The library's interface -/

def dbFetch : DbM (DB × Option Bytes) := do
  let (db, rc) ← dbFindAndLock pid db key false
  if rc < 0 then do
    unLock pid .idx db.chainoff 1
    pure (db, none)
  else do
    let (db, ptr) ← dbReaddat db
    unLock pid .idx db.chainoff 1
    pure (db, some ptr)

def dbDelete : DbM (DB × Int) := do
  let (db, rc) ← dbFindAndLock pid db key true
  if rc = 0 then do
    let db ← dbDodelete pid db
    unLock pid .idx db.chainoff 1
    pure (db, 0)
  else do
    unLock pid .idx db.chainoff 1
    pure (db, -1)

/-- New index and data records at the ends of the files, linked in at the front
of the hash chain. -/
def storeAppend (ptrval : Int) : DbM DB := do
  let db ← dbWritedat pid db data 0 .seekEnd
  let db ← dbWriteidx pid db key 0 .seekEnd ptrval
  dbWriteptr db db.chainoff db.idxoff

/-- The records `_db_findfree` found, rewritten and linked in at the front of
the hash chain. -/
def storeReuse (ptrval : Int) : DbM DB := do
  let db ← dbWritedat pid db data db.datoff .seekSet
  let db ← dbWriteidx pid db key db.idxoff .seekSet ptrval
  dbWriteptr db db.chainoff db.idxoff

/-- `db_store` for a key that is not there yet. -/
def storeNew : DbM DB := do
  let (db, ptrval) ← dbReadptr db db.chainoff
  let (db, rc) ← dbFindfree pid db key.length (data.length + 1)
  if rc < 0 then storeAppend pid db key data ptrval
  else storeReuse pid db key data ptrval

/-- `db_store` for a key that is there: overwrite data of the same length, else
delete the old record and append a new one. -/
def storeOver : DbM DB := do
  if data.length + 1 ≠ db.datlen then do
    let db ← dbDodelete pid db
    let (db, ptrval) ← dbReadptr db db.chainoff
    storeAppend pid db key data ptrval
  else
    dbWritedat pid db data db.datoff .seekSet

def dbStore (flag : Int) : DbM (DB × Int) := do
  if flag ≠ flagInsert ∧ flag ≠ flagReplace ∧ flag ≠ flagStore then pure (db, -1)
  else if data.length + 1 < datlenMin ∨ datlenMax < data.length + 1 then
    .stop (.dump "db_store: invalid data length")
  else do
    let (db, rc) ← dbFindAndLock pid db key true
    if rc < 0 then
      if flag = flagReplace then do
        unLock pid .idx db.chainoff 1
        pure (db, -1)
      else do
        let db ← storeNew pid db key data
        unLock pid .idx db.chainoff 1
        pure (db, 0)
    else
      if flag = flagInsert then do
        unLock pid .idx db.chainoff 1
        pure (db, 1)
      else do
        let db ← storeOver pid db key data
        unLock pid .idx db.chainoff 1
        pure (db, 0)

def dbRewind : DB := { db with idxoff := recOff, idxpos := recOff }

end

/-- The loop of `db_nextrec`: skip records whose key is all blank. -/
def nextLoop : Nat → DB → DbM (DB × Option Bytes)
  | 0, _ => .stop .loops
  | fuel + 1, db => do
      let (db, rc) ← dbReadidx db 0
      if rc < 0 then pure (db, none)
      else if db.idxbuf.all (· == space) then nextLoop fuel db
      else pure (db, some db.idxbuf)

/-- The key and the data of the next record in file order, or nothing at the
end of the file. -/
def dbNextrec (pid : Nat) (fuel : Nat) (db : DB) : DbM (DB × Option (Bytes × Bytes)) := do
  readwLock pid .idx freeOff 1
  let (db, key) ← nextLoop fuel db
  match key with
  | none => do
      unLock pid .idx freeOff 1
      pure (db, none)
  | some key => do
      let (db, ptr) ← dbReaddat db
      unLock pid .idx freeOff 1
      pure (db, some (key, ptr))

/-- `db_open` with `O_CREAT | O_TRUNC`: both files are emptied, then the index
file gets its table of null pointers. -/
def dbOpen (pid : Nat) : DbM DB := do
  Prog.update (fun d => { d with idx := [], dat := [] }) (fun _ => ())
  writewLock pid .idx 0 0
  let size ← Prog.look (fun d => d.idx.length)
  if size = 0 then
    let asciiptr := padLeft ptrSz (dec 0)
    let hash := (List.replicate (nhashDef + 1) asciiptr).flatten ++ [newline]
    match ← lseekWrite .idx 0 .seekSet hash with
    | none => .stop (.dump "db_open: index file init write error")
    | some _ => pure ()
  unLock pid .idx 0 0
  pure (dbRewind dbAlloc)

end GokuStudio.Apue.Db
