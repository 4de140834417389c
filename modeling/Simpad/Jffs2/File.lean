import Simpad.Jffs2.Inode

namespace Simpad.Jffs2
open Word Segments

inductive PageError
  | errno (e : Errno)
  | overrun
deriving DecidableEq, Repr

/-- Copy `bytes` to position `pos` of the page. -/
def Page.store (pg : Page) (pos : ℕ) (bytes : List Byte) : Except PageError Page :=
  if pos + bytes.length ≤ 4096 then
    .ok fun k => if pos ≤ k ∧ k < pos + bytes.length then bytes.getD (k - pos) 0 else pg k
  else .error .overrun

/-- `memset(pg_buf, 0, len)`. -/
def Page.clear (pg : Page) (pos len : ℕ) : Except PageError Page :=
  pg.store pos (List.replicate len 0)

/-- `len` bytes of the page from `pos` on. -/
def Page.text (pg : Page) (pos len : ℕ) : List Byte := (List.range len).map fun k => pg (pos + k)

def readFrag (c : Codecs) (st : Store) (frag : Frag) (offset stop pos : ℕ) (pg : Page) :
    Except PageError (ℕ × ℕ × Page) :=
  if frag.ofs < offset ∧ offset % 4096 ≠ 0 then .error (.errno .eio)
  else
    match frag.val with
    | none => do
      let holeend := min stop (fend frag)
      let pg ← pg.clear pos (sub32 holeend offset)
      return (holeend,u32 (pos + sub32 holeend offset),pg)
    | some i => do
      let readlen := min frag.size (sub32 stop offset)
      let bytes ← (readDnode c (st.node i).raw (sub32 frag.ofs (st.node i).fn.ofs) readlen).mapError
        .errno
      let pg ← pg.store pos bytes
      return (u32 (offset + frag.size),u32 (pos + frag.size),pg)

/-- The loop of `jffs2_do_readpage_nolock`; `pos` is `pg_buf` relative to the page. -/
def readFrags (c : Codecs) (st : Store) (stop : ℕ) :
    List Frag → ℕ → ℕ → Page → Except PageError Page
  | [], offset, pos, pg =>
    if offset < stop then pg.clear pos (sub32 stop offset) else .ok pg
  | frag :: next, offset, pos, pg =>
    if offset < stop then do
      let holesize := if offset < frag.ofs then min (sub32 stop offset) (sub32 frag.ofs offset) else 0
      let pg ← if offset < frag.ofs then pg.clear pos holesize else .ok pg
      if offset + holesize < stop then
        let r ← readFrag c st frag (offset + holesize) stop (u32 (pos + holesize)) pg
        readFrags c st stop next r.1 r.2.1 r.2.2
      else return pg
    else .ok pg

/-- `jffs2_do_readpage_nolock` on a page that holds `pg` so far. -/
def doReadpageNolock (c : Codecs) (f : Inode) (index : ℕ) (pg : Page) : Except PageError Page :=
  let offset := u32 (index * 4096)
  readFrags c f.st (u32 (offset + 4096))
    (f.fraglist.dropWhile fun frag => fend frag ≤ offset) offset 0 pg

/-- `read_cache_page` with `jffs2_do_readpage_unlock`; `fresh` is what a new page holds. -/
def readCachePage (c : Codecs) (f : Inode) (index : ℕ) (fresh : Page) :
    Except PageError (Page × Inode) :=
  match f.mapping index with
  | some pg => .ok (pg,f)
  | none =>
    match doReadpageNolock c f index fresh with
    | .error e => .error e
    | .ok pg => .ok (pg,{ f with mapping := Function.update f.mapping index (some pg) })

/-- First half of `jffs2_prepare_write`: a hole from the old end of the file to the page. -/
def prepareHole (f : Inode) (pageofs : ℕ) : Inode :=
  if f.isize < pageofs then
    { f.addNode (f.holeNode f.isize pageofs (max f.isize pageofs)) [] with isize := pageofs }
  else f

/-- `jffs2_prepare_write`: the inode, and the page or the error of reading it.  A page that is
not up to date and will be written whole is not read. -/
def prepareWrite (c : Codecs) (f : Inode) (index start stop : ℕ) (fresh : Page) :
    Inode × Except PageError Page :=
  let f := prepareHole f (u32 (index * 4096))
  if start ≠ 0 ∨ stop < 4096 then
    match readCachePage c f index fresh with
    | .error e => (f,.error e)
    | .ok (pg,f) => (f,.ok pg)
  else (f,.ok ((f.mapping index).getD fresh))

/-- The node one round of `jffs2_commit_write` writes. -/
def commitNode (f : Inode) (fileOfs : ℕ) (t : Compr) (datalen : ℕ) (cdata : List Byte) :
    RawInode where
  totlen := sizeofRawInode + cdata.length
  version := f.nextVersion
  mode := f.mode
  isize := max f.isize (u32 (fileOfs + datalen))
  offset := fileOfs
  csize := cdata.length
  dsize := datalen
  compr := t

/-- One round of the loop of `jffs2_commit_write`: the inode and the number of bytes written. -/
def commitRound (c : Codecs) (f : Inode) (pg : Page) (fileOfs writelen alloclen : ℕ) :
    Inode × ℕ :=
  let cdatalen := min (sub32 alloclen sizeofRawInode) writelen
  let (t,datalen,cdata) := packData c (pg.text (fileOfs % 4096) writelen) cdatalen
  let ri := commitNode f fileOfs t datalen cdata
  ({ f.addNode ri cdata with isize := ri.isize },datalen)

end Simpad.Jffs2
