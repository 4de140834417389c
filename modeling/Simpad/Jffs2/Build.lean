import Simpad.Jffs2.ReadInode
import Simpad.Jffs2.Direntlist

/-! Building the file system. `INOCACHE_HASHSIZE` is one: the caches are a single chain, and the `break` of
pass 2 leaves the whole chain. -/

namespace Simpad.Jffs2.Build

/-- `struct jffs2_scan_info`. -/
structure ScanInfo where
  dents : List FullDirent
  tmpnodes : List ℕ

/-- `struct jffs2_inode_cache`; `nodes` are the references of the inode. -/
structure InodeCache where
  ino : ℕ
  nlink : ℤ
  nodes : List ℕ
  scan : Option ScanInfo

structure Sb where
  caches : List InodeCache
  highestIno : ℕ
  st : Store

def getInoCache (ino : ℕ) (l : List InodeCache) : Option InodeCache :=
  (l.dropWhile fun ic => ic.ino < ino).head?.filter fun ic => ic.ino = ino

def addInoCache (new : InodeCache) : List InodeCache → List InodeCache
  | [] => [new]
  | ic :: l => if ic.ino < new.ino then ic :: addInoCache new l else new :: ic :: l

def modifyInoCache (ino : ℕ) (f : InodeCache → InodeCache) (l : List InodeCache) :
    List InodeCache := l.map fun ic => if ic.ino = ino then f ic else ic

/-- `jffs2_scan_make_ino_cache`: the chain that has a cache for the inode. -/
def scanMakeInoCache (ino : ℕ) (l : List InodeCache) : List InodeCache :=
  match getInoCache ino l with
  | some _ => l
  | none => addInoCache ⟨ino,if ino = 1 then 1 else 0,[],some ⟨[],[]⟩⟩ l

/-- A node that the scan has found to be sound: its reference, the inode it belongs to, whether
it is marked accurate, and whether its block has had a valid node before. -/
structure Found where
  ref : ℕ
  ino : ℕ
  accurate : Bool
  blockUsed : Bool

/-- `jffs2_add_tn_to_list`, and the shift behind the nodes of the same version. -/
def fileTn (st : Store) (tn : ℕ) : List ℕ → List ℕ
  | [] => [tn]
  | prev :: rest =>
    if st.ver prev ≤ st.ver tn then prev :: fileTn st tn rest else tn :: prev :: rest

/-- File a node: `jffs2_scan_inode_node` and `jffs2_scan_dirent_node` once the checks are
passed. -/
def scanNode (sb : Sb) (x : Found) : Sb :=
  let caches := modifyInoCache x.ino (fun ic => { ic with nodes := x.ref :: ic.nodes })
    (scanMakeInoCache x.ino sb.caches)
  match (sb.st.node x.ref).raw, getInoCache x.ino caches with
  | .inode ri _, some ⟨_,_,_,some scan⟩ =>
    -- of two nodes with one version the new one is dropped if its block has no valid node yet
    let dup := scan.tmpnodes.any fun tn => sb.st.ver tn = ri.version
    if x.accurate && !(dup && !x.blockUsed) then
      { sb with
        caches := modifyInoCache x.ino
          (fun ic => { ic with scan := some ⟨scan.dents,fileTn sb.st x.ref scan.tmpnodes⟩ }) caches
        st := (sb.st.setFullDnode x.ref ri).setFrags x.ref 0 }
    else { sb with caches := caches, st := sb.st.markNodeObsolete x.ref }
  | .dirent rd name, some ⟨_,_,_,some scan⟩ =>
    if x.accurate then
      let r := addFdToList ⟨x.ref,rd.version,rd.ino,rd.type,fullNameHash name,name⟩ scan.dents
      { sb with
        caches := modifyInoCache x.ino
          (fun ic => { ic with scan := some ⟨r.1,scan.tmpnodes⟩ }) caches
        st := r.2.elim sb.st sb.st.markNodeObsolete }
    else { sb with caches := caches, st := sb.st.markNodeObsolete x.ref }
  | _, _ => { sb with caches := caches }

/-- What the scan leaves of the nodes it finds. -/
def scanned (st : Store) (found : List Found) : Sb := found.foldl scanNode ⟨[],0,st⟩

/-- One node of pass 1: the metadata node, the fragment list and the store. -/
def pass1Node (alloc : ℕ → ℕ → Bool) (a : Option ℕ × List Frag × Store) (tn : ℕ) :
    Option ℕ × List Frag × Store :=
  let metadata := a.1.filter fun m => !(a.2.2.ver m < a.2.2.ver tn)
  if (a.2.2.node tn).fn.size ≠ 0 then
    let r := addFullDnodeToFraglist (alloc tn) a.2.2 a.2.1 tn
    (metadata,r.1.toOption.getD a.2.1,r.2)
  else (metadata.or (some tn),a.2)

/-- A child that has a cache gets one more link. -/
def linkChild (l : List InodeCache) (fd : FullDirent) : List InodeCache :=
  if fd.ino = 0 then l
  else
    match getInoCache fd.ino l with
    | none => l
    | some _ => modifyInoCache fd.ino (fun ic => { ic with nlink := ic.nlink + 1 }) l

/-- `jffs2_build_inode_pass1` for the cache of an inode. -/
def pass1Inode (alloc : ℕ → ℕ → Bool) (sb : Sb) (ino : ℕ) : Sb :=
  match getInoCache ino sb.caches with
  | some ⟨_,_,_,some scan⟩ =>
    let caches := modifyInoCache ino (fun ic => { ic with scan := some ⟨scan.dents,[]⟩ }) sb.caches
    ⟨scan.dents.foldl linkChild caches,max sb.highestIno ino,
      (scan.tmpnodes.foldl (pass1Node alloc) (none,[],sb.st)).2.2⟩
  | _ => { sb with highestIno := max sb.highestIno ino }

def pass1 (alloc : ℕ → ℕ → Bool) (sb : Sb) : Sb :=
  (sb.caches.map InodeCache.ino).foldl (pass1Inode alloc) sb

def unlinkChild (l : List InodeCache) (fd : FullDirent) : List InodeCache :=
  match getInoCache fd.ino l with
  | none => l
  | some _ => modifyInoCache fd.ino (fun ic => { ic with nlink := ic.nlink - 1 }) l

/-- `jffs2_build_remove_unlinked_inode`; true for `-EAGAIN`. -/
def removeUnlinkedInode (sb : Sb) (ic : InodeCache) : Sb × Bool :=
  match ic.scan with
  | none => (sb,false)
  | some scan =>
    ({ sb with
      caches := modifyInoCache ic.ino (fun ic => { ic with scan := none })
        (scan.dents.foldl unlinkChild sb.caches)
      st := ic.nodes.foldl Store.markNodeObsolete sb.st },!scan.dents.isEmpty)

/-- One round of pass 2 over the rest of the chain; true if it was left with `-EAGAIN`. -/
def pass2Round (sb : Sb) : List ℕ → Sb × Bool
  | [] => (sb,false)
  | ino :: inos =>
    match getInoCache ino sb.caches with
    | none => pass2Round sb inos
    | some ic =>
      if ic.nlink ≠ 0 then pass2Round sb inos
      else
        let r := removeUnlinkedInode sb ic
        if r.2 then r else pass2Round r.1 inos

/-- Pass 2, at most `n` rounds; none if they do not suffice. -/
def pass2 : ℕ → Sb → Option Sb
  | 0, _ => none
  | n + 1, sb =>
    let r := pass2Round sb (sb.caches.map InodeCache.ino)
    if r.2 then pass2 n r.1 else some r.1

def pass3 (sb : Sb) : Sb := { sb with caches := sb.caches.map fun ic => { ic with scan := none } }

/-- `jffs2_build_filesystem` behind the scan, with at most `n` rounds of pass 2. -/
def buildFilesystem (n : ℕ) (alloc : ℕ → ℕ → Bool) (sb : Sb) : Option Sb :=
  (pass2 n (pass1 alloc sb)).map pass3

end Simpad.Jffs2.Build
