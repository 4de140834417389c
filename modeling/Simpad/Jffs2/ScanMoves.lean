import Simpad.Base.ListAt
import Simpad.Jffs2.Scan

namespace Simpad.Jffs2.Scan
open Word ListAt

structure Block.Fits32 (b : Block) : Prop where
  offset : b.offset % 4 = 0
  sector : b.sectorSize % 4 = 0
  stop : b.stop + sizeofUnknownNode < 4294967296
  flash : b.stop ≤ b.flash.size

structure Acct where
  ofs : ℕ
  used : ℕ
  dirty : ℕ
  free : ℕ
  refs : List Ref
deriving DecidableEq

def State.acct (s : State) : Acct := ⟨s.ofs,s.used,s.dirty,s.free,s.refs⟩

def Acct.dirtied (a : Acct) (len : ℕ) : Acct :=
  ⟨u32 (a.ofs + len),a.used,u32 (a.dirty + len),sub32 a.free len,a.refs⟩

def Acct.taken (a : Acct) (len : ℕ) : Acct :=
  ⟨u32 (a.ofs + len),u32 (a.used + len),a.dirty,sub32 a.free len,a.refs⟩

def Acct.record (a : Acct) (len : ℕ) (obsolete : Bool) : Acct :=
  { a with refs := a.refs ++ [⟨a.ofs,len,obsolete⟩] }

def Acct.obsoleted (a : Acct) (i len : ℕ) : Acct :=
  { a with
    used := sub32 a.used len
    dirty := u32 (a.dirty + len)
    refs := a.refs.modify i fun r => { r with obsolete := true } }

/-- The length that the scan goes by for a node at `ofs`, and whether it is that of a node which
is kept without being known. -/
def Block.trustedKind (b : Block) (ofs totlen : ℕ) : NodeKind → Option (Bool × ℕ)
  | .inode => (b.flash.read ofs sizeofRawInode).bind fun ri =>
    if (crc32 0 ((setAccurate ri).take 60)).toNat = field ri 64 4 then
      some (false,pad4 (field ri 4 4))
    else none
  | .dirent => (b.flash.read ofs sizeofRawDirent).bind fun rd =>
    if (crc32 0 ((setAccurate rd).take 32)).toNat = field rd 32 4 then
      some (false,pad4 (field rd 4 4))
    else none
  | .rocompat => if b.rdonly then some (false,pad4 totlen) else none
  | .rwcompatDelete => some (false,pad4 totlen)
  | .rwcompatCopy => some (true,pad4 totlen)
  | .cleanmarker | .incompat => none

/-- What `f` says of a length and a kind, for a node with a right header at `ofs`. -/
def Block.atNode {α : Type} (b : Block) (ofs : ℕ) (f : ℕ → NodeKind → Option α) : Option α :=
  (b.flash.read ofs sizeofUnknownNode).bind fun node =>
    if field node 0 2 = 0x1985 ∧
        (crc32 0 ((setAccurate node).take 8)).toNat = field node 8 4 then
      f (field node 4 4) (nodeKind (field node 2 2))
    else none

def Block.trusted (b : Block) (ofs : ℕ) : Option (Bool × ℕ) := b.atNode ofs (b.trustedKind ofs)

inductive Move (b : Block) (a : Acct) : Acct → Prop
  | skip {len : ℕ} (hn : b.trusted a.ofs = none) (h0 : 0 < len) (h4 : len % 4 = 0)
    (h : a.ofs + len ≤ b.stop) : Move b a (a.dirtied len)
  | tail (hn : b.trusted a.ofs = none) (h : ∀ p, a.ofs ≤ p → p < b.stop → b.flash.byte p = 0xff) :
    Move b a { a with ofs := b.stop }
  | marker (hn : b.trusted a.ofs = none) (h : a.ofs + sizeofUnknownNode ≤ b.stop)
    (hr : a.refs = []) : Move b a ((a.record sizeofUnknownNode false).taken sizeofUnknownNode)
  | dirty {len : ℕ} (h : b.trusted a.ofs = some (false,len)) : Move b a (a.dirtied len)
  | copy {len : ℕ} (h : b.trusted a.ofs = some (true,len)) : Move b a (a.taken len)
  | dropped {len : ℕ} (h : b.trusted a.ofs = some (false,len)) :
    Move b a ((a.record len true).dirtied len)
  | node {len : ℕ} (h : b.trusted a.ofs = some (false,len)) :
    Move b a ((a.record len false).taken len)
  | replace {len i : ℕ} {ref : Ref} (h : b.trusted a.ofs = some (false,len))
    (hi : (a.record len false).refs[i]? = some ref) (ho : ref.obsolete = false)
    (hin : b.offset ≤ ref.ofs ∧ ref.ofs < b.stop) :
    Move b a (((a.record len false).taken len).obsoleted i ref.totlen)
  | stray {len i : ℕ} {ref : Ref} (h : b.trusted a.ofs = some (false,len))
    (hi : (a.record len false).refs[i]? = some ref)
    (hout : ref.ofs < b.offset ∨ b.stop ≤ ref.ofs) :
    Move b a { (a.record len false).taken len with
      refs := (a.record len false).refs.modify i fun r => { r with obsolete := true } }

/-- The length of the data that belong to the node at `ofs`. -/
def Block.dataKind (b : Block) (ofs : ℕ) : NodeKind → Option ℕ
  | .inode => (b.flash.read ofs sizeofRawInode).bind fun ri =>
    if (crc32 0 ((setAccurate ri).take 60)).toNat = field ri 64 4 then
      some (if field ri 56 1 = 1 ∧ field ri 52 4 = 0 then 0 else field ri 48 4)
    else none
  | _ => none

def Block.dataSize (b : Block) (ofs : ℕ) : Option ℕ := b.atNode ofs fun _ => b.dataKind ofs

/-- The length of the name that belongs to the entry at `ofs`. -/
def Block.nameKind (b : Block) (ofs : ℕ) : NodeKind → Option ℕ
  | .dirent => (b.flash.read ofs sizeofRawDirent).bind fun rd =>
    if (crc32 0 ((setAccurate rd).take 32)).toNat = field rd 32 4 then some (field rd 28 1) else none
  | _ => none

def Block.nameSize (b : Block) (ofs : ℕ) : Option ℕ := b.atNode ofs fun _ => b.nameKind ofs

/-- More of the data than the buffer holds is read. -/
def Block.Overruns (b : Block) (ok : Bool) (ofs : ℕ) : Prop :=
  ok = true ∧ ∃ csize, b.dataSize ofs = some csize ∧
    4096 < b.flash.delivered (u32 (ofs + sizeofRawInode)) csize

/-- With memory to be had, what belongs to the node at `ofs` is read from the flash: only then does
the scan go by the length of a data node or an entry. -/
structure Block.Readable (b : Block) (ok : Bool) (ofs : ℕ) : Prop where
  data : ∀ csize, b.dataSize ofs = some csize →
    ok = true ∧ csize ≤ 4096 ∧ u32 (ofs + sizeofRawInode) + csize ≤ b.flash.size
  name : ∀ nsize, b.nameSize ofs = some nsize →
    ok = true ∧ u32 (ofs + sizeofRawDirent) + nsize ≤ b.flash.size

theorem Block.Readable.not_overruns {b : Block} {ok : Bool} {ofs : ℕ} (h : b.Readable ok ofs) :
    ¬b.Overruns ok ofs := by
  rintro ⟨-,csize,hc,hlt⟩
  obtain ⟨-,hle,-⟩ := h.data csize hc
  exact absurd (hlt.trans_le (min_le_left _ _)) (by omega)

theorem Block.readable_of_none {b : Block} {ok : Bool} {ofs : ℕ} (hd : b.dataSize ofs = none)
    (hn : b.nameSize ofs = none) : b.Readable ok ofs :=
  ⟨fun _ h => (nomatch hd.symm.trans h),fun _ h => (nomatch hn.symm.trans h)⟩

def Looked (b : Block) (ok : Bool) (s : State) : Except Stop State → Prop
  | .ok t => b.Readable ok s.ofs ∧ Move b s.acct t.acct ∧ t.prevofs = s.prevofs
  | .error (.err _) => ¬b.Overruns ok s.ofs
  | .error .bug => b.Readable ok s.ofs ∧ ¬(s.used = usedOf s.refs ∧
      ∀ len, b.trusted s.ofs = some (false,len) → s.used + len < 4294967296)
  | .error .overrun => b.Overruns ok s.ofs
  | .error (.done ..) => False

theorem usedOf_append (l m : List Ref) : usedOf (l ++ m) = usedOf l + usedOf m := by
  simp [usedOf]

theorem usedOf_cons (r : Ref) (l : List Ref) :
    usedOf (r :: l) = (if r.obsolete then 0 else r.totlen) + usedOf l := by
  cases h : r.obsolete <;> simp [usedOf,h]

theorem usedOf_modify {refs : List Ref} {i : ℕ} {ref : Ref} (hi : refs[i]? = some ref)
    (ho : ref.obsolete = false) :
    usedOf (refs.modify i fun r => { r with obsolete := true }) + ref.totlen = usedOf refs := by
  obtain ⟨pre,post,rfl,-,hmod⟩ := split_at hi
  rw [hmod]
  simp only [usedOf_append,usedOf_cons,ho,if_true,Bool.false_eq_true,if_false]
  omega

theorem erased_iff (b : Block) (p : ℕ) :
    b.erased p = true ↔ ∀ q, p ≤ q → q < p + 4 → b.flash.byte q = 0xff := by
  unfold Block.erased
  rw [List.all_eq_true]
  constructor
  · simp
  · intro h q hq
    obtain ⟨hq,hq'⟩ := List.mem_range'_1.mp hq
    simpa using h q hq hq'

theorem emptyFrom_spec (b : Block) (n p : ℕ) :
    p ≤ b.emptyFrom n p ∧ b.emptyFrom n p ≤ p + 4 * n ∧ (b.emptyFrom n p - p) % 4 = 0 ∧
      ∀ q, p ≤ q → q < b.emptyFrom n p → b.flash.byte q = 0xff := by
  induction n generalizing p with
  | zero => exact ⟨le_rfl,le_rfl,by simp [Block.emptyFrom],fun q h h' => absurd h' (not_lt.mpr h)⟩
  | succ n ih =>
    unfold Block.emptyFrom
    split_ifs with he
    · obtain ⟨h₁,h₂,h₃,h₄⟩ := ih (p + 4)
      refine ⟨by omega,by omega,by omega,fun q hq hq' => ?_⟩
      by_cases hlt : q < p + 4
      · exact (erased_iff b p).mp he q hq hlt
      · exact h₄ q (not_lt.mp hlt) hq'
    · grind

theorem emptyFrom_pos {b : Block} {n p : ℕ} (hn : 0 < n) (h : b.erased p = true) :
    p < b.emptyFrom n p := by
  obtain ⟨m,rfl⟩ := Nat.exists_eq_succ_of_ne_zero hn.ne'
  have hm := (emptyFrom_spec b m (p + 4)).1
  unfold Block.emptyFrom
  rw [if_pos h]
  omega

variable {totlen version : ℕ}

section
variable {b : Block} {ok : Bool} {s t : State}

theorem word_move (hn : b.trusted s.ofs = none) (h : s.ofs + 4 ≤ b.stop) :
    Move b s.acct ((s.dirtySpace 4).advance 4).acct :=
  .skip (a := s.acct) hn (by decide) rfl h

theorem Flash.read_le {f : Flash} {ofs len : ℕ} {l : List Byte} (h : f.read ofs len = some l) :
    ofs + len ≤ f.size := by
  by_contra hlt
  rw [Flash.read,if_neg hlt] at h
  cases h

theorem fileInode_move {ino : ℕ} {accurate : Bool}
    (h : b.trusted s.ofs = some (false,pad4 totlen)) :
    Move b s.acct (fileInode s totlen ino version accurate).acct ∧
      (fileInode s totlen ino version accurate).prevofs = s.prevofs := by
  unfold fileInode
  dsimp only
  split_ifs with ha
  · rw [ha]
    exact ⟨.node (a := s.acct) h,rfl⟩
  · rw [Bool.not_eq_true] at ha
    rw [ha]
    exact ⟨.dropped (a := s.acct) h,rfl⟩

theorem scanInodeNode_looked (ht : b.trusted s.ofs = b.trustedKind s.ofs totlen .inode)
    (hd : b.dataSize s.ofs = b.dataKind s.ofs .inode) (hn : b.nameSize s.ofs = none)
    (h4 : s.ofs + 4 ≤ b.stop) : Looked b ok s (scanInodeNode b ok s) := by
  rw [Block.trustedKind] at ht
  rw [Block.dataKind] at hd
  rw [scanInodeNode]
  cases hr : b.flash.read s.ofs sizeofRawInode with
  | none =>
    rw [hr] at hd
    exact (Block.readable_of_none hd hn).not_overruns
  | some ri =>
    rw [hr,Option.bind_some] at ht hd
    dsimp only
    by_cases hcrc : (crc32 0 ((setAccurate ri).take 60)).toNat = field ri 64 4
    · rw [if_pos hcrc] at ht hd
      rw [if_neg (not_not.mpr hcrc)]
      generalize (if field ri 56 1 = 1 ∧ field ri 52 4 = 0 then 0 else field ri 48 4) = csize at *
      cases ok with
      | false =>
        have hno : ¬b.Overruns false s.ofs := fun ho => absurd ho.1 Bool.false_ne_true
        simp only [Bool.not_false,if_true]
        split_ifs <;> exact hno
      | true =>
        have hok : csize ≤ 4096 → u32 (s.ofs + sizeofRawInode) + csize ≤ b.flash.size →
            b.Readable true s.ofs := by
          refine fun hle hfit => ⟨fun c hc => ?_,fun c hc => nomatch hn.symm.trans hc⟩
          cases hd.symm.trans hc
          exact ⟨rfl,hle,hfit⟩
        simp only [Bool.not_true,Bool.false_eq_true,if_false]
        by_cases hcs : csize = 0
        · have hfit := Flash.read_le hr
          have hu : u32 (s.ofs + sizeofRawInode) ≤ s.ofs + sizeofRawInode := Nat.mod_le _ _
          rw [if_pos hcs]
          exact ⟨hok (by omega) (by omega),fileInode_move ht⟩
        · rw [if_neg hcs]
          by_cases hlen : 4096 < b.flash.delivered (u32 (s.ofs + sizeofRawInode)) csize
          · rw [if_pos hlen]
            exact ⟨rfl,csize,hd,hlen⟩
          · rw [if_neg hlen]
            cases hdata : b.flash.read (u32 (s.ofs + sizeofRawInode)) csize with
            | none =>
              rintro ⟨-,c,hc,hlt⟩
              cases hd.symm.trans hc
              exact hlen hlt
            | some data =>
              have hfit := Flash.read_le hdata
              rw [Flash.delivered] at hlen
              have hok := hok (by omega) hfit
              dsimp only
              split_ifs
              · exact ⟨hok,.dirty (a := s.acct) ht,rfl⟩
              · exact ⟨hok,fileInode_move ht⟩
    · rw [if_neg hcrc] at ht hd
      rw [if_pos hcrc]
      exact ⟨Block.readable_of_none hd hn,word_move ht h4,rfl⟩

theorem markNodeObsolete_cases (b : Block) (s : State) (i : ℕ) :
    s.markNodeObsolete b i = .ok s ∨
    (∃ ref, s.refs[i]? = some ref ∧ ref.obsolete = false ∧
      ((ref.ofs < b.offset ∨ b.stop ≤ ref.ofs) ∧ s.markNodeObsolete b i =
          .ok { s with refs := s.refs.modify i fun r => { r with obsolete := true } } ∨
        (b.offset ≤ ref.ofs ∧ ref.ofs < b.stop) ∧ s.markNodeObsolete b i =
          .ok { s with
            used := sub32 s.used ref.totlen
            dirty := u32 (s.dirty + ref.totlen)
            refs := s.refs.modify i fun r => { r with obsolete := true } })) ∨
    s.markNodeObsolete b i = .error .bug ∧ ¬(s.used = usedOf s.refs ∧ s.used < 4294967296) := by
  rw [State.markNodeObsolete]
  cases hi : s.refs[i]? with
  | none => exact .inl rfl
  | some ref =>
    dsimp only
    cases ho : ref.obsolete with
    | true => exact .inl rfl
    | false =>
      have hmod := usedOf_modify hi ho
      rw [if_neg Bool.false_ne_true]
      by_cases hout : ref.ofs < b.offset ∨ b.stop ≤ ref.ofs
      · grind
      rw [if_neg hout]
      rw [not_or,not_lt,not_le] at hout
      split_ifs with hlt hpar
      · grind
      · grind
      · refine .inr (.inr ⟨rfl,fun ⟨hu,hu'⟩ => hpar (decide_eq_true ?_)⟩)
        have hs : sub32 s.used ref.totlen = s.used - ref.totlen := sub32_of_le (by omega) hu'
        show u32 (usedOf (s.refs.modify i fun r => { r with obsolete := true })) =
          sub32 s.used ref.totlen
        rw [hs,u32_of_lt (by omega)]
        omega

theorem fileDirent_looked {pino ino type : ℕ} {name : List Byte} {accurate : Bool}
    (hok : b.Readable ok s.ofs) (ht : b.trusted s.ofs = some (false,pad4 totlen)) :
    Looked b ok s (fileDirent b s totlen pino version ino type name accurate) := by
  rw [fileDirent]
  cases accurate with
  | false => exact ⟨hok,.dropped (a := s.acct) ht,rfl⟩
  | true =>
    simp only [if_true,Bool.not_true]
    split
    · next i _ =>
      obtain he | ⟨ref,hi,ho,⟨hout,he⟩ | ⟨hin,he⟩⟩ | ⟨he,hbad⟩ := markNodeObsolete_cases b
        { State.usedSpace { s with refs := s.refs ++ [⟨s.ofs,pad4 totlen,false⟩] } (pad4 totlen) with
          dents := Function.update s.dents pino (addFdToList
            ⟨s.refs.length + 1,version,ino,type,fullNameHash name,name⟩ (s.dents pino)).1 } i <;>
        rw [he]
      · exact ⟨hok,.node (a := s.acct) ht,rfl⟩
      · exact ⟨hok,.stray (a := s.acct) ht hi hout,rfl⟩
      · exact ⟨hok,.replace (a := s.acct) ht hi ho hin,rfl⟩
      · refine ⟨hok,fun ⟨hu,hw⟩ => hbad ⟨?_,u32_lt _⟩⟩
        show u32 (s.used + pad4 totlen) = usedOf (s.refs ++ [⟨s.ofs,pad4 totlen,false⟩])
        rw [u32_of_lt (hw _ ht),usedOf_append,usedOf_cons,if_neg Bool.false_ne_true,← hu]
        rfl
    · exact ⟨hok,.node (a := s.acct) ht,rfl⟩

theorem scanDirentNode_looked (ht : b.trusted s.ofs = b.trustedKind s.ofs totlen .dirent)
    (hd : b.dataSize s.ofs = none) (hn : b.nameSize s.ofs = b.nameKind s.ofs .dirent)
    (h4 : s.ofs + 4 ≤ b.stop) : Looked b ok s (scanDirentNode b ok s) := by
  have hno : ¬b.Overruns ok s.ofs := fun ⟨_,_,hc,_⟩ => nomatch hd.symm.trans hc
  rw [Block.trustedKind] at ht
  rw [Block.nameKind] at hn
  rw [scanDirentNode]
  cases hr : b.flash.read s.ofs sizeofRawDirent with
  | none => exact hno
  | some rd =>
    rw [hr,Option.bind_some] at ht hn
    dsimp only
    by_cases hcrc : (crc32 0 ((setAccurate rd).take 32)).toNat = field rd 32 4
    · rw [if_pos hcrc] at ht hn
      rw [if_neg (not_not.mpr hcrc)]
      cases ok with
      | false => exact hno
      | true =>
        rw [Bool.not_true,if_neg Bool.false_ne_true]
        cases hname : b.flash.read (u32 (s.ofs + sizeofRawDirent)) (field rd 28 1) with
        | none => exact hno
        | some name =>
          have hok : b.Readable true s.ofs := by
            refine ⟨fun c hc => (nomatch hd.symm.trans hc),fun c hc => ?_⟩
            cases hn.symm.trans hc
            exact ⟨rfl,Flash.read_le hname⟩
          dsimp only
          split_ifs
          · exact ⟨hok,.dirty (a := s.acct) ht,rfl⟩
          · exact fileDirent_looked hok ht
    · rw [if_neg hcrc] at ht hn
      rw [if_pos hcrc]
      exact ⟨Block.readable_of_none hd hn,word_move ht h4,rfl⟩

theorem scanCleanmarker_looked (hok : b.Readable ok s.ofs) (hn : b.trusted s.ofs = none)
    (h12 : s.ofs + sizeofUnknownNode ≤ b.stop) : Looked b ok s (scanCleanmarker ok s totlen) := by
  rw [scanCleanmarker]
  by_cases hc : totlen ≠ sizeofUnknownNode ∨ s.refs ≠ []
  · rw [if_pos hc]
    exact ⟨hok,.skip (a := s.acct) hn (by decide) (by decide) h12,rfl⟩
  · rw [if_neg hc]
    cases ok with
    | false => exact hok.not_overruns
    | true =>
      have hr : s.refs = [] := not_not.mp fun hn => hc (.inr hn)
      have hm := Move.marker (a := s.acct) hn h12 hr
      rw [Acct.record,show s.acct.refs = [] from hr] at hm
      exact ⟨hok,hm,rfl⟩

theorem scanNode_looked {node : List Byte} (hread : b.flash.read s.ofs sizeofUnknownNode = some node)
    (hmagic : field node 0 2 = 0x1985) (h12 : s.ofs + sizeofUnknownNode ≤ b.stop) :
    Looked b ok s (scanNode b ok s node) := by
  have h4 : s.ofs + 4 ≤ b.stop := le_trans (Nat.add_le_add_left (by decide) _) h12
  have ht : b.trusted s.ofs = _ := congrArg (Option.bind · _) hread
  have hd : b.dataSize s.ofs = _ := congrArg (Option.bind · _) hread
  have hn : b.nameSize s.ofs = _ := congrArg (Option.bind · _) hread
  rw [Option.bind_some] at ht hd hn
  rw [scanNode]
  by_cases hcrc : (crc32 0 ((setAccurate node).take 8)).toNat = field node 8 4
  · rw [if_pos ⟨hmagic,hcrc⟩] at ht hd hn
    rw [if_neg (not_not.mpr hcrc)]
    have hok : b.dataSize s.ofs = none → b.nameSize s.ofs = none → b.Readable ok s.ofs :=
      Block.readable_of_none
    cases hk : nodeKind (field node 2 2) <;> rw [hk] at ht hd hn
    case inode => exact scanInodeNode_looked ht hd hn h4
    case dirent => exact scanDirentNode_looked ht hd hn h4
    case cleanmarker => exact scanCleanmarker_looked (hok hd hn) ht h12
    case rocompat =>
      rw [Block.trustedKind] at ht
      cases hro : b.rdonly with
      | false => exact (hok hd hn).not_overruns
      | true =>
        rw [hro,if_pos rfl] at ht
        exact ⟨hok hd hn,.dirty (a := s.acct) ht,rfl⟩
    case incompat => exact (hok hd hn).not_overruns
    case rwcompatDelete => exact ⟨hok hd hn,.dirty (a := s.acct) ht,rfl⟩
    case rwcompatCopy => exact ⟨hok hd hn,.copy (a := s.acct) ht,rfl⟩
  · rw [if_neg fun hc => hcrc hc.2] at ht hd hn
    rw [if_pos hcrc]
    exact ⟨Block.readable_of_none hd hn,word_move ht h4,rfl⟩

theorem erased_of_header {node : List Byte} (hread : b.flash.read s.ofs sizeofUnknownNode = some node)
    (h : field node 0 2 = 0xffff ∧ field node 2 2 = 0xffff) : b.erased s.ofs = true := by
  unfold Flash.read at hread
  split_ifs at hread
  cases hread
  have hb : ∀ i, (b.flash.byte i).toNat < 256 := fun i => (b.flash.byte i).toNat_lt
  have h0 := hb s.ofs
  have h2 := hb (s.ofs + 2)
  obtain ⟨ha,hc⟩ := h
  simp [field,sizeofUnknownNode,List.range',add_assoc] at ha hc
  have heq : ∀ x : Byte, x.toNat = 255 → x = 0xff := fun x hx => UInt8.toNat_inj.mp hx
  refine (erased_iff b s.ofs).mpr fun q hq hq' => ?_
  obtain rfl | rfl | rfl | rfl : q = s.ofs ∨ q = s.ofs + 1 ∨ q = s.ofs + 2 ∨ q = s.ofs + 3 := by omega
  · exact heq _ (by omega)
  · exact heq _ (by omega)
  · exact heq _ (by omega)
  · exact heq _ (by omega)

theorem scanEmpty_looked (hb : b.Fits32) (h4 : s.ofs % 4 = 0) (hlt : s.ofs < b.stop)
    (hok : b.Readable ok s.ofs) (hn : b.trusted s.ofs = none) (he : b.erased s.ofs = true) :
    Looked b ok s (scanEmpty b ok s) := by
  have hoff := hb.offset
  have hsec := hb.sector
  have hstop := hb.stop
  have hst : b.stop = b.offset + b.sectorSize := rfl
  have hpos : 0 < (b.stop - s.ofs) / 4 := by omega
  obtain ⟨h₁,h₂,h₃,h₄⟩ := emptyFrom_spec b ((b.stop - s.ofs) / 4) s.ofs
  have h₅ := emptyFrom_pos hpos he
  rw [scanEmpty]
  cases ok with
  | false => exact hok.not_overruns
  | true =>
    generalize b.emptyFrom ((b.stop - s.ofs) / 4) s.ofs = p at *
    by_cases hp : p = b.stop
    · rw [if_pos hp]
      subst hp
      exact ⟨hok,.tail (a := s.acct) hn h₄,rfl⟩
    · rw [if_neg hp]
      have hm : Move b s.acct (s.acct.dirtied (p - s.ofs)) :=
        .skip hn (by omega) h₃ (show s.ofs + (p - s.ofs) ≤ b.stop by omega)
      have hu : u32 (s.ofs + (p - s.ofs)) = p := by
        rw [Nat.add_sub_cancel' h₁]
        exact u32_of_lt (by omega)
      rw [Acct.dirtied,show s.acct.ofs = s.ofs from rfl,hu] at hm
      exact ⟨hok,hm,rfl⟩

def look (b : Block) (ok : Bool) (s : State) : Except Stop State :=
  match b.flash.read s.ofs sizeofUnknownNode with
  | none => .error (.err .eio)
  | some node =>
    if field node 0 2 = 0xffff ∧ field node 2 2 = 0xffff then scanEmpty b ok s
    else if field node 0 2 ≠ 0x1985 then .ok ((s.dirtySpace 4).advance 4)
    else scanNode b ok s node

theorem look_looked (hb : b.Fits32) (h4 : s.ofs % 4 = 0) (h12 : s.ofs + sizeofUnknownNode ≤ b.stop)
    (ok : Bool) : Looked b ok s (look b ok s) := by
  have h0 : 4 ≤ sizeofUnknownNode := by decide
  rw [look]
  cases hread : b.flash.read s.ofs sizeofUnknownNode with
  | none =>
    have hd : b.dataSize s.ofs = none := congrArg (Option.bind · _) hread
    have hn : b.nameSize s.ofs = none := congrArg (Option.bind · _) hread
    exact (Block.readable_of_none hd hn).not_overruns
  | some node =>
    dsimp only
    by_cases hmagic : field node 0 2 = 0x1985
    · rw [if_neg (by omega),if_neg (not_not.mpr hmagic)]
      exact scanNode_looked hread hmagic h12
    · -- another magic is no node
      have ht : b.trusted s.ofs = _ := congrArg (Option.bind · _) hread
      have hd : b.dataSize s.ofs = _ := congrArg (Option.bind · _) hread
      have hn : b.nameSize s.ofs = _ := congrArg (Option.bind · _) hread
      rw [Option.bind_some,if_neg fun hc => hmagic hc.1] at ht hd hn
      have hok : b.Readable ok s.ofs := Block.readable_of_none hd hn
      by_cases hempty : field node 0 2 = 0xffff ∧ field node 2 2 = 0xffff
      · rw [if_pos hempty]
        exact scanEmpty_looked hb h4 (by omega) hok ht (erased_of_header hread hempty)
      · rw [if_neg hempty,if_pos hmagic]
        exact ⟨hok,word_move ht (by omega),rfl⟩

theorem step_look (hstop : b.stop + sizeofUnknownNode < 4294967296) (hpar : s.paranoia = true)
    (h4 : s.ofs % 4 = 0) (hprev : s.ofs ≠ s.prevofs) (h12 : s.ofs + sizeofUnknownNode ≤ b.stop) :
    step b ok s = look b ok { s with prevofs := s.ofs } := by
  have h0 : 0 < sizeofUnknownNode := by decide
  rw [step,if_neg (by omega),hpar,Bool.not_true,if_neg Bool.false_ne_true,if_neg (not_not.mpr h4),
    if_neg hprev]
  dsimp only
  rw [u32_of_lt (by omega : s.ofs + sizeofUnknownNode < 4294967296),if_neg (not_lt.mpr h12)]
  rfl

theorem step_cases (hb : b.Fits32) (h4 : s.ofs % 4 = 0) (ok : Bool) :
    b.stop ≤ s.ofs ∧ step b ok s = .error (.done 0 s) ∨
    s.ofs < b.stop ∧ s.paranoia = false ∧ step b ok s = .error .bug ∨
    s.ofs < b.stop ∧ s.paranoia = true ∧ s.ofs = s.prevofs ∧
      step b ok s = .ok ((s.dirtySpace 4).advance 4) ∨
    s.ofs < b.stop ∧ s.ofs ≠ s.prevofs ∧ b.stop < s.ofs + sizeofUnknownNode ∧
      step b ok s = .error (.done 0 (State.dirtySpace { s with prevofs := s.ofs } (b.stop - s.ofs))) ∨
    s.paranoia = true ∧ s.ofs ≠ s.prevofs ∧ s.ofs + sizeofUnknownNode ≤ b.stop ∧
      step b ok s = look b ok { s with prevofs := s.ofs } := by
  have hstop := hb.stop
  by_cases hge : b.stop ≤ s.ofs
  · exact .inl ⟨hge,if_pos hge⟩
  have hlt := not_le.mp hge
  cases hpar : s.paranoia with
  | false => exact .inr (.inl ⟨hlt,rfl,by rw [step,if_neg hge,hpar]; rfl⟩)
  | true =>
    by_cases h12 : s.ofs ≠ s.prevofs ∧ s.ofs + sizeofUnknownNode ≤ b.stop
    · exact .inr (.inr (.inr (.inr ⟨rfl,h12.1,h12.2,step_look hstop hpar h4 h12.1 h12.2⟩)))
    rw [step,if_neg hge,hpar,Bool.not_true,if_neg Bool.false_ne_true,if_neg (not_not.mpr h4)]
    by_cases hprev : s.ofs = s.prevofs
    · grind
    · have h12 : b.stop < s.ofs + sizeofUnknownNode := not_le.mp fun h => h12 ⟨hprev,h⟩
      rw [if_neg hprev]
      dsimp only
      rw [u32_of_lt (by omega : s.ofs + sizeofUnknownNode < 4294967296),if_pos h12]
      grind

theorem step_move (hb : b.Fits32) (h4 : s.ofs % 4 = 0) (h : step b ok s = .ok t) :
    s.ofs < b.stop ∧ s.paranoia = true ∧
      (s.ofs = s.prevofs ∧ s.ofs + 4 ≤ b.stop ∧ t.acct = s.acct.dirtied 4 ∨
        s.ofs ≠ s.prevofs ∧ s.ofs + sizeofUnknownNode ≤ b.stop ∧ b.Readable ok s.ofs ∧
          t.prevofs = s.ofs ∧ Move b s.acct t.acct) := by
  have hoff := hb.offset
  have hsec := hb.sector
  have hst : b.stop = b.offset + b.sectorSize := rfl
  have h0 : 0 < sizeofUnknownNode := by decide
  obtain ⟨-,he⟩ | ⟨-,-,he⟩ | ⟨hlt,hpar,hprev,he⟩ | ⟨-,-,-,he⟩ | ⟨hpar,hprev,h12,he⟩ :=
    step_cases hb h4 ok <;> rw [h] at he
  · cases he
  · cases he
  · cases he
    exact ⟨hlt,hpar,.inl ⟨hprev,by omega,rfl⟩⟩
  · cases he
  · have hl := look_looked (s := { s with prevofs := s.ofs }) hb h4 h12 ok
    rw [← he] at hl
    exact ⟨by omega,hpar,.inr ⟨hprev,h12,hl.1,hl.2.2,hl.2.1⟩⟩

theorem step_done {r : ℕ} (hb : b.Fits32) (h4 : s.ofs % 4 = 0)
    (h : step b ok s = .error (.done r t)) :
    r = 0 ∧ (b.stop ≤ s.ofs ∧ t = s ∨ s.ofs < b.stop ∧ b.stop < s.ofs + sizeofUnknownNode ∧
      t = ({ s with prevofs := s.ofs } : State).dirtySpace (b.stop - s.ofs)) := by
  obtain ⟨hge,he⟩ | ⟨-,-,he⟩ | ⟨-,-,-,he⟩ | ⟨hlt,-,h12,he⟩ | ⟨-,-,h12,he⟩ := step_cases hb h4 ok <;>
    rw [h] at he
  · grind
  · cases he
  · cases he
  · grind
  · have hl := look_looked (s := { s with prevofs := s.ofs }) hb h4 h12 ok
    rw [← he] at hl
    exact hl.elim

end

end Simpad.Jffs2.Scan
