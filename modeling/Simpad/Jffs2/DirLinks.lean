import Simpad.Base.ListAt
import Simpad.Base.Runs
import Simpad.Jffs2.Dir

namespace Simpad.Jffs2.Links
open Word ListAt List Function Runs

structure Dir.Sound (dir : Dir) : Prop where
  listed : Listed dir.dents
  version : ∀ fd ∈ dir.dents, fd.version ≤ dir.highestVersion

/-- The counters of an inode with a live entry. -/
def Fs.Agree (s : Fs) (k : ℕ) : Prop :=
  ∃ i, s.inodes k = some i ∧ i.nlink = some (s.links k : ℤ) ∧ i.iNlink.toNat = s.links k

structure Fs.Sound (s : Fs) : Prop where
  dirs : ∀ dir ∈ s.dirs, dir.Sound
  inos : ∀ dir ∈ s.dirs, ∀ fd ∈ dir.dents, fd.ino ≤ s.highestIno
  agree : ∀ k, k ≠ 0 → 0 < s.links k → s.Agree k

def Fs.at (s : Fs) (d : ℕ) (name : List Byte) (k : ℕ) : ℕ := if s.find d name = some k then 1 else 0

section
variable {dir : Dir} (h : dir.Sound) (hr : dir.highestVersion + 1 < 4294967296) (ino type : ℕ)
  (name : List Byte)
include h hr

theorem Dir.Sound.version_le : ∀ fd ∈ dir.dents, fd.version ≤ u32 (dir.highestVersion + 1) := by
  intro fd hfd
  rw [u32_of_lt hr]
  exact Nat.le_succ_of_le (h.version fd hfd)

theorem Dir.Sound.write (o : Outcome) : (dir.write ino type name o).1.Sound := by
  cases o with
  | refused => exact h
  | failed => exact ⟨h.listed,h.version_le hr⟩
  | ok raw =>
    refine ⟨listed_addFd h.listed rfl,fun fd hfd => ?_⟩
    rcases mem_addFd hfd with rfl | hfd
    · exact le_rfl
    · exact h.version_le hr fd hfd

theorem Dir.Sound.lookup_write (raw : ℕ) (n : List Byte) :
    lookup (dir.write ino type name (.ok raw)).1.dents n =
      if cstring name = n then some ⟨raw,u32 (dir.highestVersion + 1),ino,type,
        fullNameHash (cstring name),name⟩ else lookup dir.dents n := by
  rw [(h.write hr ino type name (.ok raw)).listed.lookup,h.listed.lookup]
  exact entry_addFd h.listed rfl (h.version_le hr) n

theorem Dir.Sound.count_write (raw k : ℕ) :
    count k (dir.write ino type name (.ok raw)).1.dents + hit k (lookup dir.dents (cstring name)) =
      count k dir.dents + if ino = k then 1 else 0 := by
  rw [h.listed.lookup]
  refine (count_addFd h.listed rfl (h.version_le hr) k).trans ?_
  simp [hit]

end

/-- The versions of a directory leave room for `n` more. -/
def Fs.Room (s : Fs) (d n : ℕ) : Prop :=
  ∀ dir, s.dirs[d]? = some dir → dir.highestVersion + n < 4294967296

variable {ino type n k d : ℕ} {s t : Fs} {b : Bool} {o : Outcome} {name : List Byte}

theorem mem_write {dir : Dir} {fd : FullDirent} (h : fd ∈ (dir.write ino type name o).1.dents) :
    fd.ino = ino ∨ fd ∈ dir.dents := by
  cases o with
  | refused | failed => exact Or.inr h
  | ok raw =>
    rcases mem_addFd h with rfl | h
    · exact Or.inl rfl
    · exact Or.inr h

theorem write_inodes (s : Fs) (d ino type : ℕ) (name : List Byte) (o : Outcome) :
    (s.write d ino type name o).1.inodes = s.inodes ∧
      (s.write d ino type name o).1.highestIno = s.highestIno := by
  unfold Fs.write
  grind

structure Fs.Wrote (s t : Fs) (d ino : ℕ) (name : List Byte) : Prop where
  links : ∀ k, k ≠ 0 → t.links k + s.at d name k = s.links k + if ino = k then 1 else 0
  find : ∀ d' n, t.find d' n =
    if d' = d ∧ n = name then if ino = 0 then none else some ino else s.find d' n

structure Fs.Same (s t : Fs) : Prop where
  links : ∀ k, t.links k = s.links k
  find : ∀ d n, t.find d n = s.find d n

section
variable {s : Fs} (hs : ∀ dir ∈ s.dirs, dir.Sound) {d ino type : ℕ} {name : List Byte}
  (hr : s.Room d 1)

include hs hr in
theorem write_sound (o : Outcome) : ∀ dir ∈ (s.write d ino type name o).1.dirs, dir.Sound := by
  unfold Fs.write
  split
  · exact hs
  · intro x hx
    obtain ⟨j,hj⟩ := mem_iff_getElem?.mp hx
    obtain ⟨y,hy,rfl⟩ := getElem?_modify_some hj
    have hsy := hs y (mem_of_getElem? hy)
    split_ifs with hjd
    · subst hjd
      exact hsy.write (hr y hy) ino type name o
    · exact hsy

theorem write_inos (hi : ∀ dir ∈ s.dirs, ∀ fd ∈ dir.dents, fd.ino ≤ n) (hino : ino ≤ n)
    (o : Outcome) : ∀ dir ∈ (s.write d ino type name o).1.dirs, ∀ fd ∈ dir.dents, fd.ino ≤ n := by
  unfold Fs.write
  split
  · exact hi
  · intro x hx fd hfd
    obtain ⟨j,hj⟩ := mem_iff_getElem?.mp hx
    obtain ⟨y,hy,rfl⟩ := getElem?_modify_some hj
    split_ifs at hfd
    · rcases mem_write hfd with he | hfd
      · omega
      · exact hi y (mem_of_getElem? hy) fd hfd
    · exact hi y (mem_of_getElem? hy) fd hfd

theorem write_room {d' : ℕ} (hroom : s.Room d' (n + 1)) (o : Outcome) :
    (s.write d ino type name o).1.Room d' n := by
  have hle : ∀ dir : Dir, (dir.write ino type name o).1.highestVersion ≤ dir.highestVersion + 1 := by
    intro dir
    cases o with
    | refused => exact Nat.le_succ _
    | failed | ok => exact Nat.mod_le _ _
  unfold Fs.write
  split
  · intro dir hdir
    have := hroom dir hdir
    omega
  · intro x hx
    obtain ⟨y,hy,rfl⟩ := getElem?_modify_some hx
    have hy' := hroom y hy
    have hle' := hle y
    grind

theorem write_false (h : (s.write d ino type name o).2 = false) :
    s.Same (s.write d ino type name o).1 := by
  unfold Fs.write at h ⊢
  split at h
  · exact ⟨fun _ => rfl,fun _ _ => rfl⟩
  · have hdents : ∀ dir : Dir, (dir.write ino type name o).1.dents = dir.dents := by
      cases o with
      | refused | failed => exact fun _ => rfl
      | ok raw => cases h
    refine ⟨fun k => ?_,fun d' n => ?_⟩
    · unfold Fs.links
      rw [map_modify (g := fun dir : Dir => count k dir.dents)]
      grind
    · unfold Fs.find
      grind

theorem hit_lookup {dir : Dir} (hd : s.dirs[d]? = some dir) (hk : k ≠ 0) :
    hit k (lookup dir.dents name) = s.at d name k := by
  unfold Fs.at Fs.find hit
  rw [hd,Option.bind_some]
  cases lookup dir.dents name with
  | none => rfl
  | some fd =>
    grind

include hs hr in
theorem write_true (hn : 0 ∉ name) (h : (s.write d ino type name o).2 = true) :
    s.Wrote (s.write d ino type name o).1 d ino name := by
  have hname := cstring_of_not_mem hn
  unfold Fs.write at h ⊢
  split at h
  · cases h
  · rename_i dir hd
    have hdir := hs dir (mem_of_getElem? hd)
    cases o with
    | refused | failed => cases h
    | ok raw =>
      refine ⟨fun k hk => ?_,fun d' n => ?_⟩
      · have hc := hdir.count_write (hr dir hd) ino type name raw k
        rw [hname,hit_lookup hd hk] at hc
        obtain ⟨pre,post,hl,-,hmod⟩ := split_at hd
        unfold Fs.links
        grind
      · unfold Fs.find
        rw [getElem?_modify,Option.map_eq_map,Option.bind_map]
        by_cases hdd : d = d'
        · subst hdd
          rw [hd,Option.bind_some,Option.bind_some,Function.comp_apply,if_pos rfl,
            hdir.lookup_write (hr dir hd) ino type name,hname]
          grind
        · grind

end

theorem count_pos {l : List FullDirent} {fd : FullDirent} (h : fd ∈ l) (hk : fd.ino = k) :
    0 < count k l := countP_pos_iff.mpr ⟨fd,h,by simpa using hk⟩

theorem Fs.Sound.find_pos (hs : s.Sound) (h : s.find d name = some k) : k ≠ 0 ∧ 0 < s.links k := by
  obtain ⟨dir,hd,h⟩ := Option.bind_eq_some_iff.mp h
  obtain ⟨fd,hfd,h⟩ := Option.bind_eq_some_iff.mp h
  split_ifs at h with h0
  cases h
  have hm := mem_of_getElem? hd
  rw [(hs.dirs dir hm).listed.lookup] at hfd
  refine ⟨h0,lt_of_lt_of_le (count_pos (entry_some hfd).1 rfl) ?_⟩
  exact single_le_sum (fun x _ => Nat.zero_le x) _
    (mem_map_of_mem (f := fun dir : Dir => count fd.ino dir.dents) hm)

theorem Fs.Sound.links_eq_zero (hs : s.Sound) (hk : s.highestIno < k) : s.links k = 0 := by
  refine sum_eq_zero fun n hn => ?_
  obtain ⟨dir,hdir,rfl⟩ := mem_map.mp hn
  refine countP_eq_zero.mpr fun fd hfd => ?_
  have hle := hs.inos dir hdir fd hfd
  grind

theorem Fs.Agree.congr (h : s.Agree k) (hl : t.links k = s.links k) (hi : t.inodes k = s.inodes k) :
    t.Agree k := by
  obtain ⟨i,h₁,h₂,h₃⟩ := h
  exact ⟨i,hi.trans h₁,by rw [hl]; exact h₂,by rw [hl]; exact h₃⟩

theorem Fs.Sound.write_false (hs : s.Sound) (hr : s.Room d 1) (hino : ino ≤ s.highestIno)
    (h : (s.write d ino type name o).2 = false) : (s.write d ino type name o).1.Sound := by
  obtain ⟨hin,hhi⟩ := write_inodes s d ino type name o
  have hsame := Links.write_false h
  refine ⟨write_sound hs.dirs hr o,?_,fun k hk hpos => ?_⟩
  · rw [hhi]
    exact write_inos hs.inos hino o
  · have hl := hsame.links k
    exact (hs.agree k hk (hl ▸ hpos)).congr hl (congrFun hin k)

theorem setNlink_eq {i : VfsInode} {n : ℤ} (hi : s.inodes ino = some i) (hn : i.nlink = some n)
    (f : BitVec 16 → ℤ → BitVec 16 × ℤ) :
    s.setNlink ino f = some ⟨s.dirs,update s.inodes ino
      (some ⟨i.mode,(f i.iNlink n).1,some (f i.iNlink n).2⟩),s.highestIno⟩ := by
  unfold Fs.setNlink
  grind

theorem toNat_sub_one {x : BitVec 16} (h : x.toNat = n) (hn : 0 < n) : (x - 1).toNat = n - 1 := by
  have h1 : (1 : BitVec 16).toNat = 1 := rfl
  rw [BitVec.toNat_sub,h1]
  omega

theorem toNat_ofInt_succ (h : n < 65535) : (BitVec.ofInt 16 ((n : ℤ) + 1)).toNat = n + 1 := by
  rw [BitVec.toNat_ofInt]
  omega

/-- The steps of the runs: versions, inode numbers and link counts have room, and a rename that
has made its link also removes the old name. -/
def Allowed (s : Fs) : Op → Prop
  | .create d _ _ _ => s.Room d 1 ∧ s.highestIno + 1 < 4294967296
  | .link oldDir oldName d _ _ =>
    s.Room d 1 ∧ ∀ ino, s.find oldDir oldName = some ino → s.links ino < 65535
  | .unlink d _ _ => s.Room d 1
  | .rename oldDir _ d _ o₁ o₂ =>
    s.Room d 2 ∧ s.Room oldDir 2 ∧ ((∃ raw, o₁ = .ok raw) → ∃ raw, o₂ = .ok raw)

section
variable (hs : s.Sound)
include hs

theorem Fs.Sound.newInode (hi : s.highestIno + 1 < 4294967296) (mode : ℕ) :
    (s.newInode mode).Sound := by
  have hu := u32_of_lt hi
  refine ⟨hs.dirs,fun dir hd fd hfd => ?_,fun k hk hpos => ?_⟩
  · show fd.ino ≤ u32 (s.highestIno + 1)
    rw [hu]
    exact Nat.le_succ_of_le (hs.inos dir hd fd hfd)
  · have hne : k ≠ u32 (s.highestIno + 1) := by
      rintro rfl
      rw [hu] at hpos
      exact absurd (hs.links_eq_zero (Nat.lt_succ_self _)) hpos.ne'
    exact (hs.agree k hk hpos).congr rfl (update_of_ne hne _ _)

theorem Fs.Sound.create {mode : ℕ} {o : Creation} (hr : s.Room d 1)
    (hi : s.highestIno + 1 < 4294967296) (hn : 0 ∉ name) (hf : s.find d name = none) :
    (s.create d name mode o).1.Sound := by
  have ht := hs.newInode hi mode
  cases o with
  | refused => exact hs
  | inodeFailed => exact ht
  | dirent o =>
    show ((s.newInode mode).write d (s.newInode mode).highestIno dtReg name o).1.Sound
    cases hw : ((s.newInode mode).write d (s.newInode mode).highestIno dtReg name o).2 with
    | false => exact ht.write_false hr le_rfl hw
    | true =>
      obtain ⟨hin,hhi⟩ := write_inodes (s.newInode mode) d (s.newInode mode).highestIno dtReg name o
      have hwrote := write_true ht.dirs hr hn hw
      have hu := u32_of_lt hi
      have hat : ∀ k, (s.newInode mode).at d name k = 0 := by
        intro k
        refine if_neg ?_
        show ¬s.find d name = some k
        grind
      refine ⟨write_sound ht.dirs hr o,?_,fun k hk hpos => ?_⟩
      · rw [hhi]
        exact write_inos ht.inos le_rfl o
      · have hl := hwrote.links k hk
        rw [hat k,add_zero] at hl
        by_cases hkn : (s.newInode mode).highestIno = k
        · have hz : (s.newInode mode).links k = 0 := by
            refine hs.links_eq_zero (k := k) ?_
            rw [← hkn]
            show s.highestIno < u32 (s.highestIno + 1)
            omega
          rw [if_pos hkn,hz] at hl
          refine ⟨⟨mode,1,some 1⟩,?_,?_,?_⟩
          · rw [hin,← hkn]
            exact update_self _ _ _
          · rw [hl]
            rfl
          · rw [hl]
            rfl
        · rw [if_neg hkn,add_zero] at hl
          exact (ht.agree k hk (hl ▸ hpos)).congr hl (congrFun hin k)

theorem Fs.Sound.doLink (hr : s.Room d 1) (hino : ino ≤ s.highestIno) (h0 : ino ≠ 0)
    (hpos : 0 < s.links ino) (hmax : s.links ino < 65535) (hn : 0 ∉ name)
    (hf : s.find d name = none) (h : s.doLink ino d name false o = some (t,b)) : t.Sound := by
  obtain ⟨i,hi,hnl,hil⟩ := hs.agree ino h0 hpos
  unfold Fs.doLink at h
  rw [hi,Option.bind_some] at h
  dsimp only at h
  obtain ⟨hin,hhi⟩ := write_inodes s d ino (linkType i.mode) name o
  cases hw : (s.write d ino (linkType i.mode) name o).2 with
  | false =>
    rw [hw,if_neg (by simp)] at h
    have ht : _ = t := congrArg Prod.fst (Option.some.inj h)
    rw [← ht]
    exact hs.write_false hr hino hw
  | true =>
    have hwrote := write_true hs.dirs hr hn hw
    have hl : ∀ k, k ≠ 0 → (s.write d ino (linkType i.mode) name o).1.links k =
        s.links k + if ino = k then 1 else 0 := by
      intro k hk
      have hl := hwrote.links k hk
      rwa [show s.at d name k = 0 from if_neg (by grind),
        add_zero] at hl
    rw [hw,if_pos (by simp),setNlink_eq (by rw [hin]; exact hi) hnl] at h
    cases h
    refine ⟨write_sound hs.dirs hr o,?_,fun k hk hk' => ?_⟩
    · rw [hhi]
      exact write_inos hs.inos hino o
    · have hlk := hl k hk
      by_cases hik : ino = k
      · subst hik
        rw [if_pos rfl] at hlk
        refine ⟨_,update_self _ _ _,?_,?_⟩
        · show some _ = some (((s.write d ino (linkType i.mode) name o).1.links ino : ℕ) : ℤ)
          rw [hlk]
          rfl
        · exact (toNat_ofInt_succ hmax).trans hlk.symm
      · rw [if_neg hik,add_zero] at hlk
        refine (hs.agree k hk (hlk ▸ hk')).congr hlk ?_
        exact (update_of_ne (Ne.symm hik) _ _).trans (congrFun hin k)

omit hs in
theorem unlink_links (hs : ∀ dir ∈ s.dirs, dir.Sound) (hr : s.Room d 1) (hn : 0 ∉ name)
    (hf : s.find d name = some ino) (hw : (s.write d 0 type name o).2 = true) (hk : k ≠ 0) :
    (s.write d 0 type name o).1.links k + (if ino = k then 1 else 0) = s.links k := by
  have hl := (write_true hs hr hn hw).links k hk
  rw [if_neg hk.symm,add_zero] at hl
  simp [← hl,Fs.at,hf]

theorem Fs.Sound.doUnlink (hr : s.Room d 1) (hn : 0 ∉ name)
    (hf : s.find d name = some ino) (h : s.doUnlink d name ino false o = some (t,b)) : t.Sound := by
  obtain ⟨h0,hpos⟩ := hs.find_pos hf
  obtain ⟨i,hi,hnl,hil⟩ := hs.agree ino h0 hpos
  unfold Fs.doUnlink at h
  dsimp only at h
  obtain ⟨hin,hhi⟩ := write_inodes s d 0 dtUnknown name o
  cases hw : (s.write d 0 dtUnknown name o).2 with
  | false =>
    rw [hw,if_neg (by simp)] at h
    have ht : _ = t := congrArg Prod.fst (Option.some.inj h)
    rw [← ht]
    exact hs.write_false hr (Nat.zero_le _) hw
  | true =>
    rw [hw,if_pos (by simp),setNlink_eq (by rw [hin]; exact hi) hnl] at h
    cases h
    refine ⟨write_sound hs.dirs hr o,?_,fun k hk hk' => ?_⟩
    · rw [hhi]
      exact write_inos hs.inos (Nat.zero_le _) o
    · have hlk := unlink_links hs.dirs hr hn hf hw hk
      by_cases hik : ino = k
      · subst hik
        rw [if_pos rfl] at hlk
        refine ⟨_,update_self _ _ _,?_,?_⟩
        · show some _ = some (((s.write d 0 dtUnknown name o).1.links ino : ℕ) : ℤ)
          grind
        · refine (toNat_sub_one hil hpos).trans ?_
          show _ = (s.write d 0 dtUnknown name o).1.links ino
          omega
      · rw [if_neg hik,add_zero] at hlk
        refine (hs.agree k hk (hlk ▸ hk')).congr hlk ?_
        exact (update_of_ne (Ne.symm hik) _ _).trans (congrFun hin k)

omit hs in
theorem write_ok (h : (s.write d ino type name o).2 = true) : ∃ raw, o = .ok raw := by
  unfold Fs.write at h
  split at h
  · cases h
  · cases o with
    | ok raw => exact ⟨raw,rfl⟩
    | refused | failed => cases h

omit hs in
theorem write_of_find (raw : ℕ) (h : s.find d name = some k) :
    (s.write d ino type name (.ok raw)).2 = true := by
  obtain ⟨dir,hd,-⟩ := Option.bind_eq_some_iff.mp h
  unfold Fs.write
  rw [hd]
  rfl

theorem Fs.Sound.ino_le (h : s.find d name = some k) : k ≤ s.highestIno := by
  by_contra hn
  exact absurd (hs.links_eq_zero (not_le.mp hn)) (hs.find_pos h).2.ne'

theorem Fs.Sound.replaced {u : Fs} (hdirs : ∀ dir ∈ u.dirs, dir.Sound)
    (hinos : ∀ dir ∈ u.dirs, ∀ fd ∈ dir.dents, fd.ino ≤ u.highestIno)
    (hlinks : ∀ k, k ≠ 0 → u.links k + s.at d name k = s.links k)
    (hin : u.inodes = ((s.find d name).elim s s.killVictim).inodes) : u.Sound := by
  refine ⟨hdirs,hinos,fun k hk hpos => ?_⟩
  have hl := hlinks k hk
  unfold Fs.at at hl
  cases hf : s.find d name with
  | none =>
    rw [hf,if_neg (fun h => nomatch h),add_zero] at hl
    rw [hf] at hin
    exact (hs.agree k hk (hl ▸ hpos)).congr hl (congrFun hin k)
  | some v =>
    rw [hf] at hl hin
    by_cases hvk : v = k
    · subst hvk
      rw [if_pos rfl] at hl
      obtain ⟨i,hi,hnl,hil⟩ := hs.agree v hk (by omega)
      refine ⟨⟨i.mode,i.iNlink - 1,i.nlink.map fun n => n - 1⟩,?_,?_,?_⟩
      · rw [hin]
        show update s.inodes v _ v = _
        grind
      · grind
      · refine (toNat_sub_one hil (by omega)).trans ?_
        omega
    · rw [if_neg fun h => hvk (Option.some.inj h),add_zero] at hl
      refine (hs.agree k hk (hl ▸ hpos)).congr hl ?_
      rw [hin]
      exact update_of_ne (Ne.symm hvk) _ _

theorem Fs.Sound.rename {oldDir : ℕ} {oldName : List Byte} {o₁ o₂ : Outcome}
    (hr : s.Room d 2) (hr' : s.Room oldDir 2) (ho : (∃ raw, o₁ = .ok raw) → ∃ raw, o₂ = .ok raw)
    (hn : 0 ∉ name) (hn' : 0 ∉ oldName) (hf : s.find oldDir oldName = some ino)
    (hne : s.find d name ≠ some ino)
    (h : s.rename ino (s.find d name) oldDir oldName d name o₁ o₂ = some (t,b)) : t.Sound := by
  obtain ⟨h0,hpos⟩ := hs.find_pos hf
  obtain ⟨i,hi,hnl,hil⟩ := hs.agree ino h0 hpos
  have hr₁ : s.Room d 1 := fun dir hd => lt_trans (by omega) (hr dir hd)
  unfold Fs.rename Fs.doLink at h
  rw [hi,Option.bind_some] at h
  simp only [Bool.not_true,Bool.false_eq_true,and_false,if_false,Option.bind_some] at h
  cases hw : (s.write d ino (linkType i.mode) name o₁).2 with
  | false =>
    rw [hw,Bool.not_false,if_pos rfl] at h
    have ht : _ = t := congrArg Prod.fst (Option.some.inj h)
    rw [← ht]
    exact hs.write_false hr₁ (hs.ino_le hf) hw
  | true =>
    obtain ⟨hin,hhi⟩ := write_inodes s d ino (linkType i.mode) name o₁
    obtain ⟨raw,rfl⟩ := ho (write_ok hw)
    have hwrote := write_true hs.dirs hr₁ hn hw
    have hdirs : ∀ dir ∈ (s.write d ino (linkType i.mode) name o₁).1.dirs, dir.Sound :=
      write_sound hs.dirs hr₁ o₁
    have hroom : (s.write d ino (linkType i.mode) name o₁).1.Room oldDir 1 := write_room hr' o₁
    have hinos : ∀ dir ∈ (s.write d ino (linkType i.mode) name o₁).1.dirs, ∀ fd ∈ dir.dents,
        fd.ino ≤ s.highestIno := write_inos hs.inos (hs.ino_le hf) o₁
    rw [hw,Bool.not_true,if_neg Bool.false_ne_true] at h
    generalize (s.write d ino (linkType i.mode) name o₁).1 = r at *
    -- the victim's counters aside, the second half runs on the directories the first has left
    have hkill : ((s.find d name).elim r r.killVictim).dirs = r.dirs ∧
        ((s.find d name).elim r r.killVictim).highestIno = r.highestIno ∧
        ((s.find d name).elim r r.killVictim).inodes =
          ((s.find d name).elim s s.killVictim).inodes := by
      cases s.find d name with
      | none => exact ⟨rfl,rfl,hin⟩
      | some v => exact ⟨rfl,rfl,by simp only [Option.elim,Fs.killVictim,hin]⟩
    generalize (s.find d name).elim r r.killVictim = q at *
    obtain ⟨hqd,hqh,hqi⟩ := hkill
    have hqfind : ∀ d' n, q.find d' n = r.find d' n := fun d' n => by rw [Fs.find,Fs.find,hqd]
    have hqlinks : ∀ k, q.links k = r.links k := fun k => by rw [Fs.links,Fs.links,hqd]
    have hqf : q.find oldDir oldName = some ino := by
      rw [hqfind,hwrote.find,if_neg ?_,hf]
      grind
    have hqs : ∀ dir ∈ q.dirs, dir.Sound := by rw [hqd]; exact hdirs
    have hqr : q.Room oldDir 1 := by
      intro dir hdir
      rw [hqd] at hdir
      exact hroom dir hdir
    have hw' : (q.write oldDir 0 dtUnknown oldName (.ok raw)).2 = true := write_of_find raw hqf
    obtain ⟨hin',hhi'⟩ := write_inodes q oldDir 0 dtUnknown oldName (.ok raw)
    unfold Fs.doUnlink at h
    simp only [Bool.not_true,Bool.false_eq_true,and_false,if_false,Option.bind_some,hw',if_true] at h
    have ht : _ = t := congrArg Prod.fst (Option.some.inj h)
    rw [← ht]
    refine hs.replaced (d := d) (write_sound hqs hqr _) ?_ (fun k hk => ?_) (hin'.trans hqi)
    · rw [hhi',hqh,hhi]
      refine write_inos ?_ (Nat.zero_le _) _
      rw [hqd]
      exact hinos
    · have hu := unlink_links hqs hqr hn' hqf hw' hk
      have hl := hwrote.links k hk
      grind

theorem Fs.Sound.stepped {o : Op} (ha : Allowed s o) (h : step s o = some t) :
    t.Sound := by
  cases o with
  | create d name mode o =>
    obtain ⟨hc,ht⟩ := Option.ite_none_right_eq_some.mp h
    cases ht
    exact hs.create ha.1 ha.2 hc.1 hc.2
  | link oldDir oldName d name o =>
    obtain ⟨ino,hf,h⟩ := Option.bind_eq_some_iff.mp h
    obtain ⟨hc,h⟩ := Option.ite_none_right_eq_some.mp h
    obtain ⟨⟨u,b⟩,hu,rfl⟩ := Option.map_eq_some_iff.mp h
    obtain ⟨i,hi,hu⟩ := Option.bind_eq_some_iff.mp hu
    obtain ⟨h0,hpos⟩ := hs.find_pos hf
    split_ifs at hu
    · cases hu
      exact hs
    · exact hs.doLink ha.1 (hs.ino_le hf) h0 hpos (ha.2 ino hf) hc.1 hc.2 hu
  | unlink d name o =>
    obtain ⟨ino,hf,h⟩ := Option.bind_eq_some_iff.mp h
    obtain ⟨hc,h⟩ := Option.ite_none_right_eq_some.mp h
    obtain ⟨⟨u,b⟩,hu,rfl⟩ := Option.map_eq_some_iff.mp h
    exact hs.doUnlink ha hc.1 hf hu
  | rename oldDir oldName d name o₁ o₂ =>
    obtain ⟨ino,hf,h⟩ := Option.bind_eq_some_iff.mp h
    by_cases hsame : s.find d name = some ino
    · grind
    · rw [if_neg hsame] at h
      obtain ⟨hc,h⟩ := Option.ite_none_right_eq_some.mp h
      obtain ⟨⟨u,b⟩,hu,rfl⟩ := Option.map_eq_some_iff.mp h
      exact hs.rename ha.1 ha.2.1 ha.2.2 hc.2.1 hc.1 hf hsame hu

end

/-- In every run in which no rename makes its link without removing the old name, and no version,
inode number or link count overflows, the counters of every inode with a live entry are the number
of its live entries. -/
theorem link_counts {s t : Fs} {ops : List Op} (hs : s.Sound) (hm : Meets step Allowed s ops)
    (hr : run step s ops = some t) {k : ℕ} (hk : k ≠ 0) (hpos : 0 < t.links k) : t.Agree k :=
  (invariant step (fun _ _ _ h ha hst => h.stepped ha hst) hs hm hr).agree k hk hpos

def Fs.empty : Fs := ⟨[⟨[],0⟩],fun _ => none,1⟩

theorem Fs.sound_empty : Fs.empty.Sound := by
  have hnil : ∀ dir ∈ Fs.empty.dirs, dir.dents = [] := by
    intro dir hd
    rw [mem_singleton.mp hd]
  refine ⟨fun dir hd => ⟨?_,?_⟩,fun dir hd => ?_,fun k hk hpos => absurd hpos (lt_irrefl 0)⟩ <;>
    rw [hnil dir hd]
  · exact .nil
  · simp
  · simp

theorem link_counts_renamed :
    ∃ t, run step Fs.empty
        [.create 0 [97] 0o100644 (.dirent (.ok 68)),.link 0 [97] 0 [98] (.ok 112),
          .rename 0 [97] 0 [99] (.ok 156) (.ok 200),.unlink 0 [98] (.ok 244)] = some t ∧
      t.links 2 = 1 ∧ t.Agree 2 := by
  have hm : Meets step Allowed Fs.empty
      [.create 0 [97] 0o100644 (.dirent (.ok 68)),.link 0 [97] 0 [98] (.ok 112),
        .rename 0 [97] 0 [99] (.ok 156) (.ok 200),.unlink 0 [98] (.ok 244)] := by
    refine ⟨⟨fun dir hd => ?_,by decide⟩,fun _ h => ?_⟩
    · cases hd
      decide
    cases h
    refine ⟨⟨fun dir hd => ?_,fun ino hf => ?_⟩,fun _ h => ?_⟩
    · cases hd
      decide
    · cases hf
      decide
    cases h
    refine ⟨⟨fun dir hd => ?_,fun dir hd => ?_,fun _ => ⟨200,rfl⟩⟩,fun _ h => ?_⟩
    · cases hd
      decide
    · cases hd
      decide
    cases h
    refine ⟨fun dir hd => ?_,fun _ _ => trivial⟩
    cases hd
    decide
  exact ⟨_,rfl,rfl,link_counts Fs.sound_empty hm rfl (by decide) (by decide)⟩

/-- A rename whose second half is refused: the file has two names and `nlink` two, but `i_nlink`
is one. -/
theorem link_counts_differ :
    ∃ t i, run step Fs.empty
        [.create 0 [97] 0o100644 (.dirent (.ok 68)),.rename 0 [97] 0 [98] (.ok 112) .refused] =
        some t ∧
      t.links 2 = 2 ∧ t.inodes 2 = some i ∧ i.nlink = some 2 ∧ i.iNlink = 1 ∧ ¬t.Agree 2 := by
  refine ⟨_,_,rfl,rfl,rfl,rfl,rfl,?_⟩
  rintro ⟨i,hi,-,hil⟩
  cases hi
  exact absurd hil (by decide)

end Simpad.Jffs2.Links
