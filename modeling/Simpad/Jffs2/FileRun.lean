import Simpad.Base.Runs
import Simpad.Jffs2.Gc

/-! Runs of a regular file. A page write is a `prepare`, then rounds of `commit`, then `finish`; `i_sem` and
the lock of the page keep other writers out in between, but not the garbage collector. -/

namespace Simpad.Jffs2
open Word Segments Function

/-- What `jffs2_reserve_space` may give for a data node. -/
abbrev Reservation := {n : ℕ // sizeofRawInode + 128 ≤ n ∧ n < 4294967296}

/-- A page write under way: the locked page, and what is left to be written of it. -/
structure Writer where
  index : ℕ
  buf : Page
  fileOfs : ℕ
  writelen : ℕ

structure FileState where
  ino : Inode
  writer : Option Writer

inductive FileOp
  | prepare (index start stop : ℕ) (data fresh : Page)
  | commit (alloclen : Reservation)
  | finish
  | setattr (size : ℕ)
  | gc (victim : ℕ) (merge : Bool) (alloc : ℕ → Reservation) (fresh : Page)
  | read (index : ℕ) (fresh : Page)
  | evict (index : ℕ)

/-- The page `jffs2_garbage_collect_dnode` will ask for. -/
def gcPage (f : Inode) (victim : ℕ) : Option ℕ :=
  if (f.st.node victim).obsolete ∨ f.metadata = some victim then none
  else
    match victimRange f victim with
    | some (start,stop) =>
      if start / 4096 < sub32 stop 1 / 4096 then none else some (start / 4096)
    | none => none

def FileState.locked (s : FileState) (index : ℕ) : Prop := ∃ w, s.writer = some w ∧ w.index = index

instance (s : FileState) (index : ℕ) : Decidable (s.locked index) :=
  match h : s.writer with
  | none => isFalse (by rintro ⟨w,hw,-⟩; simp [h] at hw)
  | some w => decidable_of_iff (w.index = index) (by simp [FileState.locked,h])

/-- `generic_file_write` up to `jffs2_commit_write`: prepare the page, copy the data into it. -/
def stepPrepare (c : Codecs) (f : Inode) (index start stop : ℕ) (data fresh : Page) :
    Option FileState :=
  match prepareWrite c f index start stop fresh with
  | (_,.error .overrun) => none
  | (f,.error (.errno _)) => some ⟨f,none⟩
  | (f,.ok pg) =>
    let buf : Page := fun k => if start ≤ k ∧ k < stop then data k else pg k
    let mapping :=
      if (f.mapping index).isSome then update f.mapping index (some buf) else f.mapping
    let newsize := max f.isize (u32 (u32 (index * 4096) + stop))
    some ⟨{ f with mapping := mapping },some
      { index := index, buf := buf, fileOfs := u32 (index * 4096)
        writelen := min 4096 (sub32 newsize (u32 (index * 4096))) }⟩

/-- One round of `jffs2_commit_write`. -/
def stepCommit (c : Codecs) (f : Inode) (w : Writer) (alloclen : ℕ) : FileState :=
  let r := commitRound c f w.buf w.fileOfs w.writelen alloclen
  if r.2 = 0 then ⟨r.1,none⟩
  else ⟨r.1,some { w with fileOfs := u32 (w.fileOfs + r.2), writelen := sub32 w.writelen r.2 }⟩

/-- One step; a step that is blocked, or stops the kernel, is refused. -/
def fileStep (c : Codecs) (s : FileState) : FileOp → Option FileState
  | .prepare index start stop data fresh =>
    if s.writer.isNone ∧ start ≤ stop ∧ stop ≤ 4096 ∧ index * 4096 + stop < 4294967296 then
      stepPrepare c s.ino index start stop data fresh
    else none
  | .commit alloclen =>
    match s.writer with
    | some w => if w.writelen = 0 then none else some (stepCommit c s.ino w alloclen.1)
    | none => none
  | .finish =>
    match s.writer with
    | some w => if w.writelen = 0 then some ⟨s.ino,none⟩ else none
    | none => none
  | .setattr size =>
    if s.writer.isNone ∧ size < 4294967296 then
      match s.ino.setattr c size with
      | .ok f => some ⟨f,none⟩
      | .error _ => some s
    else none
  | .gc victim merge alloc fresh =>
    if ∃ index ∈ gcPage s.ino victim, s.locked index ∧ s.ino.mapping index = none then none
    else
      match gcPass c s.ino victim merge (fun k => (alloc k).1) fresh with
      | .ok f => some ⟨f,s.writer⟩
      | .error _ f => some ⟨f,s.writer⟩
      | .bug => none
  | .read index fresh =>
    if s.locked index then none
    else
      match readCachePage c s.ino index fresh with
      | .ok (_,f) => some ⟨f,s.writer⟩
      | .error (.errno _) => some s
      | .error .overrun => none
  | .evict index =>
    if s.locked index then none
    else some ⟨{ s.ino with mapping := update s.ino.mapping index none },s.writer⟩

variable {c : Codecs} {s s' : FileState} {f f' : Inode}

theorem readCachePage_ok {index : ℕ} {fresh pg : Page}
    (hok : readCachePage c f index fresh = .ok (pg,f')) :
    ∃ mapping, f' = { f with mapping := mapping } := by
  unfold readCachePage at hok
  split at hok
  · cases hok
    exact ⟨f.mapping,rfl⟩
  · grind

theorem gcDnode_ok {merge : Bool} {alloc : ℕ → ℕ} {fresh : Page} {start stop : ℕ}
    (hok : gcDnode c f merge alloc fresh start stop = .ok f') :
    let r := gcDnodeRange f merge start stop
    ∃ pg m, readCachePage c f (r.1 / 4096) fresh = .ok (pg,{ f with mapping := m }) ∧
      gcDnodeLoop c pg alloc r.2 stop (stop - r.1) 0 { f with mapping := m } r.1 = some f' := by
  unfold gcDnode at hok
  simp only at hok
  split at hok
  · cases hok
  · cases hok
  · next pg g hread =>
    obtain ⟨m,rfl⟩ := readCachePage_ok hread
    split at hok
    · cases hok
    · next hloop =>
      cases hok
      exact ⟨pg,m,hread,hloop⟩

/-- What the write of a node keeps, the loop keeps. -/
theorem gcDnodeLoop_keeps {P : Inode → Prop} (hnode : ∀ g ri data, P g → P (g.addNode ri data))
    {pg : Page} {alloc : ℕ → ℕ} {stop origEnd fuel k offset : ℕ}
    (hok : gcDnodeLoop c pg alloc stop origEnd fuel k f offset = some f') (hP : P f) : P f' := by
  induction fuel generalizing f k offset with
  | zero =>
    rw [gcDnodeLoop] at hok
    grind
  | succ fuel ih =>
    rw [gcDnodeLoop] at hok
    split at hok
    · exact ih hok (hnode _ _ _ hP)
    · grind

/-- The writer that `stepPrepare` starts on the page `pg`. -/
def startWriter (f : Inode) (index start stop : ℕ) (data pg : Page) : Writer where
  index := index
  buf := fun k => if start ≤ k ∧ k < stop then data k else pg k
  fileOfs := u32 (index * 4096)
  writelen := min 4096 (sub32 (max f.isize (u32 (u32 (index * 4096) + stop))) (u32 (index * 4096)))

def putBuf (mapping : ℕ → Option Page) (w : Writer) : ℕ → Option Page :=
  if (mapping w.index).isSome then update mapping w.index (some w.buf) else mapping

theorem stepPrepare_cases {index start stop : ℕ} {data fresh : Page}
    (h : stepPrepare c f index start stop data fresh = some s') :
    (∃ e, (start ≠ 0 ∨ stop < 4096) ∧
      readCachePage c (prepareHole f (u32 (index * 4096))) index fresh = .error (.errno e) ∧
      s' = ⟨prepareHole f (u32 (index * 4096)),none⟩) ∨
    ∃ pg mapping,
      ((start ≠ 0 ∨ stop < 4096) ∧ readCachePage c (prepareHole f (u32 (index * 4096))) index fresh =
          .ok (pg,{ prepareHole f (u32 (index * 4096)) with mapping := mapping }) ∨
        ¬(start ≠ 0 ∨ stop < 4096) ∧ mapping = (prepareHole f (u32 (index * 4096))).mapping ∧
          pg = (mapping index).getD fresh) ∧
      s' = ⟨{ prepareHole f (u32 (index * 4096)) with
          mapping := putBuf mapping
            (startWriter (prepareHole f (u32 (index * 4096))) index start stop data pg) },
        some (startWriter (prepareHole f (u32 (index * 4096))) index start stop data pg)⟩ := by
  unfold stepPrepare prepareWrite at h
  by_cases hpart : start ≠ 0 ∨ stop < 4096
  · simp only [hpart,if_true] at h
    cases hread : readCachePage c (prepareHole f (u32 (index * 4096))) index fresh with
    | error e =>
      cases e with
      | overrun => simp [hread] at h
      | errno e =>
        grind
    | ok r =>
      obtain ⟨pg,g⟩ := r
      obtain ⟨mapping,rfl⟩ := readCachePage_ok hread
      simp only [hread,Option.some.injEq] at h
      exact Or.inr ⟨pg,mapping,Or.inl ⟨hpart,rfl⟩,h.symm⟩
  · simp only [hpart,if_false,Option.some.injEq] at h
    exact Or.inr ⟨_,_,Or.inr ⟨hpart,rfl,rfl⟩,h.symm⟩

theorem gcPass_error {victim : ℕ} {merge : Bool} {alloc : ℕ → ℕ} {fresh : Page} {e : Errno}
    (h : gcPass c f victim merge alloc fresh = .error e f') : f' = f := by
  unfold gcPass at h
  split at h
  · cases h
  · split at h
    · unfold gcMetadata at h
      split at h <;> cases h
      rfl
    · split at h
      · split at h
        · unfold gcHole at h
          split at h
          · cases h
            rfl
          · split at h
            · cases h
            · simp only at h
              split at h <;> cases h
        · unfold gcDnode at h
          simp only at h
          split at h
          · cases h
            rfl
          · cases h
          · split at h <;> cases h
      · split at h
        · split at h <;> cases h
        · cases h
          rfl

theorem gcPass_cases {victim : ℕ} {merge : Bool} {alloc : ℕ → ℕ} {fresh : Page}
    (hlive : (f.st.node victim).obsolete = false)
    (hok : gcPass c f victim merge alloc fresh = .ok f') :
    (f.metadata = some victim ∧ gcMetadata c f victim = .ok f') ∨
    (f.metadata ≠ some victim ∧ ∃ start stop, victimRange f victim = some (start,stop) ∧
      ((start / 4096 < sub32 stop 1 / 4096 ∧ gcHole f victim start stop = .ok f') ∨
        ¬start / 4096 < sub32 stop 1 / 4096 ∧
          gcDnode c f merge alloc fresh start stop = .ok f')) ∨
    (f.metadata ≠ some victim ∧ victimRange f victim = none ∧ ∃ fd,
      f.dents.find? (fun fd => fd.raw = victim) = some fd ∧
      ((fd.ino ≠ 0 ∧ gcDirent f fd = .ok f') ∨ fd.ino = 0 ∧ gcDeletionDirent f fd = .ok f')) := by
  rw [gcPass,hlive,if_neg (by decide)] at hok
  split at hok
  · next hm => exact Or.inl ⟨hm,hok⟩
  · next hm =>
    split at hok
    · next start stop hr =>
      refine Or.inr (Or.inl ⟨hm,start,stop,hr,?_⟩)
      split at hok
      · next hx => exact Or.inl ⟨hx,hok⟩
      · next hx => exact Or.inr ⟨hx,hok⟩
    · next hr =>
      split at hok
      · next fd hfd =>
        grind
      · cases hok

theorem fileStep_cases {op : FileOp} (h : fileStep c s op = some s') :
    (∃ index start stop data fresh, op = .prepare index start stop data fresh ∧ s.writer = none ∧
      start ≤ stop ∧ stop ≤ 4096 ∧ index * 4096 + stop < 4294967296 ∧
      stepPrepare c s.ino index start stop data fresh = some s') ∨
    (∃ alloclen w, op = .commit alloclen ∧ s.writer = some w ∧ w.writelen ≠ 0 ∧
      s' = stepCommit c s.ino w alloclen.1) ∨
    (∃ w, op = .finish ∧ s.writer = some w ∧ w.writelen = 0 ∧ s' = ⟨s.ino,none⟩) ∨
    (∃ size, op = .setattr size ∧ s.writer = none ∧ size < 4294967296 ∧
      ((∃ f, s.ino.setattr c size = .ok f ∧ s' = ⟨f,none⟩) ∨
        ∃ e, s.ino.setattr c size = .error e ∧ s' = s)) ∨
    (∃ victim merge alloc fresh, op = .gc victim merge alloc fresh ∧
      (∀ index ∈ gcPage s.ino victim, s.locked index → s.ino.mapping index ≠ none) ∧
      ((∃ f, gcPass c s.ino victim merge (fun k => (alloc k).1) fresh = .ok f ∧
          s' = ⟨f,s.writer⟩) ∨
        ∃ e, gcPass c s.ino victim merge (fun k => (alloc k).1) fresh = .error e s.ino ∧ s' = s)) ∨
    (∃ index fresh, op = .read index fresh ∧ ¬s.locked index ∧
      ((∃ pg f, readCachePage c s.ino index fresh = .ok (pg,f) ∧ s' = ⟨f,s.writer⟩) ∨
        ∃ e, readCachePage c s.ino index fresh = .error (.errno e) ∧ s' = s)) ∨
    (∃ index, op = .evict index ∧ ¬s.locked index ∧
      s' = ⟨{ s.ino with mapping := update s.ino.mapping index none },s.writer⟩) := by
  cases op with
  | prepare index start stop data fresh =>
    simp only [fileStep] at h
    split at h
    · next hg =>
      exact Or.inl ⟨_,_,_,_,_,rfl,Option.isNone_iff_eq_none.mp hg.1,hg.2.1,hg.2.2.1,hg.2.2.2,h⟩
    · cases h
  | commit alloclen =>
    simp only [fileStep] at h
    split at h
    · next w hw =>
      grind
    · cases h
  | finish =>
    simp only [fileStep] at h
    split at h
    · grind
    · cases h
  | setattr size =>
    simp only [fileStep] at h
    split at h
    · next hg =>
      refine Or.inr (Or.inr (Or.inr (Or.inl ⟨_,rfl,Option.isNone_iff_eq_none.mp hg.1,hg.2,?_⟩)))
      grind
    · cases h
  | gc victim merge alloc fresh =>
    simp only [fileStep] at h
    split at h
    · cases h
    · next hb =>
      refine Or.inr (Or.inr (Or.inr (Or.inr (Or.inl ⟨_,_,_,_,rfl,?_,?_⟩))))
      · grind
      · split at h
        · grind
        · next e f hf =>
          obtain rfl := gcPass_error hf
          exact Or.inr ⟨e,hf,(Option.some.inj h).symm⟩
        · cases h
  | read index fresh =>
    simp only [fileStep] at h
    split at h
    · cases h
    · next hl =>
      refine Or.inr (Or.inr (Or.inr (Or.inr (Or.inr (Or.inl ⟨_,_,rfl,hl,?_⟩)))))
      grind
  | evict index =>
    simp only [fileStep] at h
    split at h
    · cases h
    · grind

/-- A file as `jffs2_create` leaves it: one node without text. -/
def createdInode : Inode where
  st :=
    { next := 1
      node := fun _ => ⟨.inode
        { totlen := sizeofRawInode, version := 1, mode := .reg, isize := 0, offset := 0
          csize := 0, dsize := 0, compr := .none } [],false,⟨0,0,0⟩⟩ }
  mode := .reg
  isize := 0
  rdev := 0
  highestVersion := 1
  fraglist := []
  metadata := some 0
  dents := []
  mapping := fun _ => none

end Simpad.Jffs2
