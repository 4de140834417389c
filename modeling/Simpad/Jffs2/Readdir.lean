import Simpad.Base.Runs
import Simpad.Jffs2.Direntlist

namespace Simpad.Jffs2.Readdir

open List Runs

/-- What is handed to `filldir`. -/
inductive Item
  | dot
  | dotdot
  | name (s : List Byte)
deriving DecidableEq

/-- The loop of `jffs2_readdir`; `filldir` takes `accept` more items and refuses the next. -/
def readdirLoop : List FullDirent → ℕ → ℕ → ℕ → List Item → ℕ × List Item
  | [], _, offset, _, out => (offset,out)
  | fd :: dents, curofs, offset, accept, out =>
    let curofs := curofs + 1
    if curofs < offset then readdirLoop dents curofs offset accept out
    else if fd.ino = 0 then readdirLoop dents curofs (offset + 1) accept out
    else
      match accept with
      | 0 => (offset,out)
      | accept + 1 =>
        readdirLoop dents curofs (offset + 1) accept (out ++ [.name (cstring fd.name)])

/-- `.` and `..`, which have the offsets 0 and 1; a refusal ends the call. -/
def emitDot (i : ℕ) (item : Item) (s : ℕ × ℕ × List Item) :
    Except (ℕ × List Item) (ℕ × ℕ × List Item) :=
  if s.1 = i then
    match s.2.1 with
    | 0 => .error (s.1,s.2.2)
    | accept + 1 => .ok (s.1 + 1,accept,s.2.2 ++ [item])
  else .ok s

/-- `jffs2_readdir`: the new position and the items. -/
def readdir (dents : List FullDirent) (pos accept : ℕ) : ℕ × List Item :=
  match (emitDot 0 .dot (pos,accept,[])).bind (emitDot 1 .dotdot) with
  | .error r => r
  | .ok (offset,accept,out) => readdirLoop dents 1 offset accept out

/-- A directory with its `highest_version`, and an open file on it with all it has returned. -/
structure Dir where
  dents : List FullDirent
  highest : ℕ
  pos : ℕ
  out : List Item
deriving DecidableEq

inductive Action
  | readdir (accept : ℕ)
  /-- a new dirent: a name is created, or unlinked with `ino` zero -/
  | add (name : List Byte) (raw ino type : ℕ)
  /-- `jffs2_garbage_collect_deletion_dirent` -/
  | collect (fd : FullDirent)
deriving DecidableEq

/-- The dirent that is made for a name. -/
def Dir.fd (d : Dir) (name : List Byte) (raw ino type : ℕ) : FullDirent :=
  ⟨raw,d.highest + 1,ino,type,fullNameHash (cstring name),name⟩

def step (d : Dir) : Action → Option Dir
  | .readdir accept =>
    let r := readdir d.dents d.pos accept
    some { d with pos := r.1, out := d.out ++ r.2 }
  | .add name raw ino type =>
    some { d with
      dents := (addFdToList (d.fd name raw ino type) d.dents).1
      highest := d.highest + 1 }
  | .collect fd =>
    if fd ∈ d.dents ∧ fd.ino = 0 then some { d with dents := d.dents.erase fd } else none

def Present (name : List Byte) (d : Dir) : Prop :=
  ∃ fd ∈ d.dents, cstring fd.name = name ∧ fd.ino ≠ 0

instance (name : List Byte) (d : Dir) : Decidable (Present name d) :=
  inferInstanceAs (Decidable (∃ fd ∈ d.dents, _))

/-- Nothing goes into the list or out of it in front of the position: a new name has no entry yet and
comes behind all with its hash or a lower one. -/
def Safe (d : Dir) : Action → Prop
  | .readdir _ => True
  | .add name _ _ _ =>
    (∃ fd ∈ d.dents, cstring fd.name = cstring name) ∨
      d.pos - 2 ≤ (d.dents.takeWhile fun fd => fd.nhash ≤ fullNameHash (cstring name)).length
  | .collect fd => d.pos - 2 ≤ d.dents.idxOf fd

instance (d : Dir) : (a : Action) → Decidable (Safe d a)
  | .readdir _ => isTrue trivial
  | .add _ _ _ _ => inferInstanceAs (Decidable (_ ∨ _))
  | .collect _ => inferInstanceAs (Decidable (_ ≤ _))

def items (l : List FullDirent) : List Item :=
  (l.filter fun fd => fd.ino ≠ 0).map fun fd => .name (cstring fd.name)

theorem items_cons_deleted {fd : FullDirent} (h : fd.ino = 0) (l : List FullDirent) :
    items (fd :: l) = items l := by
  rw [items,filter_cons_of_neg (by simpa using h)]
  rfl

theorem items_cons_live {fd : FullDirent} (h : fd.ino ≠ 0) (l : List FullDirent) :
    items (fd :: l) = .name (cstring fd.name) :: items l := by
  rw [items,filter_cons_of_pos (by simpa using h)]
  rfl

section
variable {dents : List FullDirent} {pos : ℕ}

/-- The loop leaves `k` entries out and moves over `m` of the rest, deleted ones too. -/
theorem readdirLoop_spec (k curofs accept : ℕ) (out : List Item) :
    ∃ m, readdirLoop dents curofs (curofs + 1 + k) accept out =
      (curofs + 1 + k + m,out ++ items ((dents.drop k).take m)) := by
  induction dents generalizing k curofs accept out with
  | nil => exact ⟨0,by simp [readdirLoop,items]⟩
  | cons fd dents ih =>
    rw [readdirLoop.eq_def]
    dsimp only
    cases k with
    | succ k =>
      -- before the position
      obtain ⟨m,hm⟩ := ih k (curofs + 1) accept out
      grind
    | zero =>
      rw [if_neg (by omega)]
      by_cases hino : fd.ino = 0
      · obtain ⟨m,hm⟩ := ih 0 (curofs + 1) accept out
        rw [if_pos hino]
        refine ⟨m + 1,?_⟩
        rw [show curofs + 1 + 0 + 1 = curofs + 1 + 1 + 0 by omega,hm,drop_zero,drop_zero,
          take_succ_cons,items_cons_deleted hino]
        exact Prod.ext (by omega) rfl
      · rw [if_neg hino]
        cases accept with
        | zero => exact ⟨0,by simp [items]⟩
        | succ accept =>
          obtain ⟨m,hm⟩ := ih 0 (curofs + 1) accept (out ++ [.name (cstring fd.name)])
          refine ⟨m + 1,?_⟩
          dsimp only
          rw [show curofs + 1 + 0 + 1 = curofs + 1 + 1 + 0 by omega,hm,drop_zero,drop_zero,
            take_succ_cons,items_cons_live hino,append_assoc]
          exact Prod.ext (by omega) rfl

/-- What a call does to the position and returns, apart from `.` and `..`. -/
theorem readdir_spec (dents : List FullDirent) (pos accept : ℕ) :
    ∃ dots m, (readdir dents pos accept).1 - 2 = pos - 2 + m ∧
      (readdir dents pos accept).2 = dots ++ items ((dents.drop (pos - 2)).take m) ∧
      ∀ name, Item.name name ∉ dots := by
  -- a call that gets as far as the loop, at offset `k + 2`
  have hloop (k accept : ℕ) (dots : List Item) (hd : ∀ name, Item.name name ∉ dots) :
      ∃ dots' m, (readdirLoop dents 1 (k + 2) accept dots).1 - 2 = k + m ∧
        (readdirLoop dents 1 (k + 2) accept dots).2 = dots' ++ items ((dents.drop k).take m) ∧
        ∀ name, Item.name name ∉ dots' := by
    obtain ⟨m,hm⟩ := @readdirLoop_spec dents k 1 accept dots
    grind
  have hrefused (dots : List Item) (hd : ∀ name, Item.name name ∉ dots) :
      ∃ dots' m, 0 = 0 + m ∧ dots = dots' ++ items ((dents.drop 0).take m) ∧
        ∀ name, Item.name name ∉ dots' := ⟨dots,0,rfl,by simp [items],hd⟩
  obtain _ | _ | k := pos
  · obtain _ | _ | accept := accept
    · exact hrefused [] (by simp)
    · exact hrefused [.dot] (by simp)
    · exact hloop 0 accept [.dot,.dotdot] (by simp)
  · obtain _ | accept := accept
    · exact hrefused [] (by simp)
    · exact hloop 0 accept [.dotdot] (by simp)
  · have hread : readdir dents (k + 1 + 1) accept = readdirLoop dents 1 (k + 2) accept [] := by
      rfl
    exact hloop k accept [] (by simp)

end

/-- A list of `jffs2_add_fd_to_list`, and all versions up to the highest. -/
structure Dir.Good (d : Dir) : Prop where
  listed : Listed d.dents
  version : ∀ fd ∈ d.dents, fd.version ≤ d.highest

def named (name : List Byte) (l : List FullDirent) : ℕ :=
  (l.map fun fd => cstring fd.name).count name

/-- A name has been returned just if its entry is in front of the position. -/
def Told (name : List Byte) (d : Dir) : Prop :=
  d.out.count (.name name) = named name (d.dents.take (d.pos - 2))

section
variable {d t : Dir} {name : List Byte}

theorem count_items {l : List FullDirent} (h : ∀ fd ∈ l, cstring fd.name = name → fd.ino ≠ 0) :
    (items l).count (.name name) = named name l := by
  induction l with
  | nil => rfl
  | cons fd l ih =>
    have hl := ih fun a ha => h a (mem_cons_of_mem _ ha)
    by_cases hn : cstring fd.name = name
    · simp [items_cons_live (h fd mem_cons_self hn),named,map_cons,hn,count_cons_self,hl]
    · have hi : ¬(Item.name (cstring fd.name) = Item.name name) := fun he => hn (Item.name.inj he)
      have hrest : named name (fd :: l) = named name l := by
        rw [named,map_cons,count_cons_of_ne hn]
        rfl
      rw [hrest,← hl]
      by_cases hino : fd.ino = 0
      · rw [items_cons_deleted hino]
      · rw [items_cons_live hino,count_cons_of_ne hi]

theorem Dir.Good.unique (h : d.Good) {a b : FullDirent} (ha : a ∈ d.dents) (hb : b ∈ d.dents)
    (hab : cstring a.name = cstring b.name) : a = b := by
  by_contra hne
  have hsymm : Std.Symm fun a b : FullDirent => cstring a.name ≠ cstring b.name :=
    ⟨fun _ _ => Ne.symm⟩
  exact h.listed.names.forall ha hb hne hab

theorem told_readdir {accept : ℕ} (hg : d.Good) (hp : Present name d) (h : Told name d)
    (hs : step d (.readdir accept) = some t) : Told name t := by
  obtain ⟨dots,m,hpos,hout,hdots⟩ := readdir_spec d.dents d.pos accept
  cases Option.some.inj hs
  obtain ⟨fd,hfd,hname,hlive⟩ := hp
  have hcount : (items ((d.dents.drop (d.pos - 2)).take m)).count (.name name) =
      named name ((d.dents.drop (d.pos - 2)).take m) := by
    refine count_items fun a ha han => ?_
    have hmem : a ∈ d.dents := mem_of_mem_drop (mem_of_mem_take ha)
    rw [hg.unique hmem hfd (han.trans hname.symm)]
    exact hlive
  show (d.out ++ (readdir d.dents d.pos accept).2).count _ = named name (d.dents.take (_ - 2))
  rw [hpos,hout,count_append,count_append,count_eq_zero.mpr (hdots name),
    zero_add,hcount,h,take_add,named,named,named,map_append,count_append]

theorem told_of_take (h : Told name d) (hout : t.out = d.out) (hpos : t.pos = d.pos)
    (htake : (t.dents.take (d.pos - 2)).map (fun fd => cstring fd.name) =
      (d.dents.take (d.pos - 2)).map fun fd => cstring fd.name) : Told name t := by
  rw [Told,hout,hpos,named,htake]
  exact h

theorem told_add {s : List Byte} {raw ino type : ℕ} (hg : d.Good) (h : Told name d)
    (hsafe : Safe d (.add s raw ino type)) (hs : step d (.add s raw ino type) = some t) :
    Told name t := by
  cases Option.some.inj hs
  refine told_of_take h rfl rfl ?_
  have hhash : (d.fd s raw ino type).nhash = fullNameHash (cstring (d.fd s raw ino type).name) := rfl
  obtain ⟨hnone,hadd⟩ | ⟨prev,l₁,l₂,hl,hprev,hadd⟩ := addFd_split hg.listed hhash
  · -- a place of its own, behind the position
    have hplace := hsafe.resolve_left fun hc => by
      obtain ⟨fd,hfd,hname⟩ := hc
      have hno := find?_eq_none.mp hnone fd hfd
      exact hno (decide_eq_true hname)
    have hsplit := @List.takeWhile_append_dropWhile _
      (fun fd => decide (fd.nhash ≤ fullNameHash (cstring s))) d.dents
    rw [hadd,show (d.fd s raw ino type).nhash = fullNameHash (cstring s) from rfl]
    grind
  · -- the place of the entry that was there
    have hver : ¬(d.fd s raw ino type).version < prev.version := by
      have hle := hg.version prev (hl ▸ mem_append_right _ mem_cons_self)
      show ¬d.highest + 1 < prev.version
      omega
    rw [hadd,if_neg hver,map_take,map_take]
    grind

theorem told_collect {fd : FullDirent} (h : Told name d) (hsafe : Safe d (.collect fd))
    (hs : step d (.collect fd) = some t) : Told name t := by
  rw [step] at hs
  split at hs
  · cases Option.some.inj hs
    refine told_of_take h rfl rfl ?_
    rw [erase_eq_eraseIdx_of_idxOf rfl,take_eraseIdx_eq_take_of_le _ _ _ hsafe]
  · cases hs

theorem good_step {a : Action} (hg : d.Good) (hs : step d a = some t) : t.Good := by
  cases a with
  | readdir accept =>
    cases Option.some.inj hs
    exact ⟨hg.listed,hg.version⟩
  | add s raw ino type =>
    cases Option.some.inj hs
    refine ⟨listed_addFd hg.listed rfl,fun fd hfd => ?_⟩
    obtain rfl | hfd := mem_addFd hfd
    · exact le_rfl
    · exact Nat.le_succ_of_le (hg.version fd hfd)
  | collect fd =>
    rw [step] at hs
    split at hs
    · cases Option.some.inj hs
      have hsub : List.Sublist (d.dents.erase fd) d.dents := erase_sublist
      exact ⟨⟨hg.listed.sorted.sublist hsub,hg.listed.names.sublist hsub,
        fun a ha => hg.listed.hash a (hsub.subset ha)⟩,fun a ha => hg.version a (hsub.subset ha)⟩
    · cases hs

end

/-- In a listing that is read to its end, with nothing going into the list or out of it in front of
the position, every name that is there all the time is returned once. -/
theorem listing_once {d t : Dir} {name : List Byte} {as : List Action} (hg : d.Good)
    (hpos : d.pos = 0) (hout : d.out = [])
    (hm : Meets step (fun s a => Safe s a ∧ Present name s) d as)
    (hr : run step d as = some t) (hp : Present name t) (hend : t.dents.length + 2 ≤ t.pos) :
    t.out.count (.name name) = 1 := by
  have hstart : d.Good ∧ Told name d := by
    refine ⟨hg,?_⟩
    rw [Told,hout,hpos]
    rfl
  obtain ⟨hgood,htold⟩ : t.Good ∧ Told name t := by
    let Inv : Dir → Prop := fun s => s.Good ∧ Told name s
    have hinv : Inv t := by
      refine invariant step (fun s a u hs hc hu => ⟨good_step hs.1 hu,?_⟩) hstart hm hr
      cases a with
      | readdir accept => exact told_readdir hs.1 hc.2 hs.2 hu
      | add n raw ino type => exact told_add hs.1 hs.2 hc.1 hu
      | collect fd => exact told_collect hs.2 hc.1 hu
    exact hinv
  obtain ⟨fd,hfd,hname,-⟩ := hp
  have hnodup : (t.dents.map fun fd => cstring fd.name).Nodup :=
    pairwise_map.mpr hgood.listed.names
  rw [Told,take_of_length_le (by omega)] at htold
  rw [htold]
  exact count_eq_one_of_mem hnodup (hname ▸ mem_map_of_mem hfd)

/-- A directory with the name `b`, and an open file at its start. -/
def start : Dir := ⟨[⟨1,1,5,8,fullNameHash [98],[98]⟩],1,0,[]⟩

theorem start_good : start.Good :=
  ⟨⟨pairwise_singleton _ _,pairwise_singleton _ _,by decide⟩,by decide⟩

/-- A name that comes behind the position is created between two calls. -/
theorem listing_once_behind :
    ∃ t, run step start [.readdir 3,.add [99] 2 6 8,.readdir 1] = some t ∧
      t.out.count (.name [98]) = 1 := by
  obtain ⟨t,ht⟩ : ∃ t, run step start [.readdir 3,.add [99] 2 6 8,.readdir 1] = some t :=
    ⟨_,rfl⟩
  have hp : Present [98] t ∧ t.dents.length + 2 ≤ t.pos := by
    cases ht
    decide
  exact ⟨t,ht,listing_once start_good rfl rfl (by decide) ht hp.1 hp.2⟩

/-- A new name in front of the position. -/
def createBefore : List Action := [.readdir 3,.add [97] 2 6 8,.readdir 9]

/-- A deletion entry in front of the position is collected. -/
def collectBefore : List Action :=
  [.add [97] 2 0 8,.readdir 2,.collect ⟨2,2,0,8,fullNameHash [97],[97]⟩,.readdir 9]

/-- The name `a`, created between two calls, pushes `b` behind the position again; a deleted `a`,
collected between two calls, pulls `b` in front of it. -/
theorem listing_wrong :
    Meets step (fun s _ => Present [98] s) start createBefore ∧
      (run step start createBefore).map
        (fun t => (t.out.count (.name [98]),t.pos - t.dents.length)) = some (2,2) ∧
      Meets step (fun s _ => Present [98] s) start collectBefore ∧
      (run step start collectBefore).map
        (fun t => (t.out.count (.name [98]),t.pos - t.dents.length)) = some (0,2) := by
  decide

end Simpad.Jffs2.Readdir
