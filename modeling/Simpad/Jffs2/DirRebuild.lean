import Simpad.Jffs2.Direntlist

namespace Simpad.Jffs2

open List

structure DirentNode where
  raw : ℕ
  version : ℕ
  ino : ℕ
  type : ℕ
  name : List Byte
deriving DecidableEq

/-- The `jffs2_full_dirent` made of a node; the hash is over all `nsize` bytes. -/
def DirentNode.fd (n : DirentNode) : FullDirent :=
  ⟨n.raw,n.version,n.ino,n.type,fullNameHash n.name,n.name⟩

/-- One node for `jffs2_get_inode_nodes`; the second part are the nodes marked obsolete. -/
def getInodeDirent (r : List FullDirent × List ℕ) (n : DirentNode) : List FullDirent × List ℕ :=
  if n.raw ∈ r.2 then r
  else
    let t := addFdToList n.fd r.1
    (t.1,r.2 ++ t.2.toList)

/-- `jffs2_get_inode_nodes` for a directory. -/
def getInodeDirents (nodes : List DirentNode) : List FullDirent × List ℕ :=
  nodes.foldl getInodeDirent ([],[])

/-- The inode that `jffs2_lookup` goes for. -/
def lookupIno (l : List FullDirent) (name : List Byte) : Option ℕ :=
  (lookup l name).bind fun fd => if fd.ino = 0 then none else some fd.ino

def Top (nodes : List DirentNode) (n : DirentNode) : Prop :=
  n ∈ nodes ∧ ∀ m ∈ nodes, m.name = n.name → m.version ≤ n.version

/-- The nodes of a directory: each has a reference and a version of its own, and a name that ends
where its bytes end. -/
structure DirentNodes (nodes : List DirentNode) : Prop where
  raw : (nodes.map DirentNode.raw).Nodup
  version : (nodes.map DirentNode.version).Nodup
  name : ∀ n ∈ nodes, 0 ∉ n.name

/-- What the list and the marks are after the nodes in `seen`. -/
structure Rebuilt (seen : List DirentNode) (r : List FullDirent × List ℕ) : Prop where
  listed : Listed r.1
  known : ∀ fd ∈ r.1, ∃ n ∈ seen, fd = n.fd
  covered : ∀ n ∈ seen, ∃ fd ∈ r.1, fd.name = n.name ∧ n.version ≤ fd.version
  marked : ∀ a, a ∈ r.2 ↔ ∃ n ∈ seen, n.raw = a ∧ n.fd ∉ r.1

theorem Rebuilt.nil : Rebuilt [] ([],[]) := by
  refine ⟨.nil,?_,?_,?_⟩
  · intro fd hfd
    cases hfd
  · intro n hn
    cases hn
  · simp

variable {m n : DirentNode}

section
variable {seen : List DirentNode} {r t : List FullDirent × List ℕ} {n : DirentNode}

theorem DirentNodes.raw_ne (h : DirentNodes (seen ++ [n])) (hm : m ∈ seen) : m.raw ≠ n.raw := by
  intro he
  have hnd := h.raw
  grind

theorem DirentNodes.cstring (h : DirentNodes seen) (hm : m ∈ seen) :
    Jffs2.cstring m.name = m.name :=
  cstring_of_not_mem (h.name m hm)

/-- A node is added, and of it and the entries there were `lost` is left out; an entry that stays
stands for it. -/
theorem Rebuilt.extend (h : Rebuilt seen r) (hs : DirentNodes (seen ++ [n])) (lost : Option FullDirent)
    (hlisted : Listed t.1)
    (hmem : ∀ a, a ∈ t.1 ↔ (a = n.fd ∨ a ∈ r.1) ∧ lost ≠ some a)
    (hlost : ∀ p ∈ lost, (p = n.fd ∨ p ∈ r.1) ∧ ∃ q ∈ t.1, q.name = p.name ∧ p.version ≤ q.version)
    (hmarks : t.2 = r.2 ++ (lost.map FullDirent.raw).toList) : Rebuilt (seen ++ [n]) t := by
  have hknown : ∀ a, a = n.fd ∨ a ∈ r.1 → ∃ m ∈ seen ++ [n], a = m.fd := by
    rintro a (rfl | ha)
    · simp
    · obtain ⟨m,hm,he⟩ := h.known a ha
      exact ⟨m,mem_append_left _ hm,he⟩
  have hcovered : ∀ m ∈ seen ++ [n], ∃ a, (a = n.fd ∨ a ∈ r.1) ∧ a.name = m.name ∧
      m.version ≤ a.version := by
    intro m hm
    obtain hm | hm := mem_append.mp hm
    · obtain ⟨a,ha,hc⟩ := h.covered m hm
      exact ⟨a,Or.inr ha,hc⟩
    · obtain rfl := mem_singleton.mp hm
      exact ⟨m.fd,Or.inl rfl,rfl,le_rfl⟩
  refine ⟨hlisted,fun a ha => hknown a ((hmem a).mp ha).1,fun m hm => ?_,fun a => ?_⟩
  · obtain ⟨a,ha,hname,hver⟩ := hcovered m hm
    by_cases hl : lost = some a
    · obtain ⟨-,q,hq,hqname,hqver⟩ := hlost a hl
      grind
    · grind
  · rw [hmarks,mem_append,h.marked,Option.mem_toList,Option.map_eq_some_iff]
    constructor
    · rintro (⟨m,hm,he,hno⟩ | ⟨p,hp,he⟩)
      · refine ⟨m,mem_append_left _ hm,he,fun hc => ?_⟩
        obtain hc | hc := ((hmem _).mp hc).1
        · exact hs.raw_ne hm (congrArg FullDirent.raw hc)
        · exact hno hc
      · obtain ⟨m,hm,rfl⟩ := hknown p (hlost p hp).1
        exact ⟨m,hm,he,fun hc => ((hmem _).mp hc).2 hp⟩
    · rintro ⟨m,hm,he,hno⟩
      by_cases hl : lost = some m.fd
      · exact Or.inr ⟨m.fd,hl,he⟩
      · have hout : ¬(m.fd = n.fd ∨ m.fd ∈ r.1) := fun hc => hno ((hmem _).mpr ⟨hc,hl⟩)
        obtain hm | hm := mem_append.mp hm
        · grind
        · grind

theorem Rebuilt.step (h : Rebuilt seen r) (hs : DirentNodes (seen ++ [n])) :
    Rebuilt (seen ++ [n]) (getInodeDirent r n) := by
  have hn : n ∈ seen ++ [n] := mem_append_right _ mem_cons_self
  have hfresh : n.fd ∉ r.1 := by
    intro hmem
    obtain ⟨m,hm,he⟩ := h.known _ hmem
    exact hs.raw_ne hm (congrArg FullDirent.raw he).symm
  have hskip : n.raw ∉ r.2 := by
    intro hmem
    obtain ⟨m,hm,he,-⟩ := (h.marked n.raw).mp hmem
    exact hs.raw_ne hm he
  have hhash : n.fd.nhash = fullNameHash (Jffs2.cstring n.fd.name) := by
    show fullNameHash n.name = fullNameHash (Jffs2.cstring n.name)
    rw [hs.cstring hn]
  have hlisted := listed_addFd h.listed hhash
  rw [getInodeDirent,if_neg hskip]
  obtain ⟨-,hadd⟩ | ⟨prev,l₁,l₂,hl,hprev,hadd⟩ := addFd_split h.listed hhash
  · -- a name of its own
    rw [hadd] at hlisted ⊢
    refine h.extend hs none hlisted (fun a => ?_) (fun p hp => by cases hp) rfl
    have hl := @List.takeWhile_append_dropWhile _ (fun fd => decide (fd.nhash ≤ n.fd.nhash)) r.1
    grind
  · have hpmem : prev ∈ r.1 := hl ▸ mem_append_right _ mem_cons_self
    have hpname : prev.name = n.name := by
      obtain ⟨k,hk,hkp⟩ := h.known prev hpmem
      have hkn : prev.name = k.name := congrArg FullDirent.name hkp
      rw [hkn] at hprev ⊢
      rw [← hs.cstring (mem_append_left _ hk),hprev]
      exact hs.cstring hn
    by_cases hlt : n.fd.version < prev.version
    · -- the new node is the older one
      rw [hadd,if_pos hlt]
      refine h.extend hs (some n.fd) h.listed (fun a => ?_) (fun p hp => ?_) rfl
      · constructor
        · grind
        · grind
      · cases hp
        exact ⟨Or.inl rfl,prev,hpmem,hpname,hlt.le⟩
    · -- the entry that was there is the older one
      rw [hadd,if_neg hlt] at hlisted ⊢
      have hother : ∀ a ∈ l₁ ++ l₂, a ≠ prev := by
        have hnd := h.listed.names
        grind
      have hnp : n.fd ≠ prev := fun he => hfresh (he ▸ hpmem)
      refine h.extend hs (some prev) hlisted (fun a => ?_) (fun p hp => ?_) rfl
      · have ha := hother a
        have hinj : some prev ≠ some a ↔ a ≠ prev := by
          rw [ne_eq,Option.some.injEq,eq_comm]
        rw [hl,hinj]
        simp only [mem_append,mem_cons] at ha ⊢
        constructor
        · grind
        · tauto
      · cases hp
        exact ⟨Or.inr hpmem,n.fd,mem_append_right _ mem_cons_self,hpname.symm,
          Nat.le_of_not_lt hlt⟩

end

section
variable {nodes order : List DirentNode}

theorem DirentNodes.init (h : DirentNodes (nodes ++ [n])) : DirentNodes nodes := by
  have hsub : List.Sublist nodes (nodes ++ [n]) := sublist_append_left _ _
  exact ⟨h.raw.sublist (hsub.map _),h.version.sublist (hsub.map _),
    fun m hm => h.name m (mem_append_left _ hm)⟩

theorem DirentNodes.perm (h : DirentNodes nodes) (hp : order.Perm nodes) : DirentNodes order :=
  ⟨(hp.map _).nodup_iff.mpr h.raw,(hp.map _).nodup_iff.mpr h.version,
    fun n hn => h.name n (hp.mem_iff.mp hn)⟩

theorem rebuilt (h : DirentNodes nodes) : Rebuilt nodes (getInodeDirents nodes) := by
  induction nodes using reverseRecOn with
  | nil => exact .nil
  | append_singleton nodes n ih =>
    rw [getInodeDirents,foldl_append]
    exact (ih h.init).step h

theorem DirentNodes.eq_of_version (h : DirentNodes nodes) (hm : m ∈ nodes) (hn : n ∈ nodes)
    (he : m.version = n.version) : m = n :=
  inj_on_of_nodup_map h.version hm hn he

variable {r : List FullDirent × List ℕ}

section
variable (hr : Rebuilt nodes r)
include hr

theorem Rebuilt.eq_of_name {a b : FullDirent} (ha : a ∈ r.1) (hb : b ∈ r.1)
    (hab : a.name = b.name) : a = b := by
  by_contra hne
  have hsymm : Std.Symm fun a b : FullDirent => cstring a.name ≠ cstring b.name := ⟨fun _ _ => Ne.symm⟩
  exact hr.listed.names.forall ha hb hne (congrArg cstring hab)

theorem Rebuilt.mem_iff (h : DirentNodes nodes) {fd : FullDirent} :
    fd ∈ r.1 ↔ ∃ n, Top nodes n ∧ fd = n.fd := by
  constructor
  · intro hfd
    obtain ⟨n,hn,rfl⟩ := hr.known fd hfd
    refine ⟨n,⟨hn,fun m hm hname => ?_⟩,rfl⟩
    obtain ⟨a,ha,hane,hver⟩ := hr.covered m hm
    have he : a = n.fd := hr.eq_of_name ha hfd (hane.trans hname)
    rw [he] at hver
    exact hver
  · rintro ⟨n,⟨hn,htop⟩,rfl⟩
    obtain ⟨a,ha,hane,hver⟩ := hr.covered n hn
    obtain ⟨k,hk,rfl⟩ := hr.known a ha
    rw [h.eq_of_version hn hk (le_antisymm hver (htop k hk hane))]
    exact ha

theorem Rebuilt.mark_iff (h : DirentNodes nodes) {a : ℕ} :
    a ∈ r.2 ↔ ∃ n ∈ nodes, n.raw = a ∧ ¬Top nodes n := by
  rw [hr.marked]
  refine exists_congr fun n => and_congr_right fun hn => and_congr_right fun _ => not_congr ?_
  rw [hr.mem_iff h]
  constructor
  · rintro ⟨m,hm,he⟩
    rwa [h.eq_of_version hn hm.1 (congrArg FullDirent.version he)]
  · exact fun ht => ⟨n,ht,rfl⟩

theorem Rebuilt.lookupIno_iff (h : DirentNodes nodes) {name : List Byte} {i : ℕ} :
    lookupIno r.1 name = some i ↔ ∃ n, Top nodes n ∧ n.name = name ∧ n.ino = i ∧ i ≠ 0 := by
  rw [lookupIno,hr.listed.lookup,Option.bind_eq_some_iff]
  constructor
  · rintro ⟨fd,hfd,hino⟩
    obtain ⟨hmem,hname⟩ := entry_some hfd
    obtain ⟨n,hn,rfl⟩ := (hr.mem_iff h).mp hmem
    split at hino
    · cases hino
    · next h0 =>
      have hi : n.ino = i := Option.some.inj hino
      exact ⟨n,hn,(h.cstring hn.1).symm.trans hname,hi,hi ▸ h0⟩
  · rintro ⟨n,hn,rfl,rfl,h0⟩
    have hmem : n.fd ∈ r.1 := (hr.mem_iff h).mpr ⟨n,hn,rfl⟩
    refine ⟨n.fd,?_,if_neg h0⟩
    cases he : entry r.1 n.name with
    | none =>
      have hno := find?_eq_none.mp he n.fd hmem
      exact absurd (decide_eq_true (h.cstring hn.1)) hno
    | some fd =>
      obtain ⟨hfd,hname⟩ := entry_some he
      obtain ⟨m,hm,rfl⟩ := (hr.mem_iff h).mp hfd
      rw [hr.eq_of_name hfd hmem ((h.cstring hm.1).symm.trans hname)]

end

theorem Top.perm (hp : order.Perm nodes) : Top order n ↔ Top nodes n :=
  and_congr hp.mem_iff (forall_congr' fun _ => imp_congr hp.mem_iff Iff.rfl)

end

/-- The order in which the nodes are found makes no difference. -/
theorem directory_rebuild {nodes order : List DirentNode} (h : DirentNodes nodes)
    (hp : order.Perm nodes) :
    let r := getInodeDirents order
    r.1.Pairwise (fun a b => a.nhash ≤ b.nhash) ∧
    (r.1.map FullDirent.name).Nodup ∧ (∀ n ∈ nodes, ∃ fd ∈ r.1, fd.name = n.name) ∧
    (∀ fd, fd ∈ r.1 ↔ ∃ n, Top nodes n ∧ fd = n.fd) ∧
    (∀ a, a ∈ r.2 ↔ ∃ n ∈ nodes, n.raw = a ∧ ¬Top nodes n) ∧
    ∀ name i, lookupIno r.1 name = some i ↔
      ∃ n, Top nodes n ∧ n.name = name ∧ n.ino = i ∧ i ≠ 0 := by
  intro r
  have ho := h.perm hp
  have hr : Rebuilt order r := rebuilt ho
  refine ⟨hr.listed.sorted,?_,fun n hn => ?_,fun fd => ?_,fun a => ?_,fun name i => ?_⟩
  · exact pairwise_map.mpr (hr.listed.names.imp fun hne he => hne (congrArg cstring he))
  · obtain ⟨fd,hfd,hname,-⟩ := hr.covered n (hp.mem_iff.mpr hn)
    exact ⟨fd,hfd,hname⟩
  · rw [hr.mem_iff ho]
    exact exists_congr fun n => and_congr_left fun _ => Top.perm hp
  · rw [hr.mark_iff ho]
    exact exists_congr fun n => and_congr hp.mem_iff (and_congr_right fun _ => not_congr (Top.perm hp))
  · rw [hr.lookupIno_iff ho]
    exact exists_congr fun n => and_congr_left fun _ => Top.perm hp

/-- Three nodes, the name `a` written twice, the newer one found first. -/
theorem directory_rebuild_newer_first :
    lookupIno (getInodeDirents [⟨3,3,0,8,[98]⟩,⟨2,2,6,8,[97]⟩,⟨1,1,5,8,[97]⟩]).1 [97] = some 6 := by
  have h : DirentNodes [⟨1,1,5,8,[97]⟩,⟨2,2,6,8,[97]⟩,⟨3,3,0,8,[98]⟩] :=
    ⟨by decide,by decide,by decide⟩
  refine ((directory_rebuild h (by decide)).2.2.2.2.2 [97] 6).mpr ⟨⟨2,2,6,8,[97]⟩,⟨?_,?_⟩,?_⟩
  all_goals decide

/-- A zero byte in a name is hashed but not compared: two entries stand for `a`, and the newer one is
not found. -/
theorem directory_rebuild_zero_byte :
    let r := getInodeDirents [⟨1,1,5,8,[97]⟩,⟨2,2,6,8,[97,0]⟩]
    r.1.map (fun fd => cstring fd.name) = [[97],[97]] ∧ r.2 = [] ∧ lookupIno r.1 [97] = some 5 ∧
      lookupIno r.1 [97,0] = none := by
  decide

end Simpad.Jffs2
