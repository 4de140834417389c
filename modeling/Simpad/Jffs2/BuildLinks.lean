import Simpad.Jffs2.Build

namespace Simpad.Jffs2.Build

open List

structure Chained (l : List InodeCache) : Prop where
  sorted : l.Pairwise fun a b => a.ino < b.ino
  pos : ∀ ic ∈ l, ic.ino ≠ 0

variable {ino : ℕ} {sb sb₀ : Sb} {ic d x y new : InodeCache} {found : List Found}
  {l m : List InodeCache} {f : InodeCache → InodeCache}

section
variable (h : Chained l)
include h

theorem Chained.map (hf : ∀ ic, (f ic).ino = ic.ino) : Chained (l.map f) := by
  refine ⟨pairwise_map.mpr ?_,fun ic hic => ?_⟩
  · simpa only [hf] using h.sorted
  · obtain ⟨a,ha,rfl⟩ := mem_map.mp hic
    rw [hf]
    exact h.pos a ha

theorem Chained.eq_of_ino {a b : InodeCache} (ha : a ∈ l) (hb : b ∈ l)
    (hab : a.ino = b.ino) : a = b := by
  by_contra hne
  exact List.Pairwise.forall_of_forall_of_flip (R := fun a b : InodeCache => a ≠ b → a.ino ≠ b.ino)
    (fun _ _ hn => absurd rfl hn) (h.sorted.imp fun hlt _ => hlt.ne)
    (h.sorted.imp fun hlt _ => hlt.ne') ha hb hne hab

theorem Chained.getInoCache (ino : ℕ) :
    Build.getInoCache ino l = l.find? fun ic => ic.ino = ino := by
  induction l with
  | nil => rfl
  | cons ic l ih =>
    have ht : Chained l := ⟨h.sorted.of_cons,fun a ha => h.pos a (mem_cons_of_mem ic ha)⟩
    unfold Build.getInoCache at ih ⊢
    rcases lt_trichotomy ic.ino ino with hlt | he | hgt
    · rw [dropWhile_cons_of_pos (by simpa using hlt),find?_cons_of_neg (by simpa using hlt.ne)]
      exact ih ht
    · simp [he]
    · rw [dropWhile_cons_of_neg (by simpa using hgt.le),
        find?_cons_of_neg (by simpa using hgt.ne')]
      have hnone : l.find? (fun ic => ic.ino = ino) = none := by
        refine find?_eq_none.mpr fun a ha => ?_
        have := rel_of_pairwise_cons h.sorted ha
        grind
      grind

theorem Chained.mem_of_get (hic : Build.getInoCache ino l = some ic) :
    ic ∈ l ∧ ic.ino = ino := by
  rw [h.getInoCache] at hic
  grind

theorem Chained.get_of_mem (hic : ic ∈ l) :
    Build.getInoCache ic.ino l = some ic := by
  cases hg : Build.getInoCache ic.ino l with
  | none =>
    rw [h.getInoCache] at hg
    grind
  | some a =>
    obtain ⟨ha,he⟩ := h.mem_of_get hg
    rw [h.eq_of_ino ha hic he]

theorem Chained.modify (hf : ∀ ic, (f ic).ino = ic.ino) : Chained (modifyInoCache ino f l) :=
  h.map fun ic => by split_ifs <;> simp [hf]

theorem Chained.get_modify (hf : ∀ ic, (f ic).ino = ic.ino) (hic : ic ∈ l) :
    Build.getInoCache ic.ino (modifyInoCache ic.ino f l) = some (f ic) := by
  have hm : f ic ∈ modifyInoCache ic.ino f l := mem_map.mpr ⟨ic,hic,if_pos rfl⟩
  have hget := (h.modify hf).get_of_mem hm
  rwa [hf] at hget

omit h in
theorem modify_modify (hf : ∀ ic, (f ic).ino = ic.ino) (g : InodeCache → InodeCache) :
    modifyInoCache ino g (modifyInoCache ino f l) = modifyInoCache ino (fun ic => g (f ic)) l := by
  unfold modifyInoCache
  rw [map_map]
  refine map_congr_left fun ic _ => ?_
  grind

omit h in
def addLinks (f : ℕ → ℤ) (l : List InodeCache) : List InodeCache :=
  l.map fun ic => { ic with nlink := ic.nlink + f ic.ino }

omit h in
theorem addLinks_addLinks (f g : ℕ → ℤ) (l : List InodeCache) :
    addLinks g (addLinks f l) = addLinks (fun k => f k + g k) l := by
  unfold addLinks
  simp [map_map,add_assoc]

omit h in
theorem addLinks_zero {f : ℕ → ℤ} (h : ∀ ic ∈ l, f ic.ino = 0) : addLinks f l = l := by
  conv_rhs => rw [← map_id l]
  refine map_congr_left fun ic hic => ?_
  rw [h ic hic,add_zero]
  rfl

theorem Chained.addLinks (f : ℕ → ℤ) : Chained (addLinks f l) := h.map fun _ => rfl

theorem Chained.modify_child (k : ℕ) (d : ℤ) :
    (match Build.getInoCache k l with
      | none => l
      | some _ => modifyInoCache k (fun ic => { ic with nlink := ic.nlink + d }) l) =
      Build.addLinks (fun j => if j = k then d else 0) l := by
  cases hg : Build.getInoCache k l with
  | none =>
    rw [h.getInoCache] at hg
    refine (addLinks_zero fun ic hic => if_neg ?_).symm
    grind
  | some _ =>
    refine map_congr_left fun ic _ => ?_
    by_cases hk : ic.ino = k
    · simp [hk]
    · simp [hk]

theorem Chained.linkChild (fd : FullDirent) :
    Build.linkChild l fd = Build.addLinks (fun k => if k = fd.ino then 1 else 0) l := by
  unfold Build.linkChild
  split_ifs with h0
  · refine (addLinks_zero fun ic hic => if_neg ?_).symm
    rw [h0]
    exact h.pos ic hic
  · exact h.modify_child fd.ino 1

theorem Chained.unlinkChild (fd : FullDirent) :
    Build.unlinkChild l fd = Build.addLinks (fun k => if k = fd.ino then -1 else 0) l :=
  h.modify_child fd.ino (-1)

omit h in
theorem count_cons (k : ℕ) (fd : FullDirent) (l : List FullDirent) :
    (count k (fd :: l) : ℤ) = (if k = fd.ino then 1 else 0) + count k l := by
  unfold count
  grind

theorem Chained.foldl_linkChild (dents : List FullDirent) :
    dents.foldl Build.linkChild l = Build.addLinks (fun k => count k dents) l := by
  induction dents generalizing l with
  | nil => exact (addLinks_zero fun _ _ => rfl).symm
  | cons fd dents ih =>
    simp [foldl_cons,h.linkChild,ih (h.addLinks _),addLinks_addLinks,count_cons]

theorem Chained.foldl_unlinkChild (dents : List FullDirent) :
    dents.foldl Build.unlinkChild l = Build.addLinks (fun k => -count k dents) l := by
  induction dents generalizing l with
  | nil => exact (addLinks_zero fun _ _ => rfl).symm
  | cons fd dents ih =>
    rw [foldl_cons,h.unlinkChild,ih (h.addLinks _),addLinks_addLinks]
    congr 1
    funext k
    rw [count_cons]
    split_ifs <;> ring

end

/-- The entries of a directory that is not removed. -/
def InodeCache.dents (ic : InodeCache) : List FullDirent := (ic.scan.map ScanInfo.dents).getD []

/-- What pass 1 leaves of a cache. -/
def InodeCache.shape (ic : InodeCache) : ℕ × List ℕ × Option (List FullDirent) :=
  (ic.ino,ic.nodes,ic.scan.map ScanInfo.dents)

/-- The live entries for an inode in the directories that are not removed. -/
def links (k : ℕ) (l : List InodeCache) : ℤ := (l.map fun d => (count k d.dents : ℤ)).sum

theorem links_congr (h : l.map InodeCache.shape = m.map InodeCache.shape) (k : ℕ) :
    links k l = links k m := by
  have hs : ∀ n : List InodeCache, links k n =
      ((n.map InodeCache.shape).map fun x => (count k (x.2.2.getD []) : ℤ)).sum := by
    intro n
    rw [map_map]
    rfl
  rw [hs,hs,h]

theorem count_le_links {k : ℕ} (h : d ∈ l) : (count k d.dents : ℤ) ≤ links k l := by
  refine single_le_sum (fun x hx => ?_) _
    (mem_map_of_mem (f := fun d : InodeCache => (count k d.dents : ℤ)) h)
  obtain ⟨d,-,rfl⟩ := mem_map.mp hx
  exact Int.natCast_nonneg _

theorem inos_of_shape (h : l.map InodeCache.shape = m.map InodeCache.shape) :
    l.map InodeCache.ino = m.map InodeCache.ino := by
  have hs : ∀ n : List InodeCache, n.map InodeCache.ino = (n.map InodeCache.shape).map Prod.fst := by
    intro n
    rw [map_map]
    rfl
  rw [hs,hs,h]

theorem Chained.of_inos (h : Chained l) (he : m.map InodeCache.ino = l.map InodeCache.ino) :
    Chained m := by
  have hs : (m.map InodeCache.ino).Pairwise (· < ·) := by
    rw [he]
    exact pairwise_map.mpr h.sorted
  refine ⟨pairwise_map.mp hs,fun ic hic => ?_⟩
  have hm := he ▸ mem_map_of_mem hic
  obtain ⟨a,ha,hae⟩ := mem_map.mp hm
  rw [← hae]
  exact h.pos a ha

def dentsAt (l : List InodeCache) (ino : ℕ) : List FullDirent :=
  ((getInoCache ino l).map InodeCache.dents).getD []

theorem Chained.dentsAt (h : Chained l) (hd : d ∈ l) : Build.dentsAt l d.ino = d.dents := by
  rw [Build.dentsAt,h.get_of_mem hd]
  rfl

theorem dentsAt_congr (hl : Chained l)
    (h : m.map InodeCache.shape = l.map InodeCache.shape) (i : ℕ) : dentsAt m i = dentsAt l i := by
  have hm : Chained m := hl.of_inos (inos_of_shape h)
  have hs : ∀ n : List InodeCache, Chained n → dentsAt n i =
      (((n.map InodeCache.shape).find? fun x => x.1 = i).map fun x => x.2.2.getD []).getD [] := by
    intro n hn
    rw [dentsAt,hn.getInoCache,find?_map,Option.map_map]
    rfl
  rw [hs m hm,hs l hl,h]

theorem Chained.pass1Inode (h : Chained sb.caches) (alloc : ℕ → ℕ → Bool) (ino : ℕ) :
    (pass1Inode alloc sb ino).caches.map InodeCache.shape = sb.caches.map InodeCache.shape ∧
      ∀ ic ∈ (pass1Inode alloc sb ino).caches, ∃ ic₀ ∈ sb.caches, ic₀.shape = ic.shape ∧
        ic.nlink = ic₀.nlink + count ic.ino (Build.dentsAt sb.caches ino) := by
  unfold Build.pass1Inode
  split
  · rename_i a b c scan hg
    obtain ⟨hm,hino⟩ := h.mem_of_get hg
    have hda : Build.dentsAt sb.caches ino = scan.dents := by
      rw [Build.dentsAt,hg]
      rfl
    have hc : Chained (modifyInoCache ino (fun ic => { ic with scan := some ⟨scan.dents,[]⟩ })
        sb.caches) := h.modify fun _ => rfl
    -- the cache itself keeps its entries
    have hself : ∀ ic ∈ sb.caches, (if ic.ino = ino then
        { ic with scan := some ⟨scan.dents,[]⟩ } else ic : InodeCache).shape = ic.shape := by
      intro ic hic
      split_ifs with he
      · rw [h.eq_of_ino hic hm (he.trans hino.symm)]
        rfl
      · rfl
    dsimp only
    rw [hc.foldl_linkChild,hda]
    constructor
    · unfold Build.addLinks modifyInoCache
      rw [map_map,map_map]
      exact map_congr_left fun ic hic => hself ic hic
    · intro ic hic
      obtain ⟨y,hy,rfl⟩ := mem_map.mp hic
      obtain ⟨x,hx,rfl⟩ := mem_map.mp hy
      refine ⟨x,hx,(hself x hx).symm,?_⟩
      grind
  · rename_i hg
    have hda : Build.dentsAt sb.caches ino = [] := by
      unfold Build.dentsAt
      cases hget : Build.getInoCache ino sb.caches with
      | none => rfl
      | some ic =>
        obtain ⟨a,b,c,scan⟩ := ic
        cases scan with
        | none => rfl
        | some scan => grind
    refine ⟨rfl,fun ic hic => ⟨ic,hic,rfl,?_⟩⟩
    rw [hda]
    exact (add_zero _).symm

theorem pass1_fold (alloc : ℕ → ℕ → Bool) (inos : List ℕ) (h : Chained sb.caches) :
    (inos.foldl (pass1Inode alloc) sb).caches.map InodeCache.shape =
        sb.caches.map InodeCache.shape ∧
      ∀ ic ∈ (inos.foldl (pass1Inode alloc) sb).caches, ∃ ic₀ ∈ sb.caches, ic₀.shape = ic.shape ∧
        ic.nlink = ic₀.nlink + (inos.map fun i => (count ic.ino (dentsAt sb.caches i) : ℤ)).sum := by
  induction inos generalizing sb with
  | nil => grind
  | cons i inos ih =>
    obtain ⟨hshape,hlinks⟩ := h.pass1Inode alloc i
    have hc : Chained (pass1Inode alloc sb i).caches := h.of_inos (inos_of_shape hshape)
    obtain ⟨hshape',hlinks'⟩ := ih hc
    refine ⟨hshape'.trans hshape,fun ic hic => ?_⟩
    obtain ⟨ic₁,h₁,hs₁,hn₁⟩ := hlinks' ic hic
    obtain ⟨ic₀,h₀,hs₀,hn₀⟩ := hlinks ic₁ h₁
    have hino : ic₁.ino = ic.ino := congrArg Prod.fst hs₁
    refine ⟨ic₀,h₀,hs₀.trans hs₁,?_⟩
    rw [hn₁,hn₀,hino,map_cons,sum_cons,add_assoc]
    simp [dentsAt_congr h hshape]

/-- The link that the root directory has of its own. -/
def root (k : ℕ) : ℤ := if k = 1 then 1 else 0

theorem pass1_links (alloc : ℕ → ℕ → Bool) (h : Chained sb.caches)
    (hroot : ∀ ic ∈ sb.caches, ic.nlink = root ic.ino) :
    (pass1 alloc sb).caches.map InodeCache.shape = sb.caches.map InodeCache.shape ∧
      ∀ ic ∈ (pass1 alloc sb).caches, ic.nlink = root ic.ino + links ic.ino (pass1 alloc sb).caches := by
  obtain ⟨hshape,hlinks⟩ := pass1_fold alloc (sb.caches.map InodeCache.ino) h
  refine ⟨hshape,fun ic hic => ?_⟩
  obtain ⟨ic₀,h₀,hs₀,hn₀⟩ := hlinks ic hic
  have hino : ic₀.ino = ic.ino := congrArg Prod.fst hs₀
  have hl : links ic.ino (pass1 alloc sb).caches = links ic.ino sb.caches := links_congr hshape _
  rw [hl,hn₀,hroot ic₀ h₀,hino,links,map_map]
  congr 2
  refine map_congr_left fun d hd => ?_
  show (count ic.ino (dentsAt sb.caches d.ino) : ℤ) = count ic.ino d.dents
  rw [h.dentsAt hd]

/-- What pass 2 keeps, from the file system `sb₀` of pass 1 on. -/
structure Inv (sb₀ sb : Sb) : Prop where
  chained : Chained sb.caches
  agree : ∀ ic ∈ sb.caches, ic.nlink = root ic.ino + links ic.ino sb.caches
  removed : ∀ ic ∈ sb.caches, ic.scan = none →
    ic.nlink = 0 ∧ ∀ ref ∈ ic.nodes, (sb.st.node ref).obsolete = true
  nodes : (sb.caches.map fun ic => (ic.ino,ic.nodes)) = sb₀.caches.map fun ic => (ic.ino,ic.nodes)
  dents : ∀ ic ∈ sb.caches, ic.scan ≠ none → ∃ ic₀ ∈ sb₀.caches, ic₀.ino = ic.ino ∧ ic₀.scan = ic.scan

theorem obsolete_foldl {refs : List ℕ} {st : Store} {ref : ℕ}
    (h : (st.node ref).obsolete = true ∨ ref ∈ refs) :
    ((refs.foldl Store.markNodeObsolete st).node ref).obsolete = true := by
  induction refs generalizing st with
  | nil => exact h.elim id fun h => absurd h not_mem_nil
  | cons r refs ih =>
    refine ih ?_
    rw [Store.markNodeObsolete_obsolete]
    grind

theorem Chained.split (h : Chained l) (hic : ic ∈ l) :
    ∃ pre post, l = pre ++ ic :: post ∧ (∀ x ∈ pre, x.ino ≠ ic.ino) ∧ ∀ x ∈ post, x.ino ≠ ic.ino := by
  obtain ⟨pre,post,rfl⟩ := append_of_mem hic
  have hsorted := pairwise_append.mp h.sorted
  exact ⟨pre,post,rfl,fun x hx => (hsorted.2.2 x hx ic mem_cons_self).ne,
    fun x hx => (rel_of_pairwise_cons hsorted.2.1 hx).ne'⟩

theorem Chained.sum_except (h : Chained l) (hic : ic ∈ l) (c : InodeCache → ℤ) :
    (l.map fun x => if x.ino = ic.ino then 0 else c x).sum = (l.map c).sum - c ic := by
  obtain ⟨pre,post,rfl,hpre,hpost⟩ := h.split hic
  rw [map_append,map_append,map_cons,map_cons,
    map_congr_left fun x hx => if_neg (hpre x hx),
    map_congr_left fun x hx => if_neg (hpost x hx),if_pos rfl]
  grind

section
variable {sb₀ sb : Sb} (h : Inv sb₀ sb) {ic : InodeCache} (hic : ic ∈ sb.caches)
  (hn : ic.nlink = 0) {scan : ScanInfo} (hs : ic.scan = some scan)

include h hs in
theorem Inv.remove_caches : (removeUnlinkedInode sb ic).1.caches = sb.caches.map fun x =>
    ⟨x.ino,x.nlink - count x.ino scan.dents,x.nodes,if x.ino = ic.ino then none else x.scan⟩ := by
  unfold removeUnlinkedInode
  rw [hs]
  dsimp only
  rw [h.chained.foldl_unlinkChild]
  unfold modifyInoCache addLinks
  rw [map_map]
  refine map_congr_left fun x _ => ?_
  grind

include h hic hs in
theorem Inv.no_entry (hx : x ∈ sb.caches) (hxn : x.nlink = 0) : count x.ino scan.dents = 0 := by
  have hl := h.agree x hx
  have hroot : 0 ≤ root x.ino := by
    unfold root
    split_ifs <;> decide
  have hle : (count x.ino ic.dents : ℤ) ≤ _ := count_le_links hic
  have hd : ic.dents = scan.dents := by rw [InodeCache.dents,hs]; rfl
  rw [hd] at hle
  omega

include h hic hn hs in
theorem Inv.remove : Inv sb₀ (removeUnlinkedInode sb ic).1 := by
  have hcaches := h.remove_caches hs
  have hst : (removeUnlinkedInode sb ic).1.st = ic.nodes.foldl Store.markNodeObsolete sb.st := by
    rw [removeUnlinkedInode,hs]
  have hd : ic.dents = scan.dents := by rw [InodeCache.dents,hs]; rfl
  have hlinks : ∀ k, links k (removeUnlinkedInode sb ic).1.caches =
      links k sb.caches - count k scan.dents := by
    intro k
    rw [hcaches,links,links,← hd,← h.chained.sum_except hic,map_map]
    congr 1
    refine map_congr_left fun x _ => ?_
    by_cases hx : x.ino = ic.ino
    · simp [hx,InodeCache.dents,count]
    · simp [hx,InodeCache.dents]
  constructor
  · rw [hcaches]
    exact h.chained.map fun _ => rfl
  · intro y hy
    rw [hlinks]
    rw [hcaches] at hy
    obtain ⟨x,hx,rfl⟩ := mem_map.mp hy
    rw [h.agree x hx]
    ring
  · intro y hy hys
    rw [hst]
    rw [hcaches] at hy
    obtain ⟨x,hx,rfl⟩ := mem_map.mp hy
    by_cases hxi : x.ino = ic.ino
    · have he := h.chained.eq_of_ino hx hic hxi
      subst he
      rw [h.no_entry hic hs hic hn,hn]
      exact ⟨rfl,fun ref href => obsolete_foldl (Or.inr href)⟩
    · rw [if_neg hxi] at hys
      obtain ⟨hxn,hobs⟩ := h.removed x hx hys
      rw [h.no_entry hic hs hx hxn,hxn]
      exact ⟨rfl,fun ref href => obsolete_foldl (Or.inl (hobs ref href))⟩
  · rw [hcaches,map_map,← h.nodes]
    rfl
  · intro y hy hys
    rw [hcaches] at hy
    obtain ⟨x,hx,rfl⟩ := mem_map.mp hy
    by_cases hxi : x.ino = ic.ino
    · grind
    · rw [if_neg hxi] at hys ⊢
      exact h.dents x hx hys

end

/-- The caches that are not removed. -/
def left (sb : Sb) : ℕ := sb.caches.countP fun ic => ic.scan.isSome

theorem Inv.left_remove (h : Inv sb₀ sb) (hic : ic ∈ sb.caches) {scan : ScanInfo}
    (hs : ic.scan = some scan) : left (removeUnlinkedInode sb ic).1 < left sb := by
  obtain ⟨pre,post,hl,hpre,hpost⟩ := h.chained.split hic
  have hsome : ∀ l : List InodeCache, (∀ x ∈ l, x.ino ≠ ic.ino) →
      (l.countP fun x => (if x.ino = ic.ino then none else x.scan : Option ScanInfo).isSome) =
        l.countP fun x => x.scan.isSome := by
    intro l hl
    refine countP_congr fun x hx => ?_
    rw [if_neg (hl x hx)]
  unfold left
  rw [h.remove_caches hs,countP_map,hl]
  simp only [Function.comp_def,countP_append,countP_cons,hsome pre hpre,hsome post hpost,
    hs,if_true,Option.isSome_none,Option.isSome_some,Bool.false_eq_true,if_false]
  omega

/-- What a round of pass 2 over the inodes `inos` leads to. -/
structure Round (sb₀ sb : Sb) (inos : List ℕ) (r : Sb × Bool) : Prop where
  inv : Inv sb₀ r.1
  le : left r.1 ≤ left sb
  lt : r.2 = true → left r.1 < left sb
  gone : ∀ x ∈ sb.caches, x.scan = none → ∀ y ∈ r.1.caches, y.ino = x.ino → y.scan = none
  same : r.2 = false →
    (r.1.caches.map fun x => (x.ino,x.nlink)) = sb.caches.map fun x => (x.ino,x.nlink)
  done : r.2 = false → ∀ y ∈ r.1.caches, y.nlink = 0 → y.ino ∈ inos → y.scan = none

theorem Inv.source {t : Sb} (h : Inv sb₀ sb) (ht : Inv sb₀ t) (hy : y ∈ t.caches) :
    ∃ x ∈ sb.caches, x.ino = y.ino := by
  have hm : (y.ino,y.nodes) ∈ sb.caches.map fun ic => (ic.ino,ic.nodes) := by
    rw [h.nodes,← ht.nodes]
    exact mem_map_of_mem (f := fun ic : InodeCache => (ic.ino,ic.nodes)) hy
  obtain ⟨x,hx,he⟩ := mem_map.mp hm
  grind

/-- The round goes on behind an inode that has links or was removed. -/
theorem Round.skip {inos : List ℕ} {r : Sb × Bool} (h : Round sb₀ sb inos r)
    (hino : r.2 = false → ∀ y ∈ r.1.caches, y.ino = ino → y.nlink = 0 → y.scan = none) :
    Round sb₀ sb (ino :: inos) r := by
  refine ⟨h.inv,h.le,h.lt,h.gone,h.same,fun hr y hy hn hm => ?_⟩
  rcases mem_cons.mp hm with he | hm
  · exact hino hr y hy he hn
  · exact h.done hr y hy hn hm

section
variable {sb₀ sb : Sb} {ic : InodeCache} {scan : ScanInfo}

theorem Inv.gone_remove (h : Inv sb₀ sb) (hs : ic.scan = some scan) (hx : x ∈ sb.caches)
    (hxs : x.scan = none) (hy : y ∈ (removeUnlinkedInode sb ic).1.caches) (he : y.ino = x.ino) :
    y.scan = none := by
  rw [h.remove_caches hs] at hy
  obtain ⟨z,hz,rfl⟩ := mem_map.mp hy
  have hzx := h.chained.eq_of_ino hz hx he
  grind

theorem Inv.scan_remove (h : Inv sb₀ sb) (hs : ic.scan = some scan)
    (hy : y ∈ (removeUnlinkedInode sb ic).1.caches) (he : y.ino = ic.ino) : y.scan = none := by
  rw [h.remove_caches hs] at hy
  obtain ⟨z,hz,rfl⟩ := mem_map.mp hy
  exact if_pos he

/-- An inode without entries of its own is removed and the round goes on. -/
theorem Round.remove {inos : List ℕ} {r : Sb × Bool} (h : Inv sb₀ sb) (hic : ic ∈ sb.caches)
    (hn : ic.nlink = 0) (hs : ic.scan = some scan) (hagain : (removeUnlinkedInode sb ic).2 = false)
    (hrest : Round sb₀ (removeUnlinkedInode sb ic).1 inos r) : Round sb₀ sb (ic.ino :: inos) r := by
  have hinv := h.remove hic hn hs
  have hlt := h.left_remove hic hs
  have hdents : scan.dents = [] := by
    rw [removeUnlinkedInode,hs] at hagain
    simpa using hagain
  refine Round.skip ⟨hrest.inv,hrest.le.trans hlt.le,fun ht => (hrest.lt ht).trans hlt,
    fun x hx hxs y hy he => ?_,fun hf => (hrest.same hf).trans ?_,hrest.done⟩ fun _ y hy he _ => ?_
  · obtain ⟨z,hz,hze⟩ := hinv.source hrest.inv hy
    exact hrest.gone z hz (h.gone_remove hs hx hxs hz (hze.trans he)) y hy hze.symm
  · rw [h.remove_caches hs,map_map,hdents]
    refine map_congr_left fun x _ => ?_
    show (x.ino,x.nlink - 0) = _
    rw [sub_zero]
  · obtain ⟨z,hz,hze⟩ := hinv.source hrest.inv hy
    exact hrest.gone z hz (h.scan_remove hs hz (hze.trans he)) y hy hze.symm

end

theorem Inv.round (h : Inv sb₀ sb) (inos : List ℕ) : Round sb₀ sb inos (pass2Round sb inos) := by
  induction inos generalizing sb with
  | nil =>
    refine ⟨h,le_rfl,fun hr => absurd hr Bool.false_ne_true,fun x hx hs y hy he => ?_,fun _ => rfl,
      fun _ _ _ _ hm => absurd hm not_mem_nil⟩
    rw [h.chained.eq_of_ino hy hx he]
    exact hs
  | cons ino inos ih =>
    unfold pass2Round
    cases hg : getInoCache ino sb.caches with
    | none =>
      refine (ih h).skip fun _ y hy he _ => ?_
      obtain ⟨x,hx,hxe⟩ := h.source (ih h).inv hy
      rw [← he,← hxe,h.chained.get_of_mem hx] at hg
      cases hg
    | some ic =>
      obtain ⟨hic,rfl⟩ := h.chained.mem_of_get hg
      dsimp only
      by_cases hn : ic.nlink = 0
      · rw [if_neg (not_not.mpr hn)]
        cases hs : ic.scan with
        | none =>
          have hr : removeUnlinkedInode sb ic = (sb,false) := by rw [removeUnlinkedInode,hs]
          rw [hr,if_neg Bool.false_ne_true]
          exact (ih h).skip fun _ y hy he _ => (ih h).gone ic hic hs y hy he
        | some scan =>
          have hinv := h.remove hic hn hs
          have hlt := h.left_remove hic hs
          by_cases hr : (removeUnlinkedInode sb ic).2 = true
          · rw [if_pos hr]
            exact ⟨hinv,hlt.le,fun _ => hlt,fun x hx hxs y hy he => h.gone_remove hs hx hxs hy he,
              fun hf => absurd (hf.symm.trans hr) Bool.false_ne_true,
              fun hf => absurd (hf.symm.trans hr) Bool.false_ne_true⟩
          · rw [if_neg hr]
            exact Round.remove h hic hn hs (Bool.eq_false_iff.mpr hr) (ih hinv)
      · rw [if_pos hn]
        refine (ih h).skip fun hf y hy he hyn => ?_
        -- the counts have not changed, so the inode still has its links
        have hm : (y.ino,y.nlink) ∈ sb.caches.map fun x => (x.ino,x.nlink) := by
          rw [← (ih h).same hf]
          exact mem_map_of_mem (f := fun x : InodeCache => (x.ino,x.nlink)) hy
        obtain ⟨x,hx,hxe⟩ := mem_map.mp hm
        have hxi := h.chained.eq_of_ino hx hic ((congrArg Prod.fst hxe).trans he)
        grind

/-- Pass 2 comes to an end, and then no inode without links is left. -/
theorem Inv.pass2 (h : Inv sb₀ sb) {n : ℕ} (hn : left sb < n) :
    ∃ t, Build.pass2 n sb = some t ∧ Inv sb₀ t ∧ ∀ ic ∈ t.caches, ic.nlink = 0 → ic.scan = none := by
  induction n generalizing sb with
  | zero => omega
  | succ n ih =>
    have hround := h.round (sb.caches.map InodeCache.ino)
    unfold Build.pass2
    by_cases hr : (pass2Round sb (sb.caches.map InodeCache.ino)).2 = true
    · rw [if_pos hr]
      exact ih hround.inv (lt_of_lt_of_le (hround.lt hr) (Nat.le_of_lt_succ hn))
    · rw [if_neg hr]
      rw [Bool.not_eq_true] at hr
      refine ⟨_,rfl,hround.inv,fun ic hic hz => hround.done hr ic hic hz ?_⟩
      obtain ⟨x,hx,hxe⟩ := h.source hround.inv hic
      exact hxe ▸ mem_map_of_mem hx

/-- The nodes of an inode among those that the scan has found. -/
def foundOf (found : List Found) (ino : ℕ) : List Found := found.filter fun x => x.ino = ino

/-- What a node adds to the entries of its directory. -/
def fileFd (st : Store) (dents : List FullDirent) (x : Found) : List FullDirent :=
  match (st.node x.ref).raw with
  | .inode _ _ => dents
  | .dirent rd name =>
    if x.accurate then
      (addFdToList ⟨x.ref,rd.version,rd.ino,rd.type,fullNameHash name,name⟩ dents).1
    else dents

/-- The caches hold what has been found, and no link but that of the root. -/
structure Scanned (st : Store) (found : List Found) (l : List InodeCache) : Prop where
  chained : Chained l
  all : ∀ x ∈ found, ∃ ic ∈ l, ic.ino = x.ino
  caches : ∀ ic ∈ l, ic.nlink = root ic.ino ∧
    ic.nodes = ((foundOf found ic.ino).map Found.ref).reverse ∧
    ic.scan.map ScanInfo.dents = some ((foundOf found ic.ino).foldl (fileFd st) [])

theorem mem_addInoCache : x ∈ addInoCache new l ↔ x = new ∨ x ∈ l := by
  fun_induction addInoCache new l with
  | case1 => simp
  | case2 ic l _ ih =>
    grind
  | case3 ic l => exact mem_cons

theorem Chained.addInoCache (h : Chained l) (h0 : new.ino ≠ 0) (hn : ∀ ic ∈ l, ic.ino ≠ new.ino) :
    Chained (addInoCache new l) := by
  refine ⟨?_,fun ic hic => (mem_addInoCache.mp hic).elim (fun he => he ▸ h0) (h.pos ic)⟩
  induction l with
  | nil => exact pairwise_singleton _ _
  | cons ic l ih =>
    have hrest := pairwise_cons.mp h.sorted
    unfold Build.addInoCache
    split_ifs with hlt
    · refine pairwise_cons.mpr ⟨fun x hx => ?_,ih ⟨hrest.2,fun a ha => h.pos a
        (mem_cons_of_mem ic ha)⟩ fun a ha => hn a (mem_cons_of_mem ic ha)⟩
      exact (mem_addInoCache.mp hx).elim (fun he => he ▸ hlt) (hrest.1 x)
    · have hgt :=
        lt_of_le_of_ne (not_lt.mp hlt) (hn ic mem_cons_self).symm
      refine pairwise_cons.mpr ⟨fun x hx => ?_,h.sorted⟩
      grind

section
variable {st : Store} {x : Found} (h : Scanned st found l)
include h

theorem Scanned.make (h0 : ino ≠ 0) : Scanned st found (scanMakeInoCache ino l) ∧
    ∃ ic ∈ scanMakeInoCache ino l, ic.ino = ino := by
  unfold scanMakeInoCache
  split
  · next ic hg => exact ⟨h,ic,h.chained.mem_of_get hg⟩
  · next hg =>
    rw [h.chained.getInoCache] at hg
    have hno : ∀ ic ∈ l, ic.ino ≠ ino := by
      grind
    have hnone : foundOf found ino = [] := by
      refine filter_eq_nil_iff.mpr fun x hx => ?_
      obtain ⟨ic,hic,he⟩ := h.all x hx
      simpa using fun hxi => hno ic hic (he.trans hxi)
    refine ⟨⟨h.chained.addInoCache h0 hno,fun x hx => ?_,fun ic hic => ?_⟩,_,
      mem_addInoCache.mpr (Or.inl rfl),rfl⟩
    · obtain ⟨ic,hic,he⟩ := h.all x hx
      exact ⟨ic,mem_addInoCache.mpr (Or.inr hic),he⟩
    · rcases mem_addInoCache.mp hic with rfl | hic
      · simp only [hnone]
        exact ⟨rfl,rfl,rfl⟩
      · exact h.caches ic hic

/-- The node goes to the front of the references of its inode. -/
theorem Scanned.file {g : InodeCache → InodeCache} (hic : ic ∈ l) (he : ic.ino = x.ino)
    (hg : ∀ c, (g c).ino = c.ino ∧ (g c).nlink = c.nlink ∧ (g c).nodes = x.ref :: c.nodes)
    (hs : (g ic).scan.map ScanInfo.dents = ic.scan.map fun s => fileFd st s.dents x) :
    Scanned st (found ++ [x]) (modifyInoCache x.ino g l) := by
  have hof : ∀ k, foundOf (found ++ [x]) k = foundOf found k ++ if x.ino = k then [x] else [] := by
    intro k
    rw [foundOf,filter_append,filter_singleton]
    by_cases hk : x.ino = k <;> simp [hk,foundOf]
  have hino : ∀ c : InodeCache, (if c.ino = x.ino then g c else c).ino = c.ino := by
    grind
  refine ⟨h.chained.map hino,fun y hy => ?_,fun c' hc' => ?_⟩
  · obtain ⟨c,hc,hce⟩ : ∃ c ∈ l, c.ino = y.ino := by
      rcases mem_append.mp hy with hy | hy
      · exact h.all y hy
      · exact ⟨ic,hic,by rw [mem_singleton.mp hy,he]⟩
    exact ⟨_,mem_map_of_mem hc,(hino c).trans hce⟩
  · obtain ⟨c,hc,rfl⟩ := mem_map.mp hc'
    obtain ⟨hn,hnodes,hscan⟩ := h.caches c hc
    by_cases hcx : c.ino = x.ino
    · obtain rfl := h.chained.eq_of_ino hc hic (hcx.trans he.symm)
      obtain ⟨s,hcs,hsd⟩ := Option.map_eq_some_iff.mp hscan
      obtain ⟨hgi,hgl,hgn⟩ := hg c
      rw [if_pos hcx,hgi,hgl,hgn,hof,if_pos hcx.symm]
      refine ⟨hn,by simp [hnodes],?_⟩
      rw [foldl_append,hs,hcs,← hsd]
      rfl
    · rw [if_neg hcx,hof,if_neg (Ne.symm hcx),append_nil]
      exact ⟨hn,hnodes,hscan⟩

end

theorem Scanned.scanNode {st : Store} {x : Found} (h : Scanned st found sb.caches)
    (hraw : ∀ i, (sb.st.node i).raw = (st.node i).raw) (h0 : x.ino ≠ 0) :
    Scanned st (found ++ [x]) (scanNode sb x).caches ∧
      ∀ i, ((scanNode sb x).st.node i).raw = (st.node i).raw := by
  obtain ⟨hmake,ic,hic,he⟩ := h.make h0
  obtain ⟨scan,hscan,-⟩ := Option.map_eq_some_iff.mp (hmake.caches ic hic).2.2
  let file (c : InodeCache) : InodeCache := { c with nodes := x.ref :: c.nodes }
  have hfile : ∀ c : InodeCache, (file c).ino = c.ino := fun _ => rfl
  have hget : getInoCache x.ino (modifyInoCache x.ino file (scanMakeInoCache x.ino sb.caches)) =
      some ⟨ic.ino,ic.nlink,x.ref :: ic.nodes,some scan⟩ := by
    rw [← he,← hscan]
    exact (he ▸ hmake.chained).get_modify hfile (he ▸ hic)
  unfold Build.scanNode
  dsimp only
  rw [hget]
  cases hr : (sb.st.node x.ref).raw with
  | inode ri data =>
    have hsame : ∀ l, fileFd st l x = l := fun l => by rw [fileFd,← hraw,hr]
    dsimp only
    split_ifs
    · rw [modify_modify hfile]
      refine ⟨hmake.file hic he (fun c => ⟨rfl,rfl,rfl⟩) ?_,fun i => ?_⟩
      · simp [hscan,hsame]
      · rw [Store.setFrags_raw,Store.setFullDnode,Store.modify_node,← hraw]
        split_ifs with hi
        · rw [hi]
        · rfl
    · refine ⟨hmake.file hic he (fun c => ⟨rfl,rfl,rfl⟩) ?_,fun i => ?_⟩
      · simp [hscan,hsame]
      · rw [Store.markNodeObsolete_raw,hraw]
  | dirent rd name =>
    dsimp only
    split_ifs with ha
    · rw [modify_modify hfile]
      refine ⟨hmake.file hic he (fun c => ⟨rfl,rfl,rfl⟩) ?_,fun i => ?_⟩
      · simp [hscan,fileFd,← hraw,hr,ha]
      · cases (addFdToList ⟨x.ref,rd.version,rd.ino,rd.type,fullNameHash name,name⟩ scan.dents).2 with
        | none => exact hraw i
        | some ref => exact (Store.markNodeObsolete_raw ..).trans (hraw i)
    · refine ⟨hmake.file hic he (fun c => ⟨rfl,rfl,rfl⟩) ?_,fun i => ?_⟩
      · simp [hscan,fileFd,← hraw,hr,ha]
      · rw [Store.markNodeObsolete_raw,hraw]

theorem scanned_spec (st : Store) (h0 : ∀ x ∈ found, x.ino ≠ 0) :
    Scanned st found (scanned st found).caches ∧
      ∀ i, ((scanned st found).st.node i).raw = (st.node i).raw := by
  induction found using reverseRecOn with
  | nil =>
    refine ⟨⟨⟨.nil,?_⟩,?_,?_⟩,fun _ => rfl⟩ <;> exact fun _ hic => absurd hic not_mem_nil
  | append_singleton found x ih =>
    obtain ⟨hf,hraw⟩ := ih fun y hy => h0 y (mem_append_left _ hy)
    rw [scanned,foldl_append]
    exact hf.scanNode hraw (h0 x (by simp))

theorem exists_shape (h : l.map InodeCache.shape = m.map InodeCache.shape) (hic : ic ∈ l) :
    ∃ ic₀ ∈ m, ic₀.shape = ic.shape :=
  mem_map.mp (h ▸ mem_map_of_mem hic)

theorem Scanned.inv_pass1 {st : Store} (h : Scanned st found sb.caches) (alloc : ℕ → ℕ → Bool) :
    Inv (pass1 alloc sb) (pass1 alloc sb) := by
  obtain ⟨hshape,hagree⟩ := pass1_links alloc h.chained fun ic hic => (h.caches ic hic).1
  refine ⟨h.chained.of_inos (inos_of_shape hshape),hagree,fun ic hic hs => ?_,rfl,
    fun ic hic _ => ⟨ic,hic,rfl,rfl⟩⟩
  obtain ⟨ic₀,h₀,he⟩ := exists_shape hshape hic
  have hscan : ic₀.scan.map ScanInfo.dents = ic.scan.map ScanInfo.dents :=
    congrArg (fun x => x.2.2) he
  rw [hs,(h.caches ic₀ h₀).2.2] at hscan
  cases hscan

/-- Mounting ends, with the link count of every inode the number of its live entries in the
directories that were not removed, and exactly the inodes without links removed. -/
theorem build_unlinked (st : Store) (alloc : ℕ → ℕ → Bool) (found : List Found)
    (h0 : ∀ x ∈ found, x.ino ≠ 0) :
    ∃ u, pass2 ((scanned st found).caches.length + 1) (pass1 alloc (scanned st found)) = some u ∧
      buildFilesystem ((scanned st found).caches.length + 1) alloc (scanned st found) =
        some (pass3 u) ∧
      (∀ ic ∈ u.caches, ic.nlink = root ic.ino + links ic.ino u.caches) ∧
      (∀ ic ∈ u.caches, ic.nlink = 0 ↔ ic.scan = none) ∧
      (∀ ic ∈ u.caches, ic.nlink = 0 → ∀ ref ∈ ic.nodes, (u.st.node ref).obsolete = true) ∧
      (∀ x ∈ found, ∃ ic ∈ u.caches, ic.ino = x.ino) ∧
      (∀ ic ∈ u.caches, ic.nodes = ((foundOf found ic.ino).map Found.ref).reverse) ∧
      ∀ ic ∈ u.caches, ic.scan ≠ none → ic.dents = (foundOf found ic.ino).foldl (fileFd st) [] := by
  obtain ⟨hf,-⟩ := scanned_spec st h0
  obtain ⟨hshape,-⟩ := pass1_links alloc hf.chained fun ic hic => (hf.caches ic hic).1
  have hleft : left (pass1 alloc (scanned st found)) < (scanned st found).caches.length + 1 := by
    refine Nat.lt_succ_of_le ?_
    have hlen := congrArg length hshape
    rw [length_map,length_map] at hlen
    exact hlen ▸ countP_le_length
  obtain ⟨u,hu,hinv,hdone⟩ := (hf.inv_pass1 alloc).pass2 hleft
  have hnodes : (u.caches.map fun ic => (ic.ino,ic.nodes)) =
      (scanned st found).caches.map fun ic => (ic.ino,ic.nodes) := by
    have hs : ∀ n : List InodeCache, (n.map fun ic => (ic.ino,ic.nodes)) =
        (n.map InodeCache.shape).map fun x => (x.1,x.2.1) := by
      intro n
      rw [map_map]
      rfl
    rw [hinv.nodes,hs,hs,hshape]
  refine ⟨u,hu,by rw [buildFilesystem,hu]; rfl,hinv.agree,fun ic hic =>
    ⟨hdone ic hic,fun hs => (hinv.removed ic hic hs).1⟩,
    fun ic hic hz => (hinv.removed ic hic (hdone ic hic hz)).2,fun x hx => ?_,fun ic hic => ?_,
    fun ic hic hs => ?_⟩
  · obtain ⟨ic₀,h₀,hx⟩ := hf.all x hx
    obtain ⟨ic,hic,he⟩ := mem_map.mp (hnodes ▸ mem_map_of_mem h₀)
    exact ⟨ic,hic,(congrArg Prod.fst he).trans hx⟩
  · obtain ⟨ic₀,h₀,he⟩ := mem_map.mp
      (hnodes ▸ mem_map_of_mem (f := fun ic : InodeCache => (ic.ino,ic.nodes)) hic)
    obtain ⟨hino,hn⟩ := Prod.mk.inj he
    rw [← hn,← hino]
    exact (hf.caches ic₀ h₀).2.1
  · obtain ⟨ic₁,h₁,hino₁,hscan₁⟩ := hinv.dents ic hic hs
    obtain ⟨ic₀,h₀,he⟩ := exists_shape hshape h₁
    have hino : ic₀.ino = ic.ino := (congrArg Prod.fst he).trans hino₁
    have hscan : ic₀.scan.map ScanInfo.dents = ic₁.scan.map ScanInfo.dents :=
      congrArg (fun x => x.2.2) he
    rw [InodeCache.dents,← hscan₁,← hscan,(hf.caches ic₀ h₀).2.2,hino]
    rfl

def orphanStore : Store :=
  ⟨2,fun i => ⟨if i = 1 then .dirent ⟨1,3,8⟩ [97] else .inode ⟨68,1,.reg,0,0,0,0,.none⟩ [],
    false,⟨0,0,0⟩⟩⟩

/-- A directory without a link, with the file in it: both are removed. -/
theorem build_unlinked_orphan :
    ∃ u, pass2 3 (pass1 (fun _ _ => true) (scanned orphanStore
        [⟨0,3,true,false⟩,⟨1,2,true,true⟩])) = some u ∧
      (u.caches.map fun ic => (ic.ino,ic.nlink)) = [(2,0),(3,0)] ∧
      ∀ ic ∈ u.caches, ic.scan = none := by
  have hc : (pass2 3 (pass1 (fun _ _ => true) (scanned orphanStore
      [⟨0,3,true,false⟩,⟨1,2,true,true⟩]))).map (fun u => u.caches.map fun ic => (ic.ino,ic.nlink)) =
      some [(2,0),(3,0)] := by decide +kernel
  obtain ⟨u,hu,-,-,hrem,-⟩ := build_unlinked orphanStore (fun _ _ => true)
    [⟨0,3,true,false⟩,⟨1,2,true,true⟩] (by decide)
  have hlen : (scanned orphanStore [⟨0,3,true,false⟩,⟨1,2,true,true⟩]).caches.length + 1 = 3 := by
    decide +kernel
  rw [hlen] at hu
  rw [hu] at hc
  have hl := Option.some.inj hc
  refine ⟨u,hu,hl,fun ic hic => (hrem ic hic).mp ?_⟩
  have hm : (ic.ino,ic.nlink) ∈ [((2 : ℕ),(0 : ℤ)),(3,0)] := by
    grind
  grind

end Simpad.Jffs2.Build
