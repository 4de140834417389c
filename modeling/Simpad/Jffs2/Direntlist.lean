import Mathlib.Data.List.TakeWhile
import Simpad.Jffs2.Dirent

namespace Simpad.Jffs2

open List

variable {name : List Byte} {a fd : FullDirent} {l : List FullDirent}

theorem cstring_of_not_mem (h : 0 ∉ name) : cstring name = name := by
  refine takeWhile_eq_self_iff.mpr fun b hb => ?_
  exact decide_eq_true fun h0 => h (h0 ▸ hb)

/-- The entry that `jffs2_lookup` settles on. -/
def lookup (l : List FullDirent) (name : List Byte) : Option FullDirent :=
  (l.takeWhile fun fd => fd.nhash ≤ fullNameHash name).foldl
    (fun best fd =>
      if fd.nhash = fullNameHash name ∧ (∀ b ∈ best, b.version < fd.version) ∧
          cstring fd.name = name then some fd
      else best) none

structure Listed (l : List FullDirent) : Prop where
  sorted : l.Pairwise fun a b => a.nhash ≤ b.nhash
  names : l.Pairwise fun a b => cstring a.name ≠ cstring b.name
  hash : ∀ fd ∈ l, fd.nhash = fullNameHash (cstring fd.name)

def entry (l : List FullDirent) (name : List Byte) : Option FullDirent :=
  l.find? fun fd => cstring fd.name = name

def count (k : ℕ) (l : List FullDirent) : ℕ := l.countP fun fd => fd.ino = k

def hit (k : ℕ) (o : Option FullDirent) : ℕ := if o.any (fun fd => fd.ino = k) then 1 else 0

theorem Listed.nil : Listed [] := ⟨.nil,.nil,fun _ h => absurd h not_mem_nil⟩

section
variable {fd : FullDirent} {l : List FullDirent} (h : Listed (fd :: l))
include h

theorem Listed.tail : Listed l :=
  ⟨h.sorted.of_cons,h.names.of_cons,fun a ha => h.hash a (mem_cons_of_mem fd ha)⟩

theorem Listed.head_le (ha : a ∈ l) : fd.nhash ≤ a.nhash :=
  rel_of_pairwise_cons h.sorted ha

end

theorem entry_cons (fd : FullDirent) (l : List FullDirent) (name : List Byte) :
    entry (fd :: l) name = if cstring fd.name = name then some fd else entry l name := by
  by_cases hn : cstring fd.name = name
  · simp [entry,hn]
  · simp [entry,hn]

theorem entry_eq_none (h : ∀ fd ∈ l, cstring fd.name ≠ name) : entry l name = none :=
  find?_eq_none.mpr fun fd hfd => by simpa using h fd hfd

theorem entry_some (h : entry l name = some fd) : fd ∈ l ∧ cstring fd.name = name :=
  ⟨mem_of_find?_eq_some h,by simpa using find?_some h⟩

theorem Listed.entry_of_lt (h : Listed (fd :: l)) (hlt : fullNameHash name < fd.nhash) :
    entry (fd :: l) name = none := by
  refine entry_eq_none fun a ha hn => ?_
  have hle : fd.nhash ≤ a.nhash := by
    rcases mem_cons.mp ha with rfl | ha
    · exact le_rfl
    · exact h.head_le ha
  rw [h.hash a ha,hn] at hle
  omega

/-- Sorted by hash, and no two entries that the list takes for the same name. -/
structure Filed (l : List FullDirent) : Prop where
  sorted : l.Pairwise fun a b => a.nhash ≤ b.nhash
  apart : l.Pairwise fun a b => ¬(a.nhash = b.nhash ∧ cstring a.name = cstring b.name)

/-- The entry that has the hash of the name as well as the name. -/
def held (l : List FullDirent) (name : List Byte) : Option FullDirent :=
  l.find? fun fd => fd.nhash = fullNameHash name ∧ cstring fd.name = name

theorem held_cons (fd : FullDirent) (l : List FullDirent) (name : List Byte) :
    held (fd :: l) name =
      if fd.nhash = fullNameHash name ∧ cstring fd.name = name then some fd else held l name := by
  by_cases h : fd.nhash = fullNameHash name ∧ cstring fd.name = name
  · rw [if_pos h,held,find?_cons_of_pos (by simpa using h)]
  · rw [if_neg h,held,find?_cons_of_neg (by simpa using h)]
    rfl

theorem held_eq_none (h : ∀ fd ∈ l, ¬(fd.nhash = fullNameHash name ∧ cstring fd.name = name)) :
    held l name = none :=
  find?_eq_none.mpr fun fd hfd => by simpa using h fd hfd

theorem Filed.nil : Filed [] := ⟨.nil,.nil⟩

section
variable {fd : FullDirent} {l : List FullDirent} {name : List Byte} (h : Filed (fd :: l))
include h

theorem Filed.tail : Filed l := ⟨h.sorted.of_cons,h.apart.of_cons⟩

theorem Filed.head_le (ha : a ∈ l) : fd.nhash ≤ a.nhash :=
  rel_of_pairwise_cons h.sorted ha

end

theorem Filed.lookup (h : Filed l) (name : List Byte) : Jffs2.lookup l name = held l name := by
  -- an entry found is kept, since no later one passes the test
  have hkeep : ∀ (l : List FullDirent) (acc : Option FullDirent),
      (∀ fd ∈ l, ¬(fd.nhash = fullNameHash name ∧ cstring fd.name = name)) →
      (l.foldl (fun best fd =>
        if fd.nhash = fullNameHash name ∧ (∀ b ∈ best, b.version < fd.version) ∧
            cstring fd.name = name then some fd
        else best) acc) = acc := by
    intro l acc hl
    induction l with
    | nil => rfl
    | cons fd l ih =>
      rw [foldl_cons,if_neg fun hc => hl fd mem_cons_self ⟨hc.1,hc.2.2⟩]
      exact ih fun a ha => hl a (mem_cons_of_mem fd ha)
  induction l with
  | nil => rfl
  | cons fd l ih =>
    unfold Jffs2.lookup at ih ⊢
    by_cases hle : fd.nhash ≤ fullNameHash name
    · rw [takeWhile_cons_of_pos (by simpa using hle),foldl_cons,held_cons]
      by_cases hm : fd.nhash = fullNameHash name ∧ cstring fd.name = name
      · rw [if_pos ⟨hm.1,fun b hb => absurd hb (by simp),hm.2⟩,if_pos hm]
        refine hkeep _ _ fun a ha hb => ?_
        exact rel_of_pairwise_cons h.apart (takeWhile_subset _ ha)
          ⟨hm.1.trans hb.1.symm,hm.2.trans hb.2.symm⟩
      · rw [if_neg fun hc => hm ⟨hc.1,hc.2.2⟩,if_neg hm]
        exact ih h.tail
    · -- every hash from here on is too great
      rw [takeWhile_cons_of_neg (by simpa using hle),held_eq_none]
      · rfl
      · intro a ha hb
        rcases mem_cons.mp ha with rfl | ha
        · exact hle hb.1.le
        · exact hle ((h.head_le ha).trans hb.1.le)

theorem Listed.filed (h : Listed l) : Filed l :=
  ⟨h.sorted,h.names.imp fun hne heq => hne heq.2⟩

theorem Listed.held_eq (h : Listed l) (name : List Byte) : held l name = entry l name := by
  refine find?_congr fun fd hfd => ?_
  -- the hash of an entry is the one of its name
  refine decide_eq_decide.mpr ⟨And.right,fun hn => ⟨?_,hn⟩⟩
  rw [h.hash fd hfd,hn]

theorem Listed.lookup (h : Listed l) (name : List Byte) : Jffs2.lookup l name = entry l name :=
  (h.filed.lookup name).trans (h.held_eq name)

theorem Filed.listed (h : Filed l) (hh : ∀ fd ∈ l, fd.nhash = fullNameHash (cstring fd.name)) :
    Listed l := by
  refine ⟨h.sorted,h.apart.imp_of_mem fun ha hb hne heq => hne ⟨?_,heq⟩,hh⟩
  rw [hh _ ha,hh _ hb,heq]

section
variable {new : FullDirent} {l : List FullDirent}

theorem mem_addFd (h : a ∈ (addFdToList new l).1) : a = new ∨ a ∈ l := by
  fun_induction addFdToList new l with
  | case1 => exact Or.inl (mem_singleton.mp h)
  | case2 => exact Or.inr h
  | case3 prev rest =>
    grind
  | case4 prev rest _ _ r ih =>
    grind
  | case5 prev rest =>
    grind

section
variable (h : Filed l)
include h

theorem filed_addFd : Filed (addFdToList new l).1 := by
  fun_induction addFdToList new l with
  | case1 => exact ⟨pairwise_singleton _ _,pairwise_singleton _ _⟩
  | case2 => exact h
  | case3 prev rest _ hc =>
    refine ⟨pairwise_cons.mpr ⟨fun a ha => ?_,h.tail.sorted⟩,
      pairwise_cons.mpr ⟨fun a ha hb => ?_,h.tail.apart⟩⟩
    · exact hc.1 ▸ h.head_le ha
    · exact rel_of_pairwise_cons h.apart ha ⟨hc.1.trans hb.1,hc.2.trans hb.2⟩
  | case4 prev rest hle hc r ih =>
    have hr : Filed r.1 := ih h.tail
    refine ⟨pairwise_cons.mpr ⟨fun a ha => ?_,hr.sorted⟩,
      pairwise_cons.mpr ⟨fun a ha => ?_,hr.apart⟩⟩
    · rcases mem_addFd ha with rfl | ha
      · exact hle
      · exact h.head_le ha
    · rcases mem_addFd ha with rfl | ha
      · exact hc
      · exact rel_of_pairwise_cons h.apart ha
  | case5 prev rest hle =>
    have hlt : ∀ a ∈ prev :: rest, new.nhash < a.nhash := by
      intro a ha
      rcases mem_cons.mp ha with rfl | ha
      · exact not_le.mp hle
      · exact lt_of_lt_of_le (not_le.mp hle) (h.head_le ha)
    exact ⟨pairwise_cons.mpr ⟨fun a ha => (hlt a ha).le,h.sorted⟩,
      pairwise_cons.mpr ⟨fun a ha hb => absurd hb.1 (hlt a ha).ne,h.apart⟩⟩

theorem held_addFd (name : List Byte) : held (addFdToList new l).1 name =
    if new.nhash = fullNameHash name ∧ cstring new.name = name then
      some (match held l name with
        | some g => if new.version < g.version then g else new
        | none => new)
    else held l name := by
  fun_induction addFdToList new l with
  | case1 => rw [held_cons]; rfl
  | case2 prev rest _ hc hlt =>
    rw [held_cons,hc.1,hc.2]
    grind
  | case3 prev rest _ hc hlt =>
    rw [held_cons,held_cons,hc.1,hc.2]
    grind
  | case4 prev rest _ hc r ih =>
    have hr : held r.1 name = _ := ih h.tail
    rw [held_cons,held_cons,hr]
    grind
  | case5 prev rest hle =>
    rw [held_cons]
    split
    · next hn =>
      -- from here on every hash is greater than the one of the name
      rw [held_eq_none]
      intro a ha hb
      have hge : prev.nhash ≤ a.nhash := by
        rcases mem_cons.mp ha with rfl | ha
        · exact le_rfl
        · exact h.head_le ha
      exact hle (hge.trans (hb.1.trans hn.1.symm).le)
    · rfl

end

variable (h : Listed l) (hn : new.nhash = fullNameHash (cstring new.name))
include h hn

/-- What an insertion does to the list: a name that is not there gets a place of its own, an entry
with the name stays or gives way. -/
theorem addFd_split :
    (entry l (cstring new.name) = none ∧
      addFdToList new l = ((l.takeWhile fun fd => fd.nhash ≤ new.nhash) ++
        new :: l.dropWhile fun fd => fd.nhash ≤ new.nhash,none)) ∨
    ∃ prev l₁ l₂, l = l₁ ++ prev :: l₂ ∧ cstring prev.name = cstring new.name ∧
      addFdToList new l =
        if new.version < prev.version then (l,some new.raw) else (l₁ ++ new :: l₂,some prev.raw) := by
  fun_induction addFdToList new l with
  | case1 => exact Or.inl ⟨rfl,rfl⟩
  | case2 prev rest _ hc hlt => exact Or.inr ⟨prev,[],rest,rfl,hc.2,(if_pos hlt).symm⟩
  | case3 prev rest _ hc hlt => exact Or.inr ⟨prev,[],rest,rfl,hc.2,(if_neg hlt).symm⟩
  | case4 prev rest hle hc r ih =>
    have hne : cstring prev.name ≠ cstring new.name := by
      intro he
      exact hc ⟨by rw [h.hash prev mem_cons_self,hn,he],he⟩
    obtain ⟨hnone,hr⟩ | ⟨q,l₁,l₂,hl,hq,hr⟩ := ih h.tail
    · refine Or.inl ⟨?_,?_⟩
      · rw [entry_cons,if_neg hne,hnone]
      · rw [show r = _ from hr,takeWhile_cons_of_pos (by simpa using hle),
          dropWhile_cons_of_pos (by simpa using hle)]
        rfl
    · grind
  | case5 prev rest hle =>
    refine Or.inl ⟨h.entry_of_lt (hn ▸ not_le.mp hle),?_⟩
    rw [takeWhile_cons_of_neg (by simpa using hle),
      dropWhile_cons_of_neg (by simpa using hle)]
    rfl

theorem listed_addFd : Listed (addFdToList new l).1 := by
  refine (filed_addFd h.filed).listed fun fd hfd => ?_
  rcases mem_addFd hfd with rfl | hfd
  · exact hn
  · exact h.hash fd hfd

variable (hv : ∀ fd ∈ l, fd.version ≤ new.version)
include hv

theorem entry_addFd (name : List Byte) :
    entry (addFdToList new l).1 name = if cstring new.name = name then some new else entry l name := by
  rw [← (listed_addFd h hn).held_eq,← h.held_eq,held_addFd h.filed]
  by_cases hname : cstring new.name = name
  · rw [if_pos hname,if_pos ⟨hname ▸ hn,hname⟩]
    cases hg : held l name with
    | none => rfl
    | some g => exact congrArg some (if_neg (hv g (mem_of_find?_eq_some hg)).not_gt)
  · rw [if_neg hname,if_neg fun hc => hname hc.2]

theorem count_addFd (k : ℕ) :
    count k (addFdToList new l).1 + hit k (entry l (cstring new.name)) =
      count k l + hit k (some new) := by
  have hcons : ∀ (a : FullDirent) (m : List FullDirent),
      count k (a :: m) = count k m + hit k (some a) := by
    intro a m
    unfold count hit
    rw [countP_cons]
    rfl
  fun_induction addFdToList new l with
  | case1 =>
    rw [hcons]
    rfl
  | case2 prev rest _ _ hlt => grind
  | case3 prev rest _ hc =>
    rw [entry_cons,if_pos hc.2,hcons,hcons]
    omega
  | case4 prev rest hle hc r ih =>
    have hr : count k r.1 + _ = _ := ih h.tail fun fd hfd => hv fd (mem_cons_of_mem prev hfd)
    have hne : cstring prev.name ≠ cstring new.name := by
      intro he
      exact hc ⟨by rw [h.hash prev mem_cons_self,hn,he],he⟩
    rw [entry_cons,if_neg hne,hcons,hcons]
    omega
  | case5 prev rest hle =>
    rw [h.entry_of_lt (hn ▸ not_le.mp hle),hcons]
    rfl

end

end Simpad.Jffs2
