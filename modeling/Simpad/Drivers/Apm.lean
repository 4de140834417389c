import Simpad.Base.Chain
import Simpad.Base.Runs

namespace Simpad.Apm
open Chains List Function Runs

/-- The `magic` and `next` fields of an `apm_user`. -/
structure ApmUser where
  magic : ℕ
  next : Option ℕ

def apmBiosMagic : ℕ := 0x4101

/-- The memory, the head of the list, and the open files with their `private_data`; no two
files share their user, and the users in use have their magic number. -/
structure State where
  heap : ℕ → ApmUser
  userList : Option ℕ
  files : List (ℕ × ℕ)
  owned : (files.map Prod.snd).Nodup
  marked : ∀ a ∈ files.map Prod.snd, (heap a).magic = apmBiosMagic

def State.init : State where
  heap := fun _ => ⟨0,none⟩
  userList := none
  files := []
  owned := nodup_nil
  marked := fun _ ha => absurd ha not_mem_nil

def State.users (s : State) : List ℕ := s.files.map Prod.snd

def State.privateData (s : State) (file : ℕ) : Option ℕ := s.files.lookup file

inductive Op
  | open (file : ℕ) (mem : Option ℕ)
  | release (file : ℕ)

theorem marked_update (s : State) (a : ℕ) (next : Option ℕ) (b : ℕ) (hb : b ∈ a :: s.users) :
    (update s.heap a ⟨apmBiosMagic,next⟩ b).magic = apmBiosMagic := by
  rw [update_apply]
  split
  · rfl
  · next hne => exact s.marked b ((mem_cons.mp hb).resolve_left hne)

/-- `do_open` with the memory that `kmalloc` gave. -/
def State.doOpen (s : State) (file a : ℕ) (hfree : a ∉ s.users) : State where
  heap := update s.heap a { magic := apmBiosMagic, next := s.userList }
  userList := some a
  files := (file,a) :: s.files
  owned := nodup_cons.mpr ⟨hfree,s.owned⟩
  marked := marked_update s a s.userList

def State.checkApmUser (s : State) (a : ℕ) : Bool := (s.heap a).magic ≠ apmBiosMagic

/-- `do_release`: the user is freed, but nothing takes it off the list. -/
def State.doRelease (s : State) (file : ℕ) : State :=
  match s.privateData file with
  | none => s
  | some a =>
    if s.checkApmUser a then s
    else { s with
      files := s.files.erase (file,a)
      owned := s.owned.sublist (erase_sublist.map _)
      marked := fun b hb => s.marked b ((erase_sublist.map _).subset hb) }

/-- One call; the allocator never gives memory that is in use, and a file is opened once. -/
def step (s : State) : Op → Option State
  | .open _ none => some s
  | .open file (some a) =>
    if h : s.privateData file = none ∧ a ∉ s.users then some (s.doOpen file a h.2) else none
  | .release file => some (s.doRelease file)

/-- `user_list` is the list of the open users, each once. -/
def State.Exact (s : State) : Prop :=
  ∃ l, Chain (fun a => (s.heap a).next) s.userList l ∧ l.Perm s.users

/-- A traversal of `user_list` does not end, or comes to a freed user. -/
def State.Dangling (s : State) : Prop :=
  ∀ l, Chain (fun a => (s.heap a).next) s.userList l → ∃ a ∈ l, a ∉ s.users

def KeepsUsers (s : State) : Op → Prop
  | .open _ _ => True
  | .release file => s.privateData file = none

variable {s s' : State} {op : Op} {ops : List Op}

theorem State.Dangling.not_exact (h : s.Dangling) : ¬s.Exact := by
  rintro ⟨l,hl,hperm⟩
  obtain ⟨a,ha,hfree⟩ := h l hl
  exact hfree (hperm.mem_iff.mp ha)

variable {file a : ℕ}

theorem next_doOpen (hfree : a ∉ s.users) :
    (fun b => ((s.doOpen file a hfree).heap b).next) =
      update (fun b => (s.heap b).next) a s.userList := by
  funext b
  show (update s.heap a _ b).next = _
  grind

theorem State.Exact.doOpen (h : s.Exact) (hfree : a ∉ s.users) : (s.doOpen file a hfree).Exact := by
  obtain ⟨l,hl,hperm⟩ := h
  have ha : a ∉ l := fun ha => hfree (hperm.mem_iff.mp ha)
  refine ⟨a :: l,?_,hperm.cons a⟩
  rw [next_doOpen]
  refine ⟨rfl,?_⟩
  rw [update_self,Chain.update ha]
  exact hl

theorem State.Dangling.doOpen (h : s.Dangling) (hfree : a ∉ s.users) :
    (s.doOpen file a hfree).Dangling := by
  intro l hl
  rw [next_doOpen] at hl
  cases l with
  | nil => cases hl
  | cons b l =>
    obtain rfl : a = b := Option.some.inj hl.1
    have htail := hl.2
    rw [update_self] at htail
    -- if the new user were on the old list, its link would lead back to the start
    have ha : a ∉ l := fun ha => htail.no_return ha (update_self ..)
    rw [Chain.update ha] at htail
    obtain ⟨b,hb,hold⟩ := h l htail
    refine ⟨b,mem_cons_of_mem a hb,fun hb' => ?_⟩
    rcases mem_cons.mp hb' with rfl | hb'
    · exact ha hb
    · exact hold hb'

theorem mem_files_of_privateData (h : s.privateData file = some a) : (file,a) ∈ s.files := by
  obtain ⟨l₁,l₂,heq,-⟩ := lookup_eq_some_iff.mp h
  grind

theorem doRelease_some (h : s.privateData file = some a) :
    (s.doRelease file).heap = s.heap ∧ (s.doRelease file).userList = s.userList ∧
    (s.doRelease file).users = (s.files.erase (file,a)).map Prod.snd := by
  have ha : a ∈ s.users := mem_map.mpr ⟨_,mem_files_of_privateData h,rfl⟩
  have hcheck : s.checkApmUser a = false := by
    simp [State.checkApmUser,s.marked a ha]
  unfold State.doRelease
  simp only [h,hcheck,Bool.false_eq_true,if_false]
  exact ⟨trivial,trivial,rfl⟩

theorem doRelease_none (h : s.privateData file = none) : s.doRelease file = s := by
  unfold State.doRelease
  simp only [h]

theorem users_doRelease {b : ℕ} (h : s.privateData file = some a) :
    b ∈ (s.doRelease file).users → b ∈ s.users ∧ b ≠ a := by
  rw [(doRelease_some h).2.2]
  have hperm : s.users.Perm (a :: (s.files.erase (file,a)).map Prod.snd) :=
    (perm_cons_erase (mem_files_of_privateData h)).map Prod.snd
  have hnodup := nodup_cons.mp (hperm.nodup_iff.mp s.owned)
  grind

theorem State.Exact.dangling_doRelease (h : s.Exact) (hfile : s.privateData file = some a) :
    (s.doRelease file).Dangling := by
  obtain ⟨l,hl,hperm⟩ := h
  obtain ⟨hheap,hlist,-⟩ := doRelease_some hfile
  intro l' hl'
  rw [hheap,hlist] at hl'
  rw [hl'.unique hl]
  have ha : a ∈ s.users := mem_map.mpr ⟨_,mem_files_of_privateData hfile,rfl⟩
  exact ⟨a,hperm.mem_iff.mpr ha,fun ha' => (users_doRelease hfile ha').2 rfl⟩

theorem State.Dangling.doRelease (h : s.Dangling) : (s.doRelease file).Dangling := by
  cases hfile : s.privateData file with
  | none => rwa [doRelease_none hfile]
  | some a =>
    obtain ⟨hheap,hlist,-⟩ := doRelease_some hfile
    intro l hl
    rw [hheap,hlist] at hl
    obtain ⟨b,hb,hold⟩ := h l hl
    exact ⟨b,hb,fun hb' => hold (users_doRelease hfile hb').1⟩

theorem State.Dangling.step (h : s.Dangling) (hs : step s op = some s') : s'.Dangling := by
  cases op with
  | «open» file mem =>
    cases mem with
    | none =>
      cases hs
      exact h
    | some a =>
      simp only [Apm.step] at hs
      split at hs
      · cases hs
        exact h.doOpen _
      · cases hs
  | release file =>
    cases hs
    exact h.doRelease

theorem State.Exact.step (h : s.Exact) (hs : step s op = some s') :
    (KeepsUsers s op → s'.Exact) ∧ (¬KeepsUsers s op → s'.Dangling) := by
  cases op with
  | «open» file mem =>
    refine ⟨fun _ => ?_,fun hno => absurd trivial hno⟩
    cases mem with
    | none =>
      cases hs
      exact h
    | some a =>
      simp only [Apm.step] at hs
      split at hs
      · cases hs
        exact h.doOpen _
      · cases hs
  | release file =>
    cases hs
    constructor
    · intro hkeep
      rw [doRelease_none hkeep]
      exact h
    · intro hrel
      obtain ⟨a,ha⟩ := Option.ne_none_iff_exists'.mp hrel
      exact h.dangling_doRelease ha

theorem State.Exact.run (h : s.Exact) (hr : run Apm.step s ops = some s') :
    s'.Exact ↔ Meets Apm.step KeepsUsers s ops := by
  induction ops generalizing s with
  | nil =>
    cases hr
    exact iff_of_true h trivial
  | cons op ops ih =>
    obtain ⟨u,hu,hr⟩ := (run_cons_eq_some Apm.step).mp hr
    obtain ⟨hkeep,hbad⟩ := h.step hu
    by_cases hk : KeepsUsers s op
    · rw [ih (hkeep hk) hr]
      constructor
      · intro hm
        refine ⟨hk,fun t ht => ?_⟩
        grind
      · exact fun hm => hm.2 u hu
    · refine iff_of_false ?_ fun hm => hk hm.1
      exact (invariant_of_step Apm.step (fun _ _ _ hd => hd.step) (hbad hk) hr).not_exact

theorem init_exact : State.init.Exact := ⟨[],rfl,List.Perm.nil⟩

/-- If the step releases an open user, it takes exactly this one off the list. -/
def ReleasesOwn (s : State) : Op → Prop
  | .open _ _ => True
  | .release file => ∀ a l, s.privateData file = some a →
      Chain (fun b => (s.heap b).next) s.userList l →
      Chain (fun b => ((s.doRelease file).heap b).next) (s.doRelease file).userList (l.erase a)

/-- The list is exact in every state of a run, and every release takes off its own user, exactly
when no open user is released. -/
theorem userList_exact_iff (hr : run Apm.step .init ops = some s) :
    (Meets Apm.step (fun t op => t.Exact ∧ ReleasesOwn t op) .init ops ∧ s.Exact) ↔
      Meets Apm.step KeepsUsers .init ops := by
  constructor
  · exact fun h => (init_exact.run hr).mp h.2
  · intro hm
    refine ⟨Meets.strengthen Apm.step (fun _ _ _ h hk hs => (h.step hs).1 hk) (fun t op h hk => ?_)
      init_exact hm,(init_exact.run hr).mpr hm⟩
    cases op with
    | «open» file mem => exact ⟨h,trivial⟩
    | release file =>
      refine ⟨h,fun a l ha _ => ?_⟩
      rw [show t.privateData file = none from hk] at ha
      cases ha

theorem userList_exact_opens : ∃ s, run Apm.step .init [.open 3 (some 16),.open 4 (some 32)] =
    some s ∧ s.users = [32,16] ∧ s.Exact := by
  have hm : Meets Apm.step KeepsUsers .init [.open 3 (some 16),.open 4 (some 32)] :=
    ⟨trivial,fun _ _ => ⟨trivial,fun _ _ => trivial⟩⟩
  exact ⟨_,rfl,rfl,((userList_exact_iff rfl).mpr hm).2⟩

/-- After its release the user is still on the list. -/
theorem userList_freed : ∃ s, run Apm.step .init [.open 3 (some 16),.release 3] = some s ∧
    s.users = [] ∧ Chain (fun a => (s.heap a).next) s.userList [16] :=
  ⟨_,rfl,rfl,rfl,rfl⟩

end Simpad.Apm
