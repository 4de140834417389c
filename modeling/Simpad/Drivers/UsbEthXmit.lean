import Simpad.Base.Runs

namespace Simpad.UsbEth.Xmit
open List Runs

/-- An skb: its length and the size of its data area from `data` on. -/
structure Skb where
  id : ℕ
  len : ℕ
  room : ℕ
  shared : Bool
  cloned : Bool

/-- `cur_tx_skb` and `next_tx_skb`, and how many packets the USB core has.  `owned` are the skbs for which
`usb_eth_xmit` has returned 0 and the copies it made, `ranges` the lengths passed to
`sa1100_usb_send`, with the size of the data area. -/
structure Tx where
  cur : Option Skb
  next : Option Skb
  outstanding : ℕ
  owned : List ℕ
  freed : List ℕ
  modified : List ℕ
  ranges : List (ℕ × ℕ)

/-- `sa1100_usb_send` for the current skb; one that is refused is dropped. -/
def Tx.send (s : Tx) (skb : Skb) (ok : Bool) : Tx :=
  let s := { s with ranges := s.ranges ++ [(skb.len,skb.room)] }
  if ok then { s with cur := some skb, outstanding := s.outstanding + 1 }
  else { s with cur := none, freed := s.freed ++ [skb.id] }

/-- `skb->len` as it is sent. -/
def sentLen (wsize len : ℕ) : ℕ := if len % wsize = 0 then len + 1 else len

/-- `usb_eth_xmit` from the length on. -/
def Tx.queue (wsize : ℕ) (s : Tx) (skb : Skb) (ok : Bool) : Tx :=
  let s : Tx := { s with modified := if skb.len % wsize = 0 then skb.id :: s.modified else s.modified }
  let skb := { skb with len := sentLen wsize skb.len }
  if s.cur.isSome then { s with next := some skb } else s.send skb ok

/-- `usb_eth_xmit`; `copy` is what `skb_copy` gives to `skb_unshare`. -/
def Tx.xmit (wsize : ℕ) (s : Tx) (skb : Skb) (copy : Option ℕ) (ok : Bool) : Tx :=
  if s.next.isSome then s
  else if skb.shared && skb.cloned then
    match copy with
    -- returns 1
    | none => { s with freed := s.freed ++ [skb.id,skb.id] }
    | some id =>
      Tx.queue wsize { s with freed := s.freed ++ [skb.id], owned := s.owned ++ [skb.id,id] }
        { skb with id := id } ok
  else Tx.queue wsize { s with owned := s.owned ++ [skb.id] } skb ok

/-- `usb_send_callback` for the skb that was sent. -/
def Tx.sendCallback (s : Tx) (skb : Skb) (ok : Bool) : Tx :=
  let t : Tx := { s with
    cur := none
    next := none
    freed := s.freed ++ [skb.id]
    outstanding := s.outstanding - 1 }
  match s.next with
  | none => t
  | some next => t.send next ok

inductive Op
  | xmit (skb : Skb) (copy : Option ℕ) (ok : Bool)
  | callback (ok : Bool)

/-- The network stack passes no skb that it has given away, and the allocator gives no memory in use. -/
def Tx.Fresh (s : Tx) (skb : Skb) (copy : Option ℕ) : Prop :=
  skb.id ∉ s.owned ∧ ∀ id ∈ copy, id ∉ s.owned ∧ id ≠ skb.id

instance (s : Tx) (skb : Skb) (copy : Option ℕ) : Decidable (s.Fresh skb copy) :=
  inferInstanceAs (Decidable (_ ∧ _))

/-- The USB core calls back for a packet that it has. -/
def step (wsize : ℕ) (s : Tx) : Op → Option Tx
  | .xmit skb copy ok => if s.Fresh skb copy then some (s.xmit wsize skb copy ok) else none
  | .callback ok => if s.outstanding = 0 then none else s.cur.map fun skb => s.sendCallback skb ok

def init : Tx := ⟨none,none,0,[],[],[],[]⟩

def Tx.slots (s : Tx) : List ℕ := (s.cur.toList ++ s.next.toList).map Skb.id

/-- What is owned is freed or in a slot, once, but for the skbs `held` by the function that runs; only
what is owned is modified; one packet at most is being sent; what is sent is inside of its skb. -/
structure Tx.Good (s : Tx) (held : List ℕ) : Prop where
  once : ∀ i, s.freed.count i + s.slots.count i + held.count i = s.owned.count i
  unique : s.owned.Nodup
  modified : ∀ i ∈ s.modified, i ∈ s.owned
  one : s.outstanding = s.cur.toList.length
  inside : ∀ r ∈ s.ranges, r.1 ≤ r.2

structure Tx.Inv (s : Tx) : Prop extends s.Good [] where
  waits : s.cur = none → s.next = none

/-- The copy succeeds where one is made, and a length that is passed on is inside of its skb. -/
def Allowed (wsize : ℕ) (s : Tx) : Op → Prop
  | .xmit skb copy _ => s.Fresh skb copy → s.next = none →
    (skb.shared = true → skb.cloned = true → copy ≠ none) ∧
      (s.cur = none → sentLen wsize skb.len ≤ skb.room)
  | .callback _ => ∀ skb ∈ s.next, skb.len ≤ skb.room

variable {wsize : ℕ} {s t : Tx} {skb : Skb} {ok : Bool} {copy : Option ℕ}

theorem send_inv (h : s.Good [skb.id]) (hc : s.cur = none) (hn : s.next = none)
    (hlen : skb.len ≤ skb.room) : (s.send skb ok).Inv := by
  have hone := h.one
  have honce := h.once
  have hinside : ∀ r ∈ s.ranges ++ [(skb.len,skb.room)], r.1 ≤ r.2 := by
    intro r hr
    rcases mem_append.mp hr with hr | hr
    · exact h.inside r hr
    · grind
  simp only [Tx.slots,hc,hn] at honce
  rw [hc] at hone
  unfold Tx.send
  cases ok with
  | true =>
    refine ⟨⟨fun i => ?_,h.unique,h.modified,congrArg (· + 1) hone,hinside⟩,fun h => nomatch h⟩
    simpa [Tx.slots,hn] using honce i
  | false =>
    refine ⟨⟨fun i => ?_,h.unique,h.modified,hone,hinside⟩,fun _ => hn⟩
    simpa [Tx.slots,hn] using honce i

theorem queue_inv (h : s.Good [skb.id]) (hn : s.next = none)
    (hlen : s.cur = none → sentLen wsize skb.len ≤ skb.room) : (s.queue wsize skb ok).Inv := by
  have howned : skb.id ∈ s.owned := by
    have honce := h.once skb.id
    grind
  have hmod : ∀ i ∈ if skb.len % wsize = 0 then skb.id :: s.modified else s.modified, i ∈ s.owned := by
    split_ifs
    · exact forall_mem_cons.mpr ⟨howned,h.modified⟩
    · exact h.modified
  unfold Tx.queue
  generalize (if skb.len % wsize = 0 then skb.id :: s.modified else s.modified) = m at *
  by_cases hc : s.cur.isSome
  · rw [if_pos hc]
    obtain ⟨cur,hc⟩ := Option.isSome_iff_exists.mp hc
    refine ⟨⟨fun i => ?_,h.unique,hmod,h.one,h.inside⟩,fun he => nomatch hc.symm.trans he⟩
    have honce := h.once i
    simp [Tx.slots,hn,hc,count_cons] at honce ⊢
    omega
  · rw [if_neg hc]
    have hc := Option.not_isSome_iff_eq_none.mp hc
    exact send_inv (s := { s with modified := m }) ⟨h.once,h.unique,hmod,h.one,h.inside⟩ hc hn (hlen hc)

theorem xmit_inv (h : s.Inv) (hf : s.Fresh skb copy) (ha : Allowed wsize s (.xmit skb copy ok)) :
    (s.xmit wsize skb copy ok).Inv := by
  unfold Tx.xmit
  split_ifs with hn hsh
  · exact h
  all_goals
    have hn := Option.not_isSome_iff_eq_none.mp hn
    obtain ⟨hcp,hlen⟩ := ha hf hn
    obtain ⟨hid,hcopy⟩ := hf
  · rw [Bool.and_eq_true] at hsh
    cases copy with
    | none => exact absurd rfl (hcp hsh.1 hsh.2)
    | some id =>
      refine queue_inv ⟨fun i => ?_,?_,fun i hi => mem_append_left _ (h.modified i hi),h.one,h.inside⟩
        hn hlen
      · have honce := h.once i
        simp [Tx.slots,count_cons] at honce ⊢
        omega
      · have hu := h.unique
        grind
  · refine queue_inv ⟨fun i => ?_,?_,fun i hi => mem_append_left _ (h.modified i hi),h.one,h.inside⟩
      hn hlen
    · have honce := h.once i
      simp [Tx.slots] at honce ⊢
      omega
    · have hu := h.unique
      grind

theorem callback_inv (h : s.Inv) (hc : s.cur = some skb) (ha : Allowed wsize s (.callback ok)) :
    (s.sendCallback skb ok).Inv := by
  have hone := h.one
  have honce := h.once
  rw [hc] at hone
  unfold Tx.sendCallback
  cases hn : s.next with
  | none =>
    refine ⟨⟨fun i => ?_,h.unique,h.modified,congrArg (· - 1) hone,h.inside⟩,fun _ => rfl⟩
    simpa [Tx.slots,hc,hn] using honce i
  | some next =>
    refine send_inv ⟨fun i => ?_,h.unique,h.modified,congrArg (· - 1) hone,h.inside⟩ rfl rfl
      (ha next hn)
    have hi := honce i
    simp [Tx.slots,hc,hn,count_cons] at hi ⊢
    omega

theorem inv_init : init.Inv :=
  ⟨⟨fun _ => rfl,nodup_nil,fun _ h => absurd h not_mem_nil,rfl,fun _ h => absurd h not_mem_nil⟩,
    fun _ => rfl⟩

theorem step_inv {o : Op} (h : s.Inv) (ha : Allowed wsize s o) (hst : step wsize s o = some t) :
    t.Inv := by
  cases o with
  | xmit skb copy ok =>
    obtain ⟨hf,hst⟩ := Option.ite_none_right_eq_some.mp hst
    cases hst
    exact xmit_inv h hf ha
  | callback ok =>
    obtain ⟨-,hst⟩ := Option.ite_none_left_eq_some.mp hst
    obtain ⟨skb,hc,rfl⟩ := Option.map_eq_some_iff.mp hst
    exact callback_inv h hc ha

theorem mem_ranges_send (s : Tx) (skb : Skb) (ok : Bool) :
    (skb.len,skb.room) ∈ (s.send skb ok).ranges := by
  cases ok <;> exact mem_concat_self

theorem mem_ranges_queue (hc : s.cur = none) :
    (sentLen wsize skb.len,skb.room) ∈ (s.queue wsize skb ok).ranges := by
  simp only [Tx.queue,hc,Option.isSome_none,Bool.false_eq_true,if_false]
  exact mem_ranges_send _ _ _

/-- A step that is not allowed frees an skb it does not own, or sends what is outside of one. -/
theorem step_bad {o : Op} (h : s.Inv) (ha : ¬Allowed wsize s o) :
    ∃ t, step wsize s o = some t ∧ ¬t.Good [] := by
  cases o with
  | xmit skb copy ok =>
    simp only [Allowed,Classical.not_imp,not_and_or,not_not,not_le] at ha
    obtain ⟨hf,hn,hbad⟩ := ha
    refine ⟨_,if_pos hf,fun hg => ?_⟩
    unfold Tx.xmit at hg
    rw [hn,Option.isSome_none,if_neg Bool.false_ne_true] at hg
    by_cases hsh : (skb.shared && skb.cloned) = true
    · rw [if_pos hsh] at hg
      cases copy with
      | none =>
        have honce := hg.once skb.id
        simp [count_eq_zero.mpr hf.1] at honce
      | some id =>
        obtain ⟨hc,hlen⟩ := hbad.resolve_left fun hx => nomatch hx.2.2
        exact absurd (hg.inside _ (mem_ranges_queue hc)) (not_le.mpr hlen)
    · rw [if_neg hsh] at hg
      obtain ⟨hc,hlen⟩ := hbad.resolve_left fun hx => hsh (Bool.and_eq_true_iff.mpr ⟨hx.1,hx.2.1⟩)
      exact absurd (hg.inside _ (mem_ranges_queue hc)) (not_le.mpr hlen)
  | callback ok =>
    simp only [Allowed,not_forall,not_le] at ha
    obtain ⟨next,hn,hlen⟩ := ha
    cases hc : s.cur with
    | none => exact nomatch (h.waits hc).symm.trans hn
    | some skb =>
      have hone := h.one
      rw [hc] at hone
      refine ⟨s.sendCallback skb ok,?_,fun hg => ?_⟩
      · rw [step,if_neg (by rw [hone]; exact one_ne_zero),hc]
        rfl
      · unfold Tx.sendCallback at hg
        rw [Option.mem_def.mp hn] at hg
        exact absurd (hg.inside _ (mem_ranges_send _ next ok)) (not_le.mpr hlen)

/-- In all states of a run every skb is freed once or waits for that, just when all of its steps are
allowed. -/
theorem xmit_owned_iff {wsize : ℕ} {ops : List Op} :
    (∀ bs t, bs <+: ops → run (step wsize) init bs = some t → t.Good []) ↔
      Meets (step wsize) (Allowed wsize) init ops :=
  always_iff (step wsize) (fun _ h => h.toGood) (fun _ _ _ h ha hst => step_inv h ha hst)
    (fun _ _ h ha => step_bad h ha) inv_init

/-- A clone for which there is no memory is freed twice, and an skb of 64 bytes without room behind them
is sent with 65. -/
theorem xmit_not_owned :
    (∃ t, step 64 init (.xmit ⟨0,10,16,true,true⟩ none true) = some t ∧ t.freed = [0,0] ∧ t.owned = []) ∧
      ∃ t, step 64 init (.xmit ⟨0,64,64,false,false⟩ none true) = some t ∧ t.ranges = [(65,64)] :=
  ⟨⟨_,rfl,rfl,rfl⟩,_,rfl,rfl⟩

end Simpad.UsbEth.Xmit
