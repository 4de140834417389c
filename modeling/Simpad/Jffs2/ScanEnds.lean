import Simpad.Jffs2.ScanRuns

namespace Simpad.Jffs2.Scan
open Word ListAt

def Stop.returns : Stop → Bool
  | .done .. | .err _ => true
  | .bug | .overrun => false

/-- Nothing at `ofs` stops the kernel: a node that is kept without being known is the last one. -/
structure Block.Clean (b : Block) (ok : Bool) (ofs : ℕ) : Prop where
  copy : ∀ len, b.trusted ofs = some (true,len) → len = 0 ∨ b.stop ≤ ofs + len
  data : ¬b.Overruns ok ofs

/-- The node at `ofs` does not stop the kernel, and it ends below 32 bits if the scan goes by it. -/
structure Block.Passed (b : Block) (ok : Bool) (ofs : ℕ) : Prop where
  short : b.Readable ok ofs → b.Short ofs
  clean : b.Clean ok ofs

variable {len n : ℕ} {ok : Bool} {b : Block} {s : State} {tmpnodes : ℕ → List ℕ}
  {dents : ℕ → List FullDirent}

theorem Looked.error {e : Stop} (h : Looked b ok s (.error e)) (hu : s.used = usedOf s.refs)
    (hw : b.Readable ok s.ofs → ∀ len, b.trusted s.ofs = some (false,len) →
      s.used + len < 4294967296) : e.returns = true ∨ b.Overruns ok s.ofs := by
  cases e with
  | done => exact h.elim
  | err => exact .inl rfl
  | bug => exact absurd ⟨hu,hw h.1⟩ h.2
  | overrun => exact .inr h

theorem Looked.overrun {x : Except Stop State} (h : Looked b ok s x) (ho : b.Overruns ok s.ofs) :
    x = .error .overrun := by
  match x,h with
  | .ok _,h => exact absurd ho h.1.not_overruns
  | .error (.err _),h => exact absurd ho h
  | .error .bug,h => exact absurd ho h.1.not_overruns
  | .error .overrun,_ => rfl

section
variable {b : Block} {ok : Bool} {s u : State} {t : ℕ} {e : Stop} (hb : b.Fits32)
  (h : s.acct.Sound b t)
include hb h

theorem Acct.Sound.paranoia : s.paranoia = true := by
  have hstop := hb.stop
  have hhi := h.hi
  have hsum : s.used + s.dirty = t - b.offset := h.sum
  have hu : s.used = usedOf s.refs := h.used
  refine decide_eq_true ?_
  rw [← hu,u32_of_lt (by omega)]

theorem step_error_unmet (hm : s.prevofs = s.ofs ∨ b.stop < s.ofs + sizeofUnknownNode)
    (hs : step b ok s = .error e) : e.returns = true := by
  obtain ⟨-,he⟩ | ⟨-,hpar,-⟩ | ⟨-,-,-,he⟩ | ⟨-,-,-,he⟩ | ⟨-,hprev,h12,-⟩ :=
    step_cases hb h.aligned ok
  · cases hs.symm.trans he
    rfl
  · cases (h.paranoia hb).symm.trans hpar
  · cases hs.symm.trans he
  · cases hs.symm.trans he
    rfl
  · omega

theorem step_error_met (hprev : s.prevofs ≠ s.ofs) (h12 : s.ofs + sizeofUnknownNode ≤ b.stop)
    (hw : b.Readable ok s.ofs → b.Short s.ofs) :
    (b.Overruns ok s.ofs → step b ok s = .error .overrun) ∧
      (step b ok s = .error e → e.returns = true ∨ b.Overruns ok s.ofs) := by
  have h0 : 0 < sizeofUnknownNode := by decide
  have hfront : s.ofs = t := h.front_eq (show s.ofs < b.stop by omega)
  have hsum : s.used + s.dirty = t - b.offset := h.sum
  have hl := look_looked (s := { s with prevofs := s.ofs }) hb h.aligned h12 ok
  rw [step_look hb.stop (h.paranoia hb) h.aligned hprev.symm h12]
  refine ⟨hl.overrun,fun he => ?_⟩
  rw [he] at hl
  refine hl.error h.used fun hok len ht => ?_
  have hend := hw hok _ _ ht
  show s.used + len < 4294967296
  omega

omit h in
theorem Move.ofs_le {a a' : Acct} (hm : Move b a a') (hlt : a.ofs < b.stop) (hw : b.Short a.ofs) :
    a.ofs ≤ a'.ofs := by
  have hstop := hb.stop
  cases ht : b.trusted a.ofs with
  | some p =>
    simp [(hm.of_trusted ht).1,u32_of_lt (hw _ _ ht)]
  | none =>
    cases hm with
    | skip | marker =>
      refine le_of_le_of_eq (Nat.le_add_right _ _) (u32_of_lt ?_).symm
      omega
    | tail => exact hlt.le
    | dirty h' | copy h' | dropped h' | node h' | replace h' | stray h' => cases ht.symm.trans h'

def State.remaining (b : Block) (s : State) : ℕ :=
  2 * (b.stop - s.ofs) + if s.ofs = s.prevofs then 0 else 1

theorem step_remaining (hw : s.prevofs ≠ s.ofs → s.ofs + sizeofUnknownNode ≤ b.stop →
      b.Readable ok s.ofs → b.Short s.ofs) (hs : step b ok s = .ok u) : u.remaining b < s.remaining b := by
  have hstop := hb.stop
  obtain ⟨hlt,-,⟨he,hl,ha⟩ | ⟨hne,h12,hok,hprev,hm⟩⟩ := step_move hb h.aligned hs
  · have hofs : u.ofs = s.ofs + 4 := (congrArg Acct.ofs ha).trans (u32_of_lt (show s.ofs + 4 < _ by omega))
    unfold State.remaining
    split_ifs <;> omega
  · have hle : s.ofs ≤ u.ofs := hm.ofs_le hb hlt (hw hne.symm h12 hok)
    unfold State.remaining
    grind

theorem step_clean
    (hc : s.prevofs ≠ s.ofs → s.ofs + sizeofUnknownNode ≤ b.stop → b.Passed ok s.ofs)
    (hs : step b ok s = .ok u) : (∃ t', u.acct.Sound b t') ∨ b.stop ≤ u.ofs := by
  by_cases hp : s.prevofs ≠ s.ofs → s.ofs + sizeofUnknownNode ≤ b.stop → b.Proper s.ofs
  · exact Or.inl (step_sound hb h hp hs)
  · simp only [not_forall] at hp
    obtain ⟨hprev,h12,hbad⟩ := hp
    obtain ⟨hw,hcl⟩ := hc hprev h12
    simp only [Block.Proper,not_forall] at hbad
    obtain ⟨copy,len,ht,hbad⟩ := hbad
    obtain ⟨-,-,⟨he,-⟩ | ⟨-,-,hok,-,hm⟩⟩ := step_move hb h.aligned hs
    · exact absurd he.symm hprev
    have hofs : u.ofs = s.ofs + len := (hm.of_trusted ht).1.trans (u32_of_lt (hw hok _ _ ht))
    by_contra hin
    refine hbad ⟨by omega,fun htrue => ?_⟩
    subst htrue
    exact (hcl.copy len ht).resolve_right (by omega)

theorem step_copy (ok : Bool) (hprev : s.prevofs ≠ s.ofs) (h12 : s.ofs + sizeofUnknownNode ≤ b.stop)
    (ht : b.trusted s.ofs = some (true,len)) : ∃ v, step b ok s = .ok v := by
  obtain ⟨node,hread,hn⟩ := Option.bind_eq_some_iff.mp ht
  split_ifs at hn with hc
  rw [step_look hb.stop (h.paranoia hb) h.aligned hprev.symm h12,look,hread]
  dsimp only
  rw [if_neg (by omega),if_neg (not_not.mpr hc.1),scanNode]
  rw [if_neg (not_not.mpr hc.2)]
  cases hk : nodeKind (field node 2 2) with
  | rwcompatCopy => exact ⟨_,rfl⟩
  | inode | dirent =>
    rw [hk] at hn
    obtain ⟨r,-,hr⟩ := Option.bind_eq_some_iff.mp hn
    split_ifs at hr
    cases hr
  | cleanmarker | incompat | rwcompatDelete =>
    rw [hk] at hn
    cases hn
  | rocompat =>
    rw [hk,Block.trustedKind] at hn
    split_ifs at hn
    cases hn

end

section
variable {b : Block} {mem : ℕ → Bool} {s₀ : State} (hb : b.Fits32)
include hb

theorem scanEraseblock_returns {t : ℕ} (h : scanEraseblock b mem s₀ n = .ok s)
    (hs : s.acct.Sound b t)
    (hc : ∀ k ofs, Met b mem s₀ k ofs → b.Passed (mem (k + 1)) ofs) :
    ∃ m e, scanEraseblock b mem s₀ m = .error e ∧ e.returns = true := by
  -- by what remains of the scan
  induction hr : s.remaining b using Nat.strong_induction_on generalizing n s t with
  | _ r ih =>
    have hmet : s.prevofs ≠ s.ofs → s.ofs + sizeofUnknownNode ≤ b.stop → b.Passed (mem (n + 1)) s.ofs :=
      fun hprev h12 => hc n _ ⟨s,h,rfl,hprev,h12⟩
    have hn := scanEraseblock_succ h
    cases hstep : step b (mem (n + 1)) s with
    | error e =>
      refine ⟨n + 1,e,hn.trans hstep,?_⟩
      by_cases hm : s.prevofs ≠ s.ofs ∧ s.ofs + sizeofUnknownNode ≤ b.stop
      · obtain ⟨hw,hcl⟩ := hmet hm.1 hm.2
        exact ((step_error_met hb hs hm.1 hm.2 hw).2 hstep).resolve_right hcl.data
      · refine step_error_unmet hb hs ?_ hstep
        omega
    | ok u =>
      rw [hstep] at hn
      rcases step_clean hb hs hmet hstep with ⟨t',hu⟩ | hend
      · have hlt := step_remaining hb hs (fun h₁ h₂ => (hmet h₁ h₂).1) hstep
        exact ih _ (hr ▸ hlt) hn hu rfl
      · refine ⟨n + 1 + 1,.done 0 u,?_,rfl⟩
        rw [scanEraseblock_succ hn,step,if_pos hend]

theorem scanEraseblock_clean
    (hc : ∀ k < n, ∀ ofs, Met b mem (b.init tmpnodes dents) k ofs → b.Passed (mem (k + 1)) ofs)
    (h : scanEraseblock b mem (b.init tmpnodes dents) n = .ok s) :
    (∃ t, s.acct.Sound b t) ∨ b.stop ≤ s.ofs := by
  induction n generalizing s with
  | zero => exact Or.inl (scanEraseblock_sound hb (fun k hk => absurd hk k.not_lt_zero) h)
  | succ n ih =>
    obtain ⟨u,hu,hs⟩ := scanEraseblock_ok h
    rcases ih (fun k hk => hc k (hk.trans n.lt_succ_self)) hu with ⟨t,ht⟩ | hend
    · exact step_clean hb ht (fun hprev h12 => hc n n.lt_succ_self _ ⟨u,hu,rfl,hprev,h12⟩) hs
    · rw [step,if_pos hend] at hs
      cases hs

/-- A node that is not clean, the first one, and the scan does not return. -/
theorem scanEraseblock_not_returns {k ofs : ℕ} {e : Stop}
    (hc : ∀ j < k, ∀ ofs, Met b mem (b.init tmpnodes dents) j ofs → b.Passed (mem (j + 1)) ofs)
    (hm : Met b mem (b.init tmpnodes dents) k ofs) (hw : b.Readable (mem (k + 1)) ofs → b.Short ofs)
    (hbad : ¬b.Clean (mem (k + 1)) ofs)
    (h : scanEraseblock b mem (b.init tmpnodes dents) n = .error e) : e.returns = false := by
  obtain ⟨s,hs,rfl,hprev,h12⟩ := hm
  have h0 : 0 < sizeofUnknownNode := by decide
  obtain ⟨t,ht⟩ := (scanEraseblock_clean hb hc hs).resolve_right (by omega)
  have hk := scanEraseblock_succ hs
  by_cases ho : b.Overruns (mem (k + 1)) s.ofs
  · rw [(step_error_met (e := e) hb ht hprev h12 hw).1 ho] at hk
    rw [← scanEraseblock_ends hk h]
    rfl
  · obtain ⟨len,htr,hlen⟩ : ∃ len, b.trusted s.ofs = some (true,len) ∧
        ¬(len = 0 ∨ b.stop ≤ s.ofs + len) := by
      by_contra hno
      refine hbad ⟨fun len htr => ?_,ho⟩
      grind
    rw [not_or,not_le] at hlen
    obtain ⟨v,hv⟩ := step_copy hb ht (mem (k + 1)) hprev h12 htr
    rw [hv] at hk
    obtain ⟨-,-,⟨he,-⟩ | ⟨-,-,hok,-,hm⟩⟩ := step_move hb ht.aligned hv
    · exact absurd he.symm hprev
    have hend := hw hok _ _ htr
    have himp := step_improper hb ht hprev htr hend (fun hp => hlen.1 (hp.2 rfl)) hv
    have hofs : v.ofs = s.ofs + len := (hm.of_trusted htr).1.trans (u32_of_lt hend)
    obtain ⟨hlt,hpar⟩ := himp.resolve_left (fun hge => by omega)
    have hk' := scanEraseblock_succ hk
    rw [step,if_neg (not_le.mpr hlt),hpar] at hk'
    rw [← scanEraseblock_ends hk' h]
    rfl

end

/-- As long as no node that the scan goes by ends over 32 bits, the scan comes to its end just if no
node that is kept without being known has something behind it and all data fit the buffer. -/
theorem scan_ends {b : Block} (hb : b.Fits32) (mem : ℕ → Bool) (tmpnodes : ℕ → List ℕ)
    (dents : ℕ → List FullDirent)
    (hw : ∀ k ofs, Met b mem (b.init tmpnodes dents) k ofs → b.Readable (mem (k + 1)) ofs →
      b.Short ofs) :
    (∃ n e, scanEraseblock b mem (b.init tmpnodes dents) n = .error e ∧ e.returns = true) ↔
      ∀ k ofs, Met b mem (b.init tmpnodes dents) k ofs → b.Clean (mem (k + 1)) ofs := by
  constructor
  · rintro ⟨n,e,h,he⟩ k
    induction k using Nat.strong_induction_on with
    | _ k ih =>
      intro ofs hm
      by_contra hbad
      have hc : ∀ j < k, ∀ ofs, Met b mem (b.init tmpnodes dents) j ofs →
          b.Passed (mem (j + 1)) ofs :=
        fun j hj ofs hm => ⟨hw j ofs hm,ih j hj ofs hm⟩
      rw [scanEraseblock_not_returns hb hc hm (hw k ofs hm) hbad h] at he
      cases he
  · intro hc
    rcases start_cases (mem 0) hb tmpnodes dents with he | ⟨u,he,-⟩ | ⟨u,t,he,hu,-⟩
    · exact ⟨0,_,he,rfl⟩
    · exact ⟨0,_,he,rfl⟩
    · exact scanEraseblock_returns hb (n := 0) he hu fun k ofs hm => ⟨hw k ofs hm,hc k ofs hm⟩

theorem scan_ends_marked :
    ∃ n e, scanEraseblock markedBlock (fun _ => true) (markedBlock.init (fun _ => []) fun _ => []) n =
      .error e ∧ e.returns = true := by
  refine (scan_ends markedBlock_fits32 _ _ _ fun k ofs hm _ copy len ht => ?_).mpr
    fun k ofs hm => ⟨fun len ht => ?_,?_⟩
  · obtain ⟨rfl,-,rfl⟩ := markedBlock_trusted hm ht
    decide
  · cases (markedBlock_trusted hm ht).2.1
  · rintro ⟨-,csize,hc,hlt⟩
    have h0 : markedBlock.dataSize 0 = none := by decide +kernel
    have h12 : markedBlock.dataSize 12 = some 0 := by decide +kernel
    rcases markedBlock_met hm with rfl | rfl
    · cases h0.symm.trans hc
    · cases h12.symm.trans hc
      simp [Flash.delivered] at hlt

theorem step_delete {node : List Byte} (hb : b.stop + sizeofUnknownNode < 4294967296)
    (h12 : s.ofs + sizeofUnknownNode ≤ b.stop) (hpar : s.paranoia = true) (h4 : s.ofs % 4 = 0)
    (hprev : s.ofs ≠ s.prevofs) (hread : b.flash.read s.ofs sizeofUnknownNode = some node)
    (hmagic : field node 0 2 = 0x1985)
    (hcrc : (crc32 0 ((setAccurate node).take 8)).toNat = field node 8 4)
    (hk : nodeKind (field node 2 2) = .rwcompatDelete) (hlen : pad4 (field node 4 4) = len) :
    step b ok s = .ok ((({ s with prevofs := s.ofs } : State).dirtySpace len).advance len) := by
  rw [step_look hb hpar h4 hprev h12,look,hread]
  dsimp only
  rw [if_neg (by omega),if_neg (not_not.mpr hmagic),scanNode,if_neg (not_not.mpr hcrc),hk,← hlen]

def forward : List Byte := [0x85,0x19,0x04,0x20,0x0c,0,0,0,0x09,0x80,0x1b,0xf9]

/-- A node that is twelve bytes short of 4 GB long. -/
def backward : List Byte := [0x85,0x19,0x04,0x20,0xf4,0xff,0xff,0xff,0x53,0x98,0x77,0xba]

/-- From the second node the offset goes back to the first. -/
def cycleBlock : Block := .ofBytes (forward ++ backward)

theorem step_forward {prev : ℕ} (h : 0 ≠ prev) :
    step cycleBlock true ⟨0,prev,0,0,24,[],fun _ => [],fun _ => []⟩ =
      .ok ⟨12,0,0,12,12,[],fun _ => [],fun _ => []⟩ := by
  have hread : cycleBlock.flash.read 0 sizeofUnknownNode = some forward := by decide
  have hmagic : field forward 0 2 = 0x1985 := by decide
  have hcrc : (crc32 0 ((setAccurate forward).take 8)).toNat = field forward 8 4 := by decide +kernel
  have hk : nodeKind (field forward 2 2) = .rwcompatDelete := by decide +kernel
  have hlen : pad4 (field forward 4 4) = 12 := by decide
  have h12 : 0 + sizeofUnknownNode ≤ cycleBlock.stop := by decide
  have hf : sub32 24 12 = 12 := by decide
  rw [step_delete (by decide) h12 rfl rfl h hread hmagic hcrc hk hlen,State.advance,
    State.dirtySpace,hf]
  rfl

theorem step_backward :
    step cycleBlock true ⟨12,0,0,12,12,[],fun _ => [],fun _ => []⟩ =
      .ok ⟨0,12,0,0,24,[],fun _ => [],fun _ => []⟩ := by
  have hread : cycleBlock.flash.read 12 sizeofUnknownNode = some backward := by decide
  have hmagic : field backward 0 2 = 0x1985 := by decide
  have hcrc : (crc32 0 ((setAccurate backward).take 8)).toNat = field backward 8 4 := by decide +kernel
  have hk : nodeKind (field backward 2 2) = .rwcompatDelete := by decide +kernel
  have hlen : pad4 (field backward 4 4) = 4294967284 := by decide
  rw [step_delete (by decide) (by decide) (by decide) rfl (by decide) hread hmagic hcrc hk hlen]
  rfl

theorem scan_cycles :
    ¬∃ n e, scanEraseblock cycleBlock (fun _ => true) (cycleBlock.init (fun _ => []) fun _ => []) n =
      .error e := by
  -- in every round the offset is that of one of the two nodes
  have hrun : ∀ n, (∃ prev, 0 ≠ prev ∧ scanEraseblock cycleBlock (fun _ => true)
        (cycleBlock.init (fun _ => []) fun _ => []) n = .ok ⟨0,prev,0,0,24,[],fun _ => [],fun _ => []⟩) ∨
      scanEraseblock cycleBlock (fun _ => true) (cycleBlock.init (fun _ => []) fun _ => []) n =
        .ok ⟨12,0,0,12,12,[],fun _ => [],fun _ => []⟩ := by
    intro n
    induction n with
    | zero => exact Or.inl ⟨sub32 0 1,by decide,by rfl⟩
    | succ n ih =>
      rcases ih with ⟨prev,hprev,h⟩ | h
      · exact Or.inr ((scanEraseblock_succ h).trans (step_forward hprev))
      · exact Or.inl ⟨12,by decide,(scanEraseblock_succ h).trans step_backward⟩
  grind

end Simpad.Jffs2.Scan
