import Simpad.Jffs2.ScanSound

namespace Simpad.Jffs2.Scan
open Word

/-- In round `k` the loop looks for a node at `ofs`. -/
def Met (b : Block) (mem : ℕ → Bool) (s₀ : State) (k ofs : ℕ) : Prop :=
  ∃ s, scanEraseblock b mem s₀ k = .ok s ∧ s.ofs = ofs ∧ s.prevofs ≠ ofs ∧
    ofs + sizeofUnknownNode ≤ b.stop

/-- The end of the node at `ofs` is a number of 32 bits. -/
def Block.Short (b : Block) (ofs : ℕ) : Prop :=
  ∀ copy len, b.trusted ofs = some (copy,len) → ofs + len < 4294967296

def returned : Except Stop State → Option (ℕ × Acct)
  | .error (.done r s) => some (r,s.acct)
  | _ => none

variable {r n len : ℕ} {s : State}

theorem returned_eq_some {x : Except Stop State} {a : Acct} (h : returned x = some (r,a)) :
    ∃ s, x = .error (.done r s) ∧ s.acct = a := by
  match x,h with
  | .error (.done r s),rfl => exact ⟨s,rfl,rfl⟩

def Block.ofBytes (l : List Byte) : Block := ⟨0,l.length,⟨l.length,fun i => l.getD i 0xff⟩,false⟩

/-- The clean marker, `JFFS2_NODETYPE_CLEANMARKER`. -/
def cleanmarker : List Byte := [0x85,0x19,0x03,0x20,0x0c,0,0,0,0xb1,0xb0,0x1e,0xe4]

section
variable {b : Block} {mem : ℕ → Bool} {s₀ : State}

theorem scanEraseblock_succ (h : scanEraseblock b mem s₀ n = .ok s) :
    scanEraseblock b mem s₀ (n + 1) = step b (mem (n + 1)) s := by
  rw [scanEraseblock,h]
  rfl

theorem scanEraseblock_ok (h : scanEraseblock b mem s₀ (n + 1) = .ok s) :
    ∃ t, scanEraseblock b mem s₀ n = .ok t ∧ step b (mem (n + 1)) t = .ok s := by
  cases ht : scanEraseblock b mem s₀ n with
  | error e =>
    rw [scanEraseblock,ht] at h
    cases h
  | ok t => exact ⟨t,rfl,scanEraseblock_succ ht ▸ h⟩

theorem scanEraseblock_error {m : ℕ} {e : Stop} (h : scanEraseblock b mem s₀ m = .error e)
    (hmn : m ≤ n) : scanEraseblock b mem s₀ n = .error e := by
  induction n, hmn using Nat.le_induction with
  | base => exact h
  | succ n _ ih =>
    rw [scanEraseblock,ih]
    rfl

theorem scanEraseblock_ends {m : ℕ} {e e' : Stop} (h : scanEraseblock b mem s₀ m = .error e)
    (h' : scanEraseblock b mem s₀ n = .error e') : e = e' := by
  rcases le_total m n with hmn | hmn
  · exact Except.error.inj ((scanEraseblock_error h hmn).symm.trans h')
  · exact Except.error.inj (h.symm.trans (scanEraseblock_error h' hmn))

end

section
variable {b : Block} (ok : Bool) (hb : b.Fits32) (tmpnodes : ℕ → List ℕ)
  (dents : ℕ → List FullDirent)
include hb

theorem init_sound : (b.init tmpnodes dents).acct.Sound b b.offset := by
  refine ⟨le_rfl,Nat.le_add_right _ _,hb.offset,Or.inl rfl,?_,?_,rfl,List.Pairwise.nil,?_⟩
  · show 0 = b.offset - b.offset
    rw [Nat.sub_self]
  · show b.sectorSize = b.offset + b.sectorSize - b.offset
    omega
  · exact fun r hr => absurd hr (List.not_mem_nil)

theorem start_cases :
    start b ok (b.init tmpnodes dents) = .error (.err .enomem) ∨
    (∃ u, start b ok (b.init tmpnodes dents) = .error (.done 1 u) ∧ u.acct.Final b) ∨
    ∃ u t, start b ok (b.init tmpnodes dents) = .ok u ∧ u.acct.Sound b t ∧ u.ofs < b.stop := by
  have hstop := hb.stop
  have hst : b.stop = b.offset + b.sectorSize := rfl
  have hi := init_sound hb tmpnodes dents
  cases ok with
  | false => exact Or.inl rfl
  | true =>
    right
    obtain ⟨h₁,h₂,h₃,h₄⟩ := emptyFrom_spec b ((b.stop - b.offset) / 4) b.offset
    have hs : start b true (b.init tmpnodes dents) =
        (if b.emptyFrom ((b.stop - b.offset) / 4) b.offset = b.stop then
            Except.ok { b.init tmpnodes dents with
              ofs := b.emptyFrom ((b.stop - b.offset) / 4) b.offset }
          else
            Except.ok
              { (b.init tmpnodes dents).dirtySpace
                  (b.emptyFrom ((b.stop - b.offset) / 4) b.offset - b.offset) with
                ofs := b.emptyFrom ((b.stop - b.offset) / 4) b.offset }).bind
          fun t : State => if t.ofs = b.stop then Except.error (Stop.done 1 t) else .ok t := rfl
    generalize b.emptyFrom ((b.stop - b.offset) / 4) b.offset = p at *
    by_cases hp : p = b.stop
    · -- nothing has been written
      left
      subst hp
      rw [if_pos rfl] at hs
      refine ⟨_,hs.trans (if_pos rfl),rfl,⟨List.Pairwise.nil,?_⟩,le_rfl,fun p hp hp' => ?_⟩
      · exact fun r hr => absurd hr List.not_mem_nil
      · have hp : b.stop - b.sectorSize ≤ p := hp
        exact h₄ p (by omega) hp'
    · right
      have hlt : p < b.stop := by omega
      rw [if_neg hp] at hs
      have hd := (hi.dirtied hb (show b.offset < b.stop by omega) h₃
        (show b.offset + (p - b.offset) ≤ b.stop by omega)).1
      have hu : u32 (b.offset + (p - b.offset)) = p := by
        rw [Nat.add_sub_cancel' h₁]
        exact u32_of_lt (by omega)
      rw [Acct.dirtied,show (b.init tmpnodes dents).acct.ofs = b.offset from rfl,hu] at hd
      exact ⟨_,_,hs.trans (if_neg hp),hd,hlt⟩

end

section
variable {b : Block} {ok : Bool} {s u : State} {t : ℕ} (hb : b.Fits32) (h : s.acct.Sound b t)
include hb h

theorem step_sound
    (hp : s.prevofs ≠ s.ofs → s.ofs + sizeofUnknownNode ≤ b.stop → b.Proper s.ofs)
    (hs : step b ok s = .ok u) : ∃ t', u.acct.Sound b t' := by
  obtain ⟨hlt,-,⟨-,hl,he⟩ | ⟨hne,h12,-,-,hm⟩⟩ := step_move hb h.aligned hs
  · rw [he]
    exact ⟨_,(h.dirtied hb hlt rfl hl).1⟩
  · exact hm.sound hb h hlt (hp hne.symm h12)

theorem step_final (hs : step b ok s = .error (.done r u)) : u.acct.Final b := by
  have hstop := hb.stop
  obtain ⟨-,⟨hge,rfl⟩ | ⟨hlt,-,rfl⟩⟩ := step_done hb h.aligned hs
  · exact h.final hge
  · have hfront := h.front_eq hlt
    have hfree : sub32 s.free (b.stop - s.ofs) = 0 := by
      have hf : s.free = b.stop - s.ofs := h.free.trans (congrArg _ hfront.symm)
      rw [hf,sub32_of_le le_rfl (by omega),Nat.sub_self]
    refine ⟨h.used,h.placed.mono h.hi,?_,fun p hp hp' => ?_⟩
    · show sub32 s.free (b.stop - s.ofs) ≤ b.sectorSize
      omega
    · have hp : b.stop - sub32 s.free (b.stop - s.ofs) ≤ p := hp
      omega

omit hb h in
theorem Move.of_trusted {a a' : Acct} {copy : Bool} (hm : Move b a a')
    (ht : b.trusted a.ofs = some (copy,len)) :
    a'.ofs = u32 (a.ofs + len) ∧ a'.free = sub32 a.free len ∧ (copy = true → a' = a.taken len) := by
  cases hm with
  | skip hn => grind
  | tail hn => grind
  | marker hn => grind
  | copy h' =>
    cases h'.symm.trans ht
    exact ⟨rfl,rfl,fun _ => rfl⟩
  | dirty h' | dropped h' | node h' | replace h' | stray h' =>
    cases h'.symm.trans ht
    exact ⟨rfl,rfl,fun hc => absurd hc Bool.false_ne_true⟩

theorem step_improper {copy : Bool} (hprev : s.prevofs ≠ s.ofs)
    (ht : b.trusted s.ofs = some (copy,len)) (hw : s.ofs + len < 4294967296)
    (hbad : ¬(s.ofs + len ≤ b.stop ∧ (copy = true → len = 0))) (hs : step b ok s = .ok u) :
    b.stop ≤ u.ofs ∧ ¬u.acct.Final b ∨ u.ofs < b.stop ∧ u.paranoia = false := by
  have hst : b.stop = b.offset + b.sectorSize := rfl
  obtain ⟨hlt,-,⟨he,-⟩ | ⟨-,-,-,-,hm⟩⟩ := step_move hb h.aligned hs
  · exact absurd he.symm hprev
  have hfront : s.ofs = t := h.front_eq hlt
  have hfree : s.free = b.stop - t := h.free
  have hsum : s.used + s.dirty = t - b.offset := h.sum
  obtain ⟨hofs,hfree',hcopy⟩ := hm.of_trusted ht
  have hofs : u.ofs = s.ofs + len := hofs.trans (u32_of_lt hw)
  by_cases hover : s.ofs + len ≤ b.stop
  · obtain ⟨rfl,hlen⟩ : copy = true ∧ len ≠ 0 := by
      grind
    -- the node is counted, but there is no reference to it
    have he := hcopy rfl
    have hused : u.used = s.used + len :=
      (congrArg Acct.used he).trans (u32_of_lt (show s.used + len < _ by omega))
    have hrefs : usedOf u.refs = s.used := (congrArg (fun a => usedOf a.refs) he).trans h.used.symm
    rcases hover.lt_or_eq with hin | hend
    · refine Or.inr ⟨by omega,?_⟩
      have hne : u32 (usedOf u.refs) ≠ u.used := by
        rw [hrefs,hused,u32_of_lt (by omega)]
        omega
      exact decide_eq_false hne
    · refine Or.inl ⟨by omega,fun hf => ?_⟩
      have hf : u.used = usedOf u.refs := hf.used
      omega
  · -- the free space has wrapped
    refine Or.inl ⟨by omega,fun hf => ?_⟩
    have hf : u.free ≤ b.sectorSize := hf.free
    have hfree' : u.free = sub32 s.free len := hfree'
    have hgt : sub32 s.free len = s.free + 4294967296 - len := by
      rw [sub32,u32_of_lt (by omega : len < 4294967296),u32_of_lt (by omega)]
    omega

end

section
variable {b : Block} {mem : ℕ → Bool} {tmpnodes : ℕ → List ℕ} {dents : ℕ → List FullDirent}
  (hb : b.Fits32)
include hb

theorem scanEraseblock_sound
    (hp : ∀ k < n, ∀ ofs, Met b mem (b.init tmpnodes dents) k ofs → b.Proper ofs)
    (h : scanEraseblock b mem (b.init tmpnodes dents) n = .ok s) : ∃ t, s.acct.Sound b t := by
  induction n generalizing s with
  | zero =>
    rcases start_cases (mem 0) hb tmpnodes dents with he | ⟨u,he,-⟩ | ⟨u,t,he,hu,-⟩
    · cases h.symm.trans he
    · cases h.symm.trans he
    · cases h.symm.trans he
      exact ⟨t,hu⟩
  | succ n ih =>
    obtain ⟨u,hu,hs⟩ := scanEraseblock_ok h
    obtain ⟨t,ht⟩ := ih (fun k hk => hp k (hk.trans n.lt_succ_self)) hu
    exact step_sound hb ht (fun hprev h12 => hp n n.lt_succ_self _ ⟨u,hu,rfl,hprev,h12⟩) hs

theorem scanEraseblock_final (hp : ∀ k ofs, Met b mem (b.init tmpnodes dents) k ofs → b.Proper ofs)
    (h : scanEraseblock b mem (b.init tmpnodes dents) n = .error (.done r s)) : s.acct.Final b := by
  induction n with
  | zero =>
    rcases start_cases (mem 0) hb tmpnodes dents with he | ⟨u,he,hu⟩ | ⟨u,t,he,-⟩
    · cases h.symm.trans he
    · cases h.symm.trans he
      exact hu
    · cases h.symm.trans he
  | succ n ih =>
    cases hn : scanEraseblock b mem (b.init tmpnodes dents) n with
    | error e =>
      refine ih ?_
      rw [hn,scanEraseblock_ends hn h]
    | ok u =>
      obtain ⟨t,ht⟩ := scanEraseblock_sound hb (fun k _ => hp k) hn
      exact step_final hb ht (scanEraseblock_succ hn ▸ h)

theorem scanEraseblock_not_final {k ofs : ℕ}
    (h : scanEraseblock b mem (b.init tmpnodes dents) n = .error (.done r s))
    (hm : Met b mem (b.init tmpnodes dents) k ofs) (hw : b.Short ofs) (hbad : ¬b.Proper ofs)
    (hp : ∀ j < k, ∀ ofs, Met b mem (b.init tmpnodes dents) j ofs → b.Proper ofs) :
    ¬s.acct.Final b := by
  obtain ⟨u,hu,rfl,hprev,h12⟩ := hm
  obtain ⟨t,ht⟩ := scanEraseblock_sound hb hp hu
  have hk := scanEraseblock_succ hu
  simp only [Block.Proper,not_forall] at hbad
  obtain ⟨copy,len,htr,hbad⟩ := hbad
  cases hstep : step b (mem (k + 1)) u with
  | error e =>
    rw [hstep] at hk
    rw [scanEraseblock_ends hk h] at hstep
    obtain ⟨-,⟨hge,-⟩ | ⟨hlt,h12',-⟩⟩ := step_done hb ht.aligned hstep
    · have : 0 < sizeofUnknownNode := by decide
      omega
    · omega
  | ok v =>
    rw [hstep] at hk
    have hk' := scanEraseblock_succ hk
    rcases step_improper hb ht hprev htr (hw _ _ htr) hbad hstep with ⟨hge,hnf⟩ | ⟨hlt,hpar⟩
    · rw [step,if_pos hge] at hk'
      cases scanEraseblock_ends hk' h
      exact hnf
    · rw [step,if_neg (not_le.mpr hlt),hpar] at hk'
      cases scanEraseblock_ends hk' h

end

/-- What the scan leaves when it returns: it is what it should be if all nodes that are met end
inside the block and are known, and, as long as no end is over 32 bits, only then. -/
theorem scan_account {b : Block} (hb : b.Fits32) (mem : ℕ → Bool) (tmpnodes : ℕ → List ℕ)
    (dents : ℕ → List FullDirent) {n r : ℕ} {s : State}
    (h : scanEraseblock b mem (b.init tmpnodes dents) n = .error (.done r s)) :
    ((∀ k ofs, Met b mem (b.init tmpnodes dents) k ofs → b.Proper ofs) → s.acct.Final b) ∧
      ((∀ k ofs, Met b mem (b.init tmpnodes dents) k ofs → b.Short ofs) → s.acct.Final b →
        ∀ k ofs, Met b mem (b.init tmpnodes dents) k ofs → b.Proper ofs) := by
  refine ⟨fun hp => scanEraseblock_final hb hp h,fun hw hf k => ?_⟩
  -- the first node that is not proper is the last one that is met
  induction k using Nat.strong_induction_on with
  | _ k ih =>
    intro ofs hm
    by_contra hbad
    exact scanEraseblock_not_final hb h hm (hw k ofs hm) hbad ih hf

/-- The node of an empty file, with right CRCs. -/
def emptyNode : List Byte :=
  [0x85,0x19,0x02,0xe0,0x44,0,0,0,0x1d,0xfb,0xf7,0x98,2,0,0,0,1,0,0,0,0xa4,0x81] ++
    List.replicate 42 0 ++ [0x14,0xd0,0xc4,0x71]

def markedBlock : Block := .ofBytes (cleanmarker ++ emptyNode)

theorem markedBlock_fits32 : markedBlock.Fits32 := ⟨rfl,rfl,by decide,le_rfl⟩

theorem markedBlock_returned : returned (scanEraseblock markedBlock (fun _ => true)
    (markedBlock.init (fun _ => []) fun _ => []) 3) =
      some (0,⟨80,80,0,0,[⟨0,12,false⟩,⟨12,68,false⟩]⟩) := by
  decide +kernel

theorem markedBlock_met {k ofs : ℕ} (h : Met markedBlock (fun _ => true)
    (markedBlock.init (fun _ => []) fun _ => []) k ofs) : ofs = 0 ∨ ofs = 12 := by
  obtain ⟨u,hu,rfl,-,h12⟩ := h
  have h12 : u.ofs + 12 ≤ 80 := h12
  have hrun : ∀ k < 3, (scanEraseblock markedBlock (fun _ => true) (markedBlock.init (fun _ => [])
    fun _ => []) k).toOption.map State.ofs = some ([0,12,80].getD k 0) := by decide +kernel
  by_cases hk : k < 3
  · have hofs := hrun k hk
    rw [hu] at hofs
    have hofs : u.ofs = [0,12,80].getD k 0 := Option.some.inj hofs
    obtain rfl | rfl | rfl : k = 0 ∨ k = 1 ∨ k = 2 := by omega
    · exact Or.inl hofs
    · exact Or.inr hofs
    · have hofs : u.ofs = 80 := hofs
      omega
  · obtain ⟨s,hs,-⟩ := returned_eq_some markedBlock_returned
    cases hu.symm.trans (scanEraseblock_error hs (not_lt.mp hk))

theorem markedBlock_trusted {k ofs : ℕ} {copy : Bool} (hm : Met markedBlock (fun _ => true)
    (markedBlock.init (fun _ => []) fun _ => []) k ofs) (ht : markedBlock.trusted ofs = some (copy,len)) :
    ofs = 12 ∧ copy = false ∧ len = 68 := by
  have h0 : markedBlock.trusted 0 = none := by decide +kernel
  have h12 : markedBlock.trusted 12 = some (false,68) := by decide +kernel
  rcases markedBlock_met hm with rfl | rfl
  · cases h0.symm.trans ht
  · cases h12.symm.trans ht
    exact ⟨rfl,rfl,rfl⟩

theorem scan_account_marked :
    ∃ s, scanEraseblock markedBlock (fun _ => true) (markedBlock.init (fun _ => []) fun _ => []) 3 =
      .error (.done 0 s) ∧ s.acct.Final markedBlock := by
  obtain ⟨s,hs,-⟩ := returned_eq_some markedBlock_returned
  refine ⟨s,hs,(scan_account markedBlock_fits32 _ _ _ hs).1 fun k ofs hm copy len ht => ?_⟩
  obtain ⟨rfl,rfl,rfl⟩ := markedBlock_trusted hm ht
  decide

/-- A clean marker and, up to the end, a node of a kind that is to be copied without being known. -/
def copyBlock : Block :=
  .ofBytes (cleanmarker ++ [0x85,0x19,0x04,0x60,0x0c,0,0,0,0x40,0xd8,0xe8,0xa1])

theorem scan_account_differs :
    ∃ s, scanEraseblock copyBlock (fun _ => true) (copyBlock.init (fun _ => []) fun _ => []) 3 =
      .error (.done 0 s) ∧ s.used ≠ usedOf s.refs := by
  obtain ⟨s,hs,ha⟩ := returned_eq_some (show returned (scanEraseblock copyBlock (fun _ => true)
    (copyBlock.init (fun _ => []) fun _ => []) 3) = some (0,⟨24,24,0,0,[⟨0,12,false⟩]⟩)
    by decide +kernel)
  refine ⟨s,hs,?_⟩
  have hu : s.used = 24 := congrArg Acct.used ha
  have hr : s.refs = [⟨0,12,false⟩] := congrArg Acct.refs ha
  rw [hu,hr]
  decide

end Simpad.Jffs2.Scan
