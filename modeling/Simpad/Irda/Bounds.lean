import Simpad.Irda.RoundTrip

namespace Simpad.Irda
open List

theorem length_stuffByte (byte : Byte) :
    (stuffByte byte).length = if byte ∈ [bof,eof,ce] then 2 else 1 := by
  rw [stuffByte]
  grind

variable {buffsize : ℕ}

theorem wrapData_short {tx data : List Byte} {fcs : BitVec 16} (h0 : tx.length + 5 < buffsize)
    (h : buffsize ≤ tx.length + (data.dropLast.flatMap stuffByte).length + 5) :
    (wrapData buffsize tx fcs data).length ≤ buffsize := by
  induction data generalizing tx fcs with
  | nil => exact absurd h (not_le.mpr h0)
  | cons byte data ih =>
    rw [wrapData,if_pos h0]
    cases data with
    | nil => exact absurd h (not_le.mpr h0)
    | cons byte' data =>
      rw [dropLast_cons_cons,flatMap_cons,length_append] at h
      by_cases hnext : (tx ++ stuffByte byte).length + 5 < buffsize
      · grind
      · have hbyte := length_stuffByte byte
        rw [wrapData,if_neg hnext,length_append]
        grind

/-- The check passes with nothing to spare in front of the last byte, and that byte and both bytes of
the check sequence are escaped. -/
def Spills (cb : SkbCb) (data : List Byte) (buffsize : ℕ) : Prop :=
  cb.numXbofs + 1 + (data.dropLast.flatMap stuffByte).length + 6 = buffsize ∧
    (∃ last ∈ data.getLast?, last ∈ [bof,eof,ce]) ∧
    ∀ byte ∈ lsbFirst (~~~crcCalc initFcs data), byte ∈ [bof,eof,ce]

theorem length_wrapped_le_iff {cb : SkbCb} {data : List Byte}
    (hfit : cb.numXbofs + 1 + (data.dropLast.flatMap stuffByte).length + 5 < buffsize) :
    (wrapped cb data).length ≤ buffsize ↔ ¬Spills cb data buffsize := by
  rw [Spills,wrapped]
  -- an escaped byte is two bytes long: the frame is one byte too long just if all three are
  cases data using reverseRecOn with
  | nil =>
    refine iff_of_true ?_ (by rintro ⟨-,⟨_,hlast,-⟩,-⟩; cases hlast)
    change _ + 1 + 0 + 5 < _ at hfit
    simp only [lsbFirst,flatMap_cons,flatMap_nil,length_append,length_replicate,length_cons,
      length_nil,length_stuffByte]
    split_ifs <;> omega
  | append_singleton data last =>
    rw [dropLast_concat] at hfit ⊢
    simp only [lsbFirst,flatMap_append,flatMap_cons,flatMap_nil,length_append,length_replicate,
      length_cons,length_nil,length_stuffByte,forall_mem_cons,getLast?_concat]
    grind

/-- The bytes of a frame are written in order from the start of the buffer, and they all fit unless
the frame spills. -/
theorem wrap_inside_iff (cb : SkbCb) (data : List Byte) (hb : 170 ≤ buffsize) :
    (∃ tx, asyncWrapSkb cb data buffsize = some tx ∧ tx.length ≤ buffsize) ↔
      ¬Spills cb data buffsize := by
  have hx : cb.numXbofs ≤ 163 := min_le_right _ _
  have hstart : (replicate cb.numXbofs xbof ++ [bof]).length = cb.numXbofs + 1 := by
    simp
  have hsome : (∃ tx, asyncWrapSkb cb data buffsize = some tx ∧ tx.length ≤ buffsize) ↔
      (wrapData buffsize (replicate cb.numXbofs xbof ++ [bof]) initFcs data).length ≤
        buffsize := by
    simp [asyncWrapSkb]
  rw [hsome]
  by_cases hfit : cb.numXbofs + 1 + (data.dropLast.flatMap stuffByte).length + 5 < buffsize
  · rw [wrapData_eq (hstart.symm ▸ hfit)]
    exact length_wrapped_le_iff hfit
  · refine iff_of_true (wrapData_short ?_ ?_) fun h => hfit (h.1 ▸ Nat.lt_succ_self _) <;>
      rw [hstart] <;> omega

theorem wrap_inside_escaped :
    ∃ tx, asyncWrapSkb ⟨true,163,0⟩ [0xc0,0xc1] 170 = some tx ∧ tx.length ≤ 170 :=
  (wrap_inside_iff _ _ (by decide)).mpr fun h => absurd h.1 (by decide)

/-- Both check bytes of these two bytes are `0xc0`; the `EOF` is written behind a buffer of 170
bytes. -/
theorem wrap_spills : asyncWrapSkb ⟨true,162,0⟩ [0x95,0x7d] 170 = none ∧
    (wrapped ⟨true,162,0⟩ [0x95,0x7d]).length = 171 := by
  decide +kernel

/-- What a byte makes the receiver do to memory: store a byte in the buffer, or call `async_bump`. -/
inductive Access
  | store (i : ℕ)
  | bump (len : ℕ)

/-- Inside of a buffer of `truesize` bytes, and with a length that `async_bump` can take two from. -/
def Access.Inside (truesize : ℕ) : Access → Prop
  | .store i => i < truesize
  | .bump len => 2 ≤ len ∧ len ≤ truesize

namespace Receiver

/-- What `async_unwrap_char` does to memory. -/
def access (r : Receiver) (byte : Byte) : List Access :=
  match r.state with
  | .outsideFrame => []
  | .beginFrame => if byte = bof ∨ byte = ce ∨ byte = eof then [] else [.store 0]
  | .linkEscape =>
    if byte = bof ∨ byte = ce ∨ byte = eof then []
    else if r.data.length < r.truesize then [.store r.data.length] else []
  | .insideFrame =>
    if byte = bof ∨ byte = ce then []
    else if byte = eof then if r.fcs = goodFcs then [.bump r.data.length] else []
    else if r.data.length < r.truesize then [.store r.data.length] else []

/-- A byte is appended where `access` has the store, and only there. -/
theorem access_store (alloc : Bool) (r : Receiver) (byte : Byte) :
    let d := if r.state = .beginFrame then [] else r.data
    (∃ b, (asyncUnwrapChar alloc r byte).data = d ++ [b] ∧ r.access byte = [.store d.length]) ∨
      (asyncUnwrapChar alloc r byte).data = d ∧ ∀ i, .store i ∉ r.access byte := by
  rw [asyncUnwrapChar,access]
  cases hs : r.state <;> dsimp only
  case outsideFrame =>
    rw [outsideFrame]
    grind
  case beginFrame =>
    rw [beginFrame]
    grind [store]
  case linkEscape =>
    rw [linkEscape]
    grind [store]
  case insideFrame =>
    rw [insideFrame]
    grind [store,asyncBump]

/-- What a stream of bytes makes it do, each byte with whether there is memory for an skb. -/
def accesses : Receiver → List (Bool × Byte) → List Access
  | _, [] => []
  | r, (alloc,byte) :: l => r.access byte ++ (asyncUnwrapChar alloc r byte).accesses l

/-- What is known of the buffer in a frame: its bytes are those that the check sequence is of. -/
def Framed (r : Receiver) : Prop :=
  match r.state with
  | .outsideFrame | .beginFrame => True
  | .linkEscape => r.data.length ≤ r.truesize ∧ r.fcs = crcCalc initFcs r.data
  | .insideFrame => 1 ≤ r.data.length ∧ r.data.length ≤ r.truesize ∧ r.fcs = crcCalc initFcs r.data

theorem irdaFcs_ne_goodFcs : ∀ byte : Byte, irdaFcs initFcs byte ≠ goodFcs := by
  decide +kernel

variable {r : Receiver}

theorem Framed.access (h : r.Framed) (ht : 1 ≤ r.truesize) (byte : Byte) :
    ∀ e ∈ r.access byte, e.Inside r.truesize := by
  rw [Receiver.access]
  rw [Framed] at h
  cases hs : r.state <;> rw [hs] at h <;> dsimp only at h ⊢
  case outsideFrame => exact forall_mem_nil _
  case beginFrame =>
    split_ifs
    · exact forall_mem_nil _
    · exact forall_mem_singleton.mpr ht
  case linkEscape =>
    split_ifs with _ hlt
    · exact forall_mem_nil _
    · exact forall_mem_singleton.mpr hlt
    · exact forall_mem_nil _
  case insideFrame =>
    split_ifs with _ _ hgood hlt
    · exact forall_mem_nil _
    · -- one byte alone does not have the right check sequence
      refine forall_mem_singleton.mpr ⟨?_,h.2.1⟩
      by_contra hlt
      obtain ⟨byte,hd⟩ := length_eq_one_iff.mp (show r.data.length = 1 by omega)
      rw [hd] at h
      exact irdaFcs_ne_goodFcs byte (h.2.2.symm.trans hgood)
    · exact forall_mem_nil _
    · exact forall_mem_singleton.mpr hlt
    · exact forall_mem_nil _

theorem Framed.stored (hfcs : r.fcs = crcCalc initFcs r.data) (hlt : r.data.length < r.truesize)
    (byte : Byte) : Framed { r.store byte with state := .insideFrame } := by
  refine ⟨?_,?_,?_⟩
  · exact length_append.symm ▸ Nat.le_add_left 1 _
  · exact length_append.symm ▸ hlt
  · show irdaFcs r.fcs byte = crcCalc initFcs (r.data ++ [byte])
    rw [crcCalc_concat,hfcs]

theorem asyncBump_frame (r : Receiver) (alloc : Bool) :
    (r.asyncBump alloc).state = r.state ∧ (r.asyncBump alloc).truesize = r.truesize := by
  cases alloc <;> exact ⟨rfl,rfl⟩

theorem Framed.step (h : r.Framed) (ht : 1 ≤ r.truesize) (alloc : Bool) (byte : Byte) :
    (asyncUnwrapChar alloc r byte).Framed ∧ (asyncUnwrapChar alloc r byte).truesize = r.truesize := by
  rw [asyncUnwrapChar]
  rw [Framed] at h
  cases hs : r.state <;> rw [hs] at h <;> dsimp only at h ⊢
  case outsideFrame =>
    rw [outsideFrame]
    split_ifs <;> refine ⟨?_,rfl⟩ <;> simp only [Framed,hs]
  case beginFrame =>
    rw [beginFrame]
    split_ifs
    · exact ⟨by simp only [Framed,hs],rfl⟩
    · exact ⟨⟨Nat.zero_le _,rfl⟩,rfl⟩
    · exact ⟨trivial,rfl⟩
    · exact ⟨Framed.stored (r := { r with data := [], fcs := initFcs }) rfl ht byte,rfl⟩
  case linkEscape =>
    rw [linkEscape]
    split_ifs with _ _ _ hlt
    · exact ⟨trivial,rfl⟩
    · exact ⟨by simpa only [Framed,hs] using h,rfl⟩
    · exact ⟨trivial,rfl⟩
    · exact ⟨.stored h.2 hlt _,rfl⟩
    · exact ⟨trivial,rfl⟩
  case insideFrame =>
    rw [insideFrame]
    dsimp only
    split_ifs with _ _ _ _ hlt
    · exact ⟨trivial,rfl⟩
    · exact ⟨h.2,rfl⟩
    · obtain ⟨hstate,htrue⟩ :=
        asyncBump_frame { r with state := .outsideFrame, inFrame := false } alloc
      exact ⟨by simp only [Framed,hstate],htrue⟩
    · exact ⟨trivial,rfl⟩
    · have hst := Framed.stored h.2.2 hlt byte
      rw [← hs] at hst
      exact ⟨hst,rfl⟩
    · exact ⟨trivial,rfl⟩

theorem Framed.accesses (h : r.Framed) (ht : 1 ≤ r.truesize) (l : List (Bool × Byte)) :
    ∀ e ∈ r.accesses l, e.Inside r.truesize := by
  induction l generalizing r with
  | nil => exact forall_mem_nil _
  | cons p l ih =>
    obtain ⟨alloc,byte⟩ := p
    obtain ⟨hnext,hsize⟩ := h.step ht alloc byte
    have hrest := ih hnext (hsize.symm ▸ ht)
    rw [hsize] at hrest
    exact forall_mem_append.mpr ⟨h.access ht byte,hrest⟩

end Receiver

/-- From outside a frame, whatever comes in, no byte is stored outside of the buffer, and the length
that `async_bump` gets is at least two and not more than the buffer. -/
theorem unwrap_inside {r : Receiver} (hs : r.state = .outsideFrame) (ht : 1 ≤ r.truesize)
    (l : List (Bool × Byte)) : ∀ e ∈ r.accesses l, e.Inside r.truesize := by
  refine Receiver.Framed.accesses ?_ ht l
  rw [Receiver.Framed,hs]
  trivial

theorem unwrap_inside_abort : 1 ≤ idleReceiver.truesize ∧ ∀ e ∈ idleReceiver.accesses
    [(true,bof),(true,5),(true,bof),(true,ce),(true,0xe0),(true,eof)], e.Inside 16 :=
  ⟨by decide,unwrap_inside rfl (by decide) _⟩

end Simpad.Irda
