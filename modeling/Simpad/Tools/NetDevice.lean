import Simpad.Tools.ControlPanel

namespace Simpad.NetPanel
open ControlPanel List

/-- `string::find`, without `npos`. -/
def Occurs (pat s : List Char) : Prop := (findFrom pat s).isSome

instance (pat s : List Char) : Decidable (Occurs pat s) := inferInstanceAs (Decidable (_ = true))

theorem occurs_iff {pat s : List Char} : Occurs pat s ↔ pat <:+: s := by
  rw [Occurs]
  induction s with
  | nil =>
    simp [findFrom,infix_nil]
  | cons c cs ih =>
    rw [findFrom,infix_cons_iff]
    split
    · grind
    · grind

/-- The text behind a keyword, up to the next blank or the end. -/
def valueOf (devInfo keyWord : List Char) : Option (List Char) :=
  (findFrom keyWord devInfo).map fun startPos =>
    let rest := devInfo.drop (startPos + keyWord.length)
    match findFrom [' '] rest with
    | none => rest
    | some n => rest.take n

variable {n d : ℕ} {devInfo : List Char}

theorem isSome_valueOf {keyWord : List Char} :
    (valueOf devInfo keyWord).isSome ↔ keyWord <:+: devInfo := by
  rw [valueOf,Option.isSome_map]
  exact occurs_iff

/-- `class NetDevice`. -/
structure NetDevice where
  devInfo : List Char
  devName : List Char
  inetAddr : List Char
  bcastAddr : List Char
  mask : List Char
  hwAddr : List Char
  deriving DecidableEq

/-- `class WifiDev`. -/
structure WifiDev where
  devInfo : List Char
  devName : List Char
  essId : List Char
  mode : List Char
  freq : List Char
  sens : List Char
  deriving DecidableEq

/-- The `devKeyWord` of `netdevice.cpp`. -/
inductive KeyWord
  | hwAddr | inetAddr | bcast | mask
  deriving DecidableEq

def KeyWord.text : KeyWord → List Char
  | .hwAddr => "HWaddr ".toList
  | .inetAddr => "inet addr:".toList
  | .bcast => "Bcast:".toList
  | .mask => "Mask:".toList

def NetDevice.field (d : NetDevice) : KeyWord → List Char
  | .hwAddr => d.hwAddr
  | .inetAddr => d.inetAddr
  | .bcast => d.bcastAddr
  | .mask => d.mask

/-- `NetDevice::NetDevice()`. -/
def NetDevice.new : NetDevice where
  devInfo := []
  devName := []
  inetAddr := "... ... ... ...".toList
  bcastAddr := "... ... ... ...".toList
  mask := "... ... ... ...".toList
  hwAddr := "00:00:00:00:00:00".toList

def NetDevice.setDevName (d : NetDevice) (devName : List Char) : NetDevice :=
  { d with devName := devName }

/-- `NetDevice::setDevInfo`.  A field whose keyword is missing keeps its value. -/
def NetDevice.setDevInfo (d : NetDevice) (devInfo : List Char) : NetDevice where
  devInfo := devInfo
  devName := d.devName
  hwAddr := (valueOf devInfo KeyWord.hwAddr.text).getD d.hwAddr
  inetAddr := (valueOf devInfo KeyWord.inetAddr.text).getD d.inetAddr
  bcastAddr := (valueOf devInfo KeyWord.bcast.text).getD d.bcastAddr
  mask := (valueOf devInfo KeyWord.mask.text).getD d.mask

def WifiDev.setDevName (d : WifiDev) (devName : List Char) : WifiDev := { d with devName := devName }

def WifiDev.setDevInfo (d : WifiDev) (devInfo : List Char) : WifiDev where
  devInfo := devInfo
  devName := d.devName
  essId := (valueOf devInfo "ESSID:".toList).getD d.essId
  mode := (valueOf devInfo "Mode:".toList).getD d.mode
  freq := (valueOf devInfo "Frequency:".toList).getD d.freq
  sens := (valueOf devInfo "Signal level:".toList).getD d.sens

/-- Every keyword finds its value in the text. -/
def Complete (devInfo : List Char) : Prop := ∀ k : KeyWord, k.text <:+: devInfo

theorem NetDevice.field_setDevInfo (d : NetDevice) (devInfo : List Char) (k : KeyWord) :
    (d.setDevInfo devInfo).field k = (valueOf devInfo k.text).getD (d.field k) := by
  cases k <;> rfl

theorem NetDevice.field_determined {k : KeyWord} {d d' : NetDevice} (hne : d.field k ≠ d'.field k) :
    (d.setDevInfo devInfo).field k = (d'.setDevInfo devInfo).field k ↔ k.text <:+: devInfo := by
  rw [field_setDevInfo,field_setDevInfo,← isSome_valueOf]
  cases valueOf devInfo k.text with
  | none => grind
  | some v => exact iff_of_true rfl rfl

theorem NetDevice.field_of_complete (h : Complete devInfo) (d d' : NetDevice) (k : KeyWord) :
    (d.setDevInfo devInfo).field k = (d'.setDevInfo devInfo).field k := by
  by_cases heq : d.field k = d'.field k
  · rw [field_setDevInfo,field_setDevInfo,heq]
  · exact (field_determined heq).mpr (h k)

/-- `sprintf("%d")`. -/
def decimal (v : ℤ) : List Char :=
  let digits := if v = 0 then [0] else (Nat.digits 10 v.natAbs).reverse
  (if v < 0 then ['-'] else []) ++ digits.map Hex.char

def convIntToString (delim : List Char) : List ℤ → List Char
  | [] => []
  | [v] => decimal v
  | v :: vs => decimal v ++ delim ++ convIntToString delim vs

/-- The digits of a number, after an optional `0x` or `0X` in base 16. -/
def magnitude (base : ℕ) (cs : List Char) : ℕ :=
  if base = 16 then ControlPanel.magnitude cs else Hex.read (fun a d => a * base + d) base 0 cs

/-- `strtol` into a `long` of 32 bits. -/
def strtol (base : ℕ) (s : List Char) : ℤ :=
  match s.dropWhile isSpace with
  | '-' :: cs => -(min (magnitude base cs) (2 ^ 31) : ℕ)
  | '+' :: cs => (min (magnitude base cs) (2 ^ 31 - 1) : ℕ)
  | cs => (min (magnitude base cs) (2 ^ 31 - 1) : ℕ)

/-- The loop of `convStringToInt`: skip delimiters, then take what is before the next one. -/
def tokenLoop (delim : List Char) : ℕ → List Char → List (List Char)
  | 0, _ => []
  | fuel + 1, s =>
    match s.dropWhile fun c => c ∈ delim with
    | [] => []
    | c :: cs =>
      (c :: cs).takeWhile (fun c => c ∉ delim) ::
        tokenLoop delim fuel ((c :: cs).dropWhile fun c => c ∉ delim)

/-- `convStringToInt`: the tokens go behind those of the caller, whose number is returned. -/
def convStringToInt (scrStr : List Char) (tokens : List ℤ) (delim : List Char) (base : ℕ) :
    List ℤ × ℕ :=
  let found := (tokenLoop delim scrStr.length scrStr).map (strtol base)
  (tokens ++ found,found.length)

namespace NetDevice

def setInetAddrInt (d : NetDevice) (inetAddr : List ℤ) : NetDevice :=
  { d with inetAddr := convIntToString ['.'] inetAddr }

def setBcastAddrInt (d : NetDevice) (bcastAddr : List ℤ) : NetDevice :=
  { d with bcastAddr := convIntToString ['.'] bcastAddr }

def setMaskInt (d : NetDevice) (mask : List ℤ) : NetDevice :=
  { d with mask := convIntToString ['.'] mask }

def setHwAddrInt (d : NetDevice) (hwAddr : List ℤ) : NetDevice :=
  { d with hwAddr := convIntToString [':'] hwAddr }

def getInetAddrInt (d : NetDevice) (tokens : List ℤ) : List ℤ × ℕ :=
  convStringToInt d.inetAddr tokens ['.'] 10

def getBcastAddrInt (d : NetDevice) (tokens : List ℤ) : List ℤ × ℕ :=
  convStringToInt d.bcastAddr tokens ['.'] 10

def getMaskInt (d : NetDevice) (tokens : List ℤ) : List ℤ × ℕ :=
  convStringToInt d.mask tokens ['.'] 10

/-- The only getter that reads in base 16. -/
def getHwAddrInt (d : NetDevice) (tokens : List ℤ) : List ℤ × ℕ :=
  convStringToInt d.hwAddr tokens [':'] 16

end NetDevice

/-- The decimal digits of a number, taken for hexadecimal ones. -/
def misread (n : ℕ) : ℕ := Nat.ofDigits 16 (Nat.digits 10 n)

theorem misread_of_lt (h : n < 10) : misread n = n := by
  interval_cases n <;> rfl

theorem misread_eq (h : n ≠ 0) : misread n = n % 10 + 16 * misread (n / 10) := by
  rw [misread,Nat.digits_def' (by decide) (Nat.pos_of_ne_zero h),Nat.ofDigits_cons,misread]

theorem le_misread (n : ℕ) : n ≤ misread n := by
  induction n using Nat.strong_induction_on with
  | h n ih =>
    rcases Nat.eq_zero_or_pos n with rfl | hpos
    · exact Nat.zero_le _
    · have := ih (n / 10) (by omega)
      rw [misread_eq hpos.ne']
      omega

theorem misread_eq_self : misread n = n ↔ n < 10 := by
  refine ⟨fun h => ?_,misread_of_lt⟩
  by_contra hn
  have := le_misread (n / 10)
  rw [misread_eq (by omega)] at h
  omega

theorem misread_lt (h : n < 256) : misread n < 4096 := by
  have hlast : misread (n / 10 / 10) = n / 10 / 10 := misread_of_lt (by omega)
  by_cases h₁ : n = 0
  · subst h₁; decide
  by_cases h₂ : n / 10 = 0
  · rw [misread_of_lt (by omega)]
    omega
  rw [misread_eq h₁,misread_eq h₂,hlast]
  omega

/-- The digits that `%d` prints, the first one first. -/
def decimalDigits (n : ℕ) : List ℕ := if n = 0 then [0] else (Nat.digits 10 n).reverse

theorem decimal_eq (v : ℤ) :
    decimal v = (if v < 0 then ['-'] else []) ++ (decimalDigits v.natAbs).map Hex.char := by
  simp only [decimal,decimalDigits,Int.natAbs_eq_zero]

theorem decimal_natCast (n : ℕ) : decimal n = (decimalDigits n).map Hex.char := by
  simp [decimal_eq]

theorem decimalDigits_lt (h : d ∈ decimalDigits n) : d < 10 := by
  unfold decimalDigits at h
  split at h
  · simp at h
    omega
  · exact Nat.digits_lt_base (by decide) (mem_reverse.mp h)

theorem decimalDigits_ne_nil (n : ℕ) : decimalDigits n ≠ [] := by
  unfold decimalDigits
  split
  · simp
  · next h => simpa using Nat.digits_ne_nil_iff_ne_zero.mpr h

theorem foldl_decimalDigits (n b : ℕ) :
    (decimalDigits n).foldl (fun a d => a * b + d) 0 = Nat.ofDigits b (Nat.digits 10 n) := by
  unfold decimalDigits
  split
  · next h => simp [h]
  · rw [foldl_reverse,Nat.ofDigits_eq_foldr]
    grind

/-- A decimal digit is none of the characters that `strtol` treats on its own. -/
theorem char_plain (h : d < 10) : Hex.char d ≠ 'x' ∧ Hex.char d ≠ 'X' ∧ Hex.char d ≠ '-' ∧
    Hex.char d ≠ '+' ∧ isSpace (Hex.char d) = false ∧ Hex.char d ≠ ':' ∧ Hex.char d ≠ '.' := by
  interval_cases d <;> decide

theorem magnitude_map_char {ds : List ℕ} (h : ∀ d ∈ ds, d < 10) :
    magnitude 16 (ds.map Hex.char) = ds.foldl (fun a d => a * 16 + d) 0 := by
  have hread : Hex.read (fun a d => a * 16 + d) 16 0 (ds.map Hex.char ++ []) =
      ds.foldl (fun a d => a * 16 + d) 0 :=
    Hex.read_map_char _ le_rfl (fun d hd => (h d hd).trans (by decide)) 0 (by simp)
  rw [append_nil] at hread
  rw [magnitude,if_pos rfl,← hread]
  match ds,h with
  | [],_ => rfl
  | [d],_ =>
    unfold ControlPanel.magnitude
    simp
  | d :: e :: ds,h =>
    unfold ControlPanel.magnitude
    have hplain := char_plain (h e (by simp))
    split
    · simp_all
    · simp_all
    · rfl

theorem strtol_decimal (h : n < 256) : strtol 16 (decimal n) = misread n := by
  have hlt := misread_lt h
  have hmag := magnitude_map_char fun d hd => @decimalDigits_lt n d hd
  rw [foldl_decimalDigits,← misread] at hmag
  rw [decimal_natCast]
  obtain ⟨d,ds,hds⟩ := exists_cons_of_ne_nil (decimalDigits_ne_nil n)
  obtain ⟨-,-,hminus,hplus,hspace,-⟩ := char_plain (@decimalDigits_lt n d (by simp [hds]))
  rw [hds,map_cons] at hmag ⊢
  rw [strtol,dropWhile_cons_of_neg (by simp [hspace])]
  split
  · grind
  · grind
  · omega

theorem decimal_word (v : ℤ) : decimal v ≠ [] ∧ ':' ∉ decimal v ∧ '.' ∉ decimal v := by
  have hword : ∀ c ∈ decimal v, c ≠ ':' ∧ c ≠ '.' := by
    intro c hc
    rw [decimal_eq,mem_append,mem_map] at hc
    rcases hc with hc | ⟨d,hd,rfl⟩
    · split at hc <;> simp_all
    · exact (char_plain (decimalDigits_lt hd)).2.2.2.2.2
  refine ⟨?_,fun h => (hword _ h).1 rfl,fun h => (hword _ h).2 rfl⟩
  simp [decimal_eq,decimalDigits_ne_nil]

/-- A number between the limits of an `int` is read as it was printed. -/
theorem strtol_ten {v : ℤ} (h : -2 ^ 31 ≤ v ∧ v < 2 ^ 31) : strtol 10 (decimal v) = v := by
  have hmag : magnitude 10 ((decimalDigits v.natAbs).map Hex.char) = v.natAbs := by
    have hread : Hex.read (fun a d => a * 10 + d) 10 0 ((decimalDigits v.natAbs).map Hex.char ++ []) = _ :=
      Hex.read_map_char _ (by decide) (fun d hd => decimalDigits_lt hd) 0 (by simp)
    rw [append_nil,foldl_decimalDigits,Nat.ofDigits_digits] at hread
    exact hread
  rw [decimal_eq]
  split
  · next hneg =>
    rw [strtol,singleton_append,dropWhile_cons_of_neg (by decide)]
    simp only [hmag]
    omega
  · next hpos =>
    obtain ⟨d,ds,hds⟩ := exists_cons_of_ne_nil (decimalDigits_ne_nil v.natAbs)
    obtain ⟨-,-,hminus,hplus,hspace,-⟩ := char_plain (@decimalDigits_lt v.natAbs d (by simp [hds]))
    rw [hds,map_cons] at hmag ⊢
    rw [nil_append,strtol,dropWhile_cons_of_neg (by simp [hspace])]
    split
    · grind
    · grind
    · rw [hmag]
      omega

section

variable {dl : Char}

theorem tokenLoop_word {w rest : List Char} (hne : w ≠ []) (hw : dl ∉ w)
    (hrest : rest = [] ∨ ∃ cs, rest = dl :: cs) (fuel : ℕ) :
    tokenLoop [dl] (fuel + 1) (w ++ rest) = w :: tokenLoop [dl] fuel rest := by
  obtain ⟨c,cs,rfl⟩ := exists_cons_of_ne_nil hne
  have hw : ∀ a ∈ c :: cs, a ∉ [dl] := by grind
  have hc := hw c mem_cons_self
  have hhead : ∀ a ∈ rest.head?, a ∈ [dl] := by
    grind
  have htake : (c :: cs ++ rest).takeWhile (fun c => c ∉ [dl]) = c :: cs := by
    rw [takeWhile_append_of_pos (by simpa using hw)]
    cases rest with
    | nil => simp
    | cons a as =>
      rw [takeWhile_cons_of_neg (by simpa using hhead a rfl),append_nil]
  have hdrop : (c :: cs ++ rest).dropWhile (fun c => c ∉ [dl]) = rest := by
    rw [dropWhile_append_of_pos (by simpa using hw)]
    cases rest with
    | nil => rfl
    | cons a as => rw [dropWhile_cons_of_neg (by simpa using hhead a rfl)]
  rw [cons_append] at htake hdrop ⊢
  rw [tokenLoop,dropWhile_cons_of_neg (by simpa using hc)]
  simp only
  rw [htake,hdrop]

theorem tokenLoop_delim (s : List Char) (fuel : ℕ) :
    tokenLoop [dl] fuel (dl :: s) = tokenLoop [dl] fuel s := by
  cases fuel with
  | zero => rfl
  | succ fuel => rw [tokenLoop,tokenLoop,dropWhile_cons_of_pos (by simp)]

theorem tokenLoop_convIntToString (hdl : ∀ v, dl ∉ decimal v) (l : List ℤ) {fuel : ℕ}
    (hf : l.length ≤ fuel) : tokenLoop [dl] fuel (convIntToString [dl] l) = l.map decimal := by
  induction l generalizing fuel with
  | nil => cases fuel <;> rfl
  | cons v l ih =>
    obtain ⟨fuel,rfl⟩ : ∃ k, fuel = k + 1 := ⟨fuel - 1,by simp at hf; omega⟩
    have hf' : l.length ≤ fuel := by simpa using hf
    cases l with
    | nil =>
      have h := tokenLoop_word (decimal_word v).1 (hdl v) (Or.inl rfl) fuel
      rw [append_nil] at h
      refine h.trans ?_
      cases fuel <;> rfl
    | cons w l =>
      have hcons : convIntToString [dl] (v :: w :: l) =
          decimal v ++ (dl :: convIntToString [dl] (w :: l)) := by
        simp [convIntToString]
      rw [hcons,tokenLoop_word (decimal_word v).1 (hdl v) (Or.inr ⟨_,rfl⟩),tokenLoop_delim,ih hf']
      rfl

theorem length_le_convIntToString (l : List ℤ) : l.length ≤ (convIntToString [dl] l).length := by
  induction l with
  | nil => exact Nat.zero_le _
  | cons v l ih =>
    have := length_pos_iff.mpr (decimal_word v).1
    cases l with
    | nil => exact this
    | cons w l =>
      simp only [convIntToString,length_append,length_cons] at ih ⊢
      omega

/-- What was joined with a delimiter is read token by token. -/
theorem convStringToInt_convIntToString (hdl : ∀ v, dl ∉ decimal v) (l tokens : List ℤ) (base : ℕ) :
    convStringToInt (convIntToString [dl] l) tokens [dl] base =
      (tokens ++ l.map fun v => strtol base (decimal v),l.length) := by
  rw [convStringToInt,tokenLoop_convIntToString hdl l (length_le_convIntToString l),map_map,length_map]
  rfl

end

/-- Dotted addresses come back behind what the caller had, with their number. -/
theorem dotted_addr_round_trip (d : NetDevice) (l : List (BitVec 32)) (tokens : List ℤ) :
    let vals := l.map BitVec.toInt
    (d.setInetAddrInt vals).getInetAddrInt tokens = (tokens ++ vals,l.length) ∧
      (d.setBcastAddrInt vals).getBcastAddrInt tokens = (tokens ++ vals,l.length) ∧
      (d.setMaskInt vals).getMaskInt tokens = (tokens ++ vals,l.length) := by
  have hread : ∀ v ∈ l.map BitVec.toInt, strtol 10 (decimal v) = v := by
    intro v hv
    obtain ⟨w,-,rfl⟩ := mem_map.mp hv
    exact strtol_ten ⟨w.le_toInt,w.toInt_lt⟩
  have hconv := convStringToInt_convIntToString (fun v => (decimal_word v).2.2)
    (l.map BitVec.toInt) tokens 10
  rw [map_congr_left hread,map_id',length_map] at hconv
  exact ⟨hconv,hconv,hconv⟩

theorem getHwAddrInt_setHwAddrInt (d : NetDevice) {l : List ℕ} (h : ∀ n ∈ l, n < 256) :
    ((d.setHwAddrInt (l.map (↑))).getHwAddrInt []).1 = l.map fun n => (misread n : ℤ) := by
  rw [NetDevice.getHwAddrInt,NetDevice.setHwAddrInt]
  rw [convStringToInt_convIntToString (fun v => (decimal_word v).2.1),nil_append,map_map]
  exact map_congr_left fun n hn => strtol_decimal (h n hn)

/-- Numbers are printed in base 10 and read in base 16, so just those of one digit come back. -/
theorem hw_addr_round_trip (d : NetDevice) (l : List (Fin 256)) :
    ((d.setHwAddrInt (l.map fun v : Fin 256 => (v.val : ℤ))).getHwAddrInt []).1 =
        l.map (fun v : Fin 256 => (v.val : ℤ)) ↔
      ∀ v ∈ l, v.val < 10 := by
  have hmap : (l.map fun v : Fin 256 => (v.val : ℤ)) = (l.map Fin.val).map (↑) := by
    rw [map_map]
    rfl
  rw [hmap,getHwAddrInt_setHwAddrInt d fun n hn => ?_]
  · simp [map_inj_left,Nat.cast_inj,misread_eq_self]
  · obtain ⟨v,-,rfl⟩ := mem_map.mp hn
    exact v.isLt

/-- `10` comes back as `16`. -/
theorem hw_addr_misread :
    ((NetDevice.new.setHwAddrInt [0,10,255]).getHwAddrInt []).1 = [0,16,597] := by
  decide

end Simpad.NetPanel
