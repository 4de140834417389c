import Simpad.Tools.NetDevice

namespace Simpad.NetPanel
open ControlPanel List Function

/-- `fgets` with room for `n` characters. -/
def fgets : ℕ → List Char → List Char × List Char
  | 0, s => ([],s)
  | _ + 1, [] => ([],[])
  | n + 1, c :: cs =>
    if c = '\n' then ([c],cs)
    else
      let r := fgets n cs
      (c :: r.1,r.2)

def cstr (line : List Char) : List Char := line.takeWhile fun c => c.toNat ≠ 0

/-- The loop around `fgets`, with a buffer of `MAXLINE` bytes. -/
def readLines : ℕ → List Char → List (List Char)
  | 0, _ => []
  | _ + 1, [] => []
  | fuel + 1, c :: cs =>
    let r := fgets 1023 (c :: cs)
    cstr r.1 :: readLines fuel r.2

def lines (output : List Char) : List (List Char) := readLines output.length output

structure Panel where
  netDev : ℕ → NetDevice
  wifiDev : ℕ → WifiDev

/-- The local `devKeyWord`. -/
def devKeyWord : List (List Char) :=
  ["eth0".toList,"eth1".toList,"eth2".toList,"wlan0".toList,"wlan1".toList,"wlan2".toList,
    "usbf".toList,"irda0".toList,"irda1".toList,"lo".toList]

/-- The names that are looked for; with another command than `ifconfig -a` the first six. -/
def keyWords (net : Bool) : List (List Char) := if net then devKeyWord else devKeyWord.take 6

def Panel.setDevName (p : Panel) (net : Bool) (i : ℕ) (devName : List Char) : Panel :=
  if net then { p with netDev := update p.netDev i ((p.netDev i).setDevName devName) }
  else { p with wifiDev := update p.wifiDev i ((p.wifiDev i).setDevName devName) }

def Panel.setDevInfo (p : Panel) (net : Bool) (i : ℕ) (devInfo : List Char) : Panel :=
  if net then { p with netDev := update p.netDev i ((p.netDev i).setDevInfo devInfo) }
  else { p with wifiDev := update p.wifiDev i ((p.wifiDev i).setDevInfo devInfo) }

/-- The variables of `scanDevice`. -/
structure Scan where
  panel : Panel
  countDevs : ℕ
  foundDev : Bool
  devInfo : List Char

/-- One round of the loop over the names; none if the slot is behind the array. -/
def matchName (net : Bool) (line : List Char) (s : Scan) (keyWord : List Char) : Option Scan :=
  if Occurs keyWord line then
    if 10 ≤ s.countDevs then none
    else some
      { s with
        panel := s.panel.setDevName net s.countDevs keyWord
        foundDev := true
        devInfo := line }
  else some s

def Scan.close (net : Bool) (s : Scan) : Option Scan :=
  if 10 ≤ s.countDevs then none
  else some
    { s with
      panel := s.panel.setDevInfo net s.countDevs s.devInfo
      countDevs := s.countDevs + 1
      foundDev := false }

def scanLine (net : Bool) (s : Scan) (line : List Char) : Option Scan :=
  if s.foundDev then
    if line.length ≤ 5 then s.close net else some { s with devInfo := s.devInfo ++ line }
  else (keyWords net).foldlM (matchName net line) s

def scanLines (net : Bool) (s : Scan) (ls : List (List Char)) : Option Scan :=
  ls.foldlM (scanLine net) s

/-- `scanDevice` on the output of a command; it returns `countDevs`. -/
def scanDevice (command : List Char) (p : Panel) (output : List Char) : Option Scan :=
  scanLines (command = "ifconfig -a".toList) ⟨p,0,false,[]⟩ (lines output)

/-- The name that stays: the last one of the list that occurs in the line. -/
def lastKey (net : Bool) (line : List Char) : Option (List Char) :=
  ((keyWords net).filter fun k => Occurs k line).getLast?

def Scan.opened (net : Bool) (s : Scan) (devName line : List Char) : Scan :=
  { s with
    panel := s.panel.setDevName net s.countDevs devName
    foundDev := true
    devInfo := line }

theorem Panel.setDevName_setDevName (p : Panel) (net : Bool) (i : ℕ) (a b : List Char) :
    (p.setDevName net i a).setDevName net i b = p.setDevName net i b := by
  cases net <;> simp [setDevName,NetDevice.setDevName,WifiDev.setDevName]

theorem foldlM_matchName (net : Bool) (line : List Char) (ks : List (List Char)) (s : Scan) :
    ks.foldlM (matchName net line) s =
      match (ks.filter fun k => Occurs k line).getLast? with
      | none => some s
      | some k => if 10 ≤ s.countDevs then none else some (s.opened net k line) := by
  induction ks using List.reverseRecOn with
  | nil => rfl
  | append_singleton ks k ih =>
    rw [foldlM_append,ih,filter_append]
    by_cases hk : Occurs k line
    · have hlast : (ks.filter (fun k => decide (Occurs k line)) ++
          [k].filter fun k => decide (Occurs k line)).getLast? = some k := by
        simp [hk]
      rw [hlast]
      cases (ks.filter fun k => Occurs k line).getLast? with
      | none => simp [matchName,hk,Scan.opened]
      | some k' =>
        by_cases hc : 10 ≤ s.countDevs
        · simp [hc]
        · simp [matchName,hk,hc,Scan.opened,Panel.setDevName_setDevName]
    · have hnone : [k].filter (fun k => decide (Occurs k line)) = [] := by simp [hk]
      rw [hnone,append_nil]
      cases (ks.filter fun k => Occurs k line).getLast? with
      | none => simp [matchName,hk]
      | some k' =>
        by_cases hc : 10 ≤ s.countDevs
        · simp [hc]
        · simp [matchName,hk,hc]

variable {net : Bool} {s : Scan} {line : List Char}

theorem scanLine_open (h : s.foundDev = true) (line : List Char) :
    scanLine net s line =
      if line.length ≤ 5 then s.close net else some { s with devInfo := s.devInfo ++ line } :=
  if_pos h

theorem scanLine_closed (h : s.foundDev = false) (line : List Char) :
    scanLine net s line = match lastKey net line with
      | none => some s
      | some k => if 10 ≤ s.countDevs then none else some (s.opened net k line) := by
  rw [scanLine,h]
  exact foldlM_matchName net line (keyWords net) s

theorem scanLine_cases {t : Scan} (h : scanLine net s line = some t) :
    (s.foundDev = true ∧ line.length ≤ 5 ∧ s.close net = some t) ∨
    (s.foundDev = true ∧ ¬line.length ≤ 5 ∧ t = { s with devInfo := s.devInfo ++ line }) ∨
    (s.foundDev = false ∧ lastKey net line = none ∧ t = s) ∨
    ∃ k, s.foundDev = false ∧ lastKey net line = some k ∧ s.countDevs < 10 ∧
      t = s.opened net k line := by
  rcases Bool.eq_false_or_eq_true s.foundDev with hf | hf
  · rw [scanLine_open hf] at h
    grind
  · rw [scanLine_closed hf] at h
    cases hk : lastKey net line with
    | none =>
      grind
    | some k =>
      rw [hk] at h
      dsimp only at h
      grind

theorem lastKey_eq_none : lastKey net line = none ↔ ∀ k ∈ keyWords net, ¬Occurs k line := by
  rw [lastKey,getLast?_eq_none_iff,filter_eq_nil_iff]
  simp

/-- Two scans of the same lines, of panels that were `p` and `p'`: a closed record holds the text
that was found over what the slot held before. -/
structure Twin (p p' : Panel) (s s' : Scan) : Prop where
  count : s'.countDevs = s.countDevs
  found : s'.foundDev = s.foundDev
  info : s'.devInfo = s.devInfo
  done : ∀ i < s.countDevs, ∃ name name' text,
    s.panel.netDev i = ((p.netDev i).setDevName name).setDevInfo text ∧
      s'.panel.netDev i = ((p'.netDev i).setDevName name').setDevInfo text
  rest : ∀ i, s.countDevs ≤ i → ∃ name name',
    s.panel.netDev i = (p.netDev i).setDevName name ∧
      s'.panel.netDev i = (p'.netDev i).setDevName name'

namespace Twin
variable {p p' : Panel} {s s' t : Scan}

theorem start (p p' : Panel) : Twin p p' ⟨p,0,false,[]⟩ ⟨p',0,false,[]⟩ :=
  ⟨rfl,rfl,rfl,fun _ hi => absurd hi (Nat.not_lt_zero _),
    fun i _ => ⟨(p.netDev i).devName,(p'.netDev i).devName,rfl,rfl⟩⟩

theorem opened (h : Twin p p' s s') (devName line : List Char) :
    Twin p p' (s.opened true devName line) (s'.opened true devName line) := by
  refine ⟨h.count,rfl,rfl,fun i hi => ?_,fun i hi => ?_⟩
  · have hne : i ≠ s.countDevs := Nat.ne_of_lt hi
    obtain ⟨name,name',text,h₁,h₂⟩ := h.done i hi
    refine ⟨name,name',text,?_,?_⟩
    · exact (update_of_ne hne _ _).trans h₁
    · exact (update_of_ne (h.count.symm ▸ hne) _ _).trans h₂
  · obtain ⟨name,name',h₁,h₂⟩ := h.rest i hi
    by_cases hi : i = s.countDevs
    · -- the slot gets its name
      refine ⟨devName,devName,?_,?_⟩
      · subst hi
        exact (update_self ..).trans (by rw [h₁]; rfl)
      · rw [hi,← h.count] at h₂
        rw [hi,← h.count]
        exact (update_self ..).trans (by rw [h₂]; rfl)
    · refine ⟨name,name',?_,?_⟩
      · exact (update_of_ne hi _ _).trans h₁
      · exact (update_of_ne (h.count.symm ▸ hi) _ _).trans h₂

theorem close (h : Twin p p' s s') (hs : s.close true = some t) :
    ∃ t', s'.close true = some t' ∧ Twin p p' t t' := by
  unfold Scan.close at hs ⊢
  rw [h.count]
  split at hs
  · cases hs
  · next hc =>
    rw [if_neg hc]
    cases hs
    refine ⟨_,rfl,rfl,rfl,h.info,fun i hi => ?_,fun i hi => ?_⟩
    · by_cases heq : i = s.countDevs
      · -- the record that is closed
        subst heq
        obtain ⟨name,name',h₁,h₂⟩ := h.rest _ le_rfl
        refine ⟨name,name',s.devInfo,?_,?_⟩
        · exact (update_self ..).trans (congrArg (NetDevice.setDevInfo · s.devInfo) h₁)
        · rw [h.info]
          exact (update_self ..).trans (congrArg (NetDevice.setDevInfo · s.devInfo) h₂)
      · have hlt : i < s.countDevs := lt_of_le_of_ne (Nat.lt_succ_iff.mp hi) heq
        obtain ⟨name,name',text,h₁,h₂⟩ := h.done i hlt
        refine ⟨name,name',text,?_,?_⟩
        · exact (update_of_ne heq _ _).trans h₁
        · exact (update_of_ne heq _ _).trans h₂
    · have hi : s.countDevs + 1 ≤ i := hi
      have hne : i ≠ s.countDevs := by omega
      obtain ⟨name,name',h₁,h₂⟩ := h.rest i (by omega)
      refine ⟨name,name',?_,?_⟩
      · exact (update_of_ne hne _ _).trans h₁
      · exact (update_of_ne hne _ _).trans h₂

theorem step (h : Twin p p' s s') (hs : scanLine true s line = some t) :
    ∃ t', scanLine true s' line = some t' ∧ Twin p p' t t' := by
  rcases scanLine_cases hs with ⟨hf,hlen,hs⟩ | ⟨hf,hlen,rfl⟩ | ⟨hf,hk,rfl⟩ | ⟨k,hf,hk,hc,rfl⟩
  · rw [scanLine_open (h.found.trans hf),if_pos hlen]
    exact h.close hs
  · rw [scanLine_open (h.found.trans hf),if_neg hlen]
    exact ⟨_,rfl,h.count,h.found,congrArg (· ++ line) h.info,h.done,h.rest⟩
  · rw [scanLine_closed (h.found.trans hf),hk]
    exact ⟨s',rfl,h⟩
  · rw [scanLine_closed (h.found.trans hf),hk,h.count]
    dsimp only
    rw [if_neg (not_le.mpr hc)]
    exact ⟨_,rfl,h.opened k line⟩

theorem run {ls : List (List Char)} (h : Twin p p' s s') (hs : scanLines true s ls = some t) :
    ∃ t', scanLines true s' ls = some t' ∧ Twin p p' t t' := by
  induction ls generalizing s s' with
  | nil =>
    cases hs
    exact ⟨s',rfl,h⟩
  | cons line ls ih =>
    obtain ⟨u,hu,hs⟩ := Option.bind_eq_some_iff.mp hs
    obtain ⟨u',hu',htw⟩ := h.step hu
    obtain ⟨t',ht',htw'⟩ := ih htw hs
    exact ⟨t',Option.bind_eq_some_iff.mpr ⟨u',hu',ht'⟩,htw'⟩

end Twin

theorem scanDevice_twin {p : Panel} (p' : Panel) {output : List Char}
    (h : scanDevice "ifconfig -a".toList p output = some s) :
    ∃ s', scanDevice "ifconfig -a".toList p' output = some s' ∧ Twin p p' s s' :=
  (Twin.start p p').run h

def NetDevice.filled (v : List Char) : NetDevice := ⟨[],[],v,v,v,v⟩

theorem NetDevice.field_filled (v : List Char) (k : KeyWord) : (NetDevice.filled v).field k = v := by
  cases k <;> rfl

theorem NetDevice.field_setDevName (d : NetDevice) (devName : List Char) (k : KeyWord) :
    (d.setDevName devName).field k = d.field k := by
  cases k <;> rfl

/-- The address fields come from the text alone just if all four keywords are in it, for a single
device and for every record that a scan closes. -/
theorem record_determined (text : List Char) (p : Panel) (output : List Char) :
    ((∀ (d d' : NetDevice) (k : KeyWord),
        (d.setDevInfo text).field k = (d'.setDevInfo text).field k) ↔ Complete text) ∧
    (∀ s : Scan, scanDevice "ifconfig -a".toList p output = some s → ∀ i < s.countDevs,
      ((∀ (p' : Panel) (s' : Scan), scanDevice "ifconfig -a".toList p' output = some s' →
          ∀ k : KeyWord, (s'.panel.netDev i).field k = (s.panel.netDev i).field k) ↔
        Complete (s.panel.netDev i).devInfo)) := by
  refine ⟨⟨fun h k => ?_,NetDevice.field_of_complete⟩,fun s hs i hi => ⟨fun h k => ?_,
    fun hc p' s' hs' k => ?_⟩⟩
  · refine (NetDevice.field_determined ?_).mp (h (NetDevice.filled []) (NetDevice.filled [' ']) k)
    simp [NetDevice.field_filled]
  · -- a panel that differs from this one in the field
    obtain ⟨s',hs',htw⟩ := scanDevice_twin
      { p with netDev := fun _ => NetDevice.filled (' ' :: (p.netDev i).field k) } hs
    have heq := h _ s' hs' k
    obtain ⟨name,name',text,h₁,h₂⟩ := htw.done i hi
    rw [h₁,h₂] at heq
    rw [h₁]
    refine (NetDevice.field_determined ?_).mp heq
    simp [NetDevice.field_setDevName,NetDevice.field_filled]
  · obtain ⟨u,hu,htw⟩ := scanDevice_twin p' hs
    cases hs'.symm.trans hu
    obtain ⟨name,name',text,h₁,h₂⟩ := htw.done i hi
    rw [h₁] at hc ⊢
    rw [h₂]
    exact NetDevice.field_of_complete hc _ _ k

def Panel.new : Panel := ⟨fun _ => NetDevice.new,fun _ => ⟨[],[],[],[],[],[]⟩⟩

theorem record_determined_eth0 : ∃ s : Scan,
    scanDevice "ifconfig -a".toList Panel.new
      "eth0 HWaddr 0:1 inet addr:1.2 Bcast:1.3 Mask:1.0 \n\n".toList = some s ∧
    ((∀ (p' : Panel) (s' : Scan), scanDevice "ifconfig -a".toList p'
        "eth0 HWaddr 0:1 inet addr:1.2 Bcast:1.3 Mask:1.0 \n\n".toList = some s' →
      ∀ k : KeyWord, (s'.panel.netDev 0).field k = (s.panel.netDev 0).field k) ↔
      Complete (s.panel.netDev 0).devInfo) :=
  ⟨_,rfl,(record_determined [] _ _).2 _ rfl 0 (by decide)⟩

/-- The slot of `eth0` is used for `lo`, whose text has no address: it shows that of `eth0`. -/
theorem record_stale :
    ((scanDevice "ifconfig -a".toList Panel.new "eth0 inet addr:10.0.0.1 \n\n".toList).bind fun s =>
        scanDevice "ifconfig -a".toList s.panel "lo   Link encap:Local\n\n".toList).map
      (fun s => ((s.panel.netDev 0).devName,(s.panel.netDev 0).inetAddr)) =
        some ("lo".toList,"10.0.0.1".toList) ∧
    (scanDevice "ifconfig -a".toList Panel.new "lo   Link encap:Local\n\n".toList).map
      (fun s => ((s.panel.netDev 0).devName,(s.panel.netDev 0).inetAddr)) =
        some ("lo".toList,"... ... ... ...".toList) := by
  decide +kernel

end Simpad.NetPanel
