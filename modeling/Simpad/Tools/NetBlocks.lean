import Mathlib.Data.List.TakeWhile
import Simpad.Tools.NetScan

namespace Simpad.NetPanel
open ControlPanel List Function

theorem fgets_append (n : ℕ) (a b : List Char) : ∃ r t,
    fgets n (a ++ ['\n']) = (r,t) ∧ fgets n (a ++ '\n' :: b) = (r,t ++ b) ∧
      (t = [] ∨ ∃ a', t = a' ++ ['\n'] ∧ a'.length + min n 1 ≤ a.length) := by
  induction a generalizing n with
  | nil =>
    cases n with
    | zero => exact ⟨[],['\n'],rfl,rfl,Or.inr ⟨[],rfl,le_rfl⟩⟩
    | succ n => exact ⟨['\n'],[],rfl,rfl,Or.inl rfl⟩
  | cons c cs ih =>
    cases n with
    | zero => exact ⟨[],c :: cs ++ ['\n'],rfl,by simp [fgets],Or.inr ⟨c :: cs,rfl,le_rfl⟩⟩
    | succ n =>
      by_cases hc : c = '\n'
      · simp [fgets,hc]
      · obtain ⟨r,t,h₁,h₂,ht⟩ := ih n
        refine ⟨c :: r,t,?_,?_,ht.imp_right ?_⟩
        · rw [cons_append,fgets,if_neg hc,h₁]
        · rw [cons_append,fgets,if_neg hc,h₂]
        · grind

theorem fgets_shorter (n : ℕ) (c : Char) (cs : List Char) :
    (fgets (n + 1) (c :: cs)).2.length ≤ cs.length := by
  induction cs generalizing n c with
  | nil =>
    rw [fgets]
    split
    · exact le_rfl
    · cases n <;> exact le_rfl
  | cons d cs ih =>
    rw [fgets]
    split
    · exact le_rfl
    · cases n with
      | zero => exact le_rfl
      | succ n => exact (ih n d).trans (Nat.le_succ _)

theorem readLines_eq {n : ℕ} {s : List Char} (h : s.length ≤ n) : readLines n s = lines s := by
  suffices ∀ m, s.length ≤ m → readLines n s = readLines m s from this _ le_rfl
  induction n generalizing s with
  | zero =>
    intro m _
    obtain rfl := eq_nil_of_length_eq_zero (Nat.le_zero.mp h)
    cases m <;> rfl
  | succ n ih =>
    intro m hm
    cases s with
    | nil => cases m <;> rfl
    | cons c cs =>
      obtain ⟨m,rfl⟩ := Nat.exists_eq_succ_of_ne_zero (Nat.ne_of_gt (lt_of_lt_of_le (Nat.succ_pos _) hm))
      have hlen := fgets_shorter 1022 c cs
      simp [readLines,ih (hlen.trans (Nat.le_of_succ_le_succ h)) m
        (hlen.trans (Nat.le_of_succ_le_succ hm))]

theorem lines_of_ne_nil {s : List Char} (h : s ≠ []) :
    lines s = cstr (fgets 1023 s).1 :: lines (fgets 1023 s).2 := by
  cases s with
  | nil => exact absurd rfl h
  | cons c cs =>
    rw [lines,length_cons,readLines,readLines_eq (fgets_shorter 1022 c cs)]

theorem lines_append (a b : List Char) :
    lines (a ++ '\n' :: b) = lines (a ++ ['\n']) ++ lines b := by
  induction hn : a.length using Nat.strong_induction_on generalizing a with
  | _ n ih =>
    obtain ⟨r,t,h₁,h₂,ht⟩ := fgets_append 1023 a b
    rw [lines_of_ne_nil (append_ne_nil_of_right_ne_nil _ (cons_ne_nil _ _)),
      lines_of_ne_nil (append_ne_nil_of_right_ne_nil _ (cons_ne_nil _ _)),h₁,h₂,
      cons_append]
    refine congrArg _ ?_
    obtain rfl | ⟨a',rfl,hlt⟩ := ht
    · rfl
    · grind

theorem lines_blank (n : ℕ) (b : List Char) :
    lines (replicate n '\n' ++ b) = replicate n ['\n'] ++ lines b := by
  induction n with
  | zero => rfl
  | succ n ih =>
    have h := lines_append [] (replicate n '\n' ++ b)
    rw [ih] at h
    exact h

theorem fgets_start {n : ℕ} {a : List Char} (ha : '\n' ∉ a) (hn : a.length ≤ n) (b : List Char) :
    ∃ r, (fgets n (a ++ b)).1 = a ++ r := by
  induction a generalizing n with
  | nil => exact ⟨_,rfl⟩
  | cons c cs ih =>
    cases n with
    | zero => exact absurd hn (Nat.not_succ_le_zero _)
    | succ n =>
      rw [mem_cons,not_or] at ha
      obtain ⟨r,hr⟩ := ih ha.2 (Nat.le_of_succ_le_succ hn)
      refine ⟨r,?_⟩
      rw [cons_append,fgets,if_neg (Ne.symm ha.1)]
      exact congrArg (c :: ·) hr

theorem keyWords_plain {net : Bool} {k : List Char} (hk : k ∈ keyWords net) :
    k.length ≤ 5 ∧ '\n' ∉ k ∧ (k.all fun c => c.toNat ≠ 0) = true := by
  revert k
  cases net <;> decide

theorem lines_name {net : Bool} {name : List Char} (hk : name ∈ keyWords net) (b : List Char) :
    ∃ line rest key, lines (name ++ b) = line :: rest ∧ lastKey net line = some key := by
  obtain ⟨hlen,hn,hz⟩ := keyWords_plain hk
  obtain ⟨r,hr⟩ := fgets_start hn (hlen.trans (by decide : 5 ≤ 1023)) b
  have hne : name ++ b ≠ [] := by
    apply append_ne_nil_of_left_ne_nil
    rintro rfl
    revert hk
    cases net <;> decide
  have hocc : Occurs name (cstr (fgets 1023 (name ++ b)).1) := by
    rw [hr,cstr,takeWhile_append_of_pos (all_eq_true.mp hz),occurs_iff]
    exact (prefix_append _ _).isInfix
  cases hkey : lastKey net (cstr (fgets 1023 (name ++ b)).1) with
  | none => exact absurd hocc (lastKey_eq_none.mp hkey name hk)
  | some key => exact ⟨_,_,key,lines_of_ne_nil hne,hkey⟩

def Panel.devName (p : Panel) (net : Bool) (i : ℕ) : List Char :=
  if net then (p.netDev i).devName else (p.wifiDev i).devName

theorem Panel.devName_setDevName (p : Panel) (net : Bool) (i : ℕ) (name : List Char) :
    (p.setDevName net i name).devName net = update (p.devName net) i name := by
  funext j
  by_cases h : j = i
  · subst h
    cases net <;> simp [devName,setDevName,NetDevice.setDevName,WifiDev.setDevName]
  · cases net <;> simp [devName,setDevName,h]

theorem Panel.devName_setDevInfo (p : Panel) (net : Bool) (i : ℕ) (text : List Char) :
    (p.setDevInfo net i text).devName net = p.devName net := by
  funext j
  by_cases h : j = i
  · subst h
    cases net <;> simp [devName,setDevInfo,NetDevice.setDevInfo,WifiDev.setDevInfo]
  · cases net <;> simp [devName,setDevInfo,h]

/-- The slots that are in use keep their names. -/
def Kept (net : Bool) (s t : Scan) : Prop :=
  s.countDevs ≤ t.countDevs ∧
    ∀ i < s.countDevs, t.panel.devName net i = s.panel.devName net i

theorem Kept.trans {net : Bool} {s t u : Scan} (h : Kept net s t) (h' : Kept net t u) :
    Kept net s u :=
  ⟨h.1.trans h'.1,fun i hi => (h'.2 i (hi.trans_le h.1)).trans (h.2 i hi)⟩

theorem close_cases {net : Bool} {s t : Scan} (h : s.close net = some t) :
    s.countDevs < 10 ∧ t.countDevs = s.countDevs + 1 ∧ t.foundDev = false ∧
      t.panel.devName net = s.panel.devName net := by
  rw [Scan.close] at h
  split at h
  · cases h
  · next hc =>
    cases h
    exact ⟨not_le.mp hc,rfl,rfl,Panel.devName_setDevInfo ..⟩

theorem exists_close {net : Bool} {s : Scan} (h : s.countDevs < 10) : ∃ t, s.close net = some t :=
  ⟨_,if_neg (not_le.mpr h)⟩

theorem scanLine_kept {net : Bool} {s t : Scan} {line : List Char}
    (h : scanLine net s line = some t) : Kept net s t := by
  rcases scanLine_cases h with ⟨-,-,h⟩ | ⟨-,-,rfl⟩ | ⟨-,-,rfl⟩ | ⟨k,-,-,-,rfl⟩
  · obtain ⟨-,hcount,-,hname⟩ := close_cases h
    exact ⟨hcount ▸ Nat.le_succ _,fun i _ => congrFun hname i⟩
  · exact ⟨le_rfl,fun _ _ => rfl⟩
  · exact ⟨le_rfl,fun _ _ => rfl⟩
  · refine ⟨le_rfl,fun i hi => ?_⟩
    rw [Scan.opened,Panel.devName_setDevName]
    exact update_of_ne (Nat.ne_of_lt hi) _ _

theorem scanLines_kept {net : Bool} {s t : Scan} {ls : List (List Char)}
    (h : scanLines net s ls = some t) : Kept net s t := by
  induction ls generalizing s with
  | nil =>
    cases h
    exact ⟨le_rfl,fun _ _ => rfl⟩
  | cons line ls ih =>
    obtain ⟨u,hu,h⟩ := Option.bind_eq_some_iff.mp h
    exact (scanLine_kept hu).trans (ih h)

theorem scanLines_append (net : Bool) (s : Scan) (a b : List (List Char)) :
    scanLines net s (a ++ b) = (scanLines net s a).bind (scanLines net · b) :=
  foldlM_append

/-- The lines that do not close a record. -/
def long (line : List Char) : Bool := 5 < line.length

/-- From an open record on: the lines up to the first short one belong to the record. -/
theorem scanLines_open {net : Bool} {s : Scan} (hs : s.foundDev = true) (ls : List (List Char)) :
    scanLines net s ls = match ls.dropWhile long with
      | [] => some { s with devInfo := s.devInfo ++ ls.flatten }
      | _ :: rest =>
        (Scan.close net { s with devInfo := s.devInfo ++ (ls.takeWhile long).flatten }).bind
          (scanLines net · rest) := by
  induction ls generalizing s with
  | nil => simp [scanLines]
  | cons line ls ih =>
    rw [scanLines,foldlM_cons,scanLine_open hs]
    by_cases hl : line.length ≤ 5
    · have hlong : ¬(long line = true) := by simp [long,hl]
      rw [if_pos hl,dropWhile_cons_of_neg hlong,takeWhile_cons_of_neg hlong]
      simp only [flatten_nil,append_nil]
      rfl
    · have hlong : long line = true := by simpa [long] using hl
      rw [if_neg hl,dropWhile_cons_of_pos hlong,takeWhile_cons_of_pos hlong]
      refine (ih (s := { s with devInfo := s.devInfo ++ line }) hs).trans ?_
      simp

/-- No line opens a record. -/
def Quiet (net : Bool) (ls : List (List Char)) : Prop := ∀ l ∈ ls, lastKey net l = none

instance (net : Bool) (ls : List (List Char)) : Decidable (Quiet net ls) :=
  inferInstanceAs (Decidable (∀ l ∈ ls, lastKey net l = none))

theorem quiet_blank (net : Bool) (n : ℕ) : Quiet net (replicate n ['\n']) := by
  intro l hl
  obtain rfl := eq_of_mem_replicate hl
  cases net <;> decide

theorem scanLines_quiet {net : Bool} {s : Scan} (hs : s.foundDev = false) {ls : List (List Char)}
    (hq : Quiet net ls) : scanLines net s ls = some s := by
  induction ls with
  | nil => rfl
  | cons line ls ih =>
    rw [Quiet,forall_mem_cons] at hq
    rw [scanLines,foldlM_cons,scanLine_closed hs,hq.1]
    exact ih hq.2

theorem scanLine_blank {net : Bool} {s t : Scan} (h : scanLine net s ['\n'] = some t) :
    t.foundDev = false := by
  have hquiet : lastKey net ['\n'] = none := quiet_blank net 1 _ (by simp)
  rcases scanLine_cases h with ⟨-,-,h⟩ | ⟨-,hlen,-⟩ | ⟨hf,-,rfl⟩ | ⟨k,-,hk,-⟩
  · exact (close_cases h).2.2.1
  · exact absurd (by decide) hlen
  · exact hf
  · rw [hquiet] at hk
    cases hk

theorem scanLines_blank {net : Bool} {s t : Scan} {ls : List (List Char)} {n : ℕ}
    (h : scanLines net s (ls ++ replicate (n + 1) ['\n']) = some t) : t.foundDev = false := by
  rw [replicate_succ',← append_assoc,scanLines_append] at h
  obtain ⟨u,-,hu⟩ := Option.bind_eq_some_iff.mp h
  obtain ⟨v,hv,h⟩ := Option.bind_eq_some_iff.mp hu
  cases h
  exact scanLine_blank hv

theorem scanLines_grows {net : Bool} {s t : Scan} {ls : List (List Char)} (hs : s.foundDev = true)
    (hshort : ls.dropWhile long ≠ []) (h : scanLines net s ls = some t) :
    s.countDevs < t.countDevs := by
  rw [scanLines_open hs] at h
  cases hd : ls.dropWhile long with
  | nil => exact absurd hd hshort
  | cons l rest =>
    rw [hd] at h
    obtain ⟨u,hu,h⟩ := Option.bind_eq_some_iff.mp h
    have hcount : u.countDevs = s.countDevs + 1 := (close_cases hu).2.1
    have hle := (scanLines_kept h).1
    omega

theorem dropWhile_blank_ne_nil (ls : List (List Char)) (n : ℕ) :
    (ls ++ replicate (n + 1) ['\n']).dropWhile long ≠ [] := by
  rw [Ne,dropWhile_eq_nil_iff]
  intro h
  exact absurd (h ['\n'] (by simp)) (by decide)

/-- Lines outside of a record that are followed by a blank one: the count stays just if no line
opens a record. -/
theorem scanLines_closed {net : Bool} {s t : Scan} {ls : List (List Char)} {n : ℕ}
    (hs : s.foundDev = false) (h : scanLines net s (ls ++ replicate (n + 1) ['\n']) = some t)
    (hcount : t.countDevs = s.countDevs) : Quiet net ls := by
  induction ls with
  | nil => exact fun _ hl => absurd hl not_mem_nil
  | cons line ls ih =>
    obtain ⟨u,hu,hrest⟩ := Option.bind_eq_some_iff.mp h
    rcases scanLine_cases hu with ⟨hf,-⟩ | ⟨hf,-⟩ | ⟨-,hk,rfl⟩ | ⟨k,-,-,-,rfl⟩
    · rw [hs] at hf
      cases hf
    · rw [hs] at hf
      cases hf
    · exact forall_mem_cons.mpr ⟨hk,ih hrest⟩
    · have hlt := scanLines_grows (s := s.opened net k line) rfl (dropWhile_blank_ne_nil ls n) hrest
      exact absurd hcount (Nat.ne_of_gt hlt)

section
variable {net : Bool} {s t : Scan} {line key : List Char} {rest : List (List Char)}

theorem scanLines_first (hs : s.foundDev = false) (hkey : lastKey net line = some key) :
    scanLines net s (line :: rest) =
      if 10 ≤ s.countDevs then none else scanLines net (s.opened net key line) rest := by
  rw [scanLines,foldlM_cons,scanLine_closed hs,hkey]
  dsimp only
  split <;> rfl

theorem scanLines_record (hs : s.foundDev = false) (hkey : lastKey net line = some key)
    (hc : s.countDevs < 10) {l : List Char} {more : List (List Char)}
    (hd : rest.dropWhile long = l :: more) :
    ∃ u, scanLines net s (line :: rest) = scanLines net u more ∧ u.foundDev = false ∧
      u.countDevs = s.countDevs + 1 ∧
      u.panel.devName net = update (s.panel.devName net) s.countDevs key := by
  obtain ⟨u,hu⟩ := @exists_close net
    { s.opened net key line with devInfo := line ++ (rest.takeWhile long).flatten } hc
  obtain ⟨-,hcount,hf,hname⟩ := close_cases hu
  refine ⟨u,?_,hf,hcount,hname.trans (Panel.devName_setDevName ..)⟩
  rw [scanLines_first hs hkey,if_neg (not_le.mpr hc),scanLines_open rfl,hd]
  exact congrArg (Option.bind · (scanLines net · more)) hu

theorem dropWhile_blank (rest : List (List Char)) (n : ℕ) : ∃ l m,
    (rest ++ replicate (n + 1) ['\n']).dropWhile long =
      l :: ((rest.dropWhile long).tail ++ replicate m ['\n']) ∧
    ((rest.dropWhile long).tail = [] ∨ m = n + 1) := by
  cases hd : rest.dropWhile long with
  | nil =>
    refine ⟨['\n'],n,?_,Or.inl rfl⟩
    rw [dropWhile_append,hd]
    rfl
  | cons l more =>
    refine ⟨l,n + 1,?_,Or.inr rfl⟩
    rw [dropWhile_append,hd]
    rfl

theorem scanLines_block {n : ℕ} (hs : s.foundDev = false) (hkey : lastKey net line = some key)
    (h : scanLines net s (line :: (rest ++ replicate (n + 1) ['\n'])) = some t) :
    t.foundDev = false ∧ s.countDevs < t.countDevs ∧ Kept net s t ∧
      t.panel.devName net s.countDevs = key ∧
      (t.countDevs = s.countDevs + 1 → Quiet net (rest.dropWhile long).tail) := by
  have hc : s.countDevs < 10 := by
    by_contra hc
    rw [scanLines_first hs hkey,if_pos (not_lt.mp hc)] at h
    cases h
  obtain ⟨l,m,hd,hm⟩ := dropWhile_blank rest n
  obtain ⟨u,hu,hf,hcount,hname⟩ := scanLines_record hs hkey hc hd
  have hclosed := @scanLines_blank net s t (line :: rest) n h
  have hkept := scanLines_kept h
  rw [hu] at h
  obtain ⟨hle,hnames⟩ := scanLines_kept h
  refine ⟨hclosed,by omega,hkept,?_,fun ht => ?_⟩
  · rw [hnames _ (by omega),hname,update_self]
  · obtain hnil | rfl := hm
    · rw [hnil]
      exact fun _ hl => absurd hl not_mem_nil
    · exact scanLines_closed hf h (ht.trans hcount.symm)

theorem exists_scanLines_block (n : ℕ) (hs : s.foundDev = false)
    (hkey : lastKey net line = some key) (hc : s.countDevs < 10)
    (hq : Quiet net (rest.dropWhile long).tail) :
    ∃ t, scanLines net s (line :: (rest ++ replicate (n + 1) ['\n'])) = some t ∧
      t.countDevs = s.countDevs + 1 := by
  obtain ⟨l,m,hd,-⟩ := dropWhile_blank rest n
  obtain ⟨u,hu,hf,hcount,-⟩ := scanLines_record hs hkey hc hd
  refine ⟨u,?_,hcount⟩
  rw [hu,scanLines_append,scanLines_quiet hf hq]
  exact scanLines_quiet hf (quiet_blank net m)

theorem scanLines_rest (hs : s.foundDev = false) (ls : List (List Char)) :
    (∃ t, scanLines net s ls = some t ∧ t.countDevs = s.countDevs) ↔
      match ls.dropWhile fun l => (lastKey net l).isNone with
      | [] => True
      | _ :: more => s.countDevs < 10 ∧ ∀ l ∈ more, long l := by
  induction ls with
  | nil => exact ⟨fun _ => trivial,fun _ => ⟨s,rfl,rfl⟩⟩
  | cons l ls ih =>
    cases hk : lastKey net l with
    | none =>
      rw [dropWhile_cons_of_pos (by rw [hk]; rfl),← ih,scanLines,foldlM_cons,
        scanLine_closed hs,hk]
      rfl
    | some k =>
      rw [dropWhile_cons_of_neg (by rw [hk]; exact Bool.false_ne_true),scanLines_first hs hk]
      dsimp only
      constructor
      · rintro ⟨t,ht,hcount⟩
        split at ht
        · cases ht
        · next hc =>
          refine ⟨not_le.mp hc,?_⟩
          rw [← dropWhile_eq_nil_iff]
          by_contra hne
          exact absurd hcount (Nat.ne_of_gt (scanLines_grows (s := s.opened net k l) rfl hne ht))
      · rintro ⟨hc,hlong⟩
        rw [if_neg (not_le.mpr hc),scanLines_open rfl,dropWhile_eq_nil_iff.mpr hlong]
        exact ⟨_,rfl,rfl⟩

end

/-- A block of an output: it starts with a known name and has no blank line. -/
structure Block (net : Bool) where
  name : List Char
  rest : List Char
  known : name ∈ keyWords net
  solid : ¬['\n','\n'] <:+: name ++ rest

namespace Block
variable {net : Bool}

def text (b : Block net) : List Char := b.name ++ b.rest

/-- Nothing in the first line hides the name, and no name follows the line that closes the
record. -/
def Clear (b : Block net) : Prop :=
  match lines (b.text ++ ['\n']) with
  | [] => False
  | line :: rest => lastKey net line = some b.name ∧ Quiet net (rest.dropWhile long).tail

/-- The same for a block with no blank line behind it, the last of `n`: a line of its own has to
close the record, and a name behind that line may not be followed by another short line. -/
def LastClear (b : Block net) (n : ℕ) : Prop :=
  match lines b.text with
  | [] => False
  | line :: rest => lastKey net line = some b.name ∧
    match rest.dropWhile long with
    | [] => False
    | _ :: more =>
      match more.dropWhile fun l => (lastKey net l).isNone with
      | [] => True
      | _ :: more => n < 10 ∧ ∀ l ∈ more, long l

end Block

/-- An output: blocks with blank lines behind them, and perhaps a last one without. -/
structure Output (net : Bool) where
  /-- each with the number of further blank lines -/
  blocks : List (Block net × ℕ)
  last : Option (Block net)

namespace Output
variable {net : Bool}

def text (o : Output net) : List Char :=
  (o.blocks.flatMap fun b => b.1.text ++ '\n' :: replicate (b.2 + 1) '\n') ++
    o.last.elim [] Block.text

def names (o : Output net) : List (List Char) :=
  o.blocks.map (·.1.name) ++ o.last.toList.map (·.name)

/-- What `scanDevice` sees of the blocks in front of the last. -/
def seen (bs : List (Block net × ℕ)) : List (List Char) :=
  bs.flatMap fun b => lines (b.1.text ++ ['\n']) ++ replicate (b.2 + 1) ['\n']

theorem lines_text (o : Output net) :
    lines o.text = seen o.blocks ++ lines (o.last.elim [] Block.text) := by
  obtain ⟨bs,last⟩ := o
  rw [text]
  dsimp only
  induction bs with
  | nil => rfl
  | cons b bs ih =>
    rw [seen,flatMap_cons,flatMap_cons,append_assoc,append_assoc,
      cons_append,lines_append,lines_blank,ih,seen,append_assoc,append_assoc]

end Output

section
variable {net : Bool} {s t : Scan} {b : Block net}

theorem scanBlock (hs : s.foundDev = false) {n : ℕ}
    (h : scanLines net s (lines (b.text ++ ['\n']) ++ replicate (n + 1) ['\n']) = some t) :
    t.foundDev = false ∧ s.countDevs < t.countDevs ∧ Kept net s t ∧
      (t.countDevs = s.countDevs + 1 → t.panel.devName net s.countDevs = b.name → b.Clear) ∧
      (b.Clear → t.panel.devName net s.countDevs = b.name) := by
  obtain ⟨line,rest,key,hl,hkey⟩ := lines_name b.known (b.rest ++ ['\n'])
  rw [← append_assoc] at hl
  have htext : lines (b.text ++ ['\n']) = line :: rest := hl
  rw [htext,cons_append] at h
  obtain ⟨hclosed,hlt,hkept,hname,hquiet⟩ := scanLines_block hs hkey h
  rw [Block.Clear,htext,hname]
  refine ⟨hclosed,hlt,hkept,fun ht hk => ⟨hkey.trans (congrArg some hk),hquiet ht⟩,fun hclear => ?_⟩
  exact Option.some.inj (hkey.symm.trans hclear.1)

theorem exists_scanBlock (hs : s.foundDev = false) (hc : s.countDevs < 10) (hb : b.Clear) (n : ℕ) :
    ∃ t, scanLines net s (lines (b.text ++ ['\n']) ++ replicate (n + 1) ['\n']) = some t ∧
      t.countDevs = s.countDevs + 1 := by
  rw [Block.Clear] at hb
  cases hl : lines (b.text ++ ['\n']) with
  | nil =>
    rw [hl] at hb
    exact hb.elim
  | cons line rest =>
    rw [hl] at hb
    exact exists_scanLines_block n hs hb.1 hc hb.2

/-- The slots behind those of `s` have the given names. -/
def Named (net : Bool) (s t : Scan) (names : List (List Char)) : Prop :=
  ∀ i name, names[i]? = some name → t.panel.devName net (s.countDevs + i) = name

theorem named_cons {u : Scan} (hu : u.countDevs = s.countDevs + 1) {name : List Char}
    {names : List (List Char)} :
    Named net s t (name :: names) ↔
      t.panel.devName net s.countDevs = name ∧ Named net u t names := by
  constructor
  · intro h
    refine ⟨h 0 name rfl,fun i name' hi => ?_⟩
    rw [hu,add_assoc,add_comm 1 i]
    exact h (i + 1) name' hi
  · rintro ⟨h₀,h⟩ i name' hi
    cases i with
    | zero => exact h₀.trans (Option.some.inj hi)
    | succ i =>
      have hi := h i name' hi
      rwa [hu,add_assoc,add_comm 1 i] at hi

theorem scanLines_seen (b : Block net × ℕ) (bs : List (Block net × ℕ)) :
    scanLines net s (Output.seen (b :: bs)) =
      (scanLines net s (lines (b.1.text ++ ['\n']) ++ replicate (b.2 + 1) ['\n'])).bind
        (scanLines net · (Output.seen bs)) := by
  rw [Output.seen,flatMap_cons,scanLines_append]
  rfl

theorem scanBlocks {bs : List (Block net × ℕ)} (hs : s.foundDev = false)
    (h : scanLines net s (Output.seen bs) = some t) :
    t.foundDev = false ∧ s.countDevs + bs.length ≤ t.countDevs ∧
      (t.countDevs = s.countDevs + bs.length →
        (Named net s t (bs.map (·.1.name)) ↔ ∀ b ∈ bs, b.1.Clear)) := by
  induction bs generalizing s with
  | nil =>
    cases h
    exact ⟨hs,le_rfl,fun _ => ⟨fun _ _ hb => absurd hb not_mem_nil,
      fun _ i name hi => absurd hi (by simp)⟩⟩
  | cons b bs ih =>
    rw [scanLines_seen] at h
    obtain ⟨u,hu,h⟩ := Option.bind_eq_some_iff.mp h
    obtain ⟨hclosed,hlt,-,hclear,hname⟩ := scanBlock hs hu
    obtain ⟨ht,hle,hiff⟩ := ih hclosed h
    refine ⟨ht,?_,fun hcount => ?_⟩
    · rw [length_cons]
      omega
    · -- each of the other blocks has its slot, so this one has no more than one
      rw [length_cons] at hcount
      have hone : u.countDevs = s.countDevs + 1 := by omega
      have hslot := (scanLines_kept h).2 s.countDevs hlt
      rw [map_cons,named_cons hone,forall_mem_cons,hiff (by omega),hslot]
      exact and_congr_left' ⟨hclear hone,hname⟩

theorem exists_scanBlocks {bs : List (Block net × ℕ)} (hs : s.foundDev = false)
    (hc : s.countDevs + bs.length ≤ 10) (hb : ∀ b ∈ bs, b.1.Clear) :
    ∃ t, scanLines net s (Output.seen bs) = some t ∧ t.countDevs = s.countDevs + bs.length := by
  induction bs generalizing s with
  | nil => exact ⟨s,rfl,rfl⟩
  | cons b bs ih =>
    rw [length_cons] at hc ⊢
    rw [forall_mem_cons] at hb
    obtain ⟨u,hu,hcount⟩ := exists_scanBlock hs (by omega) hb.1 b.2
    obtain ⟨t,ht,hlen⟩ := ih (scanBlock hs hu).1 (by omega) hb.2
    refine ⟨t,?_,by omega⟩
    rw [scanLines_seen,hu]
    exact ht

theorem scanLast (hs : s.foundDev = false) :
    (∃ t, scanLines net s (lines b.text) = some t ∧ t.countDevs = s.countDevs + 1 ∧
      t.panel.devName net s.countDevs = b.name) ↔
      s.countDevs < 10 ∧ b.LastClear (s.countDevs + 1) := by
  obtain ⟨line,rest,key,hl,hkey⟩ := lines_name b.known b.rest
  have htext : lines b.text = line :: rest := hl
  rw [Block.LastClear,htext]
  by_cases hc : 10 ≤ s.countDevs
  · rw [scanLines_first hs hkey,if_pos hc]
    exact ⟨fun ⟨_,h,_⟩ => (Option.some_ne_none _ h.symm).elim,fun h => absurd h.1 (not_lt.mpr hc)⟩
  · have hc := not_le.mp hc
    dsimp only
    cases hd : rest.dropWhile long with
    | nil =>
      -- the record stays open
      rw [scanLines_first hs hkey,if_neg (not_le.mpr hc),scanLines_open rfl,hd]
      refine ⟨?_,fun h => h.2.2.elim⟩
      rintro ⟨t,ht,hcount,-⟩
      cases ht
      exact absurd hcount (Nat.ne_of_lt (Nat.lt_succ_self _))
    | cons l more =>
      obtain ⟨u,hu,hf,hcount,hname⟩ := scanLines_record hs hkey hc hd
      have hrest := @scanLines_rest net u hf more
      rw [hcount] at hrest
      rw [hu,← hrest,hkey]
      constructor
      · rintro ⟨t,ht,htc,hk⟩
        rw [(scanLines_kept ht).2 _ (by omega),hname,update_self] at hk
        exact ⟨hc,congrArg some hk,t,ht,htc⟩
      · rintro ⟨-,hk,t,ht,htc⟩
        refine ⟨t,ht,htc,?_⟩
        rw [(scanLines_kept ht).2 _ (by omega),hname,update_self]
        exact Option.some.inj hk

end

/-- The scan returns the number of the blocks, with their names in the slots, and no slot behind
the array is written. -/
def Scanned (command : List Char) (p : Panel) (o : Output (command = "ifconfig -a".toList)) :
    Prop :=
  ∃ s, scanDevice command p o.text = some s ∧ s.countDevs = o.names.length ∧
    ∀ i name, o.names[i]? = some name →
      s.panel.devName (command = "ifconfig -a".toList) i = name

theorem scanLines_le_ten {net : Bool} {s t : Scan} {ls : List (List Char)}
    (hs : s.countDevs ≤ 10) (h : scanLines net s ls = some t) : t.countDevs ≤ 10 := by
  induction ls generalizing s with
  | nil =>
    cases h
    exact hs
  | cons line ls ih =>
    obtain ⟨u,hu,h⟩ := Option.bind_eq_some_iff.mp h
    refine ih ?_ h
    rcases scanLine_cases hu with ⟨-,-,hu⟩ | ⟨-,-,rfl⟩ | ⟨-,-,rfl⟩ | ⟨k,-,-,-,rfl⟩
    · obtain ⟨hlt,hcount,-⟩ := close_cases hu
      omega
    · exact hs
    · exact hs
    · exact hs

theorem scanned_blocks (command : List Char) (p : Panel)
    (bs : List (Block (command = "ifconfig -a".toList) × ℕ)) :
    Scanned command p ⟨bs,none⟩ ↔ bs.length ≤ 10 ∧ ∀ b ∈ bs, b.1.Clear := by
  have hnames : Output.names ⟨bs,none⟩ = bs.map (·.1.name) := append_nil _
  have hlines := Output.lines_text ⟨bs,none⟩
  rw [Option.elim_none,show lines [] = [] from rfl,append_nil] at hlines
  have hnamed : ∀ t, (∀ i name, (bs.map (·.1.name))[i]? = some name →
      t.panel.devName (command = "ifconfig -a".toList) i = name) ↔
      Named (command = "ifconfig -a".toList) ⟨p,0,false,[]⟩ t (bs.map (·.1.name)) := by
    intro t
    rw [Named]
    simp only [zero_add]
  rw [Scanned,hnames,scanDevice,hlines,length_map]
  constructor
  · rintro ⟨t,ht,hcount,hn⟩
    obtain ⟨-,-,hiff⟩ := scanBlocks rfl ht
    refine ⟨hcount ▸ scanLines_le_ten (Nat.zero_le _) ht,?_⟩
    exact (hiff (hcount.trans (zero_add _).symm)).mp ((hnamed t).mp hn)
  · rintro ⟨hlen,hclear⟩
    obtain ⟨t,ht,hcount⟩ := @exists_scanBlocks _ ⟨p,0,false,[]⟩ bs rfl
      ((zero_add _).trans_le hlen) hclear
    refine ⟨t,ht,hcount.trans (zero_add _),(hnamed t).mpr ?_⟩
    exact ((scanBlocks rfl ht).2.2 hcount).mpr hclear

theorem scanned_last {command : List Char} {p : Panel}
    {bs : List (Block (command = "ifconfig -a".toList) × ℕ)} (h : Scanned command p ⟨bs,none⟩)
    (b : Block (command = "ifconfig -a".toList)) :
    Scanned command p ⟨bs,some b⟩ ↔ bs.length < 10 ∧ b.LastClear (bs.length + 1) := by
  obtain ⟨u,hu,hcount,hnames⟩ := h
  have hnone : Output.names ⟨bs,none⟩ = bs.map (·.1.name) := append_nil _
  rw [hnone] at hcount hnames
  rw [length_map] at hcount
  have hlines := Output.lines_text ⟨bs,none⟩
  rw [Option.elim_none,show lines [] = [] from rfl,append_nil] at hlines
  rw [scanDevice,hlines] at hu
  obtain ⟨hclosed,-⟩ := scanBlocks rfl hu
  rw [Scanned,scanDevice,Output.lines_text,scanLines_append,hu,← hcount,← scanLast hclosed]
  have hlen : (Output.names ⟨bs,some b⟩).length = u.countDevs + 1 := by
    rw [Output.names,length_append,length_map,hcount]
    rfl
  rw [hlen]
  refine exists_congr fun t => and_congr_right fun ht => and_congr_right fun htc => ?_
  obtain ⟨-,hkept⟩ := scanLines_kept ht
  constructor
  · intro hn
    refine hn u.countDevs b.name ?_
    rw [Output.names,getElem?_append_right (by rw [length_map,hcount]),length_map,
      hcount,Nat.sub_self]
    rfl
  · intro hlast i name hi
    rw [Output.names] at hi
    by_cases hlt : i < bs.length
    · rw [getElem?_append_left (by rwa [length_map])] at hi
      exact (hkept i (hcount ▸ hlt)).trans (hnames i name hi)
    · obtain ⟨hi',-⟩ := List.getElem?_eq_some_iff.mp hi
      rw [length_append,length_map] at hi'
      have hi' : i < bs.length + 1 := hi'
      obtain rfl : i = u.countDevs := by omega
      rw [getElem?_append_right (by rw [length_map,hcount]),length_map,
        hcount,Nat.sub_self] at hi
      exact hlast.trans (Option.some.inj hi)

/-- The scan finds the blocks of an output, and those of the output up to its last blank line, just
if there are ten of them at most and each of them is clear.  With a last block that is not closed
the count alone may also be right by chance, when an earlier block fills two slots. -/
theorem scan_blocks (command : List Char) (p : Panel)
    (o : Output (command = "ifconfig -a".toList)) :
    (Scanned command p ⟨o.blocks,none⟩ ∧ Scanned command p o) ↔
      o.names.length ≤ 10 ∧ (∀ b ∈ o.blocks, b.1.Clear) ∧
        ∀ b ∈ o.last, b.LastClear o.names.length := by
  obtain ⟨bs,last⟩ := o
  have hlen : (Output.names ⟨bs,last⟩).length = bs.length + last.toList.length := by
    rw [Output.names,length_append,length_map,length_map]
  rw [hlen]
  cases last with
  | none =>
    rw [and_self,scanned_blocks]
    exact ⟨fun h => ⟨h.1,h.2,fun _ hb => absurd hb (Option.not_mem_none _)⟩,fun h => ⟨h.1,h.2.1⟩⟩
  | some b =>
    have hiff : (Scanned command p ⟨bs,none⟩ ∧ Scanned command p ⟨bs,some b⟩) ↔
        Scanned command p ⟨bs,none⟩ ∧ bs.length < 10 ∧ b.LastClear (bs.length + 1) :=
      and_congr_right fun h => scanned_last h b
    rw [hiff,scanned_blocks]
    constructor
    · rintro ⟨⟨-,hclear⟩,hlt,hlast⟩
      refine ⟨hlt,hclear,fun b' hb => ?_⟩
      cases hb
      exact hlast
    · rintro ⟨hlt,hclear,hlast⟩
      exact ⟨⟨Nat.le_of_lt hlt,hclear⟩,hlt,hlast b rfl⟩

/-- Eleven blocks are written behind the array; a name further on in the first line is taken for
the name of the device; without a blank line at the end the device is not counted. -/
theorem scan_blocks_fails :
    scanDevice "ifconfig -a".toList Panel.new
      (replicate 11 "lo  \n\n".toList).flatten = none ∧
    (scanDevice "ifconfig -a".toList Panel.new "eth0 Hello\n\n".toList).map
      (fun s => (s.countDevs,s.panel.devName true 0)) = some (1,"lo".toList) ∧
    (scanDevice "ifconfig -a".toList Panel.new "lo  \n".toList).map (·.countDevs) = some 0 := by
  decide +kernel

end Simpad.NetPanel
