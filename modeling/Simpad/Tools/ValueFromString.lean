import Simpad.Tools.ControlPanel

namespace Simpad.ControlPanel
open Word List

/-- A `string`, which is shorter than `npos`. -/
def Text : Type := { s : List Char // s.length < npos }

variable {s : List Char} {start : ℕ}

/-- What `getValueFromString` is for. -/
def valueAfter (s keyword : List Char) (mode : ℕ) : List Char :=
  match findFrom keyword s with
  | none => []
  | some pos =>
    let rest := s.drop (pos + keyword.length)
    if mode = 1 then (rest.drop 1).takeWhile (· ≠ ' ')
    else
      match findFrom [':',' '] rest with
      | none => []
      | some k => (rest.drop (k + 2)).takeWhile (· ≠ '\n')

/-- Nothing is read at `start`, which is not behind the end. -/
def EmptyAt (s : List Char) (start : ℕ) (stop : Char) : Prop :=
  start ≤ s.length ∧ ∀ c ∈ (s.drop start).head?, c = stop

/-- The keyword is there and not the end of the text, or what is read in its place is empty: with
`npos` for a place the sums wrap to the start of the text. -/
def ValueFits (s keyword : List Char) (mode : ℕ) : Prop :=
  match findFrom keyword s with
  | some pos =>
    if mode = 1 then pos + keyword.length < s.length
    else findFrom [':',' '] (s.drop (pos + keyword.length)) = none → EmptyAt s 1 '\n'
  | none =>
    if mode = 1 then EmptyAt s keyword.length ' '
    else
      match findFrom [':',' '] (s.drop (keyword.length - 1)) with
      | none => EmptyAt s 1 '\n'
      | some k => EmptyAt s (keyword.length + k + 1) '\n'

theorem take_findFrom (l : List Char) (stop : Char) {n : ℕ} (hn : l.length ≤ n) :
    l.take ((findFrom [stop] l).getD n) = l.takeWhile (· ≠ stop) := by
  induction l generalizing n with
  | nil => simp
  | cons c cs ih =>
    rw [length_cons] at hn
    by_cases hc : c = stop
    · simp [findFrom,hc]
    · have ih := @ih (n - 1) (by omega)
      have hstop : ¬stop = c := fun h => hc h.symm
      cases hf : findFrom [stop] cs with
      | none =>
        obtain ⟨m,rfl⟩ : ∃ m, n = m + 1 := ⟨n - 1,by omega⟩
        simpa [findFrom,hc,hf,hstop] using ih
      | some k => simpa [findFrom,hc,hf,hstop] using ih

theorem findFrom_add_le {pat l : List Char} {k : ℕ} (h : findFrom pat l = some k) :
    k + pat.length ≤ l.length := by
  induction l generalizing k with
  | nil => grind [findFrom]
  | cons c cs ih =>
    rw [findFrom] at h
    split at h
    · next hp =>
      cases h
      have hle := isPrefixOf_iff_prefix.mp hp |>.length_le
      simpa using hle
    · obtain ⟨j,hj,rfl⟩ := Option.map_eq_some_iff.mp h
      have := ih hj
      rw [length_cons]
      omega

/-- From a place that is inside the text `substr` reads up to the next `stop`. -/
theorem substr_find (h : s.length < npos) (stop : Char) :
    substr s start (sub32 (find s [stop] start) start) =
      if s.length < start then none else some ((s.drop start).takeWhile (· ≠ stop)) := by
  rw [substr]
  split
  · rfl
  · next hs =>
    rw [npos] at h
    have hlen : (s.drop start).length ≤ npos - start := by
      rw [length_drop,npos]
      omega
    rw [← take_findFrom _ stop hlen,find,if_neg hs]
    cases hf : findFrom [stop] (s.drop start) with
    | none =>
      rw [Option.map_none,Option.getD_none,Option.getD_none,sub32_of_le (by rw [npos]; omega) (by decide)]
    | some k =>
      have hk := findFrom_add_le hf
      rw [length_drop] at hk
      rw [Option.map_some,Option.getD_some,Option.getD_some,sub32_of_le (by omega) (by omega)]
      congr 2
      omega

theorem takeWhile_eq_nil (stop : Char) :
    (if s.length < start then none else some ((s.drop start).takeWhile (· ≠ stop))) = some [] ↔
      EmptyAt s start stop := by
  rw [EmptyAt]
  cases hd : s.drop start with
  | nil => simp
  | cons c cs =>
    by_cases hc : c = stop <;> simp [hc]

variable {keyword : List Char} {mode : ℕ}

/-- Both modes read from a place up to a character. -/
theorem getValueFromString_eq (h : s.length < npos) :
    getValueFromString s keyword mode =
      let start := if mode = 1 then u32 (find s keyword 0 + keyword.length + 1)
        else u32 (find s [':',' '] (u32 (find s keyword 0 + keyword.length)) + 2)
      let stop := if mode = 1 then ' ' else '\n'
      if s.length < start then none else some ((s.drop start).takeWhile (· ≠ stop)) := by
  rw [getValueFromString]
  split
  · exact substr_find h ' '
  · have hsub : ∀ e p, sub32 (sub32 e p) 2 = sub32 e (u32 (p + 2)) := by
      intro e p
      simp only [sub32,u32]
      omega
    dsimp only
    rw [hsub]
    exact substr_find h '\n'

theorem find_eq (hs : start ≤ s.length) (pat : List Char) :
    find s pat start = ((findFrom pat (s.drop start)).map (start + ·)).getD npos := by
  rw [find,if_neg (by omega)]

/-- The value is right just if the keyword is found and followed by something, or nothing is read
where the search goes on without it. -/
theorem getValueFromString_iff (s keyword : Text) (mode : ℕ) :
    getValueFromString s.1 keyword.1 mode = some (valueAfter s.1 keyword.1 mode) ↔
      ValueFits s.1 keyword.1 mode := by
  obtain ⟨s,hs⟩ := s
  obtain ⟨keyword,hk⟩ := keyword
  rw [getValueFromString_eq hs,valueAfter,ValueFits]
  have hfind := find_eq (Nat.zero_le s.length) keyword
  rw [drop_zero] at hfind
  rw [npos] at hs hk
  cases hf : findFrom keyword s with
  | some pos =>
    have hpos := findFrom_add_le hf
    rw [hf,Option.map_some,Option.getD_some,zero_add] at hfind
    dsimp only
    rw [hfind]
    split
    · rw [u32_of_lt (by omega),drop_drop]
      grind
    · have hu : u32 (pos + keyword.length) = pos + keyword.length := u32_of_lt (by omega)
      rw [hu,find_eq hpos]
      cases hc : findFrom [':',' '] (s.drop (pos + keyword.length)) with
      | none =>
        have h1 : u32 (npos + 2) = 1 := rfl
        rw [Option.map_none,Option.getD_none,h1]
        exact (takeWhile_eq_nil '\n').trans ⟨fun h _ => h,fun h => h rfl⟩
      | some k =>
        have hk := findFrom_add_le hc
        rw [length_drop,length_cons,length_cons,length_nil] at hk
        rw [Option.map_some,Option.getD_some,u32_of_lt (by omega),if_neg (by omega)]
        simp [add_assoc]
  | none =>
    rw [hf,Option.map_none,Option.getD_none] at hfind
    have hwrap : u32 (npos + keyword.length + 1) = keyword.length := by
      rw [u32,npos]
      omega
    have hne : keyword ≠ [] := by
      rintro rfl
      cases s <;> simp [findFrom] at hf
    have hpos := length_pos_iff.mpr hne
    have hback : u32 (npos + keyword.length) = keyword.length - 1 := by
      rw [u32,npos]
      omega
    dsimp only
    rw [hfind]
    split
    · rw [hwrap]
      exact takeWhile_eq_nil ' '
    · rw [hback]
      cases hc : findFrom [':',' '] (s.drop (keyword.length - 1)) with
      | none =>
        have hnpos : find s [':',' '] (keyword.length - 1) = npos := by
          simp [find,hc]
        have h1 : u32 (npos + 2) = 1 := rfl
        rw [hnpos,h1]
        exact takeWhile_eq_nil '\n'
      | some k =>
        have hk := findFrom_add_le hc
        rw [length_drop,length_cons,length_cons,length_nil] at hk
        rw [find_eq (by omega),hc,Option.map_some,Option.getD_some,u32_of_lt (by omega),
          show keyword.length - 1 + k + 2 = keyword.length + k + 1 by omega]
        exact takeWhile_eq_nil '\n'

/-- Without the keyword something else is read, or the place is behind the end of the text; there it
is as well when the keyword ends the text. -/
theorem getValueFromString_wrong :
    getValueFromString "Linux version".toList "gcc".toList 1 = some "ux".toList ∧
      getValueFromString "Linux".toList "version".toList 1 = none ∧
      getValueFromString "Linux version".toList "version".toList 1 = none ∧
      getValueFromString "Processor".toList "Processor".toList 2 = some "rocessor".toList := by
  decide

end Simpad.ControlPanel
