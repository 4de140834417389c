import Simpad.Base.ListAt
import Simpad.Drivers.DmaController

namespace Simpad.Dma
open ListAt List

def Buf.todo (b : Buf) : List ℕ := range' b.dmaPtr b.size

def Buf.all (b : Buf) : List ℕ := range' b.dmaStart b.total

/-- The call that the callback is to get for a buffer. -/
def Buf.call (b : Buf) : ℕ × ℕ := (b.id,b.total)

structure Buf.Sound (b : Buf) : Prop where
  sum : b.dmaStart + b.total = b.dmaPtr + b.size
  ref : b.ref = b.flight.length
  flight : ∃ a, b.dmaStart ≤ a ∧ Covers a b.flight b.dmaPtr

theorem chunksize_le (b : Buf) : b.chunksize ≤ b.size := by
  unfold Buf.chunksize maxDmaSize dmaChunk
  split_ifs <;> omega

variable {p c k : ℕ} {b buf : Buf} {bufs pre post : List Buf}

theorem chunksize_pos (h : b.size - b.chunksize ≠ 0) : 0 < b.chunksize := by
  unfold Buf.chunksize maxDmaSize dmaChunk at *
  split_ifs at * <;> omega

theorem Buf.Sound.started (h : b.Sound) : b.started.Sound where
  sum := by
    have hs := h.sum
    have hc := chunksize_le b
    show b.dmaStart + b.total = b.dmaPtr + b.chunksize + (b.size - b.chunksize)
    omega
  ref := by
    show b.ref + 1 = ((b.flight ++ [(b.dmaPtr,b.chunksize)]).length : ℤ)
    rw [length_append,h.ref]
    rfl
  flight := by
    obtain ⟨a,ha,hc⟩ := h.flight
    exact ⟨a,ha,hc.append b.chunksize⟩

theorem Buf.Sound.accounted {x : Chunk} {l : List Chunk} (h : b.Sound) (hf : b.flight = x :: l) :
    b.accounted.Sound where
  sum := h.sum
  ref := by
    show b.ref - 1 = (b.flight.tail.length : ℤ)
    rw [h.ref,hf]
    simp
  flight := by
    obtain ⟨a,ha,hc⟩ := h.flight
    rw [hf] at hc
    refine ⟨a + x.2,le_trans ha (Nat.le_add_right a x.2),?_⟩
    show Covers (a + x.2) b.flight.tail b.dmaPtr
    rw [hf]
    exact hc.2

theorem Buf.Sound.rollback (h : b.Sound) (h₁ : b.dmaStart ≤ p) (h₂ : p ≤ b.dmaPtr) :
    (b.rollback p).Sound where
  sum := by
    have hs := h.sum
    show b.dmaStart + b.total = p + (b.size + (b.dmaPtr - p))
    omega
  ref := rfl
  flight := ⟨p,h₁,rfl⟩

theorem Buf.Sound.flight_eq_nil (h : b.Sound) (hr : b.ref = 0) : b.flight = [] := by
  have hl := h.ref
  exact length_eq_zero_iff.mp (by omega)

theorem sound_queued (id data size : ℕ) : (⟨id,data,data,size,0,size,[]⟩ : Buf).Sound where
  sum := rfl
  ref := rfl
  flight := ⟨data,le_rfl,rfl⟩

theorem todo_started (b : Buf) :
    range' b.dmaPtr b.chunksize ++ b.started.todo = b.todo := by
  show range' b.dmaPtr b.chunksize ++
    range' (b.dmaPtr + b.chunksize) (b.size - b.chunksize) = range' b.dmaPtr b.size
  rw [range'_append_1,Nat.add_sub_cancel' (chunksize_le b)]

/-- The marks in the queue: the buffers before `c` have been called back, those before `k` have
been started to their end. -/
structure Marks (bufs : List Buf) (c k : ℕ) : Prop where
  sound : ∀ b ∈ bufs, b.Sound
  le : c ≤ k
  bound : k ≤ bufs.length
  old : ∀ i b, bufs[i]? = some b → i < c → b.flight = []
  before : ∀ i b, bufs[i]? = some b → i < k → b.size = 0
  fresh : ∀ i b, bufs[i]? = some b → c ≤ i → i < k → b.flight ≠ []
  later : ∀ i b, bufs[i]? = some b → k < i → b.flight = []
  last : ∀ b, bufs[k]? = some b → b.size = 0 → b.flight = []

section
variable {bufs : List Buf} {c k : ℕ} {buf : Buf} (h : Marks bufs c k)
include h

theorem Marks.start (hbuf : bufs[k]? = some buf) :
    Marks (bufs.modify k Buf.started) c (if buf.size - buf.chunksize = 0 then k + 1 else k) := by
  have hk : k < bufs.length := (List.getElem?_eq_some_iff.mp hbuf).1
  have hkle : k ≤ if buf.size - buf.chunksize = 0 then k + 1 else k := by split_ifs <;> omega
  constructor
  · intro b hb
    obtain ⟨i,hi⟩ := mem_iff_getElem?.mp hb
    obtain ⟨b₀,hb₀,rfl⟩ := getElem?_modify_some hi
    have hs := h.sound b₀ (mem_of_getElem? hb₀)
    split_ifs
    · exact hs.started
    · exact hs
  · exact le_trans h.le hkle
  · grind
  · intro i b hi hic
    have hle := h.le
    exact h.old i b (getElem?_modify_of_ne (by omega) hi) hic
  · intro i b hi hik
    obtain ⟨b₀,hb₀,rfl⟩ := getElem?_modify_some hi
    by_cases he : k = i
    · subst he
      rw [hbuf] at hb₀
      cases hb₀
      rw [if_pos rfl]
      split_ifs at hik with hz
      · exact hz
      · omega
    · rw [if_neg he]
      refine h.before i b₀ hb₀ ?_
      split_ifs at hik <;> omega
  · intro i b hi hci hik
    obtain ⟨b₀,hb₀,rfl⟩ := getElem?_modify_some hi
    by_cases he : k = i
    · rw [if_pos he]
      exact append_ne_nil_of_right_ne_nil _ (by simp)
    · rw [if_neg he]
      refine h.fresh i b₀ hb₀ hci ?_
      split_ifs at hik <;> omega
  · intro i b hi hik
    exact h.later i b (getElem?_modify_of_ne (by omega) hi) (by omega)
  · intro b hb hz
    split_ifs at hb with hs
    · exact h.later (k + 1) b (getElem?_modify_of_ne (by omega) hb) (by omega)
    · obtain ⟨b₀,hb₀,rfl⟩ := getElem?_modify_some hb
      rw [hbuf] at hb₀
      cases hb₀
      rw [if_pos rfl] at hz
      exact absurd hz hs

end

section
variable {bufs : List Buf} {c k : ℕ} {buf : Buf} {x : Chunk} {l : List Chunk} (h : Marks bufs c k)
  (hbuf : bufs[c]? = some buf) (hf : buf.flight = x :: l)
include h hbuf hf

theorem Marks.sound_accounted : ∀ b ∈ bufs.modify c Buf.accounted, b.Sound := by
  intro b hb
  obtain ⟨i,hi⟩ := mem_iff_getElem?.mp hb
  obtain ⟨b₀,hb₀,rfl⟩ := getElem?_modify_some hi
  have hs := h.sound b₀ (mem_of_getElem? hb₀)
  by_cases hci : c = i
  · subst hci
    rw [hbuf] at hb₀
    cases hb₀
    rw [if_pos rfl]
    exact hs.accounted hf
  · rw [if_neg hci]
    exact hs

omit hbuf hf in
theorem Marks.before_accounted :
    ∀ i b, (bufs.modify c Buf.accounted)[i]? = some b → i < k → b.size = 0 := by
  intro i b hi hik
  obtain ⟨b₀,hb₀,rfl⟩ := getElem?_modify_some hi
  have hz := h.before i b₀ hb₀ hik
  split_ifs
  · exact hz
  · exact hz

theorem Marks.finish (hl : l = []) (hz : buf.size = 0) :
    Marks (bufs.modify c Buf.accounted) (c + 1) k := by
  have hck : c < k := by
    refine lt_of_le_of_ne h.le fun he => ?_
    have hn := h.last buf (he ▸ hbuf) hz
    rw [hf] at hn
    cases hn
  refine ⟨h.sound_accounted hbuf hf,hck,?_,?_,h.before_accounted,?_,?_,?_⟩
  · rw [length_modify]
    exact h.bound
  · intro i b hi hic
    by_cases he : i = c
    · subst he
      obtain ⟨b₀,hb₀,rfl⟩ := getElem?_modify_some hi
      rw [hbuf] at hb₀
      cases hb₀
      rw [if_pos rfl]
      show buf.flight.tail = []
      rw [hf,hl]
      rfl
    · exact h.old i b (getElem?_modify_of_ne he hi) (by omega)
  · intro i b hi hci hik
    exact h.fresh i b (getElem?_modify_of_ne (by omega) hi) (by omega) hik
  · intro i b hi hik
    exact h.later i b (getElem?_modify_of_ne (by omega) hi) hik
  · intro b hb
    exact h.last b (getElem?_modify_of_ne (by omega) hb)

theorem Marks.account (hn : ¬(l = [] ∧ buf.size = 0)) :
    Marks (bufs.modify c Buf.accounted) c k := by
  refine ⟨h.sound_accounted hbuf hf,h.le,?_,?_,h.before_accounted,?_,?_,?_⟩
  · rw [length_modify]
    exact h.bound
  · intro i b hi hic
    exact h.old i b (getElem?_modify_of_ne (by omega) hi) hic
  · intro i b hi hci hik
    by_cases he : i = c
    · subst he
      obtain ⟨b₀,hb₀,rfl⟩ := getElem?_modify_some hi
      rw [hbuf] at hb₀
      cases hb₀
      rw [if_pos rfl]
      show buf.flight.tail ≠ []
      rw [hf]
      exact fun hl => hn ⟨hl,h.before i buf hbuf hik⟩
    · exact h.fresh i b (getElem?_modify_of_ne he hi) hci hik
  · intro i b hi hik
    have hle := h.le
    exact h.later i b (getElem?_modify_of_ne (by omega) hi) hik
  · intro b hb hz
    by_cases he : k = c
    · subst he
      obtain ⟨b₀,hb₀,rfl⟩ := getElem?_modify_some hb
      rw [hbuf] at hb₀
      cases hb₀
      rw [if_pos rfl] at hz
      have hnil := h.last buf hbuf hz
      rw [hf] at hnil
      cases hnil
    · exact h.last b (getElem?_modify_of_ne he hb) hz

end

theorem Marks.queue (h : Marks bufs c k) (id data size : ℕ) :
    Marks (bufs ++ [⟨id,data,data,size,0,size,[]⟩]) c k := by
  have hget : ∀ i b, (bufs ++ [⟨id,data,data,size,0,size,[]⟩])[i]? = some b →
      bufs[i]? = some b ∨ i = bufs.length ∧ b.flight = [] := by
    intro i b hi
    rcases lt_or_ge i bufs.length with hlt | hge
    · grind
    · obtain ⟨hi',-⟩ := List.getElem?_eq_some_iff.mp hi
      rw [length_append,length_singleton] at hi'
      have he : i = bufs.length := by omega
      grind
  have hb := h.bound
  constructor
  · intro b hm
    rcases mem_append.mp hm with hm | hm
    · exact h.sound b hm
    · rw [mem_singleton.mp hm]
      exact sound_queued id data size
  · exact h.le
  · rw [length_append]
    omega
  · intro i b hi hic
    exact (hget i b hi).elim (fun hi => h.old i b hi hic) (fun he => he.2)
  · intro i b hi hik
    exact (hget i b hi).elim (fun hi => h.before i b hi hik) (fun he => absurd hik (by omega))
  · intro i b hi hci hik
    exact (hget i b hi).elim (fun hi => h.fresh i b hi hci hik) (fun he => absurd hik (by omega))
  · intro i b hi hki
    exact (hget i b hi).elim (fun hi => h.later i b hi hki) (fun he => he.2)
  · intro b hi hz
    exact (hget k b hi).elim (fun hi => h.last b hi hz) (fun he => he.2)

theorem Marks.putBack (h : Marks bufs c k) (hbuf : bufs[c]? = some buf) (h₁ : buf.dmaStart ≤ p)
    (h₂ : p ≤ buf.dmaPtr) (halone : ∀ i b, bufs[i]? = some b → i ≠ c → b.flight = []) :
    Marks (bufs.modify c fun b => b.rollback p) c c := by
  have hother : ∀ i b, (bufs.modify c fun b => b.rollback p)[i]? = some b → i ≠ c →
      bufs[i]? = some b := fun i b hi hne => getElem?_modify_of_ne hne hi
  have hself : ∀ b, (bufs.modify c fun b => b.rollback p)[c]? = some b → b = buf.rollback p := by
    grind
  constructor
  · intro b hb
    obtain ⟨i,hi⟩ := mem_iff_getElem?.mp hb
    by_cases hic : i = c
    · subst hic
      rw [hself b hi]
      exact (h.sound buf (mem_of_getElem? hbuf)).rollback h₁ h₂
    · exact h.sound b (mem_of_getElem? (hother i b hi hic))
  · exact le_rfl
  · grind
  · grind
  · intro i b hi hic
    exact h.before i b (hother i b hi hic.ne) (lt_of_lt_of_le hic h.le)
  · omega
  · grind
  · intro b hb _
    rw [hself b hb]
    rfl

theorem Marks.flatMap_flight (h : Marks (pre ++ buf :: post) c pre.length) :
    post.flatMap Buf.flight = [] :=
  flatMap_behind_eq_nil h.later

theorem Buf.todo_eq_nil (h : buf.size = 0) : buf.todo = [] := by
  rw [Buf.todo,h]
  rfl

theorem Marks.flatMap_todo (h : Marks (pre ++ buf :: post) c pre.length) :
    pre.flatMap Buf.todo = [] :=
  flatMap_front_eq_nil fun j b hget hj => Buf.todo_eq_nil (h.before j b hget hj)

theorem Marks.lead {x : Chunk} {l : List Chunk} (h : Marks bufs c k) (hc : c < bufs.length)
    (hf : bufs.flatMap Buf.flight = x :: l) :
    ∃ pre buf post m, bufs = pre ++ buf :: post ∧ pre.length = c ∧ bufs[c]? = some buf ∧
      pre.flatMap Buf.flight = [] ∧ buf.flight = x :: m ∧ m ++ post.flatMap Buf.flight = l ∧
      ∀ f, bufs.modify c f = pre ++ f buf :: post := by
  have hbuf : bufs[c]? = some (bufs.get ⟨c,hc⟩) := getElem?_eq_getElem hc
  generalize bufs.get ⟨c,hc⟩ = buf at hbuf
  obtain ⟨pre,post,hl,hpre,hmod⟩ := split_at hbuf
  have hold : pre.flatMap Buf.flight = [] :=
    flatMap_front_eq_nil fun j b hget hj => h.old j b (hl ▸ hget) (by omega)
  have hne : buf.flight ≠ [] := by
    intro hnil
    have hpost : post.flatMap Buf.flight = x :: l := by
      grind
    obtain ⟨b,hb,hbne⟩ : ∃ b ∈ post, b.flight ≠ [] := by
      by_contra hno
      rw [flatMap_eq_nil_iff.mpr fun b hb => not_not.mp fun hn => hno ⟨b,hb,hn⟩] at hpost
      cases hpost
    obtain ⟨j,hj,hget⟩ := getElem?_behind pre buf hb
    have hjk : j ≤ k := not_lt.mp fun hlt => hbne (h.later j b (hl ▸ hget) hlt)
    exact h.fresh c buf hbuf le_rfl (by omega) hnil
  obtain ⟨y,m,hm⟩ := exists_cons_of_ne_nil hne
  rw [hl] at hf
  simp only [flatMap_append,flatMap_cons,hold,hm,nil_append,cons_append,
    cons.injEq] at hf
  obtain ⟨rfl,hrest⟩ := hf
  grind

theorem Marks.flatMap_flight_done (h : Marks bufs bufs.length k) :
    bufs.flatMap Buf.flight = [] := by
  refine flatMap_eq_nil_iff.mpr fun b hb => ?_
  obtain ⟨i,hi⟩ := mem_iff_getElem?.mp hb
  exact h.old i b hi (List.getElem?_eq_some_iff.mp hi).1

end Simpad.Dma
