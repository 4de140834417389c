import Simpad.Base.Word
import Simpad.Drivers.UsbSend

namespace Simpad.UsbChar
open Word List
open UsbSend (Refusal)

def txPacketSize : ℕ := 64

def Flag.code : Flag → ℤ
  | .ok => 0
  | .epipe => -32
  | .eagain => -11
  | .eintr => -4
  | .eio => -5

/-- What becomes of a packet: `sa1100_usb_send` refuses it, `tx_done_callback` gets the flag and the
size, or a signal comes first. -/
inductive Sending
  | refused (why : Refusal)
  | completed (flag : Flag) (size : ℕ)
  | signal

/-- `usbc_write` from the packet it is at; `none` while it still waits. -/
def usbcWrite (stCount stSent : ℕ) : List Sending → Option ℤ
  | [] => if stCount = 0 then some (s32 stSent) else none
  | o :: os =>
    if stCount = 0 then some (s32 stSent)
    else
      match o with
      | .refused why => some why.code
      | .completed .ok size => usbcWrite (stCount - size) (stSent + size) os
      | .completed flag _ => some flag.code
      | .signal => some (-512)

/-- The outcomes that a call with this count can meet: all of a packet is sent or less, with an error;
the call ends with the buffer or with the first error. -/
def Fits : ℕ → List Sending → Prop
  | stCount, [] => stCount = 0
  | stCount, .completed .ok size :: os =>
    stCount ≠ 0 ∧ size = min txPacketSize stCount ∧ Fits (stCount - size) os
  | stCount, .completed _ size :: os => size < min txPacketSize stCount ∧ os = []
  | stCount, _ :: os => stCount ≠ 0 ∧ os = []

def Sending.size : Sending → ℕ
  | .completed _ size => size
  | _ => 0

def sentBytes (os : List Sending) : ℕ := (os.map Sending.size).sum

theorem usbcWrite_cases {stCount : ℕ} {os : List Sending} (h : Fits stCount os) (stSent : ℕ) :
    (sentBytes os = stCount ∧ usbcWrite stCount stSent os = some (s32 (stSent + stCount : ℕ))) ∨
      (sentBytes os < stCount ∧ ∃ r < 0, usbcWrite stCount stSent os = some r) := by
  induction os generalizing stCount stSent with
  | nil =>
    cases h
    exact Or.inl ⟨rfl,rfl⟩
  | cons o os ih =>
    unfold usbcWrite
    cases o with
    | refused why =>
      obtain ⟨hne,rfl⟩ := h
      rw [if_neg hne]
      exact Or.inr ⟨Nat.pos_of_ne_zero hne,_,by cases why <;> decide,rfl⟩
    | signal =>
      obtain ⟨hne,rfl⟩ := h
      rw [if_neg hne]
      exact Or.inr ⟨Nat.pos_of_ne_zero hne,_,by decide,rfl⟩
    | completed flag size =>
      by_cases hok : flag = .ok
      · subst hok
        obtain ⟨hne,hsize,hfit⟩ := h
        have hle : size ≤ stCount := hsize ▸ min_le_right _ _
        have hsum : sentBytes (.completed .ok size :: os) = size + sentBytes os := rfl
        grind
      · have hfail : size < min txPacketSize stCount ∧ os = [] := by
          cases flag <;> first | exact absurd rfl hok | exact h
        obtain ⟨hlt,rfl⟩ := hfail
        rw [if_neg (by omega)]
        refine Or.inr ⟨lt_of_lt_of_le hlt (min_le_right _ _),flag.code,?_⟩
        cases flag <;> first | exact absurd rfl hok | exact ⟨by decide,rfl⟩

/-- An error is right only where nothing was sent; the result is an `int`. -/
theorem usbcWrite_exact_iff {stCount : ℕ} {os : List Sending} (h : Fits stCount os)
    (hcount : stCount < 4294967296) :
    ∃ r, usbcWrite stCount 0 os = some r ∧
      (((0 < sentBytes os → r = sentBytes os) ∧ (r < 0 → sentBytes os = 0)) ↔
        (sentBytes os = stCount ∧ stCount < 2147483648) ∨ sentBytes os = 0) := by
  rcases usbcWrite_cases h 0 with ⟨hall,hr⟩ | ⟨hlt,r,hneg,hr⟩
  · refine ⟨_,hr,?_⟩
    rw [zero_add,hall,s32,Int.bmod_def]
    split_ifs <;> omega
  · refine ⟨r,hr,?_⟩
    omega

theorem usbcWrite_exact_all :
    Fits 65 [.completed .ok 64,.completed .ok 1] ∧
      ∃ r, usbcWrite 65 0 [.completed .ok 64,.completed .ok 1] = some r ∧ r = 65 := by
  have hfit : Fits 65 [.completed .ok 64,.completed .ok 1] :=
    ⟨by decide,by decide,by decide,by decide,rfl⟩
  obtain ⟨r,hr,hiff⟩ := usbcWrite_exact_iff hfit (by decide)
  exact ⟨hfit,r,hr,(hiff.mpr (Or.inl (by decide))).1 (by decide)⟩

/-- 64 bytes are sent and a signal comes during the next packet. -/
theorem usbcWrite_inexact :
    Fits 65 [.completed .ok 64,.signal] ∧ sentBytes [.completed .ok 64,.signal] = 64 ∧
      usbcWrite 65 0 [.completed .ok 64,.signal] = some (-512) :=
  ⟨⟨by decide,by decide,by decide,rfl⟩,rfl,rfl⟩

end Simpad.UsbChar
