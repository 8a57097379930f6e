import Xv6.Library.Bytes
import Xv6.Library.Run
import Xv6.Param

/-!
# The real-time clock

`cmostime` of `lapic.c`. Each read of a port sees the registers as they are then, so the chip is
given by its registers at every read, in order. It shows the time of day, in binary or as two
decimal digits in a byte, and fewer than 60 seconds pass while two fills of a date are read. The
registers of the hour and of the date are left open.

`cmostime` fills the date until two fills in a row are the same. Such a fill is the time at which
it was begun: the seconds are back at their value after a minute at the earliest.
-/

namespace Xv6

open Bytes (Byte)

namespace Cmos

def stata : Byte := 0x0A
def statb : Byte := 0x0B
def uip : Word := 0x80
def secs : Byte := 0
def mins : Byte := 2
def hours : Byte := 4
def day : Byte := 7
def month : Byte := 8
def year : Byte := 9

structure Rtcdate where
  second : Word
  minute : Word
  hour : Word
  day : Word
  month : Word
  year : Word
  deriving DecidableEq

def encode (binary : Bool) (n : Nat) : Byte :=
  if binary then BitVec.ofNat 8 n else BitVec.ofNat 8 (16 * (n / 10) + n % 10)

structure Chip where
  register : Nat → Byte → Byte
  now : Nat → Nat
  binary : Bool
  mono : Monotone now
  quick : ∀ n, now (n + 13) < now n + 60
  secs_eq : ∀ n, register n secs = encode binary (now n % 60)
  mins_eq : ∀ n, register n mins = encode binary (now n / 60 % 60)
  statb_eq : ∀ n, register n statb &&& 4 = if binary then 4 else 0

def cmosRead (chip : Chip) (n : Nat) (reg : Byte) : Word := (chip.register n reg).setWidth 32

def fillRtcdate (chip : Chip) (n : Nat) : Rtcdate where
  second := cmosRead chip n secs
  minute := cmosRead chip (n + 1) mins
  hour := cmosRead chip (n + 2) hours
  day := cmosRead chip (n + 3) day
  month := cmosRead chip (n + 4) month
  year := cmosRead chip (n + 5) year

/-- The loop of `cmostime`. Returns the date and the number of the read that began it. -/
def fillLoop (chip : Chip) : Nat → Nat → Except Fault (Rtcdate × Nat)
  | 0, _ => .error .diverges
  | turns + 1, n =>
    let t1 := fillRtcdate chip n
    if cmosRead chip (n + 6) stata &&& uip ≠ 0 then fillLoop chip turns (n + 7)
    else if t1 = fillRtcdate chip (n + 7) then .ok (t1, n)
    else fillLoop chip turns (n + 13)

def conv (x : Word) : Word := (x >>> 4) * 10 + (x &&& 0xF)

def cmostime (chip : Chip) (turns n : Nat) : Except Fault (Rtcdate × Nat) := do
  let sb := cmosRead chip n statb
  let bcd := sb &&& (1 <<< 2) = 0
  let (t1, began) ← fillLoop chip turns (n + 1)
  let t1 : Rtcdate :=
    if bcd then
      { second := conv t1.second, minute := conv t1.minute, hour := conv t1.hour,
        day := conv t1.day, month := conv t1.month, year := conv t1.year }
    else t1
  return ({ t1 with year := t1.year + 2000 }, began)

def Reading (chip : Chip) (time : Nat) (date : Rtcdate) : Prop :=
  ∃ turns n began, cmostime chip turns n = .ok (date, began) ∧ chip.now began = time

variable {chip : Chip} {time : Nat} {date : Rtcdate}

def decode (binary : Bool) (x : Word) : Word := if binary then x else conv x

theorem decode_encode (binary : Bool) {n : Nat} (small : n < 60) :
    decode binary ((encode binary n).setWidth 32) = BitVec.ofNat 32 n := by
  have all : ∀ m : Fin 60, decode binary ((encode binary m).setWidth 32) = BitVec.ofNat 32 m := by
    cases binary <;> decide
  exact all ⟨n, small⟩

theorem encode_inj {binary : Bool} {m n : Nat} (small : m < 60) (small' : n < 60)
    (same : (encode binary m).setWidth 32 = (encode binary n).setWidth 32) : m = n := by
  have numbers := congrArg (fun x => (decode binary x).toNat) same
  simp only [decode_encode binary small, decode_encode binary small', BitVec.toNat_ofNat] at numbers
  rwa [Nat.mod_eq_of_lt (by omega), Nat.mod_eq_of_lt (by omega)] at numbers

theorem fillLoop_ok {turns n began : Nat} (returned : fillLoop chip turns n = .ok (date, began)) :
    date = fillRtcdate chip began ∧ fillRtcdate chip began = fillRtcdate chip (began + 7) := by
  induction turns generalizing n with
  | zero => cases returned
  | succ turns ih =>
    rw [fillLoop] at returned
    split at returned
    · exact ih returned
    · split at returned
      · next same =>
        cases returned
        exact ⟨rfl, same⟩
      · exact ih returned

theorem now_of_same {n : Nat} (same : fillRtcdate chip n = fillRtcdate chip (n + 7)) :
    chip.now (n + 1) = chip.now n := by
  have seconds := congrArg Rtcdate.second same
  simp only [fillRtcdate, cmosRead, chip.secs_eq] at seconds
  have equal := encode_inj (Nat.mod_lt _ (by decide)) (Nat.mod_lt _ (by decide)) seconds
  have first : chip.now n ≤ chip.now (n + 1) := chip.mono (by omega)
  have second : chip.now (n + 1) ≤ chip.now (n + 7) := chip.mono (by omega)
  have third : chip.now (n + 7) ≤ chip.now (n + 13) := chip.mono (by omega)
  have quick := chip.quick n
  omega

theorem Reading.fields (reading : Reading chip time date) :
    date.second = BitVec.ofNat 32 (time % 60) ∧ date.minute = BitVec.ofNat 32 (time / 60 % 60) := by
  obtain ⟨turns, n, began, returned, rfl⟩ := reading
  obtain ⟨⟨fill, began'⟩, looped, rest⟩ := Transition.bind_ok.mp returned
  obtain ⟨rfl, same⟩ := fillLoop_ok looped
  have still := now_of_same same
  have second := decode_encode chip.binary (Nat.mod_lt (chip.now began') (by decide : 0 < 60))
  have minute := decode_encode chip.binary (Nat.mod_lt (chip.now began' / 60) (by decide : 0 < 60))
  rw [← chip.secs_eq] at second
  nth_rewrite 1 [← still] at minute
  rw [← chip.mins_eq] at minute
  have mode : cmosRead chip n statb &&& (1 <<< 2) = if chip.binary then 4 else 0 := by
    have status := congrArg (BitVec.setWidth 32) (chip.statb_eq n)
    rw [BitVec.setWidth_and] at status
    refine Eq.trans status ?_
    cases chip.binary <;> rfl
  rw [mode] at rest
  cases isBinary : chip.binary with
  | true =>
    rw [isBinary] at rest second minute
    cases rest
    exact ⟨second, minute⟩
  | false =>
    rw [isBinary] at rest second minute
    cases rest
    exact ⟨second, minute⟩

end Cmos

end Xv6
