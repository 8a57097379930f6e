import Xv6.Board.Cmos

/-!
# The elapsed time

`time.c`: the program reads the clock, waits for a child and reads the clock again. What `main`
prints depends on the number of its arguments, on what `date` and `fork` return and on whether
`exec` comes back; the arguments themselves do not matter for it. The two numbers are printed with
`%d`, so they are read as signed.

The seconds are subtracted the wrong way round when they went down, and no minute is borrowed; the
hours are not looked at.
-/

namespace Xv6

namespace Time

open Cmos

def maxArgs : Nat := 20

/-- What is printed. -/
inductive Printed where
  | error (message : String)
  | elapsed (minute second : Word)
  deriving DecidableEq

def elapsed (t1 t2 : Rtcdate) : Word × Word :=
  if t2.second < t1.second then (t2.minute - t1.minute, t1.second - t2.second)
  else (t2.minute - t1.minute, t2.second - t1.second)

/-- `main`, with what `date` returns first, `fork` and `date` again. Without a date `date` failed;
in the child `exec` came back. -/
def main (argc : Nat) (start : Option Rtcdate) (pid : Int) (stop : Option Rtcdate) : Printed :=
  if maxArgs - 1 < argc then .error "Error: too many args\n"
  else match start with
    | none => .error "Error: getting the time failed\n"
    | some t1 =>
      if pid < 0 then .error "Error: fork failed\n"
      else if pid = 0 then .error "Error: execution failed\n"
      else match stop with
        | none => .error "Error: getting the time failed\n"
        | some t2 => .elapsed (elapsed t1 t2).1 (elapsed t1 t2).2

theorem toNat_small {n : Nat} (small : n < 60) : (BitVec.ofNat 32 n).toNat = n := by
  rw [BitVec.toNat_ofNat, Nat.mod_eq_of_lt (by omega)]

theorem le_small {m n : Nat} (small : m < 60) (small' : n < 60) :
    BitVec.ofNat 32 m ≤ BitVec.ofNat 32 n ↔ m ≤ n := by
  rw [BitVec.le_def, toNat_small small, toNat_small small']

theorem sub_toInt {m n : Nat} (small : m < 60) (small' : n < 60) :
    (BitVec.ofNat 32 n - BitVec.ofNat 32 m).toInt = n - m := by
  rw [BitVec.toInt_sub, BitVec.toInt_eq_toNat_of_lt (by rw [toNat_small small']; omega),
    BitVec.toInt_eq_toNat_of_lt (by rw [toNat_small small]; omega), toNat_small small,
    toNat_small small', Int.bmod_eq_of_le (by omega) (by omega)]

theorem main_prints {chip : Chip} {T₁ T₂ argc : Nat} {t₁ t₂ : Rtcdate} {pid : Int}
    (first : Reading chip T₁ t₁) (second : Reading chip T₂ t₂) (few : argc < maxArgs)
    (parent : 0 < pid) :
    ∃ minute second, main argc (some t₁) pid (some t₂) = .elapsed minute second ∧
      minute.toInt = (T₂ / 60 % 60 : Nat) - (T₁ / 60 % 60 : Nat) ∧
      second.toInt = if T₂ % 60 < T₁ % 60 then ((T₁ % 60 : Nat) - (T₂ % 60 : Nat) : Int)
        else (T₂ % 60 : Nat) - (T₁ % 60 : Nat) := by
  obtain ⟨second₁, minute₁⟩ := first.fields
  obtain ⟨second₂, minute₂⟩ := second.fields
  have small : ∀ n, n % 60 < 60 := fun n => Nat.mod_lt n (by decide)
  have printed : main argc (some t₁) pid (some t₂) =
      .elapsed (elapsed t₁ t₂).1 (elapsed t₁ t₂).2 := by
    rw [main, if_neg (by omega), if_neg (by omega), if_neg (by omega)]
  have order := le_small (small T₁) (small T₂)
  rw [← second₁, ← second₂] at order
  refine ⟨_, _, printed, ?_⟩
  by_cases down : T₂ % 60 < T₁ % 60
  · have fell : t₂.second < t₁.second :=
      BitVec.not_le.mp fun up => Nat.not_le.mpr down (order.mp up)
    rw [elapsed, if_pos fell, if_pos down, second₁, second₂, minute₁, minute₂]
    exact ⟨sub_toInt (small _) (small _), sub_toInt (small _) (small _)⟩
  · have rose : ¬t₂.second < t₁.second := BitVec.not_lt.mpr (order.mpr (Nat.not_lt.mp down))
    rw [elapsed, if_neg rose, if_neg down, second₁, second₂, minute₁, minute₂]
    exact ⟨sub_toInt (small _) (small _), sub_toInt (small _) (small _)⟩

/-- Of two readings less than an hour apart, `main` prints the time between them exactly when
neither the seconds nor the minutes went down. -/
theorem main_elapsed {chip : Chip} {T₁ T₂ argc : Nat} {t₁ t₂ : Rtcdate} {pid : Int}
    (first : Reading chip T₁ t₁) (second : Reading chip T₂ t₂) (order : T₁ ≤ T₂)
    (hour : T₂ < T₁ + 3600) (few : argc < maxArgs) (parent : 0 < pid) :
    ∃ minute second, main argc (some t₁) pid (some t₂) = .elapsed minute second ∧
      ((0 ≤ second.toInt ∧ second.toInt < 60 ∧ 60 * minute.toInt + second.toInt = T₂ - T₁) ↔
        t₁.second ≤ t₂.second ∧ t₁.minute ≤ t₂.minute) := by
  obtain ⟨minute, elapsed, printed, minutes, seconds⟩ := main_prints first second few parent
  obtain ⟨second₁, minute₁⟩ := first.fields
  obtain ⟨second₂, minute₂⟩ := second.fields
  have small : ∀ n, n % 60 < 60 := fun n => Nat.mod_lt n (by decide)
  refine ⟨minute, elapsed, printed, ?_⟩
  rw [second₁, second₂, minute₁, minute₂, le_small (small _) (small _),
    le_small (small _) (small _), minutes, seconds]
  split
  · -- the seconds went down: twice their difference would be a minute that the clock does not show
    next down => omega
  · next up => omega

/-- A chip that shows one time in the first reads and another, some seconds later, from then on. -/
def jump (first step : Nat) (small : step < 60) : Chip where
  register n reg :=
    let time := if n < 14 then first else first + step
    if reg = secs then encode false (time % 60)
    else if reg = mins then encode false (time / 60 % 60)
    else 0
  now n := if n < 14 then first else first + step
  binary := false
  mono m n order := by
    dsimp only
    split <;> split <;> omega
  quick n := by
    split <;> split <;> omega
  secs_eq _ := rfl
  mins_eq _ := rfl
  statb_eq _ := by
    dsimp only
    rw [if_neg (by decide), if_neg (by decide)]
    rfl

def dateOf (minute second : Word) : Rtcdate := ⟨second, minute, 0, 0, 0, 2000⟩

/-- `main_elapsed` at 1:10 and 1:15. -/
theorem main_elapsed_five :
    Reading (jump 70 5 (by decide)) 70 (dateOf 1 10) ∧
    Reading (jump 70 5 (by decide)) 75 (dateOf 1 15) ∧
    ∃ minute second, main 2 (some (dateOf 1 10)) 3 (some (dateOf 1 15)) = .elapsed minute second ∧
      ((0 ≤ second.toInt ∧ second.toInt < 60 ∧
        60 * minute.toInt + second.toInt = (75 : Nat) - (70 : Nat)) ↔
        (dateOf 1 10).second ≤ (dateOf 1 15).second ∧
          (dateOf 1 10).minute ≤ (dateOf 1 15).minute) := by
  have first : Reading (jump 70 5 (by decide)) 70 (dateOf 1 10) := ⟨1, 0, 1, by decide +kernel, rfl⟩
  have second : Reading (jump 70 5 (by decide)) 75 (dateOf 1 15) :=
    ⟨1, 14, 15, by decide +kernel, rfl⟩
  exact ⟨first, second, main_elapsed first second (by decide) (by decide) (by decide) (by decide)⟩

/-- Two seconds over the end of a minute are printed as one minute and 58 seconds, and 15 seconds
over the end of an hour as minus 59 minutes and 45 seconds. -/
theorem main_wrong :
    (Reading (jump 59 2 (by decide)) 59 (dateOf 0 59) ∧
      Reading (jump 59 2 (by decide)) 61 (dateOf 1 1) ∧
      main 2 (some (dateOf 0 59)) 3 (some (dateOf 1 1)) = .elapsed 1 58) ∧
    (Reading (jump 3590 15 (by decide)) 3590 (dateOf 59 50) ∧
      Reading (jump 3590 15 (by decide)) 3605 (dateOf 0 5) ∧
      main 2 (some (dateOf 59 50)) 3 (some (dateOf 0 5)) = .elapsed (-59) 45) := by
  refine ⟨⟨⟨1, 0, 1, ?_, ?_⟩, ⟨1, 14, 15, ?_, ?_⟩, ?_⟩,
    ⟨1, 0, 1, ?_, ?_⟩, ⟨1, 14, 15, ?_, ?_⟩, ?_⟩
  all_goals decide +kernel

end Time

end Xv6
