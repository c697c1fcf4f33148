import Mathlib.Tactic.IntervalCases

/-!
# UTC offsets as text

A server prints the offset of a time zone as `±hh`, or as `±hh:mm` where it has
minutes. A reader of `[+|-]hh[mm]` goes on to the minutes only where a digit
follows the hours at once, so the minutes behind a colon are lost on it.
-/

namespace StandardTools.Lib.UtcOffset

def digits (n : Nat) : List Char := [Nat.digitChar (n / 10), Nat.digitChar (n % 10)]

def sign (minutes : Int) : Char := if minutes < 0 then '-' else '+'

def printMinutes (minutes : Nat) : List Char :=
  if minutes = 0 then [] else ':' :: digits minutes

/-- The offset is given in minutes. -/
def print (minutes : Int) : List Char :=
  sign minutes :: (digits (minutes.natAbs / 60) ++ printMinutes (minutes.natAbs % 60))

def digit? (c : Char) : Option Nat :=
  if c.isDigit then some (c.toNat - '0'.toNat) else none

/-- Two digits, and what follows them. -/
def readDigits : List Char → Option (Nat × List Char)
  | a :: b :: rest => do
    let tens ← digit? a
    let ones ← digit? b
    return (10 * tens + ones, rest)
  | _ => none

def readMinutes : List Char → Option Nat
  | [] => some 0
  | c :: rest => if c.isDigit then (readDigits (c :: rest)).map Prod.fst else some 0

def readUnsigned (text : List Char) : Option Nat := do
  let (hours, rest) ← readDigits text
  let minutes ← readMinutes rest
  return 60 * hours + minutes

def read : List Char → Option Int
  | '-' :: rest => (readUnsigned rest).map fun minutes : Nat => -(minutes : Int)
  | '+' :: rest => (readUnsigned rest).map Int.ofNat
  | text => (readUnsigned text).map Int.ofNat

theorem digit?_digitChar {n : Nat} (h : n < 10) : digit? (Nat.digitChar n) = some n := by
  interval_cases n <;> rfl

theorem readDigits_digits {n : Nat} (h : n < 100) (rest : List Char) :
    readDigits (digits n ++ rest) = some (n, rest) := by
  have htens : n / 10 < 10 := by omega
  have hones : n % 10 < 10 := by omega
  have hsum : 10 * (n / 10) + n % 10 = n := by omega
  simp only [digits, List.cons_append, List.nil_append, readDigits, digit?_digitChar htens,
    digit?_digitChar hones, Option.bind_eq_bind, Option.bind_some, hsum]
  rfl

theorem readMinutes_printMinutes (minutes : Nat) :
    readMinutes (printMinutes minutes) = some 0 := by
  unfold printMinutes
  split_ifs
  · rfl
  · rfl

theorem readUnsigned_print {hours : Nat} (h : hours < 100) (minutes : Nat) :
    readUnsigned (digits hours ++ printMinutes minutes) = some (60 * hours) := by
  rw [readUnsigned, readDigits_digits h]
  simp only [Option.bind_eq_bind, Option.bind_some, readMinutes_printMinutes]
  rfl

theorem tdiv_of_neg {minutes : Int} (h : minutes < 0) :
    minutes.tdiv 60 = -(minutes.natAbs / 60 : Nat) := by
  have hneg : minutes = -(minutes.natAbs : Int) := by omega
  rw [hneg, Int.neg_tdiv, Int.tdiv_eq_ediv_of_nonneg (Int.natCast_nonneg _), Int.natAbs_neg,
    Int.natAbs_natCast]
  rfl

theorem tdiv_of_nonneg {minutes : Int} (h : ¬minutes < 0) :
    minutes.tdiv 60 = (minutes.natAbs / 60 : Nat) := by
  rw [Int.tdiv_eq_ediv_of_nonneg (by omega)]
  omega

/-- What is read of a printed offset are its whole hours, towards zero. -/
theorem read_print {minutes : Int} (h : minutes.natAbs < 6000) :
    read (print minutes) = some (60 * minutes.tdiv 60) := by
  have hhours : minutes.natAbs / 60 < 100 := by omega
  unfold print sign
  split_ifs with hneg
  · rw [read, readUnsigned_print hhours, Option.map_some, Option.some.injEq]
    rw [tdiv_of_neg hneg]
    omega
  · rw [read, readUnsigned_print hhours, Option.map_some, Option.some.injEq]
    rw [tdiv_of_nonneg hneg]
    rfl

end StandardTools.Lib.UtcOffset
