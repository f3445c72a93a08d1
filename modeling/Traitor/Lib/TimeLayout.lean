import Traitor.Lib.Strconv

namespace Traitor.Lib.TimeLayout

open Strconv

abbrev Text := List UInt8

structure DateTime where
  year : Int
  month : Nat
  day : Nat
  hour : Nat
  minute : Nat
  second : Nat
  month_le : 1 ≤ month ∧ month ≤ 12
  day_le : 1 ≤ day ∧ day ≤ 31
  hour_lt : hour < 24
  minute_lt : minute < 60
  second_lt : second < 60

/-- The parts of a date in a layout, with a zero in front of one digit or without. Names of
months, time zones and fractions of a second are left out. -/
inductive Std
  | longYear
  | year
  | month (zero : Bool)
  | day (zero : Bool)
  | hour
  | hour12 (zero : Bool)
  | minute (zero : Bool)
  | second (zero : Bool)

inductive Token
  | literal (b : UInt8)
  | spaces (n : Nat)
  | std (s : Std)

/-- A layout is written as the instant 2006-01-02 15:04:05. -/
def tokens : Text → List Token
  | 48 :: 49 :: s => .std (.month true) :: tokens s
  | 48 :: 50 :: s => .std (.day true) :: tokens s
  | 48 :: 51 :: s => .std (.hour12 true) :: tokens s
  | 48 :: 52 :: s => .std (.minute true) :: tokens s
  | 48 :: 53 :: s => .std (.second true) :: tokens s
  | 48 :: 54 :: s => .std .year :: tokens s
  | 49 :: 53 :: s => .std .hour :: tokens s
  | 49 :: s => .std (.month false) :: tokens s
  | 50 :: 48 :: 48 :: 54 :: s => .std .longYear :: tokens s
  | 50 :: s => .std (.day false) :: tokens s
  | 51 :: s => .std (.hour12 false) :: tokens s
  | 52 :: s => .std (.minute false) :: tokens s
  | 53 :: s => .std (.second false) :: tokens s
  | 32 :: s =>
      match tokens s with
      | .spaces n :: ts => .spaces (n + 1) :: ts
      | ts => .spaces 1 :: ts
  | b :: s => .literal b :: tokens s
  | [] => []

def pad (width n : Nat) : Text :=
  List.replicate (width - (formatNat n).length) 48 ++ formatNat n

def appendInt (x : Int) (width : Nat) : Text :=
  if x < 0 then 45 :: pad width x.natAbs else pad width x.natAbs

def width (zero : Bool) : Nat := if zero then 2 else 0

def formatStd (t : DateTime) : Std → Text
  | .longYear => appendInt t.year 4
  | .year => appendInt (max t.year 0 % 100) 2
  | .month zero => pad (width zero) t.month
  | .day zero => pad (width zero) t.day
  | .hour => pad 2 t.hour
  | .hour12 zero => pad (width zero) (if t.hour % 12 = 0 then 12 else t.hour % 12)
  | .minute zero => pad (width zero) t.minute
  | .second zero => pad (width zero) t.second

def formatToken (t : DateTime) : Token → Text
  | .literal b => [b]
  | .spaces n => List.replicate n 32
  | .std s => formatStd t s

def format (layout : Text) (t : DateTime) : Text := (tokens layout).flatMap (formatToken t)

/-- What has been read of a date. The day and the month may be missing. -/
structure Fields where
  year : Int
  month : Option Nat
  day : Option Nat
  hour : Nat
  minute : Nat
  second : Nat

def Fields.zero : Fields := ⟨0, none, none, 0, 0, 0⟩

/-- One or two digits, or just two. -/
def getnum : Text → Bool → Option (Nat × Text)
  | [], _ => none
  | [a], fixed => if isDigit a ∧ ¬ fixed then some (a.toNat - 48, []) else none
  | a :: b :: s, fixed =>
      if ¬ isDigit a then none
      else if isDigit b then some ((a.toNat - 48) * 10 + (b.toNat - 48), s)
      else if fixed then none
      else some (a.toNat - 48, b :: s)

def parseStd (value : Text) (f : Fields) : Std → Option (Fields × Text)
  | .longYear =>
      if value.length < 4 then none
      else (parseNat (value.take 4)).map fun year => ({ f with year := year }, value.drop 4)
  | .year =>
      if value.length < 2 then none
      else (parseNat (value.take 2)).map fun year =>
        ({ f with year := if 69 ≤ year then year + 1900 else year + 2000 }, value.drop 2)
  | .month zero => (getnum value zero).bind fun (month, value) =>
      if month = 0 ∨ 12 < month then none else some ({ f with month := some month }, value)
  | .day zero => (getnum value zero).map fun (day, value) => ({ f with day := some day }, value)
  | .hour => (getnum value false).bind fun (hour, value) =>
      if 24 ≤ hour then none else some ({ f with hour := hour }, value)
  | .hour12 zero => (getnum value zero).bind fun (hour, value) =>
      if 12 < hour then none else some ({ f with hour := hour }, value)
  | .minute zero => (getnum value zero).bind fun (minute, value) =>
      if 60 ≤ minute then none else some ({ f with minute := minute }, value)
  | .second zero => (getnum value zero).bind fun (second, value) =>
      if 60 ≤ second then none else some ({ f with second := second }, value)

def parseTokens : List Token → Text → Fields → Option Fields
  | [], value, f => if value = [] then some f else none
  | .literal b :: ts, value, f =>
      match value with
      | [] => none
      | c :: value => if c = b then parseTokens ts value f else none
  | .spaces _ :: ts, value, f =>
      if value ≠ [] ∧ value.head? ≠ some 32 then none
      else parseTokens ts (value.dropWhile (· = 32)) f
  | .std s :: ts, value, f => (parseStd value f s).bind fun (f, value) => parseTokens ts value f

def isLeap (year : Int) : Bool := year % 4 = 0 ∧ (year % 100 ≠ 0 ∨ year % 400 = 0)

def daysIn (month : Nat) (year : Int) : Nat :=
  if month = 2 then if isLeap year then 29 else 28
  else if month ∈ [4, 6, 9, 11] then 30
  else 31

/-- None is an error. -/
def parse (layout value : Text) : Option Fields :=
  (parseTokens (tokens layout) value .zero).bind fun f =>
    let day := f.day.getD 1
    if 1 ≤ day ∧ day ≤ daysIn (f.month.getD 1) f.year then some f else none

theorem pad_digits {width n : Nat} : ∀ b ∈ pad width n, isDigit b := by
  intro b hb
  rw [pad, List.mem_append] at hb
  rcases hb with hb | hb
  · rw [List.eq_of_mem_replicate hb]
    rfl
  · exact isDigit_of_mem hb

theorem le_length_pad (width n : Nat) : width ≤ (pad width n).length := by
  simp only [pad, List.length_append, List.length_replicate]
  omega

theorem length_formatNat_le {n : Nat} (h : n < 100) : (formatNat n).length ≤ 2 := by
  rw [formatNat, List.length_map]
  exact (Nat.length_toDigits_le_iff (by omega) (by omega)).mpr h

/-- A number below a hundred has two digits. -/
theorem pad_two {n : Nat} (h : n < 100) : ∃ a b, pad 2 n = [a, b] ∧ isDigit a ∧ isDigit b := by
  have hlen : (pad 2 n).length = 2 := by
    have hle := length_formatNat_le h
    simp only [pad, List.length_append, List.length_replicate]
    omega
  obtain ⟨a, b, hab⟩ := List.length_eq_two.mp hlen
  have hdigits : ∀ c ∈ pad 2 n, isDigit c := pad_digits
  rw [hab] at hdigits
  exact ⟨a, b, hab, hdigits a (by simp), hdigits b (by simp)⟩

theorem getnum_two {a b : UInt8} (ha : isDigit a) (hb : isDigit b) (s : Text) (fixed : Bool) :
    getnum (a :: b :: s) fixed = some ((a.toNat - 48) * 10 + (b.toNat - 48), s) := by
  simp [getnum, ha, hb]

theorem getnum_not_digit {a : UInt8} (h : ¬ isDigit a) (s : Text) (fixed : Bool) :
    getnum (a :: s) fixed = none := by
  cases s with
  | nil => simp [getnum, h]
  | cons b s => simp [getnum, h]

variable {a b : UInt8} {s : Std} {ts : List Token} {value : Text} {f : Fields}

theorem parseTokens_literal (h : value.head? ≠ some b) : parseTokens (.literal b :: ts) value f = none := by
  cases value with
  | nil => rfl
  | cons c value => exact if_neg fun hc => h (congrArg some hc)

theorem parseTokens_not_digit (h : ¬ isDigit a) (hlong : s ≠ .longYear) (hyear : s ≠ .year) :
    parseTokens (.std s :: ts) (a :: value) f = none := by
  cases s with
  | longYear => exact absurd rfl hlong
  | year => exact absurd rfl hyear
  | _ => simp [parseTokens, parseStd, getnum_not_digit h]

/-- Two digits are a value out of range, or are gone. -/
theorem parseTokens_digits (ha : isDigit a) (hb : isDigit b) (hlong : s ≠ .longYear) (hyear : s ≠ .year) :
    parseTokens (.std s :: ts) (a :: b :: value) f = none ∨
      ∃ f', parseTokens (.std s :: ts) (a :: b :: value) f = parseTokens ts value f' := by
  cases s with
  | longYear => exact absurd rfl hlong
  | year => exact absurd rfl hyear
  | day zero => exact .inr ⟨_, by simp [parseTokens, parseStd, getnum_two ha hb]; rfl⟩
  | month zero =>
      simp only [parseTokens, parseStd, getnum_two ha hb, Option.bind_some]
      split
      · exact .inl rfl
      · exact .inr ⟨_, rfl⟩
  | hour =>
      simp only [parseTokens, parseStd, getnum_two ha hb, Option.bind_some]
      split
      · exact .inl rfl
      · exact .inr ⟨_, rfl⟩
  | hour12 zero =>
      simp only [parseTokens, parseStd, getnum_two ha hb, Option.bind_some]
      split
      · exact .inl rfl
      · exact .inr ⟨_, rfl⟩
  | minute zero =>
      simp only [parseTokens, parseStd, getnum_two ha hb, Option.bind_some]
      split
      · exact .inl rfl
      · exact .inr ⟨_, rfl⟩
  | second zero =>
      simp only [parseTokens, parseStd, getnum_two ha hb, Option.bind_some]
      split
      · exact .inl rfl
      · exact .inr ⟨_, rfl⟩

end Traitor.Lib.TimeLayout
