import Mathlib
import Logblock.Metadata

/-! The names of the data files. A table is named by its sequence number, which is read back from
the name when the device is opened; a log has a random number. -/
namespace Logblock
namespace FileNames

def sparseblockExt : String := ".sparseblock"

/-- `strconv.FormatUint` in base 10, and the extension. -/
def tableName (seq : ℕ) : String := Nat.repr seq++sparseblockExt

/-- `fmt.Sprintf("wal-%08d", n)`. -/
def logName (n : ℕ) : String := "wal-" ++ String.ofList ((Nat.toDigits 10 n).leftpad 8 '0')

/-- `strconv.ParseUint` in base 10 for 64 bits. -/
def parseUint (s : List Char) : Option ℕ :=
  if s = [] ∨ s.all Char.isDigit = false then none
  else if Nat.ofDigitChars 10 s 0 < 2^64 then some (Nat.ofDigitChars 10 s 0)
  else none

/-- The number before the first dot of a name. -/
def tableSeq (name : String) : Option ℕ := parseUint (name.toList.takeWhile (· ≠ '.'))

theorem toList_tableName (seq : ℕ) :
    (tableName seq).toList = Nat.toDigits 10 seq ++ '.' :: "sparseblock".toList := by
  rw [tableName,String.toList_append,Nat.repr_eq_ofList_toDigits,String.toList_ofList]
  rfl

theorem isDigit_of_mem {seq : ℕ} {c : Char} (h : c ∈ Nat.toDigits 10 seq) : c.isDigit = true :=
  Nat.isDigit_of_mem_toDigits (by decide) (by decide) h

theorem takeWhile_tableName (seq : ℕ) :
    (tableName seq).toList.takeWhile (· ≠ '.') = Nat.toDigits 10 seq := by
  rw [toList_tableName,List.takeWhile_append_of_pos]
  · simp
  · intro c hc
    refine decide_eq_true ?_
    rintro rfl
    exact absurd (isDigit_of_mem hc) (by decide)

theorem tableSeq_tableName {seq : ℕ} (h : seq < 2^64) : tableSeq (tableName seq) = some seq := by
  have hdigits : ¬(Nat.toDigits 10 seq = [] ∨ (Nat.toDigits 10 seq).all Char.isDigit = false) := by
    rintro (hnil | hall)
    · exact Nat.toDigits_ne_nil hnil
    · rw [List.all_eq_true.mpr fun c hc => isDigit_of_mem hc] at hall
      cases hall
  rw [tableSeq,takeWhile_tableName,parseUint,if_neg hdigits,Nat.ofDigitChars_ten_toDigits,if_pos h]

theorem tableName_inj {m n : ℕ} (h : tableName m = tableName n) : m = n := by
  have hdigits := takeWhile_tableName m
  rw [h,takeWhile_tableName] at hdigits
  rw [← Nat.ofDigitChars_ten_toDigits (n := m),← hdigits,Nat.ofDigitChars_ten_toDigits]

/-- The name of a log starts with a letter. -/
theorem logName_ne_tableName (n seq : ℕ) : logName n ≠ tableName seq := by
  intro h
  have hlist := congrArg String.toList h
  rw [toList_tableName,logName,String.toList_append] at hlist
  cases hdigits : Nat.toDigits 10 seq with
  | nil => exact Nat.toDigits_ne_nil hdigits
  | cons c cs =>
    have hc : c ∈ Nat.toDigits 10 seq := hdigits ▸ List.mem_cons_self
    rw [hdigits] at hlist
    obtain rfl : 'w' = c := (List.cons.inj hlist).1
    exact absurd (isDigit_of_mem hc) (by decide)

example : logName 42 = "wal-00000042" := by decide

end FileNames
end Logblock
