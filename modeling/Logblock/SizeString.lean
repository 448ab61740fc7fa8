import Logblock.Stream

/-! The size option of the command line: a decimal without leading zero and a unit, as 64 bits. -/
namespace Logblock
namespace SizeString

def errInvalidSizeString : Error := .new "invalid size string"

inductive SizeUnit
  | M
  | G
  | T
  | P
  deriving DecidableEq

def SizeUnit.char : SizeUnit → UInt8
  | .M => 'M'.toUInt8
  | .G => 'G'.toUInt8
  | .T => 'T'.toUInt8
  | .P => 'P'.toUInt8

def SizeUnit.factor : SizeUnit → ℕ
  | .M => 2^20
  | .G => 2^30
  | .T => 2^40
  | .P => 2^50

def unitOf (c : UInt8) : Option SizeUnit := [.M,.G,.T,.P].find? fun u => u.char = c

def isDigit (c : UInt8) : Bool := '0'.toUInt8 ≤ c ∧ c ≤ '9'.toUInt8

/-- `sizePattern.FindStringSubmatch`: the groups of `^([1-9][0-9]*)([MGTP])?$`. -/
def findStringSubmatch (str : List UInt8) : Option (List UInt8 × Option SizeUnit) :=
  match str.takeWhile isDigit with
  | [] => none
  | d::ds =>
    if d = '0'.toUInt8 then none
    else
      match str.dropWhile isDigit with
      | [] => some (d::ds,none)
      | [c] => (unitOf c).map fun u => (d::ds,some u)
      | _ => none

/-- The loop of `strconv.ParseUint` in base 10 with 64 bits; none if the number is out of range. -/
def parseUint : List UInt8 → ℕ → Option ℕ
  | [], n => some n
  | c::cs, n =>
    if (2^64-1)/10+1 ≤ n then none
    else
      let n₁ := (n*10+(c.toNat - '0'.toNat))%2^64
      if n₁ < n*10 then none else parseUint cs n₁

def parseSizeString (str : List UInt8) : Except Error ℕ :=
  if str = ['0'.toUInt8] then .ok 0
  else
    match findStringSubmatch str with
    | none => .error errInvalidSizeString
    | some (digits,unit) =>
      match parseUint digits 0 with
      | none => .error errInvalidSizeString
      | some size =>
        match unit with
        | none => .ok size
        | some u => .ok (size*u.factor%2^64)

/-- A decimal without leading zero. -/
def IsDecimal (digits : List UInt8) : Prop :=
  (∀ c ∈ digits, isDigit c) ∧ ∃ d ds, digits = d::ds ∧ d ≠ '0'.toUInt8

def decimal (digits : List UInt8) : ℕ := digits.foldl (fun n c => n*10+(c.toNat - '0'.toNat)) 0

def unitText : Option SizeUnit → List UInt8
  | none => []
  | some u => [u.char]

def unitFactor : Option SizeUnit → ℕ
  | none => 1
  | some u => u.factor

/-- The string denotes the size `v`. -/
def IsSize (str : List UInt8) (v : ℕ) : Prop :=
  (str = ['0'.toUInt8] ∧ v = 0) ∨
  ∃ digits unit, str = digits++unitText unit ∧ IsDecimal digits ∧ v = decimal digits*unitFactor unit

theorem unitOf_eq_some {c : UInt8} {u : SizeUnit} : unitOf c = some u ↔ c = u.char := by
  constructor
  · intro h
    have := List.find?_some h
    simpa [eq_comm] using this
  · rintro rfl
    cases u <;> decide

theorem not_isDigit_unit (u : SizeUnit) : isDigit u.char = false := by
  cases u <;> decide

/-- The groups of a match put together are the string. -/
theorem findStringSubmatch_eq_some {str digits : List UInt8} {unit : Option SizeUnit} :
    findStringSubmatch str = some (digits,unit) ↔
      str = digits++unitText unit ∧ IsDecimal digits := by
  constructor
  · intro h
    have hsplit := List.takeWhile_append_dropWhile (p := isDigit) (l := str)
    have hall : ∀ c ∈ str.takeWhile isDigit, isDigit c := fun c hc => by
      simpa using List.mem_takeWhile_imp hc
    rw [findStringSubmatch] at h
    generalize str.takeWhile isDigit = ds at h hsplit hall
    generalize str.dropWhile isDigit = rest at h hsplit
    cases ds with
    | nil => cases h
    | cons d ds =>
      simp only at h
      split_ifs at h with hzero
      have hdec : IsDecimal (d::ds) := ⟨hall,d,ds,rfl,hzero⟩
      match rest, h with
      | [], h =>
        cases h
        exact ⟨hsplit.symm,hdec⟩
      | [c], h =>
        obtain ⟨u,hu,heq⟩ := Option.map_eq_some_iff.mp h
        cases heq
        rw [unitOf_eq_some] at hu
        exact ⟨by rw [← hsplit,hu]; rfl,hdec⟩
  · rintro ⟨rfl,hall,d,ds,rfl,hzero⟩
    have htake : (d::ds++unitText unit).takeWhile isDigit = d::ds := by
      rw [List.takeWhile_append_of_pos hall]
      cases unit with
      | none => simp [unitText]
      | some u => simp [unitText,not_isDigit_unit]
    have hdrop : (d::ds++unitText unit).dropWhile isDigit = unitText unit := by
      rw [List.dropWhile_append_of_pos hall]
      cases unit with
      | none => rfl
      | some u => simp [unitText,not_isDigit_unit]
    rw [findStringSubmatch,htake,hdrop]
    simp only [if_neg hzero]
    cases unit with
    | none => rfl
    | some u => simp only [unitText,unitOf_eq_some.mpr rfl,Option.map_some]

theorem le_foldl_decimal (digits : List UInt8) (n : ℕ) :
    n ≤ digits.foldl (fun n c => n*10+(c.toNat - '0'.toNat)) n := by
  induction digits generalizing n with
  | nil => exact le_rfl
  | cons c cs ih =>
    have := ih (n*10+(c.toNat - '0'.toNat))
    rw [List.foldl_cons]
    omega

/-- The checks for overflow of `strconv.ParseUint` are exact. -/
theorem parseUint_eq {digits : List UInt8} (hall : ∀ c ∈ digits, isDigit c) {n : ℕ}
    (hn : n < 2^64) : parseUint digits n =
      if digits.foldl (fun n c => n*10+(c.toNat - '0'.toNat)) n < 2^64
      then some (digits.foldl (fun n c => n*10+(c.toNat - '0'.toNat)) n) else none := by
  induction digits generalizing n with
  | nil => rw [parseUint,List.foldl_nil,if_pos hn]
  | cons c cs ih =>
    have hc : c.toNat - '0'.toNat ≤ 9 := by
      have := hall c List.mem_cons_self
      simp only [isDigit,decide_eq_true_eq,UInt8.le_iff_toNat_le] at this
      have h₁ : '0'.toUInt8.toNat = 48 := by decide
      have h₂ : '9'.toUInt8.toNat = 57 := by decide
      have h₃ : '0'.toNat = 48 := by decide
      omega
    have hle := le_foldl_decimal cs (n*10+(c.toNat - '0'.toNat))
    rw [parseUint,List.foldl_cons]
    generalize hm : n*10+(c.toNat - '0'.toNat) = m at hle ⊢
    by_cases hbig : (2^64-1)/10+1 ≤ n
    · rw [if_pos hbig,if_neg (by omega)]
    · rw [if_neg hbig]
      by_cases hm' : m < 2^64
      · rw [Nat.mod_eq_of_lt hm']
        simp only
        rw [if_neg (by omega)]
        exact ih (fun c' hc' => hall c' (List.mem_cons_of_mem c hc')) hm'
      · simp only
        rw [if_pos (by omega),if_neg (by omega)]

theorem parseUint_decimal {digits : List UInt8} (h : IsDecimal digits) :
    parseUint digits 0 = if decimal digits < 2^64 then some (decimal digits) else none :=
  parseUint_eq h.1 (by norm_num)

/-- A string has one reading only. -/
theorem parseSizeString_of_decimal {digits : List UInt8} (unit : Option SizeUnit)
    (h : IsDecimal digits) : parseSizeString (digits++unitText unit) =
      if decimal digits < 2^64 then .ok (decimal digits*unitFactor unit%2^64)
      else .error errInvalidSizeString := by
  have hzero : digits++unitText unit ≠ ['0'.toUInt8] := by
    intro heq
    obtain ⟨_,d,ds,rfl,hne⟩ := h
    exact hne (List.cons.inj heq).1
  rw [parseSizeString,if_neg hzero,findStringSubmatch_eq_some.mpr ⟨rfl,h⟩]
  simp only [parseUint_decimal h]
  split_ifs with hlt
  · cases unit with
    | none => simp only [unitFactor,Nat.mul_one,Nat.mod_eq_of_lt hlt]
    | some u => rfl
  · rfl

theorem parseSizeString_of_not {str : List UInt8} (h : ∀ v, ¬IsSize str v) :
    parseSizeString str = .error errInvalidSizeString := by
  have hzero : str ≠ ['0'.toUInt8] := fun heq => h 0 (.inl ⟨heq,rfl⟩)
  have hnone : findStringSubmatch str = none := by
    refine Option.eq_none_iff_forall_ne_some.mpr fun ⟨digits,unit⟩ hsome => ?_
    obtain ⟨rfl,hdec⟩ := findStringSubmatch_eq_some.mp hsome
    exact h _ (.inr ⟨digits,unit,rfl,hdec,rfl⟩)
  rw [parseSizeString,if_neg hzero,hnone]

/-- The string is parsed to its value, or refused if it has none below `2^64`. -/
def ParsesRight (str : List UInt8) : Prop :=
  (∀ v, IsSize str v → v < 2^64 → parseSizeString str = .ok v) ∧
  ((¬∃ v, IsSize str v ∧ v < 2^64) → parseSizeString str = .error errInvalidSizeString)

/-- The decimal fits 64 bits, but not the product with its unit. -/
def ProductOverflows (str : List UInt8) : Prop :=
  ∃ digits unit, str = digits++unitText unit ∧ IsDecimal digits ∧ decimal digits < 2^64 ∧
    2^64 ≤ decimal digits*unitFactor unit

theorem unitFactor_pos (unit : Option SizeUnit) : 0 < unitFactor unit := by
  rcases unit with _ | u
  · exact Nat.one_pos
  · cases u <;> simp [unitFactor,SizeUnit.factor]

theorem parsesRight_iff (str : List UInt8) : ParsesRight str ↔ ¬ProductOverflows str := by
  constructor
  · rintro ⟨_,hrefuse⟩ ⟨digits,unit,rfl,hdec,hlt,hge⟩
    have hnone : ¬∃ v, IsSize (digits++unitText unit) v ∧ v < 2^64 := by
      rintro ⟨v,hzero | ⟨digits',unit',heq,hdec',rfl⟩,hv⟩
      · obtain ⟨_,d,ds,rfl,hne⟩ := hdec
        exact hne (List.cons.inj hzero.1).1
      · have hsame := findStringSubmatch_eq_some.mpr ⟨heq,hdec'⟩
        rw [findStringSubmatch_eq_some.mpr ⟨rfl,hdec⟩] at hsame
        cases hsame
        omega
    have herr := hrefuse hnone
    rw [parseSizeString_of_decimal unit hdec,if_pos hlt] at herr
    cases herr
  · intro hno
    refine ⟨fun v hsize hv => ?_,fun hnone => ?_⟩
    · rcases hsize with ⟨rfl,rfl⟩ | ⟨digits,unit,rfl,hdec,rfl⟩
      · rfl
      · have hlt : decimal digits < 2^64 :=
          (Nat.le_mul_of_pos_right _ (unitFactor_pos unit)).trans_lt hv
        rw [parseSizeString_of_decimal unit hdec,if_pos hlt,Nat.mod_eq_of_lt hv]
    · by_cases hany : ∃ v, IsSize str v
      · obtain ⟨v,⟨rfl,rfl⟩ | ⟨digits,unit,rfl,hdec,rfl⟩⟩ := hany
        · exact absurd ⟨0,.inl ⟨rfl,rfl⟩,by norm_num⟩ hnone
        · have hge : ¬decimal digits < 2^64 := by
            intro hlt
            have hbig : ¬decimal digits*unitFactor unit < 2^64 := fun hv =>
              hnone ⟨_,.inr ⟨digits,unit,rfl,hdec,rfl⟩,hv⟩
            exact hno ⟨digits,unit,rfl,hdec,hlt,Nat.le_of_not_lt hbig⟩
          rw [parseSizeString_of_decimal unit hdec,if_neg hge]
      · exact parseSizeString_of_not fun v hv => hany ⟨v,hv⟩

def sixteenExbibytes : List UInt8 := ['1','6','3','8','4','P'].map Char.toUInt8

/-- The text `16384P` is read as zero. -/
theorem sixteenExbibytes_is_zero :
    IsSize sixteenExbibytes (2^64) ∧ parseSizeString sixteenExbibytes = .ok 0 := by
  have hdec : IsDecimal (['1','6','3','8','4'].map Char.toUInt8) :=
    ⟨by decide +kernel,'1'.toUInt8,['6','3','8','4'].map Char.toUInt8,rfl,by decide⟩
  have hstr : sixteenExbibytes = ['1','6','3','8','4'].map Char.toUInt8++unitText (some .P) := by decide
  have hval : decimal (['1','6','3','8','4'].map Char.toUInt8) = 16384 := by decide
  constructor
  · exact Or.inr ⟨_,some .P,hstr,hdec,by rw [hval,unitFactor,SizeUnit.factor]; norm_num⟩
  · rw [hstr,parseSizeString_of_decimal _ hdec,hval,unitFactor,SizeUnit.factor,
      if_pos (by norm_num)]
    norm_num

end SizeString
end Logblock
