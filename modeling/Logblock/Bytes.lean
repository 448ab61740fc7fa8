import Mathlib

/-! Fixed-width words and their bytes: two's complement readings of 64 bits, little-endian
fields, base-128 numbers and the IEEE checksum. -/
namespace Logblock
namespace Bytes

/-- The signed 64-bit word congruent to `x`. -/
@[irreducible] def i64 (x : ℤ) : ℤ := (x+2^63)%2^64-2^63

/-- The unsigned 64-bit word congruent to `x`. -/
@[irreducible] def toU64 (x : ℤ) : ℕ := (x%2^64).toNat

theorem i64_of_range {x : ℤ} (h₁ : -2^63 ≤ x) (h₂ : x < 2^63) : i64 x = x := by
  unfold i64
  omega

theorem i64_lt (x : ℤ) : i64 x < 2^63 := by
  unfold i64
  omega

theorem toU64_natCast {n : ℕ} (h : n < 2^64) : toU64 n = n := by
  unfold toU64
  omega

theorem toU64_lt (x : ℤ) : toU64 x < 2^64 := by
  unfold toU64
  omega

@[simp] theorem toU64_i64 (x : ℤ) : toU64 (i64 x) = toU64 x := by
  unfold toU64 i64
  omega

/-- The low `n` bytes of `x`, the least significant first. -/
def leBytes : ℕ → ℕ → List UInt8
  | 0, _ => []
  | n+1, x => UInt8.ofNat x::leBytes n (x/256)

def leNat : List UInt8 → ℕ
  | [] => 0
  | b::bs => b.toNat+256*leNat bs

@[simp] theorem length_leBytes (n x : ℕ) : (leBytes n x).length = n := by
  induction n generalizing x with
  | zero => rfl
  | succ n ih => simp [leBytes,ih]

theorem leNat_leBytes {n x : ℕ} (h : x < 256^n) : leNat (leBytes n x) = x := by
  induction n generalizing x with
  | zero =>
    have : x = 0 := by simpa using h
    simp [leBytes,leNat,this]
  | succ n ih =>
    have hx : x/256 < 256^n := by
      rw [pow_succ] at h
      omega
    rw [leBytes,leNat,ih hx,UInt8.toNat_ofNat']
    omega

theorem leNat_lt (bs : List UInt8) : leNat bs < 256^bs.length := by
  induction bs with
  | nil => simp [leNat]
  | cons b bs ih =>
    have := b.toNat_lt
    rw [leNat,List.length_cons,pow_succ]
    omega

theorem leBytes_append (a b x : ℕ) : leBytes (a+b) x = leBytes a x ++ leBytes b (x/256^a) := by
  induction a generalizing x with
  | zero => simp [leBytes]
  | succ a ih =>
    rw [show a+1+b = (a+b)+1 by omega,leBytes,leBytes,ih,List.cons_append,Nat.div_div_eq_div_mul,
      pow_succ,mul_comm (256^a)]

/-- Base 128, the least significant digit first, with at most `n` continued digits. -/
def uvarintDigits : ℕ → ℕ → List UInt8
  | 0, x => [UInt8.ofNat x]
  | n+1, x =>
    if x < 128 then [UInt8.ofNat x] else UInt8.ofNat (x%128+128)::uvarintDigits n (x/128)

/-- `binary.AppendUvarint` of a 64-bit word. -/
def putUvarint (x : ℕ) : List UInt8 := uvarintDigits 9 x

/-- Failures of `binary.ReadUvarint`. -/
inductive VarintError
  | eof
  | unexpectedEOF
  | overflow
  deriving DecidableEq, Repr

/-- The loop of `binary.ReadUvarint` with `left` digits to go. The digits read so far lie
below bit `s`, so the new one is added in. -/
def readDigits : ℕ → ℕ → ℕ → List UInt8 → Except VarintError (ℕ × List UInt8)
  | 0, _, _, _ => .error .overflow
  | left+1, _, _, [] => .error (if left = 9 then .eof else .unexpectedEOF)
  | left+1, x, s, b::bs =>
    if b.toNat < 128 then
      if left = 0 ∧ b.toNat > 1 then .error .overflow else .ok (x+b.toNat*2^s,bs)
    else readDigits left (x+b.toNat%128*2^s) (s+7) bs

def readUvarint (bs : List UInt8) : Except VarintError (ℕ × List UInt8) := readDigits 10 0 0 bs

@[simp] theorem readUvarint_nil : readUvarint [] = .error .eof := rfl

theorem readDigits_uvarintDigits (n x y s : ℕ) (rest : List UInt8) (hy : y < 2*128^n) :
    readDigits (n+1) x s (uvarintDigits n y++rest) = .ok (x+y*2^s,rest) := by
  induction n generalizing x y s with
  | zero =>
    have hy : y < 2 := by simpa using hy
    have hb : (UInt8.ofNat y).toNat = y := by rw [UInt8.toNat_ofNat']; omega
    rw [uvarintDigits,List.singleton_append,readDigits,hb,if_pos (by omega),if_neg (by omega)]
  | succ n ih =>
    rw [uvarintDigits]
    by_cases h : y < 128
    · have hb : (UInt8.ofNat y).toNat = y := by rw [UInt8.toNat_ofNat']; omega
      rw [if_pos h,List.singleton_append,readDigits,hb,if_pos h,if_neg (by omega)]
    · have hb : (UInt8.ofNat (y%128+128)).toNat = y%128+128 := by
        rw [UInt8.toNat_ofNat']
        omega
      have hy' : y/128 < 2*128^n := by
        rw [pow_succ] at hy
        omega
      rw [if_neg h,List.cons_append,readDigits,hb,if_neg (by omega),ih _ _ _ hy',pow_add]
      have : (y%128+128)%128*2^s+y/128*(2^s*2^7) = y*2^s := by
        rw [show (y%128+128)%128 = y%128 by omega,mul_comm (2^s) (2^7),← mul_assoc,← add_mul]
        congr 1
        omega
      rw [add_assoc,this]

/-- A 64-bit number is read back, and nothing after it is consumed. -/
theorem readUvarint_putUvarint {x : ℕ} (h : x < 2^64) (rest : List UInt8) :
    readUvarint (putUvarint x++rest) = .ok (x,rest) := by
  simpa [readUvarint,putUvarint] using readDigits_uvarintDigits 9 0 x 0 rest (by omega)

theorem readDigits_shorter {n x s y : ℕ} {bs rest : List UInt8}
    (h : readDigits n x s bs = .ok (y,rest)) : rest.length < bs.length := by
  induction n generalizing x s bs with
  | zero => simp [readDigits] at h
  | succ n ih =>
    cases bs with
    | nil => simp [readDigits] at h
    | cons b bs =>
      rw [readDigits] at h
      split_ifs at h with h₁ h₂
      · have := (Prod.mk.inj (Except.ok.inj h)).2
        simp [this]
      · have := ih h
        rw [List.length_cons]
        omega

theorem readUvarint_shorter {x : ℕ} {bs rest : List UInt8}
    (h : readUvarint bs = .ok (x,rest)) : rest.length < bs.length :=
  readDigits_shorter h

theorem length_uvarintDigits_pos (n x : ℕ) : 0 < (uvarintDigits n x).length := by
  cases n <;> rw [uvarintDigits]
  · simp
  · split_ifs <;> simp

/-- One bit of the reflected division by the IEEE polynomial. -/
def crcShift (c : ℕ) : ℕ := if c%2 = 1 then (c/2) ^^^ 0xEDB88320 else c/2

def crcByte (c : ℕ) (b : UInt8) : ℕ := crcShift^[8] (c ^^^ b.toNat)

/-- The running register of the checksum after more bytes. -/
def crcUpdate (c : ℕ) (bs : List UInt8) : ℕ := bs.foldl crcByte c

def crcInit : ℕ := 0xFFFFFFFF

def crcSum (c : ℕ) : ℕ := c ^^^ 0xFFFFFFFF

def crc32 (bs : List UInt8) : ℕ := crcSum (crcUpdate crcInit bs)

theorem crcUpdate_append (c : ℕ) (bs bs' : List UInt8) :
    crcUpdate c (bs++bs') = crcUpdate (crcUpdate c bs) bs' := List.foldl_append ..

theorem crcShift_lt {c : ℕ} (h : c < 2^32) : crcShift c < 2^32 := by
  unfold crcShift
  split_ifs
  · exact Nat.xor_lt_two_pow (by omega) (by norm_num)
  · omega

theorem crcUpdate_lt (bs : List UInt8) {c : ℕ} (h : c < 2^32) : crcUpdate c bs < 2^32 := by
  induction bs generalizing c with
  | nil => exact h
  | cons b bs ih =>
    refine ih (c := crcByte c b) ?_
    have hx : c ^^^ b.toNat < 2^32 :=
      Nat.xor_lt_two_pow h (b.toNat_lt.trans (by norm_num))
    have hiter : ∀ n x, x < 2^32 → crcShift^[n] x < 2^32 := by
      intro n
      induction n with
      | zero => exact fun x hx => hx
      | succ n ih => exact fun x hx => ih _ (crcShift_lt hx)
    exact hiter 8 _ hx

theorem crc32_lt (bs : List UInt8) : crc32 bs < 2^32 :=
  Nat.xor_lt_two_pow (crcUpdate_lt bs (by norm_num [crcInit])) (by norm_num)

end Bytes
end Logblock
