import Mathlib

/-! Byte streams: random access to the bytes of a file, sequential reading through a bounded
buffer, and appending to a file whose writes may fail part way. -/
namespace Logblock

/-- The errors of the standard library, those of a device, and those of `errors.New`. -/
inductive Error
  | eof
  | unexpectedEOF
  | bufferFull
  | negativeCount
  | negativeOffset
  | overflow
  | device
  | new (msg : String)
  deriving DecidableEq, Repr

namespace ByteStream

/-- `io.ReaderAt` of a file: the bytes that are there, with an error if some are missing. -/
def readAt (file : List UInt8) (off : ℤ) (n : ℕ) : List UInt8 × Option Error :=
  if off < 0 then ([],some .negativeOffset)
  else
    let bs := (file.drop off.toNat).take n
    (bs,if bs.length < n then some .eof else none)

theorem readAt_of_le {file : List UInt8} {off n : ℕ} (h : off+n ≤ file.length) :
    readAt file off n = ((file.drop off).take n,none) := by
  have hl : ((file.drop off).take n).length = n := by simp; omega
  simp [readAt,hl]

/-- A section of a file. -/
theorem readAt_section (pre bs post : List UInt8) :
    readAt (pre++(bs++post)) pre.length bs.length = (bs,none) := by
  rw [readAt_of_le (by simp),List.drop_left' rfl,List.take_left' rfl]

theorem readAt_eq_ok {file bs : List UInt8} {off : ℤ} {n : ℕ} (h : readAt file off n = (bs,none)) :
    0 ≤ off ∧ bs = (file.drop off.toNat).take n ∧ bs.length = n := by
  unfold readAt at h
  by_cases hoff : off < 0
  · rw [if_pos hoff] at h
    cases h
  · simp only [if_neg hoff,Prod.mk.injEq,ite_eq_right_iff,reduceCtorEq,imp_false,not_lt] at h
    obtain ⟨rfl,hlen⟩ := h
    have := List.length_take_le n (file.drop off.toNat)
    exact ⟨by omega,rfl,by omega⟩

/-- What was read once is read again when the file has grown. -/
theorem readAt_append {file bs : List UInt8} {off : ℤ} {n : ℕ} (h : readAt file off n = (bs,none))
    (more : List UInt8) : readAt (file++more) off n = (bs,none) := by
  obtain ⟨hoff,rfl,hlen⟩ := readAt_eq_ok h
  have hle : n ≤ (file.drop off.toNat).length := by
    rw [List.length_take] at hlen
    omega
  have htake : ((file++more).drop off.toNat).take n = (file.drop off.toNat).take n := by
    rw [List.drop_append,List.take_append_of_le_length hle]
  simp only [readAt,if_neg (not_lt.mpr hoff),htake,hlen,lt_irrefl,if_false]

/-- The buffer of a `bufio.Reader`. -/
def bufSize : ℕ := 64*1024

/-- `bufio.Reader.Peek` when the unread bytes of the source are `rest`. -/
def peek (rest : List UInt8) (n : ℕ) : List UInt8 × Option Error :=
  if bufSize < n then (rest.take bufSize,some .bufferFull)
  else (rest.take n,if rest.length < n then some .eof else none)

theorem peek_of_le {rest : List UInt8} {n : ℕ} (hn : n ≤ bufSize) (h : n ≤ rest.length) :
    peek rest n = (rest.take n,none) := by
  rw [peek,if_neg (by omega),if_neg (by omega)]

theorem peek_of_lt {rest : List UInt8} {n : ℕ} (hn : n ≤ bufSize) (h : rest.length < n) :
    peek rest n = (rest,some .eof) := by
  rw [peek,if_neg (by omega),if_pos h,List.take_of_length_le h.le]

theorem peek_append {bs : List UInt8} {n : ℕ} (hlen : bs.length = n) (hn : n ≤ bufSize)
    (tail : List UInt8) : peek (bs++tail) n = (bs,none) := by
  rw [peek_of_le hn (by rw [List.length_append]; omega),List.take_left' hlen]

end ByteStream

/-- A file, which never grows to the largest file offset. -/
structure File where
  bytes : List UInt8
  small : bytes.length < 2^63

namespace File

def empty : File := ⟨[],by simp⟩

/-- The bytes of a write of `len` bytes that reach the file. A fault `some k` lets the
device fail once it holds `k` bytes; a write that ends before passes the rest on. -/
def persisted (f : File) (len : ℕ) (fault : Option ℕ) : ℕ :=
  min (min len (fault.getD len)) (2^63-1-f.bytes.length)

theorem persisted_le (f : File) (len : ℕ) (fault : Option ℕ) : f.persisted len fault ≤ len := by
  unfold persisted
  omega

def grow (f : File) (bs : List UInt8) (fault : Option ℕ) : File where
  bytes := f.bytes++bs.take (f.persisted bs.length fault)
  small := by
    have := f.small
    simp only [List.length_append,List.length_take,persisted]
    omega

/-- Whether the write of `len` bytes reports an error. A write of no bytes is none. -/
def fails (f : File) (len : ℕ) (fault : Option ℕ) : Bool :=
  0 < len && (fault.any (· ≤ len) || 2^63-1-f.bytes.length < len)

/-- `io.Writer` of a file. -/
def write (f : File) (bs : List UInt8) (fault : Option ℕ) : File × ℕ × Option Error :=
  (f.grow bs fault,f.persisted bs.length fault,if f.fails bs.length fault then some .device else none)

/-- Writes one after the other until one fails. -/
def writeMany (f : File) (fault : Option ℕ) : List (List UInt8) → File × ℕ × Option Error
  | [] => (f,0,none)
  | bs::bss =>
    match f.write bs fault with
    | (f',n,some e) => (f',n,some e)
    | (f',n,none) =>
      let (f'',n',e) := f'.writeMany (fault.map (·-n)) bss
      (f'',n+n',e)

@[ext] theorem ext {f g : File} (h : f.bytes = g.bytes) : f = g := by
  cases f
  cases g
  simpa using h

@[simp] theorem grow_bytes (f : File) (bs : List UInt8) (fault : Option ℕ) :
    (f.grow bs fault).bytes = f.bytes++bs.take (f.persisted bs.length fault) := rfl

theorem not_fails {f : File} {len : ℕ} {fault : Option ℕ} (h : f.fails len fault = false) :
    f.persisted len fault = len := by
  cases fault with
  | none =>
    simp only [fails,Option.any_none,Bool.false_or,Bool.and_eq_false_iff,decide_eq_false_iff_not] at h
    simp only [persisted,Option.getD_none]
    omega
  | some k =>
    simp only [fails,Option.any_some,Bool.and_eq_false_iff,Bool.or_eq_false_iff,
      decide_eq_false_iff_not] at h
    simp only [persisted,Option.getD_some]
    omega

/-- A device without a fault takes what fits into the file. -/
theorem fails_none {f : File} {len : ℕ} (h : f.bytes.length+len < 2^63) :
    f.fails len none = false := by
  simp only [fails,Option.any_none,Bool.false_or,Bool.and_eq_false_iff,decide_eq_false_iff_not]
  omega

theorem persisted_lt {f : File} {len : ℕ} (h : f.fails len none = true) :
    f.persisted len none < len := by
  simp only [fails,Option.any_none,Bool.false_or,Bool.and_eq_true,decide_eq_true_eq] at h
  simp only [persisted,Option.getD_none]
  omega

theorem persisted_le_fault (f : File) (len k : ℕ) : f.persisted len (some k) ≤ k := by
  simp only [persisted,Option.getD_some]
  omega

theorem fails_of_le {f : File} {len k : ℕ} (hlen : 0 < len) (hk : k ≤ len) :
    f.fails len (some k) = true := by
  simp [fails,hlen,hk]

section Append

variable (f : File) (bs : List UInt8) (b : ℕ) {fault : Option ℕ}

theorem persisted_add_of_fails (h : f.fails bs.length fault = true) :
    f.persisted (bs.length+b) fault = f.persisted bs.length fault ∧
      f.fails (bs.length+b) fault = true := by
  cases fault with
  | none => simp [fails,persisted] at h ⊢; omega
  | some k => simp [fails,persisted] at h ⊢; omega

theorem persisted_add_of_not_fails (h : f.fails bs.length fault = false) :
    f.persisted (bs.length+b) fault =
        bs.length+(f.grow bs fault).persisted b (fault.map (·-bs.length)) ∧
      f.fails (bs.length+b) fault = (f.grow bs fault).fails b (fault.map (·-bs.length)) := by
  have hp := not_fails h
  have hlen : (f.grow bs fault).bytes.length = f.bytes.length+bs.length := by simp [hp]
  have hsmall := f.small
  cases fault with
  | none =>
    rw [Bool.eq_iff_iff]
    simp [fails,persisted,hlen,-grow_bytes] at h ⊢
    omega
  | some k =>
    rw [Bool.eq_iff_iff]
    simp [fails,persisted,hlen,-grow_bytes] at h hp ⊢
    omega

end Append

/-- Two writes in a row leave what one write of both leaves. -/
theorem write_append (f : File) (bs bs' : List UInt8) (fault : Option ℕ) :
    f.write (bs++bs') fault = match f.write bs fault with
      | (f',n,some e) => (f',n,some e)
      | (f',n,none) =>
        ((f'.write bs' (fault.map (·-n))).1,n+(f'.write bs' (fault.map (·-n))).2.1,
          (f'.write bs' (fault.map (·-n))).2.2) := by
  cases hf : f.fails bs.length fault with
  | true =>
    obtain ⟨hp,hff⟩ := persisted_add_of_fails f bs bs'.length hf
    have hle := f.persisted_le bs.length fault
    have hg : f.grow (bs++bs') fault = f.grow bs fault := by
      ext1
      rw [grow_bytes,grow_bytes,List.length_append,hp,List.take_append_of_le_length hle]
    simp only [write,hf,if_true,List.length_append,hp,hff,hg]
  | false =>
    obtain ⟨hp,hff⟩ := persisted_add_of_not_fails f bs bs'.length hf
    have hall := not_fails hf
    have hg : f.grow (bs++bs') fault = (f.grow bs fault).grow bs' (fault.map (·-bs.length)) := by
      ext1
      rw [grow_bytes,grow_bytes,grow_bytes,List.length_append,hp,hall,List.take_length_add_append,
        List.take_length,List.append_assoc]
    simp only [write,hf,Bool.false_eq_true,if_false,List.length_append,hall,hp,hff,hg]

theorem write_nil (f : File) (fault : Option ℕ) : f.write [] fault = (f,0,none) := by
  have h : f.grow [] fault = f := by ext1; simp
  simp [write,h,fails,persisted]

theorem writeMany_eq (f : File) (fault : Option ℕ) (bss : List (List UInt8)) :
    f.writeMany fault bss = f.write bss.flatten fault := by
  induction bss generalizing f fault with
  | nil => rw [writeMany,List.flatten_nil,write_nil]
  | cons bs bss ih =>
    rw [writeMany,List.flatten_cons,write_append]
    rcases h : f.write bs fault with ⟨f',n,e⟩
    cases e with
    | none => simp only [ih]
    | some e => rfl

end File
end Logblock
