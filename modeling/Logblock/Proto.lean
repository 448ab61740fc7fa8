import Logblock.Bytes

/-! Wire format of messages whose fields are all numbers: a field is its number and its
value in base 128, and a field that holds zero is left out. -/
namespace Logblock
namespace Proto

open Bytes

def encodeField (num v : ℕ) : List UInt8 :=
  if v = 0 then [] else putUvarint (8*num)++putUvarint v

/-- The fields `num`, `num+1`, … of a message. -/
def encodeFrom : ℕ → List ℕ → List UInt8
  | _, [] => []
  | num, v::vs => encodeField num v++encodeFrom (num+1) vs

def encode (vs : List ℕ) : List UInt8 := encodeFrom 1 vs

/-- The fields of a message, as they stand in it. -/
def parse : ℕ → List UInt8 → Option (List (ℕ × ℕ))
  | _, [] => some []
  | 0, _ => none
  | fuel+1, bs =>
    match readUvarint bs with
    | .error _ => none
    | .ok (tag,bs') =>
      if tag%8 = 0 then
        match readUvarint bs' with
        | .error _ => none
        | .ok (v,bs'') => (parse fuel bs'').map ((tag/8,v)::·)
      else none

/-- The value of a field: the last one given, zero if there is none. -/
def field (fs : List (ℕ × ℕ)) (num : ℕ) : ℕ := fs.foldl (fun v f => if f.1 = num then f.2 else v) 0

/-- The fields that are sent. -/
def sent : ℕ → List ℕ → List (ℕ × ℕ)
  | _, [] => []
  | num, v::vs => if v = 0 then sent (num+1) vs else (num,v)::sent (num+1) vs

theorem sent_ge {num : ℕ} {vs : List ℕ} : ∀ f ∈ sent num vs, num ≤ f.1 := by
  induction vs generalizing num with
  | nil => simp [sent]
  | cons v vs ih =>
    intro f hf
    rw [sent] at hf
    split_ifs at hf
    · have := ih f hf
      omega
    · rcases List.mem_cons.mp hf with rfl | hf
      · exact le_rfl
      · have := ih f hf
        omega

theorem foldl_sent (k num v₀ : ℕ) (vs : List ℕ) (hk : num ≤ k) :
    (sent num vs).foldl (fun v f => if f.1 = k then f.2 else v) v₀ =
      if vs.getD (k-num) 0 = 0 then v₀ else vs.getD (k-num) 0 := by
  induction vs generalizing num v₀ with
  | nil => simp [sent]
  | cons v vs ih =>
    rcases Nat.eq_or_lt_of_le hk with rfl | hlt
    · -- the fields behind have other numbers
      have hrest : ∀ u, (sent (num+1) vs).foldl (fun v f => if f.1 = num then f.2 else v) u = u := by
        intro u
        have hne : ∀ f ∈ sent (num+1) vs, f.1 ≠ num := fun f hf => by
          have := sent_ge f hf
          omega
        generalize sent (num+1) vs = fs at hne
        induction fs with
        | nil => rfl
        | cons f fs ih =>
          rw [List.foldl_cons,if_neg (hne f List.mem_cons_self)]
          exact ih fun f' hf' => hne f' (List.mem_cons_of_mem f hf')
      by_cases hv : v = 0
      · simp [sent,hv,hrest]
      · simp [sent,hv,hrest]
    · obtain ⟨d,rfl⟩ := Nat.exists_eq_add_of_lt hlt
      have hsub : num+d+1-num = d+1 := by omega
      have hsub' : num+d+1-(num+1) = d := by omega
      have hone := fun u => ih (num+1) u (by omega)
      rw [hsub'] at hone
      rw [hsub,List.getD_cons_succ]
      by_cases hv : v = 0
      · simp only [sent,hv,if_true]
        exact hone v₀
      · simp only [sent,hv,if_false,List.foldl_cons]
        rw [if_neg (by omega)]
        exact hone v₀

/-- A field is read back, also where it is left out. -/
theorem field_sent (vs : List ℕ) (i : ℕ) : field (sent 1 vs) (i+1) = vs.getD i 0 := by
  rw [field,foldl_sent _ _ _ _ (Nat.le_add_left 1 i),Nat.add_sub_cancel]
  split_ifs with h
  · exact h.symm
  · rfl

theorem length_putUvarint_pos (x : ℕ) : 0 < (putUvarint x).length := length_uvarintDigits_pos 9 x

theorem parse_encodeFrom {num : ℕ} {vs : List ℕ} (hnum : 8*(num+vs.length) < 2^64)
    (hvs : ∀ v ∈ vs, v < 2^64) (fuel : ℕ) (hfuel : (encodeFrom num vs).length ≤ fuel) :
    parse fuel (encodeFrom num vs) = some (sent num vs) := by
  induction vs generalizing num fuel with
  | nil => simp [encodeFrom,parse,sent]
  | cons v vs ih =>
    rw [List.length_cons] at hnum
    have ih := fun fuel => ih (show 8*(num+1+vs.length) < 2^64 by omega)
      (fun w hw => hvs w (by simp [hw])) fuel
    by_cases hv : v = 0
    · simp only [encodeFrom,encodeField,sent,hv,if_true,List.nil_append] at hfuel ⊢
      exact ih fuel hfuel
    · simp only [encodeFrom,encodeField,sent,hv,if_false,List.append_assoc] at hfuel ⊢
      have hpos := length_putUvarint_pos (8*num)
      simp only [List.length_append] at hfuel
      obtain ⟨k,rfl⟩ : ∃ k, fuel = k+1 := ⟨fuel-1,by omega⟩
      rw [parse]
      · rw [readUvarint_putUvarint (by omega)]
        simp only [Nat.mul_mod_right,if_true]
        rw [readUvarint_putUvarint (hvs v (by simp))]
        simp only [ih k (by omega),Option.map_some,Nat.mul_div_cancel_left num (by omega : 0 < 8)]
      · intro h
        have := congrArg List.length h
        simp only [List.length_append,List.length_nil] at this
        omega

theorem parse_encode {vs : List ℕ} (hlen : vs.length < 64) (hvs : ∀ v ∈ vs, v < 2^64) :
    parse (encode vs).length (encode vs) = some (sent 1 vs) :=
  parse_encodeFrom (by omega) hvs _ le_rfl

theorem length_uvarintDigits_le (n x : ℕ) : (uvarintDigits n x).length ≤ n+1 := by
  induction n generalizing x with
  | zero => simp [uvarintDigits]
  | succ n ih =>
    rw [uvarintDigits]
    split_ifs
    · simp
    · have := ih (x/128)
      rw [List.length_cons]
      omega

/-- A field takes at most twenty bytes. -/
theorem length_encode_le (vs : List ℕ) : (encode vs).length ≤ 20*vs.length := by
  unfold encode
  generalize 1 = num
  induction vs generalizing num with
  | nil => simp [encodeFrom]
  | cons v vs ih =>
    have h₁ := length_uvarintDigits_le 9 (8*num)
    have h₂ := length_uvarintDigits_le 9 v
    have h₃ := ih (num+1)
    simp only [encodeFrom,encodeField,List.length_append,List.length_cons,putUvarint]
    split_ifs
    · simp only [List.length_nil]
      omega
    · simp only [List.length_append]
      omega

end Proto
end Logblock
