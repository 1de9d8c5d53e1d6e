import Kelcoro.StackResource.Regions
import Mathlib

namespace kelcoro.memory_support

/-- The padding leads to the next multiple, and not further. -/
theorem add_padding_len_least {P : Nat} (hP : 0 < P) (sz : Nat) :
    IsLeast {n | P ∣ n ∧ sz ≤ n} (sz + padding_len P sz) := by
  have hlt := Nat.mod_lt sz hP
  have hsplit := Nat.mod_add_div sz P
  by_cases hzero : sz % P = 0
  · have hpadding : padding_len P sz = 0 := by
      unfold padding_len
      rw [hzero, Nat.sub_zero, Nat.mod_self]
    rw [hpadding]
    exact ⟨⟨Nat.dvd_of_mod_eq_zero hzero, le_rfl⟩, fun n hn => hn.2⟩
  · have hpadding : padding_len P sz = P - sz % P := Nat.mod_eq_of_lt (by omega)
    have hnext : sz + (P - sz % P) = P * (sz / P + 1) := by
      rw [Nat.mul_add, Nat.mul_one]
      omega
    rw [hpadding, hnext]
    refine ⟨⟨Nat.dvd_mul_right .., by omega⟩, fun n hn => ?_⟩
    obtain ⟨⟨k, rfl⟩, hle⟩ := hn
    refine Nat.mul_le_mul_left P (Nat.succ_le_of_lt ?_)
    by_contra hge
    have hmul := Nat.mul_le_mul_left P (Nat.le_of_not_lt hge)
    omega

/-- So does rounding down from the last number before the one after it. -/
theorem round_down_least {P : Nat} (hP : 0 < P) (sz : Nat) :
    IsLeast {n | P ∣ n ∧ sz ≤ n} (sz + (P - 1) - (sz + (P - 1)) % P) := by
  have hlt := Nat.mod_lt (sz + (P - 1)) hP
  have hsplit := Nat.mod_add_div (sz + (P - 1)) P
  have hround : sz + (P - 1) - (sz + (P - 1)) % P = P * ((sz + (P - 1)) / P) := by omega
  rw [hround]
  refine ⟨⟨Nat.dvd_mul_right .., by omega⟩, fun n hn => ?_⟩
  obtain ⟨⟨k, rfl⟩, hle⟩ := hn
  refine Nat.mul_le_mul_left P ?_
  by_contra hgt
  have hmul := Nat.mul_le_mul_left P (Nat.succ_le_of_lt (Nat.lt_of_not_le hgt))
  rw [Nat.succ_eq_add_one, Nat.mul_add, Nat.mul_one] at hmul
  omega

namespace size_t

variable {w : Nat}

/-- `noexport::padding_len<RequiredPadding>`, as it is computed. -/
def padding_len (P sz : BitVec w) : BitVec w := (P - sz % P) % P

/-- `std::has_single_bit`. -/
def has_single_bit (x : BitVec w) : Bool := decide (∃ k, k < w ∧ x = BitVec.twoPow w k)

/-- `noexport::aligned<ALIGN>`. -/
def aligned (ALIGN size : BitVec w) : BitVec w :=
  if ALIGN.toNat < 2 then size
  else if has_single_bit ALIGN then
    let mask := ALIGN - 1#w
    (size + mask) &&& ~~~mask
  else size + (ALIGN - size % ALIGN) % ALIGN

variable {A s : BitVec w}

theorem padding_len_toNat (hA : 0 < A.toNat) :
    (padding_len A s).toNat = memory_support.padding_len A.toNat s.toNat := by
  have hle : s % A ≤ A := by
    rw [BitVec.le_def, BitVec.toNat_umod]
    exact (Nat.mod_lt _ hA).le
  rw [padding_len, BitVec.toNat_umod, BitVec.toNat_sub_of_le hle, BitVec.toNat_umod, memory_support.padding_len]

theorem padding_len_le (hA : 0 < A.toNat) : (padding_len A s).toNat ≤ A.toNat - 1 := by
  rw [padding_len_toNat hA]
  exact Nat.le_sub_one_of_lt (Nat.mod_lt _ hA)

theorem add_padding_len_toNat (hA : 0 < A.toNat) (hs : s.toNat + (A.toNat - 1) < 2 ^ w) :
    (s + padding_len A s).toNat = s.toNat + (padding_len A s).toNat := by
  have hle := padding_len_le (s := s) hA
  rw [BitVec.toNat_add, Nat.mod_eq_of_lt (by omega)]

/-- The bits of a mask and the others make up the whole word. -/
theorem and_not_add_and (x mask : BitVec w) : (x &&& ~~~mask).toNat + (x &&& mask).toNat = x.toNat := by
  have hdisjoint : (x &&& ~~~mask) &&& (x &&& mask) = 0#w := by
    ext i hi
    cases hx : x[i] <;> cases hm : mask[i] <;> simp [hx, hm]
  have hjoin : (x &&& ~~~mask) ||| (x &&& mask) = x := by
    ext i hi
    cases hx : x[i] <;> cases hm : mask[i] <;> simp [hx, hm]
  rw [← BitVec.toNat_add_of_and_eq_zero hdisjoint, BitVec.add_eq_or_of_and_eq_zero _ _ hdisjoint, hjoin]

theorem toNat_twoPow {k : Nat} (hk : k < w) : (BitVec.twoPow w k).toNat = 2 ^ k := by
  rw [BitVec.toNat_twoPow]
  exact Nat.mod_eq_of_lt (Nat.pow_lt_pow_right (by decide) hk)

theorem toNat_twoPow_sub_one {k : Nat} (hk : k < w) : (BitVec.twoPow w k - 1#w).toNat = 2 ^ k - 1 := by
  have hone : (1#w).toNat = 1 := by
    rw [BitVec.toNat_ofNat]
    exact Nat.mod_eq_of_lt (Nat.one_lt_two_pow (by omega))
  have hle : 1#w ≤ BitVec.twoPow w k := by
    rw [BitVec.le_def, hone, toNat_twoPow hk]
    exact Nat.one_le_two_pow
  rw [BitVec.toNat_sub_of_le hle, hone, toNat_twoPow hk]

/-- Clearing the bits below a power of two rounds down. -/
theorem and_not_twoPow_sub_one {k : Nat} (hk : k < w) (x : BitVec w) :
    (x &&& ~~~(BitVec.twoPow w k - 1#w)).toNat = x.toNat - x.toNat % 2 ^ k := by
  have hlow : (x &&& (BitVec.twoPow w k - 1#w)).toNat = x.toNat % 2 ^ k := by
    rw [BitVec.toNat_and, toNat_twoPow_sub_one hk, Nat.and_two_pow_sub_one_eq_mod]
  have hwhole := and_not_add_and x (BitVec.twoPow w k - 1#w)
  omega

/-- The path with the mask computes what the path with the remainders does. -/
theorem mask_eq_add_padding_len (hA : has_single_bit A = true) (hs : s.toNat + (A.toNat - 1) < 2 ^ w) :
    (s + (A - 1#w)) &&& ~~~(A - 1#w) = s + padding_len A s := by
  obtain ⟨k, hk, rfl⟩ := of_decide_eq_true hA
  have hpow := toNat_twoPow hk
  have hpos : 0 < (BitVec.twoPow w k).toNat := hpow ▸ Nat.two_pow_pos k
  refine BitVec.eq_of_toNat_eq ?_
  have hsum : (s + (BitVec.twoPow w k - 1#w)).toNat = s.toNat + (2 ^ k - 1) := by
    rw [BitVec.toNat_add, toNat_twoPow_sub_one hk, Nat.mod_eq_of_lt (by omega)]
  rw [and_not_twoPow_sub_one hk, hsum, add_padding_len_toNat hpos hs, padding_len_toNat hpos, hpow]
  exact (round_down_least (Nat.two_pow_pos k) s.toNat).unique (add_padding_len_least (Nat.two_pow_pos k) s.toNat)

theorem aligned_eq_add_padding_len (hA : 1 ≤ A.toNat) (hs : s.toNat + (A.toNat - 1) < 2 ^ w) :
    aligned A s = s + padding_len A s := by
  unfold aligned
  split
  · have hone : A.toNat = 1 := by omega
    have hnone : (padding_len A s).toNat = 0 := by
      have hle := padding_len_le (s := s) (Nat.lt_of_succ_le hA)
      omega
    exact BitVec.eq_of_toNat_eq (by rw [add_padding_len_toNat hA hs, hnone, Nat.add_zero])
  · split
    · exact mask_eq_add_padding_len ‹_› hs
    · rfl

/-- Rounding a size up in size_t: whichever of its two formulas `aligned` uses, it
adds the padding to the size and comes to the least multiple that is large
enough, as long as no sum wraps. -/
theorem aligned_is_least_multiple (hA : 1 ≤ A.toNat) (hs : s.toNat + (A.toNat - 1) < 2 ^ w) :
    aligned A s = s + padding_len A s ∧ (aligned A s).toNat = s.toNat + (padding_len A s).toNat ∧
      IsLeast {n | A.toNat ∣ n ∧ s.toNat ≤ n} (aligned A s).toNat ∧
      (has_single_bit A = true → (s + (A - 1#w)) &&& ~~~(A - 1#w) = s + (A - s % A) % A) := by
  have hsum := add_padding_len_toNat hA hs
  refine ⟨aligned_eq_add_padding_len hA hs, ?_, ?_, fun hbit => mask_eq_add_padding_len hbit hs⟩
  · rw [aligned_eq_add_padding_len hA hs, hsum]
  · rw [aligned_eq_add_padding_len hA hs, hsum, padding_len_toNat hA]
    exact add_padding_len_least hA s.toNat

/-- A size close to the end of the address space, with an alignment that is a
power of two and with another one. -/
theorem aligned_is_least_multiple_at_end :
    IsLeast {n | (16#64).toNat ∣ n ∧ (18446744073709551585#64).toNat ≤ n} 18446744073709551600 ∧
      IsLeast {n | (10#64).toNat ∣ n ∧ (18446744073709551585#64).toNat ≤ n} 18446744073709551590 := by
  have hpow : (aligned 16#64 18446744073709551585#64).toNat = 18446744073709551600 := by decide +kernel
  have hother : (aligned 10#64 18446744073709551585#64).toNat = 18446744073709551590 := by decide +kernel
  have hleast := aligned_is_least_multiple (A := 16#64) (s := 18446744073709551585#64) (by decide) (by decide)
  have hleast' := aligned_is_least_multiple (A := 10#64) (s := 18446744073709551585#64) (by decide) (by decide)
  exact ⟨hpow ▸ hleast.2.2.1, hother ▸ hleast'.2.2.1⟩

end size_t

end kelcoro.memory_support
