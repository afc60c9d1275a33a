import Shrt.App.RateLimit

/-!
# Addresses that share a map

Enough addresses with different keys in one map of the limiter to make it crowded. They have three
bytes: two that are free, and a third that is chosen, in four ways, such that the key falls into the
first map.

The hash multiplies by an odd number after each byte, which loses nothing, but a byte is mixed into
the low end of a product, so different addresses could collide. These do not: a difference in the
first byte moves the sum of two steps by at least `2 ^ 40`, which a difference in the low end cannot
make up for (`eq_of_high_eq`).
-/

namespace Shrt.RateLimit

/-! ## The hash -/

/-- The factor of the hash. -/
def PRIME : ℕ := 0x100000001b3

/-- One byte of the hash. -/
def mix (h : UInt64) (c : UInt8) : UInt64 := (h ^^^ c.toUInt64) * 0x100000001b3

theorem toNat_mix (h : UInt64) (c : UInt8) :
    (mix h c).toNat = (h ^^^ c.toUInt64).toNat * PRIME % 2 ^ 64 :=
  UInt64.toNat_mul _ _

/-- Multiplication loses nothing. -/
theorem xor_eq_of_mix_eq {h h' : UInt64} {c c' : UInt8} (heq : mix h c = mix h' c') :
    h ^^^ c.toUInt64 = h' ^^^ c'.toUInt64 := by
  have hinv : (0x100000001b3 : UInt64) * 0xce965057aff6957b = 1 := by decide
  have := congrArg (· * 0xce965057aff6957b) heq
  simpa only [mix, UInt64.mul_assoc, hinv, UInt64.mul_one] using this

/-- A byte changes the low end only. -/
theorem toNat_xor_byte (h : UInt64) (c : UInt8) :
    (h ^^^ c.toUInt64).toNat = 256 * (h.toNat / 256) + (h.toNat % 256 ^^^ c.toNat) := by
  have hlt : c.toNat < 2 ^ 8 := c.toNat_lt
  have hhigh := @Nat.xor_div_two_pow h.toNat c.toNat 8
  have hlow := @Nat.xor_mod_two_pow h.toNat c.toNat 8
  rw [Nat.div_eq_of_lt hlt, Nat.xor_zero] at hhigh
  rw [Nat.mod_eq_of_lt hlt] at hlow
  rw [UInt64.toNat_xor, UInt8.toNat_toUInt64]
  calc h.toNat ^^^ c.toNat
      = 2 ^ 8 * ((h.toNat ^^^ c.toNat) / 2 ^ 8) + (h.toNat ^^^ c.toNat) % 2 ^ 8 :=
        (Nat.div_add_mod _ _).symm
    _ = 2 ^ 8 * (h.toNat / 2 ^ 8) + (h.toNat % 2 ^ 8 ^^^ c.toNat) := by rw [hhigh, hlow]

theorem low_xor_lt (h : UInt64) (c : UInt8) : h.toNat % 256 ^^^ c.toNat < 256 :=
  Nat.xor_lt_two_pow (n := 8) (Nat.mod_lt _ (by decide)) c.toNat_lt

theorem byte_eq_of_low_xor_eq {n : ℕ} {c c' : UInt8} (h : n ^^^ c.toNat = n ^^^ c'.toNat) : c = c' :=
  UInt8.toNat_inj.mp (Nat.xor_right_injective h)

/-- Small multiples of the factor and of its square do not add up to nearly nothing. -/
theorem eq_zero_of_small_sum {d e m : ℤ} (hd : -256 < d ∧ d < 256) (he : -511 < e ∧ e < 511)
    (hlow : -256 < 2 ^ 40 * (870 * d + e) + 189225 * d + 435 * e + 2 ^ 64 * m)
    (hhigh : 2 ^ 40 * (870 * d + e) + 189225 * d + 435 * e + 2 ^ 64 * m < 256) : d = 0 ∧ e = 0 := by
  have hm : m = 0 := by omega
  have hsum : 870 * d + e = 0 := by omega
  omega

/-- **Two bytes can be read off** all but the low end of what they are hashed to. -/
theorem eq_of_high_eq {h i i' j j' x x' : ℕ} (hi : i < 256) (hi' : i' < 256) (hj : j < 256)
    (hj' : j' < 256) (hx : x = (256 * h + i) * PRIME % 2 ^ 64)
    (hx' : x' = (256 * h + i') * PRIME % 2 ^ 64)
    (heq : (256 * (x / 256) + j) * PRIME % 2 ^ 64 / 256 =
      (256 * (x' / 256) + j') * PRIME % 2 ^ 64 / 256) : i = i' ∧ j = j' := by
  rw [PRIME] at hx hx' heq
  -- By how much the first byte changes `x`, and the second what `x` is replaced with.
  let d : ℤ := i - i'
  let e : ℤ := j - j' - (x % 256 : ℕ) + (x' % 256 : ℕ)
  -- What the four products overflow by, and the overflow of the square of the factor.
  let q : ℤ := ((256 * h + i) * 0x100000001b3 / 2 ^ 64 : ℕ) -
    ((256 * h + i') * 0x100000001b3 / 2 ^ 64 : ℕ)
  let r : ℤ := ((256 * (x / 256) + j) * 0x100000001b3 / 2 ^ 64 : ℕ) -
    ((256 * (x' / 256) + j') * 0x100000001b3 / 2 ^ 64 : ℕ)
  have hsmall := @eq_zero_of_small_sum d e (2 ^ 16 * d - r - 0x100000001b3 * q)
  omega

/-- The first two bytes of an address can be told from all but the low end of their hash. -/
theorem bytes_eq_of_high_eq {a b a' b' : UInt8}
    (h : (ipKey [a, b]).toNat / 256 = (ipKey [a', b']).toNat / 256) : a = a' ∧ b = b' := by
  have hpair : ∀ a b : UInt8, ipKey [a, b] = mix (mix (ipKey []) a) b := fun _ _ ↦ rfl
  have hone : ∀ a : UInt8, (mix (ipKey []) a).toNat = (256 * ((ipKey []).toNat / 256) +
      ((ipKey []).toNat % 256 ^^^ a.toNat)) * PRIME % 2 ^ 64 := fun a ↦ by
    rw [toNat_mix, toNat_xor_byte]
  rw [hpair, hpair, toNat_mix, toNat_mix, toNat_xor_byte, toNat_xor_byte] at h
  obtain ⟨hfirst, hsecond⟩ := eq_of_high_eq (low_xor_lt _ _) (low_xor_lt _ _) (low_xor_lt _ _)
    (low_xor_lt _ _) (hone a) (hone a') h
  have ha := byte_eq_of_low_xor_eq hfirst
  rw [ha] at hsecond
  exact ⟨ha, byte_eq_of_low_xor_eq hsecond⟩

/-- **Addresses of three bytes do not collide.** -/
theorem bytes_eq_of_ipKey_eq {a b c a' b' c' : UInt8} (h : ipKey [a, b, c] = ipKey [a', b', c']) :
    a = a' ∧ b = b' ∧ c = c' := by
  have hthird := congrArg UInt64.toNat
    (@xor_eq_of_mix_eq (ipKey [a, b]) (ipKey [a', b']) c c' h)
  rw [toNat_xor_byte, toNat_xor_byte] at hthird
  have hlow := low_xor_lt (ipKey [a, b]) c
  have hlow' := low_xor_lt (ipKey [a', b']) c'
  obtain ⟨ha, hb⟩ := @bytes_eq_of_high_eq a b a' b' (by omega)
  rw [ha, hb] at hthird
  exact ⟨ha, hb, byte_eq_of_low_xor_eq (Nat.add_left_cancel hthird)⟩

/-! ## The crowd -/

/-- The third byte after two, in one of four ways. -/
def third (a b : UInt8) (j : ℕ) : ℕ := (ipKey [a, b]).toNat % 64 + 64 * (j % 4)

/-- The address of a number below 4096. -/
def member (n : ℕ) : Bytes :=
  [UInt8.ofNat (n / 1024), UInt8.ofNat (n / 4 % 256),
    UInt8.ofNat (third (UInt8.ofNat (n / 1024)) (UInt8.ofNat (n / 4 % 256)) n)]

theorem third_lt (a b : UInt8) (j : ℕ) : third a b j < 256 := by
  rw [third]
  omega

/-- The third byte takes the key into the first map. -/
theorem shardIdx_third (a b : UInt8) (j : ℕ) :
    shardIdx (ipKey [a, b, UInt8.ofNat (third a b j)]) = ⟨0, by decide⟩ := by
  have hlow : (ipKey [a, b] ^^^ (UInt8.ofNat (third a b j)).toUInt64).toNat % 2 ^ 6 = 0 := by
    rw [UInt64.toNat_xor, UInt8.toNat_toUInt64, UInt8.toNat_ofNat_of_lt' (third_lt a b j),
      Nat.xor_mod_two_pow]
    have hsame : third a b j % 2 ^ 6 = (ipKey [a, b]).toNat % 2 ^ 6 := by
      rw [third]
      omega
    rw [hsame, Nat.xor_self]
  have hmix := toNat_mix (ipKey [a, b]) (UInt8.ofNat (third a b j))
  have hkey : ipKey [a, b, UInt8.ofNat (third a b j)] =
    mix (ipKey [a, b]) (UInt8.ofNat (third a b j)) := rfl
  refine Fin.ext ?_
  change (ipKey [a, b, UInt8.ofNat (third a b j)]).toNat % 64 = 0
  rw [hkey, hmix, PRIME]
  omega

theorem shardIdx_member (n : ℕ) : shardIdx (ipKey (member n)) = ⟨0, by decide⟩ :=
  shardIdx_third _ _ _

/-- **Different members have different keys.** -/
theorem ipKey_member_inj {n n' : ℕ} (hn : n < 4096) (hn' : n' < 4096)
    (heq : ipKey (member n) = ipKey (member n')) : n = n' := by
  obtain ⟨ha, hb, hc⟩ := bytes_eq_of_ipKey_eq heq
  rw [ha, hb] at hc
  replace ha := congrArg UInt8.toNat ha
  replace hb := congrArg UInt8.toNat hb
  replace hc := congrArg UInt8.toNat hc
  rw [UInt8.toNat_ofNat_of_lt' (third_lt _ _ _), UInt8.toNat_ofNat_of_lt' (third_lt _ _ _), third,
    third] at hc
  rw [UInt8.toNat_ofNat_of_lt' (show n / 4 % 256 < 256 by omega),
    UInt8.toNat_ofNat_of_lt' (show n' / 4 % 256 < 256 by omega)] at hb
  rw [UInt8.toNat_ofNat_of_lt' (show n / 1024 < 256 by omega),
    UInt8.toNat_ofNat_of_lt' (show n' / 1024 < 256 by omega)] at ha
  omega

end Shrt.RateLimit
