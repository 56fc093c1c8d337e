import Mathlib.Data.List.TakeWhile
import MugOS.Memory

/-!
# The Hash of a String

`hashString` of `Stdlib/mugOS/Hash.c`, which is to evaluate a polynomial whose coefficients are the
characters modulo a prime below `2 ^ 64`. The source multiplies the power before its first use, so
that the exponents are one too large; it reduces the products modulo the prime only after they
have wrapped modulo `2 ^ 64`, and the sum not at all.

## Main results

* `hashString_short`: up to seven characters nothing wraps, and the hash is 257 times the
  polynomial.
* `hashString_polynomial`: the hash is right for the empty string, wrong for all others of up to
  seven characters, and wrong for all but four first characters of any string.
* `hashString_coincides`: it is right for some longer string.
-/

namespace MugOS.Hash

open Finset

/-! ### The code -/

/-- `HASH_MULT`. -/
abbrev hashMult : ℕ := 257

/-- `HASH_MODULOUS`. -/
abbrev hashModulous : ℕ := 18446744073709551557

/-- A `char`, which is signed, converted to `uint64_t`. -/
def charToUInt64 (c : UInt8) : ℕ := if c.toNat < 128 then c.toNat else c.toNat + (2 ^ 64 - 2 ^ 8)

/-- The characters of a string up to its terminating zero. -/
def text (str : List UInt8) : List UInt8 := str.takeWhile (· ≠ 0)

/-- `strlen(str)`, which counts in an `unsigned int`. -/
def strlen (str : List UInt8) : ℕ := (text str).foldl (fun res _ => (res + 1) % 2 ^ 32) 0

/-- The body of the loop of `hashString`, for `hash` and `mult`. -/
def hashChar (str : List UInt8) (s : ℕ × ℕ) (i : ℕ) : ℕ × ℕ :=
  let mult := s.2 * hashMult % 2 ^ 64
  (wadd s.1 (charToUInt64 (str.getD i 0) * mult % 2 ^ 64 % hashModulous), mult)

/-- `hashString(str)`: the sum that the loop over the characters of the string leaves. -/
def hashString (str : List UInt8) : ℕ :=
  ((List.range (strlen str)).foldl (hashChar str) (0, 1)).1

/-! ### The polynomial -/

/-- The value of the polynomial, before it is reduced. -/
def value (str : List UInt8) : ℕ := ∑ i ∈ range str.length, (str.getD i 0).toNat * hashMult ^ i

/-- The polynomial that the source documents: `sum(i=0 to n-1) s[i] x p^i [m]`. -/
def polynomial (str : List UInt8) : ℕ := value str % hashModulous

/-- A string of 7-bit characters, none of which is zero or negative as a `char`. -/
def SevenBit (str : List UInt8) : Prop := ∀ c ∈ str, c ≠ 0 ∧ c.toNat < 128

/-! ### The loop -/

/-- The term that the loop adds for a character: its multiplied value, in 64 bits, modulo
`HASH_MODULOUS`. -/
def term (str : List UInt8) (i : ℕ) : ℕ :=
  charToUInt64 (str.getD i 0) * (hashMult ^ (i + 1) % 2 ^ 64) % 2 ^ 64 % hashModulous

/-- **The loop** adds up the terms, and multiplies the power before it uses it. -/
theorem foldl_hashChar (str : List UInt8) (n : ℕ) :
    (List.range n).foldl (hashChar str) (0, 1) =
      ((∑ i ∈ range n, term str i) % 2 ^ 64, hashMult ^ n % 2 ^ 64) := by
  induction n with
  | zero => rfl
  | succ n ih =>
      have hmult : hashMult ^ n % 2 ^ 64 * hashMult % 2 ^ 64 = hashMult ^ (n + 1) % 2 ^ 64 := by
        rw [Nat.mod_mul_mod, pow_succ hashMult n]
      rw [List.range_succ, List.foldl_append, ih, List.foldl_cons, List.foldl_nil, hashChar]
      simp only [hmult]
      rw [sum_range_succ, wadd, ← term, Nat.mod_add_mod]

/-- The hash is the sum of the terms of all characters, modulo `2 ^ 64`. -/
theorem hashString_eq (str : List UInt8) :
    hashString str = (∑ i ∈ range (strlen str), term str i) % 2 ^ 64 := by
  rw [hashString, foldl_hashChar]

/-- `strlen` counts the characters of a string without zeros, modulo `2 ^ 32`. -/
theorem strlen_eq {str : List UInt8} (hstr : SevenBit str) : strlen str = str.length % 2 ^ 32 := by
  have htext : text str = str :=
    List.takeWhile_eq_self_iff.mpr fun c hc => decide_eq_true (hstr c hc).1
  have hcount : ∀ (l : List UInt8) (n : ℕ), n < 2 ^ 32 →
      l.foldl (fun res _ => (res + 1) % 2 ^ 32) n = (n + l.length) % 2 ^ 32 := by
    intro l
    induction l with
    | nil => intro n hn; exact (Nat.mod_eq_of_lt hn).symm
    | cons c l ih =>
        intro n hn
        rw [List.foldl_cons, ih _ (Nat.mod_lt _ (by norm_num)), Nat.mod_add_mod, List.length_cons]
        congr 1
        omega
  rw [strlen, htext, hcount str 0 (by norm_num), Nat.zero_add]

/-! ### Short strings -/

/-- The characters of a 7-bit string, and the zeros behind its end, are below 128. -/
theorem SevenBit.getD_lt {str : List UInt8} (hstr : SevenBit str) (i : ℕ) :
    (str.getD i 0).toNat < 128 := by
  rw [List.getD_eq_getElem?_getD]
  cases h : str[i]? with
  | none => decide
  | some c => exact (hstr c (List.mem_of_getElem? h)).2

/-- A number whose digits in base 257 are below 128 is less than half of the next power of
257. -/
theorem two_mul_sum_lt {str : List UInt8} (hstr : SevenBit str) (n : ℕ) :
    2 * ∑ i ∈ range n, (str.getD i 0).toNat * hashMult ^ i < hashMult ^ n := by
  induction n with
  | zero => simp
  | succ n ih =>
      have hchar := hstr.getD_lt n
      have hterm : 2 * ((str.getD n 0).toNat * hashMult ^ n) ≤ 254 * hashMult ^ n := by
        rw [← Nat.mul_assoc]
        exact Nat.mul_le_mul_right _ (by omega)
      rw [sum_range_succ, Nat.mul_add, pow_succ]
      simp only [hashMult] at *
      omega

/-- **Up to seven characters nothing wraps**: the hash is the polynomial with exponents that are
one too large. -/
theorem hashString_short {str : List UInt8} (hstr : SevenBit str) (hlen : str.length ≤ 7) :
    hashString str = hashMult * value str ∧ value str < hashModulous := by
  have hbound := two_mul_sum_lt hstr str.length
  have hpow : hashMult ^ str.length ≤ hashMult ^ 7 := Nat.pow_le_pow_right (by decide) hlen
  have hterm : ∀ i ∈ range str.length,
      term str i = hashMult * ((str.getD i 0).toNat * hashMult ^ i) := by
    intro i hi
    have hchar := hstr.getD_lt i
    have hpow' : hashMult ^ (i + 1) ≤ hashMult ^ 7 :=
      Nat.pow_le_pow_right (by decide) (by have := mem_range.mp hi; omega)
    have hsmall : (str.getD i 0).toNat * hashMult ^ (i + 1) < hashModulous :=
      lt_of_le_of_lt (Nat.mul_le_mul (show _ ≤ 127 by omega) hpow') (by norm_num)
    rw [term, charToUInt64, if_pos hchar,
      Nat.mod_eq_of_lt (lt_of_le_of_lt hpow' (by norm_num)),
      Nat.mod_eq_of_lt (hsmall.trans (by norm_num)), Nat.mod_eq_of_lt hsmall, pow_succ]
    ring
  rw [← value] at hbound
  simp only [hashMult, hashModulous] at *
  have hn : strlen str = str.length := by
    rw [strlen_eq hstr]
    exact Nat.mod_eq_of_lt (by omega)
  refine ⟨?_, by omega⟩
  rw [hashString_eq, hn, sum_congr rfl hterm, ← mul_sum, ← value]
  exact Nat.mod_eq_of_lt (by omega)

/-! ### The first character -/

/-- The code of a 7-bit character is kept by the conversion to a byte. -/
theorem toNat_character {c : ℕ} (hc : c < 128) : (UInt8.ofNat c).toNat = c :=
  UInt8.toNat_ofNat_of_lt' (by simp only [UInt8.size]; omega)

/-- How hash and polynomial depend on the first character. -/
theorem first_character {str : List UInt8} (hstr : SevenBit str) : ∃ a k b, k ≤ 1 ∧
    ∀ c, 0 < c → c < 128 → hashString (UInt8.ofNat c :: str) = (a + k * (hashMult * c)) % 2 ^ 64 ∧
      polynomial (UInt8.ofNat c :: str) = (b + c) % hashModulous := by
  have hlen : ∀ c, 0 < c → c < 128 →
      strlen (UInt8.ofNat c :: str) = (str.length + 1) % 2 ^ 32 := by
    intro c hpos hc
    have hseven : SevenBit (UInt8.ofNat c :: str) := by
      rintro d (_ | ⟨_, hd⟩)
      · have hnat : (UInt8.ofNat c).toNat = c := toNat_character hc
        refine ⟨?_, by omega⟩
        intro h0
        rw [h0] at hnat
        exact absurd hnat (by simpa using hpos.ne)
      · exact hstr d hd
    rw [strlen_eq hseven, List.length_cons]
  have hvalue : ∀ c < 128, value (UInt8.ofNat c :: str) =
      ∑ i ∈ range str.length, (str.getD i 0).toNat * hashMult ^ (i + 1) + c := by
    intro c hc
    have hnat : (UInt8.ofNat c).toNat = c := toNat_character hc
    rw [value, List.length_cons, sum_range_succ']
    simp only [List.getD_cons_succ, List.getD_cons_zero, hnat, pow_zero, Nat.mul_one]
  cases hn : (str.length + 1) % 2 ^ 32 with
  | zero =>
      refine ⟨0, 0, _, by omega, fun c hpos hc => ⟨?_, by rw [polynomial, hvalue c hc]⟩⟩
      rw [hashString_eq, hlen c hpos hc, hn]
      simp
  | succ n =>
      refine ⟨∑ i ∈ range n, term (0 :: str) (i + 1), 1, _, le_rfl,
        fun c hpos hc => ⟨?_, by rw [polynomial, hvalue c hc]⟩⟩
      have hnat : (UInt8.ofNat c).toNat = c := toNat_character hc
      have hfirst : term (UInt8.ofNat c :: str) 0 = hashMult * c := by
        have hmult : hashMult ^ (0 + 1) % 2 ^ 64 = hashMult := by decide
        rw [term, List.getD_cons_zero, charToUInt64, if_pos (by omega), hnat, hmult, Nat.mul_comm c,
          Nat.mod_eq_of_lt (show 257 * c < 2 ^ 64 by omega),
          Nat.mod_eq_of_lt (show 257 * c < 18446744073709551557 by omega)]
      rw [hashString_eq, hlen c hpos hc, hn, sum_range_succ', hfirst, Nat.one_mul]
      rfl

/-- The remainder of a number that wraps once at most is the number itself, or the number
without one modulus. -/
theorem mod_once {x n : ℕ} (hx : x < 2 * n) : x % n = if n ≤ x then x - n else x := by
  split
  next h => rw [Nat.mod_eq_sub_mod h, Nat.mod_eq_of_lt (by omega)]
  next h => exact Nat.mod_eq_of_lt (by omega)

/-- Two numbers that grow differently and wrap once at most agree four times at most. -/
theorem card_agree_le {a k b : ℕ} (hk : k ≤ 1) :
    ((range 128).filter fun c => 0 < c ∧
      (a + k * (hashMult * c)) % 2 ^ 64 = (b + c) % hashModulous).card ≤ 4 := by
  obtain ⟨a', ha, hsum⟩ : ∃ a' < 2 ^ 64, ∀ x, (a + x) % 2 ^ 64 = (a' + x) % 2 ^ 64 :=
    ⟨a % 2 ^ 64, Nat.mod_lt _ (by norm_num), fun x => (Nat.mod_add_mod ..).symm⟩
  obtain ⟨b', hb, hsum'⟩ : ∃ b' < hashModulous,
      ∀ x, (b + x) % hashModulous = (b' + x) % hashModulous :=
    ⟨b % hashModulous, Nat.mod_lt _ (by norm_num), fun x => (Nat.mod_add_mod ..).symm⟩
  simp only [hsum, hsum']
  -- whether each of the two numbers wraps
  refine card_le_card_of_injOn (t := (univ : Finset (Bool × Bool)))
    (fun c => (decide (2 ^ 64 ≤ a' + k * (hashMult * c)), decide (hashModulous ≤ b' + c)))
    (fun _ _ => mem_univ _) ?_
  intro c hc d hd heq
  obtain ⟨hclt, -, hagree⟩ := mem_filter.mp hc
  obtain ⟨hdlt, -, hagree'⟩ := mem_filter.mp hd
  rw [mem_range] at hclt hdlt
  rw [Prod.mk.injEq, decide_eq_decide, decide_eq_decide] at heq
  obtain ⟨hwraps, hwraps'⟩ := heq
  have hsmall : ∀ x < 128, k * (hashMult * x) ≤ 257 * 128 := by
    intro x hx
    obtain rfl | rfl : k = 0 ∨ k = 1 := by omega
    · omega
    · simp only [hashMult]
      omega
  have hsmallc := hsmall c hclt
  have hsmalld := hsmall d hdlt
  rw [mod_once (by omega), mod_once (by simp only [hashModulous] at *; omega)] at hagree hagree'
  rw [← if_congr hwraps rfl rfl, ← if_congr hwraps' rfl rfl] at hagree'
  simp only [hashMult, hashModulous] at *
  obtain rfl | rfl : k = 0 ∨ k = 1 := by omega
  · split_ifs at hagree hagree' <;> omega
  · split_ifs at hagree hagree' <;> omega

/-- **When the hash is the polynomial**: it is for the empty string; it is not for a string of one
to seven characters; and in front of any string, there are four first characters at most for
which it is. -/
theorem hashString_polynomial {str : List UInt8} (hstr : SevenBit str) :
    (str = [] → hashString str = polynomial str) ∧
      (str ≠ [] → str.length ≤ 7 → hashString str ≠ polynomial str) ∧
      ((range 128).filter fun c => 0 < c ∧
        hashString (UInt8.ofNat c :: str) = polynomial (UInt8.ofNat c :: str)).card ≤ 4 := by
  refine ⟨?_, ?_, ?_⟩
  · rintro rfl
    rfl
  · intro hne hlen heq
    obtain ⟨hhash, hlt⟩ := hashString_short hstr hlen
    rw [hhash, polynomial, Nat.mod_eq_of_lt hlt] at heq
    obtain ⟨c, rest, rfl⟩ := List.exists_cons_of_ne_nil hne
    -- the first character is a lower bound of the polynomial
    have hfirst : c.toNat ≤ value (c :: rest) := by
      rw [value, List.length_cons, sum_range_succ', List.getD_cons_zero, pow_zero, Nat.mul_one]
      exact Nat.le_add_left _ _
    have hpos : c.toNat ≠ 0 := fun h0 => (hstr c List.mem_cons_self).1 (UInt8.toNat_inj.mp h0)
    simp only [hashMult] at heq
    omega
  · obtain ⟨a, k, b, hk, hdepends⟩ := first_character hstr
    refine le_trans (card_le_card fun c hc => ?_) (card_agree_le (a := a) (b := b) hk)
    obtain ⟨hlt, hpos, hagree⟩ := mem_filter.mp hc
    obtain ⟨hhash, hpoly⟩ := hdepends c hpos (mem_range.mp hlt)
    rw [hhash, hpoly] at hagree
    exact mem_filter.mpr ⟨hlt, hpos, hagree⟩

/-- `"a"` is a string for which the hash is not the polynomial, by the theorem. -/
theorem hashString_polynomial_a : hashString [97] ≠ polynomial [97] :=
  (hashString_polynomial (List.forall_mem_singleton.mpr (by decide))).2.1 (by decide) (by decide)

/-- **Longer strings can agree by coincidence**: the hash of `mY}o"pnQk,` is the polynomial,
although every power in it is one too large, because its products wrap modulo `2 ^ 64`. -/
theorem hashString_coincides : ∃ str, SevenBit str ∧ str.length = 10 ∧
    hashString str = polynomial str := by
  refine ⟨[0x6d, 0x59, 0x7d, 0x6f, 0x22, 0x70, 0x6e, 0x51, 0x6b, 0x2c], ?_, rfl, ?_⟩
  · unfold SevenBit
    decide +kernel
  · decide +kernel

/-- **The hash of `"a"`** is 24929, and the polynomial is 97. -/
theorem hashString_shifted : hashString [97] = 24929 ∧ polynomial [97] = 97 ∧
    ¬ ∀ str, SevenBit str → hashString str = polynomial str := by
  have hhash : hashString [97] = 24929 := by decide +kernel
  have hpoly : polynomial [97] = 97 := by decide +kernel
  refine ⟨hhash, hpoly, fun hall => ?_⟩
  have hsame := hall [97] (List.forall_mem_singleton.mpr (by decide))
  rw [hhash, hpoly] at hsame
  exact absurd hsame (by decide)

end MugOS.Hash
